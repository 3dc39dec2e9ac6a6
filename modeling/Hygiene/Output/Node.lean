import Hygiene.Output.Json
import Hygiene.Source.Text

/-!
# The output tree

A node of the output has a kind, the location it was written at, when locations are tracked, and fields in a fixed
order.
-/

namespace Hygiene

mutual

/-- A node of the output tree. -/
inductive Node where
  | mk (kind : String) (location : Option Location) (fields : List (String × Field))

/-- The content of a field. -/
inductive Field where
  /-- An optional part that is not there. -/
  | absent
  | flag (value : Bool)
  | number (value : Float)
  | text (value : String)
  /-- The name of an identifier, as its binding has it. -/
  | name (value : String)
  | node (node : Node)
  | nodes (nodes : List Node)

end

namespace Field

/-- An optional node. -/
def optional : Option Node → Field
  | some n => node n
  | none => absent

end Field

/-- A place in a text as JSON. -/
def Position.json (p : Position) : Json :=
  .object [("line", .int p.line), ("column", .int p.column), ("offset", .int p.offset)]

/-- A location as JSON. -/
def locationJson : Option Location → Json
  | some l => .object [("start", l.start.json), ("end", l.stop.json)]
  | none => .null

mutual

/-- A node as JSON: its kind and its location come before its fields. -/
def Node.json : Node → Json
  | .mk kind location fields => .object (("type", .str kind) :: ("loc", locationJson location) :: Field.jsonAll fields)

/-- The content of a field as JSON. -/
def Field.json : Field → Json
  | .absent => .null
  | .flag b => .bool b
  | .number x => .ofFloat x
  | .text s => .str s
  | .name s => .str s
  | .node n => n.json
  | .nodes ns => .array (Node.jsonAll ns)

/-- Fields as JSON. -/
def Field.jsonAll : List (String × Field) → List (String × Json)
  | [] => []
  | (name, field) :: rest => (name, field.json) :: Field.jsonAll rest

/-- Nodes as JSON. -/
def Node.jsonAll : List Node → List Json
  | [] => []
  | n :: ns => n.json :: Node.jsonAll ns

end

end Hygiene
