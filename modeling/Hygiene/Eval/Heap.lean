import Hygiene.Value.Basic

/-!
# Frames and cursors

Variables live in frames, and closures share the frames they were made in. The arguments of a transformer are read
through a cursor, which is shared as well. The heap holds all of them; environments and values refer to them by number.
-/

namespace Hygiene

/-- The variables of one scope, in the order in which they were defined. -/
abbrev Frame := List (String × Value)

/-- What a transformer reads: the name it was used under, the tokens after it, and how many of them were taken. -/
structure Cursor where
  name : Token
  tokens : List Token
  taken : Nat := 0

namespace Cursor

/-- Takes the next token. At the end there is none and nothing is taken. -/
def next (c : Cursor) : Option Token × Cursor :=
  match c.tokens[c.taken]? with
  | some token => (some token, { c with taken := c.taken + 1 })
  | none => (none, c)

/-- Goes back to the first token. -/
def reset (c : Cursor) : Cursor := { c with taken := 0 }

end Cursor

/-- All frames and cursors made so far. -/
structure Heap where
  frames : Array Frame := #[]
  cursors : Array Cursor := #[]

namespace Heap

/-- The variables of a frame. -/
def frame (h : Heap) (id : FrameId) : Frame := h.frames[id]?.getD []

/-- Adds an empty frame. -/
def addFrame (h : Heap) : FrameId × Heap := (h.frames.size, { h with frames := h.frames.push [] })

/-- Adds a cursor. -/
def addCursor (h : Heap) (c : Cursor) : CursorId × Heap := (h.cursors.size, { h with cursors := h.cursors.push c })

/-- Sets a variable of a frame. -/
def store (h : Heap) (id : FrameId) (name : String) (value : Value) : Heap :=
  { h with frames := h.frames.modify id (Assoc.insert name value) }

/-- Changes a cursor. -/
def modifyCursor (h : Heap) (id : CursorId) (change : Cursor → Cursor) : Heap :=
  { h with cursors := h.cursors.modify id change }

/-- An environment with one new frame. -/
def newEnvironment (h : Heap) : Environment × Heap :=
  let (id, h) := h.addFrame
  ({ base := id }, h)

/-- The environment with a new frame inside. -/
def push (h : Heap) (env : Environment) : Environment × Heap :=
  let (id, h) := h.addFrame
  ({ env with inner := id :: env.inner }, h)

/-- The value of a variable in the innermost frame that has it. -/
def get? (h : Heap) (env : Environment) (name : String) : Option Value :=
  env.frames.findSome? fun id => Assoc.get? name (h.frame id)

/-- Whether a variable is defined. -/
def contains (h : Heap) (env : Environment) (name : String) : Bool :=
  env.frames.any fun id => Assoc.contains name (h.frame id)

/-- The innermost frame that has a variable. -/
def holder? (h : Heap) (env : Environment) (name : String) : Option FrameId :=
  env.frames.find? fun id => Assoc.contains name (h.frame id)

/-- Sets a variable in the innermost frame that has it, if one has. -/
def set? (h : Heap) (env : Environment) (name : String) (value : Value) : Option Heap :=
  match h.holder? env name with
  | some id => some (h.store id name value)
  | none => none

/-- Defines a variable in the innermost frame. -/
def define (h : Heap) (env : Environment) (name : String) (value : Value) : Heap :=
  h.store (env.inner.head?.getD env.base) name value

/-- Defines a variable in the outermost frame. -/
def defineBase (h : Heap) (env : Environment) (name : String) (value : Value) : Heap := h.store env.base name value

/-- The names of all visible variables, in order. -/
def names (h : Heap) (env : Environment) : List String :=
  ((env.frames.flatMap fun id => Assoc.keys (h.frame id)).mergeSort fun a b => decide (a ≤ b)).eraseReps

end Heap

/-- The environment without its innermost frame; the outermost frame stays. -/
def Environment.pop (env : Environment) : Environment := { env with inner := env.inner.tail }

end Hygiene
