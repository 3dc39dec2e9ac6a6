import Hygiene.Config
import Hygiene.Module.Record
import Hygiene.Output.Node

/-!
# From terms to the output tree

Imports and exports of transformers are left out. A renamed binding is written as a placeholder or under its fresh name;
imported and unbound names are written as they are.
-/

namespace Hygiene

/-- What the output of a module is written with. -/
structure Lowering where
  store : Store
  sources : Sources
  config : Config

/-- The name that stands for every renamed binding. -/
def hygienePlaceholder : String := "<<hygiene>>"

namespace Lowering

/-- The location of a site, when locations are tracked. -/
def location (w : Lowering) (site : Site) : Option Location :=
  if w.config.trackLocations then w.sources.locateSite site else none

/-- A node at a site. -/
def node (w : Lowering) (kind : String) (site : Site) (fields : List (String × Field)) : Node :=
  .mk kind (w.location site) fields

/-- The name of an identifier in the output. -/
def name (w : Lowering) (ident : Token) : String :=
  match w.store.resolveIdent ident with
  | some b =>
    if b.isRenamed then
      match w.config.names with
      | .placeholder => hygienePlaceholder
      | .fresh => b.fresh
    else ident.name
  | none => ident.name

/-- Whether an identifier refers to a transformer. -/
def isTransformer (w : Lowering) (ident : Token) : Bool :=
  (w.store.resolveIdent ident).any (·.kind.isTransformer)

/-- An identifier that binds. -/
def binding (w : Lowering) (ident : Token) : Node :=
  w.node "BindingIdentifier" ident.site [("name", .name (w.name ident))]

/-- The parameters of a function. -/
def parameters (w : Lowering) (params : List Token) (rest : Option Token) : Node :=
  .mk "FormalParameters" none
    [("items", .nodes (params.map w.binding)), ("rest", .optional (rest.map w.binding))]

/-- The statements of a function. -/
def functionBody (statements : List Node) : Node :=
  .mk "FunctionBody" none [("directives", .nodes []), ("statements", .nodes statements)]

/-- The fields of a function. -/
def functionFields (w : Lowering) (name : Field) (params : List Token) (rest : Option Token) (statements : List Node) :
    List (String × Field) :=
  [("isGenerator", .flag false), ("name", name), ("params", .node (w.parameters params rest)),
    ("body", .node (functionBody statements))]

mutual

/-- The node of an expression. -/
def expression (w : Lowering) : Expression → Node
  | .number n site => w.node "LiteralNumericExpression" site [("value", .number n)]
  | .str s site => w.node "LiteralStringExpression" site [("value", .text s)]
  | .bool b site => w.node "LiteralBooleanExpression" site [("value", .flag b)]
  | .null site => w.node "LiteralNullExpression" site []
  | .ident token site => w.node "IdentifierExpression" site [("name", .name (w.name token))]
  | .array items site => w.node "ArrayExpression" site [("elements", .nodes (expressions w items))]
  | .object list site => w.node "ObjectExpression" site [("properties", .nodes (properties w list))]
  | .lambda ⟨_, _, params, rest, .concise value, true, _⟩ site =>
    w.node "ArrowExpression" site [("params", .node (w.parameters params rest)), ("body", .node (expression w value))]
  | .lambda ⟨_, _, params, rest, body, true, _⟩ site =>
    w.node "ArrowExpression" site
      [("params", .node (w.parameters params rest)), ("body", .node (functionBody (bodyStatements w body)))]
  | .lambda ⟨_, name, params, rest, body, false, _⟩ site =>
    w.node "FunctionExpression" site
      (w.functionFields (.optional (name.map w.binding)) params rest (bodyStatements w body))
  | .call callee args site =>
    w.node "CallExpression" site [("callee", .node (expression w callee)), ("arguments", .nodes (expressions w args))]
  | .member object property site =>
    w.node "StaticMemberExpression" site [("object", .node (expression w object)), ("property", .text property)]
  | .index object key site =>
    w.node "ComputedMemberExpression" site
      [("object", .node (expression w object)), ("expression", .node (expression w key))]
  | .unary operator operand site =>
    w.node "UnaryExpression" site [("operator", .text operator.text), ("operand", .node (expression w operand))]
  | .binary operator left right site =>
    w.node "BinaryExpression" site
      [("operator", .text operator.text), ("left", .node (expression w left)), ("right", .node (expression w right))]
  | .conditional test consequent alternate site =>
    w.node "ConditionalExpression" site
      [("test", .node (expression w test)), ("consequent", .node (expression w consequent)),
        ("alternate", .node (expression w alternate))]
  | .assign target value site =>
    w.node "AssignmentExpression" site
      [("binding", .node (expression w target)), ("expression", .node (expression w value))]
  | .template _ source site => w.node "SyntaxTemplate" site [("template", .text (Tree.textAll source))]

/-- The nodes of expressions. -/
def expressions (w : Lowering) : List Expression → List Node
  | [] => []
  | e :: es => expression w e :: expressions w es

/-- The node of an optional expression. -/
def optionalExpression (w : Lowering) : Option Expression → Field
  | none => .absent
  | some e => .node (expression w e)

/-- The nodes of properties. -/
def properties (w : Lowering) : List Property → List Node
  | [] => []
  | ⟨name, value, site⟩ :: rest =>
    w.node "DataProperty" site
      [("name", .node (.mk "StaticPropertyName" none [("value", .text name)])),
        ("expression", .node (expression w value))] :: properties w rest

/-- The statements of a body. The expression of an arrow without braces is returned; a body that was never expanded
has none. -/
def bodyStatements (w : Lowering) : Body → List Node
  | .deferred _ => []
  | .block list => statements w list
  | .concise value => [w.node "ReturnStatement" value.site [("expression", .node (expression w value))]]

/-- The node of a function declaration. -/
def functionDeclaration (w : Lowering) : Lambda → Node
  | ⟨_, name, params, rest, body, _, site⟩ =>
    let name := match name with
      | some name => w.binding name
      | none => .mk "BindingIdentifier" none [("name", .name "")]
    w.node "FunctionDeclaration" site (w.functionFields (.node name) params rest (bodyStatements w body))

/-- The node of a statement. -/
def statement (w : Lowering) : Statement → Node
  | .declaration d site => w.node "VariableDeclarationStatement" site [("declaration", .node (declaration w d))]
  | .function fn _ => functionDeclaration w fn
  | .expression value site => w.node "ExpressionStatement" site [("expression", .node (expression w value))]
  | .return value site => w.node "ReturnStatement" site [("expression", optionalExpression w value)]
  | .branch test consequent alternate site =>
    w.node "IfStatement" site
      [("test", .node (expression w test)), ("consequent", .node (statement w consequent)),
        ("alternate", optionalStatement w alternate)]
  | .loop test body site =>
    w.node "WhileStatement" site [("test", .node (expression w test)), ("body", .node (statement w body))]
  | .block list site =>
    w.node "BlockStatement" site [("block", .node (w.node "Block" site [("statements", .nodes (statements w list))]))]
  | .empty site => w.node "EmptyStatement" site []
  | .throw value site => w.node "ThrowStatement" site [("expression", .node (expression w value))]

/-- The nodes of statements. -/
def statements (w : Lowering) : List Statement → List Node
  | [] => []
  | s :: ss => statement w s :: statements w ss

/-- The node of an optional statement. -/
def optionalStatement (w : Lowering) : Option Statement → Field
  | none => .absent
  | some s => .node (statement w s)

/-- The node of a declaration. -/
def declaration (w : Lowering) : Declaration → Node
  | ⟨kind, list, site⟩ =>
    w.node "VariableDeclaration" site [("kind", .text kind.keyword), ("declarators", .nodes (declarators w list))]

/-- The nodes of declared names. -/
def declarators (w : Lowering) : List Declarator → List Node
  | [] => []
  | ⟨ident, init, site⟩ :: rest =>
    w.node "VariableDeclarator" site [("binding", .node (w.binding ident)), ("init", optionalExpression w init)] ::
      declarators w rest

end

/-- The node of an imported name. -/
def importSpecifier (w : Lowering) (s : ImportSpecifier) : Node :=
  let source := match s.source.bind (·.ident?) with
    | some name => Field.text name
    | none => .absent
  w.node "ImportSpecifier" s.site [("name", source), ("binding", .node (w.binding s.binding))]

/-- The node of an import. It keeps its runtime bindings; one that has none left is left out. -/
def importNode? (w : Lowering) (i : Import) : Option Node :=
  if i.forSyntax then none
  else
    let named := (i.named.filter fun s => !w.isTransformer s.binding).map w.importSpecifier
    if named.isEmpty && i.defaultBinding.isNone then none
    else
      some (w.node "Import" i.site
        [("defaultBinding", .optional (i.defaultBinding.map w.binding)), ("namedImports", .nodes named),
          ("moduleSpecifier", .text i.specifier)])

/-- The node of an exported name. The name in the module is written when it differs from the exported one. -/
def exportSpecifier (w : Lowering) (s : ExportSpecifier) : Node :=
  let inner := w.name s.inner
  let outer := s.exportName
  w.node "ExportSpecifier" s.site
    [("name", if inner = outer then .absent else .name inner), ("exportedName", .text outer)]

/-- The node of a module item, if it has one. -/
def item? (w : Lowering) : ModuleItem → Option Node
  | .importItem i => w.importNode? i
  | .exportItem (.declaration d) site => some (w.node "Export" site [("declaration", .node (w.declaration d))])
  | .exportItem (.function fn) site => some (w.node "Export" site [("declaration", .node (w.functionDeclaration fn))])
  | .exportItem (.defaultValue _ value) site => some (w.node "ExportDefault" site [("body", .node (w.expression value))])
  | .exportList specifiers site =>
    let kept := (specifiers.filter fun s => !w.isTransformer s.inner).map w.exportSpecifier
    if kept.isEmpty then none else some (w.node "ExportLocals" site [("namedExports", .nodes kept)])
  | .statement inner => some (w.statement inner)

/-- The node of a module. -/
def module (w : Lowering) (record : ModuleRecord) : Node :=
  let length := ((w.sources.text? record.file).map (·.text.utf8ByteSize)).getD 0
  w.node "Module" ⟨some record.file, ⟨0, length⟩⟩
    [("directives", .nodes []), ("items", .nodes (record.items.filterMap w.item?))]

end Lowering

end Hygiene
