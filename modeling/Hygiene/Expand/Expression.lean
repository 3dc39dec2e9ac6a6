import Hygiene.Expand.Invoke

/-!
# Reading of expressions

Expressions are read by descent, from assignments to primary expressions; before each of the latter transformers are
invoked. Groups are read as streams of their own, so a transformer never takes tokens from outside its group.
-/

namespace Hygiene

/-- How the parts of a term are read, and how often a sequence of parts may go on. -/
structure Passes where
  limit : Nat
  assignment : Parse Expression
  unary : Parse Expression
  statement : Parse (Option Statement)
  /-- Expands the tokens of a function body. -/
  body : List Token → Expand (List Statement)
  /-- The record of a module, which is loaded when it is first asked for. -/
  load : String → Site → Expand ModuleRecord

namespace Expand

/-- Reads parameters and binds them in the scope of their function. At the end one may stand for all other
arguments. -/
def parameters (scope : ScopeId) : List (List Token) → Expand (List Token × Option Token)
  | [] => return ([], none)
  | part :: parts => do
    let invalid := fail (.parse (.invalidParameter (Tree.textAll part))) (Token.cover part)
    match part with
    | [ident] =>
      if ident.isIdent then
        let param := ident.addScope scope
        bindVariable param
        let (params, rest) ← parameters scope parts
        return (param :: params, rest)
      else invalid
    | [dots, ident] =>
      if dots.isPunct "..." && ident.isIdent then
        let param := ident.addScope scope
        bindVariable param
        match parts with
        | [] => return ([], some param)
        | next :: _ => fail (.parse .restNotLast) (Token.cover next)
      else invalid
    | _ => invalid

/-- Reads all of the tokens as one expression. -/
def groupExpression (p : Passes) (tokens : List Token) (site : Site) : Expand Expression := do
  if tokens.isEmpty then fail (.parse .emptyGroup) site
  else
    let (value, _) ← Parse.on tokens do
      let value ← p.assignment
      if ← Parse.atEnd then return value else Parse.unexpected "the end of the group"
    return value

end Expand

namespace Parse

/-- Reads expressions with commas between them; a comma may also stand at the end. -/
def listItems (p : Passes) : Nat → Parse (List Expression)
  | 0 => (Expand.exhausted : Expand (List Expression))
  | limit + 1 => do
    if ← atEnd then return []
    else
      let item ← p.assignment
      unless ← atEnd do expectPunct ","
      return item :: (← listItems p limit)

/-- Reads the value of a property; without one, a name stands for the variable of that name. -/
def propertyValue (p : Passes) (key : Token) : Parse Expression := do
  if ← eat ":" then p.assignment
  else if key.isIdent then
    Expand.record (.shorthand key)
    return .ident key key.site
  else unexpected "`:`"

/-- The name that a token writes as the key of a property. -/
def propertyName? : Token → Option String
  | .atom _ (.ident name) => some name
  | .atom _ (.str text) => some text
  | .atom _ (.number _ raw) => some raw
  | _ => none

/-- Reads properties with commas between them; a comma may also stand at the end. -/
def listProperties (p : Passes) : Nat → Parse (List Property)
  | 0 => (Expand.exhausted : Expand (List Property))
  | limit + 1 => do
    if ← atEnd then return []
    else
      let key ← next "a property name"
      match propertyName? key with
      | none => fail (.invalidPropertyName key.text) key.site
      | some name =>
        let value ← propertyValue p key
        unless ← atEnd do expectPunct ","
        return ⟨name, value, key.site.cover value.site⟩ :: (← listProperties p limit)

/-- Reads the name of a function. A declaration needs one and binds it where it stands; an expression binds it in the
scope of the function. -/
def functionName (declares : Bool) : Parse (Option Token) := do
  if ← peekIs (·.isIdent) then return some (← next "a function name")
  else if declares then unexpected "a function name"
  else return none

/-- Reads a function. Its body is left as tokens. -/
def function (declares : Bool) : Parse Lambda := do
  let start ← next "`function`"
  let name ← functionName declares
  let (params, _) ← expectGroup .paren "a parameter list"
  let (body, bodySite) ← expectGroup .brace "a function body"
  let scope ← Expand.freshScope .opened
  Expand.record (.enclosed scope ((if declares then [] else name.toList) ++ params ++ body))
  let name := if declares then name else name.map (Token.addScope scope)
  if let some name := name then Expand.bindVariable name
  let (params, rest) ← Expand.parameters scope (Token.splitCommas params)
  let body := Body.deferred (Token.wrap scope body)
  return { id := ← Expand.freshLambda, name, params, rest, body, arrow := false, site := start.site.cover bodySite }

/-- Reads the expression that is the body of an arrow from the tokens to come, with the scope of the arrow on them; what
it leaves goes back without the scope. -/
def conciseBody (p : Passes) (scope : ScopeId) : Parse Expression := do
  let stream ← get
  let (value, inner) ← on (← Expand.enclose scope stream.after) p.assignment
  let after ← Expand.leave scope inner.after
  set { stream with after }
  return value

/-- The tokens of an arrow's parameters. -/
def arrowParameters? (head : Token) : Option (List Token) :=
  if head.isIdent then some [head] else head.group? .paren

/-- The tokens of the parameters, when an arrow stands at the place. -/
def arrowHead : Parse (Option (Token × List Token)) := do
  if ← peekNthIs 1 (·.isPunct "=>") then
    return (← peek).bind fun head => (arrowParameters? head).map fun params => (head, params)
  else
    return none

/-- Reads an arrow, if one stands at the place. -/
def arrow (p : Passes) : Parse (Option Expression) := do
  match ← arrowHead with
  | none => return none
  | some (head, params) =>
    advance
    advance
    let scope ← Expand.freshScope .opened
    Expand.record (.enclosed scope params)
    let (params, rest) ← Expand.parameters scope (Token.splitCommas params)
    let body ←
      if ← peekGroup .brace then
        let (inner, _) ← expectGroup .brace "an arrow body"
        pure (Body.deferred (← Expand.enclose scope inner))
      else
        pure (Body.concise (← conciseBody p scope))
    let site := head.site.cover (← previousSite)
    let fn : Lambda := { id := ← Expand.freshLambda, name := none, params, rest, body, arrow := true, site }
    return some (.lambda fn site)

/-- Whether the next token but one place on is a template. -/
def templateFollows : Parse Bool := peekNthIs 1 fun token => token.template?.isSome

/-- Reads a template after its mark. -/
def template (p : Passes) : Parse Expression := do
  advance
  match ← peek with
  | some token => match token.template? with
    | some tokens =>
      advance
      let parts ← (Template.readParts (Expand.groupExpression p) tokens : Expand (List TemplatePart))
      return .template parts tokens token.site
    | none => unexpected "a syntax template"
  | none => unexpected "a syntax template"

/-- Reads a group as an expression: parentheses around one expression, an array, or an object. -/
def group (p : Passes) (delimiter : Delimiter) (tokens : List Token) (site : Site) : Parse Expression := do
  advance
  match delimiter with
  | .paren => Expand.groupExpression p tokens site
  | .bracket => return .array (← on tokens (listItems p p.limit)).1 site
  | .brace => return .object (← on tokens (listProperties p p.limit)).1 site

/-- Reads an identifier that stands for its binding. -/
def reference (token : Token) : Parse Expression := do
  advance
  Expand.record (.read token)
  return .ident token token.site

/-- Reads a word as an expression. -/
def word (p : Passes) (token : Token) (name : String) : Parse Expression := do
  match name with
  | "true" => advance; return .bool true token.site
  | "false" => advance; return .bool false token.site
  | "null" => advance; return .null token.site
  | "function" =>
    let fn ← function false
    return .lambda fn fn.site
  | "syntaxQuote" => if ← templateFollows then template p else reference token
  | _ => reference token

/-- Reads a primary expression, after invoking the transformers that stand at the place. -/
def primary (s : Setup) (p : Passes) : Parse Expression := do
  invokeAll s p.limit
  match ← peek with
  | none => unexpected "an expression"
  | some token => match token with
    | .atom mark (.number value _) => advance; return .number value mark.site
    | .atom mark (.str text) => advance; return .str text mark.site
    | .atom _ (.ident name) => word p token name
    | .atom _ (.punct text) =>
      if text = "#" && (← templateFollows) then template p else unexpected "an expression"
    | .nest mark (.group delimiter) tokens => group p delimiter tokens mark.site
    | .nest mark .template _ => fail .bareTemplate mark.site
    | .nest _ .unquote _ => unexpected "an expression"

/-- Reads the members, items and calls after an expression. -/
def suffixes (p : Passes) : Nat → Expression → Parse Expression
  | 0, _ => (Expand.exhausted : Expand Expression)
  | limit + 1, e => do
    if ← eat "." then
      let property ← expectIdent "a property name"
      suffixes p limit (.member e property.name (e.site.cover property.site))
    else if ← peekGroup .bracket then
      let (tokens, site) ← expectGroup .bracket "`[`"
      let key ← Expand.groupExpression p tokens site
      suffixes p limit (.index e key (e.site.cover site))
    else if ← peekGroup .paren then
      let (tokens, site) ← expectGroup .paren "`(`"
      let (args, _) ← on tokens (listItems p p.limit)
      suffixes p limit (.call e args (e.site.cover site))
    else
      return e

/-- The unary operator that a token writes. -/
def unaryOperator? (token : Token) : Option UnaryOp :=
  if token.isWord UnaryOp.typeOf.text then some .typeOf
  else [UnaryOp.not, .negate, .plus, .complement].find? fun op => token.isPunct op.text

/-- Reads a unary operator and its operand, or an expression with its suffixes. -/
def unaryStep (s : Setup) (p : Passes) : Parse Expression := do
  match (← peek).bind fun token => (unaryOperator? token).map fun op => (token, op) with
  | some (token, operator) =>
    advance
    let operand ← p.unary
    return .unary operator operand (token.site.cover operand.site)
  | none => suffixes p p.limit (← primary s p)

/-- Reads the operators of one level and their right operands. -/
def binaryRest (operators : List BinaryOp) (operand : Parse Expression) : Nat → Expression → Parse Expression
  | 0, _ => (Expand.exhausted : Expand Expression)
  | limit + 1, left => do
    match (← peek).bind fun token => operators.find? fun op => token.isPunct op.text with
    | some operator =>
      advance
      let right ← operand
      binaryRest operators operand limit (.binary operator left right (left.site.cover right.site))
    | none => return left

/-- Reads an expression of binary operators of the given levels. -/
def binary (p : Passes) : List (List BinaryOp) → Parse Expression
  | [] => p.unary
  | operators :: tighter => do binaryRest operators (binary p tighter) p.limit (← binary p tighter)

/-- Reads an expression, with the alternatives that it chooses between if a question mark follows. -/
def conditional (p : Passes) : Parse Expression := do
  let test ← binary p BinaryOp.levels
  if ← eat "?" then
    let consequent ← p.assignment
    expectPunct ":"
    let alternate ← p.assignment
    return .conditional test consequent alternate (test.site.cover alternate.site)
  else
    return test

/-- The operators that combine an assignment with a binary operator. -/
def compoundOperators : List (String × BinaryOp) :=
  [("+=", .add), ("-=", .sub), ("*=", .mul), ("/=", .div), ("%=", .rem)]

/-- The assignment that a token writes, with the binary operator it applies first. -/
def assignmentOperator? (token : Token) : Option (Option BinaryOp) :=
  if token.isPunct "=" then some none
  else (compoundOperators.find? fun (text, _) => token.isPunct text).map fun (_, op) => some op

/-- Reads an arrow, an assignment, or an expression without one. -/
def assignmentStep (p : Passes) : Parse Expression := do
  match ← arrow p with
  | some e => return e
  | none =>
    let target ← conditional p
    match (← peek).bind assignmentOperator? with
    | none => return target
    | some operator =>
      if target.isPlace then
        advance
        let value ← p.assignment
        let site := target.site.cover value.site
        match operator with
        | some op => return .assign target (.binary op target value site) site
        | none => return .assign target value site
      else
        fail .invalidTarget target.site

end Parse

end Hygiene
