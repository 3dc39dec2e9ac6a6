import Hygiene.Expand.Run

/-!
# Completion of function bodies

Function bodies are first kept as tokens. Completing a term expands the bodies of all functions in it, from left to
right; every function becomes a new one.
-/

namespace Hygiene

mutual

/-- Completes an expression; `body` expands the tokens of a function body. -/
def Expression.complete (body : List Token → Expand (List Statement)) : Expression → Expand Expression
  | .number n site => return .number n site
  | .str s site => return .str s site
  | .bool b site => return .bool b site
  | .null site => return .null site
  | .ident token site => return .ident token site
  | .array items site => return .array (← Expression.completeAll body items) site
  | .object properties site => return .object (← Property.completeAll body properties) site
  | .lambda fn site => return .lambda (← fn.complete body) site
  | .call callee args site => do
    let callee ← callee.complete body
    return .call callee (← Expression.completeAll body args) site
  | .member object property site => return .member (← object.complete body) property site
  | .index object key site => do
    let object ← object.complete body
    return .index object (← key.complete body) site
  | .unary operator operand site => return .unary operator (← operand.complete body) site
  | .binary operator left right site => do
    let left ← left.complete body
    return .binary operator left (← right.complete body) site
  | .conditional test consequent alternate site => do
    let test ← test.complete body
    let consequent ← consequent.complete body
    return .conditional test consequent (← alternate.complete body) site
  | .assign target value site => do
    let target ← target.complete body
    return .assign target (← value.complete body) site
  | .template parts source site => return .template (← TemplatePart.completeAll body parts) source site

/-- Completes expressions. -/
def Expression.completeAll (body : List Token → Expand (List Statement)) : List Expression → Expand (List Expression)
  | [] => return []
  | e :: es => do
    let e ← e.complete body
    return e :: (← Expression.completeAll body es)

/-- Completes an optional expression. -/
def Expression.completeOption (body : List Token → Expand (List Statement)) :
    Option Expression → Expand (Option Expression)
  | none => return none
  | some e => return some (← e.complete body)

/-- Completes the values of properties. -/
def Property.completeAll (body : List Token → Expand (List Statement)) : List Property → Expand (List Property)
  | [] => return []
  | ⟨name, value, site⟩ :: rest => do
    let value ← value.complete body
    return ⟨name, value, site⟩ :: (← Property.completeAll body rest)

/-- Completes a function, which becomes a new one. -/
def Lambda.complete (body : List Token → Expand (List Statement)) : Lambda → Expand Lambda
  | ⟨_, name, params, rest, inner, arrow, site⟩ => do
    let inner ← inner.complete body
    return ⟨← Expand.freshLambda, name, params, rest, inner, arrow, site⟩

/-- Completes the body of a function. -/
def Body.complete (body : List Token → Expand (List Statement)) : Body → Expand Body
  | .deferred tokens => return .block (← body tokens)
  | .block statements => return .block (← Statement.completeAll body statements)
  | .concise value => return .concise (← value.complete body)

/-- Completes the parts of a template. -/
def TemplatePart.completeAll (body : List Token → Expand (List Statement)) :
    List TemplatePart → Expand (List TemplatePart)
  | [] => return []
  | part :: parts => do
    let part ← part.complete body
    return part :: (← TemplatePart.completeAll body parts)

/-- Completes a part of a template. -/
def TemplatePart.complete (body : List Token → Expand (List Statement)) : TemplatePart → Expand TemplatePart
  | .token token => return .token token
  | .group delimiter mark parts => return .group delimiter mark (← TemplatePart.completeAll body parts)
  | .unquote value => return .unquote (← value.complete body)

/-- Completes a statement. -/
def Statement.complete (body : List Token → Expand (List Statement)) : Statement → Expand Statement
  | .declaration d site => return .declaration (← d.complete body) site
  | .function fn site => return .function (← fn.complete body) site
  | .expression value site => return .expression (← value.complete body) site
  | .return value site => return .return (← Expression.completeOption body value) site
  | .branch test consequent alternate site => do
    let test ← test.complete body
    let consequent ← consequent.complete body
    return .branch test consequent (← Statement.completeOption body alternate) site
  | .loop test inner site => do
    let test ← test.complete body
    return .loop test (← inner.complete body) site
  | .block statements site => return .block (← Statement.completeAll body statements) site
  | .empty site => return .empty site
  | .throw value site => return .throw (← value.complete body) site

/-- Completes statements. -/
def Statement.completeAll (body : List Token → Expand (List Statement)) : List Statement → Expand (List Statement)
  | [] => return []
  | s :: ss => do
    let s ← s.complete body
    return s :: (← Statement.completeAll body ss)

/-- Completes an optional statement. -/
def Statement.completeOption (body : List Token → Expand (List Statement)) :
    Option Statement → Expand (Option Statement)
  | none => return none
  | some s => return some (← s.complete body)

/-- Completes a declaration. -/
def Declaration.complete (body : List Token → Expand (List Statement)) : Declaration → Expand Declaration
  | ⟨kind, declarators, site⟩ => return ⟨kind, ← Declarator.completeAll body declarators, site⟩

/-- Completes the initializers of declared names. -/
def Declarator.completeAll (body : List Token → Expand (List Statement)) :
    List Declarator → Expand (List Declarator)
  | [] => return []
  | ⟨binding, init, site⟩ :: rest => do
    let init ← Expression.completeOption body init
    return ⟨binding, init, site⟩ :: (← Declarator.completeAll body rest)

end

/-- Completes what an export declares. -/
def ExportDeclaration.complete (body : List Token → Expand (List Statement)) :
    ExportDeclaration → Expand ExportDeclaration
  | .declaration d => return .declaration (← d.complete body)
  | .function fn => return .function (← fn.complete body)
  | .defaultValue binding value => return .defaultValue binding (← value.complete body)

/-- Completes an item of a module. -/
def ModuleItem.complete (body : List Token → Expand (List Statement)) : ModuleItem → Expand ModuleItem
  | .importItem imported => return .importItem imported
  | .exportItem exported site => return .exportItem (← exported.complete body) site
  | .exportList specifiers site => return .exportList specifiers site
  | .statement inner => return .statement (← inner.complete body)

end Hygiene
