import Hygiene.Module.Record
import Hygiene.Value.Basic

/-!
# The functions in terms and values

Functions stand anywhere in a term, also in what a template unquotes and in the initializers of transformers. A function
is completed when its body is no longer kept as tokens, and a term or a value when all functions in it are.
-/

namespace Hygiene

/-- The tokens of a body that has not been expanded. -/
def Body.deferred? : Body → Option (List Token)
  | deferred tokens => some tokens
  | _ => none

mutual

/-- The functions in an expression. -/
def Expression.lambdas : Expression → List Lambda
  | .number _ _ => []
  | .str _ _ => []
  | .bool _ _ => []
  | .null _ => []
  | .ident _ _ => []
  | .array items _ => Expression.lambdasAll items
  | .object properties _ => Property.lambdasAll properties
  | .lambda fn _ => fn.lambdas
  | .call callee args _ => callee.lambdas ++ Expression.lambdasAll args
  | .member object _ _ => object.lambdas
  | .index object key _ => object.lambdas ++ key.lambdas
  | .unary _ operand _ => operand.lambdas
  | .binary _ left right _ => left.lambdas ++ right.lambdas
  | .conditional test consequent alternate _ => test.lambdas ++ consequent.lambdas ++ alternate.lambdas
  | .assign target value _ => target.lambdas ++ value.lambdas
  | .template parts _ _ => TemplatePart.lambdasAll parts

/-- The functions in expressions. -/
def Expression.lambdasAll : List Expression → List Lambda
  | [] => []
  | e :: es => e.lambdas ++ Expression.lambdasAll es

/-- The functions in an optional expression. -/
def Expression.lambdasOption : Option Expression → List Lambda
  | none => []
  | some e => e.lambdas

/-- The functions in the values of properties. -/
def Property.lambdasAll : List Property → List Lambda
  | [] => []
  | ⟨_, value, _⟩ :: rest => value.lambdas ++ Property.lambdasAll rest

/-- A function and the functions in it. -/
def Lambda.lambdas : Lambda → List Lambda
  | ⟨id, name, params, rest, body, arrow, site⟩ => ⟨id, name, params, rest, body, arrow, site⟩ :: body.lambdas

/-- The functions in the body of a function. -/
def Body.lambdas : Body → List Lambda
  | .deferred _ => []
  | .block statements => Statement.lambdasAll statements
  | .concise value => value.lambdas

/-- The functions in the parts of a template. -/
def TemplatePart.lambdasAll : List TemplatePart → List Lambda
  | [] => []
  | part :: parts => part.lambdas ++ TemplatePart.lambdasAll parts

/-- The functions in a part of a template. -/
def TemplatePart.lambdas : TemplatePart → List Lambda
  | .token _ => []
  | .group _ _ parts => TemplatePart.lambdasAll parts
  | .unquote value => value.lambdas

/-- The functions in a statement. -/
def Statement.lambdas : Statement → List Lambda
  | .declaration d _ => d.lambdas
  | .function fn _ => fn.lambdas
  | .expression value _ => value.lambdas
  | .return value _ => Expression.lambdasOption value
  | .branch test consequent alternate _ => test.lambdas ++ consequent.lambdas ++ Statement.lambdasOption alternate
  | .loop test inner _ => test.lambdas ++ inner.lambdas
  | .block statements _ => Statement.lambdasAll statements
  | .empty _ => []
  | .throw value _ => value.lambdas

/-- The functions in statements. -/
def Statement.lambdasAll : List Statement → List Lambda
  | [] => []
  | s :: ss => s.lambdas ++ Statement.lambdasAll ss

/-- The functions in an optional statement. -/
def Statement.lambdasOption : Option Statement → List Lambda
  | none => []
  | some s => s.lambdas

/-- The functions in a declaration. -/
def Declaration.lambdas : Declaration → List Lambda
  | ⟨_, declarators, _⟩ => Declarator.lambdasAll declarators

/-- The functions in initializers. -/
def Declarator.lambdasAll : List Declarator → List Lambda
  | [] => []
  | ⟨_, init, _⟩ :: rest => Expression.lambdasOption init ++ Declarator.lambdasAll rest

end

/-- A function is one of those in it. -/
theorem Lambda.mem_lambdas (fn : Lambda) : fn ∈ fn.lambdas := by
  obtain ⟨id, name, params, rest, body, arrow, site⟩ := fn
  rw [Lambda.lambdas]
  exact List.mem_cons_self

/-- The functions in what an export declares. -/
def ExportDeclaration.lambdas : ExportDeclaration → List Lambda
  | .declaration d => d.lambdas
  | .function fn => fn.lambdas
  | .defaultValue _ value => value.lambdas

/-- The functions in an item of a module. -/
def ModuleItem.lambdas : ModuleItem → List Lambda
  | .importItem _ => []
  | .exportItem exported _ => exported.lambdas
  | .exportList _ _ => []
  | .statement inner => inner.lambdas

/-- The functions in a module. -/
def ModuleRecord.lambdas (r : ModuleRecord) : List Lambda := r.items.flatMap ModuleItem.lambdas

mutual

/-- The functions in a value: those of its closures, and the functions in them. -/
def Value.lambdas : Value → List Lambda
  | .array items => Value.lambdasAll items
  | .object fields => Value.lambdasFields fields
  | .closure c => c.fn.lambdas
  | _ => []

/-- The functions in values. -/
def Value.lambdasAll : List Value → List Lambda
  | [] => []
  | value :: values => value.lambdas ++ Value.lambdasAll values

/-- The functions in the fields of an object. -/
def Value.lambdasFields : List (String × Value) → List Lambda
  | [] => []
  | (_, value) :: fields => value.lambdas ++ Value.lambdasFields fields

end

attribute [simp] Value.lambdas Value.lambdasAll Value.lambdasFields

/-- All functions have bodies that have been expanded. -/
def Completed (l : List Lambda) : Prop := ∀ fn ∈ l, fn.body.deferred? = none

@[simp] theorem completed_nil : Completed [] := nofun

@[simp] theorem completed_append {l k : List Lambda} : Completed (l ++ k) ↔ Completed l ∧ Completed k := by
  simp only [Completed, List.mem_append, or_imp, forall_and]

/-- A completed function has no pending body. -/
@[simp] theorem completed_cons {fn : Lambda} {l : List Lambda} :
    Completed (fn :: l) ↔ fn.body.deferred? = none ∧ Completed l := by
  simp [Completed]

/-- All closures in the value are of completed functions. -/
def Value.Completed (v : Value) : Prop := Hygiene.Completed v.lambdas

end Hygiene
