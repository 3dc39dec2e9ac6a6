import Hygiene.Expand.Instance

/-!
# The scopes of terms

The outline of a term keeps the identifiers it reads, those it declares, and its scopes: blocks, functions and arrows,
and modules. The scope of a function holds its parameters and what its body declares, and its own name if it is an
expression. An identifier refers to the innermost scope around it that declares its name, and there to the last
declaration.
-/

namespace Hygiene

open List

/-- What a term has to do with scopes. -/
inductive Outline where
  /-- An identifier that is read or assigned. -/
  | use (ident : Token)
  /-- An identifier that is declared in the scope it stands in. -/
  | declare (ident : Token)
  /-- The parts that stand in a scope of their own. -/
  | scope (parts : List Outline)
  /-- Tokens that are still to be expanded. -/
  | pending (tokens : List Token)

namespace Outline

/-- The identifier that a part declares. -/
def declared? : Outline → Option Token
  | declare ident => some ident
  | _ => none

/-- The identifiers that are declared in the scope in which the parts stand, in order. -/
def declared (parts : List Outline) : List Token := parts.filterMap declared?

@[simp] theorem declared_nil : declared [] = [] := rfl

@[simp] theorem declared_append (l k : List Outline) : declared (l ++ k) = declared l ++ declared k :=
  filterMap_append

@[simp] theorem declared_cons (o : Outline) (l : List Outline) : declared (o :: l) = o.declared?.toList ++ declared l := by
  cases o <;> rfl

@[simp] theorem declared_map_declare (idents : List Token) : declared (idents.map declare) = idents := by
  induction idents with
  | nil => rfl
  | cons ident idents ih => simp [ih, declared?]

/-- The declaration that a name refers to. The scopes are given by what they declare, the innermost first. -/
def lookup (scopes : List (List Token)) (name : String) : Option Token :=
  scopes.findSome? fun declarations => (declarations.filter (·.name = name)).getLast?

mutual

/-- The identifiers of a part, each with the declaration it refers to. The scopes around the part are given by what they
declare, the innermost first. -/
def references (scopes : List (List Token)) : Outline → List (Token × Option Token)
  | use ident => [(ident, lookup scopes ident.name)]
  | declare ident => [(ident, lookup scopes ident.name)]
  | scope parts => referencesAll (declared parts :: scopes) parts
  | pending _ => []

/-- The identifiers of parts, each with the declaration it refers to. -/
def referencesAll (scopes : List (List Token)) : List Outline → List (Token × Option Token)
  | [] => []
  | o :: rest => references scopes o ++ referencesAll scopes rest

end

mutual

/-- Nothing is left to be expanded. -/
def Complete : Outline → Prop
  | use _ => True
  | declare _ => True
  | scope parts => CompleteAll parts
  | pending _ => False

/-- Nothing of the parts is left to be expanded. -/
def CompleteAll : List Outline → Prop
  | [] => True
  | o :: rest => Complete o ∧ CompleteAll rest

end

theorem completeAll_iff {parts : List Outline} : CompleteAll parts ↔ ∀ o ∈ parts, o.Complete := by
  induction parts with
  | nil => simp [CompleteAll]
  | cons o parts ih => simp [CompleteAll, ih]

@[simp] theorem completeAll_append {l k : List Outline} : CompleteAll (l ++ k) ↔ CompleteAll l ∧ CompleteAll k := by
  simp only [completeAll_iff, mem_append, or_imp, forall_and]

theorem completeAll_declare (idents : List Token) : CompleteAll (idents.map declare) := by
  refine completeAll_iff.2 fun o ho => ?_
  obtain ⟨t, _, rfl⟩ := mem_map.1 ho
  trivial

end Outline

open Outline

mutual

/-- The outline of an expression. -/
def Expression.outline : Expression → List Outline
  | .number _ _ => []
  | .str _ _ => []
  | .bool _ _ => []
  | .null _ => []
  | .ident token _ => [use token]
  | .array items _ => Expression.outlineAll items
  | .object properties _ => Property.outlineAll properties
  | .lambda fn _ => fn.outline false
  | .call callee args _ => callee.outline ++ Expression.outlineAll args
  | .member object _ _ => object.outline
  | .index object key _ => object.outline ++ key.outline
  | .unary _ operand _ => operand.outline
  | .binary _ left right _ => left.outline ++ right.outline
  | .conditional test consequent alternate _ => test.outline ++ consequent.outline ++ alternate.outline
  | .assign target value _ => target.outline ++ value.outline
  | .template parts _ _ => TemplatePart.outlineAll parts

/-- The outline of expressions. -/
def Expression.outlineAll : List Expression → List Outline
  | [] => []
  | e :: es => e.outline ++ Expression.outlineAll es

/-- The outline of an optional expression. -/
def Expression.outlineOption : Option Expression → List Outline
  | none => []
  | some e => e.outline

/-- The outline of properties. -/
def Property.outlineAll : List Property → List Outline
  | [] => []
  | ⟨_, value, _⟩ :: rest => value.outline ++ Property.outlineAll rest

/-- The outline of a function. Its name stands in its own scope, unless the function declares it. -/
def Lambda.outline (declares : Bool) : Lambda → List Outline
  | ⟨_, name, params, rest, body, _, _⟩ =>
    (if declares then name.toList else []).map declare ++
      [scope (((if declares then [] else name.toList) ++ params ++ rest.toList).map declare ++ body.outline)]

/-- The outline of the body of a function, in the scope of the function. -/
def Body.outline : Body → List Outline
  | .deferred tokens => [pending tokens]
  | .block statements => Statement.outlineAll statements
  | .concise value => value.outline

/-- The outline of the parts of a template: only what is unquoted is read. -/
def TemplatePart.outlineAll : List TemplatePart → List Outline
  | [] => []
  | part :: parts => part.outline ++ TemplatePart.outlineAll parts

/-- The outline of a part of a template. -/
def TemplatePart.outline : TemplatePart → List Outline
  | .token _ => []
  | .group _ _ parts => TemplatePart.outlineAll parts
  | .unquote value => value.outline

/-- The outline of a statement. -/
def Statement.outline : Statement → List Outline
  | .declaration ⟨_, declarators, _⟩ _ => Declarator.outlineAll declarators
  | .function fn _ => fn.outline true
  | .expression value _ => value.outline
  | .return value _ => Expression.outlineOption value
  | .branch test consequent alternate _ => test.outline ++ consequent.outline ++ Statement.outlineOption alternate
  | .loop test inner _ => test.outline ++ inner.outline
  | .block statements _ => [scope (Statement.outlineAll statements)]
  | .empty _ => []
  | .throw value _ => value.outline

/-- The outline of statements. -/
def Statement.outlineAll : List Statement → List Outline
  | [] => []
  | s :: ss => s.outline ++ Statement.outlineAll ss

/-- The outline of an optional statement. -/
def Statement.outlineOption : Option Statement → List Outline
  | none => []
  | some s => s.outline

/-- The outline of declared names and their initializers. -/
def Declarator.outlineAll : List Declarator → List Outline
  | [] => []
  | ⟨binding, init, _⟩ :: rest => declare binding :: Expression.outlineOption init ++ Declarator.outlineAll rest

end

/-- The outline of what an export declares. -/
def ExportDeclaration.outline : ExportDeclaration → List Outline
  | .declaration d => Declarator.outlineAll d.declarators
  | .function fn => fn.outline true
  | .defaultValue binding value => declare binding :: value.outline

/-- The outline of an item of a module. -/
def ModuleItem.outline : ModuleItem → List Outline
  | .importItem imported => imported.bindings.map declare
  | .exportItem exported _ => exported.outline
  | .exportList specifiers _ => specifiers.map (use ·.inner)
  | .statement inner => inner.outline

/-- The outline of the items of a module. -/
def ModuleRecord.outline (r : ModuleRecord) : List Outline := r.items.flatMap ModuleItem.outline

/-- The identifiers of a module, each with the declaration that it refers to by the lexical rule. -/
def ModuleRecord.references (r : ModuleRecord) : List (Token × Option Token) := (scope r.outline).references []

namespace Outline

/-- The part is only read, or it is a scope. -/
def Inert : Outline → Prop
  | use _ => True
  | scope _ => True
  | _ => False

/-- The part is not left to be expanded. -/
def Settled : Outline → Prop
  | pending _ => False
  | _ => True

theorem Inert.settled {o : Outline} (h : o.Inert) : o.Settled := by
  cases o with
  | pending _ => exact h
  | _ => trivial

/-- What only reads declares nothing. -/
theorem declared_of_inert {l : List Outline} (h : ∀ o ∈ l, o.Inert) : declared l = [] := by
  refine filterMap_eq_nil_iff.2 fun o ho => ?_
  have := h o ho
  cases o with
  | declare _ => exact this.elim
  | _ => rfl

end Outline

mutual

/-- Expressions declare nothing in the scope they stand in, and leave nothing in it to be expanded. -/
theorem Expression.inert_outline : (e : Expression) → ∀ o ∈ e.outline, o.Inert
  | .number _ _ => by simp [Expression.outline]
  | .str _ _ => by simp [Expression.outline]
  | .bool _ _ => by simp [Expression.outline]
  | .null _ => by simp [Expression.outline]
  | .ident _ _ => by simp [Expression.outline, Inert]
  | .array items _ => Expression.inert_outlineAll items
  | .object properties _ => Property.inert_outlineAll properties
  | .lambda ⟨_, _, _, _, _, _, _⟩ _ => by simp [Expression.outline, Lambda.outline, Inert]
  | .call callee args _ => forall_mem_append.2 ⟨callee.inert_outline, Expression.inert_outlineAll args⟩
  | .member object _ _ => object.inert_outline
  | .index object key _ => forall_mem_append.2 ⟨object.inert_outline, key.inert_outline⟩
  | .unary _ operand _ => operand.inert_outline
  | .binary _ left right _ => forall_mem_append.2 ⟨left.inert_outline, right.inert_outline⟩
  | .conditional test consequent alternate _ => forall_mem_append.2
    ⟨forall_mem_append.2 ⟨test.inert_outline, consequent.inert_outline⟩, alternate.inert_outline⟩
  | .assign target value _ => forall_mem_append.2 ⟨target.inert_outline, value.inert_outline⟩
  | .template parts _ _ => TemplatePart.inert_outlineAll parts

/-- Expressions only read. -/
theorem Expression.inert_outlineAll : (es : List Expression) → ∀ o ∈ Expression.outlineAll es, o.Inert
  | [] => by simp [Expression.outlineAll]
  | e :: es => forall_mem_append.2 ⟨e.inert_outline, Expression.inert_outlineAll es⟩

theorem Property.inert_outlineAll : (properties : List Property) → ∀ o ∈ Property.outlineAll properties, o.Inert
  | [] => by simp [Property.outlineAll]
  | ⟨_, value, _⟩ :: rest => forall_mem_append.2 ⟨value.inert_outline, Property.inert_outlineAll rest⟩

theorem TemplatePart.inert_outlineAll : (parts : List TemplatePart) → ∀ o ∈ TemplatePart.outlineAll parts, o.Inert
  | [] => by simp [TemplatePart.outlineAll]
  | part :: parts => forall_mem_append.2 ⟨part.inert_outline, TemplatePart.inert_outlineAll parts⟩

theorem TemplatePart.inert_outline : (part : TemplatePart) → ∀ o ∈ part.outline, o.Inert
  | .token _ => by simp [TemplatePart.outline]
  | .group _ _ parts => TemplatePart.inert_outlineAll parts
  | .unquote value => value.inert_outline

end

theorem Expression.inert_outlineOption (e : Option Expression) : ∀ o ∈ Expression.outlineOption e, o.Inert := by
  cases e with
  | none => simp [Expression.outlineOption]
  | some e => exact e.inert_outline

/-- Expressions declare nothing. -/
@[simp] theorem Expression.declared_outline (e : Expression) : declared e.outline = [] :=
  declared_of_inert e.inert_outline

@[simp] theorem Expression.declared_outlineOption (e : Option Expression) :
    declared (Expression.outlineOption e) = [] := declared_of_inert (Expression.inert_outlineOption e)

theorem Declarator.settled_outlineAll (declarators : List Declarator) :
    ∀ o ∈ Declarator.outlineAll declarators, o.Settled := by
  induction declarators with
  | nil => simp [Declarator.outlineAll]
  | cons d rest ih =>
    obtain ⟨_, init, _⟩ := d
    rw [Declarator.outlineAll]
    refine forall_mem_append.2 ⟨forall_mem_cons.2 ⟨trivial, ?_⟩, ih⟩
    exact fun o ho => (Expression.inert_outlineOption init o ho).settled

/-- A function has no pending body outside its scope. -/
theorem Lambda.settled_outline (declares : Bool) (fn : Lambda) : ∀ o ∈ fn.outline declares, o.Settled := by
  obtain ⟨_, name, params, rest, body, _, _⟩ := fn
  rw [Lambda.outline]
  refine forall_mem_append.2 ⟨?_, by simp [Settled]⟩
  intro o ho
  obtain ⟨t, _, rfl⟩ := mem_map.1 ho
  trivial

mutual

/-- Statements leave nothing to be expanded in the scope they stand in. -/
theorem Statement.settled_outline : (s : Statement) → ∀ o ∈ s.outline, o.Settled
  | .declaration ⟨_, declarators, _⟩ _ => Declarator.settled_outlineAll declarators
  | .function fn _ => fn.settled_outline true
  | .expression value _ => fun o ho => (value.inert_outline o ho).settled
  | .return value _ => fun o ho => (Expression.inert_outlineOption value o ho).settled
  | .branch test consequent alternate _ => forall_mem_append.2
    ⟨forall_mem_append.2 ⟨fun o ho => (test.inert_outline o ho).settled, consequent.settled_outline⟩,
      Statement.settled_outlineOption alternate⟩
  | .loop test inner _ => forall_mem_append.2
    ⟨fun o ho => (test.inert_outline o ho).settled, inner.settled_outline⟩
  | .block _ _ => by simp [Statement.outline, Settled]
  | .empty _ => by simp [Statement.outline]
  | .throw value _ => fun o ho => (value.inert_outline o ho).settled

theorem Statement.settled_outlineOption : (s : Option Statement) → ∀ o ∈ Statement.outlineOption s, o.Settled
  | none => by simp [Statement.outlineOption]
  | some s => s.settled_outline

end

/-- Neither have statements. -/
theorem Statement.settled_outlineAll (list : List Statement) : ∀ o ∈ Statement.outlineAll list, o.Settled := by
  induction list with
  | nil => simp [Statement.outlineAll]
  | cons s list ih => exact forall_mem_append.2 ⟨s.settled_outline, ih⟩

end Hygiene
