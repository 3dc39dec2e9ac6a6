import Hygiene.Proofs.Eval.Balance

/-!
# Declarations that are reached again

The functions that statements declare are defined before the statements run, and once more when the declaration is
reached.
-/

namespace Hygiene

/-- Setting the value that is already there changes nothing. -/
theorem Assoc.insert_of_get? {κ α : Type} [BEq κ] {key : κ} {value : α} {entries : List (κ × α)}
    (h : get? key entries = some value) : insert key value entries = entries := by
  induction entries with
  | nil => cases h
  | cons entry rest ih =>
    obtain ⟨k, a⟩ := entry
    rw [get?] at h
    rw [insert]
    split at h
    · next hk =>
      cases h
      rw [if_pos hk]
    · next hk => rw [if_neg hk, ih h]

theorem Heap.store_of_get? {h : Heap} {id : FrameId} {name : String} {value : Value}
    (hv : Assoc.get? name (h.frame id) = some value) : h.store id name value = h := by
  have hframes : h.frames.modify id (Assoc.insert name value) = h.frames := by
    refine Array.ext_getElem? fun i => ?_
    rw [Array.getElem?_modify]
    split
    · next heq =>
      subst heq
      cases hframe : h.frames[id]? with
      | none => rfl
      | some entries =>
        rw [frame, hframe, Option.getD_some] at hv
        rw [Option.map_some, Assoc.insert_of_get? hv]
    · rfl
  rw [store, hframes]

namespace Eval

variable {α : Type} {f : α → Eval PUnit} {a : α} {list : List α} {m m₁ : Machine}

theorem forM_cons_ok (h : f a m = .ok () m₁) : (a :: list).forM f m = list.forM f m₁ := by
  simp only [List.forM, bind, EStateM.bind, h]

theorem forM_cons_error {signal : Signal} (h : f a m = .error signal m₁) :
    (a :: list).forM f m = .error signal m₁ := by
  simp only [List.forM, bind, EStateM.bind, h]

end Eval

/-- The innermost frame. -/
def Environment.innermost (env : Environment) : FrameId := env.inner.head?.getD env.base

/-- Whether a statement is the declaration of a function. -/
def Statement.isFunction : Statement → Bool
  | .function _ _ => true
  | _ => false

namespace Evaluator

/-- Runs the statements that are no declarations of functions. -/
def others (r : Evaluator) (list : List Statement) : Eval Unit := (list.filter (!·.isFunction)).forM r.statement

/-- The functions are defined first, and then the other statements are run. -/
def hoisted (w : World) (r : Evaluator) (list : List Statement) : Eval Unit := do
  list.forM (hoist w)
  others r list

variable {w : World}

theorem others_function (r : Evaluator) (fn : Lambda) (site : Site) (list : List Statement) :
    others r (.function fn site :: list) = others r list := rfl

theorem others_cons (r : Evaluator) {s : Statement} (hs : s.isFunction = false) (list : List Statement) :
    others r (s :: list) = (s :: list.filter (!·.isFunction)).forM r.statement := by
  simp [others, hs]

/-- Defining functions succeeds, in the environment there is. -/
theorem hoist_ok (w : World) (list : List Statement) (m : Machine) :
    ∃ m', list.forM (hoist w) m = .ok () m' ∧ m'.env = m.env := by
  induction list generalizing m with
  | nil => exact ⟨m, rfl, rfl⟩
  | cons s list ih =>
    have hfirst : ∃ m₁, hoist w s m = .ok () m₁ ∧ m₁.env = m.env := by
      unfold hoist
      split
      · next fn _ =>
        unfold declare
        cases fn.name with
        | none => exact ⟨m, rfl, rfl⟩
        | some name => exact ⟨_, rfl, rfl⟩
      · exact ⟨m, rfl, rfl⟩
    obtain ⟨m₁, hm₁, henv₁⟩ := hfirst
    obtain ⟨m', hm', henv'⟩ := ih m₁
    exact ⟨m', (Eval.forM_cons_ok hm₁).trans hm', henv'.trans henv₁⟩

/-- A declaration changes nothing, or its variable does not hold the function. -/
theorem declare_cases (w : World) (fn : Lambda) (m : Machine) :
    declare w fn m = .ok () m ∨ ∃ name, fn.name = some name ∧
      Assoc.get? (w.store.slot name) (m.heap.frame m.env.innermost) ≠ some (.closure ⟨fn, m.env⟩) ∧
      declare w fn m = .ok () { m with heap := m.heap.define m.env (w.store.slot name) (.closure ⟨fn, m.env⟩) } := by
  cases hname : fn.name with
  | none => exact Or.inl (by rw [declare, hname]; rfl)
  | some name =>
    have hdeclare : declare w fn m =
        .ok () { m with heap := m.heap.define m.env (w.store.slot name) (.closure ⟨fn, m.env⟩) } := by
      rw [declare, hname]
      rfl
    by_cases hvalue : Assoc.get? (w.store.slot name) (m.heap.frame m.env.innermost) = some (.closure ⟨fn, m.env⟩)
    · have hsame : m.heap.define m.env (w.store.slot name) (.closure ⟨fn, m.env⟩) = m.heap := Heap.store_of_get? hvalue
      rw [hsame] at hdeclare
      exact Or.inl hdeclare
    · exact Or.inr ⟨name, rfl, hvalue, hdeclare⟩

/-- The statements that are no declarations run up to a declaration whose variable does not hold the function then. It is
given the function, and the statements behind the declaration give the result. -/
def Redeclares (w : World) (r : Evaluator) (list : List Statement) (m : Machine)
    (result : EStateM.Result Signal Machine Unit) : Prop :=
  ∃ before fn name site after m', list = before ++ .function fn site :: after ∧ fn.name = some name ∧
    others r before m = .ok () m' ∧ m'.env = m.env ∧
    Assoc.get? (w.store.slot name) (m'.heap.frame m.env.innermost) ≠ some (.closure ⟨fn, m.env⟩) ∧
    result = after.forM r.statement { m' with heap := m'.heap.define m.env (w.store.slot name) (.closure ⟨fn, m.env⟩) }

/-- A statement in front that leads from one machine to the other, in the same environment. -/
theorem Redeclares.cons {r : Evaluator} {s : Statement} {list : List Statement} {m m₁ : Machine}
    {result : EStateM.Result Signal Machine Unit} (henv : m₁.env = m.env)
    (hs : ∀ before m', others r before m₁ = .ok () m' → others r (s :: before) m = .ok () m')
    (h : Redeclares w r list m₁ result) : Redeclares w r (s :: list) m result := by
  obtain ⟨before, fn, name, site, after, m', rfl, hname, hbefore, henv', hvalue, rfl⟩ := h
  rw [henv] at henv' hvalue ⊢
  exact ⟨s :: before, fn, name, site, after, m', rfl, hname, hs before m' hbefore, henv', hvalue, rfl⟩

theorem others_or_redeclares (w : World) (limit : Nat) (list : List Statement) (m : Machine) :
    list.forM (evaluator w (limit + 1)).statement m = others (evaluator w (limit + 1)) list m ∨
    Redeclares w (evaluator w (limit + 1)) list m (list.forM (evaluator w (limit + 1)).statement m) := by
  induction list generalizing m with
  | nil => exact Or.inl rfl
  | cons s list ih =>
    cases hs : s.isFunction with
    | false =>
      have hbalanced := (balanced_statement w (limit + 1) s m).1
      cases hstep : (evaluator w (limit + 1)).statement s m with
      | error signal m₁ =>
        rw [others_cons _ hs, Eval.forM_cons_error hstep, Eval.forM_cons_error hstep]
        exact Or.inl rfl
      | ok _ m₁ =>
        rw [hstep] at hbalanced
        rw [others_cons _ hs, Eval.forM_cons_ok hstep, Eval.forM_cons_ok hstep]
        refine (ih m₁).imp id (.cons hbalanced.env fun before m' hbefore => ?_)
        rw [others_cons _ hs, Eval.forM_cons_ok hstep]
        exact hbefore
    | true =>
      obtain ⟨fn, site, rfl⟩ : ∃ fn site, s = .function fn site := by
        cases s with
        | function fn site => exact ⟨fn, site, rfl⟩
        | _ => cases hs
      have hstep : ∀ {m₁}, declare w fn m = .ok () m₁ →
          (Statement.function fn site :: list).forM (evaluator w (limit + 1)).statement m =
            list.forM (evaluator w (limit + 1)).statement m₁ := fun hdeclare => Eval.forM_cons_ok hdeclare
      rcases declare_cases w fn m with hsame | ⟨name, hname, hvalue, hdeclare⟩
      · rw [others_function, hstep hsame]
        exact (ih m).imp id (.cons rfl fun _ _ hbefore => hbefore)
      · exact Or.inr ⟨[], fn, name, site, list, m, rfl, hname, rfl, rfl, hvalue, hstep hdeclare⟩

end Evaluator

/-- Statements run as if their functions were defined first and their declarations left out, or some declaration is
reached whose variable does not hold that function. The first such declaration defines it anew. -/
theorem statements_hoisted (w : World) (limit : Nat) (list : List Statement) (m : Machine) :
    (evaluator w (limit + 1)).statements w list m = (evaluator w (limit + 1)).hoisted w list m ∨
    ∃ m₀, list.forM (Evaluator.hoist w) m = .ok () m₀ ∧ m₀.env = m.env ∧
      Evaluator.Redeclares w (evaluator w (limit + 1)) list m₀ ((evaluator w (limit + 1)).statements w list m) := by
  obtain ⟨m₀, hhoist, henv⟩ := Evaluator.hoist_ok w list m
  have hstatements : (evaluator w (limit + 1)).statements w list m =
      list.forM (evaluator w (limit + 1)).statement m₀ := by
    simp only [Evaluator.statements, bind, EStateM.bind, hhoist]
  have hhoisted : (evaluator w (limit + 1)).hoisted w list m = (evaluator w (limit + 1)).others list m₀ := by
    simp only [Evaluator.hoisted, bind, EStateM.bind, hhoist]
  rw [hstatements, hhoisted]
  exact (Evaluator.others_or_redeclares w limit list m₀).imp id fun h => ⟨m₀, hhoist, henv, h⟩

/-- The value of a variable after a run, by its type. -/
def Machine.typeAfter (m : Machine) (run : Eval Unit) (name : String) : Option String :=
  match run m with
  | .ok _ m' => (m'.heap.get? m'.env name).map Value.typeName
  | .error _ _ => none

/-- `f = null; function f() {}` -/
def assignedFunction : List Statement :=
  let name : Token := .fresh (.ident "f") .unknown
  [.expression (.assign (.ident name .unknown) (.null .unknown) .unknown) .unknown,
    .function ⟨0, some name, [], none, .block [], false, .unknown⟩ .unknown]

/-- The declaration of `f` is reached after null was assigned to `f`, and `f` is the function again. -/
theorem assignment_undone :
    (Machine.mk { frames := #[[]] } ⟨0, []⟩ 0 #[] []).typeAfter
      ((evaluator ⟨{}, {}, {}, 9⟩ 9).statements ⟨{}, {}, {}, 9⟩ assignedFunction) "f" = some "function" ∧
    (Machine.mk { frames := #[[]] } ⟨0, []⟩ 0 #[] []).typeAfter
      ((evaluator ⟨{}, {}, {}, 9⟩ 9).hoisted ⟨{}, {}, {}, 9⟩ assignedFunction) "f" = some "null" := by
  decide

end Hygiene
