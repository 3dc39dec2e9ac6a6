import Hygiene.Expand.Expression
import Hygiene.Proofs.Eval.Step

/-!
# What an assignment evaluates

What is evaluated, and in which order, is written down by recursion on the target; every evaluation of the assignment
follows that list.
-/

namespace Hygiene

open List

/-- What is evaluated, in order, to read an expression that goes along members. -/
def Expression.reading : Expression → List Expression
  | .member base _ _ => base.reading
  | .index base key _ => base.reading ++ [key]
  | e => [e]

/-- What is evaluated, in order, to store a value in a place: all that leads to the object, and then all that it takes to
store the object back. -/
def Expression.storing : Expression → List Expression
  | .member base _ _ => base.reading ++ base.storing
  | .index base key _ => base.reading ++ (key :: base.storing)
  | _ => []

theorem Expression.storing_eq_nil {e : Expression} (h : e.isPlace = false) : e.storing = [] := by
  cases e with
  | member => cases h
  | index => cases h
  | _ => rfl

/-- The expressions can be evaluated one after the other, from the first machine to the second. -/
inductive Evaluated (w : World) : List Expression → Machine → Machine → Prop
  | nil (m : Machine) : Evaluated w [] m m
  | cons {e : Expression} {rest : List Expression} {limit : Nat} {value : Value} {m m₁ m₂ : Machine} :
    (evaluator w limit).expression e m = .ok value m₁ → Evaluated w rest m₁ m₂ → Evaluated w (e :: rest) m m₂

theorem Evaluated.append {w : World} {first second : List Expression} {m m₁ m₂ : Machine}
    (h : Evaluated w first m m₁) (h' : Evaluated w second m₁ m₂) : Evaluated w (first ++ second) m m₂ := by
  induction h with
  | nil m => exact h'
  | cons heq _ ih => exact .cons heq (ih h')

/-- At most one variable was set, and nothing else has changed. -/
def Machine.Wrote (m m' : Machine) : Prop :=
  m' = m ∨ ∃ id name value, m' = { m with heap := m.heap.store id name value }

namespace Eval

variable {α β : Type} {w : World} {list list' : List Expression} {Q : Machine → Machine → Prop}

/-- The evaluation evaluates the expressions of the list in order. If it succeeds, it has evaluated all of them, and `Q`
says what it has done then. If it fails, it fails by itself or with the next one. -/
def Visits (w : World) (list : List Expression) (Q : Machine → Machine → Prop) (x : Eval α) : Prop :=
  ∀ m, match x m with
    | .ok _ m' => ∃ m₁, Evaluated w list m m₁ ∧ Q m₁ m'
    | .error signal m' => ∃ done, Evaluated w done m m' ∧ done <+: list ∨
        ∃ m₁ e limit, Evaluated w done m m₁ ∧ done ++ [e] <+: list ∧
          (evaluator w limit).expression e m₁ = .error signal m'

theorem Visits.pure {a : α} (hQ : ∀ m, Q m m) : Visits w [] Q (Pure.pure a : Eval α) := fun m => ⟨m, .nil m, hQ m⟩

theorem Visits.throw {signal : Signal} : Visits w list Q (MonadExcept.throw signal : Eval α) :=
  fun m => ⟨[], Or.inl ⟨.nil m, nil_prefix⟩⟩

theorem Visits.bind {x : Eval α} {f : α → Eval β} (hx : Visits w list Eq x) (hf : ∀ a, Visits w list' Q (f a)) :
    Visits w (list ++ list') Q (x >>= f) := by
  intro m
  have hfirst := hx m
  simp only [Bind.bind, EStateM.bind]
  cases heq : x m with
  | error signal m' =>
    rw [heq] at hfirst
    obtain ⟨done, h⟩ := hfirst
    refine ⟨done, h.imp (fun ⟨he, hp⟩ => ⟨he, hp.trans (prefix_append _ _)⟩) ?_⟩
    rintro ⟨m₁, e, limit, he, hp, hfail⟩
    exact ⟨m₁, e, limit, he, hp.trans (prefix_append _ _), hfail⟩
  | ok a m₀ =>
    rw [heq] at hfirst
    obtain ⟨m₀, he, rfl⟩ := hfirst
    have hrest := hf a m₀
    dsimp only
    cases heq' : f a m₀ with
    | ok b m' =>
      rw [heq'] at hrest
      obtain ⟨m₁, he', hQ⟩ := hrest
      exact ⟨m₁, he.append he', hQ⟩
    | error signal m' =>
      rw [heq'] at hrest
      obtain ⟨done, h⟩ := hrest
      refine ⟨list ++ done, h.imp (fun ⟨he', hp⟩ => ⟨he.append he', (prefix_append_right_inj _).2 hp⟩) ?_⟩
      rintro ⟨m₁, e, limit, he', hp, hfail⟩
      refine ⟨m₁, e, limit, he.append he', ?_, hfail⟩
      rw [append_assoc]
      exact (prefix_append_right_inj _).2 hp

theorem Visits.map {x : Eval α} (hx : Visits w list Q x) (f : α → β) :
    Visits w list Q (x >>= fun a => Pure.pure (f a)) := by
  intro m
  have h := hx m
  simp only [Bind.bind, EStateM.bind]
  cases heq : x m <;> rw [heq] at h <;> exact h

theorem Visits.lift_bind {result : Except Fault α} {site : Site} {f : α → Eval β} (hf : ∀ a, Visits w list Q (f a)) :
    Visits w list Q (Eval.lift result site >>= f) := by
  cases result with
  | ok a => exact hf a
  | error fault => exact fun m => ⟨[], Or.inl ⟨.nil m, nil_prefix⟩⟩

theorem Visits.lift (result : Except Fault α) (site : Site) : Visits w [] Eq (Eval.lift result site) := by
  cases result with
  | ok a => exact .pure fun _ => rfl
  | error fault => exact .throw

/-- An expression as a whole. -/
theorem visits_expression (w : World) (limit : Nat) (e : Expression) :
    Visits w [e] Eq ((evaluator w limit).expression e) := by
  intro m
  cases heq : (evaluator w limit).expression e m with
  | ok value m' => exact ⟨m', .cons heq (.nil m'), rfl⟩
  | error signal m' => exact ⟨[], Or.inr ⟨m, e, limit, .nil m, prefix_rfl, heq⟩⟩

/-- Members are read from the object outwards. -/
theorem visits_reading (w : World) (limit : Nat) (e : Expression) :
    Visits w e.reading Eq ((evaluator w limit).expression e) := by
  induction limit generalizing e with
  | zero => exact .throw
  | succ limit ih =>
    cases e with
    | member object property site =>
      rw [Expression.reading, ← append_nil object.reading]
      exact (ih object).bind fun _ => .lift _ _
    | index object key site =>
      exact (ih object).bind fun _ => (visits_expression w limit key).bind fun _ => .lift _ _
    | _ => exact visits_expression w (limit + 1) _

/-- A variable is set without evaluating anything. -/
theorem visits_assignIdent (w : World) (ident : Token) (value : Value) (site : Site) :
    Visits w [] Machine.Wrote (Evaluator.assignIdent w ident value site) := by
  have hassign : ∀ {elsewhere : Heap → Environment → String → Value → Heap} {name : String},
      (∀ heap env, ∃ id, elsewhere heap env name value = heap.store id name value) →
      Visits w [] Machine.Wrote (assignOr elsewhere name value) := by
    intro elsewhere name h m
    refine ⟨m, .nil m, Or.inr ?_⟩
    cases hholder : m.heap.holder? m.env name with
    | some id => exact ⟨id, name, value, by simp only [hholder]⟩
    | none =>
      obtain ⟨id, hid⟩ := h m.heap m.env
      exact ⟨id, name, value, by simp only [hholder, hid]⟩
  unfold Evaluator.assignIdent
  split
  · split
    · exact hassign fun _ _ => ⟨_, rfl⟩
    · exact .throw
  · exact hassign fun _ _ => ⟨_, rfl⟩

/-- Storing a value evaluates what leads to the object, and then stores the object. -/
theorem visits_assign (w : World) (limit : Nat) (target : Expression) (value : Value) :
    Visits w target.storing Machine.Wrote ((evaluator w limit).assign w target value) := by
  have hback : ∀ base : Expression, (∀ v, Visits w base.storing Machine.Wrote ((evaluator w limit).assign w base v)) →
      ∀ v, Visits w base.storing Machine.Wrote
        (if base.isPlace = true then (evaluator w limit).assign w base v else Pure.pure ()) := by
    intro base h v
    split
    · exact h v
    · next hplace =>
      rw [Expression.storing_eq_nil (by simpa using hplace)]
      exact .pure fun _ => Or.inl rfl
  fun_induction Evaluator.assign w (evaluator w limit) target value with
  | case1 token site value => exact visits_assignIdent w token value site
  | case2 base property site value ih =>
    refine (visits_reading w limit base).bind fun _ => .lift_bind fun _ => ?_
    exact hback base ih _
  | case3 base key site value ih =>
    refine (visits_reading w limit base).bind fun _ => (visits_expression w limit key).bind fun _ => ?_
    exact .lift_bind fun _ => hback base ih _
  | case4 => exact .throw

end Eval

open Eval

/-- The operators that assignments are combined with evaluate both operands. -/
theorem visits_binary (w : World) (limit : Nat) {operator : BinaryOp}
    (h : operator ∈ Parse.compoundOperators.map (·.2)) (left right : Expression) (site : Site) :
    Visits w (left.reading ++ [right]) Eq ((evaluator w limit).expression (.binary operator left right site)) := by
  cases limit with
  | zero => exact .throw
  | succ limit =>
    rw [← append_nil [right]]
    have hparts := (visits_reading w limit left).bind fun l => (visits_expression w limit right).bind fun r =>
      Visits.lift (Value.binary operator l r) site
    simp only [Parse.compoundOperators, map_cons, map_nil, mem_cons, not_mem_nil, or_false] at h
    rcases h with rfl | rfl | rfl | rfl | rfl <;> exact hparts

/-- What an assignment evaluates: the value, and then for each member of the target, from the outermost to the
innermost, all that leads to its object, and its key. A combined assignment first evaluates all that leads to the
target. -/
theorem assignment_visits (w : World) (limit : Nat) (target value : Expression) (site : Site) :
    Visits w (value :: target.storing) Machine.Wrote ((evaluator w limit).expression (.assign target value site)) ∧
    ∀ operator ∈ Parse.compoundOperators.map (·.2), ∀ inner : Site,
      Visits w (target.reading ++ value :: target.storing) Machine.Wrote
        ((evaluator w limit).expression (.assign target (.binary operator target value inner) site)) := by
  cases limit with
  | zero => exact ⟨.throw, fun _ _ _ => .throw⟩
  | succ limit =>
    refine ⟨(visits_expression w limit value).bind fun v => (visits_assign w limit target v).map _, ?_⟩
    intro operator hoperator inner
    rw [append_cons]
    exact (visits_binary w limit hoperator target value inner).bind fun v => (visits_assign w limit target v).map _

/-- An identifier without scopes. -/
def Expression.named (name : String) : Expression := .ident (.fresh (.ident name) .unknown) .unknown

/-- `f()` -/
def keyCall : Expression := .call (.named "f") [] .unknown

/-- `o[f()].x` -/
def calledMember : Expression := .member (.index (.named "o") keyCall .unknown) "x" .unknown

/-- For a sum stored in `o[f()].x`, both `o` and `f()` are evaluated three times. -/
theorem assignment_visits_sum : BinaryOp.add ∈ Parse.compoundOperators.map (·.2) ∧
    Visits ⟨{}, {}, {}, 9⟩ [.named "o", keyCall, .null .unknown, .named "o", keyCall, .named "o", keyCall] Machine.Wrote
      ((evaluator ⟨{}, {}, {}, 9⟩ 9).expression
        (.assign calledMember (.binary .add calledMember (.null .unknown) .unknown) .unknown)) :=
  ⟨by decide, (assignment_visits _ 9 calledMember (.null .unknown) .unknown).2 .add (by decide) .unknown⟩

/-- A machine in which `o` is `{ k: {} }` and `f` is `() => 'k'`. -/
def keyMachine : Machine where
  heap := { frames := #[[("o", .object [("k", .object [])]),
    ("f", .closure ⟨⟨0, none, [], none, .concise (.str "k" .unknown), true, .unknown⟩, ⟨0, []⟩⟩)]] }
  env := ⟨0, []⟩

/-- The target of `o[f()].x = null` has one call, which is made twice. -/
theorem target_call_repeated :
    (match (evaluator ⟨{}, {}, {}, 9⟩ 9).expression (.assign calledMember (.null .unknown) .unknown) keyMachine with
    | .ok _ m => m.calls.length
    | .error _ _ => 0) = 2 := by
  decide

end Hygiene
