import Hygiene.Proofs.Eval.Step

/-!
# Evaluations are balanced

What every evaluation keeps, for any code: the environment, the depth, the limit on the depth, and every variable in its
frame.
-/

namespace Hygiene

/-- Every evaluator keeps what is asked of any code. -/
theorem evaluator_any (w : World) (limit : Nat) : (evaluator w limit).Keeps w .any (evaluator w limit) :=
  evaluator_keeps (fun _ _ _ => trivial) (fun entry _ => entry.2.meets_any) (Nat.le_refl limit)

namespace Eval

variable {α : Type} {w : World} {returns : Prop} {Q : Nat → α → Prop}

/-- Wherever the evaluation starts, it is balanced, and returns only if there may be a return. -/
def Balanced (w : World) (returns : Prop) (x : Eval α) : Prop :=
  ∀ m, m.Ends w (x m) ∧ ∀ signal m', x m = .error signal m' → signal.Leaves returns

theorem Keeps.balanced {x x' : Eval α} (hx : Keeps w .any 0 returns Q x x') : Balanced w returns x := by
  intro m
  refine ⟨?_, fun signal m' h => (hx.error m.meets_any (Nat.zero_le _) h).2.2⟩
  cases h : x m with
  | ok a m' => exact (hx.ok m.meets_any (Nat.zero_le _) h).1.balanced
  | error signal m' =>
    obtain ⟨refused, hpasses, hreports⟩ := (hx.error m.meets_any (Nat.zero_le _) h).1
    exact ⟨refused, hpasses.balanced, hreports⟩

end Eval

namespace Evaluator

variable {returns : Prop} (w : World) (limit : Nat)

theorem balanced_expression (e : Expression) : Eval.Balanced w returns ((evaluator w limit).expression e) :=
  ((evaluator_any w limit).expression e (Demand.any_meets _ _ _) 0).balanced

theorem balanced_statement (s : Statement) : Eval.Balanced w s.Returns ((evaluator w limit).statement s) :=
  ((evaluator_any w limit).statement s (Demand.any_meets _ _ _) 0).balanced

theorem balanced_statements (list : List Statement) :
    Eval.Balanced w (Statement.SomeReturns list) ((evaluator w limit).statements w list) :=
  Eval.Keeps.balanced (keeps_statements (evaluator_any w limit) (Demand.any_meets _ _ _))

theorem balanced_call (callee : Value) (args : List Value) (site : Site) :
    Eval.Balanced w returns ((evaluator w limit).call w callee args site) :=
  Eval.Keeps.balanced (keeps_call (evaluator_any w limit) callee.meets_any (fun v _ => v.meets_any) trivial)

end Evaluator

/-- However an expression, a statement, a list of statements or a call ends, the environment and the depth are what they
were. No call is made deeper than the limit, and the fault is that of the last call, at the limit. -/
theorem evaluation_balanced (w : World) (limit : Nat) (m : Machine) :
    (∀ e, m.Ends w ((evaluator w limit).expression e m)) ∧
    (∀ s, m.Ends w ((evaluator w limit).statement s m)) ∧
    (∀ list, m.Ends w (Evaluator.statements w (evaluator w limit) list m)) ∧
    ∀ callee args site, m.Ends w (Evaluator.call w (evaluator w limit) callee args site m) := by
  refine ⟨fun e => ?_, fun s => ?_, fun list => ?_, fun callee args site => ?_⟩
  · exact (@Evaluator.balanced_expression True w limit e m).1
  · exact (Evaluator.balanced_statement w limit s m).1
  · exact (Evaluator.balanced_statements w limit list m).1
  · exact (@Evaluator.balanced_call True w limit callee args site m).1

end Hygiene
