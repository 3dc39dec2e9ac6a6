import Hygiene.Proofs.Eval.Balance
import Hygiene.Proofs.Expand.ConductLaw

/-!
# Signals that end an expansion

A transformer is called and an initializer is an expression, so neither fails with a return, break or continue. The
statements of a module can end with a return, if one of them has a return statement outside of every function.
-/

namespace Hygiene

/-- Nothing is asked of the code, and what it fails with can come out of it. -/
def Conduct.confining : Conduct where
  demand := .any
  frames := Demand.any_frames
  literals _ _ _ := trivial
  unknown := trivial
  Holds _ := True
  Fails e run := e.fault.Confined run.activities
  heap _ := Heap.meets_any _
  values _ _ _ := Value.meets_any _
  setHeap _ _ := trivial
  report _ _ _ _ := trivial
  fail _ hf _ := hf.confined

theorem Conduct.confining_ofModules (phase : Phase) : confining.OfModules phase where
  records _ _ := trivial
  modules _ _ _ := ⟨trivial, fun _ _ => Demand.any_meets _ _ _⟩
  instances _ _ _ _ _ := Value.meets_any _
  track _ _ := trivial
  keep _ _ _ _ := trivial

theorem Conduct.confining_ofExpansion : confining.OfExpansion where
  piece _ := trivial
  site _ := trivial
  modules := confining_ofModules
  transformers _ _ _ := Value.meets_any _
  completed _ := Demand.any_meets _ _ _
  same _ _ _ _ _ _ := trivial
  define _ _ _ _ := trivial
  defineValue _ _ _ _ := trivial
  keep _ _ _ _ := trivial
  fails _ := ExpandFault.confined_of_signal?
  unloads _ h := h

/-- No computation of an expansion fails with a signal that cannot come out of the code. -/
abbrev signalLaw (s : Setup) : ModuleLaw s s := Conduct.law Conduct.confining_ofExpansion s

theorem Signal.Leaves.isControlFlow {signal : Signal} (h : signal.Leaves False) : signal.isControlFlow = false := by
  cases signal <;> first | rfl | cases h

/-- How an operation on a program fails, if it does: not for a return, a break or a continue of a transformer or an
initializer, and for a return of a module only if one of its statements has one outside of every function. -/
structure ConfinesSignals {α : Type} (result : EStateM.Result ExpandError Run α) : Prop where
  declaration : ∀ e run name signal, result = .error e run → e.fault = .declaration name (.evaluation signal) →
    signal.isControlFlow = false
  invocation : ∀ e run name signal, result = .error e run → e.fault = .invocation name (.evaluation signal) →
    signal.isControlFlow = false
  evaluation : ∀ e run value, result = .error e run → e.fault = .evaluation (.returned value) →
    ∃ record phase earlier, run.activities = .started record phase :: earlier ∧
      Statement.SomeReturns (record.items.filterMap (·.statement?))

theorem Expand.confinesSignals_of_keeps {α : Type} {x : Expand α} {Q : α → Prop} (hx : Conduct.confining.Keeps x Q) :
    ConfinesSignals (x {}) := by
  have hconfined {e : ExpandError} {run : Run} (heq : x {} = .error e run) : e.fault.Confined run.activities :=
    (hx {} trivial).error heq
  refine ⟨fun e run name signal heq hfault => ?_, fun e run name signal heq hfault => ?_, fun e run value heq hfault => ?_⟩
  · exact ((hfault ▸ hconfined heq) signal rfl).isControlFlow
  · exact ((hfault ▸ hconfined heq) signal rfl).isControlFlow
  · have h := hconfined heq
    rw [hfault] at h
    exact h

/-- No expression and no call ends with a return, a break or a continue, and no statement with a break or a continue. So
none of them is why a transformer or an initializer fails. -/
theorem signals_confined :
    (∀ (w : World) (limit : Nat) (m m' : Machine) (signal : Signal),
      (∀ e, (evaluator w limit).expression e m = .error signal m' → signal.isControlFlow = false) ∧
      (∀ callee args site, Evaluator.call w (evaluator w limit) callee args site m = .error signal m' →
        signal.isControlFlow = false) ∧
      ∀ s, (evaluator w limit).statement s m = .error signal m' → signal ≠ .broke ∧ signal ≠ .continued) ∧
    ∀ s : Setup, (∀ text, ConfinesSignals (expandProgram s text)) ∧
      (∀ specifier, ConfinesSignals (expandModule s specifier)) ∧ ∀ text, ConfinesSignals (evaluateProgram s text) := by
  have hentry (s : Setup) (text : String) : Conduct.confining.Keeps (Expand.entry s text) fun _ => True := (signalLaw s).entry text
  have hfinish (s : Setup) (record : ModuleRecord) : Conduct.confining.Keeps (Expand.finish s record) fun _ => True :=
    fun _ _ => ⟨trivial, trivial⟩
  refine ⟨fun w limit m m' signal => ⟨fun e h => ?_, fun callee args site h => ?_, fun s h => ?_⟩, fun s => ⟨fun text => ?_,
    fun specifier => ?_, fun text => ?_⟩⟩
  · exact ((@Evaluator.balanced_expression False w limit e m).2 signal m' h).isControlFlow
  · exact ((@Evaluator.balanced_call False w limit callee args site m).2 signal m' h).isControlFlow
  · have hleaves := (Evaluator.balanced_statement w limit s m).2 signal m' h
    constructor <;> rintro rfl <;> exact hleaves
  · exact Expand.confinesSignals_of_keeps (.bind (hentry s text) fun record _ => hfinish s record)
  · have hload : Conduct.confining.Keeps (Expand.load s (Expand.items s) specifier .unknown) fun _ => True :=
      (signalLaw s).loadItems specifier .unknown
    exact Expand.confinesSignals_of_keeps (.bind hload fun record _ => hfinish s record)
  · have hc := Conduct.confining_ofModules .runtime
    exact Expand.confinesSignals_of_keeps (.bind (hentry s text) fun record _ => .bind .get fun run _ =>
      Conduct.keeps_runModule hc s (Conduct.keeps_instantiate hc s _) ⟨trivial, fun _ _ => Demand.any_meets _ _ _⟩)

end Hygiene
