import Hygiene.Proofs.Eval.Balance
import Hygiene.Proofs.Value.Equality

/-!
# Code makes tidy values

Objects get their fields by insertion, and closures the frames that the code sees. So an evaluation keeps values tidy:
objects are keyed, as their comparison asks, and the frames of closures have been made, as their calls ask.
-/

namespace Hygiene

variable {m : Machine} {n : Nat} {v : Value}

/-- Values have to be tidy where there are `n` frames. -/
def Demand.tidy (n : Nat) : Demand := { Demand.any with frames := some n }

/-- The values of the variables are tidy, and the frames that can be seen have been made. -/
structure Machine.Tidy (m : Machine) : Prop where
  grounded : m.Grounded
  values : ∀ (i : Nat) (f : Frame), m.heap.frames[i]? = some f → ∀ entry ∈ f, entry.2.Tidy m.heap.frames.size

/-- The machine that is left is tidy, and so is a value that is returned. What is given satisfies `P`. -/
def Machine.LeavesTidy {α : Type} (P : Nat → α → Prop) : EStateM.Result Signal Machine α → Prop
  | .ok a m => m.Tidy ∧ P m.heap.frames.size a
  | .error signal m => m.Tidy ∧ ∀ v, signal = .returned v → v.Tidy m.heap.frames.size

theorem Value.meets_tidy : v.Meets (.tidy n) ↔ v.Tidy n := by
  simp [Meets, Demand.tidy, Demand.any, Good]

theorem Machine.meets_tidy (hn : n ≤ m.heap.frames.size) : m.Meets (.tidy n) ↔ m.Tidy := by
  constructor
  · intro h
    exact ⟨h.grounded rfl, fun i f hf entry he => Value.meets_tidy.1 (h.heap.frames i f hf entry he)⟩
  · rintro ⟨hgrounded, hvalues⟩
    refine ⟨⟨fun i f hf entry he => Value.meets_tidy.2 (hvalues i f hf entry he), ?_, ?_⟩, ?_⟩
    · exact fun _ _ _ _ _ => trivial
    · exact fun _ _ _ _ _ => trivial
    · rintro _ ⟨⟩
      exact ⟨hn, hgrounded⟩

theorem Eval.Keeps.leavesTidy {α : Type} {w : World} {returns : Prop} {Q P : Nat → α → Prop}
    {x x' : Eval α} (hx : Keeps w (.tidy m.heap.frames.size) m.heap.frames.size returns Q x x') (hm : m.Tidy)
    (h : ∀ {n k a}, n ≤ k → Q n a → P k a) : Machine.LeavesTidy P (x m) := by
  have hmeets := (Machine.meets_tidy (Nat.le_refl _)).2 hm
  cases heq : x m with
  | ok a m' =>
    obtain ⟨hpasses, k, hk, ha⟩ := hx.ok hmeets (Nat.le_refl _) heq
    exact ⟨(Machine.meets_tidy hpasses.grows.size).1 (hmeets.passes hpasses), h hk ha⟩
  | error signal m' =>
    obtain ⟨⟨_, hpasses, _⟩, hsignal, _⟩ := hx.error hmeets (Nat.le_refl _) heq
    refine ⟨(Machine.meets_tidy hpasses.grows.size).1 (hmeets.passes hpasses), ?_⟩
    rintro v rfl
    exact Value.meets_tidy.1 hsignal

/-- Evaluations keep machines tidy, and give tidy values, if the compile-time values are tidy. -/
theorem evaluation_tidy (w : World) (limit : Nat) (hm : m.Tidy)
    (hw : ∀ entry ∈ w.registry.values, entry.2.Tidy m.heap.frames.size) :
    (∀ e, Machine.LeavesTidy Value.Tidy ((evaluator w limit).expression e m)) ∧
    (∀ s, Machine.LeavesTidy (fun _ _ => True) ((evaluator w limit).statement s m)) ∧
    ∀ callee args site, callee.Tidy m.heap.frames.size → (∀ v ∈ args, v.Tidy m.heap.frames.size) →
      Machine.LeavesTidy Value.Tidy (Evaluator.call w (evaluator w limit) callee args site m) := by
  have hkeeps : (evaluator w limit).Keeps w (.tidy m.heap.frames.size) (evaluator w limit) :=
    evaluator_keeps (fun _ _ _ => trivial) (fun entry he => Value.meets_tidy.2 (hw entry he)) (Nat.le_refl limit)
  have hgives {n k : Nat} {v : Value} (hk : n ≤ k) (hv : (Demand.tidy m.heap.frames.size).Gives n v) : v.Tidy k :=
    (Value.meets_tidy.1 hv).mono hk
  refine ⟨fun e => ?_, fun s => ?_, fun callee args site hc ha => ?_⟩
  · have hx : Eval.Keeps w _ _ True _ _ _ := hkeeps.expression e (Demand.any_meets _ _ _) m.heap.frames.size
    exact hx.leavesTidy hm hgives
  · have hx := hkeeps.statement s (Demand.any_meets _ _ _) m.heap.frames.size
    exact hx.leavesTidy hm fun _ _ => trivial
  · have hargs : (Demand.tidy m.heap.frames.size).GivesAll m.heap.frames.size args := fun v hv =>
      Value.meets_tidy.2 (ha v hv)
    have hx : Eval.Keeps w _ _ True _ (Evaluator.call w _ callee args site) _ :=
      Evaluator.keeps_call hkeeps (Value.meets_tidy.2 hc) hargs trivial
    exact hx.leavesTidy hm hgives

/-- In tidy values all objects are keyed. -/
theorem Value.Tidy.isKeyed (h : v.Tidy n) : v.isKeyed = true := by
  have all {items : List Value} (hitems : ∀ v ∈ items, v.isKeyed = true) : isKeyedAll items = true := by
    induction items with
    | nil => rfl
    | cons v vs ih =>
      obtain ⟨hv, hvs⟩ := List.forall_mem_cons.1 hitems
      rw [isKeyedAll, hv, ih hvs]
      rfl
  have fields {fs : List (String × Value)} (hfields : ∀ f ∈ fs, f.2.isKeyed = true) : isKeyedFields fs = true := by
    induction fs with
    | nil => rfl
    | cons f fs ih =>
      obtain ⟨hf, hfs⟩ := List.forall_mem_cons.1 hfields
      rw [isKeyedFields, hf, ih hfs]
      rfl
  induction h with
  | array _ ih => exact all ih
  | object hnodup _ ih => rw [Value.isKeyed, fields ih, decide_eq_true hnodup]; rfl
  | closure _ => rfl
  | @plain v h => cases v <;> first | rfl | cases h

end Hygiene
