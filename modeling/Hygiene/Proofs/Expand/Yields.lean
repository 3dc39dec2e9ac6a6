import Hygiene.Expand.Module
import Hygiene.Proofs.Expand.Outcome

/-!
# How computations end

`Expand.Yields run x P E` says what holds when `x` is started in a run: `P` of its result and the run it leaves if it
succeeds, and `E` of its error and the run it leaves if it fails.
-/

namespace Hygiene

namespace Expand

variable {α β : Type} {run : Run} {x : Expand α} {P Q : α → Run → Prop} {R : β → Run → Prop}
  {E F : ExpandError → Run → Prop} {a : α} {run' : Run} {I : Run → Prop} {f : α → Expand PUnit}

/-- Started in the run, the computation succeeds and `P` holds, or it fails and `E` holds. -/
def Yields (run : Run) (x : Expand α) (P : α → Run → Prop) (E : ExpandError → Run → Prop) : Prop :=
  match x run with
  | .ok a run' => P a run'
  | .error e run' => E e run'

theorem Yields.pure (h : P a run) : Yields run (Pure.pure a) P E := h

theorem Yields.of_ok (heq : x run = .ok a run') (h : P a run') : Yields run x P E := by
  unfold Yields
  rwa [heq]

theorem Yields.ok (hx : Yields run x P E) (heq : x run = .ok a run') : P a run' := by
  unfold Yields at hx
  rwa [heq] at hx

theorem Yields.error (hx : Yields run x P E) {e : ExpandError} (heq : x run = .error e run') : E e run' := by
  unfold Yields at hx
  rwa [heq] at hx

theorem Yields.intro (hok : ∀ a run', x run = .ok a run' → P a run') (herror : ∀ e run', x run = .error e run' → E e run') :
    Yields run x P E := by
  unfold Yields
  split
  · next heq => exact hok _ _ heq
  · next heq => exact herror _ _ heq

theorem Yields.imp (hx : Yields run x P E) (hP : ∀ a run', P a run' → Q a run') (hE : ∀ e run', E e run' → F e run') :
    Yields run x Q F := .intro (fun a run' heq => hP a run' (hx.ok heq)) fun e run' heq => hE e run' (hx.error heq)

/-- What a computation that succeeds gives may be relied on. -/
theorem Yields.keep_eq (hx : Yields run x P E) : Yields run x (fun a run' => x run = .ok a run' ∧ P a run') E :=
  .intro (fun _ _ heq => ⟨heq, hx.ok heq⟩) fun _ _ => hx.error

theorem Yields.fail {fault : ExpandFault} {site : Site} (h : E ⟨fault, run.sources.locateSite site⟩ run) :
    Yields run (fail fault site) P E := h

theorem Yields.bind {f : α → Expand β} (hx : Yields run x P E) (hf : ∀ a run', P a run' → Yields run' (f a) R E) :
    Yields run (x >>= f) R E := by
  unfold Yields at hx ⊢
  simp only [Bind.bind, EStateM.bind]
  cases heq : x run with
  | ok a run' =>
    rw [heq] at hx
    exact hf a run' hx
  | error e run' =>
    rw [heq] at hx
    exact hx

/-- The first part succeeds in a known way. -/
theorem Yields.bind_ok {f : α → Expand β} (heq : x run = .ok a run') (hf : Yields run' (f a) R E) :
    Yields run (x >>= f) R E := by
  refine .bind (P := fun b run'' => b = a ∧ run'' = run') (.of_ok heq ⟨rfl, rfl⟩) ?_
  rintro _ _ ⟨rfl, rfl⟩
  exact hf

theorem get_apply (run : Run) : (get : Expand Run) run = .ok run run := rfl

/-- A computation may look at the run. -/
theorem Yields.get_bind {f : Run → Expand β} (hf : Yields run (f run) R E) : Yields run (get >>= f) R E := hf

theorem Yields.ite {p : Prop} [Decidable p] {y : Expand α} (hx : p → Yields run x P E) (hy : ¬ p → Yields run y P E) :
    Yields run (if p then x else y) P E := by
  split
  · next h => exact hx h
  · next h => exact hy h

/-- What each step keeps is kept by all of them. -/
theorem Yields.forM {list : List α} (h : I run)
    (hf : ∀ a ∈ list, ∀ run', I run' → Yields run' (f a) (fun _ => I) E) : Yields run (list.forM f) (fun _ => I) E := by
  induction list generalizing run with
  | nil => exact .pure h
  | cons a list ih =>
    refine .bind (hf a List.mem_cons_self run h) fun _ run' h' => ?_
    exact ih h' fun b hb => hf b (List.mem_cons_of_mem _ hb)

/-- What each step keeps is kept by all of them, and what each step brings about, and no later one undoes, holds in the
end. -/
theorem Yields.forM_mem {G : α → Run → Prop} {list : List α} (h : I run) (hf : ∀ a ∈ list, ∀ run', I run' →
      Yields run' (f a) (fun _ run'' => I run'' ∧ G a run'' ∧ ∀ b, G b run' → G b run'') E) :
    Yields run (list.forM f) (fun _ run' => I run' ∧ (∀ a ∈ list, G a run') ∧ ∀ b, G b run → G b run') E := by
  induction list generalizing run with
  | nil => exact .pure ⟨h, nofun, fun _ hb => hb⟩
  | cons a list ih =>
    refine .bind (hf a List.mem_cons_self run h) ?_
    rintro _ run₁ ⟨h₁, ha, hkeep⟩
    refine (ih h₁ fun b hb => hf b (List.mem_cons_of_mem _ hb)).imp ?_ fun _ _ he => he
    rintro _ run₂ ⟨h₂, hall, hkeep'⟩
    exact ⟨h₂, List.forall_mem_cons.2 ⟨hkeep' a ha, hall⟩, fun b hb => hkeep' b (hkeep b hb)⟩

theorem whileLoading_eq_ok {specifier : String} (h : whileLoading specifier x run = .ok a run') : ∃ run₁,
      x { run with loading := specifier :: run.loading } = .ok a run₁ ∧
        run' = { run₁ with loading := run₁.loading.tail } := by
  unfold whileLoading at h
  generalize x { run with loading := specifier :: run.loading } = r at h
  cases r with
  | ok b run₁ =>
    cases h
    exact ⟨run₁, rfl, rfl⟩
  | error e run₁ => cases h

/-- What is to be shown while a module counts as being expanded. -/
theorem Yields.whileLoading {specifier : String} (hx : Yields { run with loading := specifier :: run.loading } x
      (fun a run' => P a { run' with loading := run'.loading.tail })
      fun e run' => E e { run' with loading := run'.loading.tail }) : Yields run (whileLoading specifier x) P E := by
  have heq : Expand.whileLoading specifier x run = match x { run with loading := specifier :: run.loading } with
    | .ok a run => .ok a { run with loading := run.loading.tail }
    | .error e run => .error e { run with loading := run.loading.tail } := rfl
  unfold Yields at hx ⊢
  rw [heq]
  cases hresult : x { run with loading := specifier :: run.loading } <;> rw [hresult] at hx <;> exact hx

/-- What holds however a computation ends holds of the run it leaves. -/
theorem yields_final : Yields run x (fun _ => I) (fun _ => I) ↔ I (finalRun (x run)) := by
  unfold Yields
  cases x run <;> exact Iff.rfl

end Expand

namespace Parse

open Expand (Yields)

variable {α β : Type} {run : Run} {stream : Stream} {P : α × Stream → Run → Prop} {R : β × Stream → Run → Prop}
  {E : ExpandError → Run → Prop} {x : Parse α}

theorem yields_bind {f : α → Parse β} (hx : Yields run (x stream) P E)
    (hf : ∀ a stream' run', P (a, stream') run' → Yields run' (f a stream') R E) : Yields run ((x >>= f) stream) R E :=
  Yields.bind hx fun r run' h => hf r.1 r.2 run' h

theorem yields_bind_ok {f : α → Parse β} {a : α} {stream' : Stream} {run' : Run} (hx : x stream run = .ok (a, stream') run')
    (hf : Yields run' (f a stream') R E) : Yields run ((x >>= f) stream) R E := Yields.bind_ok hx hf

theorem yields_pure {a : α} (h : P (a, stream) run) : Yields run ((pure a : Parse α) stream) P E := h

theorem yields_ite {p : Prop} [Decidable p] {y : Parse α} (hx : p → Yields run (x stream) P E)
    (hy : ¬ p → Yields run (y stream) P E) : Yields run ((if p then x else y) stream) P E := by
  split
  · next h => exact hx h
  · next h => exact hy h

theorem yields_lift {x : Expand α} (hx : Yields run x (fun a => P (a, stream)) E) :
    Yields run ((liftM x : Parse α) stream) P E := Yields.bind hx fun _ _ h => .pure h

theorem yields_lift_bind {x : Expand α} {f : α → Parse β} {P : α → Run → Prop} (hx : Yields run x P E)
    (hf : ∀ a run', P a run' → Yields run' (f a stream) R E) : Yields run ((liftM x >>= f : Parse β) stream) R E := by
  refine yields_bind (P := fun r run' => r.2 = stream ∧ P r.1 run') (hx.bind fun _ _ h => .pure ⟨rfl, h⟩) ?_
  rintro a _ run' ⟨rfl, h⟩
  exact hf a run' h

theorem yields_map {f : α → β} (hx : Yields run (x stream) (fun r => R (f r.1, r.2)) E) :
    Yields run ((f <$> x) stream) R E := Yields.bind hx fun _ _ h => .pure h

end Parse

end Hygiene
