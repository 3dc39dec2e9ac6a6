import Hygiene.Proofs.Expand.Yields

/-!
# How computations change a run

A `Change` says how one run may come from another, in steps that can follow each other, and with which faults they may
stop. `Expand.Makes` says that a computation changes the run in this way, whether it succeeds or fails.
-/

namespace Hygiene

/-- How one run may come from another, and the faults that may come with it. -/
structure Change where
  Rel : Run → Run → Prop
  Fault : ExpandFault → Prop := fun _ => True
  refl (run : Run) : Rel run run
  trans {run run' run'' : Run} : Rel run run' → Rel run' run'' → Rel run run''

/-- What changes a run in the second way changes it in the first. -/
structure Change.Covers (c c' : Change) : Prop where
  rel {run run' : Run} : c'.Rel run run' → c.Rel run run'
  fault {fault : ExpandFault} : c'.Fault fault → c.Fault fault := by exact fun _ => trivial

namespace Expand

variable {α β : Type} {c c' : Change}

/-- However the computation ends, the run has changed in the given way, and the fault is of the given kind. -/
def Makes (c : Change) (x : Expand α) : Prop :=
  ∀ run, Yields run x (fun _ run' => c.Rel run run') fun e run' => c.Rel run run' ∧ c.Fault e.fault

namespace Makes

variable {x : Expand α} {f : α → Expand β}

theorem pure {a : α} : Makes c (Pure.pure a) := c.refl

theorem get : Makes c get := c.refl

theorem modify {f : Run → Run} (h : ∀ run, c.Rel run (f run)) : Makes c (modify f) := h

theorem fail {fault : ExpandFault} {site : Site} (h : c.Fault fault) : Makes c (fail (α := α) fault site) :=
  fun run => ⟨c.refl run, h⟩

theorem exhausted (h : c.Fault .exhausted) : Makes c (exhausted (α := α)) := fun run => ⟨c.refl run, h⟩

/-- The second part may rely on its start being a result of the first. -/
theorem bind_mayGive (hx : Makes c x) (hf : ∀ a, x.MayGive a → Makes c (f a)) : Makes c (x >>= f) := by
  refine fun run => .bind ((hx run).keep_eq) ?_
  rintro a run' ⟨heq, hrun'⟩
  exact (hf a ⟨run, run', heq⟩ run').imp (fun _ _ => c.trans hrun') fun _ _ h => ⟨c.trans hrun' h.1, h.2⟩

theorem bind (hx : Makes c x) (hf : ∀ a, Makes c (f a)) : Makes c (x >>= f) :=
  hx.bind_mayGive fun a _ => hf a

theorem ite {p : Prop} [Decidable p] {y : Expand α} (hx : Makes c x) (hy : Makes c y) :
    Makes c (if p then x else y) := fun run => .ite (fun _ => hx run) fun _ => hy run

theorem discard {x : Expand α} (hx : Makes c x) : Makes c (discard x) := by
  have heq : Functor.discard x = (x >>= fun _ => Pure.pure () : Expand Unit) := rfl
  rw [heq]
  exact .bind hx fun _ => .pure

theorem forM {f : α → Expand PUnit} {list : List α} (h : ∀ a, Makes c (f a)) : Makes c (list.forM f) := by
  induction list with
  | nil => exact .pure
  | cons a list ih => exact .bind (h a) fun _ => ih

theorem mapM {list : List α} (h : ∀ a, Makes c (f a)) : Makes c (list.mapM f) := by
  induction list with
  | nil =>
    rw [List.mapM_nil]
    exact .pure
  | cons a list ih =>
    rw [List.mapM_cons]
    exact .bind (h a) fun _ => .bind ih fun _ => .pure

theorem mono (hc : c.Covers c') (hx : Makes c' x) : Makes c x :=
  fun run => (hx run).imp (fun _ _ => hc.rel) fun _ _ h => ⟨hc.rel h.1, hc.fault h.2⟩

theorem final (hx : Makes c x) (run : Run) : c.Rel run (finalRun (x run)) :=
  yields_final.1 ((hx run).imp (fun _ _ h => h) fun _ _ h => h.1)

theorem of_ok (hx : Makes c x) {run run' : Run} {a : α} (h : x run = .ok a run') : c.Rel run run' :=
  (hx run).ok h

theorem of_final (h : ∀ run, c.Rel run (finalRun (x run)))
    (hfault : ∀ fault, c.Fault fault := by exact fun _ => trivial) : Makes c x :=
  fun run => (yields_final.2 (h run)).imp (fun _ _ h => h) fun _ _ h => ⟨h, hfault _⟩

end Makes

end Expand

namespace Parse

variable {α β : Type} {c c' : Change}

/-- However the reading ends, the run has changed in the given way, and the fault is of the given kind. -/
def Makes (c : Change) (x : Parse α) : Prop := ∀ stream, Expand.Makes c (x stream)

namespace Makes

variable {x : Parse α}

theorem pure {a : α} : Makes c (Pure.pure a) := fun _ => .pure

theorem bind {f : α → Parse β} (hx : Makes c x) (hf : ∀ a, Makes c (f a)) : Makes c (x >>= f) :=
  fun stream => .bind (hx stream) fun r => hf r.1 r.2

theorem lift {x : Expand α} (hx : Expand.Makes c x) : Makes c (liftM x : Parse α) := fun _ => .bind hx fun _ => .pure

theorem map {f : α → β} (hx : Makes c x) : Makes c (f <$> x) :=
  fun stream => .bind (hx stream) fun _ => .pure

theorem ite {p : Prop} [Decidable p] {y : Parse α} (hx : Makes c x) (hy : Makes c y) :
    Makes c (if p then x else y) := by
  split
  · exact hx
  · exact hy

theorem mono (hc : c.Covers c') (hx : Makes c' x) : Makes c x := fun stream => (hx stream).mono hc

end Makes

end Parse

end Hygiene
