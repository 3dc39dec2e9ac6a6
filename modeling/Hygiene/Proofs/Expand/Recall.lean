import Hygiene.Proofs.Expand.ChangeLaw

/-!
# What was taken down is not forgotten

A run only adds to its events and to the imports it has begun. So what it has come upon can be read from the run that is
left in the end, also when the expansion fails.
-/

namespace Hygiene

open List

/-- The second run has all events and all begun imports of the first. -/
structure Run.Recalls (run run' : Run) : Prop where
  events : run.events <:+ run'.events
  requests : run.requests <:+ run'.requests

theorem Run.Recalls.refl (run : Run) : run.Recalls run := ⟨suffix_refl _, suffix_refl _⟩

/-- Events were added, and no imports were begun. -/
theorem Run.Recalls.of_events {run run' : Run} {new : List Event} (hevents : run'.events = new ++ run.events)
    (hrequests : run'.requests = run.requests) : run.Recalls run' := ⟨⟨new, hevents.symm⟩, ⟨[], hrequests.symm⟩⟩

theorem Run.Recalls.trans {run run' run'' : Run} (h : run.Recalls run') (h' : run'.Recalls run'') : run.Recalls run'' :=
  ⟨h.events.trans h'.events, h.requests.trans h'.requests⟩

namespace Change

/-- The change that forgets nothing that was taken down. -/
abbrev recalling : Change where
  Rel := Run.Recalls
  refl := .refl
  trans := .trans

theorem recalling_executes (phase : Option Phase) : recalling.Covers (.executes phase) where
  rel h := by
    obtain ⟨new, hnew, _⟩ := h.events
    exact .of_events hnew (by rw [h.same])

theorem recalling_inert : recalling.Covers .inert where
  rel h := by
    obtain ⟨new, hnew, _⟩ := h.events
    exact .of_events hnew (by rw [h.same])

theorem recalling_ofReading : recalling.OfReading where
  inert := recalling_inert
  code := recalling_executes none
  opening _ _ := ⟨suffix_cons _ _, suffix_refl _⟩
  closing _ _ _ := ⟨suffix_cons _ _, suffix_refl _⟩

theorem recalling_notes : recalling.Notes := fun _ _ _ _ _ h => ⟨suffix_refl _, h⟩

theorem recalling_defines {P : Run → Transformer → Prop} : recalling.Defines P :=
  fun _ _ _ _ => ⟨suffix_refl _, suffix_refl _⟩

end Change

namespace Expand

variable {α : Type}

/-- However the computation ends, nothing that was taken down is forgotten. -/
def Recalls (x : Expand α) : Prop := Makes .recalling x

theorem Recalls.inert {x : Expand α} (hx : Inert x) : Recalls x := .mono Change.recalling_inert hx

theorem Recalls.noted {x : Expand α} (hx : Noted x) : Recalls x := Makes.noted Change.recalling_notes hx

theorem Recalls.whileLoading {x : Expand α} (hx : Recalls x) (specifier : String) : Recalls (whileLoading specifier x) :=
  Makes.whileLoading hx specifier fun _ _ h => ⟨h.events, h.requests⟩

theorem recalls_record (event : Event) : Recalls (record event) :=
  .modify fun _ => ⟨suffix_cons _ _, suffix_refl _⟩

theorem recalls_bindImport (s : Setup) (record : ModuleRecord) (imported : Import) (wanted : String × Token × Site) :
    Recalls (bindImport s record imported wanted) :=
  makes_bindImport Change.recalling_inert (Change.recalling_executes _) Change.recalling_defines
    (fun _ _ _ => ⟨suffix_refl _, suffix_refl _⟩) s record imported wanted

end Expand

/-- What was taken down is not forgotten. -/
def recallLaw (s : Setup) : ModuleLaw s s where
  toLaw := Change.law Change.recalling_ofReading s (fun _ => True) fun _ _ _ => Change.recalling_defines
  covers _ := trivial
  akin := .refl s
  noted := Expand.Recalls.noted
  circular _ _ := Expand.Makes.fail (α := ModuleRecord) trivial
  whileLoading specifier hx := Expand.Recalls.whileLoading hx specifier
  keep _ := .modify fun _ => ⟨suffix_refl _, suffix_refl _⟩
  processImport imported _ _ hp _ := .bind (Expand.Recalls.noted (Expand.noted_request _)) fun _ =>
    .bind (hp _ _) fun record => .forM (Expand.recalls_bindImport s record imported)

end Hygiene
