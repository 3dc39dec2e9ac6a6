import Hygiene.Proofs.Loading.Aside

/-!
# The stack of modules

The modules that are being expanded form a stack. However a computation ends, the stack is as before. This is a law of
whole modules.
-/

namespace Hygiene

namespace Change

/-- The change that leaves the stack of modules as it was. -/
abbrev restoring : Change where
  Rel run run' := run'.loading = run.loading
  refl _ := rfl
  trans h h' := h'.trans h

theorem restoring_inert : restoring.Covers .inert where
  rel h := by rw [h.same]

theorem restoring_executes (phase : Option Phase) : restoring.Covers (.executes phase) where
  rel h := by rw [h.same]

theorem restoring_ofReading : restoring.OfReading where
  inert := restoring_inert
  code := restoring_executes none
  opening _ _ := rfl
  closing _ _ _ := rfl

theorem restoring_notes : restoring.Notes := fun _ _ _ _ _ _ => rfl

end Change

namespace Expand

variable {α : Type}

/-- However the computation ends, the stack of modules is as before. -/
def Restores (x : Expand α) : Prop := Makes .restoring x

theorem Aside.restores {x : Expand α} (hx : Aside x) : Restores x :=
  .mono { rel := fun h => congrArg Loads.loading h } hx

end Expand

/-- The stack of modules is as before. -/
def restoringLaw (s : Setup) : ModuleLaw s s where
  toLaw := Change.law Change.restoring_ofReading s (fun _ => True) fun _ _ _ _ _ _ _ => rfl
  covers _ := trivial
  akin := .refl s
  noted := .noted Change.restoring_notes
  circular _ _ := Expand.Makes.fail (α := ModuleRecord) trivial
  whileLoading specifier hx := .whileLoading hx specifier fun _ _ h => congrArg List.tail h
  keep _ := .modify fun _ => rfl
  processImport imported _ _ hp _ := .bind (.noted Change.restoring_notes (Expand.noted_request _)) fun _ =>
    .bind (hp _ _) fun record => .forM fun wanted => Expand.makes_bindImport Change.restoring_inert
      (Change.restoring_executes _) (fun _ _ _ _ => rfl) (fun _ _ _ => rfl) s record imported wanted

namespace Expand

/-- Expanding the items of a module restores the stack, however deep readers may go. -/
theorem restores_moduleItems (s : Setup) (limit : Nat) (home : Home) (tokens : List Token) :
    Restores (moduleItems s home (passes s limit home) tokens) :=
  ModuleLaw.expandItems ((restoringLaw s).ties_passes limit trivial) ((restoringLaw s).loads_passes limit home) home tokens

theorem restores_items (s : Setup) (home : Home) (tokens : List Token) : Restores (items s home tokens) :=
  (restoringLaw s).items home tokens

theorem restores_compile (s : Setup) (specifier text : String) (dialect : Dialect) :
    Restores (compile (items s) specifier text dialect) :=
  ModuleLaw.compile (M := restoringLaw s) (restores_items s) (ModuleLaw.completed_items s) (ModuleLaw.completed_items s)
    specifier text dialect

theorem restores_load (s : Setup) (specifier : String) (site : Site) : Restores (load s (items s) specifier site) :=
  (restoringLaw s).loadItems specifier site

end Expand

end Hygiene
