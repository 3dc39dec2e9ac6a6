import Hygiene.Proofs.Expand.ChangeLaw

/-!
# What leaves the modules of a run alone

Only imports load modules. Everything else leaves the modules of a run as they are, whether it succeeds or fails, and
never ends with a circular import. `Expand.Aside` says so; it is a law of reading.
-/

namespace Hygiene

/-- The message with which the expansion of a module begins. -/
def expandingMessage (specifier : String) : String := "expanding module '" ++ specifier ++ "'"

/-- Whether a message says that the expansion of a module begins. -/
def isExpandingMessage (message : String) : Bool := "expanding module '".toList.isPrefixOf message.toList

/-- What a run has done about modules. -/
structure Loads where
  /-- The expanded modules, in the order in which they were finished. -/
  modules : List (String × ModuleRecord)
  /-- The modules that are being expanded, the innermost first. -/
  loading : List String
  /-- The modules asked of the loader, the last one first. -/
  asked : List String
  /-- The imports that were begun, the last one first. -/
  requests : List ImportRequest
  /-- The messages that the expansion of a module begins, the last one first. -/
  begun : List String

/-- What a run has done about modules so far. -/
def Run.loads (run : Run) : Loads where
  modules := run.modules
  loading := run.loading
  asked := run.asked
  requests := run.requests
  begun := run.log.filter isExpandingMessage

theorem isExpandingMessage_expandingMessage (specifier : String) :
    isExpandingMessage (expandingMessage specifier) = true := by
  have htext : (expandingMessage specifier).toList = "expanding module '".toList ++ (specifier ++ "'").toList := by
    rw [← String.toList_append, ← String.append_assoc]
    rfl
  unfold isExpandingMessage
  rw [htext]
  exact List.isPrefixOf_iff_prefix.2 (List.prefix_append _ _)

/-- The message with which an expansion begins is taken down. -/
theorem Run.loads_expanding (run : Run) (specifier : String) :
    Run.loads { run with log := expandingMessage specifier :: run.log } =
      { run.loads with begun := expandingMessage specifier :: run.loads.begun } := by
  simp only [Run.loads, List.filter_cons_of_pos (isExpandingMessage_expandingMessage specifier)]

/-- A message that begins otherwise is no message about the beginning of an expansion. -/
theorem isExpandingMessage_written (line : String) : isExpandingMessage ("console.log: " ++ line) = false := by
  simp [isExpandingMessage, List.isPrefixOf]

theorem isExpandingMessage_finished (rest : String) : isExpandingMessage ("expanded '" ++ rest) = false := by
  simp [isExpandingMessage, List.isPrefixOf]

namespace Change

/-- The change that leaves the modules of the run alone, and does not end with a circular import. -/
abbrev aside : Change where
  Rel run run' := run'.loads = run.loads
  Fault fault := fault.cycle? = none
  refl _ := rfl
  trans h h' := h'.trans h

/-- Running code leaves the modules alone. -/
theorem aside_executes (phase : Option Phase) : aside.Covers (.executes phase) where
  rel {run run'} h := by
    obtain ⟨lines, hlog⟩ := h.log
    have hwritten : (lines.map ("console.log: " ++ ·)).filter isExpandingMessage = [] := by
      rw [List.filter_eq_nil_iff]
      intro message hm
      obtain ⟨line, _, rfl⟩ := List.mem_map.1 hm
      simp [isExpandingMessage_written]
    rw [h.same]
    simp [Run.loads, hlog, hwritten]
  fault h := h.1

theorem aside_ofReading : aside.OfReading where
  inert := {
    rel := fun h => by
      rw [h.same]
      rfl
    fault := ExpandFault.cycle?_of_isPlain }
  code := aside_executes none
  limit _ := rfl
  opening _ _ := rfl
  closing _ _ _ := rfl

end Change

namespace Expand

variable {α : Type}

/-- The computation leaves the modules of the run alone, and does not end with a circular import. -/
def Aside (x : Expand α) : Prop := Makes .aside x

/-- What only reads leaves the modules alone. -/
theorem Aside.inert {x : Expand α} (hx : Inert x) : Aside x := .mono Change.aside_ofReading.inert hx

theorem Aside.executes {phase : Option Phase} {x : Expand α} (hx : Executes phase x) : Aside x :=
  .mono (Change.aside_executes phase) hx

theorem Aside.exhausted : Aside (exhausted (α := α)) := Makes.exhausted rfl

/-- Binding an imported name runs the module that exports it, and loads none. -/
theorem aside_bindImport (s : Setup) (record : ModuleRecord) (imported : Import) (wanted : String × Token × Site) :
    Aside (bindImport s record imported wanted) :=
  makes_bindImport Change.aside_ofReading.inert (Change.aside_executes _) (fun _ _ _ _ => rfl) (fun _ _ _ => rfl) s record
    imported wanted

theorem aside_finish (s : Setup) (record : ModuleRecord) : Aside (finish s record) := by
  intro run
  show Run.loads _ = _
  simp only [Run.loads, String.append_assoc, List.filter_cons, isExpandingMessage_finished, Bool.false_eq_true, if_false]

end Expand

namespace Parse

variable {α : Type}

/-- Reading leaves the modules of the run alone, and does not end with a circular import. -/
def Aside (x : Parse α) : Prop := Makes .aside x

theorem aside_invokeHere (s : Setup) : Aside (invokeHere s) := makes_invokeHere Change.aside_ofReading s

end Parse

/-- Reading terms leaves the modules of the run alone. -/
def asideLaw (s : Setup) : Law s s :=
  Change.law Change.aside_ofReading s (fun _ => True) fun _ _ _ _ _ _ _ => rfl

end Hygiene
