import Hygiene.Proofs.Eval.Demand
import Hygiene.Proofs.Expand.Change

/-!
# Running code in an expansion

Code is run on the heap of a run, with its bindings and compile-time values as the world; what it writes is reported
afterwards. So it changes nothing of a run but the heap, the reports and the instances. `Expand.Executes` says so of one
computation, whether it succeeds or fails.
-/

namespace Hygiene

open List

/-- What code that the run runs looks things up in. -/
def Run.world (s : Setup) (run : Run) : World where
  store := run.store
  registry := run.registry
  sources := run.sources
  maxCallDepth := s.config.maxCallDepth

namespace Expand

variable {α β : Type}

/-- Reporting written lines changes the reports only. -/
theorem recordTrace_eq (lines : List String) (site : Site) (run : Run) :
    ∃ diagnostics, recordTrace lines site run =
      .ok () { run with log := (lines.map ("console.log: " ++ ·)).reverse ++ run.log, diagnostics } := by
  induction lines generalizing run with
  | nil => exact ⟨run.diagnostics, rfl⟩
  | cons line lines ih =>
    obtain ⟨diagnostics, h⟩ := ih
      { run with
        log := ("console.log: " ++ line) :: run.log
        diagnostics :=
          { severity := .info, code := some traceCode, message := line, location := run.sources.locateSite site } ::
            run.diagnostics }
    refine ⟨diagnostics, ?_⟩
    rw [map_cons, reverse_cons, append_assoc]
    exact h

/-- The run after code has left a machine: its heap is the one of the machine, and what the code wrote is reported. -/
def finished (run : Run) (site : Site) (m : Machine) : Run :=
  finalRun (recordTrace m.trace.toList site { run with heap := m.heap })

theorem finished_eq (run : Run) (site : Site) (m : Machine) : ∃ (lines : List String) (diagnostics : List Diagnostic),
    finished run site m =
    { run with heap := m.heap, log := lines.map ("console.log: " ++ ·) ++ run.log, diagnostics } := by
  obtain ⟨diagnostics, h⟩ := recordTrace_eq m.trace.toList site { run with heap := m.heap }
  refine ⟨m.trace.toList.reverse, diagnostics, ?_⟩
  rw [finished, h, map_reverse]
  rfl

/-- The code is run on the heap, and how it ends is the result, unless its steps are used up. -/
theorem evaluate_eq (s : Setup) (env : Environment) (site : Site) (act : World → Evaluator → Eval α) (run : Run) :
    evaluate s env site act run =
      match act (run.world s) (evaluator (run.world s) s.limit) { heap := run.heap, env } with
      | .ok value m => .ok (.ok value) (finished run site m)
      | .error .exhausted m => .error ⟨.exhausted, none⟩ (finished run site m)
      | .error signal m => .ok (.error signal) (finished run site m) := by
  unfold evaluate finished Run.world
  simp only [Bind.bind, EStateM.bind, runCode]
  cases act _ (evaluator _ s.limit) { heap := run.heap, env } with
  | ok value m =>
    obtain ⟨diagnostics, htrace⟩ := recordTrace_eq m.trace.toList site { run with heap := m.heap }
    simp only [htrace]
    rfl
  | error signal m =>
    obtain ⟨diagnostics, htrace⟩ := recordTrace_eq m.trace.toList site { run with heap := m.heap }
    cases signal <;> simp only [htrace] <;> rfl

end Expand

/-- The variables of an import hold what the other module exports. -/
theorem Heap.Meets.defineImports {d : Demand} (hd : d.frames = none) (store : Store) (env : Environment)
    {values : Instance} (hvalues : ∀ v ∈ values, v.2.Meets d) (idents : List Token) {heap : Heap} (hheap : heap.Meets d) :
    (idents.foldl (fun heap ident =>
      match store.resolveIdent ident with
      | some b => match b.kind with
        | .runtimeImport _ name => heap.define env b.fresh ((Assoc.get? name values).getD .undefined)
        | _ => heap
      | none => heap) heap).Meets d := by
  induction idents generalizing heap with
  | nil => exact hheap
  | cons ident idents ih =>
    refine ih ?_
    dsimp only
    split
    · split
      · refine hheap.define _ _ (Value.meets_getD fun v hv => ?_)
        exact (Value.meets_among hd).2 (Value.meets_of_get? hvalues hv)
      · exact hheap
    · exact hheap

theorem Expand.meets_exportValue {d : Demand} (hd : d.frames = none) {run : Run} (hheap : run.heap.Meets d)
    (hvalues : ∀ entry ∈ run.registry.values, entry.2.Meets d) (env : Environment) (id : BindingId) :
    (exportValue run env id).Meets d := by
  unfold exportValue
  split
  · exact Value.meets_undefined
  · refine Value.meets_getD fun v hv => ?_
    split at hv
    · obtain ⟨k, hk⟩ := Assoc.exists_mem_of_get? hv
      exact hvalues _ hk
    · exact (Value.meets_among hd).1 (hheap.get? hv)

/-- The second run differs from the first in its heap, reports and instances, and in that code was run. New instances
are of the given phase; without one nothing is done with modules. -/
structure Run.Executes (phase : Option Phase) (run run' : Run) : Prop where
  same : run' = { run with
    heap := run'.heap, instances := run'.instances, diagnostics := run'.diagnostics, log := run'.log,
    activities := run'.activities, events := run'.events }
  log : ∃ lines : List String, run'.log = lines.map ("console.log: " ++ ·) ++ run.log
  instances : ∀ entry ∈ run'.instances, entry ∈ run.instances ∨ some entry.1.2 = phase
  apart : phase = none → run'.instances = run.instances ∧ run'.activities = run.activities
  events : ∃ new, run'.events = new ++ run.events ∧ ∀ e ∈ new, e.isRan = true

/-- Only the heap is changed. -/
theorem Run.Executes.heap {phase : Option Phase} (run : Run) (heap : Heap) : run.Executes phase { run with heap } :=
  ⟨rfl, ⟨[], rfl⟩, fun _ he => Or.inl he, fun _ => ⟨rfl, rfl⟩, [], rfl, nofun⟩

theorem Run.Executes.refl {phase : Option Phase} (run : Run) : run.Executes phase run := .heap run run.heap

theorem Run.Executes.trans {phase : Option Phase} {run run' run'' : Run} (h : run.Executes phase run')
    (h' : run'.Executes phase run'') : run.Executes phase run'' := by
  obtain ⟨hsame, ⟨lines, hlog⟩, hinstances, hapart, new, hnew, hran⟩ := h
  obtain ⟨hsame', ⟨lines', hlog'⟩, hinstances', hapart', new', hnew', hran'⟩ := h'
  refine ⟨?_, ⟨lines' ++ lines, ?_⟩, fun entry he => ?_, fun hnone => ?_, new' ++ new,
    by rw [hnew', hnew, append_assoc], fun e he => ?_⟩
  · rw [hsame', hsame]
  · rw [hlog', hlog, map_append, append_assoc]
  · exact (hinstances' entry he).elim (hinstances entry) Or.inr
  · exact ⟨(hapart' hnone).1.trans (hapart hnone).1, (hapart' hnone).2.trans (hapart hnone).2⟩
  · rcases mem_append.1 he with he | he
    · exact hran' e he
    · exact hran e he

/-- The change that runs code. -/
abbrev Change.executes (phase : Option Phase) : Change where
  Rel := Run.Executes phase
  Fault fault := fault.cycle? = none ∧ fault.limit? = none
  refl := .refl
  trans := .trans

namespace Expand

variable {α : Type} {phase : Option Phase}

/-- The computation runs code and changes nothing else, and ends neither with a circular import nor for want of
invocations. -/
def Executes (phase : Option Phase) (x : Expand α) : Prop := Makes (.executes phase) x

/-- What a transformer gives is no signal, so a signal is not what is wrong with it. -/
theorem signal?_of_outputTokens {value : Value} {fault : InvocationFault} (h : outputTokens value = .error fault)
    (name : String) : (ExpandFault.invocation name fault).signal? = none := by
  have hitems : ∀ items fault, itemTokens items = .error fault → ∃ typeName, fault = .wrongItem typeName := by
    intro items
    induction items with
    | nil => nofun
    | cons item items ih =>
      intro fault h
      cases item with
      | fragment tokens =>
        simp only [itemTokens, Bind.bind, Except.bind] at h
        cases hrest : itemTokens items with
        | error fault' =>
          rw [hrest] at h
          cases h
          exact ih _ hrest
        | ok rest =>
          rw [hrest] at h
          cases h
      | _ =>
        cases h
        exact ⟨_, rfl⟩
  unfold outputTokens at h
  split at h
  · cases h
  · cases h
  · obtain ⟨typeName, rfl⟩ := hitems _ _ h
    rfl
  · cases h
    rfl

end Expand

variable {G : Piece → Prop}

theorem good_itemTokens {items : List Value} (h : ∀ v ∈ items, v.Good G) {output : List Token}
    (ho : itemTokens items = .ok output) : ∀ p ∈ Token.piecesAll output, G p := by
  induction items generalizing output with
  | nil =>
    cases ho
    simp [Token.piecesAll]
  | cons v items ih =>
    obtain ⟨hv, hitems⟩ := forall_mem_cons.1 h
    unfold itemTokens at ho
    split at ho
    · next heq => cases heq
    · next tokens rest heq =>
      cases heq
      cases hr : itemTokens items with
      | error fault => simp [hr, bind, Except.bind] at ho
      | ok more =>
        simp only [hr, bind, Except.bind, pure, Except.pure, Except.ok.injEq] at ho
        subst ho
        intro p hp
        rw [Token.piecesAll_append] at hp
        exact (mem_append.1 hp).elim (Value.good_fragment.1 hv p) (ih hitems hr p)
    · cases ho

theorem good_outputTokens {v : Value} (hv : v.Good G) {output : List Token} (ho : outputTokens v = .ok output) :
    ∀ p ∈ Token.piecesAll output, G p := by
  unfold outputTokens at ho
  split at ho
  · cases ho
    exact Value.good_fragment.1 hv
  · cases ho
    simp [Token.piecesAll]
  · exact good_itemTokens (Value.good_array.1 hv) ho
  · cases ho

end Hygiene
