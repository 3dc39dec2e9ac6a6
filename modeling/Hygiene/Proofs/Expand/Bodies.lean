import Hygiene.Proofs.Expand.ConductLaw

/-!
# No body is left unexpanded

A module is kept when it has been completed, and the initializer of a transformer is completed before it is run.
`completionLaw` says that every computation of an expansion keeps this.
-/

namespace Hygiene

variable {record : ModuleRecord}

theorem Value.meets_completed {v : Value} : v.Meets .completed ↔ v.Completed := by
  simp [Meets, Completed, Hygiene.Completed, Demand.completed, Good]

/-- Whether a function was called whose body has not been expanded. -/
def Signal.isUnexpandedCall : Signal → Bool
  | fault f _ => f.isUnexpandedCall
  | _ => false

/-- Whether code that was run called a function whose body has not been expanded. -/
def ExpandFault.isUnexpandedCall (fault : ExpandFault) : Bool := fault.signal?.any (·.isUnexpandedCall)

/-- Where all functions are completed, no unexpanded one is called. -/
theorem Signal.Meets.isUnexpandedCall {signal : Signal} (h : signal.Meets .completed) :
    signal.isUnexpandedCall = false := by
  cases signal with
  | fault f site =>
    cases hf : f.isUnexpandedCall with
    | false => exact hf
    | true =>
      obtain ⟨fn, hcompleted, hdeferred⟩ := h.2 hf
      exact (hdeferred hcompleted).elim
  | _ => rfl

/-- All functions that a run keeps, and all in the code that it has run, are completed. -/
structure Run.Completed (run : Run) : Prop where
  heap : run.heap.Meets .completed
  transformers : ∀ entry ∈ run.registry.transformers, entry.2.value.Completed
  values : ∀ entry ∈ run.registry.values, entry.2.Completed
  instances : ∀ entry ∈ run.instances, ∀ value ∈ entry.2, value.2.Completed
  modules : ∀ entry ∈ run.modules, Hygiene.Completed entry.2.lambdas
  ran : ∀ code, .ran code ∈ run.events → Hygiene.Completed (Statement.lambdasAll code)

theorem Run.Completed.init : Run.Completed {} := ⟨Heap.meets_empty, nofun, nofun, nofun, nofun, nofun⟩

/-- Where code and values are completed, no fault is a call of an unexpanded function. -/
theorem ExpandFault.OfCode.isUnexpandedCall {fault : ExpandFault} {activities : List Activity}
    (h : fault.OfCode .completed activities) : fault.isUnexpandedCall = false := by
  rw [ExpandFault.isUnexpandedCall]
  cases hsignal : fault.signal? with
  | none => rfl
  | some signal => exact (h.meets signal hsignal).isUnexpandedCall

/-- Completed code is run, and gives completed values. -/
def Conduct.completed : Conduct where
  demand := .completed
  frames := rfl
  literals _ _ _ := trivial
  unknown := trivial
  Holds := Run.Completed
  Fails e run := run.Completed ∧ e.fault.isUnexpandedCall = false
  heap h := h.heap
  values h entry he := Value.meets_completed.2 (h.values entry he)
  setHeap h heap := { h with heap }
  report _ _ h _ := { h with }
  fail h hfault _ := ⟨h, hfault.isUnexpandedCall⟩

/-- The statements of a completed module are completed. -/
theorem ModuleRecord.completed_statements (h : Completed record.lambdas) :
    Completed (Statement.lambdasAll (record.items.filterMap (·.statement?))) := by
  rw [ModuleRecord.lambdas] at h
  generalize record.items = items at h ⊢
  induction items with
  | nil => exact completed_nil
  | cons item items ih =>
    rw [List.flatMap_cons, completed_append] at h
    have hrest := ih h.2
    rw [List.filterMap_cons]
    split
    · exact hrest
    · next statement hstatement =>
      refine completed_append.2 ⟨?_, hrest⟩
      have hitem := h.1
      rcases item with imported | ⟨exported, site⟩ | list | inner
      · cases hstatement
      · cases exported <;> cases hstatement
        · exact hitem
        · exact hitem
        · exact completed_append.2 ⟨hitem, completed_nil⟩
      · cases hstatement
      · cases hstatement
        exact hitem

theorem ModuleRecord.runs_of_completed (h : Completed record.lambdas) : Conduct.completed.Runs record :=
  ⟨trivial, Demand.meets_statements.1 (Demand.meets_completed.2 (completed_statements h))⟩

theorem Conduct.completed_ofModules (phase : Phase) : completed.OfModules phase where
  records h hcode := { h with ran := fun
    | _, .head _ => Demand.meets_completed.1 hcode
    | code, .tail _ hmem => h.ran code hmem }
  modules h entry he := ModuleRecord.runs_of_completed (h.modules entry he)
  instances h entry he value hv := Value.meets_completed.2 (h.instances entry he value hv)
  track _ h := { h with }
  keep _ _ h hvalues := { h with
    instances := fun entry he => (Assoc.mem_insert he).elim
      (fun heq value hv => Value.meets_completed.1 (hvalues value (heq ▸ hv))) (h.instances entry) }

theorem Conduct.completed_ofExpansion : completed.OfExpansion where
  piece _ := trivial
  site _ := trivial
  modules := completed_ofModules
  transformers h entry he := Value.meets_completed.2 (h.transformers entry he)
  completed := Demand.meets_completed.2
  same h hheap hregistry hinstances hmodules hran := ⟨hheap ▸ h.heap, hregistry ▸ h.transformers, hregistry ▸ h.values,
    hinstances ▸ h.instances, hmodules ▸ h.modules, fun code hcode => h.ran code (hran code hcode)⟩
  define _ _ h ht := { h with
    transformers := fun entry he => (Assoc.mem_insert he).elim (· ▸ Value.meets_completed.1 ht) (h.transformers entry) }
  defineValue _ _ h hv := { h with
    values := fun entry he => (Assoc.mem_insert he).elim (· ▸ Value.meets_completed.1 hv) (h.values entry) }
  keep _ _ h hrecord := { h with modules := fun entry he => (Assoc.mem_insert he).elim (· ▸ hrecord) (h.modules entry) }
  fails h hsignal := ⟨h, by rw [ExpandFault.isUnexpandedCall, hsignal]; rfl⟩
  unloads _ h := ⟨{ h.1 with }, h.2⟩

/-- Every computation of an expansion keeps all functions completed. -/
abbrev completionLaw (s : Setup) : ModuleLaw s s := Conduct.law Conduct.completed_ofExpansion s

/-- The output of a body without statements comes from a block without statements, unless the body was never
expanded. -/
theorem Lowering.eq_of_bodyStatements_eq_nil {w : Lowering} {body : Body} (hbody : body.deferred? = none)
    (h : w.bodyStatements body = []) : body = .block [] := by
  cases body with
  | deferred tokens => cases hbody
  | concise value =>
    rw [bodyStatements] at h
    cases h
  | block list =>
    cases list with
    | nil => rfl
    | cons statement list =>
      rw [bodyStatements, statements] at h
      cases h

/-- How an operation on a program ends: all functions that the run keeps and has run are completed, so no body is put
out empty unless it is empty, and no unexpanded function was called. -/
structure LeavesNothing {α : Type} (result : EStateM.Result ExpandError Run α) : Prop where
  completed : (finalRun result).Completed
  bodies : ∀ entry ∈ (finalRun result).modules, ∀ fn ∈ entry.2.lambdas, ∀ w : Lowering,
    w.bodyStatements fn.body = [] → fn.body = .block []
  calls : ∀ e run, result = .error e run → ∀ signal, e.fault.signal? = some signal → ∀ function site,
    signal ≠ .fault (.unsupported (.unexpandedCall function)) site

theorem Expand.leavesNothing_of_keeps {α : Type} {x : Expand α} {Q : α → Prop} (hx : Conduct.completed.Keeps x Q) :
    LeavesNothing (x {}) := by
  have h := hx {} .init
  have hcompleted : (finalRun (x {})).Completed := yields_final.1 (h.imp (fun _ _ h => h.1) fun _ _ he => he.1)
  refine ⟨hcompleted, fun entry he fn hfn w => ?_, fun e run heq signal hsignal function site hcall => ?_⟩
  · exact Lowering.eq_of_bodyStatements_eq_nil (hcompleted.modules entry he fn hfn)
  · have hfault : e.fault.isUnexpandedCall = false := (h.error heq).2
    rw [ExpandFault.isUnexpandedCall, hsignal, hcall] at hfault
    cases hfault

theorem Expand.keepsCompleted_finish (s : Setup) (record : ModuleRecord) :
    Conduct.completed.Keeps (finish s record) fun _ => True :=
  fun _ h => ⟨Conduct.completed_ofExpansion.same h rfl rfl rfl rfl fun _ h => h, trivial⟩

/-- The output is made from a module that is kept. -/
theorem Expand.finish_tree {s : Setup} {expansion : Expansion} {run run' : Run}
    (h : finish s record run = .ok expansion run') {key : String} (hmem : (key, record) ∈ run.modules) :
    ∃ entry ∈ run'.modules, expansion.tree = Lowering.module ⟨run'.store, run'.sources, s.config⟩ entry.2 := by
  cases h
  exact ⟨_, hmem, rfl⟩

/-- No function body is left unexpanded: not in the items of an expanded module, and not in anything that an operation
on a program keeps, runs or puts out. -/
theorem bodies_expanded (s : Setup) :
    (∀ home tokens, Expand.Gives (Expand.items s home tokens) fun items =>
      Completed (items.flatMap ModuleItem.lambdas)) ∧
    (∀ text, LeavesNothing (expandProgram s text) ∧ ∀ expansion run, expandProgram s text = .ok expansion run →
      ∃ entry ∈ run.modules, expansion.tree = Lowering.module ⟨run.store, run.sources, s.config⟩ entry.2) ∧
    (∀ specifier, LeavesNothing (expandModule s specifier) ∧
      ∀ expansion run, expandModule s specifier = .ok expansion run →
        ∃ entry ∈ run.modules, expansion.tree = Lowering.module ⟨run.store, run.sources, s.config⟩ entry.2) ∧
    ∀ text, LeavesNothing (evaluateProgram s text) := by
  have hentry : ∀ text, Conduct.completed.Keeps (Expand.entry s text) fun _ => True := (completionLaw s).entry
  have hfinish := Expand.keepsCompleted_finish s
  refine ⟨ModuleLaw.completed_items s, fun text => ⟨?_, fun expansion run h => ?_⟩,
    fun specifier => ⟨?_, fun expansion run h => ?_⟩, fun text => ?_⟩
  · exact Expand.leavesNothing_of_keeps (.bind (hentry text) fun record _ => hfinish record)
  · obtain ⟨record, run₁, hcompile, hrest⟩ := Expand.bind_eq_ok h
    exact Expand.finish_tree hrest (Expand.compile_keeps hcompile)
  · have hload : Conduct.completed.Keeps (Expand.load s (Expand.items s) specifier .unknown) fun _ => True :=
      (completionLaw s).loadItems specifier .unknown
    exact Expand.leavesNothing_of_keeps (.bind hload fun record _ => hfinish record)
  · obtain ⟨record, run₁, hload, hrest⟩ := Expand.bind_eq_ok h
    exact Expand.finish_tree hrest (Expand.load_keeps hload)
  · have hkept := Conduct.keeps_kept Conduct.completed_ofExpansion (hentry text) fun _ _ _ => Expand.compile_keeps
    have hc := Conduct.completed_ofModules .runtime
    exact Expand.leavesNothing_of_keeps (.bind hkept fun record hrecord => .bind .get fun run _ =>
      Conduct.keeps_runModule hc s (Conduct.keeps_instantiate hc s _) hrecord)

end Hygiene
