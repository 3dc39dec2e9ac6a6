import Hygiene.Proofs.Eval.Step
import Hygiene.Proofs.Expand.Code

/-!
# What is kept while code is run

Transformers are called, initializers are evaluated and modules are run on the heap of the run. A `Conduct` is a
property of runs by which heap and values meet a demand, and which each step of running code keeps; calls, initializers
and modules then keep it as a whole.
-/

namespace Hygiene

variable {returns : Prop} {run : Run} {signal : Signal}

/-! ### Faults -/

/-- A signal can come out of the code that was run: the statements of the module that was started last, or an expression
or a call. -/
def ExpandFault.Confined (activities : List Activity) : ExpandFault → Prop
  | .evaluation signal => ∃ record phase earlier, activities = .started record phase :: earlier ∧
      signal.Leaves (Statement.SomeReturns (record.items.filterMap (·.statement?)))
  | fault => ∀ signal, fault.signal? = some signal → signal.Leaves False

/-- The fault can come from running code that meets the demand. -/
structure ExpandFault.OfCode (d : Demand) (activities : List Activity) (fault : ExpandFault) : Prop where
  confined : fault.Confined activities
  meets : ∀ signal, fault.signal? = some signal → signal.Meets d
  cycle : fault.cycle? = none
  limit : fault.limit? = none

namespace ExpandFault

variable {d : Demand} {activities : List Activity} {fault : ExpandFault}

theorem confined_of_signal? (h : fault.signal? = none) : fault.Confined activities := by
  cases fault with
  | evaluation signal => cases h
  | _ =>
    intro signal hsignal
    rw [h] at hsignal
    cases hsignal

/-- Without a signal nothing is asked of a fault. -/
theorem ofCode_of_signal? (h : fault.signal? = none) (cycle : fault.cycle? = none) (limit : fault.limit? = none) :
    fault.OfCode d activities :=
  ⟨confined_of_signal? h, fun _ hsignal => (Option.some_ne_none _ (hsignal.symm.trans h)).elim, cycle, limit⟩

theorem ofCode_invocation (h : signal.Meets d ∧ signal.Leaves False) (name : String) :
    (invocation name (.evaluation signal)).OfCode d activities :=
  ⟨fun _ hs => Option.some.inj hs ▸ h.2, fun _ hs => Option.some.inj hs ▸ h.1, rfl, rfl⟩

theorem ofCode_declaration (h : signal.Meets d ∧ signal.Leaves False) (name : String) :
    (declaration name (.evaluation signal)).OfCode d activities :=
  ⟨fun _ hs => Option.some.inj hs ▸ h.2, fun _ hs => Option.some.inj hs ▸ h.1, rfl, rfl⟩

end ExpandFault

/-! ### Conducts -/

/-- What is kept while code is run: each run meets the demand, and if a step fails for a fault of the code, then `Fails`
holds of the error. -/
structure Conduct where
  demand : Demand
  frames : demand.frames = none
  literals : demand.Literals
  unknown : demand.site .unknown
  Holds : Run → Prop
  Fails : ExpandError → Run → Prop
  heap {run : Run} : Holds run → run.heap.Meets demand
  values {run : Run} : Holds run → ∀ entry ∈ run.registry.values, entry.2.Meets demand
  setHeap {run : Run} {heap : Heap} : Holds run → heap.Meets demand → Holds { run with heap }
  report {run : Run} (line : String) {site : Site} : Holds run → demand.site site → Holds { run with
    log := ("console.log: " ++ line) :: run.log
    diagnostics :=
      { severity := .info, code := some traceCode, message := line, location := run.sources.locateSite site } ::
        run.diagnostics }
  fail {run : Run} {fault : ExpandFault} {location : Option Location} : Holds run → fault.OfCode demand run.activities →
    (∀ l, location = some l → ∃ site, demand.site site ∧ run.sources.locateSite site = some l) →
    Fails ⟨fault, location⟩ run

/-- That code is run which meets the demand may be taken down. -/
def Conduct.Records (c : Conduct) : Prop := ∀ {run : Run} {code : List Statement}, c.Holds run →
  c.demand.Meets (Statement.contentAll code) (Statement.lambdasAll code) (Statement.sitesAll code) →
  c.Holds { run with events := .ran code :: run.events }

/-- The statements of the module meet the demand, and so does the place at which they are run. -/
def Conduct.Runs (c : Conduct) (record : ModuleRecord) : Prop :=
  c.demand.site ⟨some record.file, ⟨0, 0⟩⟩ ∧ ∀ inner ∈ record.items.filterMap (·.statement?),
    c.demand.Meets inner.content inner.lambdas inner.sites

/-- The values in an instance of a module meet the demand. -/
def Conduct.Given (c : Conduct) (values : Instance) : Prop := ∀ field ∈ values, field.2.Meets c.demand

/-- What is kept while modules are run in a phase. -/
structure Conduct.OfModules (c : Conduct) (phase : Phase) : Prop where
  records : c.Records
  modules {run : Run} : c.Holds run → ∀ entry ∈ run.modules, c.Runs entry.2
  instances {run : Run} : c.Holds run → ∀ entry ∈ run.instances, c.Given entry.2
  track {run : Run} (activity : Activity) : c.Holds run → c.Holds { run with activities := activity :: run.activities }
  keep {run : Run} (specifier : String) {values : Instance} : c.Holds run → c.Given values →
    c.Holds { run with instances := Assoc.insert (specifier, phase) values run.instances }

namespace Conduct

open Expand (Yields)

variable {c : Conduct} {α β : Type} {Q : α → Prop} {R : β → Prop} {x : Expand α} {site : Site}
  {act : World → Evaluator → Eval α} {instantiate : ModuleRecord → Expand Instance}

/-- Started in a run of the conduct, the computation leaves one, and `Q` holds of its result, or it fails as the conduct
says. -/
def Keeps (c : Conduct) (x : Expand α) (Q : α → Prop) : Prop :=
  ∀ run, c.Holds run → Yields run x (fun a run' => c.Holds run' ∧ Q a) c.Fails

namespace Keeps

theorem pure {a : α} (h : Q a) : c.Keeps (Pure.pure a) Q := fun _ hrun => ⟨hrun, h⟩

theorem bind {f : α → Expand β} (hx : c.Keeps x Q) (hf : ∀ a, Q a → c.Keeps (f a) R) : c.Keeps (x >>= f) R :=
  fun run hrun => .bind (hx run hrun) fun a run' h => hf a h.2 run' h.1

theorem imp {Q' : α → Prop} (hx : c.Keeps x Q) (h : ∀ a, Q a → Q' a) : c.Keeps x Q' :=
  fun run hrun => (hx run hrun).imp (fun a _ ha => ⟨ha.1, h a ha.2⟩) fun _ _ he => he

/-- The result is one that the computation can have. -/
theorem mayGive (hx : c.Keeps x Q) : c.Keeps x fun a => Q a ∧ x.MayGive a := fun run hrun =>
  (hx run hrun).keep_eq.imp (fun _ run' h => ⟨h.2.1, h.2.2, run, run', h.1⟩) fun _ _ he => he

theorem ite {p : Prop} [Decidable p] {y : Expand α} (hx : p → c.Keeps x Q) (hy : ¬ p → c.Keeps y Q) :
    c.Keeps (if p then x else y) Q := by
  split
  · next h => exact hx h
  · next h => exact hy h

theorem get : c.Keeps get c.Holds := fun _ hrun => ⟨hrun, hrun⟩

theorem modifyGet {f : Run → α × Run} (h : ∀ run, c.Holds run → c.Holds (f run).2 ∧ Q (f run).1) :
    c.Keeps (modifyGet f) Q := fun run hrun => h run hrun

theorem modify {f : Run → Run} (h : ∀ run, c.Holds run → c.Holds (f run)) : c.Keeps (modify f) fun _ => True :=
  modifyGet fun run hrun => ⟨h run hrun, trivial⟩

theorem set (h : c.Holds run) : c.Keeps (set run) fun _ => True := fun _ _ => ⟨h, trivial⟩

theorem discard (hx : c.Keeps x Q) : c.Keeps (discard x) fun _ => True := by
  have hpure : c.Keeps (x >>= fun _ => Pure.pure ()) fun _ => True := .bind hx fun _ _ => .pure trivial
  exact hpure

theorem forM {list : List α} {f : α → Expand PUnit} (hf : ∀ a ∈ list, c.Keeps (f a) fun _ => True) :
    c.Keeps (list.forM f) fun _ => True := by
  induction list with
  | nil => exact .pure trivial
  | cons a list ih => exact .bind (hf a List.mem_cons_self) fun _ _ => ih fun b hb => hf b (List.mem_cons_of_mem _ hb)

theorem mapM {list : List α} {f : α → Expand β} (hf : ∀ a ∈ list, c.Keeps (f a) R) :
    c.Keeps (list.mapM f) fun bs => ∀ b ∈ bs, R b := by
  induction list with
  | nil => exact .pure nofun
  | cons a list ih =>
    rw [List.mapM_cons]
    refine .bind (hf a List.mem_cons_self) fun b hb => ?_
    refine .bind (ih fun c hc => hf c (List.mem_cons_of_mem _ hc)) fun bs hbs => ?_
    exact .pure (List.forall_mem_cons.2 ⟨hb, hbs⟩)

theorem fail {fault : ExpandFault} {site : Site} (hs : c.demand.site site)
    (h : ∀ run, c.Holds run → fault.OfCode c.demand run.activities) : c.Keeps (Expand.fail fault site) Q :=
  fun run hrun => .fail (c.fail hrun (h run hrun) fun _ hl => ⟨site, hs, hl⟩)

theorem exhausted : c.Keeps Expand.exhausted Q :=
  fun _ hrun => c.fail hrun (ExpandFault.ofCode_of_signal? rfl rfl rfl) nofun

end Keeps

/-! ### Code -/

/-- A fault without a signal. -/
theorem keeps_fail {fault : ExpandFault} (hs : c.demand.site site) (h : fault.signal? = none)
    (cycle : fault.cycle? = none) (limit : fault.limit? = none) : c.Keeps (Expand.fail fault site) Q :=
  .fail hs fun _ _ => ExpandFault.ofCode_of_signal? h cycle limit

theorem keeps_newEnvironment : c.Keeps Expand.newEnvironment fun _ => True :=
  .modifyGet fun _ h => ⟨c.setHeap h (c.heap h).newEnvironment, trivial⟩

theorem keeps_addCursor {cursor : Cursor} (hname : ∀ p ∈ Token.pieces cursor.name, c.demand.piece p)
    (htokens : ∀ p ∈ Token.piecesAll cursor.tokens, c.demand.piece p) : c.Keeps (Expand.addCursor cursor) fun _ => True :=
  .modifyGet fun _ h => ⟨c.setHeap h ((c.heap h).addCursor hname htokens), trivial⟩

/-- What code writes is reported. -/
theorem holds_finished (h : c.Holds run) (hs : c.demand.site site) {m : Machine}
    (hm : m.heap.Meets c.demand) : c.Holds (Expand.finished run site m) := by
  have go : ∀ (lines : List String) (run : Run), c.Holds run → c.Holds (finalRun (Expand.recordTrace lines site run)) := by
    intro lines
    induction lines with
    | nil => exact fun _ h => h
    | cons line lines ih => exact fun run h => ih _ (c.report line h hs)
  exact go _ _ (c.setHeap h hm)

/-- Code that meets the demand gives what meets it, and nothing is done with modules meanwhile. -/
theorem yields_evaluate (s : Setup) (env : Environment) (hs : c.demand.site site)
    (hact : ∀ w r, r.Keeps w c.demand r → Eval.Keeps w c.demand 0 returns (fun _ => Q) (act w r) (act w r))
    (hrun : c.Holds run) : Yields run (Expand.evaluate s env site act) (fun result run' => c.Holds run' ∧
      run'.activities = run.activities ∧ match result with
        | .ok a => Q a
        | .error signal => signal.Meets c.demand ∧ signal.Leaves returns) c.Fails := by
  have hkeeps := evaluator_keeps c.literals (w := run.world s) (c.values hrun) (Nat.le_refl s.limit)
  have hcode := hact (run.world s) _ hkeeps
  have hmachine : Machine.Meets c.demand { heap := run.heap, env } := ⟨c.heap hrun, by simp [c.frames]⟩
  have hactivities : ∀ m, (Expand.finished run site m).activities = run.activities := fun m => by
    obtain ⟨lines, diagnostics, heq⟩ := Expand.finished_eq run site m
    rw [heq]
  unfold Yields
  rw [Expand.evaluate_eq]
  cases heq : act (run.world s) (evaluator (run.world s) s.limit) { heap := run.heap, env } with
  | ok value m =>
    obtain ⟨hpasses, _, _, hvalue⟩ := hcode.ok hmachine (Nat.zero_le _) heq
    exact ⟨c.holds_finished hrun hs hpasses.heap, hactivities m, hvalue⟩
  | error signal m =>
    obtain ⟨⟨_, hpasses, _⟩, hsignal⟩ := hcode.error hmachine (Nat.zero_le _) heq
    rw [Signal.meets_among c.frames] at hsignal
    have hrun' := c.holds_finished hrun hs hpasses.heap
    cases signal with
    | exhausted => exact c.fail hrun' (ExpandFault.ofCode_of_signal? rfl rfl rfl) nofun
    | _ => exact ⟨hrun', hactivities m, hsignal⟩

theorem keeps_evaluate (s : Setup) (env : Environment) (hs : c.demand.site site)
    (hact : ∀ w r, r.Keeps w c.demand r → Eval.Keeps w c.demand 0 returns (fun _ => Q) (act w r) (act w r)) :
    c.Keeps (Expand.evaluate s env site act) fun
      | .ok a => Q a
      | .error signal => signal.Meets c.demand ∧ signal.Leaves returns :=
  fun _ hrun => (c.yields_evaluate s env hs hact hrun).imp (fun _ _ h => ⟨h.1, h.2.2⟩) fun _ _ he => he

/-- A transformer gives what it was handed, what its templates hold, and literals. -/
theorem keeps_callTransformer (s : Setup) {t : Transformer} (ht : t.value.Meets c.demand) {name : Token}
    (hname : ∀ p ∈ Token.pieces name, c.demand.piece p) (hs : c.demand.site name.site) {rest : List Token}
    (hrest : ∀ p ∈ Token.piecesAll rest, c.demand.piece p) :
    c.Keeps (Expand.callTransformer s t name rest) fun r => ∀ p ∈ Token.piecesAll r.1, c.demand.piece p := by
  refine .bind (keeps_addCursor hname hrest) fun cursor _ => .bind keeps_newEnvironment fun env _ => ?_
  have hact (w : World) (r : Evaluator) (hr : r.Keeps w c.demand r) :
      Eval.Keeps w c.demand 0 False (fun _ v => v.Meets c.demand) (r.call w t.value [.context cursor name] name.site)
        (r.call w t.value [.context cursor name] name.site) := by
    refine (Evaluator.keeps_call hr ((Value.meets_among c.frames).2 ht) (fun v hv => ?_) hs).imp fun _ _ =>
      (Value.meets_among c.frames).1
    rw [List.mem_singleton.1 hv]
    exact Value.meets_context.2 hname
  refine .bind (c.keeps_evaluate s env hs hact) fun result hresult => ?_
  cases result with
  | error signal => exact .fail hs fun _ _ => ExpandFault.ofCode_invocation hresult _
  | ok value =>
    dsimp only
    split
    · next houtput =>
      have hfault := Expand.signal?_of_outputTokens houtput t.name
      exact keeps_fail hs hfault rfl rfl
    · next houtput => exact .bind .get fun _ _ => .pure (good_outputTokens hresult.1 houtput)

theorem keeps_transformerValue (hc : c.Records) (s : Setup) (name : String) (hs : c.demand.site site) {init : Expression}
    (h : c.demand.Meets init.content init.lambdas init.sites) :
    c.Keeps (Expand.transformerValue s name site init) (·.Meets c.demand) := by
  have hsite : c.demand.site init.site := h.2.2 _ init.site_mem_sites
  have hran : ∀ inner ∈ [Statement.expression init init.site], c.demand.Meets inner.content inner.lambdas inner.sites := by
    simpa [Statement.content, Statement.lambdas, Statement.sites] using ⟨hsite, h⟩
  refine .bind (.modify fun _ hrun => hc hrun (Demand.meets_statements.2 hran)) fun _ _ => ?_
  refine .bind keeps_newEnvironment fun env _ => ?_
  have hact (w : World) (r : Evaluator) (hr : r.Keeps w c.demand r) : Eval.Keeps w c.demand 0 False _ _ _ :=
    (hr.expression init h 0).imp fun _ _ => (Value.meets_among c.frames).1
  refine .bind (c.keeps_evaluate s env hsite hact) fun result hresult => ?_
  cases result with
  | error signal => exact .fail hs fun _ _ => ExpandFault.ofCode_declaration hresult _
  | ok value => exact .ite (fun _ => .pure hresult) fun _ => keeps_fail hs rfl rfl rfl

/-! ### Modules -/

variable {phase : Phase} (hc : c.OfModules phase)
include hc

theorem keeps_track (activity : Activity) : c.Keeps (Expand.track activity) fun _ => True :=
  .modify fun _ h => hc.track activity h

theorem keeps_defineImports
    (hi : ∀ record, c.Runs record → c.Keeps (instantiate record) c.Given) (env : Environment) (imported : Import) :
    c.Keeps (Expand.defineImports instantiate env imported) fun _ => True := by
  refine .bind .get fun run hrun => ?_
  split
  · exact .pure trivial
  · next record hrecord =>
    obtain ⟨key, hmem⟩ := Assoc.exists_mem_of_get? hrecord
    refine .bind (hi record (hc.modules hrun _ hmem)) fun values hvalues => .modify fun run' hrun' => ?_
    exact c.setHeap hrun' (Heap.Meets.defineImports c.frames run'.store env hvalues _ (c.heap hrun'))

/-- Running a module keeps what instantiating its imports keeps. -/
theorem keeps_runModule (s : Setup)
    (hi : ∀ record, c.Runs record → c.Keeps (instantiate record) c.Given) {record : ModuleRecord}
    (hrecord : c.Runs record) : c.Keeps (Expand.runModule s phase instantiate record) fun _ => True := by
  refine .bind (keeps_track hc _) fun _ _ => .bind keeps_newEnvironment fun env _ => ?_
  refine .bind (.forM fun imported _ => keeps_defineImports hc hi env imported) fun _ _ run hrun => ?_
  have hcode := Demand.meets_statements.2 hrecord.2
  let Started (run' : Run) : Prop := c.Holds run' ∧ run'.activities = .started record phase :: run.activities
  refine .bind (P := fun _ => Started) ⟨hc.track _ hrun, rfl⟩ ?_
  rintro _ run₀ ⟨hrun₀, hstarted⟩
  refine .bind (P := fun _ => Started) ⟨hc.records hrun₀ hcode, hstarted⟩ ?_
  rintro _ run₁ ⟨hrun₁, hstarted⟩
  refine .bind (c.yields_evaluate s env hrecord.1 (fun w r hr => Evaluator.keeps_statements hr hcode) hrun₁) ?_
  rintro result run₂ ⟨hrun₂, hactivities, hresult⟩
  cases result with
  | ok _ => exact ⟨hc.track _ hrun₂, trivial⟩
  | error signal =>
    obtain ⟨hmeets, hleaves⟩ := hresult
    have hsite : c.demand.site signal.site := by
      cases signal with
      | fault f site => exact hmeets.1
      | _ => exact c.unknown
    refine .fail (c.fail hrun₂ ⟨⟨record, phase, _, hactivities.trans hstarted, hleaves⟩, ?_, rfl, rfl⟩ fun _ hl => ⟨_, hsite, hl⟩)
    rintro _ ⟨⟩
    exact hmeets

theorem keeps_instantiate (s : Setup) (limit : Nat) (record : ModuleRecord) (hrecord : c.Runs record) :
    c.Keeps (Expand.instantiate s phase limit record) c.Given := by
  induction limit generalizing record with
  | zero => exact .exhausted
  | succ limit ih =>
    refine .bind .get fun run hrun => ?_
    dsimp only
    split
    · next values hvalues =>
      obtain ⟨key, hmem⟩ := Assoc.exists_mem_of_get? hvalues
      exact .bind (keeps_track hc _) fun _ _ => .pure (hc.instances hrun _ hmem)
    · refine .bind (keeps_runModule hc s ih hrecord) fun env _ => .bind .get fun run' hrun' => ?_
      have hvalues : c.Given (record.runtimeExports.map fun entry => (entry.1, Expand.exportValue run' env entry.2)) :=
        List.forall_mem_map.2 fun entry _ => Expand.meets_exportValue c.frames (c.heap hrun') (c.values hrun') env entry.2
      refine .bind (.set (hc.keep record.specifier hrun' hvalues)) fun _ _ => ?_
      exact .bind (keeps_track hc _) fun _ _ => .pure hvalues

end Conduct

/-! ### What code changes -/

/-- Nothing is asked of the code, and it changes the run only as code does. -/
def Conduct.executes (phase : Option Phase) (run : Run) : Conduct where
  demand := .any
  frames := Demand.any_frames
  literals _ _ _ := trivial
  unknown := trivial
  Holds := run.Executes phase
  Fails e run' := run.Executes phase run' ∧ e.fault.cycle? = none ∧ e.fault.limit? = none
  heap _ := Heap.meets_any _
  values _ _ _ := Value.meets_any _
  setHeap h _ := h.trans (.heap _ _)
  report line _ h _ := h.trans ⟨rfl, ⟨[line], rfl⟩, fun _ he => Or.inl he, fun _ => ⟨rfl, rfl⟩, [], rfl, nofun⟩
  fail h hf _ := ⟨h, hf.cycle, hf.limit⟩

theorem Conduct.executes_records (phase : Option Phase) (run : Run) : (executes phase run).Records :=
  fun h _ => h.trans ⟨rfl, ⟨[], rfl⟩, fun _ he => Or.inl he, fun _ => ⟨rfl, rfl⟩, [_], rfl, by simp [Event.isRan]⟩

theorem Conduct.executes_ofModules (phase : Phase) (run : Run) : (executes (some phase) run).OfModules phase where
  records := executes_records _ run
  modules _ _ _ := ⟨trivial, fun _ _ => Demand.any_meets _ _ _⟩
  instances _ _ _ _ _ := Value.meets_any _
  track _ h := h.trans ⟨rfl, ⟨[], rfl⟩, fun _ he => Or.inl he, nofun, [], rfl, nofun⟩
  keep _ _ h _ := by
    refine h.trans ⟨rfl, ⟨[], rfl⟩, fun entry he => ?_, nofun, [], rfl, nofun⟩
    rcases Assoc.eq_or_mem_of_mem_insert he with heq | he
    · exact Or.inr (by rw [heq])
    · exact Or.inl he

namespace Expand

variable {α : Type} {phase : Option Phase}

theorem executes_of_keeps {x : Expand α} {Q : Run → α → Prop} (h : ∀ run, (Conduct.executes phase run).Keeps x (Q run)) :
    Executes phase x := fun run => (h run run (.refl run)).imp (fun _ _ h => h.1) fun _ _ he => he

theorem executes_statements (s : Setup) (env : Environment) (site : Site) (list : List Statement) :
    Executes phase (evaluate s env site fun w r => r.statements w list) :=
  executes_of_keeps fun _ => Conduct.keeps_evaluate s env trivial fun _ _ hr => Evaluator.keeps_statements hr (Demand.any_meets _ _ _)

theorem executes_instantiate (s : Setup) (phase : Phase) (limit : Nat) (record : ModuleRecord) :
    Executes (some phase) (instantiate s phase limit record) :=
  executes_of_keeps fun run =>
    Conduct.keeps_instantiate (Conduct.executes_ofModules phase run) s limit record ⟨trivial, fun _ _ => Demand.any_meets _ _ _⟩

theorem executes_runModule (s : Setup) (phase : Phase) (limit : Nat) (record : ModuleRecord) :
    Executes (some phase) (runModule s phase (instantiate s phase limit) record) :=
  executes_of_keeps fun run => have hc := Conduct.executes_ofModules phase run
    Conduct.keeps_runModule hc s (Conduct.keeps_instantiate hc s limit) ⟨trivial, fun _ _ => Demand.any_meets _ _ _⟩

theorem executes_callTransformer (s : Setup) (t : Transformer) (name : Token) (rest : List Token) :
    Executes none (callTransformer s t name rest) :=
  executes_of_keeps fun _ => Conduct.keeps_callTransformer s (Value.meets_any _) (fun _ _ => trivial) trivial fun _ _ => trivial

theorem executes_transformerValue (s : Setup) (name : String) (site : Site) (init : Expression) :
    Executes none (transformerValue s name site init) :=
  executes_of_keeps fun run => Conduct.keeps_transformerValue (Conduct.executes_records _ run) s name trivial (Demand.any_meets _ _ _)

end Expand

end Hygiene
