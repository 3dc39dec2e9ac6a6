import Hygiene.Proofs.Expand.ModuleLaw

/-!
# Conducts of whole expansions

What is kept where code is run is kept by everything that expands modules, if it asks nothing of tokens and sites.
-/

namespace Hygiene

open Expand (Inert Noted Yields)

/-- A conduct that asks nothing of tokens and sites: what completed modules hold meets the demand, and what meets the
demand may be kept. -/
structure Conduct.OfExpansion (c : Conduct) : Prop where
  piece (p : Piece) : c.demand.piece p
  site (s : Site) : c.demand.site s
  modules (phase : Phase) : c.OfModules phase
  transformers {run : Run} : c.Holds run → ∀ entry ∈ run.registry.transformers, entry.2.value.Meets c.demand
  completed {init : Expression} : Completed init.lambdas → c.demand.Meets init.content init.lambdas init.sites
  same {run run' : Run} : c.Holds run → run'.heap = run.heap → run'.registry = run.registry →
    run'.instances = run.instances → run'.modules = run.modules →
      (∀ code, .ran code ∈ run'.events → .ran code ∈ run.events) → c.Holds run'
  define {run : Run} (id : BindingId) {t : Transformer} : c.Holds run → t.value.Meets c.demand →
    c.Holds { run with registry := run.registry.define id t }
  defineValue {run : Run} (id : BindingId) {value : Value} : c.Holds run → value.Meets c.demand →
    c.Holds { run with registry := run.registry.defineValue id value }
  keep {run : Run} (specifier : String) {record : ModuleRecord} : c.Holds run → Completed record.lambdas →
    c.Holds { run with modules := Assoc.insert specifier record run.modules }
  fails {run : Run} {e : ExpandError} : c.Holds run → e.fault.signal? = none → c.Fails e run
  unloads {run : Run} {e : ExpandError} (loading : List String) : c.Fails e run → c.Fails e { run with loading }

namespace Conduct

variable {c : Conduct} (hc : c.OfExpansion) {α : Type} {x : Expand α} {Q : α → Prop}
include hc

theorem holds_beside {run run' : Run} (h : c.Holds run) (hb : run.Beside run') : c.Holds run' := by
  obtain ⟨new, hevents, hquiet⟩ := hb.events
  refine hc.same h ?_ ?_ ?_ ?_ fun code hcode => ?_
  case refine_5 =>
    rw [hevents] at hcode
    rcases List.mem_append.1 hcode with hcode | hcode
    · cases (hquiet _ hcode).2
    · exact hcode
  all_goals rw [hb.same]

theorem keeps_inert (hx : Inert x) : c.Keeps x fun _ => True := fun run hrun =>
  (hx run).imp (fun _ _ hb => ⟨holds_beside hc hrun hb, trivial⟩)
    fun _ _ h => hc.fails (holds_beside hc hrun h.1) (ExpandFault.signal?_of_isPlain h.2)

theorem keeps_noted (hx : Noted x) : c.Keeps x fun _ => True := by
  intro run hrun
  obtain ⟨a, run', heq, hsame, _⟩ := hx run
  refine .of_ok heq ⟨?_, trivial⟩
  rw [hsame]
  exact hc.same hrun rfl rfl rfl rfl fun _ h => h

theorem keeps_whileLoading (hx : c.Keeps x Q) (specifier : String) : c.Keeps (Expand.whileLoading specifier x) Q := by
  have hsame {run : Run} (loading : List String) (h : c.Holds run) : c.Holds { run with loading } :=
    hc.same h rfl rfl rfl rfl fun _ h => h
  exact fun run hrun => .whileLoading ((hx _ (hsame _ hrun)).imp (fun _ _ h => ⟨hsame _ h.1, h.2⟩) fun _ _ => hc.unloads _)

theorem keeps_settle (s : Setup) (home : Home) (binding : Token) (early : Option BindingId) {init : Expression}
    (hinit : Completed init.lambdas) : c.Keeps (Expand.settle s home binding early init) fun _ => True := by
  refine .bind (keeps_transformerValue (hc.modules .runtime).records s _ (hc.site _) (hc.completed hinit)) fun value hvalue => ?_
  cases early with
  | some id => exact .modify fun _ h => hc.define _ h hvalue
  | none => exact .bind (keeps_inert hc (Expand.inert_bindHidden binding)) fun _ _ => .modify fun _ h => hc.define _ h hvalue

theorem keeps_bindImport (s : Setup) {record : ModuleRecord} (hrecord : c.Runs record) (imported : Import)
    (wanted : String × Token × Site) : c.Keeps (Expand.bindImport s record imported wanted) fun _ => True := by
  have hbind (ident : Token) (kind : BindingKind) (rename : Bool) := keeps_inert hc (Expand.inert_bind ident kind rename)
  obtain ⟨name, binding, site⟩ := wanted
  unfold Expand.bindImport
  dsimp only
  split
  · exact keeps_fail (hc.site _) rfl rfl rfl
  · refine .bind (hbind _ _ _) fun id _ => .bind .get fun run hrun => ?_
    split
    · next ht =>
      obtain ⟨key, hmem⟩ := Assoc.exists_mem_of_get? ht
      exact .modify fun _ h => hc.define id h (hc.transformers hrun _ hmem)
    · exact .pure trivial
  · refine .ite (fun _ => ?_) fun _ => (hbind _ _ _).discard
    refine .bind .get fun run _ => .bind (keeps_instantiate (hc.modules _) s _ record hrecord) fun values hvalues => ?_
    refine .bind (hbind _ _ _) fun id _ => .modify fun _ h => hc.defineValue id h ?_
    exact Value.meets_getD fun v hv => Value.meets_of_get? hvalues hv

/-- A module that is kept can be run. -/
theorem keeps_kept {x : Expand ModuleRecord} (hx : c.Keeps x fun _ => True) {specifier : String}
    (keeps : ∀ run record run', x run = .ok record run' → (specifier, record) ∈ run'.modules) : c.Keeps x c.Runs := by
  refine fun run hrun => (hx run hrun).keep_eq.imp ?_ fun _ _ he => he
  rintro record run' ⟨heq, hrun', -⟩
  exact ⟨hrun', (hc.modules .runtime).modules hrun' _ (keeps run record run' heq)⟩

/-- A registered transformer meets the demand when it is called. -/
theorem keeps_invokeHere (s : Setup) (stream : Stream) : c.Keeps (Parse.invokeHere s stream) fun _ => True := by
  refine fun run hrun => Parse.yields_invokeHere s ⟨hrun, trivial⟩ (fun _ _ => hc.fails hrun rfl) fun name id t ht => ?_
  have hopening : c.Holds (run.opening (run.nextCall t stream)) :=
    hc.same hrun rfl rfl rfl rfl fun code h => by simpa [Run.opening] using h
  refine (keeps_callTransformer s (hc.transformers hrun _ ht) (fun _ _ => hc.piece _) (hc.site _) (fun _ _ => hc.piece _) _
    hopening).imp (fun r run' h => ⟨?_, trivial⟩) fun _ _ he => he
  exact hc.same h.1 rfl rfl rfl rfl fun code h => by simpa [Run.closing] using h

end Conduct

/-- Every computation of an expansion keeps the conduct. -/
def Conduct.law {c : Conduct} (hc : c.OfExpansion) (s : Setup) : ModuleLaw s s where
  Rel x _ := c.Keeps x fun _ => True
  bind_rel hx hf := .bind hx.mayGive fun a ha => hf a (Or.inl ha.2)
  inert hx := keeps_inert hc hx
  exhausted := .exhausted
  invokeHere := keeps_invokeHere hc s
  declared {home} _ _ binding recursive _ _ hx hcompleted := Parse.declared_of_settle s s
    (fun x _ => c.Keeps x fun _ => True) (fun hx hf => .bind hx.mayGive fun a ha => hf a (Or.inl ha.2)) (keeps_inert hc)
    (fun early _ hinit => keeps_settle hc s home binding early hinit) recursive hx hcompleted
  covers _ := trivial
  akin := .refl s
  noted hx := keeps_noted hc hx
  circular _ _ _ hrun := hc.fails hrun rfl
  whileLoading specifier hx := keeps_whileLoading hc hx specifier
  keep hrecord := .modify fun _ h => hc.same (hc.keep _ h hrecord) rfl rfl rfl rfl fun _ h => h
  processImport imported _ _ hp hkeeps := .bind (keeps_noted hc (Expand.noted_request _)) fun _ _ =>
    .bind (keeps_kept hc (hp _ _) (hkeeps _ _)) fun _ hrecord =>
      .forM fun wanted _ => keeps_bindImport hc s hrecord imported wanted

end Hygiene
