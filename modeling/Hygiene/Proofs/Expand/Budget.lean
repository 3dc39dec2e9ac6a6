import Hygiene.Proofs.Expand.ChangeLaw
import Hygiene.Proofs.Parallel.Output

/-!
# The account of invocations

The calls, the count and the origins agree at every point of a run, apart from a call that is still open. A run with a
budget is the same as the run without one up to the call that the budget does not allow.
-/

namespace Hygiene

open List

variable {run run' : Run}

namespace History

/-- The calls of transformers, the last one first. -/
def calls (h : List Event) : List Call := h.filterMap fun
  | .called call => some call
  | _ => none

/-- The calls that gave syntax, with what they gave, the last one first. -/
def invocations (h : List Event) : List Invocation := h.filterMap fun
  | .invoked inv => some inv
  | _ => none

/-- Every call has given syntax before the next one was made, apart from a call that is still open, and the count of
invocations was right whenever one was made. -/
inductive Paired : Option Call → List Event → Prop where
  | nil : Paired none []
  | other {o : Option Call} {e : Event} {h : List Event} (quiet : e.isCall = false) (before : Paired o h) :
      Paired o (e :: h)
  | called {call : Call} {h : List Event} (before : Paired none h) (count : call.earlier = (invocations h).length) :
      Paired (some call) (.called call :: h)
  | invoked {inv : Invocation} {h : List Event} (before : Paired (some inv.call) h) : Paired none (.invoked inv :: h)

theorem calls_append (new h : List Event) : calls (new ++ h) = calls new ++ calls h := filterMap_append

theorem invocations_append (new h : List Event) : invocations (new ++ h) = invocations new ++ invocations h :=
  filterMap_append

variable {o : Option Call} {e : Event} {new h h' : List Event}

theorem calls_cons_quiet (he : e.isCall = false) : calls (e :: h) = calls h := by
  cases e <;> first | rfl | cases he

theorem invocations_cons_quiet (he : e.isCall = false) : invocations (e :: h) = invocations h := by
  cases e <;> first | rfl | cases he

theorem calls_quiet (hnew : ∀ e ∈ new, e.isCall = false) : calls (new ++ h) = calls h := by
  induction new with
  | nil => rfl
  | cons e new ih =>
    rw [cons_append, calls_cons_quiet (hnew e mem_cons_self)]
    exact ih fun e he => hnew e (mem_cons_of_mem _ he)

theorem invocations_quiet (hnew : ∀ e ∈ new, e.isCall = false) : invocations (new ++ h) = invocations h := by
  induction new with
  | nil => rfl
  | cons e new ih =>
    rw [cons_append, invocations_cons_quiet (hnew e mem_cons_self)]
    exact ih fun e he => hnew e (mem_cons_of_mem _ he)

theorem Paired.append_quiet (hh : Paired o h) (hnew : ∀ e ∈ new, e.isCall = false) : Paired o (new ++ h) := by
  induction new with
  | nil => exact hh
  | cons e new ih =>
    exact .other (hnew e mem_cons_self) (ih fun e he => hnew e (mem_cons_of_mem _ he))

/-- The calls are those of the invocations, and the open one. -/
theorem Paired.calls_eq (hh : Paired o h) : calls h = o.toList ++ (invocations h).map (·.call) := by
  induction hh with
  | nil => rfl
  | other quiet _ ih => rw [calls_cons_quiet quiet, invocations_cons_quiet quiet, ih]
  | @called call h _ _ ih => exact congrArg (call :: ·) ih
  | invoked _ ih => exact ih

/-- The calls have been paired at every point of the history. -/
theorem Paired.suffix (hh : Paired o h) (hsuffix : h' <:+ h) : ∃ o', Paired o' h' := by
  induction hh with
  | nil =>
    rw [suffix_nil.1 hsuffix]
    exact ⟨none, .nil⟩
  | other quiet before ih =>
    rcases suffix_cons_iff.1 hsuffix with rfl | hsuffix
    · exact ⟨_, .other quiet before⟩
    · exact ih hsuffix
  | called before count ih =>
    rcases suffix_cons_iff.1 hsuffix with rfl | hsuffix
    · exact ⟨_, .called before count⟩
    · exact ih hsuffix
  | invoked before ih =>
    rcases suffix_cons_iff.1 hsuffix with rfl | hsuffix
    · exact ⟨_, .invoked before⟩
    · exact ih hsuffix

theorem length_calls_le (hsuffix : h' <:+ h) : (calls h').length ≤ (calls h).length := by
  obtain ⟨new, rfl⟩ := hsuffix
  rw [calls_append, List.length_append]
  exact Nat.le_add_left _ _

end History

open History

/-- The calls are paired with what they gave, the invocations are counted, the origins are theirs, and there is a
transformer if one was called. -/
structure Run.Accounted (o : Option Call) (run : Run) : Prop where
  paired : Paired o run.events
  expansions : run.expansions = (invocations run.events).length
  origins : run.origins.map (·.name) = (invocations run.events).map (·.call.transformer.name)
  declared : calls run.events ≠ [] → run.registry.transformers ≠ []

/-- The account of a run in which no call is open. -/
abbrev Run.Balanced (run : Run) : Prop := run.Accounted none

theorem Run.balanced_empty : Run.Balanced {} := ⟨.nil, rfl, rfl, fun h => (h rfl).elim⟩

variable {o : Option Call}

/-- There are as many origins as invocations. -/
theorem Run.Accounted.length_origins (h : run.Accounted o) : run.expansions = run.origins.length := by
  have hlength := congrArg List.length h.origins
  rw [length_map, length_map] at hlength
  rw [h.expansions, hlength]

/-- There are as many calls as invocations, and the open one. -/
theorem Run.Accounted.length_calls (h : run.Accounted o) :
    (calls run.events).length = o.toList.length + run.expansions := by
  rw [h.expansions, h.paired.calls_eq, List.length_append, length_map]

theorem Run.Balanced.length_calls (h : run.Balanced) : (calls run.events).length = run.expansions := by
  rw [Run.Accounted.length_calls h]
  exact Nat.zero_add _

/-- The modules that are being expanded do not matter. -/
theorem Run.Accounted.loading {run : Run} (h : run.Accounted o) (loading : List String) :
    Run.Accounted o { run with loading } := ⟨h.paired, h.expansions, h.origins, h.declared⟩

/-! ### What invokes no transformer -/

/-- From the first run to the second no transformer was called. -/
structure Run.Calm (run run' : Run) : Prop where
  expansions : run'.expansions = run.expansions
  origins : run'.origins = run.origins
  events : ∃ new, run'.events = new ++ run.events ∧ ∀ e ∈ new, e.isCall = false
  transformers : run.registry.transformers ≠ [] → run'.registry.transformers ≠ []

theorem Run.Calm.accounted (h : run.Calm run') (hrun : run.Accounted o) : run'.Accounted o := by
  obtain ⟨new, hnew, hquiet⟩ := h.events
  constructor
  · rw [hnew]
    exact hrun.paired.append_quiet hquiet
  · rw [hnew, h.expansions, invocations_quiet hquiet]
    exact hrun.expansions
  · rw [hnew, h.origins, invocations_quiet hquiet]
    exact hrun.origins
  · rw [hnew, calls_quiet hquiet]
    exact fun hcalls => h.transformers (hrun.declared hcalls)

theorem Run.Calm.calls_eq (h : run.Calm run') : calls run'.events = calls run.events := by
  obtain ⟨new, hnew, hquiet⟩ := h.events
  rw [hnew, calls_quiet hquiet]

theorem Run.Calm.refl (run : Run) : run.Calm run := ⟨rfl, rfl, ⟨[], rfl, by simp⟩, id⟩

theorem Run.Calm.trans {run'' : Run} (h : run.Calm run') (h' : run'.Calm run'') : run.Calm run'' := by
  obtain ⟨new, hnew, hquiet⟩ := h.events
  obtain ⟨new', hnew', hquiet'⟩ := h'.events
  refine ⟨h'.expansions.trans h.expansions, h'.origins.trans h.origins, ⟨new' ++ new, by rw [hnew', hnew, append_assoc], ?_⟩, ?_⟩
  · intro e he
    rcases mem_append.1 he with he | he
    · exact hquiet' e he
    · exact hquiet e he
  · exact fun ht => h'.transformers (h.transformers ht)

theorem Run.Calm.suffix (h : run.Calm run') : run.events <:+ run'.events := by
  obtain ⟨new, hnew, -⟩ := h.events
  exact ⟨new, hnew.symm⟩

/-- Inserting leaves something in a list. -/
theorem Assoc.insert_ne_nil {κ α : Type} [BEq κ] (key : κ) (value : α) (entries : List (κ × α)) :
    Assoc.insert key value entries ≠ [] := by
  cases entries with
  | nil => exact cons_ne_nil _ _
  | cons first rest =>
    rw [Assoc.insert]
    split <;> exact cons_ne_nil _ _

namespace Change

/-- The change that invokes no transformer, and does not end for want of invocations. -/
abbrev calm : Change where
  Rel := Run.Calm
  Fault fault := fault.limit? = none
  refl := .refl
  trans := .trans

theorem calm_inert : calm.Covers .inert where
  rel h := by
    obtain ⟨new, hnew, hquiet⟩ := h.events
    refine ⟨by rw [h.same], by rw [h.same], ⟨new, hnew, fun e he => (hquiet e he).1⟩, ?_⟩
    rw [h.same]
    exact id
  fault := ExpandFault.limit?_of_isPlain

theorem calm_executes (phase : Option Phase) : calm.Covers (.executes phase) where
  rel h := by
    obtain ⟨new, hnew, hran⟩ := h.events
    have hquiet : ∀ e ∈ new, e.isCall = false := by
      intro e he
      have hisRan := hran e he
      cases e <;> first | rfl | cases hisRan
    refine ⟨by rw [h.same], by rw [h.same], ⟨new, hnew, hquiet⟩, ?_⟩
    rw [h.same]
    exact id
  fault h := h.2

theorem calm_notes : calm.Notes := fun _ _ _ _ _ _ => ⟨rfl, rfl, ⟨[], rfl, by simp⟩, id⟩

theorem calm_defines {P : Run → Transformer → Prop} : calm.Defines P :=
  fun _ _ _ _ => ⟨rfl, rfl, ⟨[], rfl, by simp⟩, fun _ => Assoc.insert_ne_nil _ _ _⟩

end Change

namespace Expand

variable {α : Type} {x : Expand α}

/-- The computation invokes no transformer, and does not end for want of invocations. -/
def Calm (x : Expand α) : Prop := Makes .calm x

theorem Calm.inert (hx : Inert x) : Calm x := .mono Change.calm_inert hx

theorem Calm.noted (hx : Noted x) : Calm x := Makes.noted Change.calm_notes hx

theorem Calm.executes {phase : Option Phase} (hx : Executes phase x) : Calm x :=
  .mono (Change.calm_executes phase) hx

theorem calm_keep (specifier : String) (record : ModuleRecord) : Calm (keep specifier record) :=
  .modify fun _ => ⟨rfl, rfl, ⟨[], rfl, by simp⟩, id⟩

end Expand

/-! ### With a budget and without one -/

/-- The setup with another budget of invocations. -/
def Setup.withBudget (s : Setup) (budget : Option Nat) : Setup :=
  { s with config := { s.config with maxExpansions := budget } }

/-- The run has used up a budget of `n` invocations, and its error is reported at an identifier that refers to a
transformer. -/
structure Run.Stopped (n : Nat) (e : ExpandError) (run : Run) : Prop where
  fault : e.fault = .expansionLimit n
  balanced : run.Balanced
  expansions : run.expansions = n
  next : ∃ name t, run.registry.lookup run.store name = some t ∧ e.location = run.sources.locateSite name.site

/-- How a computation ends with a budget of `n` invocations, and without one. -/
structure Spends {α : Type} (n : Nat) (run : Run) (result free : EStateM.Result ExpandError Run α) : Prop where
  /-- Without a budget the run is balanced after a success and accounted for after an error. -/
  ok : ∀ a run', free = .ok a run' → run'.Balanced
  error : ∀ e run', free = .error e run' → (∃ o, run'.Accounted o) ∧ e.fault.limit? = none
  grows : run.events <:+ (finalRun free).events
  /-- With a budget it ends in the same way, unless more calls are made without it. -/
  same_or_stopped : run.expansions ≤ n →
    result = free ∧ (calls (finalRun free).events).length ≤ n ∨
    n < (calls (finalRun free).events).length ∧ ∃ e run', result = .error e run' ∧ run'.Stopped n e

namespace Expand

variable {α β : Type} {n : Nat} {x x' : Expand α} {f f' : α → Expand β}

/-- A balanced run is taken to the ends of the two computations as `Spends` says. -/
def Spending (n : Nat) (x x' : Expand α) : Prop := ∀ run : Run, run.Balanced → Spends n run (x run) (x' run)

theorem Calm.spending (hx : Calm x) : Spending n x x := by
  intro run hrun
  cases heq : x run with
  | ok a run' =>
    have h := (hx run).ok heq
    have hbalanced := h.accounted hrun
    refine ⟨?_, (fun _ _ h => by cases h), h.suffix, fun hn => Or.inl ⟨rfl, ?_⟩⟩
    · rintro _ _ ⟨⟩
      exact hbalanced
    · exact (congrArg List.length h.calls_eq).trans hrun.length_calls ▸ hn
  | error e run' =>
    have h := (hx run).error heq
    have hbalanced := h.1.accounted hrun
    refine ⟨(fun _ _ h => by cases h), ?_, h.1.suffix, fun hn => Or.inl ⟨rfl, ?_⟩⟩
    · rintro _ _ ⟨⟩
      exact ⟨⟨none, hbalanced⟩, h.2⟩
    · exact (congrArg List.length h.1.calls_eq).trans hrun.length_calls ▸ hn

/-- A computation spends as its parts do. -/
theorem Spending.bind (hx : Spending n x x') (hf : ∀ a, x'.MayGive a → Spending n (f a) (f' a)) :
    Spending n (x >>= f) (x' >>= f') := by
  intro run hrun
  have hfirst := hx run hrun
  simp only [Bind.bind, EStateM.bind]
  cases hfree : x' run with
  | error e run' =>
    rw [hfree] at hfirst
    refine ⟨(fun _ _ h => by cases h), ?_, hfirst.grows, fun hn => ?_⟩
    · rintro _ _ ⟨⟩
      exact hfirst.error _ _ rfl
    · rcases hfirst.same_or_stopped hn with ⟨heq, hcalls⟩ | ⟨hcalls, e, run', heq, hstopped⟩
      · rw [heq]
        exact Or.inl ⟨rfl, hcalls⟩
      · rw [heq]
        exact Or.inr ⟨hcalls, e, run', rfl, hstopped⟩
  | ok a run' =>
    rw [hfree] at hfirst
    have hbalanced := hfirst.ok a run' rfl
    have hrest := hf a ⟨run, run', hfree⟩ run' hbalanced
    refine ⟨hrest.ok, hrest.error, hfirst.grows.trans hrest.grows, fun hn => ?_⟩
    rcases hfirst.same_or_stopped hn with ⟨heq, hcalls⟩ | ⟨hcalls, e, run', heq, hstopped⟩
    · rw [heq]
      exact hrest.same_or_stopped (hbalanced.length_calls ▸ hcalls)
    · rw [heq]
      exact Or.inr ⟨Nat.lt_of_lt_of_le hcalls (length_calls_le hrest.grows), e, run', rfl, hstopped⟩

theorem Spending.whileLoading (hx : Spending n x x') (specifier : String) :
    Spending n (whileLoading specifier x) (Expand.whileLoading specifier x') := by
  intro run hrun
  have h := hx { run with loading := specifier :: run.loading } (hrun.loading _)
  unfold Expand.whileLoading
  cases hfree : x' { run with loading := specifier :: run.loading } with
  | ok a run' =>
    rw [hfree] at h
    refine ⟨?_, (fun _ _ h => by cases h), h.grows, fun hn => ?_⟩
    · rintro _ _ ⟨⟩
      exact (h.ok a run' rfl).loading _
    · rcases h.same_or_stopped hn with ⟨heq, hle⟩ | ⟨hlt, e, run', heq, hstopped⟩
      · rw [heq]
        exact Or.inl ⟨rfl, hle⟩
      · rw [heq]
        exact Or.inr ⟨hlt, e, _, rfl, hstopped.fault, hstopped.balanced.loading _, hstopped.expansions, hstopped.next⟩
  | error e run' =>
    rw [hfree] at h
    refine ⟨(fun _ _ h => by cases h), ?_, h.grows, fun hn => ?_⟩
    · rintro _ _ ⟨⟩
      obtain ⟨⟨o, ho⟩, hlimit⟩ := h.error e run' rfl
      exact ⟨⟨o, ho.loading _⟩, hlimit⟩
    · rcases h.same_or_stopped hn with ⟨heq, hle⟩ | ⟨hlt, e, run', heq, hstopped⟩
      · rw [heq]
        exact Or.inl ⟨rfl, hle⟩
      · rw [heq]
        exact Or.inr ⟨hlt, e, _, rfl, hstopped.fault, hstopped.balanced.loading _, hstopped.expansions, hstopped.next⟩

end Expand

/-! ### Invocations -/

namespace Parse

/-- How a call ends: it is open, or it has given syntax. -/
theorem call_accounted (s : Setup) (name : Token) (t : Transformer) (stream : Stream) {run : Run}
    (hrun : run.Balanced) (ht : run.registry.transformers ≠ []) :
    match call s name t stream run with
    | .ok _ run' => run'.Balanced ∧ run'.expansions = run.expansions + 1 ∧ run.events <:+ run'.events
    | .error e run' => (∃ c, run'.Accounted (some c)) ∧ run'.expansions = run.expansions ∧ run.events <:+ run'.events ∧
      e.fault.limit? = none := by
  rw [call_eq]
  have hcount : (run.nextCall t stream).earlier = (invocations run.events).length := hrun.expansions
  generalize run.nextCall t stream = c at hcount
  have hopened : Run.Accounted (some c) (run.opening c) :=
    ⟨.called hrun.paired hcount, hrun.expansions, hrun.origins, fun _ => ht⟩
  have hsuffix : run.events <:+ (run.opening c).events := suffix_cons _ _
  have hcalm := Expand.Calm.executes (Expand.executes_callTransformer s t name (Token.flip c.scope c.rest))
    (run.opening c)
  cases heq : Expand.callTransformer s t name _ _ with
  | error e run' =>
    replace hcalm := hcalm.error heq
    refine ⟨⟨c, hcalm.1.accounted hopened⟩, hcalm.1.expansions, ?_, hcalm.2⟩
    exact hsuffix.trans hcalm.1.suffix
  | ok r run' =>
    replace hcalm := hcalm.ok heq
    have hopen := hcalm.accounted hopened
    refine ⟨⟨.invoked hopen.paired, ?_, ?_, fun _ => hcalm.transformers ht⟩, ?_, ?_⟩
    · exact congrArg (· + 1) hopen.expansions
    · exact congrArg (c.transformer.name :: ·) hopen.origins
    · exact congrArg (· + 1) hcalm.expansions
    · exact (hsuffix.trans hcalm.suffix).trans (suffix_cons _ _)

end Parse

/-- An identifier refers to a transformer only if there is one. -/
theorem Parse.spending_invokeHere (s : Setup) (n : Nat) (stream : Stream) :
    Expand.Spending n (invokeHere (s.withBudget (some n)) stream) (invokeHere (s.withBudget none) stream) := by
  intro run hrun
  rw [invokeHere_eq, invokeHere_eq]
  cases hnext : stream.after.head?.bind fun name => (run.registry.lookup run.store name).map (name, ·) with
  | none => exact (Expand.Calm.inert (.pure (a := (false, stream)))).spending run hrun
  | some next =>
    obtain ⟨name, t⟩ := next
    obtain ⟨name', -, hmap⟩ := Option.bind_eq_some_iff.1 hnext
    obtain ⟨t', hlookup, heq⟩ := Option.map_eq_some_iff.1 hmap
    cases heq
    obtain ⟨id, hregistered⟩ := Registry.mem_of_lookup hlookup
    have hcall := call_accounted s name t stream hrun (ne_nil_of_mem hregistered)
    have hsame : ∀ budget, call (s.withBudget budget) name t stream run = call s name t stream run := fun _ => rfl
    have hfree : invoke (s.withBudget none) name t stream run = call s name t stream run := by
      rw [invoke_eq, hsame]
      rfl
    have hbudget : invoke (s.withBudget (some n)) name t stream run = if n ≤ run.expansions then
        .error ⟨.expansionLimit n, run.sources.locateSite name.site⟩ run else call s name t stream run := by
      rw [invoke_eq, hsame]
      simp [Setup.withBudget]
    dsimp only
    rw [hfree, hbudget]
    generalize call s name t stream run = result at hcall
    have hstopped : n ≤ run.expansions → run.expansions ≤ n →
        Run.Stopped n ⟨.expansionLimit n, run.sources.locateSite name.site⟩ run := fun hle hn =>
      ⟨rfl, hrun, Nat.le_antisymm hn hle, name, t, hlookup, rfl⟩
    cases result with
    | ok r run' =>
      obtain ⟨hbalanced, hcount, hgrows⟩ := hcall
      refine ⟨?_, (fun _ _ h => by cases h), hgrows, fun hn => ?_⟩
      · rintro _ _ ⟨⟩
        exact hbalanced
      · have hcalls : (calls run'.events).length = run.expansions + 1 := by rw [hbalanced.length_calls, hcount]
        by_cases hle : n ≤ run.expansions
        · rw [if_pos hle]
          exact Or.inr ⟨Nat.lt_of_le_of_lt hle (hcalls ▸ Nat.lt_succ_self _), _, _, rfl, hstopped hle hn⟩
        · rw [if_neg hle]
          exact Or.inl ⟨rfl, hcalls ▸ Nat.not_le.1 hle⟩
    | error e run' =>
      obtain ⟨⟨c, hopen⟩, hcount, hgrows, hlimit⟩ := hcall
      refine ⟨(fun _ _ h => by cases h), ?_, hgrows, fun hn => ?_⟩
      · rintro _ _ ⟨⟩
        exact ⟨⟨some c, hopen⟩, hlimit⟩
      · have hcalls : (calls run'.events).length = run.expansions + 1 := by
          rw [hopen.length_calls, hcount]
          exact Nat.add_comm _ _
        by_cases hle : n ≤ run.expansions
        · rw [if_pos hle]
          exact Or.inr ⟨Nat.lt_of_le_of_lt hle (hcalls ▸ Nat.lt_succ_self _), _, _, rfl, hstopped hle hn⟩
        · rw [if_neg hle]
          exact Or.inl ⟨rfl, hcalls ▸ Nat.not_le.1 hle⟩

/-! ### Declarations and imports -/

namespace Expand

theorem calm_settle (s : Setup) (home : Home) (binding : Token) (early : Option BindingId) (init : Expression) :
    Calm (settle s home binding early init) :=
  makes_settle Change.calm_inert (Change.calm_executes none) s Change.calm_defines binding early init

theorem calm_bindImport (s : Setup) (record : ModuleRecord) (imported : Import) (wanted : String × Token × Site) :
    Calm (bindImport s record imported wanted) :=
  makes_bindImport Change.calm_inert (Change.calm_executes _) Change.calm_defines
    (fun _ _ _ => ⟨rfl, rfl, ⟨[], rfl, by simp⟩, id⟩) s record imported wanted

/-- Running modules takes nothing from the budget. -/
theorem instantiate_withBudget (s : Setup) (budget : Option Nat) (phase : Phase) (limit : Nat) :
    instantiate (s.withBudget budget) phase limit = instantiate s phase limit := by
  induction limit with
  | zero => rfl
  | succ limit ih =>
    funext record
    simp only [instantiate]
    rw [ih]
    rfl

theorem bindImport_withBudget (s : Setup) (budget : Option Nat) (record : ModuleRecord) (imported : Import) :
    bindImport (s.withBudget budget) record imported = bindImport s record imported := by
  funext wanted
  simp only [bindImport, instantiate_withBudget]

theorem spending_processImport (s : Setup) (n : Nat) (imported : Import) {p p' : Passes}
    (hp : ∀ specifier site, Spending n (p.load specifier site) (p'.load specifier site)) :
    Spending n (processImport (s.withBudget (some n)) p imported) (processImport (s.withBudget none) p' imported) := by
  refine .bind (Calm.noted (noted_request _)).spending fun _ _ => .bind (hp _ _) fun record _ => ?_
  rw [bindImport_withBudget, bindImport_withBudget]
  exact Calm.spending (.forM (calm_bindImport s record imported))

end Expand

/-- A budget of invocations makes no other difference than `Spends` says. -/
def budgetLaw (s : Setup) (n : Nat) : ModuleLaw (s.withBudget (some n)) (s.withBudget none) where
  Rel := Expand.Spending n
  bind_rel hx hf := .bind hx fun a ha => hf a (Or.inr ha)
  inert hx := (Expand.Calm.inert hx).spending
  exhausted := Expand.Calm.spending (.exhausted rfl)
  invokeHere := Parse.spending_invokeHere s n
  declared {home} _ _ binding recursive _ _ hx hc := Parse.declared_of_settle _ _ (Expand.Spending n)
    (fun hx hf => .bind hx fun a ha => hf a (Or.inr ha)) (fun hx => (Expand.Calm.inert hx).spending)
    (fun early _ _ => (Expand.calm_settle s home binding early _).spending) recursive hx hc
  covers _ := trivial
  akin := ⟨rfl, rfl, rfl, rfl⟩
  noted hx := (Expand.Calm.noted hx).spending
  circular _ _ := Expand.Calm.spending (.fail rfl)
  whileLoading specifier hx := hx.whileLoading specifier
  keep _ := (Expand.calm_keep _ _).spending
  processImport imported _ _ hp _ := Expand.spending_processImport s n imported hp

/-! ### Whole programs -/

/-- At a point of a history the calls are those of the invocations and at most one that is open, and the origins taken
down by then are those of the invocations. -/
def AccountedAt (origins : List Origin) (h : List Event) : Prop :=
  ∃ o : Option Call, calls h = o.toList ++ (invocations h).map (·.call) ∧
    ∃ known : List Origin, known <:+ origins ∧ known.map (·.name) = (invocations h).map (·.call.transformer.name)

/-- The origins that were taken down: those that the run still holds and those that its result tells, the last one
first. -/
def originsOf {α : Type} (told : α → List Origin) : EStateM.Result ExpandError Run α → List Origin
  | .ok a run => run.origins ++ (told a).reverse
  | .error _ run => run.origins

/-- How an operation on a program ends with its budget of invocations, and how it ends without one. -/
structure Accounts {α : Type} (told : α → List Origin) (budget : Option Nat)
    (result free : EStateM.Result ExpandError Run α) : Prop where
  /-- The calls, the calls that gave syntax and the origins agree at every point of the run, -/
  always : ∀ h, h <:+ (finalRun result).events → AccountedAt (originsOf told result) h
  /-- and whenever a transformer is called, the count is the number of the calls that gave syntax before. -/
  counted : ∀ call h, .called call :: h <:+ (finalRun result).events → call.earlier = (invocations h).length
  /-- In the end the count is the number of the calls that gave syntax and of the origins, -/
  expansions : (finalRun result).expansions = (invocations (finalRun result).events).length ∧
    (finalRun result).expansions = (originsOf told result).length
  /-- and after a success every call has given syntax. -/
  success : ∀ a run, result = .ok a run → (calls run.events).length = run.expansions
  /-- No more calls are made, and no more counted, than the budget allows. -/
  within : ∀ n, budget = some n → (finalRun result).expansions ≤ (calls (finalRun result).events).length ∧
    (calls (finalRun result).events).length ≤ n
  /-- The budget is what ends the run exactly if more calls are made without it. -/
  stops_iff : ∀ n, (∃ e run, result = .error e run ∧ e.fault = .expansionLimit n) ↔
    budget = some n ∧ n < (calls (finalRun free).events).length
  /-- Then as many calls as the budget allows have given syntax, and one more identifier refers to a transformer. -/
  stops_at : ∀ e run n, result = .error e run → e.fault = .expansionLimit n → run.Stopped n e
  /-- Otherwise the budget makes no difference. -/
  otherwise : (∀ n, budget = some n → (calls (finalRun free).events).length ≤ n) → result = free

theorem Run.Accounted.accountedAt (hrun : run.Accounted o) {h : List Event} (hsuffix : h <:+ run.events) :
    AccountedAt run.origins h := by
  obtain ⟨o', hpaired⟩ := hrun.paired.suffix hsuffix
  obtain ⟨new, hevents⟩ := hsuffix
  refine ⟨o', hpaired.calls_eq, run.origins.drop (invocations new).length, drop_suffix _ _, ?_⟩
  rw [map_drop, hrun.origins, ← hevents, invocations_append, map_append]
  exact drop_left' (length_map _)

/-- The count was right at every call. -/
theorem Run.Accounted.counted (hrun : run.Accounted o) {call : Call} {h : List Event}
    (hsuffix : .called call :: h <:+ run.events) : call.earlier = (invocations h).length := by
  obtain ⟨_, hpaired⟩ := hrun.paired.suffix hsuffix
  cases hpaired with
  | other quiet _ => cases quiet
  | called _ count => exact count

section Accounting

variable {α : Type} {n : Nat} {result free : EStateM.Result ExpandError Run α}

/-- The origins of an operation that tells none are those of its run. -/
theorem originsOf_nil (result : EStateM.Result ExpandError Run α) :
    originsOf (fun _ => []) result = (finalRun result).origins := by
  cases result with
  | ok a run => exact append_nil _
  | error e run => rfl

/-- What an account of a run says of its result, where the budget does not matter. -/
theorem Run.Accounted.of_final (result : EStateM.Result ExpandError Run α) (hrun : (finalRun result).Accounted o) :
    (∀ h, h <:+ (finalRun result).events → AccountedAt (originsOf (fun _ => []) result) h) ∧
    (∀ call h, .called call :: h <:+ (finalRun result).events → call.earlier = (invocations h).length) ∧
    (finalRun result).expansions = (invocations (finalRun result).events).length ∧
    (finalRun result).expansions = (originsOf (fun _ => []) result).length := by
  rw [originsOf_nil]
  exact ⟨fun _ => hrun.accountedAt, fun _ _ => hrun.counted, hrun.expansions, hrun.length_origins⟩

/-- Without a budget a run ends with an account, and does not end for want of invocations. -/
theorem Spends.free_accounts (h : Spends n {} result free) : Accounts (fun _ => []) none free free := by
  have hsame : (∀ n, none = some n → (calls (finalRun free).events).length ≤ n) → free = free := fun _ => rfl
  cases free with
  | ok a run =>
    have hrun := h.ok a run rfl
    obtain ⟨halways, hcounted, hexpansions⟩ := Run.Accounted.of_final (.ok a run) hrun
    refine ⟨halways, hcounted, hexpansions, ?_, (fun _ h => by cases h), fun n => ?_, ?_, hsame⟩
    · rintro _ _ ⟨⟩
      exact hrun.length_calls
    · constructor
      · rintro ⟨_, _, ⟨⟩, _⟩
      · rintro ⟨⟨⟩, _⟩
    · rintro _ _ _ ⟨⟩
  | error e run =>
    obtain ⟨⟨o, hrun⟩, hlimit⟩ := h.error e run rfl
    have hfault : ∀ n, e.fault ≠ .expansionLimit n := by
      intro n heq
      rw [heq] at hlimit
      cases hlimit
    obtain ⟨halways, hcounted, hexpansions⟩ := Run.Accounted.of_final (.error e run : EStateM.Result _ _ α) hrun
    refine ⟨halways, hcounted, hexpansions, ?_, (fun _ h => by cases h), fun n => ?_, ?_, hsame⟩
    · rintro _ _ ⟨⟩
    · constructor
      · rintro ⟨_, _, ⟨⟩, heq⟩
        exact absurd heq (hfault n)
      · rintro ⟨⟨⟩, _⟩
    · rintro _ _ n ⟨⟩ heq
      exact absurd heq (hfault n)

/-- With a budget a run ends with an account: it is stopped or ends as it does without one. -/
theorem Spends.accounts (h : Spends n {} result free) : Accounts (fun _ => []) (some n) result free := by
  have hfree := h.free_accounts
  rcases h.same_or_stopped (Nat.zero_le n) with ⟨rfl, hle⟩ | ⟨hlt, e, run, rfl, hstopped⟩
  · refine ⟨hfree.always, hfree.counted, hfree.expansions, hfree.success, ?_, fun m => ?_, hfree.stops_at, fun _ => rfl⟩
    · rintro _ ⟨⟩
      obtain ⟨o, ho, _⟩ := hfree.always _ (suffix_refl _)
      refine ⟨?_, hle⟩
      rw [hfree.expansions.1, ho, List.length_append, length_map]
      exact Nat.le_add_left _ _
    · constructor
      · intro hlimit
        cases ((hfree.stops_iff m).1 hlimit).1
      · rintro ⟨⟨⟩, hlt⟩
        exact absurd hlt (Nat.not_lt.2 hle)
  · have hrun := hstopped.balanced
    obtain ⟨halways, hcounted, hexpansions⟩ := Run.Accounted.of_final (.error e run : EStateM.Result _ _ α) hrun
    refine ⟨halways, hcounted, hexpansions, ?_, ?_, fun m => ?_, ?_, fun hle => ?_⟩
    · rintro _ _ ⟨⟩
    · rintro _ ⟨⟩
      exact ⟨Nat.le_of_eq hrun.length_calls.symm, Nat.le_of_eq (hrun.length_calls.trans hstopped.expansions)⟩
    · constructor
      · rintro ⟨_, _, ⟨⟩, heq⟩
        rw [hstopped.fault] at heq
        cases heq
        exact ⟨rfl, hlt⟩
      · rintro ⟨⟨⟩, _⟩
        exact ⟨e, run, rfl, hstopped.fault⟩
    · rintro _ _ m ⟨⟩ heq
      rw [hstopped.fault] at heq
      cases heq
      exact hstopped
    · exact absurd hlt (Nat.not_lt.2 (hle n rfl))

end Accounting

/-- What holds of every budget holds of the one that a setup has. -/
theorem Accounts.of_spending {α : Type} {x : Setup → Expand α} (s : Setup)
    (hx : ∀ n, Expand.Spending n (x (s.withBudget (some n))) (x (s.withBudget none))) :
    Accounts (fun _ => []) s.config.maxExpansions (x s {}) (x (s.withBudget none) {}) := by
  have hs : s.withBudget s.config.maxExpansions = s := rfl
  cases hbudget : s.config.maxExpansions with
  | none =>
    have hsame : s.withBudget none = s := by rw [← hbudget, hs]
    have h := (hx 0 {} Run.balanced_empty).free_accounts
    rwa [hsame] at h ⊢
  | some n =>
    have hsame : s.withBudget (some n) = s := by rw [← hbudget, hs]
    have h := (hx n {} Run.balanced_empty).accounts
    rwa [hsame] at h

/-- The output does not depend on the budget. -/
theorem Expand.finish_withBudget (s : Setup) (budget : Option Nat) (record : ModuleRecord) :
    finish (s.withBudget budget) record = finish s record := by
  have hmodule : ∀ store sources, Lowering.module ⟨store, sources, (s.withBudget budget).config⟩ =
      Lowering.module ⟨store, sources, s.config⟩ := by
    intro store sources
    have h : Lowering.Corresponds .equal Eq Eq ⟨store, sources, (s.withBudget budget).config⟩ ⟨store, sources, s.config⟩ := {
      name := fun h => h ▸ rfl
      unnamed := rfl
      isTransformer := fun h => h ▸ rfl
      bare := fun hfields => congrArg _ hfields.eq
      node := fun hsite hfields => hfields.eq ▸ hsite ▸ rfl }
    exact funext fun record => h.module rfl (forall₂_same.2 fun item _ => item.alike_self Likeness.equal_reflexive)
      fun item _ => h.sameLists item
  simp only [finish, hmodule]

/-- An expansion ends with the account of its entry module, and tells its count and its origins. -/
theorem Accounts.finish {s : Setup} {x x' : Expand ModuleRecord}
    (h : Accounts (fun _ => []) s.config.maxExpansions (x {}) (x' {})) :
    Accounts Expansion.origins s.config.maxExpansions ((x >>= Expand.finish s) {})
      ((x' >>= Expand.finish (s.withBudget none)) {}) ∧
    ∀ expansion run, (x >>= Expand.finish s) {} = .ok expansion run →
      expansion.expansions = run.expansions ∧ expansion.origins.length = run.expansions := by
  have hsame : Expand.finish (s.withBudget none) = Expand.finish s := funext fun record => Expand.finish_withBudget s none record
  have hcalls : ∀ y : Expand ModuleRecord, calls (finalRun ((y >>= Expand.finish s) {})).events = calls (finalRun (y {})).events := by
    intro y
    simp only [Bind.bind, EStateM.bind]
    cases y {} <;> rfl
  have hequal : x {} = x' {} → (x >>= Expand.finish s) {} = (x' >>= Expand.finish s) {} := by
    intro heq
    simp only [Bind.bind, EStateM.bind, heq]
  have hstops := fun n => (hcalls x').symm ▸ h.stops_iff n
  have hotherwise := fun hle => hequal (h.otherwise (hcalls x' ▸ hle))
  rw [hsame]
  cases hx : x {} with
  | error e run =>
    rw [hx] at h hstops
    have heq : (x >>= Expand.finish s) {} = .error e run := by simp only [Bind.bind, EStateM.bind, hx]
    rw [heq] at hotherwise ⊢
    refine ⟨⟨h.always, h.counted, h.expansions, ?_, h.within, fun n => ?_, ?_, hotherwise⟩, ?_⟩
    · rintro _ _ ⟨⟩
    · rw [← hstops]
      constructor
      · rintro ⟨_, _, ⟨⟩, hfault⟩
        exact ⟨e, run, rfl, hfault⟩
      · rintro ⟨_, _, ⟨⟩, hfault⟩
        exact ⟨e, run, rfl, hfault⟩
    · rintro _ _ n ⟨⟩
      exact h.stops_at e run n rfl
    · rintro _ _ ⟨⟩
  | ok record run =>
    rw [hx] at h hstops
    obtain ⟨expansion, log, hfinish, hexpansions, horigins⟩ := Expand.exists_finish s record run
    have heq : (x >>= Expand.finish s) {} = .ok expansion { run with log, origins := [], diagnostics := [] } := by
      simp only [Bind.bind, EStateM.bind, hx, hfinish]
    have htold : originsOf Expansion.origins (.ok expansion { run with log, origins := [], diagnostics := [] }) =
        originsOf (fun _ => []) (.ok record run) := by
      simp [originsOf, horigins]
    rw [heq] at hotherwise ⊢
    refine ⟨⟨htold ▸ h.always, h.counted, htold ▸ h.expansions, ?_, h.within, fun n => ?_, ?_, hotherwise⟩, ?_⟩
    · rintro _ _ ⟨⟩
      exact h.success record run rfl
    · rw [← hstops]
      constructor <;> rintro ⟨_, _, ⟨⟩, _⟩
    · rintro _ _ n ⟨⟩
    · rintro _ _ ⟨⟩
      refine ⟨hexpansions, ?_⟩
      rw [horigins, length_reverse, ← append_nil run.origins]
      exact h.expansions.2.symm

/-- The account of invocations is kept in every operation on a program: the count is the number of the calls that gave
syntax and of the origins at every point, no more calls are made than the budget allows, and the budget ends the run
exactly when one more is about to be made. -/
theorem invocations_within_budget (s : Setup) :
    (∀ text, Accounts Expansion.origins s.config.maxExpansions (expandProgram s text) (expandProgram (s.withBudget none) text) ∧
      ∀ expansion run, expandProgram s text = .ok expansion run →
        expansion.expansions = run.expansions ∧ expansion.origins.length = run.expansions) ∧
    (∀ text, Accounts (fun _ => []) s.config.maxExpansions (evaluateProgram s text)
      (evaluateProgram (s.withBudget none) text)) ∧
    ∀ specifier, Accounts Expansion.origins s.config.maxExpansions (expandModule s specifier)
        (expandModule (s.withBudget none) specifier) ∧
      ∀ expansion run, expandModule s specifier = .ok expansion run →
        expansion.expansions = run.expansions ∧ expansion.origins.length = run.expansions := by
  refine ⟨fun text => ?_, fun text => .of_spending (x := (Expand.evaluateProgram · text)) s fun n => ?_, fun specifier => ?_⟩
  · exact Accounts.finish (.of_spending (x := (Expand.entry · text)) s fun n => (budgetLaw s n).entry text)
  · refine .bind ((budgetLaw s n).entry text) fun record _ => .bind (Expand.Calm.spending .get) fun run _ => ?_
    rw [Expand.instantiate_withBudget, Expand.instantiate_withBudget]
    have hcalm := Expand.executes_runModule s .runtime run.modules.length record
    exact (Expand.Calm.executes hcalm).spending
  · exact Accounts.finish (.of_spending (x := fun s => Expand.load s (Expand.items s) specifier .unknown) s fun n =>
      (budgetLaw s n).loadItems specifier _)

/-- The second use of a transformer is one too many. -/
example : (match expandProgram
      { load := fun m => .error m, config := { maxExpansions := some 1 }, limit := 40 } "syntax m = ctx => #`1`; m; m" with
    | .error e run => (e.fault.limit?, run.expansions)
    | .ok _ run => (none, run.expansions)) = (some 1, 1) := by decide +kernel

end Hygiene
