import Hygiene.Proofs.Assoc
import Hygiene.Proofs.Expand.Yields

/-!
# Calls of transformers

What an invocation does, as equations: the budget is checked, the call is taken down, the transformer is called, and its
syntax is put in place and taken down with its origin.
-/

namespace Hygiene

/-- The call of a transformer that a run makes next. -/
def Run.nextCall (run : Run) (t : Transformer) (stream : Stream) : Call :=
  { scope := run.store.nextScope, transformer := t, stream, earlier := run.expansions }

/-- The run that has just made a call. -/
def Run.opening (run : Run) (call : Call) : Run :=
  { run with store := run.store.freshScope.2, events := .called call :: run.events }

/-- The invocation that a call becomes by what it gives. -/
def Call.giving (call : Call) (output : List Token) (taken : Nat) : Invocation where
  call
  output
  taken
  result := { call.stream with
    after := markOutput call.scope call.transformer.outputScope output ++ call.rest.drop taken }

/-- The run that takes down an invocation with its origin. -/
def Run.closing (run : Run) (inv : Invocation) (site : Site) : Run :=
  let t := inv.call.transformer
  { run with
    events := .invoked inv :: run.events
    expansions := run.expansions + 1
    origins :=
      { name := t.name, callSite := run.sources.locateSite site, definitionSite := run.sources.locateSite t.site } :: run.origins }

/-- A transformer that an identifier refers to is registered. -/
theorem Registry.mem_of_lookup {r : Registry} {store : Store} {name : Token} {t : Transformer}
    (h : r.lookup store name = some t) : ∃ id, (id, t) ∈ r.transformers := by
  obtain ⟨b, -, hb⟩ := Option.bind_eq_some_iff.1 h
  split at hb
  · exact Assoc.exists_mem_of_get? hb
  · cases hb

namespace Parse

/-- What is left of an invocation once the budget has been checked. -/
def call (s : Setup) (name : Token) (t : Transformer) : Parse Unit := do
  let stream ← get
  let earlier := (← run).expansions
  let scope ← Expand.freshScope fun scope => .called { scope, transformer := t, stream, earlier }
  let call : Call := { scope, transformer := t, stream, earlier }
  let (output, taken) ← Expand.callTransformer s t name (Token.flip scope call.rest)
  let result : Stream := { stream with after := markOutput scope t.outputScope output ++ call.rest.drop taken }
  set result
  Expand.record (.invoked { call, output, taken, result })
  Expand.recordOrigin t name.site

/-- A call is taken down, and if it gives syntax, so are the invocation and its origin. -/
theorem call_eq (s : Setup) (name : Token) (t : Transformer) (stream : Stream) (run : Run) :
    call s name t stream run =
      match Expand.callTransformer s t name (Token.flip (run.nextCall t stream).scope (run.nextCall t stream).rest)
        (run.opening (run.nextCall t stream)) with
      | .ok (output, taken) run' =>
        let inv := (run.nextCall t stream).giving output taken
        .ok ((), inv.result) (run'.closing inv name.site)
      | .error e run' => .error e run' := by
  have hcall : call s name t stream run = ((liftM (Expand.callTransformer s t name
      (Token.flip (run.nextCall t stream).scope (run.nextCall t stream).rest)) : Parse (List Token × Nat)) >>= fun r => do
        let inv := (run.nextCall t stream).giving r.1 r.2
        set inv.result
        Expand.record (.invoked inv)
        Expand.recordOrigin t name.site) stream (run.opening (run.nextCall t stream)) := rfl
  rw [hcall]
  generalize Expand.callTransformer s t name _ = x
  simp only [Bind.bind, StateT.bind, EStateM.bind, liftM, monadLift, MonadLift.monadLift, StateT.lift]
  cases x (run.opening (run.nextCall t stream)) with
  | ok r run' => rfl
  | error e run' => rfl

/-- An invocation: the budget is checked, and the call is made if it allows one more. -/
theorem invoke_eq (s : Setup) (name : Token) (t : Transformer) (stream : Stream) (run : Run) :
    invoke s name t stream run =
      if s.config.maxExpansions.any (· ≤ run.expansions) then
        .error ⟨.expansionLimit (s.config.maxExpansions.getD 0), run.sources.locateSite name.site⟩ run
      else call s name t stream run := by
  have hinvoke : invoke s name t stream run =
      ((liftM (Expand.checkBudget s name.site) : Parse Unit) >>= fun _ => call s name t) stream run := rfl
  rw [hinvoke]
  simp only [Expand.checkBudget]
  cases s.config.maxExpansions with
  | none => rfl
  | some n =>
    by_cases hn : n ≤ run.expansions
    · simp [hn, Bind.bind, StateT.bind, EStateM.bind, liftM, monadLift, MonadLift.monadLift, StateT.lift, Expand.get_apply,
        Expand.fail]
    · simp [hn, Bind.bind, StateT.bind, EStateM.bind, liftM, monadLift, MonadLift.monadLift, StateT.lift, Expand.get_apply,
        Pure.pure, EStateM.pure]

/-- What the token at the place refers to is invoked, if it refers to a transformer. -/
theorem invokeHere_eq (s : Setup) (stream : Stream) (run : Run) :
    invokeHere s stream run =
      match stream.after.head?.bind fun name => (run.registry.lookup run.store name).map (name, ·) with
      | none => .ok (false, stream) run
      | some (name, t) => match invoke s name t stream run with
        | .ok r run' => .ok (true, r.2) run'
        | .error e run' => .error e run' := by
  unfold invokeHere
  simp only [peek, Bind.bind, StateT.bind, EStateM.bind, Pure.pure, EStateM.pure, get, getThe, MonadStateOf.get, StateT.get]
  delta StateT.pure
  cases stream.after.head? with
  | none => rfl
  | some name =>
    simp only [Parse.run, Bind.bind, StateT.bind, EStateM.bind, Expand.get_apply, liftM,
      monadLift, MonadLift.monadLift, StateT.lift, Pure.pure, EStateM.pure, Option.bind_some]
    cases run.registry.lookup run.store name with
    | none => rfl
    | some t =>
      simp only [Option.map_some, Bind.bind, StateT.bind, EStateM.bind]
      cases invoke s name t stream run <;> rfl

/-- How an invocation ends follows from how the call of the transformer ends. -/
theorem yields_invoke (s : Setup) {name : Token} {t : Transformer} {stream : Stream} {run : Run}
    {P : Unit × Stream → Run → Prop} {E : ExpandError → Run → Prop}
    (limit : ∀ n location, E ⟨.expansionLimit n, location⟩ run)
    (calls : Expand.Yields (run.opening (run.nextCall t stream))
      (Expand.callTransformer s t name (Token.flip (run.nextCall t stream).scope (run.nextCall t stream).rest))
      (fun r run' => let inv := (run.nextCall t stream).giving r.1 r.2
        P ((), inv.result) (run'.closing inv name.site)) E) :
    Expand.Yields run (invoke s name t stream) P E := by
  unfold Expand.Yields at calls ⊢
  rw [invoke_eq]
  by_cases hbudget : s.config.maxExpansions.any (· ≤ run.expansions) = true
  · rw [if_pos hbudget]
    exact limit _ _
  · rw [if_neg hbudget, call_eq]
    generalize Expand.callTransformer s t name _ _ = result at calls
    cases result <;> exact calls

/-- An invocation at the place: nothing happens where no transformer is referred to. -/
theorem yields_invokeHere (s : Setup) {stream : Stream} {run : Run} {P : Bool × Stream → Run → Prop}
    {E : ExpandError → Run → Prop} (idle : P (false, stream) run) (limit : ∀ n location, E ⟨.expansionLimit n, location⟩ run)
    (calls : ∀ name id t, (id, t) ∈ run.registry.transformers → Expand.Yields (run.opening (run.nextCall t stream))
      (Expand.callTransformer s t name (Token.flip (run.nextCall t stream).scope (run.nextCall t stream).rest))
      (fun r run' => let inv := (run.nextCall t stream).giving r.1 r.2
        P (true, inv.result) (run'.closing inv name.site)) E) :
    Expand.Yields run (invokeHere s stream) P E := by
  unfold Expand.Yields
  rw [invokeHere_eq]
  cases hfound : stream.after.head?.bind fun name => (run.registry.lookup run.store name).map (name, ·) with
  | none => exact idle
  | some found =>
    obtain ⟨name, _, hlookup⟩ := Option.bind_eq_some_iff.1 hfound
    obtain ⟨t, ht, rfl⟩ := Option.map_eq_some_iff.1 hlookup
    obtain ⟨id, hmem⟩ := Registry.mem_of_lookup ht
    have hinvoke := yields_invoke s (P := fun r => P (true, r.2)) limit (calls name id t hmem)
    unfold Expand.Yields at hinvoke
    dsimp only
    generalize invoke s name t stream run = result at hinvoke
    cases result <;> exact hinvoke

end Parse

end Hygiene
