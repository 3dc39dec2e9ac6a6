import Hygiene.Proofs.Expand.Calls
import Hygiene.Proofs.Expand.Conduct
import Hygiene.Proofs.Expand.Reading

/-!
# Invoking transformers is sound

A transformer gives pieces of two kinds: those that came about before its invocation, and those it was handed, which
carry the scope of the invocation.
-/

namespace Hygiene

open List

variable {G : Piece → Prop}

/-- Code is run on pieces of which something is known, and changes the heap and what is reported. -/
def Conduct.onPieces (literals : Piece.Literals G) {run : Run} (hr : run.Sound) (hG : ∀ p, G p → Arises run.events p)
    (values : ∀ entry ∈ run.registry.values, entry.2.Good G) : Conduct where
  demand := .ofPieces G
  frames := rfl
  literals p hp _ := literals p hp
  unknown := trivial
  Holds run' := run.SameHistory run' ∧ run'.heap.Good G
  Fails _ run' := run'.Sound
  heap h := h.2
  values h entry he := Value.meets_ofPieces.2 (values entry (h.1.registry ▸ he))
  setHeap h heap := ⟨h.1.trans ⟨rfl, rfl, rfl, rfl, rfl⟩, heap⟩
  report _ _ h _ := ⟨h.1.trans ⟨rfl, rfl, rfl, rfl, rfl⟩, h.2⟩
  fail h _ _ := hr.of_sameHistory h.1 (h.2.mono hG)

namespace Expand

/-- What a transformer gives has come about before, or was handed to it. -/
theorem callTransformer_ends (literals : Piece.Literals G) {run : Run} (hr : run.Sound)
    (hG : ∀ p, G p → Arises run.events p) (heap : run.heap.Good G)
    (values : ∀ entry ∈ run.registry.values, entry.2.Good G) (s : Setup) {t : Transformer} (ht : t.value.Good G)
    {name : Token} (hname : ∀ p ∈ Token.pieces name, G p) {rest : List Token}
    (hrest : ∀ p ∈ Token.piecesAll rest, G p) :
    Ends run (callTransformer s t name rest) fun r run' =>
      run.SameHistory run' ∧ run'.heap.Good G ∧ ∀ p ∈ Token.piecesAll r.1, G p :=
  (Conduct.keeps_callTransformer (c := .onPieces literals hr hG values) s (Value.meets_ofPieces.2 ht) hname trivial hrest run
    ⟨⟨rfl, rfl, rfl, rfl, rfl⟩, heap⟩).imp (fun _ _ h => ⟨h.1.1, h.1.2, h.2⟩) fun _ _ he => he

end Expand

namespace Parse

variable {m : Mode} {l : List Content} {q : Prop} {run : Run} {stream : Stream}

/-- Calling a transformer that is registered is sound. -/
theorem sound_called (hr : run.Sound)
    (hstream : ∀ p ∈ Token.piecesAll (stream.before ++ stream.after), Arises run.events p)
    {entry : BindingId × Transformer} (hentry : entry ∈ run.registry.transformers) : 
    Run.Sound (run.opening (run.nextCall entry.2 stream)) := by
  refine hr.step (e := .called (run.nextCall entry.2 stream)) ?_ ?_ rfl ?_ hr.nextFresh hr.bindings rfl rfl rfl rfl
  · rintro _ ⟨⟩
    exact hr.nextScope
  · exact ⟨hstream, hr.transformers entry hentry, hr.outputScopes entry hentry⟩
  · rw [History.scopes_cons, ← hr.nextScope]
    rfl

/-- An invocation of a registered transformer is sound. -/
theorem invoke_ends (hr : run.Sound) (s : Setup) {name : Token}
    (hname : Known q run.events (Content.ofTokens [name])) (hstream : Known q run.events stream.content)
    {id : BindingId} {t : Transformer} (hentry : (id, t) ∈ run.registry.transformers) :
    Expand.Ends run (invoke s name t stream) fun r run' =>
      run'.Sound ∧ Follows True [] run stream run' r.2 ∧ Known q run'.events r.2.content := by
  refine yields_invoke s (fun _ _ => hr) ?_
  let call : Call := run.nextCall t stream
  have hbefore : ∀ p ∈ Token.piecesAll stream.before, Arises run.events p := hstream.left.tokens
  have hafter : ∀ p ∈ Token.piecesAll stream.after, Arises run.events p := hstream.right.tokens
  have hboth : ∀ p ∈ Token.piecesAll (stream.before ++ stream.after), Arises run.events p := by
    intro p hp
    rw [Token.piecesAll_append] at hp
    exact (mem_append.1 hp).elim (hbefore p) (hafter p)
  have hr₁ : (run.opening call).Sound := sound_called hr hboth hentry
  let G : Piece → Prop := fun p =>
    Arises run.events p ∨ ∃ q ∈ Token.piecesAll call.rest, p = q.mapScopes (·.flip call.scope)
  have old : ∀ p, Arises run.events p → G p := fun _ => Or.inl
  have hG : ∀ p, G p → Arises (run.opening call).events p := by
    rintro p (hp | ⟨q, hq, rfl⟩)
    · exact .old hp
    · exact .made (.called hq)
  have hrest : ∀ p ∈ Token.piecesAll (Token.flip call.scope call.rest), G p := by
    intro p hp
    rw [Token.piecesAll_flip] at hp
    obtain ⟨q, hq, rfl⟩ := mem_map.1 hp
    exact Or.inr ⟨q, hq, rfl⟩
  refine (Expand.callTransformer_ends (fun p hp => old p (.literal hp)) hr₁ hG (hr.heap.mono old)
    (fun e he => (hr.values e he).mono old) s ((hr.transformers _ hentry).mono old)
    (fun p hp => old p (hname.tokens p (by simpa [Token.piecesAll] using hp))) hrest).imp ?_
  rintro ⟨output, taken⟩ run₂ ⟨hsame, hheap, houtput⟩
  have hr₂ : run₂.Sound := hr₁.of_sameHistory hsame (hheap.mono hG)
  let inv : Invocation := call.giving output taken
  have hevents : (run₂.closing inv name.site).events = .invoked inv :: .called call :: run.events :=
    congrArg (Event.invoked inv :: ·) hsame.events
  refine ⟨?_, ⟨?_, fun _ hcalls => ?_⟩, ?_⟩
  · refine hr₂.step (e := .invoked inv) (by simp [Event.scope?]) ⟨rfl, run.events, hsame.events, houtput⟩ rfl ?_
      hr₂.nextFresh hr₂.bindings rfl rfl rfl rfl
    rw [History.scopes_cons]
    exact hr₂.nextScope
  · refine ⟨⟨[.invoked inv, .called call], hevents, ?_⟩, fun id h => ?_, fun id h => ?_⟩
    · intro _ e he
      simp only [mem_cons, not_mem_nil, or_false] at he
      rcases he with rfl | rfl <;> rfl
    · unfold Run.Unsettled Run.closing at h
      rwa [hsame.store, hsame.registry] at h
    · unfold Run.closing
      rwa [hsame.registry]
  · have hlt : call.scope < History.scopes run.events :=
      hr.history.scope_lt (hcalls (.called call) (hevents ▸ by simp) rfl) rfl
    exact absurd hr.nextScope (Nat.ne_of_lt hlt)
  · rw [hevents]
    have lift : ∀ p, Arises run.events p → Arises (.invoked inv :: .called call :: run.events) p :=
      fun p hp => .old (.old hp)
    refine .union (.of_tokens fun p hp => lift p (hbefore p hp)) (.of_tokens fun p hp => ?_)
    replace hp := mem_append.1 (Token.piecesAll_append _ _ ▸ hp)
    rcases hp with hp | hp
    · rw [Token.piecesAll_markOutput] at hp
      obtain ⟨q, hq, rfl⟩ := mem_map.1 hp
      have hmade : Event.Makes (.invoked inv) q _ := .invoked hq
      exact .made hmade
    · have hsub : call.rest.drop taken ⊆ stream.after := fun t ht => mem_of_mem_drop (mem_of_mem_drop ht)
      exact lift p (hafter p (Token.piecesAll_subset hsub hp))

/-- The token at the place refers to no transformer that has a meaning. -/
def Plain (stream : Stream) (run : Run) : Prop :=
  ∀ t, stream.after.head? = some t → run.registry.lookup run.store t = none

/-- When nothing was invoked, the token at the place refers to no transformer. -/
theorem invokeHere_ends (hr : run.Sound) (s : Setup) (hstream : Known q run.events stream.content) :
    Expand.Ends run (invokeHere s stream) fun r run' => run'.Sound ∧ Follows True [] run stream run' r.2 ∧
      Known q run'.events r.2.content ∧ (r.1 = false → Plain r.2 run') := by
  refine yields_bind (P := fun r run' => (stream.after.head?, stream) = r ∧ run = run') ⟨rfl, rfl⟩ ?_
  rintro _ _ _ ⟨⟨⟩, rfl⟩
  cases hhead : stream.after.head? with
  | none =>
    refine ⟨hr, .of_suffix (.refl _ _) (suffix_refl _), hstream, fun _ t ht => ?_⟩
    rw [hhead] at ht
    cases ht
  | some token =>
    refine yields_lift_bind (P := fun r run' => run = r ∧ run = run') ⟨rfl, rfl⟩ ?_
    rintro _ _ ⟨rfl, rfl⟩
    cases hlookup : run.registry.lookup run.store token with
    | none =>
      dsimp only
      refine ⟨hr, .of_suffix (.refl _ _) (suffix_refl _), hstream, fun _ t ht => ?_⟩
      rw [hhead] at ht
      cases ht
      exact hlookup
    | some t =>
      dsimp only
      obtain ⟨b, _, hb⟩ := Option.bind_eq_some_iff.1 hlookup
      have ht : run.registry.transformer? b.id = some t := by
        split at hb
        · exact hb
        · cases hb
      obtain ⟨id, hid⟩ := Assoc.exists_mem_of_get? ht
      have hname := hstream.mono (Stream.content_head? hhead)
      refine yields_bind (invoke_ends hr s hname hstream hid) ?_
      rintro _ stream' run' ⟨hr', he, hk⟩
      exact ⟨hr', he, hk, fun h => by cases h⟩

/-- After all invocations the token at the place refers to no transformer. -/
theorem invokeAll_ends (hr : run.Sound) (s : Setup) (hstream : Known q run.events stream.content) (limit : Nat) :
    Expand.Ends run (invokeAll s limit stream) fun r run' => run'.Sound ∧ Follows True [] run stream run' r.2 ∧
      Known q run'.events r.2.content ∧ Plain r.2 run' := by
  induction limit generalizing run stream with
  | zero => exact hr
  | succ limit ih =>
    refine yields_bind (invokeHere_ends hr s hstream) ?_
    rintro invoked stream' run' ⟨hr', he, hk, hplain⟩
    cases invoked with
    | false => exact ⟨hr', he, hk, hplain rfl⟩
    | true =>
      refine (ih hr' hk).imp ?_
      rintro r run'' ⟨hr'', he', hk', hplain'⟩
      exact ⟨hr'', he.trans he', hk', hplain'⟩

theorem sound_invokeHere (s : Setup) : Sound m l (invokeHere s) fun _ => [] := by
  intro stream run hr _ _ hl
  exact (invokeHere_ends hr s hl.left).imp fun _ _ h => ⟨h.1, h.2.1.of_quiet, h.2.2.1⟩

theorem sound_invokeAll (s : Setup) (limit : Nat) : Sound m l (invokeAll s limit) fun _ => [] := by
  intro stream run hr _ _ hl
  exact (invokeAll_ends hr s hl.left limit).imp fun _ _ h => ⟨h.1, h.2.1.of_quiet, h.2.2.1⟩

end Parse

end Hygiene
