import Hygiene.Proofs.Expand.Sound

/-!
# The actions of a run are sound

The changes that everything else is made of: events, scopes and bindings.
-/

namespace Hygiene

open List

namespace Expand

variable {α : Type} {m : Mode} {l : List Content} {scope : ScopeId} {tokens : List Token} {run : Run} {ident : Token}
  {kind : BindingKind}

/-- An event that makes no scope and no binding is recorded where it fits. -/
theorem sound_record {e : Event} {Q : Unit → List Content} (scope : e.scope? = none)
    (bindings : ∀ h, History.bindings (e :: h) = History.bindings h) (quiet : m.quiet → e.isRan = false)
    (fits : ∀ h, m.Inside h → Known m.settled h l → e.Fits h)
    (hQ : ∀ h, Known m.settled h l → Known m.settled (e :: h) (Q ())) : Sound m l (record e) Q := by
  intro run hr _ hm hl
  refine ⟨?_, ⟨⟨[e], rfl, ?_⟩, fun _ h => h, fun _ h => h⟩, hQ _ hl⟩
  · refine hr.step (e := e) (by simp [scope]) (fits _ hm hl) rfl ?_ ?_ ?_ rfl rfl rfl rfl
    · rw [History.scopes_cons, scope]
      exact hr.nextScope
    · rw [History.renamed, bindings]
      exact hr.nextFresh
    · rw [bindings]
      exact hr.bindings
  · intro q e' he'
    rw [mem_singleton.1 he']
    exact quiet q

/-- The tokens that have been given the scope of a region are known with it. -/
theorem sound_record_enclosed (hs : scope ∈ m.regions) (hl : Content.ofTokens tokens ⊆ l) :
    Sound m l (record (.enclosed scope tokens)) fun _ => Content.ofTokens (Token.wrap scope tokens) := by
  refine sound_record rfl (fun _ => rfl) (fun _ => rfl) (fun h hm hk => ?_) (fun h _ => ?_)
  · obtain ⟨mid, earlier, rfl, _⟩ := hm scope hs
    exact ⟨by simp, (hk.mono hl).tokens⟩
  · refine Known.of_tokens fun p hp => ?_
    rw [Token.piecesAll_wrap] at hp
    obtain ⟨q, hq, rfl⟩ := mem_map.1 hp
    exact .made (.enclosed hq)

theorem sound_enclose (hs : scope ∈ m.regions)
    (hl : Content.ofTokens tokens ⊆ l) : Sound m l (enclose scope tokens) Content.ofTokens :=
  .bind (sound_record_enclosed hs hl) fun _ => .pure (subset_append_left _ _)

/-- A region is left before any code is run. -/
theorem sound_leave (hs : scope ∈ m.regions) (hq : m.quiet)
    (hl : Content.ofTokens tokens ⊆ l) : Sound m l (leave scope tokens) Content.ofTokens := by
  refine .bind (Q := fun _ => Content.ofTokens (Token.strip scope tokens)) ?_ fun _ =>
    .pure (subset_append_left _ _)
  refine sound_record rfl (fun _ => rfl) (fun _ => rfl) (fun h hm hk => ?_) (fun h _ => ?_)
  · obtain ⟨mid, earlier, rfl, hmid⟩ := hm scope hs
    exact ⟨⟨mid, earlier, rfl, hmid hq⟩, (hk.mono hl).tokens⟩
  · refine Known.of_tokens fun p hp => ?_
    rw [Token.piecesAll_strip] at hp
    obtain ⟨q, hq, rfl⟩ := mem_map.1 hp
    exact .made (.left hq)

/-- A new scope is one more than the scopes before. It is made with an event that changes no bindings. -/
theorem freshScope_ends (hr : run.Sound) (event : ScopeId → Event) (scope : ∀ s, (event s).scope? = some s)
    (bindings : ∀ s h, History.bindings (event s :: h) = History.bindings h) (quiet : ∀ s, (event s).isRan = false)
    (fits : ∀ s, (event s).Fits run.events) : Ends run (freshScope event) fun scope run' =>
      run'.Sound ∧ Run.Extends True run run' ∧ run'.events = event scope :: run.events := by
  refine ⟨?_, ⟨⟨[event run.store.nextScope], rfl, ?_⟩, fun _ h => h, fun _ h => h⟩, rfl⟩
  · refine hr.step (e := event run.store.nextScope) ?_ (fits _) rfl ?_ ?_ ?_ rfl rfl rfl rfl
    · rintro s hs
      rw [scope] at hs
      rw [← Option.some.inj hs]
      exact hr.nextScope
    · rw [History.scopes_cons, scope, ← hr.nextScope]
      rfl
    · rw [History.renamed, bindings]
      exact hr.nextFresh
    · rw [bindings]
      exact hr.bindings
  · intro _ e he
    rw [mem_singleton.1 he]
    exact quiet _

/-- A region that is opened can be relied on from then on. -/
theorem freshScope_opened (hr : run.Sound) (hm : m.Inside run.events) : Ends run (freshScope .opened) fun scope run' =>
    run'.Sound ∧ Run.Extends True run run' ∧ run'.events = .opened scope :: run.events ∧
      Mode.Inside { m with regions := scope :: m.regions } run'.events := by
  refine (freshScope_ends hr .opened (fun _ => rfl) (fun _ _ => rfl) (fun _ => rfl) fun _ => trivial).imp ?_
  rintro scope run' ⟨hr', he, hevents⟩
  refine ⟨hr', he, hevents, fun s hs => ?_⟩
  rcases mem_cons.1 hs with rfl | hs
  · exact ⟨[], run.events, hevents, fun _ => by simp [History.Quiet]⟩
  · exact hm.extend he.of_quiet s hs

theorem sound_freshScope_bind {f : ScopeId → Expand α} {Q : α → List Content}
    (hf : ∀ scope, Sound { m with regions := scope :: m.regions } l (f scope) Q) :
    Sound m l (freshScope .opened >>= f) Q := by
  intro run hr hs hm hl
  refine (freshScope_opened hr hm).bind ?_
  rintro scope run' ⟨hr', he', -, hm'⟩
  have he : Run.Extends m.quiet run run' := he'.of_quiet
  refine (hf scope run' hr' (fun q => he.settled (hs q)) hm' (hl.extend he)).imp ?_
  rintro a run'' ⟨hr'', he', hQ⟩
  exact ⟨hr'', he.trans he', hQ⟩

/-- The binding that is made for an identifier. -/
def newBinding (run : Run) (ident : Token) (kind : BindingKind) (rename : Bool) : Binding where
  id := run.store.bindings.size
  name := ident.name
  fresh := if rename then (run.store.freshName ident.name).1 else ident.name
  kind := kind
  scopes := ident.scopes
  site := ident.site

/-- The run after a binding has been made. -/
def afterBind (run : Run) (ident : Token) (kind : BindingKind) (rename : Bool) : Run :=
  { run with
    store := {
      nextScope := run.store.nextScope
      nextFresh := if rename then run.store.nextFresh + 1 else run.store.nextFresh
      bindings := run.store.bindings.push (newBinding run ident kind rename)
      byName := Assoc.insert ident.name ((Assoc.get? ident.name run.store.byName).getD [] ++ [run.store.bindings.size]) run.store.byName
      indexed := Store.indexed_push run.store.indexed (newBinding run ident kind rename) }
    events := .bound (newBinding run ident kind rename) :: run.events }

theorem bind_eq (ident : Token) (kind : BindingKind) (rename : Bool) (run : Run) :
    bind ident kind rename run = .ok run.store.bindings.size (afterBind run ident kind rename) := by
  have bound : bind ident kind rename run = .ok (run.store.bind ident kind rename).1
      { run with
        store := (run.store.bind ident kind rename).2
        events := ((run.store.bind ident kind rename).2.binding? (run.store.bind ident kind rename).1).toList.map .bound ++
          run.events } := rfl
  rw [bound]
  cases rename <;> simp [Store.bind, Store.binding?, afterBind, newBinding, Store.freshName]

theorem isRenamed_newBinding (run : Run) (ident : Token) (kind : BindingKind) (rename : Bool) :
    (newBinding run ident kind rename).isRenamed = rename := by
  cases rename with
  | false => simp [Binding.isRenamed, newBinding]
  | true => exact decide_eq_true (numbered_ne ident.name _)

/-- A run is sound after a binding of a token that has come about. -/
theorem sound_afterBind (hr : run.Sound) (hi : ∀ p ∈ Token.pieces ident, Arises run.events p)
    {rename : Bool} (hk : kind.Renames rename) : (afterBind run ident kind rename).Sound := by
  refine hr.step (e := .bound (newBinding run ident kind rename)) (by simp [Event.scope?]) ⟨?_, rfl, ?_, ?_⟩ rfl ?_ ?_ ?_
    rfl rfl rfl rfl
  · rw [← hr.bindings, Array.length_toList]
    rfl
  · rw [← hr.nextFresh]
    cases rename with
    | false => exact Or.inr ⟨rfl, hk⟩
    | true => exact Or.inl ⟨rfl, hk⟩
  · obtain ⟨label, hl, hname⟩ := Token.exists_label_mem_pieces ident
    exact ⟨label, hi _ hl, hname⟩
  · rw [History.scopes_cons]
    exact hr.nextScope
  · rw [History.renamed, History.bindings, countP_append, countP_singleton, isRenamed_newBinding]
    have := hr.nextFresh
    cases rename <;> simp [afterBind, this, History.renamed]
  · simp [afterBind, History.bindings, hr.bindings]

/-- A new binding of a transformer may be without meaning; nothing else changes. -/
theorem unsettled_afterBind {rename : Bool} {id : BindingId} (h : (afterBind run ident kind rename).Unsettled id) :
    run.Unsettled id ∨ (kind.isTransformer = true ∧ id = run.store.bindings.size) := by
  obtain ⟨⟨b, hb, hk, hid⟩, hnone⟩ := h
  simp only [afterBind, Array.toList_push, mem_append, mem_singleton] at hb
  rcases hb with hb | rfl
  · exact Or.inl ⟨⟨b, hb, hk, hid⟩, hnone⟩
  · exact Or.inr ⟨hk, hid.symm⟩

/-- Binding an identifier of another kind than a transformer is sound. -/
theorem sound_bind (rename : Bool) (hl : Content.ofTokens [ident] ⊆ l)
    (hk : kind.isTransformer = false) (hrename : kind.Renames rename) : Sound m l (bind ident kind rename) fun _ => [] := by
  intro run hr _ _ hknown
  refine .of_ok (bind_eq ident kind rename run) ?_
  have hi : ∀ p ∈ Token.pieces ident, Arises run.events p := by
    simpa [Token.piecesAll] using (hknown.mono hl).tokens
  refine ⟨sound_afterBind hr hi hrename, ⟨⟨[_], rfl, ?_⟩, fun id h => ?_, fun _ h => h⟩, .nil⟩
  · intro _ e he
    rw [mem_singleton.1 he]
    rfl
  · refine (unsettled_afterBind h).resolve_right fun hkind => ?_
    rw [hk] at hkind
    cases hkind.1

theorem sound_bindVariable (hl : Content.ofTokens [ident] ⊆ l) : Sound m l (bindVariable ident) fun _ => [] :=
  .bind (sound_bind true hl rfl (Or.inl rfl)) fun _ => .pure (nil_subset _)

theorem sound_freshLambda : Sound m l freshLambda fun _ => [] :=
  fun _ hr _ _ _ => ⟨hr.of_sameHistory ⟨rfl, rfl, rfl, rfl, rfl⟩ hr.heap, Run.SameHistory.extends ⟨rfl, rfl, rfl, rfl, rfl⟩, .nil⟩

theorem sound_note (message : String) : Sound m l (note message) fun _ => [] :=
  fun _ hr _ _ _ => ⟨hr.of_sameHistory ⟨rfl, rfl, rfl, rfl, rfl⟩ hr.heap, Run.SameHistory.extends ⟨rfl, rfl, rfl, rfl, rfl⟩, .nil⟩

end Expand

/-- The content of a value. -/
def Value.content (v : Value) : List Content := v.pieces.map .piece

theorem Parse.sound_freshScope_bind {α : Type} {m : Mode} {l : List Content} {Q : α → List Content}
    {f : ScopeId → Parse α} (hf : ∀ scope, Parse.Sound { m with regions := scope :: m.regions } l (f scope) Q) :
    Parse.Sound m l (liftM (Expand.freshScope .opened) >>= f) Q := by
  intro stream run hr hs hm hl
  refine yields_lift_bind (Expand.freshScope_opened hr hm) ?_
  rintro scope run' ⟨hr', he', hevents, hm'⟩
  have he : Run.Extends m.quiet run run' := he'.of_quiet
  refine (hf scope stream run' hr' (fun q => he.settled (hs q)) hm' (hl.extend he)).imp ?_
  rintro r run'' ⟨hr'', hr, hk⟩
  refine ⟨hr'', ⟨he.trans hr.later, fun hq hcalls => ?_⟩, hk⟩
  refine (hr.rest hq fun e he hc => by simp [hevents, hcalls e he hc]).mono fun x hx => ⟨?_, fun hmem => ?_⟩
  · rw [hevents, History.scopes_cons]
    exact Nat.lt_add_right _ hx.1
  · rcases mem_cons.1 hmem with rfl | hmem
    · exact Nat.lt_irrefl _ ((hevents ▸ hr'.history).fresh rfl ▸ hx.1)
    · exact hx.2 hmem

end Hygiene
