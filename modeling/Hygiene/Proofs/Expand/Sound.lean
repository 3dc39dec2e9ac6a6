import Hygiene.Proofs.Expand.History
import Hygiene.Proofs.Token.Rest

/-!
# Sound runs

A run is sound when its history is, its store holds the bindings of its history, and everything it holds has come about
in it. `Expand.Sound` says that an expansion keeps runs sound, also when it fails, and what is known of its result. What
is known stays known, so it is a list that only grows along an expansion.
-/

namespace Hygiene

open List

/-- What can be relied on while terms are read. -/
structure Mode where
  /-- No code is run. -/
  quiet : Prop
  /-- Every transformer that is bound has a meaning. -/
  settled : Prop
  /-- The scopes of regions that have been opened, if nothing is run since then. -/
  regions : List ScopeId

namespace History

/-- The identifier was read at a time when it did not refer to a transformer, or it was read as a property together
with its value. -/
def Read (h : List Event) (ident : Token) : Prop :=
  .shorthand ident ∈ h ∨ ∃ later earlier, h = later ++ .read ident :: earlier ∧
    ∀ b, (store earlier).resolveIdent ident = some b → b.kind.isTransformer = false

end History

/-- The regions of a mode have been opened, and if it is quiet then no code was run since. -/
def Mode.Inside (m : Mode) (h : List Event) : Prop :=
  ∀ s ∈ m.regions, ∃ mid earlier, h = mid ++ .opened s :: earlier ∧ (m.quiet → History.Quiet mid)

theorem Mode.Inside.append {m : Mode} {h new : List Event} (hm : m.Inside h) (hq : m.quiet → History.Quiet new) :
    m.Inside (new ++ h) := by
  intro s hs
  obtain ⟨mid, earlier, rfl, hmid⟩ := hm s hs
  refine ⟨new ++ mid, earlier, by rw [append_assoc], fun q e he => ?_⟩
  exact (mem_append.1 he).elim (hq q e) (hmid q e)

/-- What is known of a content after a history: pieces have come about, and if all was settled then identifiers were
read when they referred to no transformer. -/
def Content.Holds (settled : Prop) (h : List Event) : Content → Prop
  | .piece p => Arises h p
  | .use ident => settled → History.Read h ident

/-- What is known of contents after a history. -/
def Known (settled : Prop) (h : List Event) (l : List Content) : Prop := ∀ c ∈ l, c.Holds settled h

/-- What is known stays known. -/
theorem Content.Holds.append {q : Prop} {c : Content} {h : List Event} (hc : c.Holds q h) (new : List Event) :
    c.Holds q (new ++ h) := by
  cases c with
  | piece p => exact Arises.append hc
  | use ident =>
    intro hs
    rcases hc hs with hmem | ⟨later, earlier, rfl, hres⟩
    · exact Or.inl (mem_append_right _ hmem)
    · exact Or.inr ⟨new ++ later, earlier, by rw [append_assoc], hres⟩

namespace Known

variable {q : Prop} {h : List Event} {l k : List Content}

theorem append (hl : Known q h l) (new : List Event) : Known q (new ++ h) l := fun c hc => (hl c hc).append new

theorem mono (hl : Known q h l) (hk : k ⊆ l) : Known q h k := fun c hc => hl c (hk hc)

theorem union (hl : Known q h l) (hk : Known q h k) : Known q h (l ++ k) :=
  fun c hc => (mem_append.1 hc).elim (hl c) (hk c)

theorem left (hl : Known q h (l ++ k)) : Known q h l := hl.mono (subset_append_left _ _)

theorem right (hl : Known q h (l ++ k)) : Known q h k := hl.mono (subset_append_right _ _)

theorem nil : Known q h [] := by simp [Known]

/-- The pieces that are known have come about. -/
theorem good (hl : Known q h l) : Content.Good (Arises h) l := fun _ hp => hl _ hp

theorem tokens {ts : List Token} (hl : Known q h (Content.ofTokens ts)) : ∀ p ∈ Token.piecesAll ts, Arises h p :=
  Content.good_ofTokens.1 hl.good

theorem of_tokens {ts : List Token} (ht : ∀ p ∈ Token.piecesAll ts, Arises h p) : Known q h (Content.ofTokens ts) := by
  intro c hc
  obtain ⟨p, hp, rfl⟩ := mem_map.1 hc
  exact ht p hp

end Known

namespace Run

/-- A binding stands for a transformer and has no meaning yet. -/
def Unsettled (run : Run) (id : BindingId) : Prop :=
  (∃ b ∈ run.store.bindings.toList, b.kind.isTransformer = true ∧ b.id = id) ∧ run.registry.transformer? id = none

/-- Every binding that stands for a transformer has a meaning. -/
def Settled (run : Run) : Prop := ∀ id, ¬ run.Unsettled id

/-- The history is sound, the store holds its bindings, and everything that the run holds has come about in it. -/
structure Sound (run : Run) : Prop where
  history : History.Sound run.events
  nextScope : run.store.nextScope = History.scopes run.events
  nextFresh : run.store.nextFresh = History.renamed run.events
  bindings : run.store.bindings.toList = History.bindings run.events
  transformers : ∀ entry ∈ run.registry.transformers, entry.2.value.Good (Arises run.events)
  outputScopes : ∀ entry ∈ run.registry.transformers, ∀ o, entry.2.outputScope = some o →
    ∃ id, .hidden id o ∈ run.events
  values : ∀ entry ∈ run.registry.values, entry.2.Good (Arises run.events)
  heap : run.heap.Good (Arises run.events)
  modules : ∀ entry ∈ run.modules, Known True run.events entry.2.content
  exports : ∀ entry ∈ run.modules, ∀ e ∈ entry.2.transformerExports, (run.registry.transformer? e.2).isSome = true
  instances : ∀ entry ∈ run.instances, ∀ field ∈ entry.2, field.2.Good (Arises run.events)

/-- One run comes after another: its history goes on, without running code if it is quiet, and it leaves no new
transformer without a meaning and no old one. -/
structure Extends (quiet : Prop) (run run' : Run) : Prop where
  events : ∃ new, run'.events = new ++ run.events ∧ (quiet → History.Quiet new)
  settles : ∀ id, run'.Unsettled id → run.Unsettled id
  keeps : ∀ id, (run.registry.transformer? id).isSome = true → (run'.registry.transformer? id).isSome = true

variable {quiet : Prop} {run run' run'' : Run}

theorem Extends.refl (quiet : Prop) (run : Run) : Extends quiet run run :=
  ⟨⟨[], rfl, fun _ => by simp [History.Quiet]⟩, fun _ h => h, fun _ h => h⟩

theorem Extends.trans (h : Extends quiet run run') (h' : Extends quiet run' run'') : Extends quiet run run'' := by
  obtain ⟨new, hnew, hq⟩ := h.events
  obtain ⟨new', hnew', hq'⟩ := h'.events
  refine ⟨⟨new' ++ new, by rw [hnew', hnew, append_assoc], fun q e he => ?_⟩, fun id hid => ?_, fun id hid => ?_⟩
  · exact (mem_append.1 he).elim (hq' q e) (hq q e)
  · exact h.settles id (h'.settles id hid)
  · exact h'.keeps id (h.keeps id hid)

theorem Extends.settled (h : Extends quiet run run') (hs : run.Settled) : run'.Settled :=
  fun id hid => hs id (h.settles id hid)

theorem Extends.of_quiet (h : Extends True run run') : Extends quiet run run' := by
  obtain ⟨new, hnew, hq⟩ := h.events
  exact ⟨⟨new, hnew, fun _ => hq trivial⟩, h.settles, h.keeps⟩

/-- Two runs that differ at most in their heaps and in what they report. -/
structure SameHistory (run run' : Run) : Prop where
  events : run'.events = run.events
  store : run'.store = run.store
  registry : run'.registry = run.registry
  modules : run'.modules = run.modules
  instances : run'.instances = run.instances

theorem SameHistory.trans (h : run.SameHistory run') (h' : run'.SameHistory run'') : run.SameHistory run'' :=
  ⟨h'.events.trans h.events, h'.store.trans h.store, h'.registry.trans h.registry, h'.modules.trans h.modules,
    h'.instances.trans h.instances⟩

theorem SameHistory.extends (h : run.SameHistory run') : Extends quiet run run' := by
  refine ⟨⟨[], by rw [h.events]; rfl, fun _ => by simp [History.Quiet]⟩, fun id hid => ?_, fun id hid => ?_⟩
  · unfold Unsettled at hid ⊢
    rw [h.store, h.registry] at hid
    exact hid
  · exact h.registry ▸ hid

/-- A run with a sound history and a good heap is sound. -/
theorem Sound.of_sameHistory (h : run.Sound) (same : run.SameHistory run') (heap : run'.heap.Good (Arises run.events)) :
    run'.Sound := by
  obtain ⟨events, store, registry, modules, instances⟩ := same
  constructor
  · exact events ▸ h.history
  · rw [store, events]; exact h.nextScope
  · rw [store, events]; exact h.nextFresh
  · rw [store, events]; exact h.bindings
  · rw [registry, events]; exact h.transformers
  · rw [registry, events]; exact h.outputScopes
  · rw [registry, events]; exact h.values
  · rw [events]; exact heap
  · rw [modules, events]; exact h.modules
  · rw [modules, registry]; exact h.exports
  · rw [instances, events]; exact h.instances

/-- A run that has done one thing more and holds what it held before. -/
theorem Sound.step {e : Event} (h : run.Sound) (fresh : ∀ s, e.scope? = some s → s = History.scopes run.events)
    (fits : e.Fits run.events) (events : run'.events = e :: run.events)
    (nextScope : run'.store.nextScope = History.scopes (e :: run.events))
    (nextFresh : run'.store.nextFresh = History.renamed (e :: run.events))
    (bindings : run'.store.bindings.toList = History.bindings (e :: run.events))
    (registry : run'.registry = run.registry) (heap : run'.heap = run.heap) (modules : run'.modules = run.modules)
    (instances : run'.instances = run.instances) : run'.Sound := by
  have old : ∀ p, Arises run.events p → Arises (e :: run.events) p := fun _ => Arises.old
  constructor
  · exact events ▸ h.history.cons fresh fits
  · rw [events]; exact nextScope
  · rw [events]; exact nextFresh
  · rw [events]; exact bindings
  · rw [registry, events]
    exact fun entry he => (h.transformers entry he).mono old
  · rw [registry, events]
    intro entry he o ho
    obtain ⟨id, hid⟩ := h.outputScopes entry he o ho
    exact ⟨id, mem_cons_of_mem _ hid⟩
  · rw [registry, events]
    exact fun entry he => (h.values entry he).mono old
  · rw [heap, events]
    exact h.heap.mono old
  · rw [modules, events]
    exact fun entry he => (h.modules entry he).append [e]
  · rw [modules, registry]
    exact h.exports
  · rw [instances, events]
    exact fun entry he field hf => (h.instances entry he field hf).mono old

end Run

/-- What is known stays known as a run goes on. -/
theorem Known.extend {q quiet : Prop} {l : List Content} {run run' : Run} (hl : Known q run.events l)
    (he : Run.Extends quiet run run') : Known q run'.events l := by
  obtain ⟨new, hnew, _⟩ := he.events
  exact hnew ▸ hl.append new

theorem Mode.Inside.extend {m : Mode} {run run' : Run} (hm : m.Inside run.events)
    (he : Run.Extends m.quiet run run') : m.Inside run'.events := by
  obtain ⟨new, hnew, hq⟩ := he.events
  exact hnew ▸ hm.append hq

namespace Expand

variable {α β : Type} {m : Mode} {l k : List Content} {Q : α → List Content} {R : β → List Content} {x : Expand α}

/-- Started in the run, the expansion fails and leaves a sound run, or its result and the run it leaves satisfy `P`. -/
abbrev Ends (run : Run) (x : Expand α) (P : α → Run → Prop) : Prop := Yields run x P fun _ run' => run'.Sound

theorem Ends.imp {run : Run} {P P' : α → Run → Prop} (hx : Ends run x P)
    (h : ∀ a run', P a run' → P' a run') : Ends run x P' := Yields.imp hx h fun _ _ he => he

/-- Started in a sound run of which `l` is known, the expansion leaves a sound run. When it succeeds, this comes after
the old one, and `Q` is known of the result. -/
def Sound (m : Mode) (l : List Content) (x : Expand α) (Q : α → List Content) : Prop :=
  ∀ run : Run, run.Sound → (m.settled → run.Settled) → m.Inside run.events → Known m.settled run.events l →
    Ends run x fun a run' => run'.Sound ∧ Run.Extends m.quiet run run' ∧ Known m.settled run'.events (Q a)

theorem Sound.pure {a : α} (h : Q a ⊆ l) : Sound m l (pure a) Q :=
  fun run hr _ _ hl => ⟨hr, .refl _ run, hl.mono h⟩

theorem Sound.bind {f : α → Expand β} (hx : Sound m l x Q) (hf : ∀ a, Sound m (Q a ++ l) (f a) R) :
    Sound m l (x >>= f) R := by
  intro run hr hs hm hl
  refine (hx run hr hs hm hl).bind ?_
  rintro a run' ⟨hr', he, hQ⟩
  refine (hf a run' hr' (fun q => he.settled (hs q)) (hm.extend he) (hQ.union (hl.extend he))).imp ?_
  rintro b run'' ⟨hr'', he', hR⟩
  exact ⟨hr'', he.trans he', hR⟩

/-- More may be known before and less is asked for after. What was known is still known then. -/
theorem Sound.weaken {Q' : α → List Content} (hx : Sound m l x Q) (hl : l ⊆ k)
    (hQ : ∀ a, Q' a ⊆ Q a ++ k) : Sound m k x Q' := by
  intro run hr hs hm hk
  refine (hx run hr hs hm (hk.mono hl)).imp ?_
  rintro a run' ⟨hr', he, hknown⟩
  exact ⟨hr', he, (hknown.union (hk.extend he)).mono (hQ a)⟩

theorem Sound.fail {fault : ExpandFault} {site : Site} : Sound m l (fail fault site) Q := fun _ hr _ _ _ => hr

theorem Sound.exhausted : Sound m l exhausted Q := fun _ hr _ _ _ => hr

theorem Sound.ite {c : Prop} [Decidable c] {y : Expand α} (hx : c → Sound m l x Q) (hy : ¬ c → Sound m l y Q) :
    Sound m l (if c then x else y) Q := by
  split
  · next h => exact hx h
  · next h => exact hy h

/-- Where identifiers do not count, nothing need be known of them. -/
theorem Sound.unread (hx : Sound ⟨m.quiet, False, m.regions⟩ l x Q) (hl : l.filter Content.isPiece ⊆ k) :
    Sound m k x fun a => (Q a).filter Content.isPiece := by
  intro run hr _ hm hk
  have hk' : Known False run.events l := by
    intro c hc
    cases c with
    | piece p => exact hk _ (hl (mem_filter.2 ⟨hc, rfl⟩))
    | use ident => exact fun h => h.elim
  refine (hx run hr (fun h => h.elim) hm hk').imp ?_
  rintro a run' ⟨hr', he, hQ⟩
  refine ⟨hr', he, fun c hc => ?_⟩
  obtain ⟨hc, hpiece⟩ := mem_filter.1 hc
  cases c with
  | piece p => exact hQ _ hc
  | use ident => cases hpiece

theorem Sound.mapM {xs : List α} {f : α → Expand β} (hf : ∀ a ∈ xs, Sound m l (f a) R) :
    Sound m l (xs.mapM f) fun bs => bs.flatMap R := by
  induction xs with
  | nil => exact .pure (nil_subset _)
  | cons a xs ih =>
    rw [mapM_cons]
    refine .bind (hf a mem_cons_self) fun b => ?_
    refine .bind ((ih fun c hc => hf c (mem_cons_of_mem _ hc)).weaken
      (subset_append_right _ _) fun _ => subset_append_left _ _) fun bs => .pure ?_
    rw [flatMap_cons]
    exact append_subset.2 ⟨fun _ h => mem_append_right _ (mem_append_left _ h),
      subset_append_left _ _⟩

end Expand

/-- The content of a stream. -/
def Stream.content (s : Stream) : List Content := Content.ofTokens s.before ++ Content.ofTokens s.after

namespace Parse

variable {α β : Type} {m : Mode} {l k : List Content} {Q : α → List Content} {R : β → List Content} {run : Run}
  {stream : Stream} {x : Parse α} {P' : β × Stream → Run → Prop}

theorem ends_get_bind {f : Stream → Parse β}
    (hf : Expand.Ends run (f stream stream) P') : Expand.Ends run ((get >>= f) stream) P' := hf

/-- A run and a stream come after others. If nothing was run and called, the tokens to come are what is left of those
there were; they may have lost the scopes of regions and of what came later. -/
structure Follows (quiet : Prop) (regions : List ScopeId) (run : Run) (stream : Stream) (run' : Run)
    (stream' : Stream) : Prop where
  later : Run.Extends quiet run run'
  rest : quiet → (∀ e ∈ run'.events, e.isCall = true → e ∈ run.events) →
    Token.Rest (fun x => x < History.scopes run.events ∧ x ∉ regions) stream.after stream'.after

namespace Follows

variable {quiet : Prop} {regions : List ScopeId} {run' run'' : Run} {stream' stream'' : Stream}

theorem of_suffix (he : Run.Extends quiet run run') (h : stream'.after <:+ stream.after) :
    Follows quiet regions run stream run' stream' := ⟨he, fun _ _ => .of_suffix h⟩

theorem of_quiet (h : Follows True [] run stream run' stream') : Follows quiet regions run stream run' stream' :=
  ⟨h.later.of_quiet, fun _ hcalls => (h.rest trivial hcalls).mono fun _ hx => ⟨hx.1, not_mem_nil⟩⟩

theorem trans (h : Follows quiet regions run stream run' stream') (h' : Follows quiet regions run' stream' run'' stream'') :
    Follows quiet regions run stream run'' stream'' := by
  refine ⟨h.later.trans h'.later, fun hq hcalls => ?_⟩
  obtain ⟨new, hnew, -⟩ := h.later.events
  obtain ⟨new', hnew', -⟩ := h'.later.events
  have hrest := h.rest hq fun e he => hcalls e (by simp [hnew', he])
  have hrest' := h'.rest hq fun e he hc => by simp [hnew, hcalls e he hc]
  refine hrest.trans (hrest'.mono fun x hx => ⟨Nat.lt_of_lt_of_le hx.1 ?_, hx.2⟩)
  rw [hnew]
  exact History.scopes_le_append

end Follows

/-- Reading is sound from every stream whose content is known. Then that of the stream it leaves is known as well, and
the stream follows. -/
def Sound (m : Mode) (l : List Content) (x : Parse α) (Q : α → List Content) : Prop :=
  ∀ (stream : Stream) (run : Run), run.Sound → (m.settled → run.Settled) → m.Inside run.events →
    Known m.settled run.events (stream.content ++ l) → Expand.Ends run (x stream) fun r run' =>
      run'.Sound ∧ Follows m.quiet m.regions run stream run' r.2 ∧ Known m.settled run'.events (Q r.1 ++ r.2.content)

theorem Sound.expand (hx : Sound m l x Q) (stream : Stream) :
    Expand.Sound m (stream.content ++ l) (x stream) fun r => Q r.1 ++ r.2.content :=
  fun run hr hs hm hl => (hx stream run hr hs hm hl).imp fun _ _ h => ⟨h.1, h.2.1.later, h.2.2⟩

/-- Reading that leaves the end of the tokens. -/
theorem Sound.of_suffix (hx : ∀ stream, Expand.Sound m (stream.content ++ l) (x stream) fun r => Q r.1 ++ r.2.content)
    (h : ∀ stream run r run', x stream run = .ok r run' → r.2.after <:+ stream.after) : Sound m l x Q :=
  fun stream run hr hs hm hl => (hx stream run hr hs hm hl).keep_eq.imp
    (fun r run' hr => ⟨hr.2.1, .of_suffix hr.2.2.1 (h stream run r run' hr.1), hr.2.2.2⟩) fun _ _ he => he

/-- Sound reading in a run that comes after another one. -/
theorem Sound.ends (hx : Sound m l x Q) {run' : Run} {stream' : Stream} (hr : run'.Sound)
    (hs : m.settled → run'.Settled) (hm : m.Inside run'.events) (he : Follows m.quiet m.regions run stream run' stream')
    (hk : Known m.settled run'.events (stream'.content ++ l)) : Expand.Ends run' (x stream') fun r run'' =>
      run''.Sound ∧ Follows m.quiet m.regions run stream run'' r.2 ∧ Known m.settled run''.events (Q r.1 ++ r.2.content) :=
  (hx stream' run' hr hs hm hk).imp fun _ _ h => ⟨h.1, he.trans h.2.1, h.2.2⟩

theorem Sound.pure {a : α} (h : Q a ⊆ l) : Sound m l (pure a) Q :=
  .of_suffix (fun _ => Expand.Sound.pure (append_subset.2
    ⟨subset_append_of_subset_right _ h, subset_append_left _ _⟩)) fun _ _ _ _ h => by
      cases h
      exact suffix_refl _

theorem Sound.weaken {Q' : α → List Content} (hx : Sound m l x Q) (hl : l ⊆ k)
    (hQ : ∀ a, Q' a ⊆ Q a ++ k) : Sound m k x Q' := by
  intro stream run hr hs hm hk
  refine (hx stream run hr hs hm (hk.mono ?_)).imp fun r run' h => ⟨h.1, h.2.1, ?_⟩
  · exact append_subset.2 ⟨subset_append_left _ _, subset_append_of_subset_right _ hl⟩
  · refine (h.2.2.union (hk.extend h.2.1.later)).mono ?_
    intro c hc
    have := @hQ r.1 c
    simp only [mem_append] at hc this ⊢
    grind

theorem Sound.bind {f : α → Parse β} (hx : Sound m l x Q) (hf : ∀ a, Sound m (Q a ++ l) (f a) R) :
    Sound m l (x >>= f) R := by
  intro stream run hr hs hm hl
  refine yields_bind (hx stream run hr hs hm hl) ?_
  rintro a stream' run' ⟨hr', he, hk⟩
  refine (hf a).ends hr' (fun q => he.later.settled (hs q)) (hm.extend he.later) he ?_
  refine (hk.union (hl.extend he.later)).mono ?_
  intro c hc
  simp only [mem_append] at hc ⊢
  grind

theorem Sound.map {f : α → β} (hx : Sound m l x Q) (h : ∀ a, R (f a) ⊆ Q a ++ l) : Sound m l (f <$> x) R :=
  Sound.bind hx fun a => .pure (h a)

/-- Reading that runs no code and depends on no region is sound in every mode. -/
theorem Sound.of_quiet (hx : Sound ⟨True, m.settled, []⟩ l x Q) : Sound m l x Q :=
  fun stream run hr hs _ hk => (hx stream run hr hs nofun hk).imp fun _ _ h => ⟨h.1, h.2.1.of_quiet, h.2.2⟩

theorem Sound.lift {x : Expand α} (hx : Expand.Sound m l x Q) : Sound m l (liftM x : Parse α) Q := by
  refine .of_suffix (fun stream => ?_) fun stream run r run' h => ?_
  · refine Expand.Sound.bind (hx.weaken (subset_append_right _ _) fun _ => subset_append_left _ _) fun a => ?_
    refine Expand.Sound.pure ?_
    intro c hc
    simp only [mem_append] at hc ⊢
    grind
  · obtain ⟨a, _, -, h⟩ := Expand.bind_eq_ok h
    cases h
    exact suffix_refl _

theorem Sound.on {x : Parse α} {tokens : List Token} (hx : Sound m l x Q) (ht : Content.ofTokens tokens ⊆ l) :
    Expand.Sound m l (on tokens x) fun r => Q r.1 ++ r.2.content := by
  refine (hx.expand { after := tokens }).weaken ?_ fun _ => subset_append_left _ _
  exact append_subset.2 ⟨append_subset.2 ⟨nil_subset _, ht⟩, fun _ h => h⟩

theorem Sound.ite {c : Prop} [Decidable c] {y : Parse α} (hx : c → Sound m l x Q) (hy : ¬ c → Sound m l y Q) :
    Sound m l (if c then x else y) Q := by
  split
  · next h => exact hx h
  · next h => exact hy h

end Parse

end Hygiene
