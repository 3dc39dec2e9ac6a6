import Hygiene.Proofs.Expand.Recall
import Hygiene.Proofs.Layout.Unplaced

/-!
# Reading the same tokens from two texts

`Expand.Matches R x x'` compares two computations: when they are started in runs that agree up to sites, and the first
comes upon no declaration of a transformer and no import, they end alike, with results related by `R` or with the same
fault, and the runs agree again. A declaration or an import is taken down first and never forgotten, so nothing is
claimed there.
-/

namespace Hygiene

open HasSites (unplaced)

/-- The run has come upon no declaration of a transformer and has begun no import. -/
structure Run.SelfContained (run : Run) : Prop where
  undeclared : ∀ binding, .declaring binding ∉ run.events
  unrequested : run.requests = []

/-- What a self-contained run recalls was self-contained. -/
theorem Run.SelfContained.of_recalls {run run' : Run} (h : run'.SelfContained) (hr : run.Recalls run') : run.SelfContained where
  undeclared binding hmem := h.undeclared binding (hr.events.subset hmem)
  unrequested := by
    have hrequests := hr.requests
    rwa [h.unrequested, List.suffix_nil] at hrequests

/-- What the result of a run tells of it: the count of invocations, their origins and the reports. -/
def Run.told (run : Run) : Nat × List Origin × List Diagnostic := (run.expansions, run.origins, run.diagnostics)

/-- The two runs have the same bindings but for their sites, the same lambdas, invocations and reports, and no
transformers. -/
structure Run.Alike (run run' : Run) : Prop where
  store : unplaced run.store = unplaced run'.store
  nextLambda : run.nextLambda = run'.nextLambda
  told : run.told = run'.told
  bare : run.registry.transformers = []
  bare' : run'.registry.transformers = []

namespace Expand

variable {α β : Type} {R : α → α → Prop} {S : β → β → Prop}

/-- The two computations end with related results, or with the same fault; the runs they leave agree. -/
def EndAlike (R : α → α → Prop) : EStateM.Result ExpandError Run α → EStateM.Result ExpandError Run α → Prop
  | .ok a run, .ok a' run' => R a a' ∧ run.Alike run'
  | .error e run, .error e' run' => e.fault = e'.fault ∧ run.Alike run'
  | _, _ => False

/-- Started in runs that agree, the two computations end alike, unless the first comes upon the declaration of a
transformer or an import. -/
structure Matches (R : α → α → Prop) (x x' : Expand α) : Prop where
  recalls : x.Recalls
  results : ∀ a, x.MayGive a → ∃ a', R a a'
  same : ∀ {run run' : Run}, run.Alike run' → (finalRun (x run)).SelfContained → EndAlike R (x run) (x' run')

namespace Matches

theorem pure {a a' : α} (h : R a a') : Matches R (Pure.pure a) (Pure.pure a') where
  recalls := .pure
  results _ := fun ⟨_, _, heq⟩ => by
    cases heq
    exact ⟨a', h⟩
  same hrun _ := ⟨h, hrun⟩

theorem fail {fault : ExpandFault} {site site' : Site} : Matches R (fail fault site) (fail fault site') :=
  ⟨.fail trivial, nofun, fun hrun _ => ⟨rfl, hrun⟩⟩

theorem exhausted : Matches R exhausted exhausted := ⟨.exhausted trivial, nofun, fun hrun _ => ⟨rfl, hrun⟩⟩

/-- Matching computations go on with related values. -/
theorem bind {x x' : Expand α} {f f' : α → Expand β} (hx : Matches R x x') (hf : ∀ a a', R a a' → Matches S (f a) (f' a')) :
    Matches S (x >>= f) (x' >>= f') where
  recalls := by
    refine .bind_mayGive hx.recalls fun a ha => ?_
    obtain ⟨a', hr⟩ := hx.results a ha
    exact (hf a a' hr).recalls
  results b := by
    rintro ⟨run, run', heq⟩
    obtain ⟨a, run₁, hfirst, hrest⟩ := Expand.bind_eq_ok heq
    obtain ⟨a', hr⟩ := hx.results a ⟨run, run₁, hfirst⟩
    exact (hf a a' hr).results b ⟨run₁, run', hrest⟩
  same := by
    intro run run' hrun hself
    simp only [Bind.bind, EStateM.bind] at hself ⊢
    cases heq : x run with
    | error e run₁ =>
      rw [heq] at hself
      have hend := hx.same hrun (by rwa [heq])
      rw [heq] at hend
      cases heq' : x' run' with
      | ok a' run₁' =>
        rw [heq'] at hend
        cases hend
      | error e' run₁' =>
        rw [heq'] at hend
        exact hend
    | ok a run₁ =>
      rw [heq] at hself
      obtain ⟨a', hr⟩ := hx.results a ⟨run, run₁, heq⟩
      have hend := hx.same hrun (by
        rw [heq]
        exact Run.SelfContained.of_recalls hself ((hf a a' hr).recalls.final run₁))
      rw [heq] at hend
      cases heq' : x' run' with
      | error e' run₁' =>
        rw [heq'] at hend
        cases hend
      | ok a' run₁' =>
        rw [heq'] at hend
        exact (hf a a' hend.1).same hend.2 hself

end Matches

/-! ### The state of a run -/

theorem matches_record (event event' : Event) : Matches Eq (record event) (record event') where
  recalls := recalls_record event
  results _ _ := ⟨_, rfl⟩
  same hrun _ := ⟨rfl, hrun.store, hrun.nextLambda, hrun.told, hrun.bare, hrun.bare'⟩

theorem matches_freshScope (event event' : ScopeId → Event) : Matches Eq (freshScope event) (freshScope event') where
  recalls := fun run => ⟨List.suffix_cons _ _, List.suffix_refl _⟩
  results _ _ := ⟨_, rfl⟩
  same {run run'} hrun _ := by
    have hscope : (unplaced run.store).nextScope = (unplaced run'.store).nextScope := by rw [hrun.store]
    have hstore : (unplaced run.store).freshScope.2 = (unplaced run'.store).freshScope.2 := by rw [hrun.store]
    exact ⟨hscope, hstore, hrun.nextLambda, hrun.told, hrun.bare, hrun.bare'⟩

theorem matches_bindVariable (ident : Token) : Matches Eq (bindVariable ident) (bindVariable (unplaced ident)) := by
  have heq : ∀ ident, bindVariable ident = (bind ident .declared true >>= fun _ => Pure.pure () : Expand Unit) := fun _ => rfl
  rw [heq, heq]
  refine .bind (R := Eq) ⟨.inert (inert_bind ident _ _), fun _ _ => ⟨_, rfl⟩, fun {run run'} hrun _ => ?_⟩ fun _ _ _ => .pure rfl
  have hbind := Store.bind_unplaced run.store ident .declared true
  rw [hrun.store, ← Token.unplaced_unplaced, Store.bind_unplaced] at hbind
  obtain ⟨hid, hstore⟩ := Prod.mk.injEq .. ▸ hbind
  exact ⟨hid.symm, hstore.symm, hrun.nextLambda, hrun.told, hrun.bare, hrun.bare'⟩

theorem matches_freshLambda : Matches Eq freshLambda freshLambda where
  recalls := .inert inert_freshLambda
  results _ _ := ⟨_, rfl⟩
  same hrun _ := ⟨hrun.nextLambda, hrun.store, congrArg (· + 1) hrun.nextLambda, hrun.told, hrun.bare, hrun.bare'⟩

end Expand

/-! ### Readers -/

/-- The second ones are the first ones without sites. -/
def Likeness.unplaced : Likeness where
  token t t' := HasSites.unplaced t = t'
  mark m m' := m.unplaced = m'
  site _ site' := .unknown = site'
  unknown := rfl
  cover := by
    rintro a _ b _ rfl rfl
    rfl
  mark_site := by
    rintro m _ rfl
    rfl
  atom := by
    rintro m a _ rfl
    exact ⟨_, rfl, Token.unplaced_atom m a⟩
  nest := by
    rintro m shape ts _ rfl
    exact ⟨_, _, rfl, List.forall₂_map_right_iff.2 (List.forall₂_same.2 fun _ _ => rfl), Token.unplaced_nest m shape ts⟩
  text := by
    rintro t _ rfl
    exact (Token.text_unplaced t).symm
  addScope := by
    rintro scope _ t _ rfl rfl
    exact (Token.addScope_unplaced t scope).symm
  removeScope := by
    rintro scope _ t _ rfl rfl
    exact Token.unplaced_mapScopes t _

/-- Readers match whose second one reads the tokens of the first without sites. -/
def matching : Parallel .unplaced where
  Rel := Expand.Matches
  pure_rel := .pure
  bind_rel := .bind
  fail _ _ _ _ := .fail
  exhausted := .exhausted
  record _ := Expand.matches_record _ _
  freshScope := Expand.matches_freshScope _ _
  bindVariable := by
    rintro t _ rfl
    exact Expand.matches_bindVariable t
  freshLambda := Expand.matches_freshLambda

theorem Token.alike_unplaced (ts : List Token) : List.Forall₂ Likeness.unplaced.token ts (unplaced ts) :=
  List.forall₂_map_right_iff.2 (List.forall₂_same.2 fun _ _ => rfl)

/-- A stream without its sites. -/
theorem Stream.alike_unplaced (stream : Stream) : stream.Alike .unplaced (unplaced stream) :=
  ⟨Token.alike_unplaced _, Token.alike_unplaced _⟩

/-- Without transformers nothing is invoked. -/
theorem matches_invokeHere (s : Setup) : matching.Reads Eq (Parse.invokeHere s) (Parse.invokeHere s) := by
  have hlookup : ∀ {run : Run} (stream : Stream), run.registry.transformers = [] →
      Parse.invokeHere s stream run = .ok (false, stream) run := by
    intro run stream hbare
    have hnone : (stream.after.head?.bind fun name => (run.registry.lookup run.store name).map (name, ·)) = none := by
      refine Option.bind_eq_none_iff.2 fun name _ => ?_
      rw [Option.map_eq_none_iff, Option.eq_none_iff_forall_ne_some]
      intro t ht
      obtain ⟨id, hid⟩ := Registry.mem_of_lookup ht
      rw [hbare] at hid
      cases hid
    rw [Parse.invokeHere_eq, hnone]
  refine fun stream stream' hs => ⟨(recallLaw s).invokeHere stream, fun r _ => ⟨(r.1, unplaced r.2), rfl, r.2.alike_unplaced⟩, ?_⟩
  intro run run' hrun _
  rw [hlookup stream hrun.bare, hlookup _ hrun.bare']
  exact ⟨⟨rfl, hs⟩, hrun⟩

end Hygiene
