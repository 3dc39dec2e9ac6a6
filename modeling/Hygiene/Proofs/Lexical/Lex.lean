import Hygiene.Proofs.Expand.Action
import Hygiene.Proofs.Lexical.Growth

/-!
# Reading in a region

`Expand.Lex` says of an expansion without transformers what it does while the tokens of a region are read: parts that
are placed in the region go in and come out, and what those declare has been declared under its scopes. That no
transformer is bound is known only at the end of a run. So the judgement says first that a run which has none afterwards
had none before, and the rest under a condition `φ` that is gathered along the way.
-/

namespace Hygiene

open Outline

/-- No binding of the run stands for a transformer. -/
def Run.Plain (run : Run) : Prop := ∀ b ∈ run.store.bindings.toList, b.kind.isTransformer = false

namespace Expand

variable {α β : Type} {d : List Token → List Key} {c b : ScopeSet} {φ ψ : Prop} {k l : List Outline}
  {Q : α → Prop} {Q' : β → Prop} {L : α → List Outline} {L' : β → List Outline} {x : Expand α} {a : α} {ident : Token}
  {f : ScopeId → Expand α}

/-- Started in a region with the scopes `c`, in which the parts `k` are placed, an expansion that succeeds without
transformers leaves the parts `L a` placed there, and what they declare beyond `k` declared under `c`. -/
def Lex (d : List Token → List Key) (c : ScopeSet) (φ : Prop) (k : List Outline) (x : Expand α) (Q : α → Prop)
    (L : α → List Outline) : Prop :=
  ∀ run a run', x run = .ok a run' → run'.Plain → run.Plain ∧
    (φ → ∀ R : Regions, R.Valid run → R.Open run c → PlacedAll d R run.store c k →
      Q a ∧ ∃ R' ks, Regions.Valid R' run' ∧ R.Step c run R' run' ks ∧ keys (L a) = keys k ++ ks ∧
        PlacedAll d R' run'.store c (L a))

/-- What a step leaves placed, the next one starts from. -/
theorem Lex.bind {f : α → Expand β} (hx : Lex d c φ k x Q L)
    (hf : ∀ a, Lex d c (Q a ∧ φ) (L a) (f a) Q' L') : Lex d c φ k (x >>= f) Q' L' := by
  intro run b run₂ h plain
  obtain ⟨a, run₁, h₁, h₂⟩ := bind_eq_ok h
  obtain ⟨plain₁, post₂⟩ := hf a run₁ b run₂ h₂ plain
  obtain ⟨plain₀, post₁⟩ := hx run a run₁ h₁ plain₁
  refine ⟨plain₀, fun hφ R hv ho hk => ?_⟩
  obtain ⟨hQ, R₁, ks₁, hv₁, step₁, keys₁, placed₁⟩ := post₁ hφ R hv ho hk
  obtain ⟨hQ', R₂, ks₂, hv₂, step₂, keys₂, placed₂⟩ := post₂ ⟨hQ, hφ⟩ R₁ hv₁ (ho.step step₁) placed₁
  refine ⟨hQ', R₂, ks₁ ++ ks₂, hv₂, step₁.trans step₂ (ho.lt hv), ?_, placed₂⟩
  rw [keys₂, keys₁, List.append_assoc]

/-- Nothing is read: the parts are those there were, but for what is placed whatever the regions are. -/
theorem Lex.pure {a : α} (hQ : φ → Q a) (hkeys : keys (L a) = keys k)
    (hL : φ → ∀ R store, PlacedAll d R store c k → PlacedAll d R store c (L a)) : Lex d c φ k (pure a) Q L := by
  intro run b run' h plain
  cases h
  refine ⟨plain, fun hφ R hv _ hk => ⟨hQ hφ, R, [], hv, .refl c R run, ?_, hL hφ R _ hk⟩⟩
  rw [hkeys, List.append_nil]

theorem Lex.done (hQ : φ → Q a) (h : L a = k) : Lex d c φ k (Pure.pure a) Q L :=
  .pure hQ (by rw [h]) fun _ _ _ hk => h ▸ hk

theorem Lex.here (h : L a = k) : Lex d c φ k (Pure.pure a) (fun _ => True) L :=
  .done (fun _ => trivial) h

/-- What the expansion gives is placed behind the parts that are there. -/
abbrev Adds (d : List Token → List Key) (c : ScopeSet) (φ : Prop) (k : List Outline) (x : Expand α)
    (L : α → List Outline) : Prop := Lex d c φ k x (fun _ => True) fun a => k ++ L a

/-- A placement may be restated when it declares the same. -/
theorem Lex.conseq {Q₁ : α → Prop} {L₁ : α → List Outline} (hx : Lex d c ψ k x Q L) (hφ : φ → ψ)
    (hQ : ∀ a, φ → Q a → Q₁ a) (hkeys : ∀ a, φ → Q a → keys (L₁ a) = keys (L a))
    (hL : ∀ a R store, φ → Q a → PlacedAll d R store c (L a) → PlacedAll d R store c (L₁ a)) : Lex d c φ k x Q₁ L₁ := by
  intro run a run' h plain
  obtain ⟨plain₀, post⟩ := hx run a run' h plain
  refine ⟨plain₀, fun hp R hv ho hk => ?_⟩
  obtain ⟨hq, R', ks, hv', step, hks, placed⟩ := post (hφ hp) R hv ho hk
  exact ⟨hQ a hp hq, R', ks, hv', step, by rw [hkeys a hp hq, hks], hL a R' _ hp hq placed⟩

theorem Lex.assume (hx : Lex d c ψ k x Q L) (hφ : φ → ψ) : Lex d c φ k x Q L :=
  hx.conseq hφ (fun _ _ h => h) (fun _ _ _ => rfl) fun _ _ _ _ _ h => h

/-- Other parts may stand before those that go in. -/
theorem Lex.after (hx : Lex d c φ l x Q L) : Lex d c φ (k ++ l) x Q fun a => k ++ L a := by
  intro run a run' h plain
  obtain ⟨plain₀, post⟩ := hx run a run' h plain
  refine ⟨plain₀, fun hp R hv ho hk => ?_⟩
  obtain ⟨hk, hl⟩ := placedAll_append.1 hk
  obtain ⟨hq, R', ks, hv', step, hks, placed⟩ := post hp R hv ho hl
  refine ⟨hq, R', ks, hv', step, ?_, placedAll_append.2 ⟨step.placedAll hk, placed⟩⟩
  rw [keys_append, keys_append, hks, List.append_assoc]

/-- Parts that are placed already stay placed. -/
theorem Lex.frame (hx : Lex d c φ [] x Q L) : Lex d c φ k x Q fun a => k ++ L a := by
  have h := hx.after (k := k)
  rwa [List.append_nil] at h

/-- Other parts may stand behind those that go in, when nothing is declared. -/
theorem Lex.before (hx : Lex d c φ k x Q L) (hkeys : ∀ a, Q a → keys (L a) = keys k) :
    Lex d c φ (k ++ l) x Q fun a => L a ++ l := by
  intro run a run' h plain
  obtain ⟨plain₀, post⟩ := hx run a run' h plain
  refine ⟨plain₀, fun hp R hv ho hk => ?_⟩
  obtain ⟨hk, hl⟩ := placedAll_append.1 hk
  obtain ⟨hq, R', ks, hv', step, hks, placed⟩ := post hp R hv ho hk
  obtain rfl : ks = [] := List.append_cancel_left ((hks.symm.trans (hkeys a hq)).trans (List.append_nil _).symm)
  refine ⟨hq, R', [], hv', step, ?_, placedAll_append.2 ⟨placed, step.placedAll hl⟩⟩
  rw [keys_append, keys_append, hkeys a hq, List.append_nil]

theorem Lex.fail {fault : ExpandFault} {site : Site} : Lex d c φ k (fail fault site) Q L :=
  fun _ _ _ h => nomatch h

theorem Lex.exhausted : Lex d c φ k exhausted Q L := fun _ _ _ h => nomatch h

theorem Lex.ite {p : Prop} [Decidable p] {y : Expand α} (hx : p → Lex d c φ k x Q L)
    (hy : ¬ p → Lex d c φ k y Q L) : Lex d c φ k (if p then x else y) Q L := by
  split
  · next h => exact hx h
  · next h => exact hy h

/-- Where nothing is left to be expanded it does not matter what bodies declare. -/
theorem Lex.of_complete (d' : List Token → List Key) (hx : Lex d' c φ [] x (fun a => CompleteAll (L a)) L) :
    Lex d c φ [] x (fun a => CompleteAll (L a)) L := by
  intro run a run' h plain
  obtain ⟨plain₀, post⟩ := hx run a run' h plain
  refine ⟨plain₀, fun hφ R hv ho _ => ?_⟩
  obtain ⟨hcomplete, R', ks, hv', step, hkeys, placed⟩ := post hφ R hv ho trivial
  exact ⟨hcomplete, R', ks, hv', step, hkeys, placed.of_complete _ hcomplete⟩

theorem Lex.discard {x : Expand α} (hx : Lex d c φ k x Q fun _ => l) :
    Lex d c φ k (discard x) (fun _ => True) fun _ => l := by
  have heq : Functor.discard x = (x >>= fun _ => Pure.pure () : Expand Unit) := rfl
  rw [heq]
  exact .bind hx fun _ => .here rfl

/-- The expansion leaves bindings, scopes and modules as they are. -/
def Still (x : Expand α) : Prop := ∀ run a run', x run = .ok a run' → run'.store = run.store ∧ run'.modules = run.modules

/-- What leaves regions alone leaves terms placed. -/
theorem Still.lex (hx : Still x) : Lex d c φ k x (fun _ => True) fun _ => k := by
  intro run a run' h plain
  obtain ⟨store, modules⟩ := hx run a run' h
  refine ⟨fun b hb => plain b (store ▸ hb), fun _ R hv _ hk => ?_⟩
  refine ⟨trivial, R, [], hv.of_same store, .of_same store modules, (List.append_nil _).symm, ?_⟩
  rw [store]
  exact hk

theorem Still.get : Still get := by
  intro run b run' h
  cases h
  exact ⟨rfl, rfl⟩

theorem Still.modify {f : Run → Run} (store : ∀ run, (f run).store = run.store)
    (modules : ∀ run, (f run).modules = run.modules) : Still (modify f) := by
  intro run b run' h
  cases h
  exact ⟨store run, modules run⟩

/-- A binding is declared in the region. -/
theorem lex_bind {kind : BindingKind} {rename : Bool} (h : φ → ident.scopes = c ∧ ident.isIdent = true) :
    Adds d c φ k (bind ident kind rename) fun _ => [declare ident] := by
  intro run id run' hok plain
  rw [bind_eq] at hok
  cases hok
  refine ⟨fun b hb => plain b (by simp [afterBind, hb]), fun hφ R hv ho hk => ?_⟩
  obtain ⟨hscopes, hident⟩ := h hφ
  have hbind : R.Valid (afterBind run ident kind rename) ∧ R.Step c run R (afterBind run ident kind rename) [ident.key] :=
    hv.bind (b := newBinding run ident kind rename) ho hscopes rfl rfl rfl rfl
  obtain ⟨hv', step⟩ := hbind
  refine ⟨trivial, R, _, hv', step, ?_, placedAll_append.2 ⟨step.placedAll hk, ⟨hscopes, hident⟩, trivial⟩⟩
  rw [keys_append]
  rfl

/-- A variable is declared in the region. -/
theorem lex_bindVariable (h : φ → ident.scopes = c ∧ ident.isIdent = true) :
    Adds d c φ k (bindVariable ident) fun _ => [declare ident] := Lex.discard (lex_bind h)

/-- What is read in a new region, seen from outside of it. The region lies in one with the scopes `b`. -/
theorem Lex.inside {F : ScopeId} {run₁ run₂ : Run} (h : x run₁ = .ok a run₂)
    (plain : run₂.Plain) (hx : Lex d (b.insert F) ψ [] x Q L) (run₀ : Run) (hF : run₀.store.nextScope = F)
    (next : run₁.store.nextScope = F + 1) (bindings : run₁.store.bindings = run₀.store.bindings)
    (modules : run₁.modules = run₀.modules) :
    run₀.Plain ∧ (ψ → ∀ R : Regions, R.Valid run₀ → (∀ x ∈ b, x < F) → Q a ∧ ∃ R' : Regions, R'.Valid run₂ ∧
      R.Grows run₀ R' run₂ ∧ PlacedIn d R' run₂.store b F (L a)) := by
  subst hF
  obtain ⟨plain₁, post⟩ := hx run₁ a run₂ h plain
  refine ⟨fun b hb => plain₁ b (bindings ▸ hb), fun hψ R hv hb => ?_⟩
  obtain ⟨hQ, R₂, ks, hv₂, step, hkeys, placed⟩ := post hψ _ (hv.opened hb next bindings) (Regions.open_fresh next) trivial
  rw [keys_nil, List.nil_append] at hkeys
  subst hkeys
  exact ⟨hQ, step.close hv hb next bindings modules hv₂ placed⟩

theorem freshScope_eq (event : ScopeId → Event) (run : Run) : freshScope event run = .ok run.store.nextScope
    { run with
      store := { run.store with nextScope := run.store.nextScope + 1 }
      events := event run.store.nextScope :: run.events } := rfl

/-- What is read in a new region is a scope of the region around it. -/
theorem Lex.region {event : ScopeId → Event} (hf : ∀ F, Lex d (c.insert F) ((∀ x ∈ c, x < F) ∧ φ) [] (f F) Q L) :
    Lex d c φ k (freshScope event >>= f) Q fun a => k ++ [scope (L a)] := by
  refine Lex.frame fun run a run' h plain => ?_
  obtain ⟨F, run₁, hfresh, h⟩ := bind_eq_ok h
  rw [freshScope_eq] at hfresh
  cases hfresh
  obtain ⟨plain₀, post⟩ := Lex.inside h plain (hf run.store.nextScope) run rfl rfl rfl rfl
  refine ⟨plain₀, fun hφ R hv ho _ => ?_⟩
  obtain ⟨hQ, R', hv', grows, hin⟩ := post ⟨ho.lt hv, hφ⟩ R hv (ho.lt hv)
  exact ⟨hQ, R', [], hv', grows.step ho, rfl, placed_scope.2 ⟨_, hin⟩, trivial⟩

/-- A declaration is made in the region around a new one. -/
theorem Lex.declaring {event : ScopeId → Event} {g : ScopeId → Expand Unit}
    (hident : φ → ident.scopes = c ∧ ident.isIdent = true) (hg : ∀ F, Still (g F))
    (hf : ∀ F, Lex d (c.insert F) ((∀ x ∈ c, x < F) ∧ φ) [] (f F) Q L) :
    Lex d c φ k (freshScope event >>= fun F => g F >>= fun _ => bindVariable ident >>= fun _ => f F) Q
      fun a => k ++ [declare ident, scope (L a)] := by
  refine Lex.frame fun run a run' h plain => ?_
  obtain ⟨F, run₁, hfresh, h⟩ := bind_eq_ok h
  rw [freshScope_eq] at hfresh
  cases hfresh
  obtain ⟨_, run₂, hstill, h⟩ := bind_eq_ok h
  obtain ⟨store, modules⟩ := hg _ _ _ _ hstill
  obtain ⟨_, run₃, hbind, h⟩ := bind_eq_ok h
  obtain ⟨id, run₄, hbind, hunit⟩ := bind_eq_ok (x := Expand.bind ident .declared true) (f := fun _ => Pure.pure ()) hbind
  cases hunit
  rw [bind_eq] at hbind
  cases hbind
  let run₀ : Run := { afterBind run₂ ident .declared true with
    store := { (afterBind run₂ ident .declared true).store with nextScope := run.store.nextScope } }
  have next : (afterBind run₂ ident .declared true).store.nextScope = run.store.nextScope + 1 := by
    show run₂.store.nextScope = _
    rw [store]
  have bindings : run₀.store.bindings = run.store.bindings.push (newBinding run₂ ident .declared true) := by
    show run₂.store.bindings.push _ = _
    rw [store]
  obtain ⟨plain₀, post⟩ := Lex.inside h plain (hf run.store.nextScope) run₀ rfl next rfl rfl
  refine ⟨fun b hb => plain₀ b (by simp [bindings, hb]), fun hφ R hv ho _ => ?_⟩
  obtain ⟨hscopes, hi⟩ := hident hφ
  have hbound : R.Valid run₀ ∧ R.Step c run R run₀ [ident.key] :=
    hv.bind (b := newBinding run₂ ident .declared true) ho hscopes rfl rfl bindings modules
  obtain ⟨hv₀, step⟩ := hbound
  obtain ⟨hQ, R', hv', grows, hin⟩ := post ⟨ho.lt hv, hφ⟩ R hv₀ (ho.lt hv)
  refine ⟨hQ, R', [ident.key], hv', step.trans (grows.step (ho.step step)) (ho.lt hv), rfl, ⟨hscopes, hi⟩, ?_, trivial⟩
  exact placed_scope.2 ⟨_, hin⟩

/-- The parts of a scope are read again: either nothing is declared in it, or what was left of it is expanded. -/
theorem Lex.again {parts : List Outline} (hx : ∀ F, Lex d (c.insert F) φ parts x Q L)
    (hpending : ∀ a ks, Q a → keys (L a) = keys parts ++ ks → ks = [] ∧ pendingKeys d (L a) = pendingKeys d parts ∨
      ks = pendingKeys d parts ∧ pendingKeys d (L a) = []) : Lex d c φ [scope parts] x Q fun a => [scope (L a)] := by
  intro run a run' h plain
  refine ⟨((hx 0) run a run' h plain).1, fun hφ R hv ho hk => ?_⟩
  obtain ⟨F, hin⟩ := placed_scope.1 hk.1
  obtain ⟨_, post⟩ := hx F run a run' h plain
  have hmem : F ∈ c.insert F := ScopeSet.mem_insert.2 (Or.inl rfl)
  obtain ⟨hQ, R₁, ks, hv₁, step, hkeys, placed⟩ := post hφ (R.set F ⟨c.insert F, (R F).own, []⟩) (hv.set hin.scopes.symm)
    ⟨F, hin.lt, by rw [Regions.set_self], by rw [Regions.set_self]⟩
    (hin.parts.transfer (transfers_set ⟨F, hmem, Nat.le_refl _⟩))
  obtain ⟨R', hv', grows, hin'⟩ := step.reenter hv hin hv₁ placed hkeys (hpending a ks hQ hkeys)
  exact ⟨hQ, R', [], hv', grows.step ho, rfl, placed_scope.2 ⟨F, hin'⟩, trivial⟩

end Expand

end Hygiene
