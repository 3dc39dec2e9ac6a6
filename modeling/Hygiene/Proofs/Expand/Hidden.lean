import Hygiene.Proofs.Expand.Meanings
import Hygiene.Proofs.Expand.Transparency

/-!
# A transformer that is not recursive cannot name itself

The declaration of such a transformer hides its binding from a scope, which its output gets and which is never taken
away again: only regions are left, and only the scopes of invocations are flipped.
-/

namespace Hygiene

open List

variable {home : Home} {run run' : Run} {scopes : ScopeSet} {name : String} {binding : Token}

namespace Store

/-- The store without one of its bindings. -/
def without (s : Store) (id : BindingId) : Store := ofBindings (s.bindings.filter (·.id ≠ id))

/-- A binding that an identifier does not see makes no difference to it. -/
theorem resolve_without {s : Store} {id : BindingId}
    (h : ∀ c ∈ s.bindings.toList, c.id = id → ¬ c.isVisible name scopes = true) :
    s.resolve name scopes = (s.without id).resolve name scopes := by
  rw [resolve_eq, resolve_eq, without, ofBindings, Array.toList_filter, filter_filter]
  refine congrArg (List.foldl better none) (filter_congr fun c hc => ?_)
  by_cases hid : c.id = id
  · simp [hid, h c hc hid]
  · simp [hid]

/-- An identifier never refers to a binding that is left out. -/
theorem id_ne_of_resolve_without {s : Store} {id : BindingId} {c : Binding}
    (h : (s.without id).resolve name scopes = some c) : c.id ≠ id := by
  have hmem := (resolve_visible h).1
  rw [without, ofBindings, Array.toList_filter] at hmem
  simpa using (mem_filter.1 hmem).2

end Store

namespace History

variable {e : Event} {h l : List Event} {p q : Piece} {id : BindingId} {o : ScopeId}

/-- No event takes away a scope that something is hidden from. -/
theorem Sound.keeps_hidden (hs : Sound (e :: h)) (hid : .hidden id o ∈ h) (hm : e.Makes p q) (hp : o ∈ p.scopes) :
    o ∈ q.scopes := by
  have hne : ∀ e' ∈ e :: h, ∀ x, e'.scope? = some x → e' ≠ .hidden id o → o ≠ x := by
    rintro e' he' x hx hdiff rfl
    exact hdiff (hs.scope_unique he' (mem_cons_of_mem _ hid) hx rfl)
  cases hm with
  | enclosed _ => exact ScopeSet.mem_insert.2 (Or.inr hp)
  | left _ =>
    obtain ⟨⟨mid, earlier, heq, _⟩, _⟩ := hs.fits
    refine ScopeSet.mem_erase.2 ⟨hp, hne (.opened _) ?_ _ rfl nofun⟩
    rw [heq]
    simp
  | called _ => exact (ScopeSet.mem_flip_of_ne (hne _ mem_cons_self _ rfl nofun)).2 hp
  | @invoked inv _ _ =>
    obtain ⟨earlier, heq⟩ := hs.called
    have hscope : o ≠ inv.call.scope := hne (.called inv.call) (by rw [heq]; simp) _ rfl nofun
    by_cases hi : inv.call.scope ∈ p.scopes
    · rw [Piece.markOutput_of_mem hi]
      exact (ScopeSet.mem_flip_of_ne hscope).2 hp
    · exact (Piece.mem_markOutput_of_not_mem hi).2 (Or.inr (Or.inr hp))

theorem Sound.hidden_of_stems (hs : Sound (l ++ h)) (hid : .hidden id o ∈ h) (hst : Stems l p q) (hp : o ∈ p.scopes) :
    o ∈ q.scopes := by
  induction hst with
  | refl p => exact hp
  | old _ ih => exact ih hs.tail hp
  | made _ hm ih => exact hs.keeps_hidden (mem_append_right _ hid) hm (ih hs.tail hp)

/-- The binding that is hidden stays hidden. -/
theorem Sound.exists_hidden (hs : Sound h) (hid : .hidden id o ∈ h) :
    ∃ b, (bindings h)[id]? = some b ∧ b.id = id ∧ b.hiddenFrom = some o := by
  obtain ⟨later, before, rfl⟩ := append_of_mem hid
  obtain ⟨b, earlier, rfl, rfl⟩ := hs.of_append.fits
  have hlast : b.id = (bindings earlier).length := hs.of_append.tail.fits.1
  have hget : (bindings (.hidden b.id o :: .bound b :: earlier))[b.id]? = some { b with hiddenFrom := some o } := by
    simp [bindings, hlast]
  refine ⟨{ b with hiddenFrom := some o }, ?_, rfl, rfl⟩
  rw [hs.getElem?_bindings (by simp) (List.getElem?_eq_some_iff.1 hget).1]
  exact hget

/-- Only an invocation of a transformer with this output scope gives a scope that something is hidden from. -/
theorem Sound.adds_hidden (hs : Sound (e :: h)) (hid : .hidden id o ∈ h) (ha : e.Adds o) :
    ∃ inv, e = .invoked inv ∧ inv.call.transformer.outputScope = some o := by
  have hne : ∀ e' ∈ e :: h, e' ≠ .hidden id o → e'.scope? ≠ some o := fun e' he' hdiff hx =>
    hdiff (hs.scope_unique he' (mem_cons_of_mem _ hid) hx rfl)
  have fits := hs.fits
  cases e with
  | enclosed scope tokens =>
    obtain rfl : o = scope := ha
    exact absurd rfl (hne (.opened o) (mem_cons_of_mem _ fits.1) nofun)
  | called call =>
    obtain rfl : o = call.scope := ha
    exact absurd rfl (hne (.called call) mem_cons_self nofun)
  | invoked inv =>
    obtain ⟨_, earlier, rfl, _⟩ := fits
    rcases ha with rfl | ho
    · exact absurd rfl (hne (.called inv.call) (by simp) nofun)
    · exact ⟨inv, rfl, ho.symm⟩
  | _ => exact ha.elim

end History

/-- What is guaranteed of an invocation of a transformer whose output scope is `o`, from which the binding `id` is
hidden: `earlier` are the events before the call, and `later` some events after it. -/
structure Invocation.CannotName (inv : Invocation) (id : BindingId) (o : ScopeId) (earlier later : List Event) : Prop where
  /-- Each piece of the output is handed back as it was at the place of use, or introduced. -/
  placed : Forall₂ (inv.Places earlier) (Token.piecesAll inv.output)
    (Token.piecesAll (markOutput inv.call.scope (some o) inv.output))
  /-- An introduced piece never refers to the binding, but to the best other one that it sees, if there is one. -/
  introduced : ∀ p ∈ Token.piecesAll inv.output, Arises earlier p →
    ∀ r, Stems later (p.markOutput inv.call.scope (some o)) r → ∀ name,
      let store := History.store (later ++ .invoked inv :: .called inv.call :: earlier)
      store.resolve name r.scopes = (store.without id).resolve name r.scopes ∧
      ∀ c, store.resolve name r.scopes = some c → c.id ≠ id
  /-- A piece that the transformer was handed comes back as it would without the output scope. -/
  handed : ∀ q ∈ Token.piecesAll inv.call.rest, ∀ outputScope : Option ScopeId,
    (q.mapScopes (·.flip inv.call.scope)).markOutput inv.call.scope outputScope = q
  /-- It does not get the output scope later, unless another invocation of the transformer introduces it. -/
  unmarked : ∀ q ∈ Token.piecesAll inv.call.rest, ∀ r, Stems later q r → o ∈ r.scopes →
    o ∈ q.scopes ∨ ∃ other, .invoked other ∈ later ∧ other.call.transformer.outputScope = some o

namespace History

variable {inv : Invocation} {earlier later : List Event} {id : BindingId} {o : ScopeId}

theorem Sound.adds_later {l h : List Event} (hs : Sound (l ++ h)) (hid : .hidden id o ∈ h) {e : Event} (he : e ∈ l)
    (ha : e.Adds o) : ∃ inv, .invoked inv ∈ l ∧ inv.call.transformer.outputScope = some o := by
  obtain ⟨after, before, rfl⟩ := append_of_mem he
  rw [append_assoc] at hs
  obtain ⟨inv, rfl, ho⟩ := hs.of_append.adds_hidden (mem_append_right _ hid) ha
  exact ⟨inv, he, ho⟩

/-- The invocations of a transformer cannot name a binding that is hidden from its output scope. -/
theorem Sound.cannotName (hs : Sound (later ++ .invoked inv :: .called inv.call :: earlier))
    (ho : inv.call.transformer.outputScope = some o) (hid : .hidden id o ∈ earlier) :
    inv.CannotName id o earlier later where
  placed := ho ▸ hs.hygienic.placed
  introduced := by
    intro p hp harises r hst name
    have hmarked : o ∈ (p.markOutput inv.call.scope (some o)).scopes :=
      (Piece.mem_markOutput_of_not_mem (hs.of_append.fresh_piece harises)).2 (Or.inr (Or.inl rfl))
    have hmem : Event.hidden id o ∈ .invoked inv :: .called inv.call :: earlier := by simp [hid]
    have hr : o ∈ r.scopes := hs.hidden_of_stems hmem hst hmarked
    have hunseen : ∀ c ∈ bindings (later ++ .invoked inv :: .called inv.call :: earlier), c.id = id →
        ¬ c.isVisible name r.scopes = true := by
      intro c hc hcid hv
      obtain ⟨b, hb, _, hhidden⟩ := hs.exists_hidden (mem_append_right _ hmem)
      obtain rfl : c = b := Option.some.inj (by rw [← hs.getElem?_id hc, hcid, hb])
      exact (Binding.isVisible_iff.1 hv).2.2 o hhidden hr
    have hres := Store.resolve_without (s := store (later ++ .invoked inv :: .called inv.call :: earlier)) hunseen
    exact ⟨hres, fun c hc => Store.id_ne_of_resolve_without (hres ▸ hc)⟩
  handed := by
    intro q hq outputScope
    rw [Piece.markOutput_of_mem (hs.of_append.mem_handed hq), Piece.mapScopes_mapScopes]
    exact Piece.mapScopes_eq_self (ScopeSet.flip_flip _ _)
  unmarked := by
    intro q hq r hst hr
    have hmem : Event.hidden id o ∈ .invoked inv :: .called inv.call :: earlier := by simp [hid]
    rcases hst.mem hr with h | ⟨e, he, ha⟩
    · exact Or.inl h
    · exact Or.inr (hs.adds_later hmem he ha)

end History

/-- Settling a declaration that was not bound early binds its name, hidden from the output scope of its transformer. -/
theorem Expand.exists_of_settle {s : Setup} {init : Expression}
    (h : settle s home binding none init run = .ok () run') : ∃ run₁ t, run' = { afterHidden run₁ binding with
      registry := run₁.registry.define run₁.store.bindings.size t } ∧ t.name = binding.name ∧
      t.module = home.specifier ∧ t.outputScope = some run₁.store.nextScope := by
  obtain ⟨value, run₁, _, h⟩ := bind_eq_ok h
  obtain ⟨_, _, hhidden, h⟩ := bind_eq_ok h
  rw [bindHidden_eq] at hhidden
  cases hhidden
  cases h
  exact ⟨run₁, _, rfl, rfl, rfl, rfl⟩

/-- The declaration of a transformer that is not recursive leaves its name bound and hidden from a scope, which is the
output scope of its meaning. -/
theorem Parse.exists_hidden_of_declarator {s : Setup} {p : Passes} {stream : Stream} {r : Declarator × Stream}
    (h : transformerDeclarator s home p .syntaxDecl binding stream run = .ok r run') : ∃ b o t,
      run'.store.binding? b.id = some b ∧ b.name = binding.name ∧ b.scopes = binding.scopes ∧ b.kind = .transformer ∧
      b.hiddenFrom = some o ∧ .hidden b.id o ∈ run'.events ∧ run'.registry.transformer? b.id = some t ∧
      t.name = binding.name ∧ t.module = home.specifier ∧ t.outputScope = some o := by
  rw [transformerDeclarator_eq] at h
  obtain ⟨_, _, _, _, h⟩ := bind_eq_ok h
  obtain ⟨_, _, _, _, h⟩ := bind_eq_ok h
  obtain ⟨_, _, run₁, hdeclared, h⟩ := bind_eq_ok h
  obtain ⟨_, _, _, hsite, h⟩ := bind_eq_ok h
  cases hsite
  cases h
  obtain ⟨early, _, _, hearly, hdeclared⟩ := bind_eq_ok hdeclared
  cases hearly
  obtain ⟨init, _, run₂, _, hdeclared⟩ := bind_eq_ok hdeclared
  obtain ⟨_, _, run₃, hsettle, hdeclared⟩ := bind_eq_ok hdeclared
  cases hdeclared
  obtain ⟨_, _, hsettle, heq⟩ := Expand.bind_eq_ok hsettle
  cases heq
  obtain ⟨run₄, t, rfl, ht⟩ := Expand.exists_of_settle hsettle
  refine ⟨{ Expand.newBinding run₄ binding .transformer true with hiddenFrom := some run₄.store.nextScope },
    run₄.store.nextScope, t, ?_, rfl, rfl, rfl, rfl, mem_cons_self, ?_, ht⟩
  · rw [Store.binding?, ← Array.getElem?_toList]
    exact Expand.getElem?_afterHidden run₄ binding
  · simp [Registry.transformer?, Registry.define, Assoc.get?_insert, Expand.newBinding]

/-- A transformer that is not recursive cannot name itself. Its declaration hides its binding from its output scope. In
every run that an operation on a program leaves, what is hidden stays hidden from the output scope of what it means; and
after an invocation of a transformer with this output scope, the tokens that it introduced do not refer to the binding,
while the tokens that were handed back are as they would be without it. -/
theorem Run.Final.output_cannot_name {s : Setup} {run : Run} (hrun : run.Final s) :
    (∀ (home : Home) (p : Passes) (binding : Token) (stream : Stream) (r : Declarator × Stream) (before after : Run),
      Parse.transformerDeclarator s home p .syntaxDecl binding stream before = .ok r after → ∃ b o t,
        after.store.binding? b.id = some b ∧ b.name = binding.name ∧ b.scopes = binding.scopes ∧ b.kind = .transformer ∧
        b.hiddenFrom = some o ∧ .hidden b.id o ∈ after.events ∧ after.registry.transformer? b.id = some t ∧
        t.name = binding.name ∧ t.module = home.specifier ∧ t.outputScope = some o) ∧
    ∀ id o, .hidden id o ∈ run.events →
      (∃ b, run.store.binding? id = some b ∧ b.id = id ∧ b.hiddenFrom = some o) ∧
      (∀ t, run.registry.transformer? id = some t → t.outputScope = some o) ∧
      ∀ rest later before inv, run.events = rest ++ (later ++ .invoked inv :: before) →
        inv.call.transformer.outputScope = some o →
        ∃ earlier, before = .called inv.call :: earlier ∧ inv.CannotName id o earlier later := by
  have hs := hrun.sound.history
  refine ⟨fun home p binding stream r before after h => Parse.exists_hidden_of_declarator h, fun id o hid => ?_⟩
  obtain ⟨b, hb, hbid, hhidden⟩ := hs.exists_hidden hid
  rw [← hrun.sound.bindings] at hb
  refine ⟨⟨b, by simpa [Store.binding?] using hb, hbid, hhidden⟩, fun t ht => ?_, ?_⟩
  · rcases hrun.grows.new id t ht with hempty | ⟨c, hc, hscope⟩
    · cases hempty
    · obtain rfl : b = c := Option.some.inj (hb.symm.trans hc)
      exact hscope o hhidden
  · intro rest later before inv hsplit ho
    have hstate : History.Sound (later ++ .invoked inv :: before) := (hsplit ▸ hs).of_append
    obtain ⟨earlier, rfl⟩ := hstate.of_append.called
    refine ⟨earlier, rfl, hstate.cannotName ho ?_⟩
    obtain ⟨id', hid'⟩ := hstate.of_append.tail.fits.2.2 o ho
    have hmem : Event.hidden id' o ∈ run.events := by
      rw [hsplit]
      simp [hid']
    cases hs.scope_unique hmem hid rfl rfl
    exact hid'

/-- Inside a function a transformer is declared whose output is its own name, which is a variable outside. -/
def selfNamingText : String := "var m = a; function f() \x7b syntax m = ctx => #`m`; return m; \x7d"

/-- The name in the template refers to the transformer, but in the output it refers to the variable. -/
theorem Run.Final.output_cannot_name_variable : ∃ expansion run,
    expandProgram .alone selfNamingText = .ok expansion run ∧ ∃ id o later inv earlier u,
      run.events = later ++ .invoked inv :: .called inv.call :: earlier ∧ .hidden id o ∈ run.events ∧
      inv.call.transformer.outputScope = some o ∧ u ∈ Token.piecesAll inv.output ∧ u.name? = some "m" ∧
      (run.store.resolve "m" u.scopes).map (·.id) = some id ∧
      (run.store.resolve "m" (u.markOutput inv.call.scope (some o)).scopes).map (·.kind) = some .declared ∧
      inv.CannotName id o earlier later := by
  let names (run : Run) (inv : Invocation) (id : BindingId) (o : ScopeId) (u : Piece) : Bool :=
    u.name? == some "m" && (run.store.resolve "m" u.scopes).map (·.id) == some id &&
      (run.store.resolve "m" (u.markOutput inv.call.scope (some o)).scopes).map (·.kind) == some .declared
  let test (run : Run) (inv : Invocation) (before _later : List Event) : Bool := before.any fun
    | .hidden id o => inv.call.transformer.outputScope == some o && (Token.piecesAll inv.output).any (names run inv id o)
    | _ => false
  obtain ⟨expansion, run, hres, hany⟩ := exists_of_succeeds (expandProgram .alone selfNamingText)
    (fun _ run => History.anyInvocation (test run) [] run.events) (by decide +kernel)
  obtain ⟨later, inv, before, hsplit, htest⟩ := History.exists_invocation hany
  obtain ⟨e, he, htest⟩ := any_eq_true.1 htest
  split at htest
  · next id o =>
    rw [Bool.and_eq_true, beq_iff_eq] at htest
    obtain ⟨ho, hpieces⟩ := htest
    obtain ⟨u, hu, hnames⟩ := any_eq_true.1 hpieces
    simp only [names, Bool.and_eq_true, beq_iff_eq] at hnames
    obtain ⟨⟨hname, hself⟩, hother⟩ := hnames
    have hid : Event.hidden id o ∈ run.events := by
      rw [hsplit]
      simp [he]
    obtain ⟨_, _, hinv⟩ := (Run.Final.output_cannot_name (.of_ok hres)).2 id o hid
    obtain ⟨earlier, rfl, hcannot⟩ := hinv [] later before inv hsplit ho
    exact ⟨expansion, run, hres, id, o, later, inv, earlier, u, hsplit, hid, ho, hu, hname, hself, hother, hcannot⟩
  · cases htest

end Hygiene
