import Hygiene.Proofs.Expand.Expressions
import Hygiene.Proofs.Expand.Instances

/-!
# Reading of statements is sound

A recursive transformer is bound before its initializer is read, so its binding is without meaning for a while. At the
end of the declaration it has its meaning.
-/

namespace Hygiene

open List

namespace Expand

variable {m : Mode} {l : List Content} {q : Prop} {regions : List ScopeId}

/-- References that are not at fault are left as they are. -/
theorem checkReferences_ends {run : Run} (hr : run.Sound) (name : String) (mark : Nat) (idents : List Token) :
    Ends run (checkReferences name mark idents) fun _ run' =>
      run = run' ∧ ∀ ident ∈ idents, referenceFault? run.store mark ident = none := by
  induction idents with
  | nil => exact ⟨rfl, by simp⟩
  | cons ident rest ih =>
    refine .get_bind ?_
    split
    · exact hr
    · next hnone =>
      refine ih.imp ?_
      rintro _ _ ⟨rfl, hrest⟩
      exact ⟨rfl, forall_mem_cons.2 ⟨hnone, hrest⟩⟩

/-- An initializer is accepted when none of its references is at fault. -/
theorem acceptInitializer_ends {run : Run} (hr : run.Sound) {binding : Token} {mark : Nat}
    (hbegan : History.Began run.events binding mark) (init : Expression) :
    Ends run (acceptInitializer binding mark init) fun _ run' => run'.Sound ∧ Run.Extends True run run' := by
  refine .bind (checkReferences_ends hr binding.name mark init.references) ?_
  rintro _ _ ⟨rfl, href⟩
  refine ⟨?_, ⟨⟨[.accepted binding mark init], rfl, ?_⟩, fun _ h => h, fun _ h => h⟩⟩
  · refine hr.step (e := .accepted binding mark init) (by simp [Event.scope?]) ⟨hbegan, fun ident hident => ?_⟩ rfl ?_
      hr.nextFresh hr.bindings rfl rfl rfl rfl
    · unfold referenceFault?
      rw [hr.resolveIdent_store]
      exact href ident hident
    · rw [History.scopes_cons]
      exact hr.nextScope
  · intro _ e he
    rw [mem_singleton.1 he]
    rfl

/-- Hiding a binding keeps what bindings stand for. -/
theorem mem_modify_hidden {bs : List Binding} {id : Nat} {scope : ScopeId} {b : Binding}
    (h : b ∈ bs.modify id fun b => { b with hiddenFrom := some scope }) : ∃ b' ∈ bs, b'.kind = b.kind ∧ b'.id = b.id := by
  obtain ⟨i, hi⟩ := mem_iff_getElem?.1 h
  rw [List.getElem?_modify] at hi
  obtain ⟨b', hb', rfl⟩ := Option.map_eq_some_iff.1 hi
  refine ⟨b', mem_of_getElem? hb', ?_⟩
  split <;> exact ⟨rfl, rfl⟩

end Expand

/-- A sound run that comes after another one, in which a binding may still be without its meaning. -/
structure Run.Awaits (pending : Option BindingId) (run run' : Run) : Prop where
  sound : run'.Sound
  events : ∃ new, run'.events = new ++ run.events
  settles : ∀ id, run'.Unsettled id → run.Unsettled id ∨ some id = pending
  keeps : ∀ id, (run.registry.transformer? id).isSome = true → (run'.registry.transformer? id).isSome = true

theorem Run.Awaits.trans {pending : Option BindingId} {run run₁ run₂ : Run} (h : run.Awaits pending run₁)
    (h' : run₁.After run₂) : run.Awaits pending run₂ := by
  obtain ⟨new, hnew⟩ := h.events
  obtain ⟨new', hnew', _⟩ := h'.2.events
  refine ⟨h'.1, ⟨new' ++ new, ?_⟩, fun id hid => h.settles id (h'.2.settles id hid), fun id hid => ?_⟩
  · rw [hnew', hnew, append_assoc]
  · exact h'.2.keeps id (h.keeps id hid)

theorem Known.of_events {q : Prop} {run run' : Run} {l : List Content} (hl : Known q run.events l)
    (h : ∃ new, run'.events = new ++ run.events) : Known q run'.events l := by
  obtain ⟨new, hnew⟩ := h
  exact hnew ▸ hl.append new

namespace Expand

variable {m : Mode} {l : List Content} {q : Prop} {regions : List ScopeId} {run run₀ : Run} {binding : Token}

/-- A transformer that was bound has no meaning yet. -/
theorem awaits_afterBind (hr : run.Sound) (hb : ∀ p ∈ Token.pieces binding, Arises run.events p) (rename : Bool) :
    run.Awaits (some run.store.bindings.size) (afterBind run binding .transformer rename) where
  sound := sound_afterBind hr hb (by cases rename <;> simp [BindingKind.Renames])
  events := ⟨[_], rfl⟩
  settles _ h := (unsettled_afterBind h).imp_right fun h => congrArg some h.2
  keeps _ h := h

/-- What binding a transformer that is hidden from its output leaves. -/
theorem bindHidden_ends (hr : run.Sound) (hb : ∀ p ∈ Token.pieces binding, Arises run.events p) :
    Ends run (bindHidden binding) fun r run' => run.Awaits (some r.1) run' ∧ .hidden r.1 r.2 ∈ run'.events := by
  refine .bind_ok (bind_eq binding .transformer true run) ?_
  have ha := awaits_afterBind hr hb true
  generalize hid : run.store.bindings.size = id at ha
  have hevents : (afterBind run binding .transformer true).events =
      .bound (newBinding run binding .transformer true) :: run.events := rfl
  generalize afterBind run binding .transformer true = run₁ at ha hevents
  let run₂ : Run := { run₁ with
    store := Store.hide { run₁.store with nextScope := run₁.store.nextScope + 1 } id run₁.store.nextScope
    events := .hidden id run₁.store.nextScope :: run₁.events }
  have hr₂ : run₂.Sound := by
    refine ha.sound.step (e := .hidden id run₁.store.nextScope) ?_ ⟨_, run.events, hevents, hid⟩ rfl ?_ ?_ ?_ rfl rfl rfl rfl
    · rintro _ ⟨⟩
      exact ha.sound.nextScope
    · rw [History.scopes_cons, ← ha.sound.nextScope]
      rfl
    · rw [History.renamed_hidden]
      exact ha.sound.nextFresh
    · rw [History.bindings, ← ha.sound.bindings]
      exact Array.toList_modify
  refine .of_ok (a := (id, run₁.store.nextScope)) (show _ = EStateM.Result.ok _ run₂ from rfl)
    ⟨⟨hr₂, ⟨[_, _], congrArg _ hevents⟩, fun id' h => ?_, ha.keeps⟩, mem_cons_self⟩
  obtain ⟨⟨b, hmem, hkind, hid'⟩, hnone⟩ := h
  have hmem' : b ∈ run₁.store.bindings.toList.modify id fun b =>
      { b with hiddenFrom := some run₁.store.nextScope } := by
    rw [← Array.toList_modify]
    exact hmem
  obtain ⟨b', hb', hk', hi'⟩ := mem_modify_hidden hmem'
  exact ha.settles id' ⟨⟨b', hb', hk' ▸ hkind, hi'.trans hid'⟩, hnone⟩

/-- Giving the binding its meaning settles it. -/
theorem defineTransformer_ends {id : BindingId} (ha : run₀.Awaits (some id) run) {t : Transformer}
    (hv : t.value.Good (Arises run.events)) (ho : ∀ o, t.outputScope = some o → ∃ id, .hidden id o ∈ run.events) :
    Ends run (defineTransformer id t) fun _ run' => run₀.After run' ∧ run'.events = run.events := by
  have hget : ∀ id', (run.registry.define id t).transformer? id' =
      if id == id' then some t else run.registry.transformer? id' :=
    fun id' => Assoc.get?_insert id id' t run.registry.transformers
  have hkeep : ∀ id', (run.registry.transformer? id').isSome = true →
      ((run.registry.define id t).transformer? id').isSome = true := by
    intro id' h
    rw [hget]
    split
    · rfl
    · exact h
  refine ⟨⟨?_, ?_, fun id' h => ?_, fun id' h => hkeep id' (ha.keeps id' h)⟩, rfl⟩
  · refine { ha.sound with transformers := ?_, outputScopes := ?_, exports := ?_ }
    · intro entry he
      rcases Assoc.mem_insert he with heq | he
      · exact heq ▸ hv
      · exact ha.sound.transformers entry he
    · intro entry he
      rcases Assoc.mem_insert he with heq | he
      · exact heq ▸ ho
      · exact ha.sound.outputScopes entry he
    · exact fun entry he e hmem => hkeep _ (ha.sound.exports entry he e hmem)
  · obtain ⟨new, hnew⟩ := ha.events
    exact ⟨new, hnew, False.elim⟩
  · obtain ⟨hbound, hnone⟩ := h
    have hnone' : (run.registry.define id t).transformer? id' = none := hnone
    rw [hget] at hnone'
    split at hnone'
    · cases hnone'
    · next hne =>
      refine (ha.settles id' ⟨hbound, hnone'⟩).resolve_right fun heq => hne ?_
      simp [Option.some.inj heq]

/-- The name of a recursive transformer is bound before its initializer is read. -/
def bindEarly (binding : Token) (recursive : Bool) : Expand (Option BindingId) := do
  if recursive then
    return some (← bind binding .transformer true)
  return none

/-- Evaluates the initializer of a transformer and makes its value the meaning of the name, which may have been bound
early. -/
def settle (s : Setup) (home : Home) (binding : Token) (early : Option BindingId) (init : Expression) :
    Expand Unit := do
  let value ← transformerValue s binding.name binding.site init
  let (id, outputScope) ← match early with
    | some id => pure (id, none)
    | none => do
      let (id, scope) ← bindHidden binding
      pure (id, some scope)
  defineTransformer id { name := binding.name, value, module := home.specifier, site := binding.site, outputScope }

/-- Once the initializer has been evaluated, every binding has its meaning. -/
theorem settle_ends (s : Setup) (home : Home) {early : Option BindingId} (ha : run₀.Awaits early run)
    {init : Expression} (hk : Known False run.events (Content.ofTokens [binding] ++ init.content)) :
    Ends run (settle s home binding early init) fun _ run' =>
      run₀.After run' ∧ ∃ new, run'.events = new ++ run.events := by
  have evaluating : Sound ⟨False, False, []⟩ init.content (transformerValue s binding.name binding.site init) Value.content :=
    sound_transformerValue s _ _ fun _ h => h
  refine .bind (evaluating run ha.sound False.elim nofun hk.right) ?_
  rintro value run₁ ⟨hr₁, he₁, hvalue⟩
  have hvalue : value.Good (Arises run₁.events) := fun p hp => hvalue (.piece p) (mem_map_of_mem hp)
  have ha₁ := ha.trans ⟨hr₁, he₁⟩
  obtain ⟨new, hnew, _⟩ := he₁.events
  cases early with
  | some id =>
    refine (defineTransformer_ends ha₁ hvalue ?_).imp ?_
    · rintro _ ⟨⟩
    · rintro _ run₂ ⟨hafter, hev⟩
      exact ⟨hafter, new, hev.trans hnew⟩
  | none =>
    have hb : ∀ p ∈ Token.pieces binding, Arises run₁.events p := fun p hp =>
      (hk.left.extend he₁).tokens p (by simpa [Token.piecesAll] using hp)
    refine .bind (bindHidden_ends hr₁ hb) ?_
    rintro ⟨id, scope⟩ run₂ ⟨ha₂, hmem⟩
    obtain ⟨new₂, hnew₂⟩ := ha₂.events
    have ha' : run₀.Awaits (some id) run₂ := by
      obtain ⟨new₁, hnew₁⟩ := ha₁.events
      refine ⟨ha₂.sound, ⟨new₂ ++ new₁, by rw [hnew₂, hnew₁, append_assoc]⟩, fun id' hid => ?_, fun id' hid => ?_⟩
      · exact (ha₂.settles id' hid).imp_left fun h => (ha₁.settles id' h).resolve_right (Option.some_ne_none id')
      · exact ha₂.keeps id' (ha₁.keeps id' hid)
    refine (defineTransformer_ends ha' (hvalue.mono fun p hp => ?_) ?_).imp ?_
    · rw [hnew₂]
      exact hp.append
    · rintro o ⟨⟩
      exact ⟨id, hmem⟩
    · rintro _ run₃ ⟨hafter, hev⟩
      exact ⟨hafter, new₂ ++ new, by rw [hev, hnew₂, hnew, append_assoc]⟩

end Expand

variable {m : Mode} {l : List Content} {q : Prop} {regions : List ScopeId} {p : Passes}

theorem Passes.Sound.stmt (hp : p.Sound) : Parse.Sound ⟨False, q, regions⟩ l p.statement Statement.contentOption :=
  (hp.statement q regions).weaken (nil_subset _) fun _ => subset_append_left _ _

namespace Parse

/-- The initializer of a transformer is read, completed and accepted. -/
def initializer (p : Passes) (binding : Token) (mark : Nat) : Parse Expression := do
  expectPunct "="
  let init ← p.assignment
  let init ← (init.complete p.body : Expand Expression)
  Expand.acceptInitializer binding mark init
  return init

/-- Declares a transformer, whose initializer is what is read. -/
def declared (s : Setup) (home : Home) (binding : Token) (recursive : Bool) (reading : Parse Expression) :
    Parse Expression := do
  let early ← Expand.bindEarly binding recursive
  let init ← reading
  Expand.settle s home binding early init
  return init

/-- What is left of the declaration of a transformer: its initializer is read, completed and accepted, and then its
meaning is settled. -/
def transformerMeaning (s : Setup) (home : Home) (p : Passes) (kind : DeclarationKind) (binding : Token) :
    Parse Declarator := do
  let mark := (← run).store.count
  let init ← declared s home binding (kind = .syntaxRecDecl) (initializer p binding mark)
  return { binding, init := some init, site := binding.site.cover (← previousSite) }

theorem transformerDeclarator_eq (s : Setup) (home : Home) (p : Passes) (kind : DeclarationKind)
    (binding : Token) : transformerDeclarator s home p kind binding = (do
      Expand.record (.declaring binding)
      transformerMeaning s home p kind binding) := by
  unfold transformerDeclarator transformerMeaning declared initializer Expand.bindEarly Expand.settle
  refine bind_congr fun _ => bind_congr fun run => ?_
  by_cases hkind : kind = .syntaxRecDecl <;> simp [hkind, liftM_bind, bind_assoc]

variable {run : Run} {stream : Stream} {binding : Token} {mark : Nat}

theorem initializer_ends (hp : p.Sound) (hr : run.Sound) (hbegan : History.Began run.events binding mark)
    (hk : Known False run.events stream.content) :
    Expand.Ends run (initializer p binding mark stream) fun r run' =>
      run.After run' ∧ Known False run'.events (r.1.content ++ r.2.content) := by
  let reading : Parse Expression := do
    expectPunct "="
    let init ← p.assignment
    (init.complete p.body : Expand Expression)
  have hreading : Sound ⟨False, False, []⟩ [] reading Expression.content := by
    refine .bind (sound_expectPunct "=") fun _ => .bind hp.assign fun init => ?_
    exact .lift ((init.finishes hp.body).sound.of_subset (subset_append_left _ _))
  have heq : initializer p binding mark = reading >>= fun init => do
      Expand.acceptInitializer binding mark init
      return init := by simp only [initializer, reading, bind_assoc]
  rw [heq]
  refine yields_bind (hreading.expand stream run hr False.elim nofun (by simpa using hk)) ?_
  rintro init stream₁ run₁ ⟨hr₁, he₁, hk₁⟩
  have hbegan₁ : History.Began run₁.events binding mark := by
    obtain ⟨new, hnew, _⟩ := he₁.events
    exact hnew ▸ hbegan.append new
  refine yields_lift_bind (Expand.acceptInitializer_ends hr₁ hbegan₁ init) ?_
  rintro _ run₂ ⟨hr₂, he₂⟩
  exact ⟨⟨hr₂, he₁.trans he₂.of_quiet⟩, hk₁.extend he₂⟩

/-- A transformer whose name is recursive is bound first and has no meaning until the end of its declaration. -/
theorem declared_ends (s : Setup) (home : Home) (hp : p.Sound) (hr : run.Sound) (recursive : Bool)
    (hbegan : History.Began run.events binding mark)
    (hk : Known False run.events (Content.ofTokens [binding] ++ stream.content)) :
    Expand.Ends run (declared s home binding recursive (initializer p binding mark) stream) fun r run' =>
      run.After run' ∧ Known False run'.events (Content.ofTokens [binding] ++ (r.1.content ++ r.2.content)) := by
  have hearly : Expand.Ends run (Expand.bindEarly binding recursive) fun early run' => run.Awaits early run' := by
    cases recursive with
    | true =>
      refine .bind_ok (Expand.bind_eq binding .transformer true run) ?_
      exact Expand.awaits_afterBind hr (fun p hp => hk.left.tokens p (by simpa [Token.piecesAll] using hp)) true
    | false => exact ⟨hr, ⟨[], rfl⟩, fun _ h => Or.inl h, fun _ h => h⟩
  refine yields_lift_bind hearly ?_
  intro early run₁ ha₁
  have hbegan₁ : History.Began run₁.events binding mark := by
    obtain ⟨new, hnew⟩ := ha₁.events
    exact hnew ▸ hbegan.append new
  have hk₁ := hk.of_events ha₁.events
  refine yields_bind (initializer_ends hp ha₁.sound hbegan₁ hk₁.right) ?_
  rintro init stream₂ run₂ ⟨hafter₂, hk₂⟩
  have hbinding := hk₁.left.extend hafter₂.2
  refine yields_lift_bind (Expand.settle_ends s home (ha₁.trans hafter₂) (hbinding.union hk₂.left)) ?_
  rintro _ run₃ ⟨hafter₃, hev⟩
  exact ⟨hafter₃, (hbinding.union hk₂).of_events hev⟩

/-- Where identifiers do not count, pieces are known in any case. -/
theorem known_pieces {h : List Event} {k : List Content} (hk : Known False h k) : Known q h (k.filter Content.isPiece) := by
  intro c hc
  obtain ⟨hc, hpiece⟩ := mem_filter.1 hc
  cases c with
  | piece p => exact hk _ hc
  | use ident => cases hpiece

theorem known_stream {q' : Prop} {h : List Event} (hk : Known q h stream.content) : Known q' h stream.content :=
  .union (.of_tokens hk.left.tokens) (.of_tokens hk.right.tokens)

theorem sound_transformerDeclarator (s : Setup) (home : Home) (hp : p.Sound) (kind : DeclarationKind)
    (h : Content.ofTokens [binding] ⊆ l) :
    Sound ⟨False, q, regions⟩ l (transformerDeclarator s home p kind binding) fun d =>
      (Declarator.contentAll [d]).filter Content.isPiece := by
  intro stream run hr _ _ hl
  have hbinding : Known False run.events (Content.ofTokens [binding]) := .of_tokens (hl.right.mono h).tokens
  let run₁ : Run := { run with events := .declaring binding :: run.events }
  have hr₁ : run₁.Sound := by
    refine hr.step (e := .declaring binding) (by simp [Event.scope?]) (fun p hp => ?_) rfl ?_ hr.nextFresh hr.bindings rfl
      rfl rfl rfl
    · exact hbinding.tokens p (by simpa [Token.piecesAll] using hp)
    · rw [History.scopes_cons]
      exact hr.nextScope
  have hbegan : History.Began run₁.events binding run₁.store.count := by
    refine ⟨[], run.events, rfl, ?_⟩
    rw [Store.count, ← Array.length_toList, hr₁.bindings]
    rfl
  rw [transformerDeclarator_eq]
  refine yields_lift_bind (P := fun _ run' => run₁ = run') rfl ?_
  rintro _ _ rfl
  refine yields_lift_bind (P := fun r run' => run₁ = r ∧ run₁ = run') ⟨rfl, rfl⟩ ?_
  rintro _ _ ⟨rfl, rfl⟩
  refine yields_bind (declared_ends s home hp hr₁ _ hbegan ((hbinding.union (known_stream hl.left)).append [_])) ?_
  rintro init stream₂ run₂ ⟨hafter, hk⟩
  have he₁ : run.Extends False run₁ := ⟨⟨[.declaring binding], rfl, False.elim⟩, fun _ h => h, fun _ h => h⟩
  refine ⟨hafter.1, ⟨he₁.trans hafter.2, False.elim⟩, ?_⟩
  refine .union (known_pieces (hk.mono ?_)) (known_stream hk.right.right)
  simp only [Declarator.contentAll, Expression.contentOption]
  grind

theorem sound_declarationKeyword (home : Home) : Sound m l (declarationKeyword home) fun _ => [] := by
  refine .bind sound_peek fun t => ?_
  split
  · exact .pure (nil_subset _)
  · refine .ite (fun _ => .pure (nil_subset _)) fun _ => ?_
    refine .bind (sound_peekNthIs _ _) fun _ => ?_
    exact .ite (fun _ => .pure (nil_subset _)) fun _ => .pure (nil_subset _)

theorem sound_variableDeclarator (hp : p.Sound) {binding : Token} (h : Content.ofTokens [binding] ⊆ l) :
    Sound m l (variableDeclarator p binding) fun d => Declarator.contentAll [d] := by
  have tail : ∀ (k : List Content) (init : Option Expression), Content.ofTokens [binding] ⊆ k →
      Expression.contentOption init ⊆ k → Sound m k (do
        let last ← previousSite
        return ({ binding, init, site := binding.site.cover last } : Declarator)) fun d => Declarator.contentAll [d] := by
    intro k init hb hi
    refine .bind sound_previousSite fun _ => .pure ?_
    simp only [Declarator.contentAll]
    grind
  refine .bind (.lift (Expand.sound_bindVariable h)) fun _ => ?_
  refine .bind (sound_eat "=") fun _ => .ite (fun _ => ?_) fun _ => ?_
  · refine .bind (.map (R := Expression.contentOption) hp.assign fun e => subset_append_left _ _) fun init => ?_
    exact tail _ init (by grind) (by grind)
  · exact tail _ none (by grind) (nil_subset _)

/-- What is known of declared names: in declarations of transformers, identifiers do not count. -/
def declaratorsContent (kind : DeclarationKind) (list : List Declarator) : List Content :=
  if kind.declaresTransformers then (Declarator.contentAll list).filter Content.isPiece else Declarator.contentAll list

theorem declaratorsContent_cons (kind : DeclarationKind) (d : Declarator) (list : List Declarator) :
    declaratorsContent kind (d :: list) = declaratorsContent kind [d] ++ declaratorsContent kind list := by
  obtain ⟨binding, init, site⟩ := d
  unfold declaratorsContent
  split <;> simp [Declarator.contentAll]

theorem sound_declarators (s : Setup) (home : Home) (hp : p.Sound) (kind : DeclarationKind) (limit : Nat) :
    Sound ⟨False, q, regions⟩ l (declarators s home p kind limit) (declaratorsContent kind) := by
  induction limit generalizing l with
  | zero => exact sound_exhausted
  | succ limit ih =>
    have tail : ∀ (k : List Content) (first : Declarator), declaratorsContent kind [first] ⊆ k →
        Sound ⟨False, q, regions⟩ k (do
          if ← eat "," then return first :: (← declarators s home p kind limit) else return [first])
          (declaratorsContent kind) := by
      intro k first hfirst
      refine .bind (sound_eat ",") fun _ => .ite (fun _ => ?_) fun _ => .pure (by grind)
      refine .bind ih fun list => .pure ?_
      rw [declaratorsContent_cons]
      grind
    refine .bind (sound_expectIdent _) fun binding => ?_
    by_cases hk : kind.declaresTransformers = true
    · simp only [hk, if_true]
      refine .bind (sound_transformerDeclarator s home hp kind (subset_append_left _ _)) fun first => tail _ _ ?_
      rw [declaratorsContent, if_pos hk]
      exact subset_append_left _ _
    · simp only [hk]
      refine .bind (sound_variableDeclarator hp (subset_append_left _ _)) fun first => tail _ _ ?_
      rw [declaratorsContent, if_neg hk]
      exact subset_append_left _ _

theorem sound_declaration (s : Setup) (home : Home) (hp : p.Sound) (kind : DeclarationKind) :
    Sound ⟨False, q, regions⟩ l (declaration s home p kind) Declaration.content := by
  refine .bind (sound_next _) fun start => .bind (sound_declarators s home hp kind _) fun list => ?_
  refine .bind sound_previousSite fun _ => .pure ?_
  rw [Declaration.content]
  exact subset_append_of_subset_right _ (subset_append_left _ _)

theorem sound_statements (hp : p.Sound) (limit : Nat) :
    Sound ⟨False, q, regions⟩ l (statements p limit) Statement.contentAll := by
  induction limit generalizing l with
  | zero => exact sound_exhausted
  | succ limit ih =>
    refine .bind sound_atEnd fun _ => .ite (fun _ => .pure (nil_subset _)) fun _ => ?_
    refine .bind hp.stmt fun st => ?_
    cases st with
    | none => exact ih
    | some st =>
      refine .bind ih fun list => .pure ?_
      simp only [Statement.contentAll, Statement.contentOption]
      grind

theorem sound_block (hp : p.Sound) {tokens : List Token} (h : Content.ofTokens tokens ⊆ l) :
    Expand.Sound ⟨False, q, regions⟩ l (block p tokens) Statement.contentAll := by
  refine Expand.sound_freshScope_bind fun scope => ?_
  refine Expand.Sound.bind (Expand.sound_enclose mem_cons_self h) fun inner => ?_
  refine Expand.Sound.bind (Parse.Sound.on (sound_statements hp _) (subset_append_left _ _)) fun r => ?_
  exact Expand.Sound.pure (by grind)

theorem sound_requiredStatement (hp : p.Sound) :
    Sound ⟨False, q, regions⟩ l (requiredStatement p) Statement.content := by
  refine .bind hp.stmt fun st => ?_
  cases st with
  | none => exact .bind sound_previousSite fun _ => .pure (nil_subset _)
  | some st => exact .pure (subset_append_left _ _)

theorem sound_test (hp : p.Sound) : Sound m l (test p) Expression.content := by
  refine .bind (sound_expectGroup _ _) fun r => ?_
  exact .lift (Expand.sound_groupExpression hp (subset_append_left _ _) _)

theorem sound_branch (hp : p.Sound) (start : Site) :
    Sound ⟨False, q, regions⟩ l (branch p start) Statement.content := by
  have tail : ∀ (k : List Content) (e : Expression) (c : Statement) (a : Option Statement),
      e.content ++ c.content ++ Statement.contentOption a ⊆ k → Sound ⟨False, q, regions⟩ k (do
        let last ← previousSite
        return Statement.branch e c a (start.cover last)) Statement.content := by
    intro k e c a h
    exact .bind sound_previousSite fun _ => .pure (by simpa [Statement.content] using h)
  refine .bind sound_advance fun _ => .bind (sound_test hp) fun e => ?_
  refine .bind (sound_requiredStatement hp) fun c => .bind (sound_peekIs _) fun _ => ?_
  refine .ite (fun _ => ?_) fun _ => ?_
  · refine .bind sound_advance fun _ => ?_
    refine .bind (.map (R := Statement.contentOption) (sound_requiredStatement hp)
      fun st => subset_append_left _ _) fun a => tail _ e c a (by grind)
  · exact tail _ e c none (by simp only [Statement.contentOption]; grind)

theorem sound_loop (hp : p.Sound) (start : Site) : Sound ⟨False, q, regions⟩ l (loop p start) Statement.content := by
  refine .bind sound_advance fun _ => .bind (sound_test hp) fun e => ?_
  refine .bind (sound_requiredStatement hp) fun body => .bind sound_previousSite fun _ => .pure ?_
  rw [Statement.content]
  grind

theorem sound_endStatement (start : Site) : Sound m l (endStatement start) fun _ => [] :=
  .bind sound_optionalSemicolon fun _ => .bind sound_previousSite fun _ => .pure (nil_subset _)

theorem sound_returnValue (hp : p.Sound) : Sound m l (returnValue p) Expression.contentOption := by
  have value : ∀ k, Sound m k (some <$> p.assignment) Expression.contentOption :=
    fun k => .map hp.assign fun e => subset_append_left _ _
  refine .bind sound_atEnd fun atEnd => .bind (sound_peekIs _) fun _ => ?_
  exact .ite (fun _ => .pure (nil_subset _)) fun _ => value _

theorem sound_statementAt (s : Setup) (home : Home) (hp : p.Sound) {token : Token} (h : Content.ofTokens [token] ⊆ l) :
    Sound ⟨False, q, regions⟩ l (statementAt s home p token) Statement.content := by
  have ended : ∀ (k : List Content) (f : Site → Statement), (∀ site, (f site).content ⊆ k) →
      Sound ⟨False, q, regions⟩ k (do return f (← endStatement token.site)) Statement.content :=
    fun k f hf => .bind (sound_endStatement _) fun site => .pure (by have := hf site; grind)
  refine .bind (sound_declarationKeyword home) fun kind => ?_
  cases kind with
  | some kind =>
    refine .bind (sound_declaration s home hp kind) fun d => ended _ (.declaration d) fun site => ?_
    exact subset_append_left _ _
  | none =>
    refine .bind (sound_peekNthIs _ _) fun _ => .ite (fun _ => ?_) fun _ => ?_
    · refine .bind (sound_function true) fun fn => .bind sound_previousSite fun _ => .pure ?_
      rw [Statement.content]
      grind
    refine .ite (fun _ => ?_) fun _ => ?_
    · refine .bind sound_advance fun _ => .bind (sound_returnValue hp) fun value => ?_
      exact ended _ (.return value) fun site => subset_append_left _ _
    refine .ite (fun _ => sound_branch hp _) fun _ => .ite (fun _ => sound_loop hp _) fun _ => ?_
    refine .ite (fun _ => ?_) fun _ => ?_
    · refine .bind sound_advance fun _ => .bind hp.assign fun value => ?_
      exact ended _ (.throw value) fun site => subset_append_left _ _
    cases hg : token.group? .brace with
    | some tokens =>
      have := Content.ofTokens_group hg
      refine .bind sound_advance fun _ => .bind (.lift (sound_block hp (by grind))) fun list => ?_
      exact .pure (subset_append_left _ _)
    | none =>
      refine .ite (fun _ => ?_) fun _ => ?_
      · exact .bind sound_advance fun _ => .pure (nil_subset _)
      · exact .bind hp.assign fun value => ended _ (.expression value) fun site => subset_append_left _ _

theorem sound_statementStep (s : Setup) (home : Home) (hp : p.Sound) :
    Sound ⟨False, q, regions⟩ l (statementStep s home p) Statement.contentOption := by
  refine .bind (sound_invokeAll s _) fun _ => .bind sound_peek fun t => ?_
  cases t with
  | none => exact .pure (nil_subset _)
  | some t =>
    exact .map (sound_statementAt s home hp (subset_append_left _ _)) fun st => subset_append_left _ _

end Parse

theorem Expand.sound_body (hp : p.Sound) : BodySound (Expand.body p) := by
  intro q tokens
  constructor
  · refine Expand.Sound.bind (Parse.Sound.on (Parse.sound_statements hp _) (fun _ h => h)) fun r => ?_
    exact (Statement.finishesAll hp.body r.1).sound.of_subset (by grind)
  · exact .bind (.any _) fun r _ => (Statement.finishesAll hp.body (q := q) r.1).gives

end Hygiene
