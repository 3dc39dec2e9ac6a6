import Hygiene.Proofs.Expand.Inert
import Hygiene.Proofs.Expand.Modules
import Hygiene.Proofs.Parallel.Equal

/-!
# Laws of reading

A law relates what two setups make of the same reading. It goes through composition and holds of everything that only
reads; what is left to show is that it holds where transformers are invoked and where they are declared. With one setup
on both sides, and a relation that looks at one side only, a law is an invariant.
-/

namespace Hygiene

namespace Parse

/-- A relation that goes through composition holds of declarations if it holds of what only reads and of settling. -/
theorem declared_of_settle (s s' : Setup) (Rel : {α : Type} → Expand α → Expand α → Prop)
    (bind_rel : ∀ {α β : Type} {x x' : Expand α} {f f' : α → Expand β},
      Rel x x' → (∀ a, x.MayGive a ∨ x'.MayGive a → Rel (f a) (f' a)) → Rel (x >>= f) (x' >>= f'))
    (inert : ∀ {α : Type} {x : Expand α}, x.Inert → Rel x x) {home : Home} {binding : Token}
    (settle : ∀ (early : Option BindingId) {init : Expression}, Completed init.lambdas →
      Rel (Expand.settle s home binding early init) (Expand.settle s' home binding early init)) (recursive : Bool)
    {x x' : Parse Expression} (hx : ∀ stream, Rel (x stream) (x' stream))
    (hc : ∀ stream r, (x stream).MayGive r ∨ (x' stream).MayGive r → Completed r.1.lambdas) (stream : Stream) :
    Rel (declared s home binding recursive x stream) (declared s' home binding recursive x' stream) := by
  have hearly : (Expand.bindEarly binding recursive).Inert := by
    cases recursive
    · exact .pure
    · exact .bind (Expand.inert_bind _ _ _) fun _ => .pure
  refine bind_rel (inert (Makes.lift hearly stream)) fun early _ => bind_rel (hx early.2) fun init hinit => ?_
  exact bind_rel (bind_rel (settle early.1 (hc early.2 init hinit)) fun _ _ => inert .pure) fun _ _ => inert .pure

end Parse

/-- A relation between what two setups make of the same reading. -/
structure Law (s s' : Setup) where
  /-- The modules whose code is read. -/
  Covers : Home → Prop := fun _ => True
  Rel {α : Type} : Expand α → Expand α → Prop
  /-- The relation goes through composition. The second parts start from a result of one of the first. -/
  bind_rel {α β : Type} {x x' : Expand α} {f f' : α → Expand β} :
    Rel x x' → (∀ a, x.MayGive a ∨ x'.MayGive a → Rel (f a) (f' a)) → Rel (x >>= f) (x' >>= f')
  inert {α : Type} {x : Expand α} : x.Inert → Rel x x
  exhausted {α : Type} : Rel (Expand.exhausted (α := α)) Expand.exhausted
  invokeHere (stream : Stream) : Rel (Parse.invokeHere s stream) (Parse.invokeHere s' stream)
  /-- Transformers are declared in one dialect only, and their initializers are completed before. -/
  declared {home : Home} (covers : Covers home) (sweet : home.dialect = .sweet) (binding : Token) (recursive : Bool)
      {x x' : Parse Expression} :
    (∀ stream, Rel (x stream) (x' stream)) →
    (∀ stream r, (x stream).MayGive r ∨ (x' stream).MayGive r → Completed r.1.lambdas) → ∀ stream,
      Rel (Parse.declared s home binding recursive x stream) (Parse.declared s' home binding recursive x' stream)

namespace Law

variable {s s' : Setup} {L : Law s s'} {α β : Type} {x : Parse α} {x' : Expand α}

theorem Rel.pure {a : α} : L.Rel (Pure.pure a) (Pure.pure a) := L.inert .pure

theorem Rel.bind {x : Expand α} {f f' : α → Expand β} (hx : L.Rel x x') (hf : ∀ a, L.Rel (f a) (f' a)) :
    L.Rel (x >>= f) (x' >>= f') := L.bind_rel hx fun a _ => hf a

theorem Rel.map {x : Expand α} {f : α → β} (hx : L.Rel x x') : L.Rel (f <$> x) (f <$> x') := by
  rw [map_eq_pure_bind, map_eq_pure_bind]
  exact .bind hx fun _ => .pure

theorem Rel.ite {p : Prop} [Decidable p] {x y y' : Expand α} (hx : L.Rel x x') (hy : L.Rel y y') :
    L.Rel (if p then x else y) (if p then x' else y') := by
  split
  · exact hx
  · exact hy

/-- The relation holds from every stream. -/
def Reads (L : Law s s') (x x' : Parse α) : Prop := ∀ stream, L.Rel (x stream) (x' stream)

theorem Reads.inert (h : Parse.Inert x) : L.Reads x x := fun stream => L.inert (h stream)

theorem Reads.pure {a : α} : L.Reads (Pure.pure a) (Pure.pure a) := .inert .pure

theorem Reads.bind {x' : Parse α} {f f' : α → Parse β} (hx : L.Reads x x') (hf : ∀ a, L.Reads (f a) (f' a)) :
    L.Reads (x >>= f) (x' >>= f') := fun stream => .bind (hx stream) fun r => hf r.1 r.2

/-- What only reads can be passed over. -/
theorem Reads.after {f f' : α → Parse β} (hx : Parse.Inert x) (hf : ∀ a, L.Reads (f a) (f' a)) :
    L.Reads (x >>= f) (x >>= f') := .bind (.inert hx) hf

/-! ### Readers -/

/-- The two computations can be seen as giving pairs of related results, and the law holds of that. -/
def Couples (L : Law s s') (R : α → α → Prop) (x x' : Expand α) : Prop :=
  ∃ y y' : Expand { r : α × α // R r.1 r.2 }, L.Rel y y' ∧ x = (·.1.1) <$> y ∧ x' = (·.1.2) <$> y'

namespace Couples

variable {R : α → α → Prop} {S : β → β → Prop} {x x' : Expand α}

theorem of_rel (h : L.Rel x x') (hR : ∀ a, R a a) : L.Couples R x x' :=
  ⟨(fun a => ⟨(a, a), hR a⟩) <$> x, (fun a => ⟨(a, a), hR a⟩) <$> x', .map h, by simp, by simp⟩

theorem of_inert (h : x.Inert) (hR : ∀ a, R a a) : L.Couples R x x := of_rel (L.inert h) hR

theorem rel (h : L.Couples R x x') (hR : ∀ a a', R a a' → a = a') : L.Rel x x' := by
  obtain ⟨y, y', hy, rfl, rfl⟩ := h
  have heq : (fun r : { r : α × α // R r.1 r.2 } => r.1.2) = fun r => r.1.1 := funext fun r => (hR _ _ r.2).symm
  rw [heq]
  exact .map hy

/-- The second parts are chosen for each pair of results. -/
theorem bind {f f' : α → Expand β} (hx : L.Couples R x x') (hf : ∀ a a', R a a' → L.Couples S (f a) (f' a')) :
    L.Couples S (x >>= f) (x' >>= f') := by
  obtain ⟨y, y', hy, rfl, rfl⟩ := hx
  choose g g' hg hfst hsnd using fun r : { r : α × α // R r.1 r.2 } => hf r.1.1 r.1.2 r.2
  refine ⟨y >>= g, y' >>= g', .bind hy hg, ?_, ?_⟩
  · simp only [bind_map_left, map_bind, hfst]
  · simp only [bind_map_left, map_bind, hsnd]

end Couples

/-- A law compares readers of the same tokens. -/
def parallel (L : Law s s') : Parallel .equal where
  Rel := L.Couples
  pure_rel {α R a a'} h := ⟨Pure.pure ⟨(a, a'), h⟩, _, .pure, rfl, rfl⟩
  bind_rel := .bind
  fail fault := by
    rintro site _ rfl
    exact ⟨Expand.fail (.parse fault) site, _, L.inert (.fail rfl), rfl, rfl⟩
  exhausted := ⟨Expand.exhausted, _, L.exhausted, rfl, rfl⟩
  record := by
    rintro _ _ (⟨rfl, h⟩ | ⟨rfl, h⟩ | h | h)
    · cases Likeness.equal_tokens.1 h
      exact .of_inert (Expand.inert_record ⟨rfl, rfl⟩) fun _ => rfl
    · cases Likeness.equal_tokens.1 h
      exact .of_inert (Expand.inert_record ⟨rfl, rfl⟩) fun _ => rfl
    · cases h
      exact .of_inert (Expand.inert_record ⟨rfl, rfl⟩) fun _ => rfl
    · cases h
      exact .of_inert (Expand.inert_record ⟨rfl, rfl⟩) fun _ => rfl
  freshScope := .of_inert (Expand.inert_freshScope fun _ => ⟨rfl, rfl⟩) fun _ => rfl
  bindVariable := by
    rintro t _ rfl
    exact .of_inert (Expand.inert_bindVariable t) fun _ => rfl
  freshLambda := .of_inert Expand.inert_freshLambda fun _ => rfl

theorem Reads.parallel {x' : Parse α} {R : α → α → Prop} (hx : L.Reads x x') (hR : ∀ a, R a a) :
    L.parallel.Reads R x x' := by
  intro stream stream' hs
  cases hs.eq
  exact Couples.of_rel (R := fun r r' => R r.1 r'.1 ∧ r.2.Alike .equal r'.2) (hx stream) fun r =>
    ⟨hR r.1, r.2.alike_self Likeness.equal_reflexive⟩

theorem Reads.of_parallel {x' : Parse α} {R : α → α → Prop} (hx : L.parallel.Reads R x x')
    (hR : ∀ a a', R a a' → a = a') : L.Reads x x' := by
  intro stream
  have hcouples : L.Couples (fun r r' => R r.1 r'.1 ∧ r.2.Alike .equal r'.2) (x stream) (x' stream) :=
    hx stream stream (stream.alike_self Likeness.equal_reflexive)
  exact hcouples.rel fun _ _ h => Prod.ext (hR _ _ h.1) h.2.eq

/-- The law holds between the readers of the parts of terms, which are sound. -/
structure Ties (L : Law s s') (p p' : Passes) : Prop where
  parallel : L.parallel.Ties p p'
  sound : p.Sound
  sound' : p'.Sound

variable {p p' : Passes} {home : Home}

theorem Ties.statement (hp : L.Ties p p') : L.Reads p.statement p'.statement :=
  .of_parallel hp.parallel.statement fun _ _ h => h.eq_of_mem fun _ _ _ h => h.eq

theorem Ties.body (hp : L.Ties p p') (tokens : List Token) : L.Rel (p.body tokens) (p'.body tokens) :=
  (hp.parallel.body _ _ (Likeness.equal_tokens.2 rfl)).rel fun _ _ h => h.eq_of_mem fun _ _ _ h => h.eq

open Parse Expand

theorem completeItem {body body' : List Token → Expand (List Statement)}
    (hb : ∀ tokens, L.Rel (body tokens) (body' tokens)) (item : ModuleItem) :
    L.Rel (item.complete body) (item.complete body') := by
  refine (Parallel.completeItem (P := L.parallel) (fun ts ts' hts => ?_) (item.alike_self Likeness.equal_reflexive)).rel
    fun _ _ h => h.eq
  cases Likeness.equal_tokens.1 hts
  exact .of_rel (hb ts) fun _ => List.forall₂_same.2 fun s _ => s.alike_self Likeness.equal_reflexive

theorem initializer (hp : L.Ties p p') (binding : Token) (mark : Nat) :
    L.Reads (initializer p binding mark) (Parse.initializer p' binding mark) := by
  refine Reads.of_parallel (R := Expression.Alike .equal) ?_ fun _ _ h => h.eq
  refine .after (Parallel.expectPunct "=") fun _ => .bind hp.parallel.assignment fun _ _ h => ?_
  refine .bind (.lift (Parallel.complete hp.parallel.body h)) fun init init' h => ?_
  cases h.eq
  exact .after (.lift (.of_inert (inert_acceptInitializer _ _ _) fun _ => rfl)) fun _ => .pure h

theorem transformerMeaning (hc : L.Covers home) (hp : L.Ties p p') (hs : home.dialect = .sweet) (kind : DeclarationKind)
    (binding : Token) : L.Reads (transformerMeaning s home p kind binding) (Parse.transformerMeaning s' home p' kind binding) := by
  have hcompleted : ∀ {p : Passes}, p.Sound → ∀ mark stream r,
      Expand.MayGive (Parse.initializer p binding mark stream) r → Completed r.1.lambdas := by
    rintro p hp mark stream r ⟨run, run', heq⟩
    obtain ⟨_, _, _, _, heq⟩ := Parse.bind_eq_ok heq
    obtain ⟨first, _, _, _, heq⟩ := Parse.bind_eq_ok heq
    obtain ⟨init, _, _, hinit, heq⟩ := Parse.bind_eq_ok heq
    obtain ⟨_, _, _, _, heq⟩ := Parse.bind_eq_ok heq
    cases heq
    obtain ⟨_, _, hinit, hlift⟩ := Expand.bind_eq_ok hinit
    cases hlift
    exact (first.finishes hp.body (q := True)).gives _ _ _ hinit
  refine .after inert_run fun run => .bind ?_ fun init => ?_
  · exact L.declared hc hs binding _ (initializer hp binding _) fun stream r hr =>
      hr.elim (hcompleted hp.sound _ stream r) (hcompleted hp.sound' _ stream r)
  · exact .after inert_previousSite fun _ => .pure

theorem transformerDeclarator (hc : L.Covers home) (hp : L.Ties p p') (hs : home.dialect = .sweet) (kind : DeclarationKind)
    (binding : Token) : L.Reads (transformerDeclarator s home p kind binding) (Parse.transformerDeclarator s' home p' kind binding) := by
  rw [transformerDeclarator_eq, transformerDeclarator_eq]
  exact .after (.lift (inert_record ⟨rfl, rfl⟩)) fun _ => transformerMeaning hc hp hs kind binding

theorem declares (hc : L.Covers home) (hp : L.Ties p p') : L.parallel.Declares s s' home p p' := by
  rintro hs kind t _ rfl
  exact Reads.parallel (transformerDeclarator hc hp hs kind t) (Declarator.alike_self Likeness.equal_reflexive)

theorem invokes (L : Law s s') : L.parallel.Reads Eq (Parse.invokeHere s) (Parse.invokeHere s') :=
  Reads.parallel L.invokeHere fun _ => rfl

/-- A law holds of the readers of terms, however deep they may go. -/
theorem ties_passes (L : Law s s') (limit : Nat) {home : Home} (hc : L.Covers home) :
    L.Ties (passes s limit home) (passes s' limit home) where
  parallel := L.parallel.ties_passes L.invokes
    (fun limit h => declares hc ⟨h, passes_sound s limit home, passes_sound s' limit home⟩) limit
  sound := passes_sound s limit home
  sound' := passes_sound s' limit home

theorem exportItem (hc : L.Covers home) (hp : L.Ties p p') :
    L.Reads (exportItem s home p) (Parse.exportItem s' home p') :=
  .of_parallel (Parallel.exportItem (declares hc hp) hp.parallel) fun _ _ h => h.eq

section

variable (hc : L.Covers home) (hp : L.Ties p p')
  (himport : ∀ imported, L.Rel (processImport s p imported) (processImport s' p' imported))

include himport in
theorem imports (i i' : Import) (h : i.Alike .equal i') : L.parallel.Rel Eq (processImport s p i) (processImport s' p' i') := by
  cases h.eq
  exact .of_rel (himport i) fun _ => rfl

include hc hp himport

theorem moduleItem : L.Reads (moduleItem s home p) (Parse.moduleItem s' home p') := by
  refine .of_parallel (Parallel.moduleItem L.invokes (declares hc hp) (imports himport) hp.parallel) fun _ _ h => ?_
  cases h with
  | none => rfl
  | some h => rw [h.eq]

theorem moduleItems (limit : Nat) : L.Reads (moduleItems s home p limit) (Parse.moduleItems s' home p' limit) :=
  .of_parallel (Parallel.moduleItems L.invokes (declares hc hp) (imports himport) hp.parallel limit) fun _ _ h =>
    List.forall₂_eq_eq_eq ▸ h.imp fun _ _ h => h.eq

/-- A law holds of the items of modules if it holds where modules are imported. -/
theorem expandItems (tokens : List Token) :
    L.Rel (Expand.moduleItems s home p tokens) (Expand.moduleItems s' home p' tokens) :=
  (Parallel.expandItems L.invokes (declares hc hp) (imports himport) hp.parallel (Likeness.equal_tokens.2 rfl)).rel
    fun _ _ h => List.forall₂_eq_eq_eq ▸ h.imp fun _ _ h => h.eq

end

end Law

end Hygiene
