import Hygiene.Proofs.Parallel.Alike

/-!
# Reading alike tokens

A way to compare two computations by their results, which goes through composition and holds of the few operations on
runs that readers make, holds of all readers of alike tokens. What is left to show is that it holds where transformers
are invoked and declared. A comparison that looks at one side only is an invariant.
-/

namespace Hygiene

open List

variable {ts ts' : List Token} {p : Prop} {test : Token → Bool}

/-- A way to compare computations, given how their results compare. -/
structure Parallel (K : Likeness) where
  Rel {α : Type} : (α → α → Prop) → Expand α → Expand α → Prop
  pure_rel {α : Type} {R : α → α → Prop} {a a' : α} : R a a' → Rel R (pure a) (pure a')
  bind_rel {α β : Type} {R : α → α → Prop} {S : β → β → Prop} {x x' : Expand α} {f f' : α → Expand β} :
    Rel R x x' → (∀ a a', R a a' → Rel S (f a) (f' a')) → Rel S (x >>= f) (x' >>= f')
  fail {α : Type} {R : α → α → Prop} (fault : ParseFault) {site site' : Site} : K.site site site' →
    Rel R (Expand.fail (.parse fault) site) (Expand.fail (.parse fault) site')
  exhausted {α : Type} {R : α → α → Prop} : Rel R Expand.exhausted Expand.exhausted
  record {event event' : Event} : event.Alike K event' → Rel Eq (Expand.record event) (Expand.record event')
  freshScope : Rel K.number (Expand.freshScope .opened) (Expand.freshScope .opened)
  bindVariable {t t' : Token} : K.token t t' → Rel Eq (Expand.bindVariable t) (Expand.bindVariable t')
  freshLambda : Rel K.number Expand.freshLambda Expand.freshLambda

namespace Parallel

variable {K : Likeness} {P : Parallel K} {α β : Type} {R : α → α → Prop} {S : β → β → Prop}

namespace Rel

variable {x x' : Expand α} {f f' : α → Expand β}

theorem pure {a a' : α} (h : R a a') : P.Rel R (Pure.pure a) (Pure.pure a') := P.pure_rel h

/-- Related values go on with related computations. -/
theorem bind (hx : P.Rel R x x') (hf : ∀ a a', R a a' → P.Rel S (f a) (f' a')) :
    P.Rel S (x >>= f) (x' >>= f') := P.bind_rel hx hf

/-- What gives the same on both sides can be passed over. -/
theorem after (hx : P.Rel Eq x x') (hf : ∀ a, P.Rel S (f a) (f' a)) :
    P.Rel S (x >>= f) (x' >>= f') := .bind hx fun a _ h => h ▸ hf a

theorem ite [Decidable p] {y y' : Expand α} (hx : P.Rel R x x') (hy : P.Rel R y y') :
    P.Rel R (if p then x else y) (if p then x' else y') := by
  split
  · exact hx
  · exact hy

/-- Related lists are walked in step. -/
theorem mapM (h : ∀ a a', R a a' → P.Rel S (f a) (f' a')) {list list' : List α}
    (hlist : Forall₂ R list list') : P.Rel (Forall₂ S) (list.mapM f) (list'.mapM f') := by
  induction hlist with
  | nil =>
    rw [mapM_nil, mapM_nil]
    exact .pure .nil
  | cons ha _ ih =>
    rw [mapM_cons, mapM_cons]
    exact .bind (h _ _ ha) fun _ _ hb => .bind ih fun _ _ hbs => .pure (.cons hb hbs)

end Rel

/-- From alike streams the readers give results that compare so, and leave alike streams. -/
def Reads (P : Parallel K) (R : α → α → Prop) (x x' : Parse α) : Prop :=
  ∀ stream stream', stream.Alike K stream' →
    P.Rel (fun r r' => R r.1 r'.1 ∧ r.2.Alike K r'.2) (x stream) (x' stream')

namespace Reads

variable {x x' : Parse α}

theorem pure {a a' : α} (h : R a a') : P.Reads R (Pure.pure a) (Pure.pure a') := fun _ _ hs => P.pure_rel ⟨h, hs⟩

theorem bind {f f' : α → Parse β} (hx : P.Reads R x x')
    (hf : ∀ a a', R a a' → P.Reads S (f a) (f' a')) : P.Reads S (x >>= f) (x' >>= f') :=
  fun _ _ hs => .bind (hx _ _ hs) fun r r' hr => hf r.1 r'.1 hr.1 r.2 r'.2 hr.2

/-- Both sides go on with the same value. -/
theorem after {f f' : α → Parse β} (hx : P.Reads Eq x x') (hf : ∀ a, P.Reads S (f a) (f' a)) :
    P.Reads S (x >>= f) (x' >>= f') := .bind hx fun a _ h => h ▸ hf a

theorem map {f f' : α → β} (hx : P.Reads R x x') (hf : ∀ a a', R a a' → S (f a) (f' a')) :
    P.Reads S (f <$> x) (f' <$> x') := fun _ _ hs => .bind (hx _ _ hs) fun r r' hr => .pure ⟨hf r.1 r'.1 hr.1, hr.2⟩

/-- Related expansions are related readers. -/
theorem lift {x x' : Expand α} (hx : P.Rel R x x') : P.Reads R (liftM x : Parse α) (liftM x') :=
  fun _ _ hs => .bind hx fun _ _ ha => .pure ⟨ha, hs⟩

theorem ite [Decidable p] {y y' : Parse α} (hx : P.Reads R x x') (hy : P.Reads R y y') :
    P.Reads R (if p then x else y) (if p then x' else y') := by
  split
  · exact hx
  · exact hy

/-- Alike tokens make alike streams. -/
theorem on (hx : P.Reads R x x') (h : Forall₂ K.token ts ts') :
    P.Rel (fun r r' => R r.1 r'.1 ∧ r.2.Alike K r'.2) (Parse.on ts x) (Parse.on ts' x') := hx _ _ ⟨.nil, h⟩

theorem exhausted : P.Reads R (liftM (Expand.exhausted : Expand α)) (liftM (Expand.exhausted : Expand α)) :=
  .lift P.exhausted

/-- Both sides fail at alike sites. -/
theorem fail (fault : ParseFault) {site site' : Site} (h : K.site site site') :
    P.Reads R (Parse.fail fault site) (Parse.fail fault site') := .lift (P.fail fault h)

end Reads

/-! ### Streams -/

theorem get : P.Reads (Stream.Alike K) get get := fun _ _ hs => .pure ⟨hs, hs⟩

theorem set {stream stream' : Stream} (h : stream.Alike K stream') : P.Reads Eq (set stream) (set stream') :=
  fun _ _ _ => .pure ⟨rfl, h⟩

/-- Both sides see alike tokens. -/
theorem peek : P.Reads (Option.Rel K.token) Parse.peek Parse.peek :=
  fun _ _ hs => .pure ⟨Likeness.head? hs.after, hs⟩

theorem peekNth (n : Nat) : P.Reads (Option.Rel K.token) (Parse.peekNth n) (Parse.peekNth n) := by
  intro stream stream' hs
  refine .pure ⟨?_, hs⟩
  rw [← List.head?_drop, ← List.head?_drop]
  exact Likeness.head? (forall₂_drop n hs.after)

theorem atEnd : P.Reads Eq Parse.atEnd Parse.atEnd := by
  rintro ⟨before, after⟩ ⟨before', after'⟩ hs
  refine .pure ⟨?_, hs⟩
  cases hs.after with
  | nil => rfl
  | cons => rfl

/-- A test that likeness keeps gives the same answer. -/
theorem peekIs (h : ∀ {t t'}, K.token t t' → test t = test t') :
    P.Reads Eq (Parse.peekIs test) (Parse.peekIs test) := by
  refine .bind peek fun _ _ ht => .pure ?_
  cases ht with
  | none => rfl
  | some ht => exact h ht

theorem peekNthIs (n : Nat) (h : ∀ {t t'}, K.token t t' → test t = test t') :
    P.Reads Eq (Parse.peekNthIs n test) (Parse.peekNthIs n test) := by
  refine .bind (peekNth n) fun _ _ ht => .pure ?_
  cases ht with
  | none => rfl
  | some ht => exact h ht

theorem peekIsWord (word : String) : P.Reads Eq (Parse.peekIs (·.isWord word)) (Parse.peekIs (·.isWord word)) :=
  peekIs (Likeness.isWord · word)

theorem peekGroup (d : Delimiter) : P.Reads Eq (Parse.peekGroup d) (Parse.peekGroup d) :=
  peekIs fun ht => Likeness.isSome_eq (Likeness.group? ht d)

theorem advance : P.Reads Eq Parse.advance Parse.advance := by
  rintro ⟨before, after⟩ ⟨before', after'⟩ ⟨hbefore, hafter⟩
  refine .pure ⟨rfl, ?_⟩
  cases hafter with
  | nil => exact ⟨hbefore, .nil⟩
  | cons h hs => exact ⟨.cons h hbefore, hs⟩

theorem previousSite : P.Reads K.site Parse.previousSite Parse.previousSite := by
  rintro ⟨before, after⟩ ⟨before', after'⟩ hs
  refine .pure ⟨?_, hs⟩
  cases hs.before with
  | nil => exact K.unknown
  | cons h _ => exact Likeness.token_site h

theorem unexpected (expected : String) : P.Reads R (Parse.unexpected expected) (Parse.unexpected expected) := by
  refine .bind peek fun _ _ ht => ?_
  cases ht with
  | none => exact .bind previousSite fun _ _ hsite => .fail _ hsite
  | some ht =>
    dsimp only
    rw [K.text ht]
    exact .fail _ (Likeness.token_site ht)

/-- Both sides take alike tokens. -/
theorem next (expected : String) : P.Reads K.token (Parse.next expected) (Parse.next expected) := by
  refine .bind peek fun _ _ ht => ?_
  cases ht with
  | none => exact unexpected expected
  | some ht => exact .after advance fun _ => .pure ht

theorem eat (p : String) : P.Reads Eq (Parse.eat p) (Parse.eat p) :=
  .after (peekIs (Likeness.isPunct · p)) fun _ => .ite (.after advance fun _ => .pure rfl) (.pure rfl)

theorem optionalSemicolon : P.Reads Eq Parse.optionalSemicolon Parse.optionalSemicolon :=
  .map (eat ";") fun _ _ _ => rfl

theorem expectPunct (p : String) : P.Reads Eq (Parse.expectPunct p) (Parse.expectPunct p) :=
  .after (eat p) fun _ => .ite (.pure rfl) (unexpected _)

theorem expectIdent (expected : String) : P.Reads K.token (Parse.expectIdent expected) (Parse.expectIdent expected) :=
  .after (peekIs Likeness.isIdent) fun _ => .ite (next _) (unexpected _)

/-- Both sides take groups of alike tokens. -/
theorem expectGroup (d : Delimiter) (expected : String) :
    P.Reads (fun r r' => Forall₂ K.token r.1 r'.1 ∧ K.site r.2 r'.2) (Parse.expectGroup d expected)
      (Parse.expectGroup d expected) := by
  refine .bind peek fun _ _ ht => ?_
  cases ht with
  | none => exact unexpected expected
  | @some t t' ht =>
    have hgroup := Likeness.group? ht d
    dsimp only
    generalize t.group? d = inner, t'.group? d = inner' at hgroup ⊢
    cases hgroup with
    | none => exact unexpected expected
    | some hts => exact .after advance fun _ => .pure ⟨hts, Likeness.token_site ht⟩

/-! ### Scopes -/

variable {scope scope' : ScopeId} (hscope : K.number scope scope')

include hscope

/-- Entering a region keeps tokens alike. -/
theorem enclose (h : Forall₂ K.token ts ts') :
    P.Rel (Forall₂ K.token) (Expand.enclose scope ts) (Expand.enclose scope' ts') :=
  .after (P.record (.enclosed hscope h)) fun _ => .pure (Likeness.wrap hscope h)

/-- Leaving it keeps them alike. -/
theorem leave (h : Forall₂ K.token ts ts') :
    P.Rel (Forall₂ K.token) (Expand.leave scope ts) (Expand.leave scope' ts') :=
  .after (P.record (.left hscope h)) fun _ => .pure (Likeness.strip hscope h)

end Parallel

end Hygiene
