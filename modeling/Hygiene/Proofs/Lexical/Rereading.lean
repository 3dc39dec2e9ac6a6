import Hygiene.Proofs.Lexical.Expressions

/-!
# Reading the same tokens again

A term may be copied before its functions are completed, so the tokens of one body are expanded more than once. Without
transformers, two readings of tokens that differ only in their scopes build terms that differ only in their scopes, and
so declare the same names.
-/

namespace Hygiene

open Outline Token

/-- Tokens and marks that differ only in their scopes, at the same sites. -/
def Likeness.bare : Likeness where
  token t t' := t.bare = t'.bare
  mark m m' := (m.mapScopes fun _ => .empty) = m'.mapScopes fun _ => .empty
  site := Eq
  number _ _ := True
  unknown := rfl
  cover ha hb := congrArg₂ Site.cover ha hb
  mark_site {m m'} h := by
    have hsite : (m.mapScopes fun _ => .empty).site = (m'.mapScopes fun _ => .empty).site := by rw [h]
    exact hsite
  atom {m a t} h := by
    cases t with
    | atom m' a' =>
      rw [bare_atom, bare_atom] at h
      obtain ⟨hm, rfl⟩ := Tree.atom.inj h
      exact ⟨m', hm, rfl⟩
    | nest =>
      rw [bare_atom, bare_nest] at h
      cases h
  nest {m shape ts t} h := by
    cases t with
    | atom =>
      rw [bare_atom, bare_nest] at h
      cases h
    | nest m' shape' ts' =>
      rw [bare_nest, bare_nest] at h
      obtain ⟨hm, rfl, hts⟩ := Tree.nest.inj h
      rw [← List.forall₂_eq_eq_eq, List.forall₂_map_left_iff, List.forall₂_map_right_iff] at hts
      exact ⟨m', ts', hm, hts, rfl⟩
  text h := by
    have htext := congrArg Tree.text h
    rwa [Token.bare, Token.bare, Tree.text_map, Tree.text_map] at htext
  addScope _ h := (bare_map _ _).trans (h.trans (bare_map _ _).symm)
  removeScope _ h := (bare_map _ _).trans (h.trans (bare_map _ _).symm)

theorem Likeness.bare_reflexive : bare.Reflexive := ⟨fun _ => rfl, fun _ => rfl, fun _ => rfl, fun _ => trivial⟩

namespace Expand

variable {α β : Type} {R : α → α → Prop} {S : β → β → Prop} {x x' : Expand α}

/-- Two expansions lose no transformer. If both succeed without any then their results are in the given relation, in which
every result is to another. -/
structure Rereads (R : α → α → Prop) (x x' : Expand α) : Prop where
  left : Makes .keeping x
  right : Makes .keeping x'
  given : ∀ a, x.MayGive a → ∃ a', R a a'
  given' : ∀ a', x'.MayGive a' → ∃ a, R a a'
  results : ∀ {run run₁ run' run₁' : Run} {a a' : α}, x run = .ok a run₁ → run₁.Plain → x' run' = .ok a' run₁' →
    run₁'.Plain → R a a'

namespace Rereads

theorem of_all (hx : Makes .keeping x) (hx' : Makes .keeping x') (hR : ∀ a a', R a a') : Rereads R x x' :=
  ⟨hx, hx', fun a _ => ⟨a, hR a a⟩, fun a _ => ⟨a, hR a a⟩, fun _ _ _ _ => hR _ _⟩

theorem pure {a a' : α} (h : R a a') : Rereads R (Pure.pure a) (Pure.pure a') where
  left := .pure
  right := .pure
  given _ := by
    rintro ⟨_, _, ⟨⟩⟩
    exact ⟨a', h⟩
  given' _ := by
    rintro ⟨_, _, ⟨⟩⟩
    exact ⟨a, h⟩
  results hx _ hx' _ := by
    cases hx
    cases hx'
    exact h

/-- Both sides go on with related values. -/
theorem bind {f f' : α → Expand β} (hx : Rereads R x x') (hf : ∀ a a', R a a' → Rereads S (f a) (f' a')) :
    Rereads S (x >>= f) (x' >>= f') where
  left := hx.left.bind_mayGive fun a ha =>
    have ⟨a', h⟩ := hx.given a ha
    (hf a a' h).left
  right := hx.right.bind_mayGive fun a' ha =>
    have ⟨a, h⟩ := hx.given' a' ha
    (hf a a' h).right
  given b := by
    rintro ⟨run, run₂, heq⟩
    obtain ⟨a, run₁, h₁, h₂⟩ := bind_eq_ok heq
    obtain ⟨a', h⟩ := hx.given a ⟨run, run₁, h₁⟩
    exact (hf a a' h).given b ⟨run₁, run₂, h₂⟩
  given' b' := by
    rintro ⟨run, run₂, heq⟩
    obtain ⟨a', run₁, h₁, h₂⟩ := bind_eq_ok heq
    obtain ⟨a, h⟩ := hx.given' a' ⟨run, run₁, h₁⟩
    exact (hf a a' h).given' b' ⟨run₁, run₂, h₂⟩
  results := by
    intro run run₂ run' run₂' b b' heq plain heq' plain'
    obtain ⟨a, run₁, h₁, h₂⟩ := bind_eq_ok heq
    obtain ⟨a', run₁', h₁', h₂'⟩ := bind_eq_ok heq'
    obtain ⟨c', hc⟩ := hx.given a ⟨run, run₁, h₁⟩
    obtain ⟨c, hc'⟩ := hx.given' a' ⟨run', run₁', h₁'⟩
    have h := hx.results h₁ ((hf a c' hc).left.of_ok h₂ plain) h₁' ((hf c a' hc').right.of_ok h₂' plain')
    exact (hf a a' h).results h₂ plain h₂' plain'

end Rereads

end Expand

open Expand

/-- Without transformers, readers of tokens that differ only in their scopes build terms that do. -/
def rereading : Parallel .bare where
  Rel := Rereads
  pure_rel := .pure
  bind_rel := .bind
  fail _ _ _ _ := ⟨.fail trivial, .fail trivial, nofun, nofun, nofun⟩
  exhausted := ⟨.exhausted trivial, .exhausted trivial, nofun, nofun, nofun⟩
  record _ := .of_all (fun _ plain => plain) (fun _ plain => plain) fun _ _ => rfl
  freshScope := .of_all (fun _ plain => plain) (fun _ plain => plain) fun _ _ => trivial
  bindVariable _ := .of_all (.mono Change.keeping_inert (inert_bindVariable _))
    (.mono Change.keeping_inert (inert_bindVariable _)) fun _ _ => rfl
  freshLambda := .of_all (fun _ plain => plain) (fun _ plain => plain) fun _ _ => trivial

variable {s : Setup}

/-- Nothing is invoked on either side. -/
theorem rereads_invokeHere (s : Setup) : rereading.Reads Eq (Parse.invokeHere s) (Parse.invokeHere s) := by
  intro stream stream' hs
  refine ⟨(keepingLaw s).invokeHere stream, (keepingLaw s).invokeHere stream', ?_, ?_, fun h plain h' plain' => ?_⟩
  · exact fun r _ => ⟨r, rfl, r.2.alike_self Likeness.bare_reflexive⟩
  · exact fun r _ => ⟨r, rfl, r.2.alike_self Likeness.bare_reflexive⟩
  · obtain ⟨rfl, _⟩ := Parse.invokeHere_of_plain s h plain
    obtain ⟨rfl, _⟩ := Parse.invokeHere_of_plain s h' plain'
    exact ⟨rfl, hs⟩

/-- Declaring a transformer leaves one, so there is nothing to compare. -/
theorem rereads_transformerDeclarator {p : Passes} (hp : (keepingLaw s).Ties p p) (home : Home) :
    rereading.Declares s s home p p := by
  intro sweet kind t t' _ stream stream' _
  refine ⟨(keepingLaw s).transformerDeclarator trivial hp sweet kind t stream,
    (keepingLaw s).transformerDeclarator trivial hp sweet kind t' stream', ?_, ?_, fun h plain => ?_⟩
  · exact fun r _ => ⟨r, r.1.alike_self Likeness.bare_reflexive, r.2.alike_self Likeness.bare_reflexive⟩
  · exact fun r _ => ⟨r, r.1.alike_self Likeness.bare_reflexive, r.2.alike_self Likeness.bare_reflexive⟩
  · exact absurd plain (Parse.bars_transformerDeclarator hp home kind t stream _ _ _ h)

/-- The readers of the parts of terms lose no transformers, and read the same again. -/
structure Passes.Agrees (p : Passes) (s : Setup) : Prop where
  keeping : (keepingLaw s).Ties p p
  rereading : rereading.Ties p p

/-- Passes of every depth agree. -/
theorem agrees_passes (s : Setup) (limit : Nat) (home : Home) : (passes s limit home).Agrees s where
  keeping := (keepingLaw s).ties_passes limit trivial
  rereading := rereading.ties_passes (rereads_invokeHere s)
    (fun limit _ => rereads_transformerDeclarator ((keepingLaw s).ties_passes limit trivial) home) limit

/-! ### The names that are declared -/

theorem Token.key_eq_of_bare {t t' : Token} (h : t.bare = t'.bare) : t.key = t'.key := by
  unfold key Tree.name
  rw [Likeness.ident? (K := .bare) h, Likeness.token_site (K := .bare) h]

/-- Such functions declare the same names. -/
theorem Lambda.Alike.keys_outline {fn fn' : Lambda} (h : fn.Alike .bare fn') :
    keys (fn.outline true) = keys (fn'.outline true) := by
  obtain ⟨_, hname, _⟩ := h
  rw [Lambda.outline_eq, Lambda.outline_eq, keys_append, keys_append]
  cases hname with
  | none => rfl
  | some hbare => simp [declared?, key_eq_of_bare hbare]

theorem Declarator.Alike.keys_outlineAll {list list' : List Declarator}
    (h : List.Forall₂ (Declarator.Alike .bare) list list') :
    keys (Declarator.outlineAll list) = keys (Declarator.outlineAll list') := by
  induction h with
  | nil => rfl
  | cons h _ ih =>
    obtain ⟨hbare, _, _⟩ := h
    simp [Declarator.outlineAll, declared?, key_eq_of_bare hbare, ih]

mutual

/-- Statements that differ only in their scopes declare the same. -/
theorem Statement.Alike.keys_outline : {st st' : Statement} → st.Alike .bare st' → keys st.outline = keys st'.outline
  | _, _, .declaration (.mk hl _) _ => Declarator.Alike.keys_outlineAll hl
  | _, _, .function hf _ => hf.keys_outline
  | _, _, .expression _ _ => by simp [Statement.outline]
  | _, _, .return _ _ => by simp [Statement.outline]
  | _, _, .branch _ hc ha _ => by
    simp only [Statement.outline, keys_append, Expression.keys_outline, hc.keys_outline,
      Statement.Alike.keys_outlineOption ha]
  | _, _, .loop _ hb _ => by simp only [Statement.outline, keys_append, Expression.keys_outline, hb.keys_outline]
  | _, _, .block _ _ => rfl
  | _, _, .empty _ => rfl
  | _, _, .throw _ _ => by simp [Statement.outline]

theorem Statement.Alike.keys_outlineOption : {st st' : Option Statement} → Option.Rel (Statement.Alike .bare) st st' →
    keys (Statement.outlineOption st) = keys (Statement.outlineOption st')
  | _, _, .none => rfl
  | _, _, .some h => h.keys_outline

end

/-- So do statements. -/
theorem Statement.Alike.keys_outlineAll {list list' : List Statement}
    (h : List.Forall₂ (Statement.Alike .bare) list list') :
    keys (Statement.outlineAll list) = keys (Statement.outlineAll list') := by
  induction h with
  | nil => rfl
  | cons h _ ih => rw [Statement.outlineAll, Statement.outlineAll, keys_append, keys_append, h.keys_outline, ih]

/-- Expanding a body again declares the same. -/
theorem Passes.Agrees.keys_body {p : Passes} (hp : p.Agrees s) {tokens : List Token} {list list' : List Statement}
    {run run₁ run' run₁' : Run} (h : p.body tokens run = .ok list run₁) (plain : run₁.Plain)
    (h' : p.body tokens run' = .ok list' run₁') (plain' : run₁'.Plain) :
    keys (Statement.outlineAll list) = keys (Statement.outlineAll list') :=
  Statement.Alike.keys_outlineAll
    ((hp.rereading.body tokens tokens (Likeness.bare_reflexive.tokens tokens)).results h plain h' plain')

end Hygiene
