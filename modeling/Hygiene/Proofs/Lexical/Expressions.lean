import Hygiene.Proofs.Lexical.Reading

/-!
# Expressions are read in regions

One lemma for each reader of expressions. The scope of a function or an arrow is a region of its own, and what it leaves
of the stream goes back to the region around it.
-/

namespace Hygiene

variable {l : List Outline} {params tokens : List Token} {F : ScopeId} {token : Token}

open Outline

/-- The readers of parts read in regions, whatever bodies declare. A body is expanded completely. -/
structure Passes.Lexical (p : Passes) : Prop where
  assignment : ∀ d c, Parse.Lex d c c True [] p.assignment (fun _ => True) Expression.outline
  unary : ∀ d c, Parse.Lex d c c True [] p.unary (fun _ => True) Expression.outline
  statement : ∀ d c, Parse.Lex d c c True [] p.statement (fun _ => True) Statement.outlineOption
  body : ∀ d c tokens, Expand.Lex d c (Token.Uniform c tokens) [] (p.body tokens)
    (fun list => CompleteAll (Statement.outlineAll list)) Statement.outlineAll
  load : ∀ d c specifier site, Expand.Lex d c True [] (p.load specifier site) (fun _ => True) fun _ => []

variable {d : List Token → List Key} {u c : ScopeSet} {φ : Prop} {k : List Outline} {p : Passes}

theorem Passes.Lexical.assign (hp : p.Lexical) :
    Parse.Adds d c c φ k p.assignment Expression.outline :=
  ((hp.assignment d c).assume fun _ => trivial).frame

theorem Passes.Lexical.operand (hp : p.Lexical) :
    Parse.Adds d c c φ k p.unary Expression.outline :=
  ((hp.unary d c).assume fun _ => trivial).frame

/-- Expressions declare nothing. -/
@[simp] theorem Expression.keys_outline (e : Expression) : keys e.outline = [] := by simp [keys]

@[simp] theorem Expression.keys_outlineOption (e : Option Expression) : keys (Expression.outlineOption e) = [] := by
  simp [keys]

/-- What stands in the scope of a function. -/
def Lambda.parts (declares : Bool) : Lambda → List Outline
  | ⟨_, name, params, rest, body, _, _⟩ =>
    ((if declares then [] else name.toList) ++ params ++ rest.toList).map declare ++ body.outline

/-- A function declares its name outside the scope of its parts. -/
theorem Lambda.outline_eq (declares : Bool) (fn : Lambda) : fn.outline declares =
    (if declares then fn.name.toList else []).map declare ++ [scope (fn.parts declares)] := by
  obtain ⟨_, name, params, rest, body, _, _⟩ := fn
  rw [Lambda.outline, Lambda.parts]

theorem Token.Uniform.splitCommas (h : Token.Uniform c tokens) :
    Token.Uniform c (Token.splitCommas tokens).flatten := h.mono (Token.splitCommas_subset tokens)

/-- The parts of a scope. -/
def Outline.inside : List Outline → List Outline
  | [scope parts] => parts
  | _ => []

namespace Expand

/-- Entering a region adds its scope to the tokens. -/
theorem lex_enclose (F : ScopeId) (tokens : List Token) :
    Lex d c φ k (enclose F tokens) (fun ts => ts = Token.wrap F tokens) fun _ => k :=
  .bind (still_record _).lex fun _ => Lex.done (fun _ => rfl) rfl

/-- Leaving it takes the scope away. -/
theorem lex_leave (F : ScopeId) (tokens : List Token) :
    Lex d c φ k (leave F tokens) (fun ts => ts = Token.strip F tokens) fun _ => k :=
  .bind (still_record _).lex fun _ => Lex.done (fun _ => rfl) rfl

/-- Parameters are declared in the region of their function. -/
theorem lex_parameters {parts : List (List Token)} (h : φ → Token.Uniform c parts.flatten) :
    Adds d (c.insert F) φ k (parameters F parts) fun r => (r.1 ++ r.2.toList).map declare := by
  induction parts generalizing φ k with
  | nil => exact .here (by simp)
  | cons part parts ih =>
    have hpart : φ → ∀ t ∈ part, (t.addScope F).scopes = c.insert F := fun hφ t ht =>
      ((h hφ).of_mem (List.mem_append_left _ ht)).addScope.scopes_eq
    have hparts : φ → Token.Uniform c parts.flatten := fun hφ => (Token.uniform_append.1 (h hφ)).2
    have hident : ∀ {t : Token}, t.isIdent = true → (t.addScope F).isIdent = true := fun h =>
      (Token.isIdent_addScope F _).trans h
    unfold parameters
    split
    · next ident =>
      refine .ite (fun hi => ?_) fun _ => .fail
      refine .bind (lex_bindVariable fun hφ => ⟨hpart hφ _ List.mem_cons_self, hident hi⟩) fun _ => ?_
      refine .bind (ih fun hφ => hparts hφ.2) fun r => .here (by simp)
    · next dots ident =>
      refine .ite (fun hi => ?_) fun _ => .fail
      have hi := (Bool.and_eq_true_iff.1 hi).2
      refine .bind (lex_bindVariable fun hφ => ⟨hpart hφ _ (by simp), hident hi⟩) fun _ => ?_
      split
      · exact .here (by simp)
      · exact .fail
    · exact .fail

/-- A group is read in the region of its tokens. -/
theorem lex_groupExpression (hp : p.Lexical) (h : φ → Token.Uniform c tokens) (site : Site) :
    Adds d c φ k (groupExpression p tokens site) Expression.outline := by
  refine .ite (fun _ => .fail) fun _ => ?_
  refine .bind (Parse.Lex.on (u := c) (Q := fun _ => True) (L := fun e => k ++ e.outline) ?_ h) fun r =>
    .here rfl
  refine Parse.Lex.bind hp.assign fun value => Parse.Lex.bind Parse.lex_atEnd fun _ => ?_
  exact Parse.Lex.ite (fun _ => .here rfl) fun _ => Parse.lex_unexpected _

end Expand

namespace Parse

/-- A comma is read unless the end is reached; either way the reading goes on. -/
theorem lex_unlessAtEnd {α : Type} {Q : α → Prop} {L : α → List Outline} {x : Parse α}
    (hx : ∀ ψ : Prop, (ψ → φ) → Lex d u c ψ k x Q L) :
    Lex d u c φ k (do
      unless ← atEnd do expectPunct ","
      x) Q L := by
  refine .bind lex_atEnd fun _ => .ite (fun _ => hx _ And.right) fun _ => ?_
  exact .bind (lex_expectPunct ",") fun _ => hx _ fun h => h.2.2

/-- Items of lists are placed in the region around. -/
theorem lex_listItems (hp : p.Lexical) (limit : Nat) :
    Adds d c c φ k (listItems p limit) Expression.outlineAll := by
  induction limit generalizing φ k with
  | zero => exact lex_exhausted
  | succ limit ih =>
    refine .bind lex_atEnd fun _ => .ite (fun _ => .here ?_) fun _ => ?_
    · rw [Expression.outlineAll, List.append_nil]
    · refine .bind hp.assign fun item => lex_unlessAtEnd fun _ _ => ?_
      refine .bind ih fun items => .here ?_
      rw [Expression.outlineAll, List.append_assoc]

/-- An identifier of the region is placed in it. -/
theorem lex_ident {site : Site} (h : φ → token.scopes = c) (hi : token.isIdent = true) :
    Adds d u c φ k (pure (Expression.ident token site)) Expression.outline := by
  refine .pure (fun _ => trivial) ?_ fun hφ R store hk => ?_
  · simp
  · exact placedAll_append.2 ⟨hk, ⟨h hφ, hi⟩, trivial⟩

theorem lex_propertyValue (hp : p.Lexical) {key : Token} (h : φ → Token.Uniform c [key]) :
    Adds d c c φ k (propertyValue p key) Expression.outline := by
  refine .bind (lex_eat ":") fun _ => .ite (fun _ => hp.assign) fun _ => .ite (fun hi => ?_) fun _ => ?_
  · refine .bind (.lift (Expand.still_record _).lex) fun _ => ?_
    exact lex_ident (fun hφ => (h hφ.2.2).scopes_eq) hi
  · exact lex_unexpected _

/-- So are properties. -/
theorem lex_listProperties (hp : p.Lexical) (limit : Nat) :
    Adds d c c φ k (listProperties p limit) Property.outlineAll := by
  induction limit generalizing φ k with
  | zero => exact lex_exhausted
  | succ limit ih =>
    refine .bind lex_atEnd fun _ => .ite (fun _ => .here ?_) fun _ => ?_
    · rw [Property.outlineAll, List.append_nil]
    · refine .bind (lex_next _) fun key => ?_
      split
      · exact lex_fail _ _
      · refine .bind (lex_propertyValue hp And.left) fun value => lex_unlessAtEnd fun _ _ => ?_
        refine .bind ih fun items => .here ?_
        rw [Property.outlineAll, List.append_assoc]

/-- The name of a function is an identifier, and a declaration has one. -/
theorem lex_functionName (declares : Bool) : Lex d u c φ k (functionName declares)
    (fun name => (∀ t, name = some t → t.scopes = u ∧ t.isIdent = true) ∧ (declares = true → name.isSome = true))
    fun _ => k := by
  intro stream run r run' h plain
  have hname : (∀ t, r.1 = some t → t.isIdent = true) ∧ (declares = true → r.1.isSome = true) := by
    obtain ⟨before, after⟩ := stream
    cases after with
    | nil =>
      cases declares with
      | true => cases h
      | false =>
        cases h
        exact ⟨nofun, nofun⟩
    | cons token after =>
      have h : (if token.isIdent then some <$> next "a function name" else
          if declares then unexpected "a function name" else pure none : Parse (Option Token)) ⟨before, token :: after⟩ run =
          .ok r run' := h
      split at h
      · next hident =>
        cases h
        exact ⟨fun _ ht => Option.some.inj ht ▸ hident, fun _ => rfl⟩
      · cases declares with
        | true => cases h
        | false =>
          cases h
          exact ⟨nofun, nofun⟩
  have hscopes : Lex d u c φ k (functionName declares) (fun name => ∀ t, name = some t → Token.Uniform u [t])
      fun _ => k := by
    refine .bind (lex_peekIs _) fun _ => .ite (fun _ => ?_) fun _ => ?_
    · exact .bind (lex_next _) fun t => Lex.done (fun h _ ht => Option.some.inj ht ▸ h.1) rfl
    · exact .ite (fun _ => lex_unexpected _) fun _ => Lex.done (fun _ => nofun) rfl
  obtain ⟨plain₀, post⟩ := hscopes stream run r run' h plain
  refine ⟨plain₀, fun hφ R hv ho hk => ?_⟩
  obtain ⟨hQ, rest⟩ := post hφ R hv ho hk
  exact ⟨⟨⟨fun t ht => ⟨(hQ.1 t ht).scopes_eq, hname.1 t ht⟩, hname.2⟩, hQ.2⟩, rest⟩

/-- The parameters and the body of a function, once its name has been declared. -/
theorem lex_functionRest (declares : Bool) (name : Option Token) {body : List Token} (site : Site)
    (hparams : φ → Token.Uniform c params) (hbody : φ → Token.Uniform c body) :
    Lex d u (c.insert F) φ ((if declares then [] else name.toList).map declare) (do
      let r ← (Expand.parameters F (Token.splitCommas params) : Expand _)
      let id ← Expand.freshLambda
      return { id, name, params := r.1, rest := r.2, body := .deferred (Token.wrap F body), arrow := false, site })
      (fun fn => fn.name = name) (Lambda.parts declares) := by
  refine .bind (.lift (Expand.lex_parameters fun hφ => (hparams hφ).splitCommas)) fun r => ?_
  refine .bind (.lift Expand.still_freshLambda.lex) fun id => .pure (fun _ => rfl) ?_ fun hφ R store hk => ?_
  · simp [Lambda.parts, Body.outline, keys, declared?]
  · have hpending : PlacedAll d R store (c.insert F) [pending (Token.wrap F body)] :=
      ⟨(hbody hφ.2.2).wrap, trivial⟩
    rw [Lambda.parts, Body.outline, List.append_assoc, List.map_append]
    exact placedAll_append.2 ⟨hk, hpending⟩

/-- A function opens a region of its own. -/
theorem lex_function (declares : Bool) :
    Adds d c c φ k (function declares) (Lambda.outline declares) := by
  refine .bind (lex_next _) fun start => .bind (lex_functionName declares) fun name => ?_
  refine .bind (lex_expectGroup _ _) fun params => .bind (lex_expectGroup _ _) fun body => ?_
  obtain ⟨params, _⟩ := params
  obtain ⟨body, _⟩ := body
  dsimp only
  cases declares with
  | false =>
    refine (Lex.region (L := Lambda.parts false) fun F => ?_).retell fun fn _ => by rw [fn.outline_eq]; rfl
    refine .bind (.lift (Expand.still_record _).lex) fun _ => ?_
    cases name with
    | none =>
      exact (lex_functionRest false _ _ (fun h => h.2.2.2.1) fun h => h.2.2.1).conseq id (fun _ _ _ => trivial)
        (fun _ _ _ => rfl) fun _ _ _ _ _ h => h
    | some t =>
      refine .bind (.lift (Expand.lex_bindVariable fun h => ?_)) fun _ => ?_
      · obtain ⟨hscopes, hident⟩ := h.2.2.2.2.1.1 t rfl
        exact ⟨by rw [Token.scopes_addScope, hscopes], by rw [Token.isIdent_addScope, hident]⟩
      · exact (lex_functionRest false (some (t.addScope F)) _ (fun h => h.2.2.2.2.1) fun h => h.2.2.2.1).conseq id
          (fun _ _ _ => trivial) (fun _ _ _ => rfl) fun _ _ _ _ _ h => h
  | true =>
    cases name with
    | none =>
      refine (Lex.region (Q := fun fn => fn.name = none) (L := Lambda.parts true) fun F => ?_).conseq id
        (fun _ _ _ => trivial) (fun fn _ h => ?_) fun fn _ _ _ h hL => ?_
      · refine .bind (.lift (Expand.still_record _).lex) fun _ => ?_
        exact lex_functionRest true _ _ (fun h => h.2.2.2.1) fun h => h.2.2.1
      · rw [fn.outline_eq, h]
        rfl
      · rw [fn.outline_eq, h]
        exact hL
    | some t =>
      refine (Lex.declaring (Q := fun fn => fn.name = some t) (L := Lambda.parts true) (fun h => h.2.2.1.1 t rfl)
        fun F => ?_).conseq id (fun _ _ _ => trivial) (fun fn _ h => ?_) fun fn _ _ _ h hL => ?_
      · exact lex_functionRest true _ _ (fun h => h.2.2.1) fun h => h.2.1
      · rw [fn.outline_eq, h]
        rfl
      · rw [fn.outline_eq, h]
        exact hL

/-- The expression of an arrow is read in the region of the arrow, and what it leaves goes back to the one around it. -/
theorem lex_conciseBody (hp : p.Lexical) (hF : φ → ∀ x ∈ c, x < F) :
    Adds d c (c.insert F) φ k (conciseBody p F) Expression.outline := by
  refine .bind lex_get fun stream => .bind (.lift (Expand.lex_enclose F _)) fun tokens => ?_
  refine .bind (.lift (Lex.on (u := c.insert F) hp.assign fun h => ?_)) fun r => ?_
  · rw [h.1]
    exact h.2.1.wrap
  refine .bind (.lift (Expand.lex_leave F _)) fun after => .bind (lex_set fun h => ?_) fun _ =>
    .here rfl
  rw [h.1]
  exact h.2.1.2.strip fun hmem => Nat.lt_irrefl F (hF h.2.2.2.2 F hmem)

/-- The parameters of an arrow are in the region around it. -/
theorem lex_arrowHead :
    Lex d u c φ k arrowHead (fun r => ∀ head params, r = some (head, params) → Token.Uniform u params) fun _ => k := by
  refine .bind (lex_peekNthIs _ _) fun _ => .ite (fun _ => ?_) fun _ => Lex.done (fun _ => nofun) rfl
  refine .bind lex_peek fun head => Lex.done (fun h => ?_) rfl
  intro head' params hr
  obtain ⟨head, rfl, hr⟩ := Option.bind_eq_some_iff.1 hr
  obtain ⟨_, hparams, hpair⟩ := Option.map_eq_some_iff.1 hr
  cases hpair
  unfold arrowParameters? at hparams
  split at hparams
  · cases hparams
    exact h.1 _ rfl
  · exact (h.1 _ rfl).group hparams

/-- The end of an arrow, once its body has been read. -/
theorem lex_arrowRest {head : Token} {rest : Option Token} (body : Body)
    (hk : k = (params ++ rest.toList).map declare ++ body.outline) :
    Lex d u c φ k (do
      let site := head.site.cover (← previousSite)
      let fn : Lambda := { id := ← Expand.freshLambda, name := none, params, rest, body, arrow := true, site }
      return some (.lambda fn site)) (fun e => ∃ parts, Expression.outlineOption e = [scope parts])
      fun e => inside (Expression.outlineOption e) := by
  refine .bind lex_previousSite fun site => .bind (.lift Expand.still_freshLambda.lex) fun id => ?_
  refine Lex.done (fun _ => ⟨_, rfl⟩) ?_
  rw [hk]
  rfl

/-- An arrow opens a region of its own. -/
theorem lex_arrow (hp : p.Lexical) :
    Adds d c c φ k (arrow p) Expression.outlineOption := by
  refine .bind lex_arrowHead fun r => ?_
  match r with
  | none => exact .here (List.append_nil k)
  | some (head, params) =>
    refine .bind lex_advance fun _ => .bind lex_advance fun _ => ?_
    refine Lex.conseq (Lex.region (Q := fun e => ∃ parts, Expression.outlineOption e = [scope parts])
      (L := fun e => inside (Expression.outlineOption e)) fun F => ?_) id (fun _ _ _ => trivial) ?_ ?_
    · refine .bind (.lift (Expand.still_record _).lex) fun _ => ?_
      refine .bind (.lift (Expand.lex_parameters fun h => ?_)) fun r => ?_
      · exact (h.2.2.2.2.1 _ _ rfl).splitCommas
      refine .bind (lex_peekGroup _) fun _ => .ite (fun _ => ?_) fun _ => ?_
      · refine .bind (lex_expectGroup _ _) fun inner => .bind (.lift (Expand.lex_enclose F _)) fun body => ?_
        refine Lex.add (l := [pending body]) rfl (fun h R store => ⟨?_, trivial⟩) (lex_arrowRest (.deferred body) rfl)
        rw [h.1]
        exact h.2.1.wrap
      · refine .bind (lex_conciseBody hp fun h => h.2.2.2.1) fun value => ?_
        exact lex_arrowRest (.concise value) rfl
    · rintro e _ ⟨parts, h⟩
      rw [h]
      rfl
    · rintro e _ _ _ ⟨parts, h⟩ hL
      rw [h] at hL ⊢
      exact hL

end Parse

namespace Template

variable {expression : List Token → Site → Expand Expression}

mutual

theorem lex_readPart (he : ∀ {φ : Prop} {k tokens site}, (φ → Token.Uniform c tokens) →
      Expand.Adds d c φ k (expression tokens site) Expression.outline) :
    (t : Token) → {φ : Prop} → {k : List Outline} → (φ → Token.Uniform c [t]) →
      Expand.Adds d c φ k (readPart expression t) TemplatePart.outline
  | .atom mark a, φ, k, h => by
    rw [readPart]
    exact .here (List.append_nil k)
  | .nest mark .template children, φ, k, h => by
    rw [readPart]
    exact .here (List.append_nil k)
  | .nest mark .unquote children, φ, k, h => by
    rw [readPart]
    refine Expand.Lex.bind (he fun hφ => (h hφ).children) fun value => .here ?_
    rw [TemplatePart.outline]
  | .nest mark (.group delimiter) children, φ, k, h => by
    rw [readPart]
    refine Expand.Lex.bind (lex_readParts he children fun hφ => (h hφ).children) fun parts =>
      .here ?_
    rw [TemplatePart.outline]

theorem lex_readParts (he : ∀ {φ : Prop} {k tokens site}, (φ → Token.Uniform c tokens) →
      Expand.Adds d c φ k (expression tokens site) Expression.outline) :
    (ts : List Token) → {φ : Prop} → {k : List Outline} → (φ → Token.Uniform c ts) →
      Expand.Adds d c φ k (readParts expression ts) TemplatePart.outlineAll
  | [], φ, k, h => by
    rw [readParts]
    exact .here (List.append_nil k)
  | t :: ts, φ, k, h => by
    rw [readParts]
    refine Expand.Lex.bind (lex_readPart he t fun hφ => (Token.uniform_cons.1 (h hφ)).1) fun part => ?_
    refine Expand.Lex.bind (lex_readParts he ts fun hφ => (Token.uniform_cons.1 (h hφ.2)).2) fun parts =>
      .here ?_
    rw [TemplatePart.outlineAll, List.append_assoc]

end

end Template

namespace Parse

theorem lex_templateFollows : Skims d u c φ k templateFollows := lex_peekNthIs _ _

/-- Unquotes are placed in the region around. -/
theorem lex_template (hp : p.Lexical) :
    Adds d c c φ k (template p) Expression.outline := by
  refine .bind lex_advance fun _ => .bind lex_peek fun t => ?_
  cases t with
  | none => exact lex_unexpected _
  | some t =>
    dsimp only
    split
    · next tokens ht =>
      refine .bind lex_advance fun _ => ?_
      refine .bind (.lift (Template.lex_readParts (Expand.lex_groupExpression hp · _) tokens fun h => ?_)) fun parts =>
        .here ?_
      · exact (h.2.1 t rfl).template ht
      · rw [Expression.outline]
    · exact lex_unexpected _

theorem lex_group (hp : p.Lexical) (delimiter : Delimiter) (h : φ → Token.Uniform c tokens)
    (site : Site) : Adds d c c φ k (group p delimiter tokens site) Expression.outline := by
  refine .bind lex_advance fun _ => ?_
  cases delimiter with
  | paren => exact .lift (Expand.lex_groupExpression hp (fun hφ => h hφ.2) site)
  | bracket =>
    refine .bind (.lift (Lex.on (lex_listItems hp _) fun hφ => h hφ.2)) fun r => .here ?_
    rw [Expression.outline]
  | brace =>
    refine .bind (.lift (Lex.on (lex_listProperties hp _) fun hφ => h hφ.2)) fun r => .here ?_
    rw [Expression.outline]

/-- A reference carries the scopes of the region. -/
theorem lex_reference (h : φ → token.scopes = c) (hi : token.isIdent = true) :
    Adds d u c φ k (reference token) Expression.outline := by
  refine .bind lex_advance fun _ => .bind (.lift (Expand.still_record _).lex) fun _ => ?_
  exact lex_ident (fun hφ => h hφ.2.2) hi

theorem lex_word (hp : p.Lexical) (name : String) (h : φ → token.scopes = c) (hi : token.isIdent = true) :
    Adds d c c φ k (word p token name) Expression.outline := by
  have hliteral : ∀ e : Expression, e.outline = [] →
      Adds d c c φ k (advance >>= fun _ => pure e) Expression.outline := fun e he =>
    .bind lex_advance fun _ => .here (by rw [he, List.append_nil])
  unfold word
  split
  · exact hliteral _ rfl
  · exact hliteral _ rfl
  · exact hliteral _ rfl
  · refine .bind (lex_function false) fun fn => .here ?_
    rw [Expression.outline]
  · refine .bind lex_templateFollows fun _ => .ite (fun _ => lex_template hp) fun _ => ?_
    exact lex_reference (fun hφ => h hφ.2) hi
  · exact lex_reference h hi

/-- Nothing is invoked where primary expressions are read. -/
theorem lex_primary (s : Setup) (hp : p.Lexical) :
    Adds d c c φ k (primary s p) Expression.outline := by
  have hliteral : ∀ {ψ : Prop} (e : Expression), e.outline = [] →
      Adds d c c ψ k (advance >>= fun _ => pure e) Expression.outline := fun e he =>
    .bind lex_advance fun _ => .here (by rw [he, List.append_nil])
  refine .bind (lex_invokeAll s _) fun _ => .bind lex_peek fun t => ?_
  cases t with
  | none => exact lex_unexpected _
  | some token =>
    dsimp only
    split
    · exact hliteral _ rfl
    · exact hliteral _ rfl
    · exact lex_word hp _ (fun h => (h.1 _ rfl).scopes_eq) rfl
    · exact .bind lex_templateFollows fun _ => .ite (fun _ => lex_template hp) fun _ => lex_unexpected _
    · exact lex_group hp _ (fun h => (h.1 _ rfl).children) _
    · exact lex_fail _ _
    · exact lex_unexpected _

/-- Suffixes are placed behind their expression. -/
theorem lex_suffixes (hp : p.Lexical) (limit : Nat) {e : Expression} (h : l = k ++ e.outline) :
    Lex d c c φ l (suffixes p limit e) (fun _ => True) fun e => k ++ e.outline := by
  induction limit generalizing φ l e with
  | zero => exact lex_exhausted
  | succ limit ih =>
    refine .bind (lex_eat ".") fun _ => .ite (fun _ => ?_) fun _ => ?_
    · refine .bind (lex_expectIdent _) fun property => ih ?_
      rw [h, Expression.outline]
    refine .bind (lex_peekGroup _) fun _ => .ite (fun _ => ?_) fun _ => ?_
    · refine .bind (lex_expectGroup _ _) fun r => ?_
      refine .bind (.lift (Expand.lex_groupExpression hp And.left _)) fun key => ih ?_
      rw [h, Expression.outline, List.append_assoc]
    refine .bind (lex_peekGroup _) fun _ => .ite (fun _ => ?_) fun _ => .here h.symm
    refine .bind (lex_expectGroup _ _) fun r => ?_
    refine .bind (.lift (Lex.on (lex_listItems hp _) And.left)) fun args => ih ?_
    rw [h, Expression.outline, List.append_assoc]

theorem lex_unaryStep (s : Setup) (hp : p.Lexical) :
    Adds d c c φ k (unaryStep s p) Expression.outline := by
  refine .bind lex_peek fun t => ?_
  split
  · refine .bind lex_advance fun _ => .bind hp.operand fun operand => .here ?_
    rw [Expression.outline]
  · exact .bind (lex_primary s hp) fun e => lex_suffixes hp _ rfl

/-- Operands are placed from left to right. -/
theorem lex_binaryRest {operators : List BinaryOp} {operand : Parse Expression}
    (ho : ∀ {φ : Prop} {k}, Adds d c c φ k operand Expression.outline) (limit : Nat) {left : Expression} (h : l = k ++ left.outline) :
    Lex d c c φ l (binaryRest operators operand limit left) (fun _ => True) fun e => k ++ e.outline := by
  induction limit generalizing φ l left with
  | zero => exact lex_exhausted
  | succ limit ih =>
    refine .bind lex_peek fun t => ?_
    split
    · refine .bind lex_advance fun _ => .bind ho fun right => ih ?_
      rw [h, Expression.outline, List.append_assoc]
    · exact .here h.symm

theorem lex_binary (hp : p.Lexical) (levels : List (List BinaryOp)) :
    Adds d c c φ k (binary p levels) Expression.outline := by
  induction levels generalizing φ k with
  | nil => exact hp.operand
  | cons operators tighter ih => exact .bind ih fun left => lex_binaryRest ih _ rfl

theorem lex_conditional (hp : p.Lexical) :
    Adds d c c φ k (conditional p) Expression.outline := by
  refine .bind (lex_binary hp _) fun test => .bind (lex_eat "?") fun _ => .ite (fun _ => ?_) fun _ => ?_
  · refine .bind hp.assign fun consequent => .bind (lex_expectPunct ":") fun _ => ?_
    refine .bind hp.assign fun alternate => .here ?_
    simp only [Expression.outline, List.append_assoc]
  · exact .here rfl

/-- A compound assignment has its target twice. -/
theorem lex_assignmentStep (hp : p.Lexical) :
    Adds d c c φ k (assignmentStep p) Expression.outline := by
  refine .bind (lex_arrow hp) fun r => ?_
  cases r with
  | some e => exact .here rfl
  | none =>
    rw [Expression.outlineOption, List.append_nil]
    refine .bind (lex_conditional hp) fun target => .bind lex_peek fun t => ?_
    split
    · exact .here rfl
    · refine .ite (fun _ => ?_) fun _ => lex_fail _ _
      refine .bind lex_advance fun _ => .bind hp.assign fun value => ?_
      split
      · refine .pure (fun _ => trivial) ?_ fun _ R store h => ?_
        · simp
        · simp only [Expression.outline, placedAll_append] at h ⊢
          exact ⟨h.1.1, h.1.2, h.1.2, h.2⟩
      · refine .here ?_
        rw [Expression.outline, List.append_assoc]

end Parse

end Hygiene
