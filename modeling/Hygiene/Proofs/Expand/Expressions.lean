import Hygiene.Proofs.Expand.Bindings
import Hygiene.Proofs.Expand.Completing
import Hygiene.Proofs.Expand.Invocation

/-!
# Reading of expressions is sound

One lemma for each reader of expressions, given that the readers of the parts are sound.
-/

namespace Hygiene

open List

variable {tokens xs ys : List Token} {run run₀ : Run} {scope : ScopeId} {stream stream₀ : Stream} {head token : Token}

/-- The tokens between commas are tokens of the list. -/
theorem Token.splitCommas_subset (tokens : List Token) : (splitCommas tokens).flatten ⊆ tokens := by
  have go : ∀ run ts : List Token, (splitCommas.go run ts).flatten ⊆ run ++ ts := by
    intro run ts
    induction ts generalizing run with
    | nil => simp [splitCommas.go, subset_def]
    | cons t ts ih =>
      rw [splitCommas.go]
      have h1 := ih []
      have h2 := ih (t :: run)
      split
      · rw [flatten_cons]
        grind
      · grind
  intro t ht
  obtain ⟨part, hpart, ht⟩ := mem_flatten.1 ht
  exact go [] tokens (mem_flatten.2 ⟨part, (mem_filter.1 hpart).1, ht⟩)

theorem Token.wrap_subset (h : xs ⊆ ys) : wrap scope xs ⊆ wrap scope ys :=
  map_subset _ h

theorem Content.ofTokens_wrap_subset (h : xs ⊆ ys) :
    ofTokens (Token.wrap scope xs) ⊆ ofTokens (Token.wrap scope ys) := ofTokens_subset (Token.wrap_subset h)

/-- The exported transformers of a module have a meaning. -/
def ModuleRecord.Exported (record : ModuleRecord) (run : Run) : Prop :=
  ∀ e ∈ record.transformerExports, (run.registry.transformer? e.2).isSome = true

/-- The readers of parts are sound. -/
structure Passes.Sound (p : Passes) : Prop where
  assignment : ∀ m, Parse.Sound m [] p.assignment Expression.content
  unary : ∀ m, Parse.Sound m [] p.unary Expression.content
  statement : ∀ q regions, Parse.Sound ⟨False, q, regions⟩ [] p.statement Statement.contentOption
  body : BodySound p.body
  load : ∀ specifier site (run : Run), run.Sound → run.Settled →
    Expand.Ends run (p.load specifier site) fun record run' => run'.Sound ∧ Run.Extends False run run' ∧
      Known True run'.events record.content ∧ record.Exported run'

variable {m : Mode} {l : List Content} {p : Passes}

theorem Passes.Sound.assign (hp : p.Sound) : Parse.Sound m l p.assignment Expression.content :=
  (hp.assignment m).weaken (nil_subset _) fun _ => subset_append_left _ _

theorem Passes.Sound.operand (hp : p.Sound) : Parse.Sound m l p.unary Expression.content :=
  (hp.unary m).weaken (nil_subset _) fun _ => subset_append_left _ _

namespace Expand

theorem sound_parameters {parts : List (List Token)}
    (h : Content.ofTokens (Token.wrap scope parts.flatten) ⊆ l) :
    Sound m l (parameters scope parts) fun r => Content.ofTokens (r.1 ++ r.2.toList) := by
  induction parts generalizing l with
  | nil => exact .pure (nil_subset _)
  | cons part parts ih =>
    rw [flatten_cons] at h
    have hpart : ∀ t ∈ part, Content.ofTokens [t.addScope scope] ⊆ l := by
      intro t ht
      refine List.Subset.trans (Content.ofTokens_subset ?_) h
      simp only [cons_subset, nil_subset, and_true]
      exact mem_map_of_mem (mem_append_left _ ht)
    have hparts : Content.ofTokens (Token.wrap scope parts.flatten) ⊆ l :=
      List.Subset.trans (Content.ofTokens_wrap_subset (subset_append_right _ _)) h
    unfold parameters
    split
    · refine .ite (fun _ => ?_) fun _ => .fail
      refine .bind (sound_bindVariable (hpart _ (by simp))) fun _ => ?_
      refine .bind (ih (subset_append_of_subset_right _ hparts)) fun r => .pure ?_
      have := hpart _ mem_cons_self
      rw [cons_append, Content.ofTokens_cons]
      grind
    · refine .ite (fun _ => ?_) fun _ => .fail
      refine .bind (sound_bindVariable (hpart _ (by simp))) fun _ => ?_
      split
      · exact .pure (hpart _ (by simp))
      · exact .fail
    · exact .fail

theorem sound_groupExpression (hp : p.Sound) (h : Content.ofTokens tokens ⊆ l) (site : Site) :
    Sound m l (groupExpression p tokens site) Expression.content := by
  refine .ite (fun _ => .fail) fun _ => ?_
  refine .bind (Parse.Sound.on (Q := Expression.content) ?_ h) fun r => .pure (by grind)
  refine Parse.Sound.bind hp.assign fun value => Parse.Sound.bind Parse.sound_atEnd fun _ => ?_
  exact Parse.Sound.ite (fun _ => Parse.Sound.pure (by grind)) fun _ => Parse.sound_unexpected _

end Expand

namespace Parse

variable {params : List Token}

/-- A comma is read unless the end is reached; either way the reading goes on. -/
theorem sound_unlessAtEnd {α : Type} {Q : α → List Content} {x : Parse α} (hx : ∀ k, l ⊆ k → Sound m k x Q) :
    Sound m l (do
      unless ← atEnd do expectPunct ","
      x) Q := by
  refine .bind sound_atEnd fun _ => .ite (fun _ => hx _ (subset_append_right _ _)) fun _ => ?_
  exact .bind (sound_expectPunct ",") fun _ => hx _ (by grind)

theorem sound_listItems (hp : p.Sound) (limit : Nat) : Sound m l (listItems p limit) Expression.contentAll := by
  induction limit generalizing l with
  | zero => exact sound_exhausted
  | succ limit ih =>
    refine .bind sound_atEnd fun _ => .ite (fun _ => .pure (nil_subset _)) fun _ => ?_
    refine .bind hp.assign fun item => sound_unlessAtEnd fun k hk => ?_
    refine .bind ih fun items => .pure ?_
    rw [Expression.contentAll]
    grind

theorem sound_propertyValue (hp : p.Sound) {key : Token} (h : Content.ofTokens [key] ⊆ l) :
    Sound m l (propertyValue p key) Expression.content := by
  refine .bind (sound_eat ":") fun _ => .ite (fun _ => hp.assign) fun _ => ?_
  refine .ite (fun _ => ?_) fun _ => sound_unexpected _
  refine .bind (Q := fun _ => [.use key]) (.lift (Expand.sound_record rfl (fun _ => rfl) (fun _ => rfl)
    (fun _ _ hk => ?_) fun _ hk => ?_)) fun _ => .pure ?_
  · intro q hq
    exact (hk.mono (subset_append_of_subset_right _ h)).tokens q (by simpa [Token.piecesAll] using hq)
  · intro c hc
    rw [mem_singleton.1 hc]
    exact fun _ => Or.inl mem_cons_self
  · rw [Expression.content]
    grind

theorem sound_listProperties (hp : p.Sound) (limit : Nat) :
    Sound m l (listProperties p limit) Property.contentAll := by
  induction limit generalizing l with
  | zero => exact sound_exhausted
  | succ limit ih =>
    refine .bind sound_atEnd fun _ => .ite (fun _ => .pure (nil_subset _)) fun _ => ?_
    refine .bind (sound_next _) fun key => ?_
    split
    · exact sound_fail
    · refine .bind (sound_propertyValue hp (subset_append_left _ _)) fun value => ?_
      refine sound_unlessAtEnd fun k hk => .bind ih fun items => .pure ?_
      rw [Property.contentAll]
      grind

theorem sound_functionName (declares : Bool) :
    Sound m l (functionName declares) fun name => Content.ofTokens name.toList := by
  refine .bind (sound_peekIs _) fun _ => .ite (fun _ => ?_) fun _ => ?_
  · exact .bind (sound_next _) fun t => .pure (subset_append_left _ _)
  · exact .ite (fun _ => sound_unexpected _) fun _ => .pure (nil_subset _)

/-- The parameters and the body of a function, once its name has been bound. -/
theorem sound_functionRest {name : Option Token} {body : List Token} (site : Site)
    (hname : Content.ofTokens name.toList ⊆ l) (hparams : Content.ofTokens (Token.wrap scope params) ⊆ l)
    (hbody : Content.ofTokens (Token.wrap scope body) ⊆ l) : Sound m l (do
      let r ← (Expand.parameters scope (Token.splitCommas params) : Expand _)
      let id ← Expand.freshLambda
      return { id, name, params := r.1, rest := r.2, body := .deferred (Token.wrap scope body), arrow := false, site })
      Lambda.content := by
  have hparts : Content.ofTokens (Token.wrap scope (Token.splitCommas params).flatten) ⊆ l :=
    List.Subset.trans (Content.ofTokens_wrap_subset (Token.splitCommas_subset params)) hparams
  refine .bind (.lift (Expand.sound_parameters hparts)) fun r => ?_
  refine .bind (.lift Expand.sound_freshLambda) fun id => .pure ?_
  simp only [Lambda.content, Body.content, Content.ofTokens_append]
  grind

/-- The parameters and the body of a function share a new scope. -/
theorem sound_function (declares : Bool) : Sound m l (function declares) Lambda.content := by
  refine .bind (sound_next _) fun start => .bind (sound_functionName declares) fun name => ?_
  refine .bind (sound_expectGroup _ _) fun params => .bind (sound_expectGroup _ _) fun body => ?_
  refine sound_freshScope_bind fun scope => ?_
  obtain ⟨params, psite⟩ := params
  obtain ⟨body, bsite⟩ := body
  dsimp only
  refine .bind (.lift (Expand.sound_record_enclosed mem_cons_self ?_)) fun _ => ?_
  · cases declares <;> simp only [Content.ofTokens_append, Content.ofTokens_nil, if_true] <;> grind
  generalize hall : (if declares = true then [] else name.toList) ++ params ++ body = all
  have hparams : Content.ofTokens (Token.wrap scope params) ⊆ Content.ofTokens (Token.wrap scope all) :=
    Content.ofTokens_wrap_subset (by grind)
  have hbody : Content.ofTokens (Token.wrap scope body) ⊆ Content.ofTokens (Token.wrap scope all) :=
    Content.ofTokens_wrap_subset (by grind)
  generalize hnamed : (if declares = true then name else name.map (Token.addScope scope)) = named
  have hname : Content.ofTokens named.toList ⊆ Content.ofTokens (Token.wrap scope all) ++ Content.ofTokens name.toList := by
    subst hnamed hall
    cases declares with
    | true => exact subset_append_right _ _
    | false =>
      refine subset_append_of_subset_left _ (Content.ofTokens_subset ?_)
      cases name <;> simp [Token.wrap]
  cases named with
  | none => exact sound_functionRest _ (nil_subset _) (by grind) (by grind)
  | some t =>
    simp only [Option.toList] at hname
    refine .bind (.lift (Expand.sound_bindVariable (by grind))) fun _ => ?_
    exact sound_functionRest _ (by simp only [Option.toList]; grind) (by grind) (by grind)

/-- What a concise body leaves goes back without the scope of its arrow, before any code is run. -/
theorem sound_conciseBody (hp : p.Sound) (hs : scope ∈ m.regions) (hq : m.quiet) :
    Sound m l (conciseBody p scope) Expression.content := by
  intro stream run hr hsettled hm hl
  refine ends_get_bind (yields_lift_bind (Expand.sound_enclose hs (fun _ h => h) run hr hsettled hm hl.left.right).keep_eq ?_)
  rintro inner run₁ ⟨henclose, hr₁, he₁, hk₁⟩
  obtain rfl : Token.wrap scope stream.after = inner := by
    cases henclose
    rfl
  have hon := hp.assign (l := []) { after := Token.wrap scope stream.after } run₁ hr₁
    (fun q => he₁.settled (hsettled q)) (hm.extend he₁) (by simpa [Stream.content, Content.ofTokens_nil] using hk₁)
  refine yields_lift_bind hon ?_
  rintro ⟨value, rest⟩ run₂ ⟨hr₂, hf, hk₂⟩
  have he₂ := he₁.trans hf.later
  refine yields_lift_bind (Expand.sound_leave hs hq (fun _ h => h) run₂ hr₂ (fun q => he₂.settled (hsettled q)) (hm.extend he₂)
    hk₂.right.right).keep_eq ?_
  rintro after run₃ ⟨hleave, hr₃, he₃, hk₃⟩
  obtain rfl : Token.strip scope rest.after = after := by
    cases hleave
    rfl
  have he := he₂.trans he₃
  refine ⟨hr₃, ⟨he, fun _ hcalls => ?_⟩, (hk₂.left.extend he₃).union ((hl.left.left.extend he).union hk₃)⟩
  obtain ⟨new₁, hnew₁, -⟩ := he₁.events
  obtain ⟨new₃, hnew₃, -⟩ := he₃.events
  have hrest := hf.rest hq fun e he hc => by simp [hnew₁, hcalls e (by simp [hnew₃, he]) hc]
  refine Token.Rest.strip (hrest.mono fun x hx => ⟨Nat.lt_of_lt_of_le hx.1 ?_, hx.2⟩) fun h => h.2 hs
  rw [hnew₁]
  exact History.scopes_le_append

theorem arrowParameters_subset (h : arrowParameters? head = some params) :
    Content.ofTokens params ⊆ Content.ofTokens [head] := by
  unfold arrowParameters? at h
  split at h
  · cases h
    exact fun _ h => h
  · exact Content.ofTokens_group h

theorem sound_arrowHead : Sound m l arrowHead fun r => Content.ofTokens (r.map (·.2)).toList.flatten := by
  refine .bind (sound_peekNthIs _ _) fun _ => .ite (fun _ => ?_) fun _ => .pure (nil_subset _)
  refine .bind sound_peek fun head => .pure ?_
  cases head with
  | none => exact nil_subset _
  | some head =>
    cases hparams : arrowParameters? head with
    | none => simp [hparams, Content.ofTokens_nil]
    | some params =>
      have := arrowParameters_subset hparams
      simp only [Option.bind_some, hparams, Option.map_some, Option.toList, flatten_cons, flatten_nil,
        append_nil]
      grind

/-- The end of an arrow, once its body has been read. -/
theorem sound_arrowRest {rest : Option Token} (body : Body)
    (h : Content.ofTokens (params ++ rest.toList) ++ body.content ⊆ l) : Sound m l (do
      let site := head.site.cover (← previousSite)
      let fn : Lambda := { id := ← Expand.freshLambda, name := none, params, rest, body, arrow := true, site }
      return some (.lambda fn site)) Expression.contentOption := by
  refine .bind sound_previousSite fun site => .bind (.lift Expand.sound_freshLambda) fun id => ?_
  refine .pure ?_
  simp only [Expression.contentOption, Expression.content, Lambda.content, Option.toList, nil_append]
  grind

/-- Reads what stands behind the sign of an arrow, and binds the parameters. -/
def arrowFrom (p : Passes) (head : Token) (params : List Token) : Parse (Option Expression) := do
  let scope ← Expand.freshScope .opened
  Expand.record (.enclosed scope params)
  let (params, rest) ← Expand.parameters scope (Token.splitCommas params)
  let body ←
    if ← peekGroup .brace then
      let (inner, _) ← expectGroup .brace "an arrow body"
      pure (Body.deferred (← Expand.enclose scope inner))
    else
      pure (Body.concise (← conciseBody p scope))
  let site := head.site.cover (← previousSite)
  let fn : Lambda := { id := ← Expand.freshLambda, name := none, params, rest, body, arrow := true, site }
  return some (.lambda fn site)

theorem sound_arrowFrom (hp : p.Sound) (hq : m.quiet) (head : Token) (h : Content.ofTokens params ⊆ l) :
    Sound m l (arrowFrom p head params) Expression.contentOption := by
  refine sound_freshScope_bind fun scope => ?_
  refine .bind (.lift (Expand.sound_record_enclosed mem_cons_self h)) fun _ => ?_
  have hparts : Content.ofTokens (Token.wrap scope (Token.splitCommas params).flatten) ⊆
      Content.ofTokens (Token.wrap scope params) := Content.ofTokens_wrap_subset (Token.splitCommas_subset params)
  refine .bind (.lift (Expand.sound_parameters (by grind))) fun r => ?_
  refine .bind (sound_peekGroup _) fun _ => .ite (fun _ => ?_) fun _ => ?_
  · refine .bind (sound_expectGroup _ _) fun inner => ?_
    refine .bind (.lift (Expand.sound_enclose mem_cons_self (by grind))) fun body => ?_
    exact sound_arrowRest (.deferred body) (by grind [Body.content])
  · refine .bind (sound_conciseBody hp mem_cons_self hq) fun value => ?_
    exact sound_arrowRest (.concise value) (by grind [Body.content])

theorem sound_arrow (hp : p.Sound) (hq : m.quiet) : Sound m l (arrow p) Expression.contentOption := by
  refine .bind sound_arrowHead fun r => ?_
  match r with
  | none => exact .pure (nil_subset _)
  | some (head, params) =>
    simp only [Option.map_some, Option.toList, flatten_cons, flatten_nil, append_nil]
    exact .bind sound_advance fun _ => .bind sound_advance fun _ => sound_arrowFrom hp hq head (by grind)

end Parse

namespace Template

variable {expression : List Token → Site → Expand Expression}

mutual

theorem sound_readPart
    (he : ∀ {l tokens site}, Content.ofTokens tokens ⊆ l → Expand.Sound m l (expression tokens site) Expression.content) :
    (t : Token) → {l : List Content} → Content.ofTokens [t] ⊆ l →
      Expand.Sound m l (readPart expression t) TemplatePart.content
  | .atom mark a, l, h => by
    rw [readPart]
    exact .pure h
  | .nest mark .template children, l, h => by
    rw [readPart]
    exact .pure h
  | .nest mark .unquote children, l, h => by
    rw [readPart]
    refine .bind (he (List.Subset.trans ?_ h)) fun value => .pure (subset_append_left _ _)
    refine map_subset _ ?_
    simp [Token.piecesAll, Token.pieces]
  | .nest mark (.group delimiter) children, l, h => by
    rw [readPart]
    have hchildren : Content.ofTokens children ⊆ l := by
      refine List.Subset.trans (map_subset _ ?_) h
      simp [Token.piecesAll, Token.pieces]
    have hmark : .piece ⟨mark, .nest (.group delimiter)⟩ ∈ l := by
      refine h (mem_map_of_mem ?_)
      simp [Token.piecesAll, Token.pieces]
    refine .bind (sound_readParts he children hchildren) fun parts => .pure ?_
    rw [TemplatePart.content]
    grind

theorem sound_readParts
    (he : ∀ {l tokens site}, Content.ofTokens tokens ⊆ l → Expand.Sound m l (expression tokens site) Expression.content) :
    (ts : List Token) → {l : List Content} → Content.ofTokens ts ⊆ l →
      Expand.Sound m l (readParts expression ts) TemplatePart.contentAll
  | [], l, _ => by
    rw [readParts]
    exact .pure (nil_subset _)
  | t :: ts, l, h => by
    rw [Content.ofTokens_cons] at h
    rw [readParts]
    refine .bind (sound_readPart he t (by grind)) fun part => ?_
    refine .bind (sound_readParts he ts (by grind)) fun parts => .pure ?_
    rw [TemplatePart.contentAll]
    grind

end

end Template

namespace Parse

theorem sound_templateFollows : Sound m l templateFollows fun _ => [] := sound_peekNthIs _ _

theorem sound_template (hp : p.Sound) : Sound m l (template p) Expression.content := by
  refine .bind sound_advance fun _ => .bind sound_peek fun t => ?_
  cases t with
  | none => exact sound_unexpected _
  | some t =>
    dsimp only
    split
    · next tokens ht =>
      have hsub := Content.ofTokens_template ht
      refine .bind sound_advance fun _ => ?_
      refine .bind (.lift (Template.sound_readParts (Expand.sound_groupExpression hp · _) tokens ?_))
        fun parts => .pure ?_
      · simp only [Option.toList]
        grind
      · simp only [Expression.content, Option.toList]
        grind
    · exact sound_unexpected _

theorem sound_group (hp : p.Sound) (delimiter : Delimiter) (h : Content.ofTokens tokens ⊆ l)
    (site : Site) : Sound m l (group p delimiter tokens site) Expression.content := by
  refine .bind sound_advance fun _ => ?_
  cases delimiter with
  | paren => exact .lift (Expand.sound_groupExpression hp (by grind) site)
  | bracket =>
    refine .bind (.lift (Parse.Sound.on (sound_listItems hp _) (by grind))) fun r => .pure ?_
    rw [Expression.content]
    grind
  | brace =>
    refine .bind (.lift (Parse.Sound.on (sound_listProperties hp _) (by grind))) fun r => .pure ?_
    rw [Expression.content]
    grind

/-- An identifier that refers to no transformer is read as such. -/
theorem reference_ends (hr : run.Sound) (hs : m.settled → run.Settled)
    (he : Follows m.quiet m.regions run₀ stream₀ run stream) (hk : Known m.settled run.events stream.content)
    (ht : Known m.settled run.events (Content.ofTokens [token])) (hplain : run.registry.lookup run.store token = none) :
    Expand.Ends run (reference token stream) fun r run' =>
      run'.Sound ∧ Follows m.quiet m.regions run₀ stream₀ run' r.2 ∧ Known m.settled run'.events (r.1.content ++ r.2.content) := by
  refine yields_bind (P := fun r run' => r.2 = stream.advance ∧ run = run') ⟨rfl, rfl⟩ ?_
  rintro _ _ _ ⟨rfl, rfl⟩
  have hread : m.settled → History.Read (.read token :: run.events) token := by
    intro q
    refine Or.inr ⟨[], run.events, rfl, fun b hb => ?_⟩
    have hb' : run.store.resolveIdent token = some b := hr.resolveIdent_store ▸ hb
    by_cases hkind : b.kind.isTransformer = true
    · have hmem : b ∈ run.store.bindings.toList := by
        obtain ⟨name, _, hres⟩ := Option.bind_eq_some_iff.1 hb'
        exact (Store.resolve_visible hres).1
      refine absurd ⟨⟨b, hmem, hkind, rfl⟩, ?_⟩ (hs q b.id)
      simpa [Registry.lookup, hb', hkind] using hplain
    · simpa using hkind
  refine yields_lift_bind (P := fun _ run' => run'.Sound ∧ Run.Extends m.quiet run run' ∧
    run'.events = .read token :: run.events) ?_ ?_
  · refine ⟨hr.step (e := .read token) (by simp [Event.scope?]) ?_ rfl ?_ hr.nextFresh hr.bindings rfl rfl rfl rfl,
      ⟨⟨[_], rfl, ?_⟩, fun _ h => h, fun _ h => h⟩, rfl⟩
    · exact fun q hq => ht.tokens q (by simpa [Token.piecesAll] using hq)
    · rw [History.scopes_cons]
      exact hr.nextScope
    · intro _ e he
      rw [mem_singleton.1 he]
      rfl
  rintro _ run' ⟨hr', he', hevents⟩
  refine ⟨hr', he.trans (.of_suffix he' stream.suffix_advance), .union (fun c hc => ?_) ((hk.mono stream.content_advance).extend he')⟩
  rcases mem_cons.1 hc with rfl | hc
  · rw [hevents]
    exact hread
  · exact (ht.extend he') c hc

theorem word_ends (hp : p.Sound) (hr : run.Sound)
    (hs : m.settled → run.Settled) (hm : m.Inside run.events) (he : Follows m.quiet m.regions run₀ stream₀ run stream) (name : String) (hk : Known m.settled run.events stream.content) (ht : Known m.settled run.events (Content.ofTokens [token]))
    (hplain : run.registry.lookup run.store token = none) :
    Expand.Ends run (word p token name stream) fun r run' =>
      run'.Sound ∧ Follows m.quiet m.regions run₀ stream₀ run' r.2 ∧ Known m.settled run'.events (r.1.content ++ r.2.content) := by
  have sound : ∀ {x : Parse Expression}, Sound m [] x Expression.content → Expand.Ends run (x stream) fun r run' =>
      run'.Sound ∧ Follows m.quiet m.regions run₀ stream₀ run' r.2 ∧ Known m.settled run'.events (r.1.content ++ r.2.content) :=
    fun hx => hx.ends hr hs hm he (by simpa using hk)
  unfold word
  split
  · exact sound (.bind sound_advance fun _ => .pure (nil_subset _))
  · exact sound (.bind sound_advance fun _ => .pure (nil_subset _))
  · exact sound (.bind sound_advance fun _ => .pure (nil_subset _))
  · refine sound (.bind (sound_function false) fun fn => .pure ?_)
    rw [Expression.content]
    exact subset_append_left _ _
  · refine yields_bind (P := fun r run' => r.2 = stream ∧ run = run') ⟨rfl, rfl⟩ ?_
    rintro follows _ _ ⟨rfl, rfl⟩
    cases follows with
    | true => exact sound (sound_template hp)
    | false => exact reference_ends hr hs he hk ht hplain
  · exact reference_ends hr hs he hk ht hplain

theorem sound_primary (s : Setup) (hp : p.Sound) : Sound m l (primary s p) Expression.content := by
  intro stream₀ run₀ hr₀ hs₀ hm₀ hl
  refine yields_bind (invokeAll_ends hr₀ s hl.left p.limit) ?_
  rintro _ stream run ⟨hr, hquiet, hk, hplain⟩
  have he : Follows m.quiet m.regions run₀ stream₀ run stream := hquiet.of_quiet
  have hs : m.settled → run.Settled := fun q => he.later.settled (hs₀ q)
  have hm := hm₀.extend he.later
  have sound : ∀ {k : List Content} {x : Parse Expression}, k ⊆ stream.content → Sound m k x Expression.content →
      Expand.Ends run (x stream) fun r run' =>
        run'.Sound ∧ Follows m.quiet m.regions run₀ stream₀ run' r.2 ∧ Known m.settled run'.events (r.1.content ++ r.2.content) :=
    fun hk' hx => hx.ends hr hs hm he (hk.union (hk.mono hk'))
  refine yields_bind (P := fun r run' => (stream.after.head?, stream) = r ∧ run = run') ⟨rfl, rfl⟩ ?_
  rintro _ _ _ ⟨⟨⟩, rfl⟩
  cases hhead : stream.after.head? with
  | none => exact sound (nil_subset _) (sound_unexpected _)
  | some token =>
    have htoken := Stream.content_head? hhead
    dsimp only
    split
    · exact sound (nil_subset _) (.bind sound_advance fun _ => .pure (nil_subset _))
    · exact sound (nil_subset _) (.bind sound_advance fun _ => .pure (nil_subset _))
    · exact word_ends hp hr hs hm he _ hk (hk.mono htoken) (hplain _ hhead)
    · refine sound (nil_subset _) (.bind sound_templateFollows fun _ => ?_)
      exact .ite (fun _ => sound_template hp) fun _ => sound_unexpected _
    · next mark delimiter tokens =>
      refine sound (List.Subset.trans (map_subset _ ?_) htoken) (sound_group hp delimiter (fun _ h => h) mark.site)
      simp [Token.piecesAll, Token.pieces]
    · exact sound (nil_subset _) sound_fail
    · exact sound (nil_subset _) (sound_unexpected _)

theorem sound_suffixes (hp : p.Sound) (limit : Nat) {e : Expression} (h : e.content ⊆ l) :
    Sound m l (suffixes p limit e) Expression.content := by
  induction limit generalizing l e with
  | zero => exact sound_exhausted
  | succ limit ih =>
    refine .bind (sound_eat ".") fun _ => .ite (fun _ => ?_) fun _ => ?_
    · refine .bind (sound_expectIdent _) fun property => ih ?_
      rw [Expression.content]
      grind
    refine .bind (sound_peekGroup _) fun _ => .ite (fun _ => ?_) fun _ => ?_
    · refine .bind (sound_expectGroup _ _) fun r => ?_
      refine .bind (.lift (Expand.sound_groupExpression hp (subset_append_left _ _) _)) fun key => ih ?_
      rw [Expression.content]
      grind
    refine .bind (sound_peekGroup _) fun _ => .ite (fun _ => ?_) fun _ => .pure (by grind)
    refine .bind (sound_expectGroup _ _) fun r => ?_
    refine .bind (.lift (Parse.Sound.on (sound_listItems hp _) (subset_append_left _ _))) fun args => ih ?_
    rw [Expression.content]
    grind

theorem sound_unaryStep (s : Setup) (hp : p.Sound) : Sound m l (unaryStep s p) Expression.content := by
  refine .bind sound_peek fun t => ?_
  split
  · refine .bind sound_advance fun _ => .bind hp.operand fun operand => .pure ?_
    rw [Expression.content]
    grind
  · exact .bind (sound_primary s hp) fun e => sound_suffixes hp _ (subset_append_left _ _)

theorem sound_binaryRest {operators : List BinaryOp} {operand : Parse Expression}
    (ho : ∀ k, Sound m k operand Expression.content) (limit : Nat) {left : Expression} (h : left.content ⊆ l) :
    Sound m l (binaryRest operators operand limit left) Expression.content := by
  induction limit generalizing l left with
  | zero => exact sound_exhausted
  | succ limit ih =>
    refine .bind sound_peek fun t => ?_
    split
    · refine .bind sound_advance fun _ => .bind (ho _) fun right => ih ?_
      rw [Expression.content]
      grind
    · exact .pure (by grind)

theorem sound_binary (hp : p.Sound) (levels : List (List BinaryOp)) : Sound m l (binary p levels) Expression.content := by
  induction levels generalizing l with
  | nil => exact hp.operand
  | cons operators tighter ih =>
    exact .bind ih fun left => sound_binaryRest (fun _ => ih) _ (subset_append_left _ _)

theorem sound_conditional (hp : p.Sound) : Sound m l (conditional p) Expression.content := by
  refine .bind (sound_binary hp _) fun test => .bind (sound_eat "?") fun _ => ?_
  refine .ite (fun _ => ?_) fun _ => .pure (by grind)
  refine .bind hp.assign fun consequent => .bind (sound_expectPunct ":") fun _ => ?_
  refine .bind hp.assign fun alternate => .pure ?_
  rw [Expression.content]
  grind

/-- Expressions are read without running code. -/
theorem sound_assignmentStep (hp : p.Sound) : Sound m [] (assignmentStep p) Expression.content := by
  have quiet : Sound ⟨True, m.settled, []⟩ [] (assignmentStep p) Expression.content := by
    refine .bind (sound_arrow hp trivial) fun e => ?_
    cases e with
    | some e => exact .pure (subset_append_left _ _)
    | none =>
      refine .bind (sound_conditional hp) fun target => .bind sound_peek fun t => ?_
      split
      · exact .pure (by grind)
      · refine .ite (fun _ => ?_) fun _ => sound_fail
        refine .bind sound_advance fun _ => .bind hp.assign fun value => ?_
        split <;> refine .pure ?_ <;> simp only [Expression.content] <;> grind
  exact quiet.of_quiet

end Parse

end Hygiene
