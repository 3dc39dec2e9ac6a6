import Hygiene.Proofs.Parallel.Reading

/-!
# Alike expressions

The readers of expressions build alike expressions from alike tokens, given that the readers of their parts do.
-/

namespace Hygiene

open List

variable {e e' : Expression} {ts ts' : List Token} {read read' : List Token → Site → Expand Expression} {scope scope'
  : ScopeId} {site site' : Site} {t t' : Token}

namespace Parallel

variable {K : Likeness} {P : Parallel K} {p p' : Passes} {s s' : Setup}

/-- The readers of the parts of terms build alike terms. -/
structure Ties (P : Parallel K) (p p' : Passes) : Prop where
  limit : p.limit = p'.limit
  assignment : P.Reads (Expression.Alike K) p.assignment p'.assignment
  unary : P.Reads (Expression.Alike K) p.unary p'.unary
  statement : P.Reads (Option.Rel (Statement.Alike K)) p.statement p'.statement
  body : ∀ ts ts', Forall₂ K.token ts ts' → P.Rel (Forall₂ (Statement.Alike K)) (p.body ts) (p'.body ts')

/-- Both sides invoke equally often. -/
theorem invokeAll (hi : P.Reads Eq (Parse.invokeHere s) (Parse.invokeHere s')) (limit : Nat) :
    P.Reads Eq (Parse.invokeAll s limit) (Parse.invokeAll s' limit) := by
  induction limit with
  | zero => exact .exhausted
  | succ limit ih => exact .after hi fun _ => .ite ih (.pure rfl)

/-- Alike parameters are bound alike. -/
theorem parameters (hscope : K.number scope scope') {parts parts' : List (List Token)}
    (h : Forall₂ (Forall₂ K.token) parts parts') :
    P.Rel (fun r r' => Forall₂ K.token r.1 r'.1 ∧ Option.Rel K.token r.2 r'.2) (Expand.parameters scope parts)
      (Expand.parameters scope' parts') := by
  induction h with
  | nil => exact .pure ⟨.nil, .none⟩
  | @cons part part' parts parts' hpart hparts ih =>
    unfold Expand.parameters
    rw [Likeness.textAll hpart]
    have invalid := Likeness.tokens_cover hpart
    cases hpart with
    | nil => exact P.fail _ invalid
    | cons ht hts =>
      cases hts with
      | nil =>
        dsimp only
        rw [Likeness.isIdent ht]
        refine .ite (.after (P.bindVariable (K.addScope hscope ht)) fun _ => .bind ih fun r r' hr => ?_)
          (P.fail _ invalid)
        exact .pure ⟨.cons (K.addScope hscope ht) hr.1, hr.2⟩
      | cons hident hts =>
        cases hts with
        | cons => exact P.fail _ invalid
        | nil =>
          dsimp only
          rw [Likeness.isPunct ht, Likeness.isIdent hident]
          refine .ite (.after (P.bindVariable (K.addScope hscope hident)) fun _ => ?_) (P.fail _ invalid)
          cases hparts with
          | nil => exact .pure ⟨.nil, .some (K.addScope hscope hident)⟩
          | cons hnext _ => exact P.fail _ (Likeness.tokens_cover hnext)

/-- Alike groups hold alike expressions. -/
theorem groupExpression (hp : P.Ties p p') (hts : Forall₂ K.token ts ts')
    (hsite : K.site site site') :
    P.Rel (Expression.Alike K) (Expand.groupExpression p ts site) (Expand.groupExpression p' ts' site') := by
  have hempty : ts.isEmpty = ts'.isEmpty := by cases hts <;> rfl
  unfold Expand.groupExpression
  rw [hempty]
  refine .ite (P.fail _ hsite) (.bind (Reads.on ?_ hts) fun r r' hr => .pure hr.1)
  exact .bind hp.assignment fun _ _ he => .after atEnd fun _ => .ite (.pure he) (unexpected _)

mutual

/-- Alike parts of templates are read alike. -/
theorem readPart
    (he : ∀ {ts ts' site site'}, Forall₂ K.token ts ts' → K.site site site' →
      P.Rel (Expression.Alike K) (read ts site) (read' ts' site')) :
    (t t' : Token) → K.token t t' → P.Rel (TemplatePart.Alike K) (Template.readPart read t) (Template.readPart read' t')
  | .atom mark a, t', h => by
    obtain ⟨mark', _, rfl⟩ := K.atom h
    rw [Template.readPart, Template.readPart]
    exact .pure (.token h)
  | .nest mark .template ts, t', h => by
    obtain ⟨mark', ts', _, _, rfl⟩ := K.nest h
    rw [Template.readPart, Template.readPart]
    exact .pure (.token h)
  | .nest mark .unquote ts, t', h => by
    obtain ⟨mark', ts', hmark, hts, rfl⟩ := K.nest h
    rw [Template.readPart, Template.readPart]
    exact .bind (he hts (K.mark_site hmark)) fun _ _ hvalue => .pure (.unquote hvalue)
  | .nest mark (.group d) ts, t', h => by
    obtain ⟨mark', ts', hmark, hts, rfl⟩ := K.nest h
    rw [Template.readPart, Template.readPart]
    exact .bind (readParts he ts ts' hts) fun _ _ hparts => .pure (.group hmark hparts)

theorem readParts
    (he : ∀ {ts ts' site site'}, Forall₂ K.token ts ts' → K.site site site' →
      P.Rel (Expression.Alike K) (read ts site) (read' ts' site')) :
    (ts ts' : List Token) → Forall₂ K.token ts ts' →
      P.Rel (Forall₂ (TemplatePart.Alike K)) (Template.readParts read ts) (Template.readParts read' ts')
  | [], _, .nil => by
    rw [Template.readParts, Template.readParts]
    exact .pure .nil
  | t :: ts, _, .cons h hs => by
    rw [Template.readParts, Template.readParts]
    exact .bind (readPart he t _ h) fun _ _ hpart => .bind (readParts he ts _ hs) fun _ _ hparts => .pure (.cons hpart hparts)

end

/-- A comma is read unless the end is reached; either way the reading goes on. -/
theorem unlessAtEnd {α : Type} {R : α → α → Prop} {x x' : Parse α} (hx : P.Reads R x x') : P.Reads R
    (do
      unless ← Parse.atEnd do Parse.expectPunct ","
      x)
    (do
      unless ← Parse.atEnd do Parse.expectPunct ","
      x') :=
  .after atEnd fun _ => .ite hx (.after (expectPunct ",") fun _ => hx)

/-- Items of lists are read alike. -/
theorem listItems (hp : P.Ties p p') (limit : Nat) :
    P.Reads (Forall₂ (Expression.Alike K)) (Parse.listItems p limit) (Parse.listItems p' limit) := by
  induction limit with
  | zero => exact .exhausted
  | succ limit ih =>
    refine .after atEnd fun _ => .ite (.pure .nil) (.bind hp.assignment fun _ _ he => ?_)
    exact unlessAtEnd (.bind ih fun _ _ hes => .pure (.cons he hes))

theorem propertyValue (hp : P.Ties p p') {key key' : Token} (hkey : K.token key key') :
    P.Reads (Expression.Alike K) (Parse.propertyValue p key) (Parse.propertyValue p' key') := by
  unfold Parse.propertyValue
  rw [Likeness.isIdent hkey]
  refine .after (eat ":") fun _ => .ite hp.assignment (.ite ?_ (unexpected _))
  exact .after (.lift (P.record (.shorthand hkey))) fun _ => .pure (.ident hkey (Likeness.token_site hkey))

/-- Properties are read alike. -/
theorem listProperties (hp : P.Ties p p') (limit : Nat) :
    P.Reads (Forall₂ (Property.Alike K)) (Parse.listProperties p limit) (Parse.listProperties p' limit) := by
  induction limit with
  | zero => exact .exhausted
  | succ limit ih =>
    refine .after atEnd fun _ => .ite (.pure .nil) (.bind (next _) fun key key' hkey => ?_)
    have hsite := Likeness.token_site hkey
    rw [Likeness.propertyName? hkey, K.text hkey]
    split
    · exact .fail _ hsite
    · refine .bind (propertyValue hp hkey) fun _ _ he => unlessAtEnd (.bind ih fun _ _ hs => .pure ?_)
      exact .cons (.mk he (K.cover hsite he.site)) hs

theorem functionName (declares : Bool) :
    P.Reads (Option.Rel K.token) (Parse.functionName declares) (Parse.functionName declares) :=
  .after (peekIs Likeness.isIdent) fun _ => .ite (.bind (next _) fun _ _ h => .pure (.some h)) (.ite (unexpected _) (.pure .none))

/-- Functions are read alike, with bodies left for later. -/
theorem function (declares : Bool) : P.Reads (Lambda.Alike K) (Parse.function declares) (Parse.function declares) := by
  refine .bind (next _) fun start start' hstart => .bind (functionName declares) fun name name' hname => ?_
  refine .bind (expectGroup _ _) fun params params' hparams => .bind (expectGroup _ _) fun body body' hbody => ?_
  refine .bind (.lift P.freshScope) fun scope scope' hscope => ?_
  have htokens : Forall₂ K.token ((if declares then [] else name.toList) ++ params.1 ++ body.1)
      ((if declares then [] else name'.toList) ++ params'.1 ++ body'.1) := by
    refine rel_append (rel_append ?_ hparams.1) hbody.1
    cases declares <;> cases hname <;> simp_all
  have hgiven : Option.Rel K.token (if declares then name else name.map (Token.addScope scope))
      (if declares then name' else name'.map (Token.addScope scope')) := by
    split
    · exact hname
    · cases hname with
      | none => exact .none
      | some h => exact .some (K.addScope hscope h)
  have hps := parameters (P := P) hscope (Likeness.splitCommas hparams.1)
  have hinner := Body.Alike.deferred (Likeness.wrap hscope hbody.1)
  have hsite := K.cover (Likeness.token_site hstart) hbody.2
  refine .after (.lift (P.record (.enclosed hscope htokens))) fun _ => ?_
  dsimp only
  generalize (if declares then name else name.map (Token.addScope scope)) = given,
    (if declares then name' else name'.map (Token.addScope scope')) = given' at hgiven ⊢
  cases hgiven with
  | none =>
    refine .bind (.lift hps) fun _ _ hr => .bind (.lift P.freshLambda) fun _ _ hid => ?_
    exact .pure (.mk hid .none hr.1 hr.2 hinner hsite)
  | some h =>
    refine .after (.lift (P.bindVariable h)) fun _ => .bind (.lift hps) fun _ _ hr => ?_
    exact .bind (.lift P.freshLambda) fun _ _ hid => .pure (.mk hid (.some h) hr.1 hr.2 hinner hsite)

theorem conciseBody (hp : P.Ties p p') (hscope : K.number scope scope') :
    P.Reads (Expression.Alike K) (Parse.conciseBody p scope) (Parse.conciseBody p' scope') := by
  refine .bind get fun stream stream' hs => .bind (.lift (enclose hscope hs.after)) fun ts ts' hts => ?_
  refine .bind (.lift (hp.assignment.on hts)) fun r r' hr => .bind (.lift (leave hscope hr.2.after)) fun _ _ hafter => ?_
  exact .after (set ⟨hs.before, hafter⟩) fun _ => .pure hr.1

/-- Both sides see the same arrow or none. -/
theorem arrowHead : P.Reads (Option.Rel fun r r' => K.token r.1 r'.1 ∧ Forall₂ K.token r.2 r'.2) Parse.arrowHead
    Parse.arrowHead := by
  refine .after (peekNthIs 1 (Likeness.isPunct · "=>")) fun _ => .ite (.bind peek fun t t' ht => .pure ?_) (.pure .none)
  cases ht with
  | none => exact .none
  | @some t t' ht =>
    simp only [Option.bind_some, Parse.arrowParameters?, Likeness.isIdent ht]
    split
    · exact .some ⟨ht, .cons ht .nil⟩
    · have hgroup := Likeness.group? ht .paren
      generalize t.group? .paren = inner, t'.group? .paren = inner' at hgroup ⊢
      cases hgroup with
      | none => exact .none
      | some hts => exact .some ⟨ht, hts⟩

/-- Arrows are read alike. -/
theorem arrow (hp : P.Ties p p') : P.Reads (Option.Rel (Expression.Alike K)) (Parse.arrow p) (Parse.arrow p') := by
  refine .bind arrowHead fun r r' hr => ?_
  cases hr with
  | none => exact .pure .none
  | @some r r' hr =>
    obtain ⟨hhead, hparams⟩ := hr
    refine .after advance fun _ => .after advance fun _ => .bind (.lift P.freshScope) fun scope scope' hscope => ?_
    refine .after (.lift (P.record (.enclosed hscope hparams))) fun _ => ?_
    refine .bind (.lift (parameters hscope (Likeness.splitCommas hparams))) fun params params' hparams => ?_
    have hrest : ∀ {body body' : Body}, body.Alike K body' → ∀ {site site' : Site}, K.site site site' →
        ∀ {id id' : Nat}, K.number id id' → Expression.Alike K
          (.lambda ⟨id, none, params.1, params.2, body, true, r.1.site.cover site⟩ (r.1.site.cover site))
          (.lambda ⟨id', none, params'.1, params'.2, body', true, r'.1.site.cover site'⟩ (r'.1.site.cover site')) :=
      fun hbody _ _ hsite _ _ hid => have hcover := K.cover (Likeness.token_site hhead) hsite
        .lambda (.mk hid .none hparams.1 hparams.2 hbody hcover) hcover
    refine .after (peekGroup _) fun _ => .ite (.bind (expectGroup _ _) fun _ _ hinner => ?_) ?_
    · refine .bind (.lift (enclose hscope hinner.1)) fun _ _ hts => ?_
      refine .bind (.pure (Body.Alike.deferred hts)) fun _ _ hbody => ?_
      refine .bind previousSite fun _ _ hsite => .bind (.lift P.freshLambda) fun _ _ hid => ?_
      exact .pure (.some (hrest hbody hsite hid))
    · refine .bind (conciseBody hp hscope) fun _ _ he => .bind (.pure (Body.Alike.concise he)) fun _ _ hbody => ?_
      refine .bind previousSite fun _ _ hsite => .bind (.lift P.freshLambda) fun _ _ hid => ?_
      exact .pure (.some (hrest hbody hsite hid))

theorem templateFollows : P.Reads Eq Parse.templateFollows Parse.templateFollows :=
  peekNthIs 1 fun ht => Likeness.isSome_eq (Likeness.template? ht)

theorem template (hp : P.Ties p p') : P.Reads (Expression.Alike K) (Parse.template p) (Parse.template p') := by
  refine .after advance fun _ => .bind peek fun t t' ht => ?_
  cases ht with
  | none => exact unexpected _
  | @some t t' ht =>
    have htemplate := Likeness.template? ht
    dsimp only
    generalize t.template? = inner, t'.template? = inner' at htemplate ⊢
    cases htemplate with
    | none => exact unexpected _
    | some hts =>
      refine .after advance fun _ => .bind (.lift (readParts (fun hts hsite => groupExpression hp hts hsite) _ _ hts)) fun _ _ hparts => ?_
      exact .pure (.template hparts hts (Likeness.token_site ht))

theorem group (hp : P.Ties p p') (d : Delimiter) (hts : Forall₂ K.token ts ts') (hsite : K.site site site') :
    P.Reads (Expression.Alike K) (Parse.group p d ts site) (Parse.group p' d ts' site') := by
  unfold Parse.group
  rw [← hp.limit]
  refine .after advance fun _ => ?_
  cases d with
  | paren => exact .lift (groupExpression hp hts hsite)
  | bracket => exact .bind (.lift ((listItems hp _).on hts)) fun _ _ h => .pure (.array h.1 hsite)
  | brace => exact .bind (.lift ((listProperties hp _).on hts)) fun _ _ h => .pure (.object h.1 hsite)

theorem reference (ht : K.token t t') :
    P.Reads (Expression.Alike K) (Parse.reference t) (Parse.reference t') :=
  .after advance fun _ => .after (.lift (P.record (.read ht))) fun _ => .pure (.ident ht (Likeness.token_site ht))

theorem word (hp : P.Ties p p') (ht : K.token t t') (name : String) :
    P.Reads (Expression.Alike K) (Parse.word p t name) (Parse.word p' t' name) := by
  have hsite := Likeness.token_site ht
  unfold Parse.word
  split
  · exact .after advance fun _ => .pure (.bool hsite)
  · exact .after advance fun _ => .pure (.bool hsite)
  · exact .after advance fun _ => .pure (.null hsite)
  · refine .bind (function false) fun fn fn' hfn => .pure (.lambda hfn ?_)
    cases hfn
    assumption
  · exact .after templateFollows fun _ => .ite (template hp) (reference ht)
  · exact reference ht

/-- Primary expressions are read alike when invocations are. -/
theorem primary (hi : P.Reads Eq (Parse.invokeHere s) (Parse.invokeHere s')) (hp : P.Ties p p') :
    P.Reads (Expression.Alike K) (Parse.primary s p) (Parse.primary s' p') := by
  unfold Parse.primary
  rw [← hp.limit]
  refine .after (invokeAll hi _) fun _ => .bind peek fun _ _ ht => ?_
  cases ht with
  | none => exact unexpected _
  | @some t t' ht =>
    have hsite := Likeness.token_site ht
    cases t with
    | atom mark a =>
      obtain ⟨mark', _, rfl⟩ := K.atom ht
      cases a with
      | number value raw => exact .after advance fun _ => .pure (.number hsite)
      | str text => exact .after advance fun _ => .pure (.str hsite)
      | ident name => exact word hp ht name
      | punct text => exact .after templateFollows fun _ => .ite (template hp) (unexpected _)
    | nest mark shape ts =>
      obtain ⟨mark', ts', _, hts, rfl⟩ := K.nest ht
      cases shape with
      | group d => exact group hp d hts hsite
      | template => exact .fail _ hsite
      | unquote => exact unexpected _

/-- Suffixes of alike expressions are read alike. -/
theorem suffixes (hp : P.Ties p p') (limit : Nat) (he : e.Alike K e') :
    P.Reads (Expression.Alike K) (Parse.suffixes p limit e) (Parse.suffixes p' limit e') := by
  induction limit generalizing e e' with
  | zero => exact .exhausted
  | succ limit ih =>
    unfold Parse.suffixes
    rw [← hp.limit]
    refine .after (eat ".") fun _ => .ite (.bind (expectIdent _) fun t t' ht => ?_) ?_
    · rw [Tree.name, Tree.name, Likeness.ident? ht]
      exact ih (.member he (K.cover he.site (Likeness.token_site ht)))
    refine .after (peekGroup _) fun _ => .ite ?_ (.after (peekGroup _) fun _ => .ite ?_ (.pure he))
    · refine .bind (expectGroup _ _) fun r r' hr => .bind (.lift (groupExpression hp hr.1 hr.2)) fun _ _ hkey => ?_
      exact ih (.index he hkey (K.cover he.site hr.2))
    · refine .bind (expectGroup _ _) fun r r' hr => .bind (.lift ((listItems hp _).on hr.1)) fun _ _ hargs => ?_
      exact ih (.call he hargs.1 (K.cover he.site hr.2))

theorem unaryStep (hi : P.Reads Eq (Parse.invokeHere s) (Parse.invokeHere s')) (hp : P.Ties p p') :
    P.Reads (Expression.Alike K) (Parse.unaryStep s p) (Parse.unaryStep s' p') := by
  unfold Parse.unaryStep
  rw [← hp.limit]
  have hrest : P.Reads (Expression.Alike K) (do Parse.suffixes p p.limit (← Parse.primary s p))
      (do Parse.suffixes p' p.limit (← Parse.primary s' p')) := .bind (primary hi hp) fun _ _ he => suffixes hp _ he
  refine .bind peek fun _ _ ht => ?_
  cases ht with
  | none => exact hrest
  | @some t t' ht =>
    have hoperator : Parse.unaryOperator? t = Parse.unaryOperator? t' := by
      simp only [Parse.unaryOperator?, Likeness.isWord ht, Likeness.isPunct ht]
    simp only [Option.bind_some, hoperator]
    cases Parse.unaryOperator? t' with
    | none => exact hrest
    | some operator =>
      refine .after advance fun _ => .bind hp.unary fun _ _ he => .pure (.unary he ?_)
      exact K.cover (Likeness.token_site ht) he.site

/-- Operators of one level are read alike. -/
theorem binaryRest {operators : List BinaryOp} {operand operand' : Parse Expression}
    (ho : P.Reads (Expression.Alike K) operand operand') (limit : Nat) (he : e.Alike K e') :
    P.Reads (Expression.Alike K) (Parse.binaryRest operators operand limit e)
      (Parse.binaryRest operators operand' limit e') := by
  induction limit generalizing e e' with
  | zero => exact .exhausted
  | succ limit ih =>
    refine .bind peek fun _ _ ht => ?_
    cases ht with
    | none => exact .pure he
    | some ht =>
      simp only [Option.bind_some, Likeness.isPunct ht]
      split
      · exact .after advance fun _ => .bind ho fun _ _ hright => ih (.binary he hright (K.cover he.site hright.site))
      · exact .pure he

theorem binary (hp : P.Ties p p') (levels : List (List BinaryOp)) :
    P.Reads (Expression.Alike K) (Parse.binary p levels) (Parse.binary p' levels) := by
  induction levels with
  | nil => exact hp.unary
  | cons operators tighter ih =>
    unfold Parse.binary
    rw [← hp.limit]
    exact .bind ih fun _ _ he => binaryRest ih _ he

theorem conditional (hp : P.Ties p p') : P.Reads (Expression.Alike K) (Parse.conditional p) (Parse.conditional p') := by
  refine .bind (binary hp _) fun _ _ htest => .after (eat "?") fun _ => .ite ?_ (.pure htest)
  refine .bind hp.assignment fun _ _ hthen => .after (expectPunct ":") fun _ => .bind hp.assignment fun _ _ helse => ?_
  exact .pure (.conditional htest hthen helse (K.cover htest.site helse.site))

/-- Assignments are read alike. -/
theorem assignmentStep (hp : P.Ties p p') :
    P.Reads (Expression.Alike K) (Parse.assignmentStep p) (Parse.assignmentStep p') := by
  refine .bind (arrow hp) fun _ _ he => ?_
  cases he with
  | some he => exact .pure he
  | none =>
    refine .bind (conditional hp) fun target target' htarget => .bind peek fun t t' ht => ?_
    have hoperator : t.bind Parse.assignmentOperator? = t'.bind Parse.assignmentOperator? := by
      cases ht with
      | none => rfl
      | some ht => simp only [Option.bind_some, Parse.assignmentOperator?, Likeness.isPunct ht]
    rw [hoperator, htarget.isPlace]
    split
    · exact .pure htarget
    · refine .ite (.after advance fun _ => .bind hp.assignment fun _ _ hvalue => ?_) (.fail _ htarget.site)
      have hsite := K.cover htarget.site hvalue.site
      split
      · exact .pure (.assign htarget (.binary htarget hvalue hsite) hsite)
      · exact .pure (.assign htarget hvalue hsite)

end Parallel

end Hygiene
