import Hygiene.Expand.Module
import Hygiene.Proofs.Parallel.Expressions

/-!
# Alike statements

Completing alike terms gives alike terms, and readers build alike statements, however deep they may go. Of the
declaration of a transformer it is assumed.
-/

namespace Hygiene

open List

/-- The declaration can stand in the module. -/
def DeclarationKind.AllowedIn (kind : DeclarationKind) (home : Home) : Prop :=
  kind.declaresTransformers = true → home.dialect = .sweet

namespace Parallel

variable {K : Likeness} {P : Parallel K} {start start' : Site}

/-! ### Completion -/

section Completion

/-- Alike tokens are expanded to alike statements. -/
def Bodies (P : Parallel K) (body body' : List Token → Expand (List Statement)) : Prop :=
  ∀ ts ts', Forall₂ K.token ts ts' → P.Rel (Forall₂ (Statement.Alike K)) (body ts) (body' ts')

variable {body body' : List Token → Expand (List Statement)}

mutual

/-- Alike expressions are completed alike. -/
theorem complete (hb : P.Bodies body body') : {e e' : Expression} → e.Alike K e' → P.Rel (Expression.Alike K) (e.complete body) (e'.complete body')
  | _, _, .number h => .pure (.number h)
  | _, _, .str h => .pure (.str h)
  | _, _, .bool h => .pure (.bool h)
  | _, _, .null h => .pure (.null h)
  | _, _, .ident ht h => .pure (.ident ht h)
  | _, _, .array hl h => .bind (completeAll hb hl) fun _ _ hl => .pure (.array hl h)
  | _, _, .object hl h => .bind (completeProperties hb hl) fun _ _ hl => .pure (.object hl h)
  | _, _, .lambda hf h => .bind (completeLambda hb hf) fun _ _ hf => .pure (.lambda hf h)
  | _, _, .call he hl h => .bind (complete hb he) fun _ _ he => .bind (completeAll hb hl) fun _ _ hl => .pure (.call he hl h)
  | _, _, .member he h => .bind (complete hb he) fun _ _ he => .pure (.member he h)
  | _, _, .index he hk h => .bind (complete hb he) fun _ _ he => .bind (complete hb hk) fun _ _ hk => .pure (.index he hk h)
  | _, _, .unary he h => .bind (complete hb he) fun _ _ he => .pure (.unary he h)
  | _, _, .binary hl hr h => .bind (complete hb hl) fun _ _ hl => .bind (complete hb hr) fun _ _ hr => .pure (.binary hl hr h)
  | _, _, .conditional ht hc ha h =>
    .bind (complete hb ht) fun _ _ ht => .bind (complete hb hc) fun _ _ hc => .bind (complete hb ha) fun _ _ ha =>
      .pure (.conditional ht hc ha h)
  | _, _, .assign ht hv h => .bind (complete hb ht) fun _ _ ht => .bind (complete hb hv) fun _ _ hv => .pure (.assign ht hv h)
  | _, _, .template hl hts h => .bind (completeParts hb hl) fun _ _ hl => .pure (.template hl hts h)

theorem completeAll (hb : P.Bodies body body') : {l l' : List Expression} → Forall₂ (Expression.Alike K) l l' →
    P.Rel (Forall₂ (Expression.Alike K)) (Expression.completeAll body l) (Expression.completeAll body' l')
  | _, _, .nil => .pure .nil
  | _, _, .cons h hs => .bind (complete hb h) fun _ _ h => .bind (completeAll hb hs) fun _ _ hs => .pure (.cons h hs)

theorem completeOption (hb : P.Bodies body body') : {e e' : Option Expression} → Option.Rel (Expression.Alike K) e e' →
    P.Rel (Option.Rel (Expression.Alike K)) (Expression.completeOption body e) (Expression.completeOption body' e')
  | _, _, .none => .pure .none
  | _, _, .some h => .bind (complete hb h) fun _ _ h => .pure (.some h)

theorem completeProperties (hb : P.Bodies body body') : {l l' : List Property} → Forall₂ (Property.Alike K) l l' →
    P.Rel (Forall₂ (Property.Alike K)) (Property.completeAll body l) (Property.completeAll body' l')
  | _, _, .nil => .pure .nil
  | _, _, .cons (.mk he h) hs =>
    .bind (complete hb he) fun _ _ he => .bind (completeProperties hb hs) fun _ _ hs => .pure (.cons (.mk he h) hs)

theorem completeLambda (hb : P.Bodies body body') : {f f' : Lambda} → f.Alike K f' → P.Rel (Lambda.Alike K) (f.complete body) (f'.complete body')
  | _, _, .mk _ hn hps hr hi h =>
    .bind (completeBody hb hi) fun _ _ hi => .bind P.freshLambda fun _ _ hid => .pure (.mk hid hn hps hr hi h)

/-- A pending body is expanded on both sides. -/
theorem completeBody (hb : P.Bodies body body') : {b b' : Body} → b.Alike K b' → P.Rel (Body.Alike K) (b.complete body) (b'.complete body')
  | _, _, .deferred hts => .bind (hb _ _ hts) fun _ _ hl => .pure (.block hl)
  | _, _, .block hl => .bind (completeStatements hb hl) fun _ _ hl => .pure (.block hl)
  | _, _, .concise he => .bind (complete hb he) fun _ _ he => .pure (.concise he)

theorem completeParts (hb : P.Bodies body body') : {l l' : List TemplatePart} → Forall₂ (TemplatePart.Alike K) l l' →
    P.Rel (Forall₂ (TemplatePart.Alike K)) (TemplatePart.completeAll body l) (TemplatePart.completeAll body' l')
  | _, _, .nil => .pure .nil
  | _, _, .cons h hs => .bind (completePart hb h) fun _ _ h => .bind (completeParts hb hs) fun _ _ hs => .pure (.cons h hs)

theorem completePart (hb : P.Bodies body body') : {t t' : TemplatePart} → t.Alike K t' →
    P.Rel (TemplatePart.Alike K) (t.complete body) (t'.complete body')
  | _, _, .token ht => .pure (.token ht)
  | _, _, .group hm hl => .bind (completeParts hb hl) fun _ _ hl => .pure (.group hm hl)
  | _, _, .unquote he => .bind (complete hb he) fun _ _ he => .pure (.unquote he)

/-- Alike statements are completed alike. -/
theorem completeStatement (hb : P.Bodies body body') : {s s' : Statement} → s.Alike K s' →
    P.Rel (Statement.Alike K) (s.complete body) (s'.complete body')
  | _, _, .declaration hd h => .bind (completeDeclaration hb hd) fun _ _ hd => .pure (.declaration hd h)
  | _, _, .function hf h => .bind (completeLambda hb hf) fun _ _ hf => .pure (.function hf h)
  | _, _, .expression he h => .bind (complete hb he) fun _ _ he => .pure (.expression he h)
  | _, _, .return he h => .bind (completeOption hb he) fun _ _ he => .pure (.return he h)
  | _, _, .branch ht hc .none h =>
    .bind (complete hb ht) fun _ _ ht => .bind (completeStatement hb hc) fun _ _ hc =>
      .bind (.pure .none) fun _ _ ha => .pure (.branch ht hc ha h)
  | _, _, .branch ht hc (.some ha) h =>
    .bind (complete hb ht) fun _ _ ht => .bind (completeStatement hb hc) fun _ _ hc =>
      .bind (.bind (completeStatement hb ha) fun _ _ ha => .pure (.some ha)) fun _ _ ha => .pure (.branch ht hc ha h)
  | _, _, .loop ht hi h =>
    .bind (complete hb ht) fun _ _ ht => .bind (completeStatement hb hi) fun _ _ hi => .pure (.loop ht hi h)
  | _, _, .block hl h => .bind (completeStatements hb hl) fun _ _ hl => .pure (.block hl h)
  | _, _, .empty h => .pure (.empty h)
  | _, _, .throw he h => .bind (complete hb he) fun _ _ he => .pure (.throw he h)

theorem completeStatements (hb : P.Bodies body body') : {l l' : List Statement} → Forall₂ (Statement.Alike K) l l' →
    P.Rel (Forall₂ (Statement.Alike K)) (Statement.completeAll body l) (Statement.completeAll body' l')
  | _, _, .nil => .pure .nil
  | _, _, .cons h hs =>
    .bind (completeStatement hb h) fun _ _ h => .bind (completeStatements hb hs) fun _ _ hs => .pure (.cons h hs)

theorem completeDeclaration (hb : P.Bodies body body') : {d d' : Declaration} → d.Alike K d' →
    P.Rel (Declaration.Alike K) (d.complete body) (d'.complete body')
  | _, _, .mk hl h => .bind (completeDeclarators hb hl) fun _ _ hl => .pure (.mk hl h)

theorem completeDeclarators (hb : P.Bodies body body') : {l l' : List Declarator} → Forall₂ (Declarator.Alike K) l l' →
    P.Rel (Forall₂ (Declarator.Alike K)) (Declarator.completeAll body l) (Declarator.completeAll body' l')
  | _, _, .nil => .pure .nil
  | _, _, .cons (.mk ht he h) hs =>
    .bind (completeOption hb he) fun _ _ he => .bind (completeDeclarators hb hs) fun _ _ hs => .pure (.cons (.mk ht he h) hs)

end

/-- Alike items are completed alike. -/
theorem completeItem (hb : P.Bodies body body') {item item' : ModuleItem} (h : item.Alike K item') :
    P.Rel (ModuleItem.Alike K) (item.complete body) (item'.complete body') := by
  cases h with
  | importItem hi => exact .pure (.importItem hi)
  | exportList hl h => exact .pure (.exportList hl h)
  | statement hs => exact .bind (completeStatement hb hs) fun _ _ hs => .pure (.statement hs)
  | exportItem he h =>
    refine .bind (R := ExportDeclaration.Alike K) ?_ fun _ _ he => .pure (.exportItem he h)
    cases he with
    | declaration hd => exact .bind (completeDeclaration hb hd) fun _ _ hd => .pure (.declaration hd)
    | function hf => exact .bind (completeLambda hb hf) fun _ _ hf => .pure (.function hf)
    | defaultValue ht he => exact .bind (complete hb he) fun _ _ he => .pure (.defaultValue ht he)

end Completion

/-! ### Statements -/

variable {p p' : Passes} {s s' : Setup} {home : Home}

/-- The keyword is the same on both sides, and can stand in the module. -/
theorem declarationKeyword (home : Home) : P.Reads (fun kind kind' => kind = kind' ∧ ∀ k ∈ kind, k.AllowedIn home)
    (Parse.declarationKeyword home) (Parse.declarationKeyword home) := by
  refine .bind peek fun t t' ht => ?_
  have hkeyword : (t.bind fun t => t.ident?.bind DeclarationKind.ofKeyword?) =
      t'.bind fun t => t.ident?.bind DeclarationKind.ofKeyword? := by
    cases ht with
    | none => rfl
    | some ht => simp only [Option.bind_some, Likeness.ident? ht]
  rw [hkeyword]
  split
  · exact .pure ⟨rfl, nofun⟩
  · next kind _ =>
    split
    · exact .pure ⟨rfl, nofun⟩
    · next hgate =>
      refine .after (peekNthIs 1 Likeness.isIdent) fun _ => .ite (.pure ⟨rfl, ?_⟩) (.pure ⟨rfl, nofun⟩)
      rintro _ ⟨⟩ htransformers
      simpa [htransformers] using hgate

/-- Declared variables are read alike. -/
theorem variableDeclarator (hp : P.Ties p p') {t t' : Token} (ht : K.token t t') :
    P.Reads (Declarator.Alike K) (Parse.variableDeclarator p t) (Parse.variableDeclarator p' t') := by
  have hstart := Likeness.token_site ht
  refine .after (.lift (P.bindVariable ht)) fun _ => .after (eat "=") fun _ => .ite ?_ ?_
  · refine .bind (.map hp.assignment fun _ _ he => Option.Rel.some he) fun _ _ hinit => ?_
    exact .bind previousSite fun _ _ hsite => .pure (.mk ht hinit (K.cover hstart hsite))
  · refine .bind (R := Option.Rel (Expression.Alike K)) (.pure .none) fun _ _ hinit => ?_
    exact .bind previousSite fun _ _ hsite => .pure (.mk ht hinit (K.cover hstart hsite))

/-- Transformers are declared alike where they may be declared. -/
def Declares (P : Parallel K) (s s' : Setup) (home : Home) (p p' : Passes) : Prop :=
  home.dialect = .sweet → ∀ kind t t', K.token t t' →
    P.Reads (Declarator.Alike K) (Parse.transformerDeclarator s home p kind t) (Parse.transformerDeclarator s' home p' kind t')

/-- Declarators are read alike where their kind is allowed. -/
theorem declarators (hd : P.Declares s s' home p p') (hp : P.Ties p p') {kind : DeclarationKind}
    (hk : kind.AllowedIn home) (limit : Nat) : P.Reads (Forall₂ (Declarator.Alike K))
      (Parse.declarators s home p kind limit) (Parse.declarators s' home p' kind limit) := by
  induction limit with
  | zero => exact .exhausted
  | succ limit ih =>
    refine .bind (expectIdent _) fun binding binding' hbinding => ?_
    split
    · next htransformers =>
      refine .bind (hd (hk htransformers) kind binding binding' hbinding) fun _ _ h => .after (eat ",") fun _ => ?_
      exact .ite (.bind ih fun _ _ hs => .pure (.cons h hs)) (.pure (.cons h .nil))
    · refine .bind (variableDeclarator hp hbinding) fun _ _ h => .after (eat ",") fun _ => ?_
      exact .ite (.bind ih fun _ _ hs => .pure (.cons h hs)) (.pure (.cons h .nil))

theorem declaration (hd : P.Declares s s' home p p') (hp : P.Ties p p') {kind : DeclarationKind} (hk : kind.AllowedIn home) :
    P.Reads (Declaration.Alike K) (Parse.declaration s home p kind) (Parse.declaration s' home p' kind) := by
  unfold Parse.declaration
  rw [← hp.limit]
  refine .bind (next _) fun _ _ hstart => .bind (declarators hd hp hk _) fun _ _ hlist => ?_
  exact .bind previousSite fun _ _ hsite => .pure (.mk hlist (K.cover (Likeness.token_site hstart) hsite))

/-- Statements are read alike. -/
theorem statements (hp : P.Ties p p') (limit : Nat) :
    P.Reads (Forall₂ (Statement.Alike K)) (Parse.statements p limit) (Parse.statements p' limit) := by
  induction limit with
  | zero => exact .exhausted
  | succ limit ih =>
    refine .after atEnd fun _ => .ite (.pure .nil) (.bind hp.statement fun _ _ h => ?_)
    cases h with
    | none => exact ih
    | some h => exact .bind ih fun _ _ hs => .pure (.cons h hs)

/-- Alike blocks hold alike statements. -/
theorem block (hp : P.Ties p p') {ts ts' : List Token} (hts : Forall₂ K.token ts ts') :
    P.Rel (Forall₂ (Statement.Alike K)) (Parse.block p ts) (Parse.block p' ts') := by
  unfold Parse.block
  rw [← hp.limit]
  refine .bind P.freshScope fun _ _ hscope => .bind (enclose hscope hts) fun _ _ hts => ?_
  exact .bind ((statements hp _).on hts) fun _ _ h => .pure h.1

theorem requiredStatement (hp : P.Ties p p') :
    P.Reads (Statement.Alike K) (Parse.requiredStatement p) (Parse.requiredStatement p') := by
  refine .bind hp.statement fun _ _ h => ?_
  cases h with
  | none => exact .bind previousSite fun _ _ hsite => .pure (.empty hsite)
  | some h => exact .pure h

theorem test (hp : P.Ties p p') : P.Reads (Expression.Alike K) (Parse.test p) (Parse.test p') :=
  .bind (expectGroup _ _) fun _ _ h => .lift (groupExpression hp h.1 h.2)

theorem branch (hp : P.Ties p p') (hstart : K.site start start') :
    P.Reads (Statement.Alike K) (Parse.branch p start) (Parse.branch p' start') := by
  refine .after advance fun _ => .bind (test hp) fun _ _ htest => .bind (requiredStatement hp) fun _ _ hthen => ?_
  refine .after (peekIsWord "else") fun _ => .ite (.after advance fun _ => ?_) ?_
  · refine .bind (.map (requiredStatement hp) fun _ _ h => Option.Rel.some h) fun _ _ helse => ?_
    exact .bind previousSite fun _ _ hsite => .pure (.branch htest hthen helse (K.cover hstart hsite))
  · refine .bind (R := Option.Rel (Statement.Alike K)) (.pure .none) fun _ _ helse => ?_
    exact .bind previousSite fun _ _ hsite => .pure (.branch htest hthen helse (K.cover hstart hsite))

theorem loop (hp : P.Ties p p') (hstart : K.site start start') :
    P.Reads (Statement.Alike K) (Parse.loop p start) (Parse.loop p' start') := by
  refine .after advance fun _ => .bind (test hp) fun _ _ htest => .bind (requiredStatement hp) fun _ _ hbody => ?_
  exact .bind previousSite fun _ _ hsite => .pure (.loop htest hbody (K.cover hstart hsite))

theorem endStatement (hstart : K.site start start') :
    P.Reads K.site (Parse.endStatement start) (Parse.endStatement start') :=
  .after optionalSemicolon fun _ => .bind previousSite fun _ _ hsite => .pure (K.cover hstart hsite)

theorem returnValue (hp : P.Ties p p') :
    P.Reads (Option.Rel (Expression.Alike K)) (Parse.returnValue p) (Parse.returnValue p') :=
  .after atEnd fun _ => .after (peekIs (Likeness.isPunct · ";")) fun _ =>
    .ite (.pure .none) (.map hp.assignment fun _ _ he => .some he)

/-- Alike tokens start alike statements. -/
theorem statementAt (hd : P.Declares s s' home p p') (hp : P.Ties p p') {t t' : Token} (ht : K.token t t') :
    P.Reads (Statement.Alike K) (Parse.statementAt s home p t) (Parse.statementAt s' home p' t') := by
  have hstart := Likeness.token_site ht
  unfold Parse.statementAt
  simp only [Likeness.isWord ht, Likeness.isPunct ht]
  refine .bind (declarationKeyword home) fun kind _ hkind => ?_
  obtain ⟨rfl, hallowed⟩ := hkind
  cases kind with
  | some kind =>
    exact .bind (declaration hd hp (hallowed kind rfl)) fun _ _ hd => .bind (endStatement hstart) fun _ _ h => .pure (.declaration hd h)
  | none =>
    refine .after (peekNthIs 1 Likeness.isIdent) fun _ => .ite ?_ (.ite ?_ (.ite (branch hp hstart) (.ite (loop hp hstart) ?_)))
    · refine .bind (function true) fun _ _ hf => .bind previousSite fun _ _ hsite => ?_
      exact .pure (.function hf (K.cover hstart hsite))
    · refine .after advance fun _ => .bind (returnValue hp) fun _ _ he => .bind (endStatement hstart) fun _ _ h => ?_
      exact .pure (.return he h)
    refine .ite (.after advance fun _ => .bind hp.assignment fun _ _ he => ?_) ?_
    · exact .bind (endStatement hstart) fun _ _ h => .pure (.throw he h)
    have hgroup := Likeness.group? ht .brace
    generalize t.group? .brace = inner, t'.group? .brace = inner' at hgroup ⊢
    cases hgroup with
    | some hts => exact .after advance fun _ => .bind (.lift (block hp hts)) fun _ _ hl => .pure (.block hl hstart)
    | none =>
      refine .ite (.after advance fun _ => .pure (.empty hstart)) (.bind hp.assignment fun _ _ he => ?_)
      exact .bind (endStatement hstart) fun _ _ h => .pure (.expression he h)

/-- A statement is read alike when invocations are. -/
theorem statementStep (hi : P.Reads Eq (Parse.invokeHere s) (Parse.invokeHere s')) (hd : P.Declares s s' home p p')
    (hp : P.Ties p p') :
    P.Reads (Option.Rel (Statement.Alike K)) (Parse.statementStep s home p) (Parse.statementStep s' home p') := by
  unfold Parse.statementStep
  rw [← hp.limit]
  refine .after (invokeAll hi _) fun _ => .bind peek fun _ _ ht => ?_
  cases ht with
  | none => exact .pure .none
  | some ht => exact .map (statementAt hd hp ht) fun _ _ h => .some h

/-- Alike bodies are expanded alike. -/
theorem body (hp : P.Ties p p') (ts ts' : List Token) (hts : Forall₂ K.token ts ts') :
    P.Rel (Forall₂ (Statement.Alike K)) (Expand.body p ts) (Expand.body p' ts') := by
  unfold Expand.body
  rw [← hp.limit]
  exact .bind ((statements hp _).on hts) fun _ _ h => completeStatements hp.body h.1

theorem limit_passes (s : Setup) (limit : Nat) (home : Home) : (passes s limit home).limit = limit - 1 := by
  cases limit <;> rfl

/-- The readers of terms build alike terms, however deep they may go. -/
theorem ties_passes (P : Parallel K) (hi : P.Reads Eq (Parse.invokeHere s) (Parse.invokeHere s'))
    (hd : ∀ limit, P.Ties (passes s limit home) (passes s' limit home) →
      P.Declares s s' home (passes s limit home) (passes s' limit home)) (limit : Nat) :
    P.Ties (passes s limit home) (passes s' limit home) := by
  induction limit with
  | zero =>
    exact {
      limit := (limit_passes s _ home).trans (limit_passes s' _ home).symm
      assignment := fun _ _ _ => P.exhausted
      unary := fun _ _ _ => P.exhausted
      statement := fun _ _ _ => P.exhausted
      body := fun _ _ _ => P.exhausted }
  | succ limit ih =>
    exact {
      limit := (limit_passes s _ home).trans (limit_passes s' _ home).symm
      assignment := assignmentStep ih
      unary := unaryStep hi ih
      statement := statementStep hi (hd limit ih) ih
      body := body ih }

end Parallel

end Hygiene
