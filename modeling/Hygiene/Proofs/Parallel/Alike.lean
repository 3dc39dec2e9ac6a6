import Hygiene.Expand.Item
import Mathlib.Data.List.Forall2

/-!
# Terms that are alike

Two terms are alike when they and their tokens are of the same shape, and their marks and sites are alike in some way:
they may be equal, or have the same meaning, or both be of one kind. Readers make the same tests on alike tokens and
build alike terms.
-/

theorem List.Forall₂.imp_mem {α β : Type} {R S : α → β → Prop} {l : List α} {l' : List β} (h : List.Forall₂ R l l')
    (hs : ∀ a ∈ l, ∀ b, R a b → S a b) : List.Forall₂ S l l' := by
  induction h with
  | nil => exact .nil
  | cons h _ ih => exact .cons (hs _ (.head _) _ h) (ih fun a ha => hs a (.tail _ ha))

theorem Option.Rel.imp_mem {α β : Type} {R S : α → β → Prop} {o : Option α} {o' : Option β} (h : Option.Rel R o o')
    (hs : ∀ a ∈ o, ∀ b, R a b → S a b) : Option.Rel S o o' := by
  cases h with
  | none => exact .none
  | some h => exact .some (hs _ rfl _ h)

namespace Hygiene

/-- A way for tokens, marks and sites to be alike. -/
structure Likeness where
  token : Token → Token → Prop
  mark : Mark → Mark → Prop
  site : Site → Site → Prop
  /-- The numbers that scopes and functions are given. -/
  number : Nat → Nat → Prop := Eq
  unknown : site .unknown .unknown
  cover {a a' b b' : Site} : site a a' → site b b' → site (a.cover b) (a'.cover b')
  mark_site {m m' : Mark} : mark m m' → site m.site m'.site
  atom {m : Mark} {a : Atom} {t : Token} : token (.atom m a) t → ∃ m', mark m m' ∧ t = .atom m' a
  nest {m : Mark} {shape : Nest} {ts : List Token} {t : Token} : token (.nest m shape ts) t →
    ∃ m' ts', mark m m' ∧ List.Forall₂ token ts ts' ∧ t = .nest m' shape ts'
  text {t t' : Token} : token t t' → t.text = t'.text
  addScope {scope scope' : ScopeId} {t t' : Token} : number scope scope' → token t t' →
    token (t.addScope scope) (t'.addScope scope')
  removeScope {scope scope' : ScopeId} {t t' : Token} : number scope scope' → token t t' →
    token (t.removeScope scope) (t'.removeScope scope')

namespace Likeness

variable {K : Likeness} {t t' : Token} {ts ts' : List Token} {scope scope' : ScopeId}

/-- What looks at the shape of a token only is the same for alike tokens. -/
theorem same {β : Type} (f : Token → β) (hatom : ∀ m m' a, f (.atom m a) = f (.atom m' a))
    (hnest : ∀ m m' shape ts ts', f (.nest m shape ts) = f (.nest m' shape ts')) (h : K.token t t') : f t = f t' := by
  cases t with
  | atom m a =>
    obtain ⟨m', _, rfl⟩ := K.atom h
    exact hatom m m' a
  | nest m shape ts =>
    obtain ⟨m', ts', _, _, rfl⟩ := K.nest h
    exact hnest m m' shape ts ts'

/-- Alike tokens have the same name. -/
theorem ident? (h : K.token t t') : t.ident? = t'.ident? :=
  same (·.ident?) (fun _ _ a => by cases a <;> rfl) (fun _ _ _ _ _ => rfl) h

/-- Both are identifiers or neither is. -/
theorem isIdent (h : K.token t t') : t.isIdent = t'.isIdent := congrArg Option.isSome (ident? h)

theorem isWord (h : K.token t t') (word : String) : t.isWord word = t'.isWord word :=
  same (·.isWord word) (fun _ _ a => by cases a <;> rfl) (fun _ _ _ _ _ => rfl) h

theorem isPunct (h : K.token t t') (p : String) : t.isPunct p = t'.isPunct p :=
  same (·.isPunct p) (fun _ _ a => by cases a <;> rfl) (fun _ _ _ _ _ => rfl) h

/-- They name the same property. -/
theorem propertyName? (h : K.token t t') : Parse.propertyName? t = Parse.propertyName? t' :=
  same _ (fun _ _ a => by cases a <;> rfl) (fun _ _ _ _ _ => rfl) h

/-- Alike tokens stand at alike sites. -/
theorem token_site (h : K.token t t') : K.site t.site t'.site := by
  cases t with
  | atom m a =>
    obtain ⟨m', hm, rfl⟩ := K.atom h
    exact K.mark_site hm
  | nest m shape ts =>
    obtain ⟨m', ts', hm, _, rfl⟩ := K.nest h
    exact K.mark_site hm

theorem isSome_eq {α : Type} {R : α → α → Prop} {a a' : Option α} (h : Option.Rel R a a') : a.isSome = a'.isSome := by
  cases h <;> rfl

/-- Their groups hold alike tokens. -/
theorem group? (h : K.token t t') (d : Delimiter) : Option.Rel (List.Forall₂ K.token) (t.group? d) (t'.group? d) := by
  cases t with
  | atom m a =>
    obtain ⟨m', _, rfl⟩ := K.atom h
    exact .none
  | nest m shape ts =>
    obtain ⟨m', ts', _, hts, rfl⟩ := K.nest h
    cases shape with
    | group e =>
      simp only [Tree.group?]
      split
      · exact .some hts
      · exact .none
    | _ => exact .none

/-- So do their templates. -/
theorem template? (h : K.token t t') : Option.Rel (List.Forall₂ K.token) t.template? t'.template? := by
  cases t with
  | atom m a =>
    obtain ⟨m', _, rfl⟩ := K.atom h
    exact .none
  | nest m shape ts =>
    obtain ⟨m', ts', _, hts, rfl⟩ := K.nest h
    cases shape with
    | template => exact .some hts
    | _ => exact .none

/-- Alike tokens are written alike. -/
theorem textAll (h : List.Forall₂ K.token ts ts') : Tree.textAll ts = Tree.textAll ts' := by
  induction h with
  | nil => rfl
  | cons h hs ih =>
    cases hs with
    | nil => exact K.text h
    | cons =>
      show _ ++ " " ++ Tree.textAll (_ :: _) = _ ++ " " ++ Tree.textAll (_ :: _)
      rw [K.text h, ih]

/-- Entering a scope keeps tokens alike. -/
theorem wrap (hscope : K.number scope scope') (h : List.Forall₂ K.token ts ts') :
    List.Forall₂ K.token (Token.wrap scope ts) (Token.wrap scope' ts') :=
  List.rel_map (fun _ _ h => K.addScope hscope h) h

/-- So does leaving it. -/
theorem strip (hscope : K.number scope scope') (h : List.Forall₂ K.token ts ts') :
    List.Forall₂ K.token (Token.strip scope ts) (Token.strip scope' ts') :=
  List.rel_map (fun _ _ h => K.removeScope hscope h) h

theorem head? (h : List.Forall₂ K.token ts ts') : Option.Rel K.token ts.head? ts'.head? := by
  cases h with
  | nil => exact .none
  | cons h _ => exact .some h

/-- They stretch over alike sites. -/
theorem tokens_cover (h : List.Forall₂ K.token ts ts') : K.site (Token.cover ts) (Token.cover ts') := by
  have hfirst := head? h
  have hlast := head? (List.rel_reverse h)
  rw [List.head?_reverse, List.head?_reverse] at hlast
  unfold Token.cover
  generalize ts.head? = first, ts'.head? = first' at *
  generalize ts.getLast? = last, ts'.getLast? = last' at *
  cases hfirst with
  | none => exact K.unknown
  | some hfirst =>
    cases hlast with
    | none => exact K.unknown
    | some hlast => exact K.cover (token_site hfirst) (token_site hlast)

/-- The walk of `splitCommas` makes alike parts of alike tokens. -/
theorem splitCommas_go (h : List.Forall₂ K.token ts ts') : ∀ {run run' : List Token}, List.Forall₂ K.token run run' →
    List.Forall₂ (List.Forall₂ K.token) (Token.splitCommas.go run ts) (Token.splitCommas.go run' ts') := by
  induction h with
  | nil => exact fun hrun => .cons (List.rel_reverse hrun) .nil
  | cons h _ ih =>
    intro run run' hrun
    rw [Token.splitCommas.go, Token.splitCommas.go, isPunct h]
    split
    · exact .cons (List.rel_reverse hrun) (ih .nil)
    · exact ih (.cons h hrun)

/-- Parts between commas are alike. -/
theorem splitCommas (h : List.Forall₂ K.token ts ts') :
    List.Forall₂ (List.Forall₂ K.token) (Token.splitCommas ts) (Token.splitCommas ts') := by
  refine List.rel_filter (fun part part' hpart => ?_) (splitCommas_go h .nil)
  cases hpart with
  | nil => rfl
  | cons => rfl

end Likeness

variable (K : Likeness)

mutual

/-- The expressions are alike. -/
inductive Expression.Alike : Expression → Expression → Prop
  | number {n s s'} : K.site s s' → Expression.Alike (.number n s) (.number n s')
  | str {v s s'} : K.site s s' → Expression.Alike (.str v s) (.str v s')
  | bool {b s s'} : K.site s s' → Expression.Alike (.bool b s) (.bool b s')
  | null {s s'} : K.site s s' → Expression.Alike (.null s) (.null s')
  | ident {t t' s s'} : K.token t t' → K.site s s' → Expression.Alike (.ident t s) (.ident t' s')
  | array {l l' s s'} : List.Forall₂ Expression.Alike l l' → K.site s s' → Expression.Alike (.array l s) (.array l' s')
  | object {l l' s s'} : List.Forall₂ Property.Alike l l' → K.site s s' → Expression.Alike (.object l s) (.object l' s')
  | lambda {f f' s s'} : Lambda.Alike f f' → K.site s s' → Expression.Alike (.lambda f s) (.lambda f' s')
  | call {e e' l l' s s'} : Expression.Alike e e' → List.Forall₂ Expression.Alike l l' → K.site s s' →
    Expression.Alike (.call e l s) (.call e' l' s')
  | member {e e' name s s'} : Expression.Alike e e' → K.site s s' → Expression.Alike (.member e name s) (.member e' name s')
  | index {e e' k k' s s'} : Expression.Alike e e' → Expression.Alike k k' → K.site s s' →
    Expression.Alike (.index e k s) (.index e' k' s')
  | unary {op e e' s s'} : Expression.Alike e e' → K.site s s' → Expression.Alike (.unary op e s) (.unary op e' s')
  | binary {op l l' r r' s s'} : Expression.Alike l l' → Expression.Alike r r' → K.site s s' →
    Expression.Alike (.binary op l r s) (.binary op l' r' s')
  | conditional {t t' c c' a a' s s'} : Expression.Alike t t' → Expression.Alike c c' → Expression.Alike a a' →
    K.site s s' → Expression.Alike (.conditional t c a s) (.conditional t' c' a' s')
  | assign {t t' v v' s s'} : Expression.Alike t t' → Expression.Alike v v' → K.site s s' →
    Expression.Alike (.assign t v s) (.assign t' v' s')
  | template {l l' ts ts' s s'} : List.Forall₂ TemplatePart.Alike l l' → List.Forall₂ K.token ts ts' → K.site s s' →
    Expression.Alike (.template l ts s) (.template l' ts' s')

/-- The properties are alike. -/
inductive Property.Alike : Property → Property → Prop
  | mk {name e e' s s'} : Expression.Alike e e' → K.site s s' → Property.Alike ⟨name, e, s⟩ ⟨name, e', s'⟩

/-- The functions are alike. -/
inductive Lambda.Alike : Lambda → Lambda → Prop
  | mk {id id' name name' ps ps' r r' b b' arrow s s'} : K.number id id' → Option.Rel K.token name name' →
    List.Forall₂ K.token ps ps' → Option.Rel K.token r r' → Body.Alike b b' → K.site s s' →
    Lambda.Alike ⟨id, name, ps, r, b, arrow, s⟩ ⟨id', name', ps', r', b', arrow, s'⟩

/-- The bodies of functions are alike. -/
inductive Body.Alike : Body → Body → Prop
  | deferred {ts ts'} : List.Forall₂ K.token ts ts' → Body.Alike (.deferred ts) (.deferred ts')
  | block {l l'} : List.Forall₂ Statement.Alike l l' → Body.Alike (.block l) (.block l')
  | concise {e e'} : Expression.Alike e e' → Body.Alike (.concise e) (.concise e')

/-- The parts of templates are alike. -/
inductive TemplatePart.Alike : TemplatePart → TemplatePart → Prop
  | token {t t'} : K.token t t' → TemplatePart.Alike (.token t) (.token t')
  | group {d m m' l l'} : K.mark m m' → List.Forall₂ TemplatePart.Alike l l' →
    TemplatePart.Alike (.group d m l) (.group d m' l')
  | unquote {e e'} : Expression.Alike e e' → TemplatePart.Alike (.unquote e) (.unquote e')

/-- The statements are alike. -/
inductive Statement.Alike : Statement → Statement → Prop
  | declaration {d d' s s'} : Declaration.Alike d d' → K.site s s' → Statement.Alike (.declaration d s) (.declaration d' s')
  | function {f f' s s'} : Lambda.Alike f f' → K.site s s' → Statement.Alike (.function f s) (.function f' s')
  | expression {e e' s s'} : Expression.Alike e e' → K.site s s' → Statement.Alike (.expression e s) (.expression e' s')
  | return {e e' s s'} : Option.Rel Expression.Alike e e' → K.site s s' → Statement.Alike (.return e s) (.return e' s')
  | branch {t t' c c' a a' s s'} : Expression.Alike t t' → Statement.Alike c c' → Option.Rel Statement.Alike a a' →
    K.site s s' → Statement.Alike (.branch t c a s) (.branch t' c' a' s')
  | loop {t t' b b' s s'} : Expression.Alike t t' → Statement.Alike b b' → K.site s s' →
    Statement.Alike (.loop t b s) (.loop t' b' s')
  | block {l l' s s'} : List.Forall₂ Statement.Alike l l' → K.site s s' → Statement.Alike (.block l s) (.block l' s')
  | empty {s s'} : K.site s s' → Statement.Alike (.empty s) (.empty s')
  | throw {e e' s s'} : Expression.Alike e e' → K.site s s' → Statement.Alike (.throw e s) (.throw e' s')

/-- The declarations are alike. -/
inductive Declaration.Alike : Declaration → Declaration → Prop
  | mk {kind l l' s s'} : List.Forall₂ Declarator.Alike l l' → K.site s s' → Declaration.Alike ⟨kind, l, s⟩ ⟨kind, l', s'⟩

/-- The declared names are alike. -/
inductive Declarator.Alike : Declarator → Declarator → Prop
  | mk {b b' e e' s s'} : K.token b b' → Option.Rel Expression.Alike e e' → K.site s s' →
    Declarator.Alike ⟨b, e, s⟩ ⟨b', e', s'⟩

end

variable {K}

/-- Alike expressions stand at alike sites. -/
theorem Expression.Alike.site {e e' : Expression} (h : Expression.Alike K e e') : K.site e.site e'.site := by
  cases h <;> assumption

/-- Both are places or neither is. -/
theorem Expression.Alike.isPlace {e e' : Expression} (h : Expression.Alike K e e') : e.isPlace = e'.isPlace := by
  cases h <;> rfl

variable (K)

/-- The imported names are alike. -/
inductive ImportSpecifier.Alike : ImportSpecifier → ImportSpecifier → Prop
  | mk {a a' b b' s s'} : Option.Rel K.token a a' → K.token b b' → K.site s s' →
    ImportSpecifier.Alike ⟨a, b, s⟩ ⟨a', b', s'⟩

/-- The imports are alike. -/
inductive Import.Alike : Import → Import → Prop
  | mk {b b' l l' specifier forSyntax s s'} : Option.Rel K.token b b' → List.Forall₂ (ImportSpecifier.Alike K) l l' →
    K.site s s' → Import.Alike ⟨b, l, specifier, forSyntax, s⟩ ⟨b', l', specifier, forSyntax, s'⟩

/-- The exported names are alike. -/
inductive ExportSpecifier.Alike : ExportSpecifier → ExportSpecifier → Prop
  | mk {a a' b b' s s'} : K.token a a' → Option.Rel K.token b b' → K.site s s' →
    ExportSpecifier.Alike ⟨a, b, s⟩ ⟨a', b', s'⟩

/-- The exports declare alike terms. -/
inductive ExportDeclaration.Alike : ExportDeclaration → ExportDeclaration → Prop
  | declaration {d d'} : Declaration.Alike K d d' → ExportDeclaration.Alike (.declaration d) (.declaration d')
  | function {f f'} : Lambda.Alike K f f' → ExportDeclaration.Alike (.function f) (.function f')
  | defaultValue {t t' e e'} : K.token t t' → Expression.Alike K e e' →
    ExportDeclaration.Alike (.defaultValue t e) (.defaultValue t' e')

/-- The items are alike. -/
inductive ModuleItem.Alike : ModuleItem → ModuleItem → Prop
  | importItem {i i'} : Import.Alike K i i' → ModuleItem.Alike (.importItem i) (.importItem i')
  | exportItem {e e' s s'} : ExportDeclaration.Alike K e e' → K.site s s' →
    ModuleItem.Alike (.exportItem e s) (.exportItem e' s')
  | exportList {l l' s s'} : List.Forall₂ (ExportSpecifier.Alike K) l l' → K.site s s' →
    ModuleItem.Alike (.exportList l s) (.exportList l' s')
  | statement {s s'} : Statement.Alike K s s' → ModuleItem.Alike (.statement s) (.statement s')

/-- The streams are alike: the tokens that were read and those to come. -/
structure Stream.Alike (s s' : Stream) : Prop where
  before : List.Forall₂ K.token s.before s'.before
  after : List.Forall₂ K.token s.after s'.after

/-- The same happened to alike tokens. -/
inductive Event.Alike : Event → Event → Prop
  | enclosed {s s' ts ts'} : K.number s s' → List.Forall₂ K.token ts ts' → Event.Alike (.enclosed s ts) (.enclosed s' ts')
  | left {s s' ts ts'} : K.number s s' → List.Forall₂ K.token ts ts' → Event.Alike (.left s ts) (.left s' ts')
  | read {t t'} : K.token t t' → Event.Alike (.read t) (.read t')
  | shorthand {t t'} : K.token t t' → Event.Alike (.shorthand t) (.shorthand t')

/-! ### Finer ways to be alike -/

/-- What is alike in one way is alike in the other. -/
structure Likeness.Finer (K K' : Likeness) : Prop where
  token {t t' : Token} : K.token t t' → K'.token t t'
  mark {m m' : Mark} : K.mark m m' → K'.mark m m'
  site {s s' : Site} : K.site s s' → K'.site s s'
  number {n n' : Nat} : K.number n n' → K'.number n n'

namespace Likeness.Finer

variable {K K' : Likeness}

/-- A coarser likeness holds of the same tokens. -/
theorem tokens (hk : K.Finer K') {ts ts' : List Token} (h : List.Forall₂ K.token ts ts') : List.Forall₂ K'.token ts ts' :=
  h.imp fun _ _ => hk.token

theorem token? (hk : K.Finer K') {t t' : Option Token} (h : Option.Rel K.token t t') : Option.Rel K'.token t t' :=
  h.imp_mem fun _ _ _ => hk.token

mutual

/-- So it does of the terms made of them. -/
theorem expression (hk : K.Finer K') : {e e' : Expression} → e.Alike K e' → e.Alike K' e'
  | _, _, .number h => .number (hk.site h)
  | _, _, .str h => .str (hk.site h)
  | _, _, .bool h => .bool (hk.site h)
  | _, _, .null h => .null (hk.site h)
  | _, _, .ident ht h => .ident (hk.token ht) (hk.site h)
  | _, _, .array hl h => .array (hl.imp_mem fun _ _ _ => hk.expression) (hk.site h)
  | _, _, .object hl h => .object (hl.imp_mem fun _ _ _ => hk.property) (hk.site h)
  | _, _, .lambda hf h => .lambda (hk.lambda hf) (hk.site h)
  | _, _, .call he hl h => .call (hk.expression he) (hl.imp_mem fun _ _ _ => hk.expression) (hk.site h)
  | _, _, .member he h => .member (hk.expression he) (hk.site h)
  | _, _, .index he hi h => .index (hk.expression he) (hk.expression hi) (hk.site h)
  | _, _, .unary he h => .unary (hk.expression he) (hk.site h)
  | _, _, .binary hl hr h => .binary (hk.expression hl) (hk.expression hr) (hk.site h)
  | _, _, .conditional ht hc ha h => .conditional (hk.expression ht) (hk.expression hc) (hk.expression ha) (hk.site h)
  | _, _, .assign ht hv h => .assign (hk.expression ht) (hk.expression hv) (hk.site h)
  | _, _, .template hl hts h => .template (hl.imp_mem fun _ _ _ => hk.part) (hk.tokens hts) (hk.site h)

theorem property (hk : K.Finer K') : {q q' : Property} → q.Alike K q' → q.Alike K' q'
  | _, _, .mk he h => .mk (hk.expression he) (hk.site h)

theorem lambda (hk : K.Finer K') : {f f' : Lambda} → f.Alike K f' → f.Alike K' f'
  | _, _, .mk hid hn hps hr hb h =>
    .mk (hk.number hid) (hk.token? hn) (hk.tokens hps) (hk.token? hr) (hk.body hb) (hk.site h)

theorem body (hk : K.Finer K') : {b b' : Body} → b.Alike K b' → b.Alike K' b'
  | _, _, .deferred hts => .deferred (hk.tokens hts)
  | _, _, .block hl => .block (hl.imp_mem fun _ _ _ => hk.statement)
  | _, _, .concise he => .concise (hk.expression he)

theorem part (hk : K.Finer K') : {t t' : TemplatePart} → t.Alike K t' → t.Alike K' t'
  | _, _, .token ht => .token (hk.token ht)
  | _, _, .group hm hl => .group (hk.mark hm) (hl.imp_mem fun _ _ _ => hk.part)
  | _, _, .unquote he => .unquote (hk.expression he)

theorem statement (hk : K.Finer K') : {s s' : Statement} → s.Alike K s' → s.Alike K' s'
  | _, _, .declaration hd h => .declaration (hk.declaration hd) (hk.site h)
  | _, _, .function hf h => .function (hk.lambda hf) (hk.site h)
  | _, _, .expression he h => .expression (hk.expression he) (hk.site h)
  | _, _, .return he h => .return (he.imp_mem fun _ _ _ => hk.expression) (hk.site h)
  | _, _, .branch ht hc ha h => .branch (hk.expression ht) (hk.statement hc) (ha.imp_mem fun _ _ _ => hk.statement) (hk.site h)
  | _, _, .loop ht hb h => .loop (hk.expression ht) (hk.statement hb) (hk.site h)
  | _, _, .block hl h => .block (hl.imp_mem fun _ _ _ => hk.statement) (hk.site h)
  | _, _, .empty h => .empty (hk.site h)
  | _, _, .throw he h => .throw (hk.expression he) (hk.site h)

theorem declaration (hk : K.Finer K') : {d d' : Declaration} → d.Alike K d' → d.Alike K' d'
  | _, _, .mk hl h => .mk (hl.imp_mem fun _ _ _ => hk.declarator) (hk.site h)

theorem declarator (hk : K.Finer K') : {d d' : Declarator} → d.Alike K d' → d.Alike K' d'
  | _, _, .mk ht he h => .mk (hk.token ht) (he.imp_mem fun _ _ _ => hk.expression) (hk.site h)

end

theorem item (hk : K.Finer K') {item item' : ModuleItem} (h : item.Alike K item') : item.Alike K' item' := by
  cases h with
  | importItem hi =>
    obtain ⟨ht, hl, h⟩ := hi
    refine .importItem (.mk (hk.token? ht) (hl.imp ?_) (hk.site h))
    exact fun | _, _, .mk ha hb h => .mk (hk.token? ha) (hk.token hb) (hk.site h)
  | exportItem he h =>
    cases he with
    | declaration hd => exact .exportItem (.declaration (hk.declaration hd)) (hk.site h)
    | function hf => exact .exportItem (.function (hk.lambda hf)) (hk.site h)
    | defaultValue ht he => exact .exportItem (.defaultValue (hk.token ht) (hk.expression he)) (hk.site h)
  | exportList hl h =>
    refine .exportList (hl.imp ?_) (hk.site h)
    exact fun | _, _, .mk ha hb h => .mk (hk.token ha) (hk.token? hb) (hk.site h)
  | statement hs => exact .statement (hk.statement hs)

end Likeness.Finer

end Hygiene
