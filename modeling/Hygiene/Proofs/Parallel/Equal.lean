import Hygiene.Proofs.Parallel.Items

/-!
# Equal terms

If every token is alike itself then so is every term. In the narrowest way terms are alike when they are equal.
-/

variable {α : Type} {R : α → α → Prop}

theorem Option.Rel.refl_mem {o : Option α} (h : ∀ a ∈ o, R a a) : Option.Rel R o o := by
  cases o with
  | none => exact .none
  | some a => exact .some (h a rfl)

theorem Option.Rel.eq_of_mem {o o' : Option α} (h : Option.Rel R o o') (hs : ∀ a ∈ o, ∀ b, R a b → a = b) : o = o' := by
  cases h with
  | none => rfl
  | some h => rw [hs _ rfl _ h]

theorem List.Forall₂.eq_of_mem {l l' : List α} (h : List.Forall₂ R l l')
    (hs : ∀ a ∈ l, ∀ b, R a b → a = b) : l = l' := List.forall₂_eq_eq_eq ▸ h.imp_mem hs

namespace Hygiene

/-- Tokens, marks, sites and numbers are alike themselves. -/
structure Likeness.Reflexive (K : Likeness) : Prop where
  token (t : Token) : K.token t t
  mark (m : Mark) : K.mark m m
  site (s : Site) : K.site s s
  number (n : Nat) : K.number n n

section Self

variable {K : Likeness}

/-- Tokens are alike themselves. -/
theorem Likeness.Reflexive.tokens (hK : K.Reflexive) (ts : List Token) : List.Forall₂ K.token ts ts :=
  List.forall₂_same.2 fun t _ => hK.token t

/-- So is a token that may be missing. -/
theorem Likeness.Reflexive.token? (hK : K.Reflexive) (t : Option Token) : Option.Rel K.token t t := .refl_mem fun t _ => hK.token t

mutual

/-- Every expression is alike itself. -/
theorem Expression.alike_self (hK : K.Reflexive) : (e : Expression) → e.Alike K e
  | .number _ _ => .number (hK.site _)
  | .str _ _ => .str (hK.site _)
  | .bool _ _ => .bool (hK.site _)
  | .null _ => .null (hK.site _)
  | .ident _ _ => .ident (hK.token _) (hK.site _)
  | .array l _ => .array (List.forall₂_same.2 fun l _ => l.alike_self hK) (hK.site _)
  | .object l _ => .object (List.forall₂_same.2 fun l _ => l.alike_self hK) (hK.site _)
  | .lambda f _ => .lambda (f.alike_self hK) (hK.site _)
  | .call e l _ => .call (e.alike_self hK) (List.forall₂_same.2 fun l _ => l.alike_self hK) (hK.site _)
  | .member e _ _ => .member (e.alike_self hK) (hK.site _)
  | .index e k _ => .index (e.alike_self hK) (k.alike_self hK) (hK.site _)
  | .unary _ e _ => .unary (e.alike_self hK) (hK.site _)
  | .binary _ l r _ => .binary (l.alike_self hK) (r.alike_self hK) (hK.site _)
  | .conditional t c a _ => .conditional (t.alike_self hK) (c.alike_self hK) (a.alike_self hK) (hK.site _)
  | .assign t v _ => .assign (t.alike_self hK) (v.alike_self hK) (hK.site _)
  | .template l _ _ => .template (List.forall₂_same.2 fun l _ => l.alike_self hK) (hK.tokens _) (hK.site _)

theorem Property.alike_self (hK : K.Reflexive) : (q : Property) → q.Alike K q
  | ⟨_, e, _⟩ => .mk (e.alike_self hK) (hK.site _)

theorem Lambda.alike_self (hK : K.Reflexive) : (f : Lambda) → f.Alike K f
  | ⟨_, _, _, _, body, _, _⟩ =>
    .mk (hK.number _) (hK.token? _) (hK.tokens _) (hK.token? _) (body.alike_self hK) (hK.site _)

theorem Body.alike_self (hK : K.Reflexive) : (b : Body) → b.Alike K b
  | .deferred _ => .deferred (hK.tokens _)
  | .block l => .block (List.forall₂_same.2 fun l _ => l.alike_self hK)
  | .concise e => .concise (e.alike_self hK)

theorem TemplatePart.alike_self (hK : K.Reflexive) : (t : TemplatePart) → t.Alike K t
  | .token _ => .token (hK.token _)
  | .group _ _ l => .group (hK.mark _) (List.forall₂_same.2 fun l _ => l.alike_self hK)
  | .unquote e => .unquote (e.alike_self hK)

theorem Statement.alike_self (hK : K.Reflexive) : (s : Statement) → s.Alike K s
  | .declaration d _ => .declaration (d.alike_self hK) (hK.site _)
  | .function f _ => .function (f.alike_self hK) (hK.site _)
  | .expression e _ => .expression (e.alike_self hK) (hK.site _)
  | .return e _ => .return (.refl_mem fun e _ => e.alike_self hK) (hK.site _)
  | .branch t c a _ => .branch (t.alike_self hK) (c.alike_self hK) (.refl_mem fun a _ => a.alike_self hK) (hK.site _)
  | .loop t b _ => .loop (t.alike_self hK) (b.alike_self hK) (hK.site _)
  | .block l _ => .block (List.forall₂_same.2 fun l _ => l.alike_self hK) (hK.site _)
  | .empty _ => .empty (hK.site _)
  | .throw e _ => .throw (e.alike_self hK) (hK.site _)

theorem Declaration.alike_self (hK : K.Reflexive) : (d : Declaration) → d.Alike K d
  | ⟨_, l, _⟩ => .mk (List.forall₂_same.2 fun l _ => l.alike_self hK) (hK.site _)

theorem Declarator.alike_self (hK : K.Reflexive) : (d : Declarator) → d.Alike K d
  | ⟨_, e, _⟩ => .mk (hK.token _) (.refl_mem fun e _ => e.alike_self hK) (hK.site _)

end

theorem ModuleItem.alike_self (hK : K.Reflexive) (item : ModuleItem) : item.Alike K item := by
  cases item with
  | importItem i =>
    refine .importItem (.mk (hK.token? _) (List.forall₂_same.2 fun _ _ => ?_) (hK.site _))
    exact .mk (hK.token? _) (hK.token _) (hK.site _)
  | statement inner => exact .statement (inner.alike_self hK)
  | exportList l site =>
    exact .exportList (List.forall₂_same.2 fun _ _ => .mk (hK.token _) (hK.token? _) (hK.site _)) (hK.site _)
  | exportItem exported site =>
    cases exported with
    | declaration d => exact .exportItem (.declaration (d.alike_self hK)) (hK.site _)
    | function f => exact .exportItem (.function (f.alike_self hK)) (hK.site _)
    | defaultValue t e => exact .exportItem (.defaultValue (hK.token t) (e.alike_self hK)) (hK.site _)

theorem Stream.alike_self (hK : K.Reflexive) (stream : Stream) : stream.Alike K stream := ⟨hK.tokens _, hK.tokens _⟩

end Self

/-- Tokens, marks and sites that are equal. -/
def Likeness.equal : Likeness where
  token := Eq
  mark := Eq
  site := Eq
  unknown := rfl
  cover ha hb := congr (congrArg Site.cover ha) hb
  mark_site := congrArg Mark.site
  atom h := ⟨_, rfl, h.symm⟩
  nest h := ⟨_, _, rfl, List.forall₂_same.2 fun _ _ => rfl, h.symm⟩
  text := congrArg Tree.text
  addScope hscope ht := congr (congrArg Token.addScope hscope) ht
  removeScope hscope ht := congr (congrArg Token.removeScope hscope) ht

namespace Likeness

theorem equal_reflexive : equal.Reflexive := ⟨fun _ => rfl, fun _ => rfl, fun _ => rfl, fun _ => rfl⟩

/-- Tokens alike by equality are equal. -/
theorem equal_tokens {ts ts' : List Token} : List.Forall₂ equal.token ts ts' ↔ ts = ts' :=
  iff_of_eq (congrFun (congrFun List.forall₂_eq_eq_eq ts) ts')

theorem equal_token? {t t' : Option Token} : Option.Rel equal.token t t' ↔ t = t' := by
  constructor
  · exact fun h => h.eq_of_mem fun _ _ _ h => h
  · rintro rfl
    exact equal_reflexive.token? t

end Likeness

mutual

/-- Such expressions are equal. -/
theorem Expression.Alike.eq : {e e' : Expression} → e.Alike .equal e' → e = e'
  | _, _, .number rfl | _, _, .str rfl | _, _, .bool rfl | _, _, .null rfl | _, _, .ident rfl rfl => rfl
  | _, _, .array hl rfl => by rw [hl.eq_of_mem fun _ _ _ h => h.eq]
  | _, _, .object hl rfl => by rw [hl.eq_of_mem fun _ _ _ h => h.eq]
  | _, _, .lambda hf rfl => by rw [hf.eq]
  | _, _, .call he hl rfl => by rw [he.eq, hl.eq_of_mem fun _ _ _ h => h.eq]
  | _, _, .member he rfl => by rw [he.eq]
  | _, _, .index he hk rfl => by rw [he.eq, hk.eq]
  | _, _, .unary he rfl => by rw [he.eq]
  | _, _, .binary hl hr rfl => by rw [hl.eq, hr.eq]
  | _, _, .conditional ht hc ha rfl => by rw [ht.eq, hc.eq, ha.eq]
  | _, _, .assign ht hv rfl => by rw [ht.eq, hv.eq]
  | _, _, .template hl hts rfl => by rw [hl.eq_of_mem fun _ _ _ h => h.eq, Likeness.equal_tokens.1 hts]

theorem Property.Alike.eq : {q q' : Property} → q.Alike .equal q' → q = q'
  | _, _, .mk h rfl => by rw [h.eq]

theorem Lambda.Alike.eq : {f f' : Lambda} → f.Alike .equal f' → f = f'
  | _, _, .mk rfl hn hps hr hb rfl => by
    rw [Likeness.equal_token?.1 hn, Likeness.equal_tokens.1 hps, Likeness.equal_token?.1 hr, hb.eq]

theorem Body.Alike.eq : {b b' : Body} → b.Alike .equal b' → b = b'
  | _, _, .deferred hts => by rw [Likeness.equal_tokens.1 hts]
  | _, _, .block hl => by rw [hl.eq_of_mem fun _ _ _ h => h.eq]
  | _, _, .concise he => by rw [he.eq]

theorem TemplatePart.Alike.eq : {t t' : TemplatePart} → t.Alike .equal t' → t = t'
  | _, _, .token rfl => rfl
  | _, _, .group rfl hl => by rw [hl.eq_of_mem fun _ _ _ h => h.eq]
  | _, _, .unquote he => by rw [he.eq]

theorem Statement.Alike.eq : {s s' : Statement} → s.Alike .equal s' → s = s'
  | _, _, .declaration hd rfl => by rw [hd.eq]
  | _, _, .function hf rfl => by rw [hf.eq]
  | _, _, .expression he rfl => by rw [he.eq]
  | _, _, .return he rfl => by rw [he.eq_of_mem fun _ _ _ h => h.eq]
  | _, _, .branch ht hc ha rfl => by rw [ht.eq, hc.eq, ha.eq_of_mem fun _ _ _ h => h.eq]
  | _, _, .loop ht hb rfl => by rw [ht.eq, hb.eq]
  | _, _, .block hl rfl => by rw [hl.eq_of_mem fun _ _ _ h => h.eq]
  | _, _, .empty rfl => rfl
  | _, _, .throw he rfl => by rw [he.eq]

theorem Declaration.Alike.eq : {d d' : Declaration} → d.Alike .equal d' → d = d'
  | _, _, .mk hl rfl => by rw [hl.eq_of_mem fun _ _ _ h => h.eq]

theorem Declarator.Alike.eq : {d d' : Declarator} → d.Alike .equal d' → d = d'
  | _, _, .mk rfl he rfl => by rw [he.eq_of_mem fun _ _ _ h => h.eq]

end

theorem Import.Alike.eq {i i' : Import} : i.Alike .equal i' → i = i'
  | @Import.Alike.mk _ _ _ l l' _ _ _ _ hbinding hnamed rfl => by
    have hnamed : l = l' := by
      refine List.forall₂_eq_eq_eq ▸ hnamed.imp fun _ _ h => ?_
      obtain ⟨hsource, rfl, rfl⟩ := h
      rw [Likeness.equal_token?.1 hsource]
    rw [Likeness.equal_token?.1 hbinding, hnamed]

theorem ExportSpecifier.Alike.eq {s s' : ExportSpecifier} (h : s.Alike .equal s') : s = s' := by
  obtain ⟨rfl, houter, rfl⟩ := h
  rw [Likeness.equal_token?.1 houter]

theorem ModuleItem.Alike.eq {item item' : ModuleItem} (h : item.Alike .equal item') : item = item' := by
  cases h with
  | importItem hi => rw [hi.eq]
  | statement hs => rw [hs.eq]
  | exportItem he h =>
    cases h
    cases he with
    | declaration hd => rw [hd.eq]
    | function hf => rw [hf.eq]
    | defaultValue ht he =>
      cases ht
      rw [he.eq]
  | @exportList l l' _ _ hl h =>
    cases h
    have hl : l = l' := List.forall₂_eq_eq_eq ▸ hl.imp fun _ _ h => h.eq
    rw [hl]

theorem Stream.Alike.eq {stream stream' : Stream} (h : stream.Alike .equal stream') : stream = stream' := by
  obtain ⟨before, after⟩ := stream
  obtain ⟨hbefore, hafter⟩ := h
  cases Likeness.equal_tokens.1 hbefore
  cases Likeness.equal_tokens.1 hafter
  rfl

end Hygiene
