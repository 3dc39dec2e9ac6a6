import Hygiene.Proofs.Eval.Demand
import Hygiene.Proofs.Parallel.Alike
import Hygiene.Proofs.Source.Position

/-!
# Terms whose sites are within the texts

All sites in a term are within the registered texts: its own, those of the terms in it and those of the tokens it keeps.
-/

namespace Hygiene

open List

/-- All sites have to be within the texts. -/
def Demand.within (sources : Sources) : Demand where
  piece p := p.mark.site.Within sources
  function fn := ∀ s ∈ fn.sites, s.Within sources
  site s := s.Within sources
  function_sites _ h := h
  frames := none

/-- The token and its parts are within the texts. -/
def Token.Within (sources : Sources) (t : Token) : Prop := ∀ p ∈ Token.pieces t, p.mark.site.Within sources

variable {sources : Sources}

namespace Token

variable {t : Token} {ts : List Token}

/-- The sites of tokens are those of their pieces. -/
@[simp] theorem within_piecesAll : (∀ p ∈ piecesAll ts, p.mark.site.Within sources) ↔ ∀ t ∈ ts, t.Within sources := by
  simp only [mem_piecesAll, Within]
  grind

theorem Within.site (h : t.Within sources) : t.site.Within sources := by
  obtain ⟨label, hlabel, _⟩ := t.exists_label_mem_pieces
  exact h _ hlabel

theorem within_nest {mark : Mark} {shape : Nest} :
    Within sources (.nest mark shape ts) ↔ mark.site.Within sources ∧ ∀ t ∈ ts, t.Within sources := by
  rw [← within_piecesAll, Within, pieces, forall_mem_cons]

/-- A change of scopes keeps the sites. -/
theorem within_mapScopes (f : ScopeSet → ScopeSet) :
    Within sources (t.map (Mark.mapScopes f)) ↔ t.Within sources := by
  simp only [Within, pieces_mapScopes, forall_mem_map, Piece.site_mapScopes]

/-- Entering a scope changes no site. -/
theorem within_wrap (h : ∀ t ∈ ts, t.Within sources) (scope : ScopeId) : ∀ t ∈ wrap scope ts, t.Within sources :=
  forall_mem_map.2 fun t ht => (within_mapScopes _).2 (h t ht)

theorem within_flip (h : ∀ t ∈ ts, t.Within sources) (scope : ScopeId) : ∀ t ∈ flip scope ts, t.Within sources :=
  forall_mem_map.2 fun t ht => (within_mapScopes _).2 (h t ht)

/-- Marking output changes no site. -/
theorem within_markOutput (h : ∀ t ∈ ts, t.Within sources) (scope : ScopeId) (outputScope : Option ScopeId) :
    ∀ t ∈ markOutput scope outputScope ts, t.Within sources := by
  rw [← within_piecesAll, piecesAll_markOutput, forall_mem_map]
  simpa only [Piece.site_markOutput] using within_piecesAll.2 h

end Token

/-! ### Likeness -/

/-- Tokens, marks and sites that are the same, and within the texts. -/
def Likeness.within (sources : Sources) : Likeness where
  token t t' := t = t' ∧ t.Within sources
  mark m m' := m = m' ∧ m.site.Within sources
  site s s' := s = s' ∧ s.Within sources
  unknown := ⟨rfl, Site.within_unknown⟩
  cover := by
    rintro a _ b _ ⟨rfl, ha⟩ ⟨rfl, hb⟩
    exact ⟨rfl, ha.cover hb⟩
  mark_site := by
    rintro m _ ⟨rfl, h⟩
    exact ⟨rfl, h⟩
  atom := by
    rintro m a _ ⟨rfl, h⟩
    exact ⟨m, ⟨rfl, h.site⟩, rfl⟩
  nest := by
    rintro m shape ts _ ⟨rfl, h⟩
    obtain ⟨hm, hts⟩ := Token.within_nest.1 h
    exact ⟨m, ts, ⟨rfl, hm⟩, forall₂_same.2 fun t ht => ⟨rfl, hts t ht⟩, rfl⟩
  text := by
    rintro t _ ⟨rfl, _⟩
    rfl
  addScope := by
    rintro scope _ t _ rfl ⟨rfl, h⟩
    exact ⟨rfl, (Token.within_mapScopes _).2 h⟩
  removeScope := by
    rintro scope _ t _ rfl ⟨rfl, h⟩
    exact ⟨rfl, (Token.within_mapScopes _).2 h⟩

namespace Likeness

theorem alike_within {ts : List Token} (h : ∀ t ∈ ts, t.Within sources) : Forall₂ (within sources).token ts ts :=
  forall₂_same.2 fun t ht => ⟨rfl, h t ht⟩

theorem of_alike_left {α : Type} {R : α → α → Prop} {P : α → Prop} {l l' : List α} (hr : ∀ a a', R a a' → P a)
    (h : Forall₂ R l l') : ∀ a ∈ l, P a :=
  ((forall₂_and_left l l').1 (h.imp fun a a' ha => ⟨hr a a' ha, ha⟩)).1

/-- Tokens alike in this way are within the texts. -/
theorem tokens_within {ts ts' : List Token} : Forall₂ (within sources).token ts ts' → ∀ t ∈ ts, t.Within sources :=
  of_alike_left fun _ _ h => h.2

theorem token?_within {t t' : Option Token} (h : Option.Rel (within sources).token t t') : ∀ u ∈ t, u.Within sources := by
  cases h with
  | none => exact nofun
  | some h =>
    rintro _ ⟨⟩
    exact h.2

end Likeness

/-! ### Demands on terms -/

attribute [local simp] Expression.content Expression.contentOption Property.contentAll Lambda.content Body.content
  TemplatePart.contentAll TemplatePart.content Statement.content Statement.contentOption Declaration.content
  Declarator.contentAll Expression.lambdas Expression.lambdasOption Property.lambdasAll Lambda.lambdas Body.lambdas
  TemplatePart.lambdasAll TemplatePart.lambdas Statement.lambdas Statement.lambdasOption Declaration.lambdas
  Declarator.lambdasAll Expression.sites Expression.sitesOption Property.sitesAll Lambda.sites Body.sites
  TemplatePart.sitesAll TemplatePart.sites Statement.sites Statement.sitesOption Declaration.sites Declarator.sitesAll
  Expression.contentAll Expression.lambdasAll Expression.sitesAll Statement.contentAll Statement.lambdasAll
  Statement.sitesAll

namespace Demand

@[simp] theorem within_piece {p : Piece} : (within sources).piece p ↔ p.mark.site.Within sources := Iff.rfl

@[simp] theorem within_site {s : Site} : (within sources).site s ↔ s.Within sources := Iff.rfl

@[simp] theorem within_tokens {ts : List Token} :
    (within sources).Meets (Content.ofTokens ts) [] [] ↔ ∀ t ∈ ts, t.Within sources :=
  meets_ofTokens.trans Token.within_piecesAll

theorem literals_within : (within sources).Literals := fun _ _ h => h

end Demand

/-- All sites in the expression are within the texts. -/
abbrev Expression.Within (sources : Sources) (e : Expression) : Prop :=
  (Demand.within sources).Meets e.content e.lambdas e.sites

mutual

/-- An expression within the texts meets the demand. -/
theorem Expression.Alike.meets : {e e' : Expression} → e.Alike (.within sources) e' →
    (Demand.within sources).Meets e.content e.lambdas e.sites
  | _, _, .number h => by simp [h.2]
  | _, _, .str h => by simp [h.2]
  | _, _, .bool h => by simp [h.2]
  | _, _, .null h => by simp [h.2]
  | _, _, .ident ht h => by simp [h.2, ht.2, ht.2.site]
  | _, _, .array hl h => by simp [h.2, Expression.Alike.meetsAll hl]
  | _, _, .object hl h => by simp [h.2, Property.Alike.meetsAll hl]
  | _, _, .lambda hf h => by simp [h.2, hf.meets]
  | _, _, .call he hl h => by simp [h.2, he.meets, Expression.Alike.meetsAll hl]
  | _, _, .member he h => by simp [h.2, he.meets]
  | _, _, .index he hk h => by simp [h.2, he.meets, hk.meets]
  | _, _, .unary he h => by simp [h.2, he.meets]
  | _, _, .binary hl hr h => by simp [h.2, hl.meets, hr.meets]
  | _, _, .conditional ht hc ha h => by simp [h.2, ht.meets, hc.meets, ha.meets]
  | _, _, .assign ht hv h => by simp [h.2, ht.meets, hv.meets]
  | _, _, .template hl hts h => by simpa [h.2, TemplatePart.Alike.meetsAll hl] using Likeness.tokens_within hts

theorem Expression.Alike.meetsAll : {l l' : List Expression} → Forall₂ (Expression.Alike (.within sources)) l l' →
    (Demand.within sources).Meets (Expression.contentAll l) (Expression.lambdasAll l) (Expression.sitesAll l)
  | _, _, .nil => by simp
  | _, _, .cons h hs => by simp [h.meets, Expression.Alike.meetsAll hs]

theorem Expression.Alike.meetsOption : {e e' : Option Expression} → Option.Rel (Expression.Alike (.within sources)) e e' →
    (Demand.within sources).Meets (Expression.contentOption e) (Expression.lambdasOption e) (Expression.sitesOption e)
  | _, _, .none => by simp
  | _, _, .some h => by simp [h.meets]

theorem Property.Alike.meetsAll : {l l' : List Property} → Forall₂ (Property.Alike (.within sources)) l l' →
    (Demand.within sources).Meets (Property.contentAll l) (Property.lambdasAll l) (Property.sitesAll l)
  | _, _, .nil => by simp
  | _, _, .cons (.mk he h) hs => by simp [h.2, he.meets, Property.Alike.meetsAll hs]

theorem Lambda.Alike.meets : {f f' : Lambda} → f.Alike (.within sources) f' →
    (Demand.within sources).Meets f.content f.lambdas f.sites
  | _, _, .mk _ hn hps hr hb h => by
    have hfunction := forall_mem_cons.2 ⟨h.2, hb.meets.2.2⟩
    simp only [Lambda.content, Lambda.lambdas, Lambda.sites, Demand.meets_cons_site, Demand.meets_cons_function,
      Demand.meets_ofTokens_append, Demand.within_piece, Token.within_piecesAll, Demand.within_site,
      forall_mem_append, Option.mem_toList]
    exact ⟨h.2, hfunction, ⟨⟨Likeness.token?_within hn, Likeness.tokens_within hps⟩, Likeness.token?_within hr⟩, hb.meets⟩

theorem Body.Alike.meets : {b b' : Body} → b.Alike (.within sources) b' →
    (Demand.within sources).Meets b.content b.lambdas b.sites
  | _, _, .deferred hts => by simpa using Likeness.tokens_within hts
  | _, _, .block hl => by simp [Statement.Alike.meetsAll hl]
  | _, _, .concise he => by simp [he.meets]

theorem TemplatePart.Alike.meetsAll : {l l' : List TemplatePart} → Forall₂ (TemplatePart.Alike (.within sources)) l l' →
    (Demand.within sources).Meets (TemplatePart.contentAll l) (TemplatePart.lambdasAll l) (TemplatePart.sitesAll l)
  | _, _, .nil => by simp
  | _, _, .cons h hs => by simp [h.meets, TemplatePart.Alike.meetsAll hs]

theorem TemplatePart.Alike.meets : {t t' : TemplatePart} → t.Alike (.within sources) t' →
    (Demand.within sources).Meets t.content t.lambdas t.sites
  | _, _, .token ht => by simp [ht.2]
  | _, _, .group hm hl => by simp [hm.2, TemplatePart.Alike.meetsAll hl]
  | _, _, .unquote he => by simp [he.meets]

/-- So does a statement. -/
theorem Statement.Alike.meets : {s s' : Statement} → s.Alike (.within sources) s' →
    (Demand.within sources).Meets s.content s.lambdas s.sites
  | _, _, .declaration hd h => by simp [h.2, hd.meets]
  | _, _, .function hf h => by simp [h.2, hf.meets]
  | _, _, .expression he h => by simp [h.2, he.meets]
  | _, _, .return he h => by simp [h.2, Expression.Alike.meetsOption he]
  | _, _, .branch ht hc ha h => by simp [h.2, ht.meets, hc.meets, Statement.Alike.meetsOption ha]
  | _, _, .loop ht hb h => by simp [h.2, ht.meets, hb.meets]
  | _, _, .block hl h => by simp [h.2, Statement.Alike.meetsAll hl]
  | _, _, .empty h => by simp [h.2]
  | _, _, .throw he h => by simp [h.2, he.meets]

theorem Statement.Alike.meetsAll : {l l' : List Statement} → Forall₂ (Statement.Alike (.within sources)) l l' →
    (Demand.within sources).Meets (Statement.contentAll l) (Statement.lambdasAll l) (Statement.sitesAll l)
  | _, _, .nil => by simp
  | _, _, .cons h hs => by simp [h.meets, Statement.Alike.meetsAll hs]

theorem Statement.Alike.meetsOption : {s s' : Option Statement} → Option.Rel (Statement.Alike (.within sources)) s s' →
    (Demand.within sources).Meets (Statement.contentOption s) (Statement.lambdasOption s) (Statement.sitesOption s)
  | _, _, .none => by simp
  | _, _, .some h => by simp [h.meets]

theorem Declaration.Alike.meets : {d d' : Declaration} → d.Alike (.within sources) d' →
    (Demand.within sources).Meets d.content d.lambdas d.sites
  | _, _, .mk hl h => by
    have := Declarator.Alike.meetsAll hl
    simp [h.2]
    split <;> simpa

theorem Declarator.Alike.meetsAll : {l l' : List Declarator} → Forall₂ (Declarator.Alike (.within sources)) l l' →
    (Demand.within sources).Meets (Declarator.contentAll l) (Declarator.lambdasAll l) (Declarator.sitesAll l)
  | _, _, .nil => by simp
  | _, _, .cons (.mk ht he h) hs => by
    simp only [Declarator.contentAll, Declarator.lambdasAll, Declarator.sitesAll, Demand.meets_cons_site,
      Demand.meets_append, Demand.meets_ofTokens_append, Demand.within_piece, Token.within_piecesAll]
    exact ⟨h.2, ⟨forall_mem_singleton.2 ht.2, Expression.Alike.meetsOption he⟩, Declarator.Alike.meetsAll hs⟩

end

/-! ### Items of modules -/

/-- All sites in the item are within the texts. -/
def ModuleItem.Within (sources : Sources) (item : ModuleItem) : Prop := ∃ item', item.Alike (.within sources) item'

/-! ### More texts -/

section Growth

variable {sources' : Sources} (h : sources.Extends sources')
include h

/-- Tokens stay within more texts. -/
theorem Token.Within.mono {t : Token} (ht : t.Within sources) : t.Within sources' := fun p hp => (ht p hp).mono h

/-- So do values. -/
theorem Value.Meets.within_mono {v : Value} (hv : v.Meets (.within sources)) : v.Meets (.within sources') :=
  hv.mono (fun _ => .mono h) (fun _ hfn s hs => (hfn s hs).mono h) rfl

/-- So does a heap. -/
theorem Heap.Meets.within_mono {heap : Heap} (hh : heap.Meets (.within sources)) : heap.Meets (.within sources') :=
  hh.mono (fun _ => .mono h) (fun _ hfn s hs => (hfn s hs).mono h) rfl

theorem Likeness.within_finer : (Likeness.within sources).Finer (.within sources') where
  token ht := ⟨ht.1, ht.2.mono h⟩
  mark hm := ⟨hm.1, hm.2.mono h⟩
  site hs := ⟨hs.1, hs.2.mono h⟩
  number := id

/-- So do items. -/
theorem ModuleItem.Within.mono {item : ModuleItem} : item.Within sources → item.Within sources' :=
  .imp fun _ => (Likeness.within_finer h).item

end Growth

end Hygiene
