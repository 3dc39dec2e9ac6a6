import Hygiene.Expand.Module
import Hygiene.Proofs.Grammar.Reads
import Hygiene.Proofs.Grammar.Written

/-!
# The readers of expressions, one by one

Each reader gets over the tokens that its kind of expression is written as. `Ends` says with which tokens no reader of a
level goes on; under it looser levels read what tighter ones do. Chains of operators and suffixes are read from the
left, so they are described with what stands behind them.
-/

namespace Hygiene

open List

variable {op : BinaryOp} {object : Expression} {i : Nat} {name : String}

namespace BinaryOp

theorem ofText?_text (op : BinaryOp) : ofText? op.text = some op := by
  cases op <;> rfl

theorem text_injective {a b : BinaryOp} (h : a.text = b.text) : a = b := by
  have ha := ofText?_text a
  rw [h, ofText?_text] at ha
  exact (Option.some.inj ha).symm

theorem tightness_lt (op : BinaryOp) : op.tightness < levels.length := by
  cases op <;> decide

theorem tightness_of_mem : ∀ i : Fin levels.length, ∀ op ∈ levels[i], op.tightness = i := by decide

/-- The operators of a level are those that bind as tightly as its place says. -/
theorem mem_levels {h : i < levels.length} : op ∈ levels[i] ↔ op.tightness = i := by
  constructor
  · exact tightness_of_mem ⟨i, h⟩ op
  · rintro rfl
    exact contains_iff_mem.1 (findIdx_getElem (p := fun ops => List.contains ops op))

end BinaryOp

namespace Parse

variable {n : Nat} {us : List Token}

/-- The readers of expressions, by the least level of what they read. -/
def readerAt (p : Passes) : Nat → Parse Expression
  | 0 => assignmentStep p
  | k + 1 => binary p (BinaryOp.levels.drop k)

theorem readerAt_one_add (p : Passes) (i : Nat) : readerAt p (1 + i) = binary p (BinaryOp.levels.drop i) := by
  rw [Nat.add_comm]
  rfl

/-- No reader of this level or a higher one goes on with the token. -/
structure Ends (k : Nat) (t : Token) : Prop where
  arrow : k = 0 → t.isPunct "=>" = false
  assignment : k = 0 → assignmentOperator? t = none
  question : k = 0 → t.isPunct "?" = false
  operator : ∀ op : BinaryOp, k ≤ 1 + op.tightness → t.isPunct op.text = false
  point : t.isPunct "." = false
  bracket : t.group? .bracket = none
  paren : t.group? .paren = none

/-- No reader of this level or a higher one goes on with what follows. -/
def EndsAt (k : Nat) (rest : List Token) : Prop := ∀ t ∈ rest.head?, Ends k t

variable {k l : Nat} {m : Mark} {t : Token} {ts rest : List Token}

theorem Ends.mono (h : Ends k t) (hkl : k ≤ l) : Ends l t where
  arrow hl := h.arrow (by omega)
  assignment hl := h.assignment (by omega)
  question hl := h.question (by omega)
  operator op hop := h.operator op (by omega)
  point := h.point
  bracket := h.bracket
  paren := h.paren

theorem endsAt_nil : EndsAt k [] := nofun

theorem EndsAt.cons (h : Ends k t) : EndsAt k (t :: ts) := fun _ hu => Option.some.inj hu ▸ h

theorem EndsAt.mono (h : EndsAt k rest) (hkl : k ≤ l) : EndsAt l rest := fun t ht => (h t ht).mono hkl

theorem ends_comma : Ends k (.punct m ",") where
  arrow _ := rfl
  assignment _ := rfl
  question _ := rfl
  operator op _ := by cases op <;> rfl
  point := rfl
  bracket := rfl
  paren := rfl

theorem ends_colon : Ends k (.punct m ":") where
  arrow _ := rfl
  assignment _ := rfl
  question _ := rfl
  operator op _ := by cases op <;> rfl
  point := rfl
  bracket := rfl
  paren := rfl

theorem ends_question (h : 1 ≤ k) : Ends k (.punct m "?") where
  arrow _ := rfl
  assignment _ := rfl
  question _ := by omega
  operator op _ := by cases op <;> rfl
  point := rfl
  bracket := rfl
  paren := rfl

theorem ends_assign (h : 1 ≤ k) : Ends k (.punct m "=") where
  arrow _ := rfl
  assignment _ := by omega
  question _ := rfl
  operator op _ := by cases op <;> rfl
  point := rfl
  bracket := rfl
  paren := rfl

theorem ends_operator (h : 1 + op.tightness < k) : Ends k (.punct m op.text) where
  arrow _ := by cases op <;> rfl
  assignment _ := by cases op <;> rfl
  question _ := by cases op <;> rfl
  operator op' hop' := by
    refine decide_eq_false fun htext => ?_
    rw [BinaryOp.text_injective htext] at h
    omega
  point := by cases op <;> rfl
  bracket := rfl
  paren := rfl

variable {tr : Token → Option Transformer} {p : Passes} {e : Expression}

/-- What a reader answers is the expression, apart from sites. -/
abbrev Same (e e' : Expression) : Prop := e'.unsited = e.unsited

/-- The reader takes the tokens and answers the expression where no reader of the level goes on behind them. -/
def ReadsBefore (tr : Token → Option Transformer) (k : Nat) (x : Parse Expression) (ts : List Token)
    (e : Expression) : Prop := ∀ rest, EndsAt k rest → Reads tr x ts rest (Same e)

theorem reads_binaryRest_end {operators : List BinaryOp} {operand : Parse Expression} (hn : 0 < n)
    (hoperators : ∀ op ∈ operators, ∀ t ∈ rest.head?, t.isPunct op.text = false) (left : Expression) :
    Reads tr (binaryRest operators operand n left) [] rest (· = left) := by
  obtain ⟨n, rfl⟩ : ∃ k, n = k + 1 := Nat.exists_eq_succ_of_ne_zero (Nat.ne_of_gt hn)
  refine .sees reads_peek ?_
  have hnone : (rest.head?.bind fun token => operators.find? fun op => token.isPunct op.text) = none := by
    cases rest with
    | nil => rfl
    | cons t ts => exact List.find?_eq_none.2 fun op hop => by simp [hoperators op hop t rfl]
  rw [nil_append, hnone]
  exact .pure rfl

/-- No arrow stands where none is written. -/
theorem reads_arrow_none (h : ∀ u ∈ rest[1]?, u.isPunct "=>" = false) :
    Reads tr (arrow p) [] rest (· = none) := by
  have hhead : Reads tr arrowHead [] rest (· = none) := by
    refine .sees (reads_peekNthIs 1 _) ?_
    have hany : ([] ++ rest)[1]?.any (fun u : Token => u.isPunct "=>") = false := by
      cases hu : rest[1]? with
      | none => rw [nil_append, hu]; rfl
      | some u => rw [nil_append, hu]; exact h u hu
    rw [hany]
    exact .pure rfl
  refine .sees hhead ?_
  exact .pure rfl

/-- Without a question mark, a conditional is what is read before one. -/
theorem reads_conditional_end (h : Reads tr (readerAt p 1) ts rest (Same e))
    (hquestion : ∀ t ∈ rest.head?, t.isPunct "?" = false) : Reads tr (conditional p) ts rest (Same e) := by
  refine h.last fun test htest => .look (reads_eat_none hquestion) ?_
  rintro _ rfl
  exact .pure htest

/-- Without an assignment operator, and without an arrow, an assignment is a conditional. -/
theorem reads_assignment_end (h : Reads tr (conditional p) ts rest (Same e)) (hends : EndsAt 0 rest)
    (hne : ts ≠ []) (harrow : ∀ u ∈ ts, u.isPunct "=>" = false) :
    Reads tr (readerAt p 0) ts rest (Same e) := by
  obtain ⟨t, us, rfl⟩ := exists_cons_of_ne_nil hne
  refine .look (reads_arrow_none fun u hu => ?_) ?_
  · cases us with
    | nil =>
      rw [cons_append, List.getElem?_cons_succ, nil_append, ← List.head?_eq_getElem?] at hu
      exact (hends u hu).arrow rfl
    | cons v us => exact harrow u (by simp [Option.some.inj hu])
  rintro _ rfl
  refine h.last fun target htarget => .look reads_peek ?_
  rintro _ rfl
  have hoperator : ([] ++ rest).head?.bind assignmentOperator? = none := by
    cases rest with
    | nil => rfl
    | cons u rest => exact (hends u rfl).assignment rfl
  rw [hoperator]
  exact .pure htarget

/-- A reader of one level reads what the reader of the next level does, where nothing goes on. -/
theorem reads_readerAt_of_succ (hk : k < Expression.unaryLevel) (hlimit : 0 < p.limit) (hends : EndsAt k rest)
    (hne : ts ≠ []) (harrow : ∀ u ∈ ts, u.isPunct "=>" = false)
    (h : Reads tr (readerAt p (k + 1)) ts rest (Same e)) :
    Reads tr (readerAt p k) ts rest (Same e) := by
  match k with
  | 0 => exact reads_assignment_end (reads_conditional_end h fun t ht => (hends t ht).question rfl) hends hne harrow
  | i + 1 =>
    unfold Expression.unaryLevel at hk
    have hi : i < BinaryOp.levels.length := by omega
    have hlevels : BinaryOp.levels.drop i = BinaryOp.levels[i] :: BinaryOp.levels.drop (i + 1) :=
      drop_eq_getElem_cons hi
    rw [readerAt, hlevels]
    refine h.last fun left hleft => (reads_binaryRest_end hlimit ?_ left).mono fun _ heq => heq ▸ hleft
    intro op hop t ht
    exact (hends t ht).operator op (by have := BinaryOp.mem_levels.1 hop; omega)

/-- A reader of a lower level reads what a reader of a higher one does, where nothing goes on. -/
theorem reads_readerAt_of_le (hkl : k ≤ l) (hl : l ≤ Expression.unaryLevel) (hlimit : 0 < p.limit)
    (hends : EndsAt k rest) (hne : ts ≠ []) (harrow : ∀ u ∈ ts, u.isPunct "=>" = false)
    (h : Reads tr (readerAt p l) ts rest (Same e)) : Reads tr (readerAt p k) ts rest (Same e) := by
  induction hkl with
  | refl => exact h
  | step hkl ih => exact ih (by omega) (reads_readerAt_of_succ hl hlimit (hends.mono hkl) hne harrow h)

/-! ### Groups -/

/-- What was read are the expressions, apart from sites. -/
abbrev SameAll (es es' : List Expression) : Prop := Expression.unsitedAll es' = Expression.unsitedAll es

/-- What was read are the properties, apart from sites. -/
abbrev SameProperties (ps ps' : List Property) : Prop := Property.unsitedAll ps' = Property.unsitedAll ps

/-- The tokens of a group are read to their end. -/
theorem reads_groupExpression {site : Site} {Q : Expression → Prop} (hne : ts ≠ [])
    (h : Reads tr p.assignment ts [] Q) :
    Reads tr (Expand.groupExpression p ts site : Expand Expression) [] rest Q := by
  have hall : Reads tr (do
      let value ← p.assignment
      if ← atEnd then return value else unexpected "the end of the group") ts [] Q := by
    refine h.last fun value hvalue => .look reads_atEnd ?_
    rintro _ rfl
    exact .pure hvalue
  have hempty : ¬ ts.isEmpty = true := by simpa using hne
  rw [Expand.groupExpression, if_neg hempty]
  exact .lift hall.on fun _ hvalue => .pure hvalue

/-- Behind an item the group ends, or a comma stands before more items. -/
theorem reads_comma {β : Type} {more : Unit → Parse β} {R : β → Prop}
    (hmore : Reads tr (more ()) us [] R) (hts : ts = [] ∧ us = [] ∨ ts = .punct m "," :: us) :
    Reads tr (do if ← atEnd then more () else more (← expectPunct ",")) ts [] R := by
  refine .sees reads_atEnd ?_
  rcases hts with ⟨rfl, rfl⟩ | rfl
  · exact hmore
  · exact .step (reads_expectPunct rfl) fun _ _ => hmore

/-- Expressions with commas between them are read to the end of their group. -/
theorem reads_listItems {es : List Expression} (hne : ∀ e ∈ es, e.tokens m ≠ [])
    (hes : ∀ e ∈ es, ReadsBefore tr 0 p.assignment (e.tokens m) e) (hn : es.length < n) :
    Reads tr (listItems p n) (Expression.tokensAll m es) [] (SameAll es) := by
  induction es generalizing n with
  | nil =>
    obtain ⟨n, rfl⟩ : ∃ k, n = k + 1 := Nat.exists_eq_succ_of_ne_zero (Nat.ne_of_gt hn)
    refine .sees reads_atEnd ?_
    exact .pure rfl
  | cons e es ih =>
    obtain ⟨n, rfl⟩ : ∃ k, n = k + 1 := Nat.exists_eq_succ_of_ne_zero (by omega)
    obtain ⟨hne₁, hne⟩ := forall_mem_cons.1 hne
    obtain ⟨he, hes⟩ := forall_mem_cons.1 hes
    obtain ⟨after, htokens, hends, hafter⟩ : ∃ after, Expression.tokensAll m (e :: es) = e.tokens m ++ after ∧
        EndsAt 0 after ∧
          (after = [] ∧ Expression.tokensAll m es = [] ∨ after = .punct m "," :: Expression.tokensAll m es) := by
      cases es with
      | nil => exact ⟨[], (append_nil _).symm, endsAt_nil, .inl ⟨rfl, rfl⟩⟩
      | cons e' es => exact ⟨_, rfl, .cons ends_comma, .inr rfl⟩
    rw [htokens]
    refine .sees reads_atEnd ?_
    have hfull : ((e.tokens m ++ after) ++ []).isEmpty = false := by simp [hne₁]
    rw [hfull]
    refine (he (after ++ []) (by rwa [append_nil])).bind fun item hitem => ?_
    refine reads_comma ?_ hafter
    refine (ih hne hes (by simpa using hn)).last fun items hitems => .pure ?_
    rw [SameAll, Expression.unsitedAll, Expression.unsitedAll, hitem, hitems]

/-- Properties with commas between them are read to the end of their group. -/
theorem reads_listProperties {ps : List Property}
    (hps : ∀ q ∈ ps, ReadsBefore tr 0 p.assignment (q.value.tokens m) q.value) (hn : ps.length < n) :
    Reads tr (listProperties p n) (Property.tokensAll m ps) [] (SameProperties ps) := by
  induction ps generalizing n with
  | nil =>
    obtain ⟨n, rfl⟩ : ∃ k, n = k + 1 := Nat.exists_eq_succ_of_ne_zero (Nat.ne_of_gt hn)
    refine .sees reads_atEnd ?_
    exact .pure rfl
  | cons q ps ih =>
    obtain ⟨n, rfl⟩ : ∃ k, n = k + 1 := Nat.exists_eq_succ_of_ne_zero (by omega)
    obtain ⟨name, value, site⟩ := q
    obtain ⟨hq, hps⟩ := forall_mem_cons.1 hps
    obtain ⟨after, htokens, hends, hafter⟩ : ∃ after, Property.tokensAll m (⟨name, value, site⟩ :: ps) =
        .atom m (.str name) :: .punct m ":" :: (value.tokens m ++ after) ∧ EndsAt 0 after ∧
          (after = [] ∧ Property.tokensAll m ps = [] ∨ after = .punct m "," :: Property.tokensAll m ps) := by
      cases ps with
      | nil => exact ⟨[], by rw [append_nil]; rfl, endsAt_nil, .inl ⟨rfl, rfl⟩⟩
      | cons q' ps => exact ⟨_, rfl, .cons ends_comma, .inr rfl⟩
    rw [htokens]
    refine .sees reads_atEnd ?_
    refine .step reads_next ?_
    rintro _ rfl
    have hvalue : Reads tr (propertyValue p (.atom m (.str name))) (.punct m ":" :: value.tokens m)
        (after ++ []) (Same value) := by
      refine .takes (reads_eat rfl) ?_
      exact hq (after ++ []) (by rwa [append_nil])
    refine hvalue.bind fun read hread => ?_
    refine reads_comma ?_ hafter
    refine (ih hps (by simpa using hn)).last fun others hothers => .pure ?_
    rw [SameProperties, Property.unsitedAll, Property.unsitedAll, hread, hothers]

/-! ### Primary expressions -/

variable {s : Setup}

theorem reads_primary_number (hlimit : 0 < p.limit) {value : Float} {raw : String} (site : Site) :
    Reads tr (primary s p) [.atom m (.number value raw)] rest (Same (.number value site)) := by
  refine .look (reads_invokeAll s hlimit fun t ht => ?_) fun _ _ => .look reads_peek ?_
  · cases ht
    exact nofun
  · rintro _ rfl
    exact .step reads_advance fun _ _ => .pure rfl

theorem reads_primary_str (hlimit : 0 < p.limit) {text : String} (site : Site) :
    Reads tr (primary s p) [.atom m (.str text)] rest (Same (.str text site)) := by
  refine .look (reads_invokeAll s hlimit fun t ht => ?_) fun _ _ => .look reads_peek ?_
  · cases ht
    exact nofun
  · rintro _ rfl
    exact .step reads_advance fun _ _ => .pure rfl

/-- A word that is no transformer is read as the word it is. -/
theorem reads_primary_word (hlimit : 0 < p.limit) (hname : tr (.word m name) = none)
    (h : Reads tr (word p (.word m name) name) [.word m name] rest (Same e)) :
    Reads tr (primary s p) [.word m name] rest (Same e) := by
  refine .look (reads_invokeAll s hlimit fun t ht => ?_) fun _ _ => .look reads_peek ?_
  · cases ht
    exact fun _ => hname
  · rintro _ rfl
    exact h

theorem reads_word_bool (value : Bool) (site : Site) :
    Reads tr (word p (.word m (if value then "true" else "false")) (if value then "true" else "false"))
      [.word m (if value then "true" else "false")] rest (Same (.bool value site)) := by
  cases value <;> exact .step reads_advance fun _ _ => .pure rfl

theorem reads_word_null (site : Site) :
    Reads tr (word p (.word m "null") "null") [.word m "null"] rest (Same (.null site)) :=
  .step reads_advance fun _ _ => .pure rfl

theorem reads_word_reference (hname : name ∉ Token.grammarWords) (site : Site) :
    Reads tr (word p (.word m name) name) [.word m name] rest (Same (.ident (.word m name) site)) := by
  have hword : word p (.word m name) name = reference (.word m name) := by
    simp only [Token.grammarWords, mem_cons, not_mem_nil, or_false, not_or] at hname
    unfold word
    split <;> simp_all
  rw [hword]
  exact .step reads_advance fun _ _ => .look (reads_record _) fun _ _ => .pure rfl

/-- A group is read by what its delimiters say. -/
theorem reads_primary_group (hlimit : 0 < p.limit) {d : Delimiter}
    (h : Reads tr (group p d ts m.site) [.enclosed m d ts] rest (Same e)) :
    Reads tr (primary s p) [.enclosed m d ts] rest (Same e) := by
  refine .look (reads_invokeAll s hlimit fun t ht => ?_) fun _ _ => .look reads_peek ?_
  · cases ht
    exact nofun
  · rintro _ rfl
    exact h

theorem reads_primary_paren (hlimit : 0 < p.limit) (hne : ts ≠ [])
    (h : Reads tr p.assignment ts [] (Same e)) :
    Reads tr (primary s p) [.enclosed m .paren ts] rest (Same e) :=
  reads_primary_group hlimit (.step reads_advance fun _ _ => reads_groupExpression hne h)

theorem reads_primary_array (hlimit : 0 < p.limit) {items : List Expression} (site : Site)
    (h : Reads tr (listItems p p.limit) ts [] (SameAll items)) :
    Reads tr (primary s p) [.enclosed m .bracket ts] rest (Same (.array items site)) := by
  refine reads_primary_group hlimit (.step reads_advance fun _ _ => ?_)
  refine h.on.look fun read hread => .pure ?_
  rw [Same, Expression.unsited, Expression.unsited, hread]

theorem reads_primary_object (hlimit : 0 < p.limit) {properties : List Property} (site : Site)
    (h : Reads tr (listProperties p p.limit) ts [] (SameProperties properties)) :
    Reads tr (primary s p) [.enclosed m .brace ts] rest (Same (.object properties site)) := by
  refine reads_primary_group hlimit (.step reads_advance fun _ _ => ?_)
  refine h.on.look fun read hread => .pure ?_
  rw [Same, Expression.unsited, Expression.unsited, hread]

/-! ### Members, items and calls -/

/-- The tokens begin with no unary operator, and the readers of a primary expression and of its suffixes get over them
with the expression read, whatever stands behind them. -/
structure SuffixReads (tr : Token → Option Transformer) (s : Setup) (p : Passes) (e : Expression)
    (ts : List Token) : Prop where
  head : ∃ t us, ts = t :: us ∧ unaryOperator? t = none
  reads : ∀ (n : Nat) (us rest : List Token) (R : Expression → Prop),
    (∀ n' ≥ n, ∀ e', Same e e' → Reads tr (suffixes p n' e') us rest R) →
      ∀ n' ≥ n + e.size, Reads tr (primary s p >>= suffixes p n') (ts ++ us) rest R

theorem SuffixReads.of_primary (ht : unaryOperator? t = none)
    (h : ∀ rest, Reads tr (primary s p) [t] rest (Same e)) : SuffixReads tr s p e [t] where
  head := ⟨t, [], rfl, ht⟩
  reads _ _ _ _ hus n' hn' := (h _).bind fun e' he' => hus n' (by omega) e' he'

/-- One more suffix behind an expression. -/
theorem SuffixReads.suffix {e₀ : Expression} {ss : List Token} (h : SuffixReads tr s p e₀ ts)
    (hsize : e₀.size < e.size) (hs : ∀ n us rest R e', Same e₀ e' →
      (∀ e', Same e e' → Reads tr (suffixes p n e') us rest R) →
        Reads tr (suffixes p (n + 1) e') (ss ++ us) rest R) : SuffixReads tr s p e (ts ++ ss) where
  head := by
    obtain ⟨t, us, rfl, ht⟩ := h.head
    exact ⟨t, _, rfl, ht⟩
  reads n us rest R hus n' hn' := by
    rw [List.append_assoc]
    refine h.reads (n + 1) _ _ _ (fun n₁ hn₁ e' he' => ?_) n' (by omega)
    obtain ⟨n₁, rfl⟩ : ∃ k, n₁ = k + 1 := Nat.exists_eq_succ_of_ne_zero (by omega)
    exact hs n₁ us rest R e' he' (hus n₁ (by omega))

theorem SuffixReads.member {object : Expression} (h : SuffixReads tr s p object ts) (property : String)
    (site : Site) :
    SuffixReads tr s p (.member object property site) (ts ++ [.punct m ".", .word m property]) := by
  refine h.suffix (by rw [Expression.size]; omega) fun n us rest R object' hobject hus => ?_
  refine .takes (reads_eat rfl) (.takes (reads_expectIdent rfl) (hus _ ?_))
  rw [Same, Expression.unsited, Expression.unsited, hobject]
  rfl

theorem SuffixReads.index {object key : Expression} {ks : List Token} (h : SuffixReads tr s p object ts)
    (hne : ks ≠ []) (hkey : Reads tr p.assignment ks [] (Same key)) (site : Site) :
    SuffixReads tr s p (.index object key site) (ts ++ [.enclosed m .bracket ks]) := by
  refine h.suffix (by rw [Expression.size]; omega) fun n us rest R object' hobject hus => ?_
  refine .sees (reads_eat_none fun t ht => by cases ht; rfl) (.sees (reads_peekGroup .bracket) ?_)
  refine .takes (reads_expectGroup rfl) (.look (reads_groupExpression hne hkey) fun key' hkey => hus _ ?_)
  rw [Same, Expression.unsited, Expression.unsited, hobject, hkey]

theorem SuffixReads.call {callee : Expression} {args : List Expression} (h : SuffixReads tr s p callee ts)
    (hargs : Reads tr (listItems p p.limit) us [] (SameAll args)) (site : Site) :
    SuffixReads tr s p (.call callee args site) (ts ++ [.enclosed m .paren us]) := by
  refine h.suffix (by rw [Expression.size]; omega) fun n us rest R callee' hcallee hus => ?_
  refine .sees (reads_eat_none fun t ht => by cases ht; rfl) (.sees (reads_peekGroup .bracket) ?_)
  refine .sees (reads_peekGroup .paren) (.takes (reads_expectGroup rfl) (.look hargs.on fun args' hargs => hus _ ?_))
  rw [Same, Expression.unsited, Expression.unsited, hcallee, hargs]

theorem reads_suffixes_end (hn : 0 < n) (hends : EndsAt k rest) (e : Expression) :
    Reads tr (suffixes p n e) [] rest (· = e) := by
  obtain ⟨n, rfl⟩ : ∃ k, n = k + 1 := Nat.exists_eq_succ_of_ne_zero (Nat.ne_of_gt hn)
  have hgroup : ∀ d, d = .bracket ∨ d = .paren → rest.head?.any (fun t => (t.group? d).isSome) = false := by
    intro d hd
    cases rest with
    | nil => rfl
    | cons t ts => rcases hd with rfl | rfl <;> simp [(hends t rfl).bracket, (hends t rfl).paren]
  refine .sees (reads_eat_none fun t ht => (hends t ht).point) ?_
  refine .look (reads_peekGroup .bracket) ?_
  rintro _ rfl
  rw [nil_append, hgroup .bracket (.inl rfl)]
  refine .sees (reads_peekGroup .paren) ?_
  rw [nil_append, hgroup .paren (.inr rfl)]
  exact .pure rfl

/-- Without an operator before it, an expression and its suffixes are read. -/
theorem SuffixReads.reads_unaryStep (h : SuffixReads tr s p e ts) (hlimit : e.size < p.limit)
    (hends : EndsAt k rest) : Reads tr (unaryStep s p) ts rest (Same e) := by
  obtain ⟨t, us, rfl, ht⟩ := h.head
  refine .sees reads_peek ?_
  have hnone : ((t :: us ++ rest).head?.bind fun token => (unaryOperator? token).map fun op => (token, op)) = none := by
    simp [ht]
  rw [hnone]
  have hreads := h.reads 1 [] rest (Same e)
    (fun n hn e' he' => (reads_suffixes_end hn hends e').mono fun _ heq => heq ▸ he') p.limit (by omega)
  rwa [append_nil] at hreads

/-- A unary operator and its operand are read. -/
theorem reads_unaryStep_operator {operand : Expression} (op : UnaryOp) (site : Site)
    (h : Reads tr p.unary ts rest (Same operand)) :
    Reads tr (unaryStep s p) (op.token m :: ts) rest (Same (.unary op operand site)) := by
  refine .sees reads_peek ?_
  have hop : unaryOperator? (op.token m) = some op := by cases op <;> rfl
  simp only [cons_append, List.head?_cons, Option.bind_some, hop, Option.map_some]
  refine .step reads_advance fun _ _ => h.last fun operand' hoperand => .pure ?_
  rw [Same, Expression.unsited, Expression.unsited, hoperand]

/-! ### Binary operators -/

/-- The operators of a level are read one after the other, whatever stands behind them. -/
def BinaryReads (tr : Token → Option Transformer) (p : Passes) (i : Nat) (e : Expression) (ts : List Token) :
    Prop :=
  ∀ (h : i < BinaryOp.levels.length) (n : Nat) (us rest : List Token) (R : Expression → Prop),
    EndsAt (1 + i + 1) (us ++ rest) → (∀ n' ≥ n, ∀ e', Same e e' →
      Reads tr (binaryRest BinaryOp.levels[i] (readerAt p (1 + i + 1)) n' e') us rest R) →
        ∀ n' ≥ n + e.size, Reads tr
          (readerAt p (1 + i + 1) >>= binaryRest BinaryOp.levels[i] (readerAt p (1 + i + 1)) n') (ts ++ us) rest R

theorem BinaryReads.of_operand (h : ReadsBefore tr (1 + i + 1) (readerAt p (1 + i + 1)) ts e) :
    BinaryReads tr p i e ts :=
  fun _ _ _ _ _ hends hus n' hn' => (h _ hends).bind fun e' he' => hus n' (by omega) e' he'

theorem BinaryReads.binary {left right : Expression}
    (hleft : BinaryReads tr p op.tightness left ts)
    (hright : ReadsBefore tr (1 + op.tightness + 1) (readerAt p (1 + op.tightness + 1)) us right)
    (site : Site) :
    BinaryReads tr p op.tightness (.binary op left right site) (ts ++ .punct m op.text :: us) := by
  intro h n vs rest R hends hvs n' hn'
  rw [append_assoc]
  rw [Expression.size] at hn'
  refine hleft h (n + 1) _ _ _ (.cons (ends_operator (by omega))) (fun n₁ hn₁ left' hleft' => ?_) n' (by omega)
  obtain ⟨n₁, rfl⟩ : ∃ k, n₁ = k + 1 := Nat.exists_eq_succ_of_ne_zero (by omega)
  refine .sees reads_peek ?_
  have hfind : BinaryOp.levels[op.tightness].find? (fun op' => (Token.punct m op.text).isPunct op'.text) = some op := by
    have hmem : op ∈ BinaryOp.levels[op.tightness] := BinaryOp.mem_levels.2 rfl
    cases hfind : BinaryOp.levels[op.tightness].find? (fun op' => (Token.punct m op.text).isPunct op'.text) with
    | none => exact absurd (decide_eq_true rfl) (List.find?_eq_none.1 hfind op hmem)
    | some op' =>
      have hpunct := List.find?_some hfind
      rw [BinaryOp.text_injective (of_decide_eq_true hpunct)]
  simp only [cons_append, List.head?_cons, Option.bind_some, hfind]
  refine .step reads_advance fun _ _ => (hright _ hends).bind fun right' hright' => hvs n₁ (by omega) _ ?_
  rw [Same, Expression.unsited, Expression.unsited, hleft', hright']

/-- A chain of operators of a level ends where none of the level follows. -/
theorem BinaryReads.reads (h : BinaryReads tr p i e ts) (hi : i < BinaryOp.levels.length)
    (hlimit : e.size < p.limit) : ReadsBefore tr (1 + i) (readerAt p (1 + i)) ts e := by
  intro rest hends
  have hlevels : BinaryOp.levels.drop i = BinaryOp.levels[i] :: BinaryOp.levels.drop (i + 1) :=
    drop_eq_getElem_cons hi
  have hreads := h hi 1 [] rest (Same e) (hends.mono (by omega))
    (fun n hn e' he' => (reads_binaryRest_end hn ?_ e').mono fun _ heq => heq ▸ he') p.limit (by omega)
  · rw [append_nil, Nat.add_assoc, readerAt_one_add] at hreads
    rw [readerAt_one_add, hlevels]
    exact hreads
  · intro op hop t ht
    exact (hends t ht).operator op (by have := BinaryOp.mem_levels.1 hop; omega)

/-! ### Conditionals and assignments -/

theorem reads_conditional {test consequent alternate : Expression} {vs : List Token}
    (htest : ReadsBefore tr 1 (readerAt p 1) ts test)
    (hconsequent : ReadsBefore tr 0 p.assignment us consequent)
    (halternate : Reads tr p.assignment vs rest (Same alternate)) (site : Site) :
    Reads tr (conditional p) (ts ++ .punct m "?" :: (us ++ .punct m ":" :: vs)) rest
      (Same (.conditional test consequent alternate site)) := by
  refine (htest _ (.cons (ends_question (Nat.le_refl 1)))).bind fun test' htest => ?_
  refine .takes (reads_eat rfl) ?_
  refine (hconsequent _ (.cons ends_colon)).bind fun consequent' hconsequent => ?_
  refine .step (reads_expectPunct rfl) fun _ _ => halternate.last fun alternate' halternate => .pure ?_
  rw [Same, Expression.unsited, Expression.unsited, htest, hconsequent, halternate]

theorem isPlace_unsited (e : Expression) : e.unsited.isPlace = e.isPlace := by
  cases e <;> rfl

theorem reads_assignment {target value : Expression} (hplace : target.isPlace = true)
    (hne : ts ≠ []) (harrow : ∀ u ∈ ts, u.isPunct "=>" = false)
    (htarget : ReadsBefore tr 1 (readerAt p 1) ts target)
    (hvalue : Reads tr p.assignment us rest (Same value)) (site : Site) :
    Reads tr (readerAt p 0) (ts ++ .punct m "=" :: us) rest (Same (.assign target value site)) := by
  refine .look (reads_arrow_none fun u hu => ?_) ?_
  · obtain ⟨t, ts, rfl⟩ := exists_cons_of_ne_nil hne
    cases ts with
    | nil =>
      cases hu
      rfl
    | cons v ts => exact harrow u (by simp [Option.some.inj hu])
  rintro _ rfl
  have htarget := htarget (.punct m "=" :: us ++ rest) (.cons (ends_assign (Nat.le_refl 1)))
  refine (reads_conditional_end htarget ?_).bind fun target' htarget => .look reads_peek ?_
  · rintro t ⟨⟩
    rfl
  rintro _ rfl
  have hplace' : target'.isPlace = true := by rw [← isPlace_unsited, htarget, isPlace_unsited, hplace]
  show Reads tr (if target'.isPlace then _ else _) _ _ _
  rw [if_pos hplace']
  refine .step reads_advance fun _ _ => hvalue.last fun value' hvalue => .pure ?_
  rw [Same, Expression.unsited, Expression.unsited, htarget, hvalue]

end Parse

end Hygiene
