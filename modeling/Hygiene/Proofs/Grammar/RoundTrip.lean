import Hygiene.Proofs.Grammar.Readers

/-!
# Reading what was written

By induction on the expression the readers of all levels read it, between parentheses where it is held together too
loosely for the level.
-/

namespace Hygiene

open List

namespace Parse

variable {m : Mark} {e : Expression} {tr : Token → Option Transformer} {s : Setup} {home : Home} {limit : Nat}

theorem passes_limit (s : Setup) (home : Home) (limit : Nat) : (passes s (limit + 1) home).limit = limit := rfl

theorem passes_assignment (s : Setup) (home : Home) (limit : Nat) :
    (passes s (limit + 1) home).assignment = readerAt (passes s limit home) 0 := rfl

theorem readerAt_unaryLevel (s : Setup) (home : Home) (limit : Nat) :
    readerAt (passes s (limit + 1) home) Expression.unaryLevel = unaryStep s (passes s limit home) := rfl

/-- How many levels deep the readers have to go for an expression at a place that asks for a level. -/
def cost (k : Nat) (e : Expression) : Nat := 4 * e.size + if e.level < k then 2 else 0

/-- Every reader reads the expression as it is written for its level. -/
structure Readable (tr : Token → Option Transformer) (s : Setup) (home : Home) (m : Mark) (e : Expression) :
    Prop where
  ne_nil : e.tokens m ≠ []
  noArrow : ∀ t ∈ e.tokens m, t.isPunct "=>" = false
  reads : ∀ {k : Nat}, k ≤ Expression.unaryLevel → ∀ {limit : Nat}, cost k e ≤ limit →
    ReadsBefore tr k (readerAt (passes s limit home) k) (e.tokensAt m k) e
  binary : ∀ {i limit : Nat}, i < BinaryOp.levels.length → cost (1 + i) e ≤ limit →
    BinaryReads tr (passes s limit home) i e (e.tokensAt m (1 + i))
  suffix : ∀ {limit : Nat}, cost Expression.suffixLevel e ≤ limit + 1 →
    SuffixReads tr s (passes s limit home) e (e.tokensAt m Expression.suffixLevel)

/-- An expression that reads from its own tokens reads in parentheses too. -/
theorem Readable.of_raw (hne : e.tokens m ≠ []) (harrow : ∀ t ∈ e.tokens m, t.isPunct "=>" = false)
    (hread : ∀ {k limit : Nat}, k ≤ e.level → k ≤ Expression.unaryLevel → 4 * e.size ≤ limit →
      ReadsBefore tr k (readerAt (passes s limit home) k) (e.tokens m) e)
    (hbinary : ∀ {i limit : Nat}, i < BinaryOp.levels.length → e.level = 1 + i → 4 * e.size ≤ limit →
      BinaryReads tr (passes s limit home) i e (e.tokens m))
    (hsuffix : ∀ {limit : Nat}, Expression.suffixLevel ≤ e.level → 4 * e.size ≤ limit + 1 →
      SuffixReads tr s (passes s limit home) e (e.tokens m)) :
    Readable tr s home m e := by
  have hparen : ∀ {limit : Nat}, 4 * e.size + 2 ≤ limit + 1 →
      SuffixReads tr s (passes s limit home) e [.enclosed m .paren (e.tokens m)] := by
    intro limit hlimit
    obtain ⟨limit, rfl⟩ : ∃ n, limit = n + 1 := Nat.exists_eq_succ_of_ne_zero (by omega)
    refine .of_primary rfl fun rest => reads_primary_paren ?_ hne ?_
    · have := e.size_pos
      rw [passes_limit]
      omega
    · rw [passes_assignment]
      exact hread (Nat.zero_le _) (Nat.zero_le _) (by omega) [] endsAt_nil
  have hreads : ∀ {k : Nat}, k ≤ Expression.unaryLevel → ∀ {limit : Nat}, cost k e ≤ limit →
      ReadsBefore tr k (readerAt (passes s limit home) k) (e.tokensAt m k) e := by
    intro k hk limit hlimit rest hends
    unfold cost at hlimit
    by_cases hlevel : e.level < k
    · have hpos := e.size_pos
      rw [if_pos hlevel] at hlimit
      obtain ⟨limit, rfl⟩ : ∃ n, limit = n + 2 := Nat.exists_eq_add_of_le' (by omega)
      rw [Expression.tokensAt_of_lt m hlevel]
      have hsuffix : SuffixReads tr s (passes s (limit + 1) home) e _ := hparen (by omega)
      refine reads_readerAt_of_le hk (Nat.le_refl _) (by rw [passes_limit]; omega) hends (by simp)
        (by simp [Token.enclosed, Tree.isPunct]) ?_
      rw [readerAt_unaryLevel]
      exact hsuffix.reads_unaryStep (by rw [passes_limit]; omega) hends
    · rw [if_neg hlevel] at hlimit
      rw [Expression.tokensAt_of_le m (by omega)]
      exact hread (by omega) hk (by omega) rest hends
  refine ⟨hne, harrow, hreads, ?_, ?_⟩
  · intro i limit hi hlimit
    by_cases hlevel : e.level = 1 + i
    · rw [Expression.tokensAt_of_le m (by omega)]
      exact hbinary hi hlevel (by unfold cost at hlimit; omega)
    · have hcost : cost (1 + i + 1) e = cost (1 + i) e := by simp only [cost, Expression.level_lt_succ_iff hlevel]
      rw [← Expression.tokensAt_succ m hlevel]
      exact .of_operand (hreads (by unfold Expression.unaryLevel; omega) (by omega))
  · intro limit hlimit
    unfold cost at hlimit
    by_cases hlevel : e.level < Expression.suffixLevel
    · rw [Expression.tokensAt_of_lt m hlevel]
      exact hparen (by rw [if_pos hlevel] at hlimit; omega)
    · rw [Expression.tokensAt_of_le m (by omega)]
      exact hsuffix (by omega) (by omega)

/-- An expression with suffixes, or without parts, is readable. -/
theorem Readable.of_suffix (harrow : ∀ t ∈ e.tokens m, t.isPunct "=>" = false)
    (hlevel : Expression.suffixLevel ≤ e.level)
    (h : ∀ {limit : Nat}, 4 * e.size ≤ limit + 1 → SuffixReads tr s (passes s limit home) e (e.tokens m)) :
    Readable tr s home m e := by
  have hpos := e.size_pos
  have hne : e.tokens m ≠ [] := by
    have hsuffix : SuffixReads tr s (passes s (4 * e.size) home) e (e.tokens m) := h (by omega)
    obtain ⟨t, us, htokens, _⟩ := hsuffix.head
    simp [htokens]
  refine .of_raw hne harrow ?_ ?_ (fun _ => h)
  · intro k limit _ hk hlimit rest hends
    obtain ⟨limit, rfl⟩ : ∃ n, limit = n + 2 := Nat.exists_eq_add_of_le' (by omega)
    refine reads_readerAt_of_le hk (Nat.le_refl _) (by rw [passes_limit]; omega) hends hne harrow ?_
    rw [readerAt_unaryLevel]
    exact (h (by omega)).reads_unaryStep (by rw [passes_limit]; omega) hends
  · intro i limit hi heq
    unfold Expression.suffixLevel Expression.unaryLevel at hlevel
    omega

/-- An expression that is one token is readable. -/
theorem Readable.of_primary {t : Token} (htokens : e.tokens m = [t]) (ht : unaryOperator? t = none)
    (harrow : t.isPunct "=>" = false) (hlevel : Expression.suffixLevel ≤ e.level)
    (h : ∀ {limit : Nat}, 0 < limit → 4 * e.size ≤ limit + 2 → ∀ {rest : List Token},
      Reads tr (primary s (passes s (limit + 1) home)) [t] rest (Same e)) :
    Readable tr s home m e := by
  have hpos := e.size_pos
  refine .of_suffix (by simp [htokens, harrow]) hlevel fun {limit} hlimit => ?_
  obtain ⟨limit, rfl⟩ : ∃ n, limit = n + 1 := Nat.exists_eq_succ_of_ne_zero (by omega)
  rw [htokens]
  exact .of_primary ht fun rest => h (by omega) hlimit

/-- An expression that the reader of its own level reads is readable. -/
theorem Readable.of_own (hne : e.tokens m ≠ []) (harrow : ∀ t ∈ e.tokens m, t.isPunct "=>" = false)
    (hlevel : e.level ≤ Expression.unaryLevel)
    (hread : ∀ {limit : Nat}, 4 * e.size ≤ limit →
      ReadsBefore tr e.level (readerAt (passes s limit home) e.level) (e.tokens m) e)
    (hbinary : ∀ {i limit : Nat}, i < BinaryOp.levels.length → e.level = 1 + i → 4 * e.size ≤ limit →
      BinaryReads tr (passes s limit home) i e (e.tokens m)) :
    Readable tr s home m e := by
  have hpos := e.size_pos
  refine .of_raw hne harrow ?_ hbinary fun hsuffix => by unfold Expression.suffixLevel at hsuffix; omega
  intro k limit hk _ hlimit rest hends
  obtain ⟨limit, rfl⟩ : ∃ n, limit = n + 2 := Nat.exists_eq_add_of_le' (by omega)
  have hown := hread hlimit rest (hends.mono hk)
  exact reads_readerAt_of_le hk hlevel (by rw [passes_limit]; omega) hends hne harrow hown

theorem Readable.noArrow_at (h : Readable tr s home m e) (k : Nat) :
    ∀ t ∈ e.tokensAt m k, t.isPunct "=>" = false := by
  by_cases hlevel : e.level < k
  · rw [Expression.tokensAt_of_lt m hlevel]
    simp [Token.enclosed, Tree.isPunct]
  · rw [Expression.tokensAt_of_le m (by omega)]
    exact h.noArrow

theorem Readable.at_ne_nil (h : Readable tr s home m e) (k : Nat) : e.tokensAt m k ≠ [] := by
  by_cases hlevel : e.level < k
  · simp [Expression.tokensAt_of_lt m hlevel]
  · rw [Expression.tokensAt_of_le m (by omega)]
    exact h.ne_nil

theorem cost_le (k : Nat) (e : Expression) : cost k e ≤ 4 * e.size + 2 := by
  unfold cost
  split <;> omega

/-- Where any expression may stand, a readable one is read as it is written. -/
theorem Readable.assignment (h : Readable tr s home m e) (hlimit : 4 * e.size < limit) :
    ReadsBefore tr 0 (passes s limit home).assignment (e.tokens m) e := by
  obtain ⟨limit, rfl⟩ : ∃ n, limit = n + 1 := Nat.exists_eq_succ_of_ne_zero (by omega)
  rw [passes_assignment, ← Expression.tokensAt_of_le m (Nat.zero_le e.level)]
  exact h.reads (Nat.zero_le _) (by simp [cost]; omega)

theorem reads_items {items : List Expression} (h : ∀ e ∈ items, Readable tr s home m e)
    (hlimit : 4 * Expression.sizeAll items < limit) :
    Reads tr (listItems (passes s (limit + 1) home) limit) (Expression.tokensAll m items) []
      (SameAll items) := by
  refine reads_listItems (fun e he => (h e he).ne_nil) (fun e he => (h e he).assignment ?_) ?_
  · have := Expression.size_le_sizeAll he
    omega
  · have := Expression.length_le_sizeAll items
    omega

theorem reads_properties {properties : List Property} (h : ∀ q ∈ properties, Readable tr s home m q.value)
    (hlimit : 4 * Property.sizeAll properties < limit) :
    Reads tr (listProperties (passes s (limit + 1) home) limit) (Property.tokensAll m properties) []
      (SameProperties properties) := by
  refine reads_listProperties (fun q hq => (h q hq).assignment ?_) ?_
  · have := Property.size_le_sizeAll hq
    omega
  · have := Property.length_le_sizeAll properties
    omega

namespace Readable

theorem number (value : Float) (site : Site) : Readable tr s home m (.number value site) :=
  .of_primary rfl rfl rfl (Nat.le_succ _) fun hlimit _ => reads_primary_number hlimit site

theorem str (text : String) (site : Site) : Readable tr s home m (.str text site) :=
  .of_primary rfl rfl rfl (Nat.le_succ _) fun hlimit _ => reads_primary_str hlimit site

theorem bool {value : Bool} (h : tr (.word m (if value then "true" else "false")) = none) (site : Site) :
    Readable tr s home m (.bool value site) :=
  .of_primary rfl (by cases value <;> rfl) rfl (Nat.le_succ _) fun hlimit _ =>
    reads_primary_word hlimit h (reads_word_bool value site)

theorem null (h : tr (.word m "null") = none) (site : Site) : Readable tr s home m (.null site) :=
  .of_primary rfl rfl rfl (Nat.le_succ _) fun hlimit _ => reads_primary_word hlimit h (reads_word_null site)

theorem ident {mark : Mark} {name : String} (hname : name ∉ Token.grammarWords)
    (h : tr (.word mark name) = none) (site : Site) :
    Readable tr s home m (.ident (.word mark name) site) := by
  refine .of_primary rfl ?_ rfl (Nat.le_succ _) fun hlimit _ =>
    reads_primary_word hlimit h (reads_word_reference hname site)
  have htypeof : name ≠ "typeof" := by
    rintro rfl
    exact hname (by decide)
  have hword : (Token.word mark name).isWord UnaryOp.typeOf.text = false := by
    simpa [Token.word, Tree.isWord, Tree.ident?, UnaryOp.text] using htypeof
  rw [unaryOperator?, hword]
  rfl

theorem array {items : List Expression} (h : ∀ e ∈ items, Readable tr s home m e) (site : Site) :
    Readable tr s home m (.array items site) :=
  .of_primary rfl rfl rfl (Nat.le_succ _) fun hlimit hsize =>
    reads_primary_array hlimit site (reads_items h (by rw [Expression.size] at hsize; omega))

theorem object {properties : List Property} (h : ∀ q ∈ properties, Readable tr s home m q.value)
    (site : Site) : Readable tr s home m (.object properties site) :=
  .of_primary rfl rfl rfl (Nat.le_succ _) fun hlimit hsize =>
    reads_primary_object hlimit site (reads_properties h (by rw [Expression.size] at hsize; omega))

theorem member {object : Expression} (h : Readable tr s home m object) (property : String) (site : Site) :
    Readable tr s home m (.member object property site) := by
  refine .of_suffix ?_ (Nat.le_refl _) fun hlimit => ?_
  · exact forall_mem_append.2 ⟨h.noArrow_at _, by simp [Token.punct, Token.word, Tree.isPunct]⟩
  · have := cost_le Expression.suffixLevel object
    rw [Expression.size] at hlimit
    exact (h.suffix (by omega)).member property site

theorem index {object key : Expression} (h : Readable tr s home m object)
    (hkey : Readable tr s home m key) (site : Site) :
    Readable tr s home m (.index object key site) := by
  refine .of_suffix ?_ (Nat.le_refl _) fun hlimit => ?_
  · exact forall_mem_append.2 ⟨h.noArrow_at _, by simp [Token.enclosed, Tree.isPunct]⟩
  · have := cost_le Expression.suffixLevel object
    rw [Expression.size] at hlimit
    exact (h.suffix (by omega)).index hkey.ne_nil (hkey.assignment (by omega) [] endsAt_nil) site

theorem call {callee : Expression} {args : List Expression} (h : Readable tr s home m callee)
    (hargs : ∀ e ∈ args, Readable tr s home m e) (site : Site) :
    Readable tr s home m (.call callee args site) := by
  refine .of_suffix ?_ (Nat.le_refl _) fun {limit} hlimit => ?_
  · exact forall_mem_append.2 ⟨h.noArrow_at _, by simp [Token.enclosed, Tree.isPunct]⟩
  · have := cost_le Expression.suffixLevel callee
    rw [Expression.size] at hlimit
    obtain ⟨limit, rfl⟩ : ∃ n, limit = n + 1 := Nat.exists_eq_succ_of_ne_zero (by omega)
    exact (h.suffix (by omega)).call (reads_items hargs (by omega)) site

theorem unary {operand : Expression} (op : UnaryOp) (h : Readable tr s home m operand) (site : Site) :
    Readable tr s home m (.unary op operand site) := by
  refine .of_own (cons_ne_nil _ _) ?_ (Nat.le_refl _) ?_ ?_
  · exact forall_mem_cons.2 ⟨by cases op <;> rfl, h.noArrow_at _⟩
  · intro limit hlimit rest hends
    have := cost_le Expression.unaryLevel operand
    rw [Expression.size] at hlimit
    obtain ⟨limit, rfl⟩ : ∃ n, limit = n + 1 := Nat.exists_eq_succ_of_ne_zero (by omega)
    exact reads_unaryStep_operator op site (h.reads (Nat.le_refl _) (by omega) rest hends)
  · intro i limit hi hlevel
    simp only [Expression.level, Expression.unaryLevel] at hlevel
    omega

theorem of_binary {left right : Expression} (op : BinaryOp) (hleft : Readable tr s home m left)
    (hright : Readable tr s home m right) (site : Site) :
    Readable tr s home m (.binary op left right site) := by
  have hop := op.tightness_lt
  have hchain : ∀ {limit : Nat}, 4 * (Expression.binary op left right site).size ≤ limit →
      BinaryReads tr (passes s limit home) op.tightness (.binary op left right site)
        ((Expression.binary op left right site).tokens m) := by
    intro limit hlimit
    have hcost := cost_le (1 + op.tightness) left
    have hcost' := cost_le (1 + op.tightness + 1) right
    rw [Expression.size] at hlimit
    exact .binary (hleft.binary hop (by omega)) (hright.reads (by unfold Expression.unaryLevel; omega) (by omega)) site
  refine .of_own ?_ ?_ (by simp only [Expression.level, Expression.unaryLevel]; omega) ?_ ?_
  · exact append_ne_nil_of_right_ne_nil _ (cons_ne_nil _ _)
  · refine forall_mem_append.2 ⟨hleft.noArrow_at _, forall_mem_cons.2 ⟨?_, hright.noArrow_at _⟩⟩
    cases op <;> rfl
  · intro limit hlimit
    have hpos := (Expression.binary op left right site).size_pos
    obtain ⟨limit, rfl⟩ : ∃ n, limit = n + 1 := Nat.exists_eq_succ_of_ne_zero (by omega)
    exact (hchain hlimit).reads hop (by rw [passes_limit]; omega)
  · intro i limit _ hlevel hlimit
    obtain rfl : op.tightness = i := by simpa [Expression.level] using hlevel
    exact hchain hlimit

theorem conditional {test consequent alternate : Expression} (htest : Readable tr s home m test)
    (hconsequent : Readable tr s home m consequent) (halternate : Readable tr s home m alternate)
    (site : Site) : Readable tr s home m (.conditional test consequent alternate site) := by
  have hne : (Expression.conditional test consequent alternate site).tokens m ≠ [] :=
    append_ne_nil_of_right_ne_nil _ (cons_ne_nil _ _)
  have harrow : ∀ t ∈ (Expression.conditional test consequent alternate site).tokens m, t.isPunct "=>" = false := by
    refine forall_mem_append.2 ⟨htest.noArrow_at _, forall_mem_cons.2 ⟨rfl, ?_⟩⟩
    exact forall_mem_append.2 ⟨hconsequent.noArrow, forall_mem_cons.2 ⟨rfl, halternate.noArrow⟩⟩
  refine .of_own hne harrow (Nat.zero_le _) ?_ ?_
  · intro limit hlimit rest hends
    have := cost_le 1 test
    rw [Expression.size] at hlimit
    have htest := htest.reads (Nat.le_add_right 1 _) (show cost 1 test ≤ limit by omega)
    have hconsequent := hconsequent.assignment (show 4 * consequent.size < limit by omega)
    have halternate := halternate.assignment (show 4 * alternate.size < limit by omega) rest hends
    exact reads_assignment_end (reads_conditional htest hconsequent halternate site) hends hne harrow
  · intro i limit _ hlevel
    simp only [Expression.level] at hlevel
    omega

theorem assign {target value : Expression} (hplace : target.isPlace = true)
    (htarget : Readable tr s home m target) (hvalue : Readable tr s home m value) (site : Site) :
    Readable tr s home m (.assign target value site) := by
  refine .of_own ?_ ?_ (Nat.zero_le _) ?_ ?_
  · exact append_ne_nil_of_right_ne_nil _ (cons_ne_nil _ _)
  · exact forall_mem_append.2 ⟨htarget.noArrow_at _, forall_mem_cons.2 ⟨rfl, hvalue.noArrow⟩⟩
  · intro limit hlimit rest hends
    have := cost_le 1 target
    rw [Expression.size] at hlimit
    have hvalue := hvalue.assignment (show 4 * value.size < limit by omega) rest hends
    have hreads := htarget.reads (Nat.le_add_right 1 _) (show cost 1 target ≤ limit by omega)
    exact reads_assignment hplace (htarget.at_ne_nil 1) (htarget.noArrow_at 1) hreads hvalue site
  · intro i limit _ hlevel
    simp only [Expression.level] at hlevel
    omega

end Readable

mutual

/-- Every plain expression is readable. -/
theorem readable (e : Expression) (h : e.Plain tr m) : Readable tr s home m e :=
  match e with
  | .number value site => .number value site
  | .str text site => .str text site
  | .bool _ site => .bool h site
  | .null site => .null h site
  | .ident _ site => by
    obtain ⟨hident, hname, hnone⟩ := h
    obtain ⟨mark, htoken⟩ := Token.eq_word_of_isIdent hident
    rw [htoken] at hnone ⊢
    exact .ident hname hnone site
  | .array items site => .array (readableAll items h) site
  | .object properties site => .object (readableValues properties h) site
  | .call callee args site => .call (readable callee h.1) (readableAll args h.2) site
  | .member object property site => .member (readable object h) property site
  | .index object key site => .index (readable object h.1) (readable key h.2) site
  | .unary op operand site => .unary op (readable operand h) site
  | .binary op left right site => .of_binary op (readable left h.1) (readable right h.2) site
  | .conditional test consequent alternate site =>
    .conditional (readable test h.1) (readable consequent h.2.1) (readable alternate h.2.2) site
  | .assign target value site => .assign h.1 (readable target h.2.1) (readable value h.2.2) site

theorem readableAll (es : List Expression) (h : Expression.PlainAll tr m es) :
    ∀ e ∈ es, Readable tr s home m e :=
  match es with
  | [] => nofun
  | e :: es => forall_mem_cons.2 ⟨readable e h.1, readableAll es h.2⟩

theorem readableValues (ps : List Property) (h : Property.PlainAll tr m ps) :
    ∀ q ∈ ps, Readable tr s home m q.value :=
  match ps with
  | [] => nofun
  | ⟨_, value, _⟩ :: ps => forall_mem_cons.2 ⟨readable value h.1, readableValues ps h.2⟩

end

/-- An expression that was written as tokens is read back: reading takes all tokens, and answers the expression with
other sites at most. -/
theorem assignment_reads_tokens (s : Setup) (home : Home) (run : Run) (m : Mark) (e : Expression)
    (hplain : e.Plain (run.registry.lookup run.store) m) (limit : Nat) (hlimit : 4 * e.size < limit) :
    ∃ e' events, e'.unsited = e.unsited ∧ (passes s limit home).assignment { after := e.tokens m } run =
      .ok (e', ⟨(e.tokens m).reverse, []⟩) { run with events := events ++ run.events } := by
  obtain ⟨e', events, he', hread⟩ := (readable e hplain).assignment hlimit [] endsAt_nil [] run rfl
  rw [append_nil, append_nil] at hread
  exact ⟨e', events, he', hread⟩

/-- In `x.y = (x + 1) * -2 ? x(null) : [x]` only the sum needs parentheses. -/
theorem assignment_reads_tokens_sum :
    let m : Mark := ⟨.unknown, .empty⟩
    let x : Expression := .ident (.word m "x") .unknown
    let number (value : Float) : Token := .atom m (.number value (Number.numberText value))
    let e : Expression := .assign (.member x "y" .unknown)
      (.conditional
        (.binary .mul (.binary .add x (.number 1 .unknown) .unknown) (.unary .negate (.number 2 .unknown) .unknown) .unknown)
        (.call x [.null .unknown] .unknown) (.array [x] .unknown) .unknown) .unknown
    e.tokens m = [.word m "x", .punct m ".", .word m "y", .punct m "=",
        .enclosed m .paren [.word m "x", .punct m "+", number 1], .punct m "*", .punct m "-", number 2, .punct m "?",
        .word m "x", .enclosed m .paren [.word m "null"], .punct m ":", .enclosed m .bracket [.word m "x"]] ∧
      ∃ e' events, e'.unsited = e.unsited ∧
        (passes { load := .error } 100 ⟨"<main>", 0, .base⟩).assignment { after := e.tokens m } {} =
          .ok (e', ⟨(e.tokens m).reverse, []⟩) { events := events ++ [] } := by
  intro m x number e
  have hx : x.Plain (Registry.lookup {} {}) m := ⟨rfl, by decide, rfl⟩
  have hplain : e.Plain (Registry.lookup {} {}) m :=
    ⟨rfl, hx, ⟨⟨hx, trivial⟩, trivial⟩, ⟨hx, rfl, trivial⟩, hx, trivial⟩
  exact ⟨rfl, assignment_reads_tokens _ _ {} m e hplain 100 (by decide)⟩

end Parse

end Hygiene
