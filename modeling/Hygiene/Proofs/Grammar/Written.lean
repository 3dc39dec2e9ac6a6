import Hygiene.Number.Decimal
import Hygiene.Scope.Registry

/-!
# Writing expressions

An expression without functions and templates is written with parentheses around a part exactly where the part is held
together less tightly than its place asks for. What is written depends on its shape and its identifiers, not on sites.
-/

namespace Hygiene

variable {k : Nat} {e : Expression}

/-- How tightly a binary operator binds: the place of its level in the table. -/
def BinaryOp.tightness (op : BinaryOp) : Nat := levels.findIdx (·.contains op)

namespace Expression

/-- The level of unary operators, above the levels of binary operators. -/
abbrev unaryLevel : Nat := 1 + BinaryOp.levels.length

/-- The level of members, items and calls. -/
abbrev suffixLevel : Nat := unaryLevel + 1

/-- How tightly an expression is held together. Assignments and conditionals go on to the right as far as they can, so
neither needs parentheses at the right end. -/
def level : Expression → Nat
  | assign _ _ _ => 0
  | conditional _ _ _ _ => 0
  | binary op _ _ _ => 1 + op.tightness
  | unary _ _ _ => unaryLevel
  | call _ _ _ | member _ _ _ | index _ _ _ => suffixLevel
  | _ => suffixLevel + 1

end Expression

/-- A punctuator as a token. -/
def Token.punct (m : Mark) (text : String) : Token := .atom m (.punct text)

/-- A word as a token. -/
def Token.word (m : Mark) (name : String) : Token := .atom m (.ident name)

theorem Token.eq_word_of_isIdent {t : Token} (h : t.isIdent = true) : ∃ m, t = .word m t.name := by
  match t with
  | .atom m (.ident name) => exact ⟨m, rfl⟩

/-- Tokens between delimiters. -/
def Token.enclosed (m : Mark) (d : Delimiter) (tokens : List Token) : Token := .nest m (.group d) tokens

/-- The tokens, between parentheses where these are needed. -/
def Token.parenthesized (m : Mark) (needed : Bool) (tokens : List Token) : List Token :=
  if needed then [enclosed m .paren tokens] else tokens

/-- A unary operator as a token. -/
def UnaryOp.token (m : Mark) : UnaryOp → Token
  | typeOf => .word m typeOf.text
  | op => .punct m op.text

mutual

/-- The tokens of an expression; `m` is the mark of those that are no identifiers of it. Functions and templates have
none. -/
def Expression.tokens (m : Mark) : Expression → List Token
  | .number value _ => [.atom m (.number value (Number.numberText value))]
  | .str text _ => [.atom m (.str text)]
  | .bool value _ => [.word m (if value then "true" else "false")]
  | .null _ => [.word m "null"]
  | .ident token _ => [token]
  | .array items _ => [.enclosed m .bracket (Expression.tokensAll m items)]
  | .object properties _ => [.enclosed m .brace (Property.tokensAll m properties)]
  | .call callee args _ =>
    Token.parenthesized m (callee.level < Expression.suffixLevel) (callee.tokens m) ++
      [.enclosed m .paren (Expression.tokensAll m args)]
  | .member object property _ =>
    Token.parenthesized m (object.level < Expression.suffixLevel) (object.tokens m) ++ [.punct m ".", .word m property]
  | .index object key _ =>
    Token.parenthesized m (object.level < Expression.suffixLevel) (object.tokens m) ++
      [.enclosed m .bracket (key.tokens m)]
  | .unary op operand _ =>
    op.token m :: Token.parenthesized m (operand.level < Expression.unaryLevel) (operand.tokens m)
  -- The operators of one level bind to the left.
  | .binary op left right _ =>
    Token.parenthesized m (left.level < 1 + op.tightness) (left.tokens m) ++
      .punct m op.text :: Token.parenthesized m (right.level < 1 + op.tightness + 1) (right.tokens m)
  | .conditional test consequent alternate _ =>
    Token.parenthesized m (test.level < 1) (test.tokens m) ++
      .punct m "?" :: (consequent.tokens m ++ .punct m ":" :: alternate.tokens m)
  -- Assignments bind to the right.
  | .assign target value _ =>
    Token.parenthesized m (target.level < 1) (target.tokens m) ++ .punct m "=" :: value.tokens m
  | .lambda _ _ | .template _ _ _ => []

/-- The tokens of expressions with commas between them. -/
def Expression.tokensAll (m : Mark) : List Expression → List Token
  | [] => []
  | [e] => e.tokens m
  | e :: es => e.tokens m ++ .punct m "," :: Expression.tokensAll m es

/-- The tokens of properties with commas between them; every key is written as a string. -/
def Property.tokensAll (m : Mark) : List Property → List Token
  | [] => []
  | [⟨name, value, _⟩] => .atom m (.str name) :: .punct m ":" :: value.tokens m
  | ⟨name, value, _⟩ :: rest =>
    .atom m (.str name) :: .punct m ":" :: (value.tokens m ++ .punct m "," :: Property.tokensAll m rest)

end

/-- The tokens of an expression at a place that asks for a level. -/
def Expression.tokensAt (m : Mark) (k : Nat) (e : Expression) : List Token :=
  Token.parenthesized m (e.level < k) (e.tokens m)

theorem Expression.tokensAt_of_le (m : Mark) (h : k ≤ e.level) : e.tokensAt m k = e.tokens m := by
  simp [tokensAt, Token.parenthesized, Nat.not_lt.2 h]

theorem Expression.tokensAt_of_lt (m : Mark) (h : e.level < k) :
    e.tokensAt m k = [.enclosed m .paren (e.tokens m)] := by
  simp [tokensAt, Token.parenthesized, h]

theorem Expression.level_lt_succ_iff (h : e.level ≠ k) : e.level < k + 1 ↔ e.level < k := by
  omega

/-- An expression of another level is written alike for a level and the next one. -/
theorem Expression.tokensAt_succ (m : Mark) (h : e.level ≠ k) : e.tokensAt m (k + 1) = e.tokensAt m k := by
  simp only [tokensAt, level_lt_succ_iff h]

mutual

/-- The expression without the sites it was read from. Functions and templates keep those of their parts. -/
def Expression.unsited : Expression → Expression
  | .number value _ => .number value .unknown
  | .str text _ => .str text .unknown
  | .bool value _ => .bool value .unknown
  | .null _ => .null .unknown
  | .ident token _ => .ident token .unknown
  | .array items _ => .array (Expression.unsitedAll items) .unknown
  | .object properties _ => .object (Property.unsitedAll properties) .unknown
  | .lambda fn _ => .lambda fn .unknown
  | .call callee args _ => .call callee.unsited (Expression.unsitedAll args) .unknown
  | .member object property _ => .member object.unsited property .unknown
  | .index object key _ => .index object.unsited key.unsited .unknown
  | .unary op operand _ => .unary op operand.unsited .unknown
  | .binary op left right _ => .binary op left.unsited right.unsited .unknown
  | .conditional test consequent alternate _ =>
    .conditional test.unsited consequent.unsited alternate.unsited .unknown
  | .assign target value _ => .assign target.unsited value.unsited .unknown
  | .template parts source _ => .template parts source .unknown

/-- The expressions without the sites they were read from. -/
def Expression.unsitedAll : List Expression → List Expression
  | [] => []
  | e :: es => e.unsited :: Expression.unsitedAll es

/-- The properties without the sites they were read from. -/
def Property.unsitedAll : List Property → List Property
  | [] => []
  | ⟨name, value, _⟩ :: rest => ⟨name, value.unsited, .unknown⟩ :: Property.unsitedAll rest

end

mutual

/-- How many expressions an expression is made of. -/
def Expression.size : Expression → Nat
  | .array items _ => 1 + Expression.sizeAll items
  | .object properties _ => 1 + Property.sizeAll properties
  | .call callee args _ => 1 + callee.size + Expression.sizeAll args
  | .member object _ _ => 1 + object.size
  | .index object key _ => 1 + object.size + key.size
  | .unary _ operand _ => 1 + operand.size
  | .binary _ left right _ => 1 + left.size + right.size
  | .conditional test consequent alternate _ => 1 + test.size + consequent.size + alternate.size
  | .assign target value _ => 1 + target.size + value.size
  | _ => 1

/-- How many expressions expressions are made of. -/
def Expression.sizeAll : List Expression → Nat
  | [] => 0
  | e :: es => e.size + Expression.sizeAll es

/-- How many expressions the values of properties are made of. -/
def Property.sizeAll : List Property → Nat
  | [] => 0
  | ⟨_, value, _⟩ :: rest => value.size + Property.sizeAll rest

end

theorem Expression.size_pos (e : Expression) : 0 < e.size := by
  cases e <;> simp only [size] <;> omega

/-- The words that are no references where an expression is read. -/
def Token.grammarWords : List String := ["true", "false", "null", "function", "syntaxQuote", "typeof"]

mutual

/-- The expression has no functions and no templates, assigns to places only, and none of its words is a transformer,
which `tr` tells, or stands for something else. -/
def Expression.Plain (tr : Token → Option Transformer) (m : Mark) : Expression → Prop
  | .number _ _ | .str _ _ => True
  | .bool value _ => tr (.word m (if value then "true" else "false")) = none
  | .null _ => tr (.word m "null") = none
  | .ident token _ => token.isIdent = true ∧ token.name ∉ Token.grammarWords ∧ tr token = none
  | .array items _ => Expression.PlainAll tr m items
  | .object properties _ => Property.PlainAll tr m properties
  | .call callee args _ => callee.Plain tr m ∧ Expression.PlainAll tr m args
  | .member object _ _ => object.Plain tr m
  | .index object key _ => object.Plain tr m ∧ key.Plain tr m
  | .unary _ operand _ => operand.Plain tr m
  | .binary _ left right _ => left.Plain tr m ∧ right.Plain tr m
  | .conditional test consequent alternate _ =>
    test.Plain tr m ∧ consequent.Plain tr m ∧ alternate.Plain tr m
  | .assign target value _ => target.isPlace = true ∧ target.Plain tr m ∧ value.Plain tr m
  | .lambda _ _ | .template _ _ _ => False

/-- All expressions are plain. -/
def Expression.PlainAll (tr : Token → Option Transformer) (m : Mark) : List Expression → Prop
  | [] => True
  | e :: es => e.Plain tr m ∧ Expression.PlainAll tr m es

/-- The values of all properties are plain. -/
def Property.PlainAll (tr : Token → Option Transformer) (m : Mark) : List Property → Prop
  | [] => True
  | ⟨_, value, _⟩ :: rest => value.Plain tr m ∧ Property.PlainAll tr m rest

end

theorem Expression.size_le_sizeAll {es : List Expression} (h : e ∈ es) : e.size ≤ Expression.sizeAll es := by
  induction es with
  | nil => cases h
  | cons e' es ih =>
    rw [sizeAll]
    rcases List.mem_cons.1 h with rfl | h
    · omega
    · have := ih h
      omega

theorem Property.size_le_sizeAll {ps : List Property} {q : Property} (h : q ∈ ps) :
    q.value.size ≤ Property.sizeAll ps := by
  induction ps with
  | nil => cases h
  | cons q' ps ih =>
    obtain ⟨name, value, site⟩ := q'
    rw [sizeAll]
    rcases List.mem_cons.1 h with rfl | h
    · exact Nat.le_add_right _ _
    · have := ih h
      omega

theorem Expression.length_le_sizeAll (es : List Expression) : es.length ≤ Expression.sizeAll es := by
  induction es with
  | nil => exact Nat.le_refl 0
  | cons e es ih =>
    have := e.size_pos
    rw [sizeAll, List.length_cons]
    omega

theorem Property.length_le_sizeAll (ps : List Property) : ps.length ≤ Property.sizeAll ps := by
  induction ps with
  | nil => exact Nat.le_refl 0
  | cons q ps ih =>
    obtain ⟨name, value, site⟩ := q
    have := value.size_pos
    rw [sizeAll, List.length_cons]
    omega

end Hygiene
