import Mathlib.Data.List.Find
import Hygiene.Proofs.Token.Lexeme

/-!
# Lexemes end where they are cut off

What a lexeme takes does not depend on what stands behind it, as long as that is a character which separates or closes.
So the characters that were taken, written before such a character, are taken again.
-/

namespace Hygiene

open List

/-- In a quoted text, the character stands as an escape of its code. -/
def Text.WrittenByCode (c : Char) : Prop := ['\\', 'u', '\x7b'] <+: Text.escaped '"' c

instance : DecidablePred Text.WrittenByCode := fun c =>
  inferInstanceAs (Decidable (['\\', 'u', '\x7b'] <+: Text.escaped '"' c))

namespace Text

/-- What is read where the character stands in a quoted text. An escape of a code is read as NUL, and the code in its
braces as it stands. -/
def rereadChar (c : Char) : List Char :=
  if WrittenByCode c then '\x00' :: '\x7b' :: (hexText c.toNat ++ ['\x7d']) else [c]

/-- What is read of a text that was quoted. -/
def reread (s : String) : String := String.ofList (s.toList.flatMap rereadChar)

theorem escaped_of_writtenByCode {c : Char} (h : WrittenByCode c) :
    escaped '"' c = '\\' :: 'u' :: '\x7b' :: (hexText c.toNat ++ ['\x7d']) := by
  unfold WrittenByCode at h
  unfold escaped at h ⊢
  split_ifs at h ⊢ with hnul htab hreturn hline hquote hcode
  · exact absurd h (by decide)
  · exact absurd h (by decide)
  · exact absurd h (by decide)
  · exact absurd h (by decide)
  · rcases hquote with rfl | rfl <;> exact absurd h (by decide)
  · rfl
  · exact absurd h.length_le (by simp)

/-- The text of a code has no character that means something inside a string. -/
theorem plain_of_mem_hexText {n : Nat} {c : Char} (h : c ∈ hexText n) : c ≠ '"' ∧ c ≠ '\\' ∧ c ≠ '\n' := by
  have hdigit : ∀ d < 16, Nat.digitChar d ≠ '"' ∧ Nat.digitChar d ≠ '\\' ∧ Nat.digitChar d ≠ '\n' := by decide
  unfold hexText at h
  induction n using Nat.strongRecOn with
  | ind n ih =>
    rw [Nat.toDigits_eq_if (by decide)] at h
    split at h
    · next hlt =>
      obtain rfl := List.mem_singleton.1 h
      exact hdigit n hlt
    · next hle =>
      rcases List.mem_append.1 h with h | h
      · exact ih (n / 16) (by omega) h
      · obtain rfl := List.mem_singleton.1 h
        exact hdigit _ (Nat.mod_lt _ (by decide))

theorem length_le_flatMap_rereadChar (cs : List Char) : cs.length ≤ (cs.flatMap rereadChar).length := by
  induction cs with
  | nil => exact Nat.le_refl _
  | cons c cs ih =>
    have hc : 1 ≤ (rereadChar c).length := by unfold rereadChar; split <;> simp
    rw [List.flatMap_cons, List.length_append, List.length_cons]
    omega

/-- A quoted text is read as it was exactly if no character of it is written by its code. -/
theorem flatMap_rereadChar_eq_iff (cs : List Char) : cs.flatMap rereadChar = cs ↔ ∀ c ∈ cs, ¬ WrittenByCode c := by
  induction cs with
  | nil => simp
  | cons c cs ih =>
    rw [List.flatMap_cons, List.forall_mem_cons, ← ih]
    by_cases hc : WrittenByCode c
    · have hlength := length_le_flatMap_rereadChar cs
      refine ⟨fun h => ?_, fun h => absurd hc h.1⟩
      have := congrArg List.length h
      simp only [rereadChar, if_pos hc, List.length_append, List.length_cons] at this
      omega
    · simp [rereadChar, hc]

theorem reread_eq_iff {s : String} : reread s = s ↔ ∀ c ∈ s.toList, ¬ WrittenByCode c := by
  rw [← flatMap_rereadChar_eq_iff, reread, String.ext_iff, String.toList_ofList]

end Text

namespace Lexeme

/-- The characters that may stand right behind a token in written tokens. -/
def separators : List Char := [' ', ')', ']', '\x7d', '`']

/-- Nothing follows, or a character that separates or closes. -/
def Boundary (rest : List Char) : Prop := ∀ c ∈ rest.head?, c ∈ separators

/-- The class of characters does not go on with what follows. -/
def Stops (p : Char → Bool) (rest : List Char) : Prop := ∀ c ∈ rest.head?, p c = false

variable {cs ds rest : List Char} {p : Char → Bool}

theorem Boundary.stops (h : Boundary rest) (hp : separators.all (fun c => !p c) = true) : Stops p rest := by
  intro c hc
  simpa using List.all_eq_true.1 hp c (h c hc)

theorem stops_cons {c : Char} (h : p c = false) : Stops p (c :: cs) := fun _ hd => Option.some.inj hd ▸ h

theorem stops_dropWhile (p : Char → Bool) (cs : List Char) : Stops p (cs.dropWhile p) := by
  intro c hc
  have hnot := List.head?_dropWhile_not p cs
  rwa [Option.mem_def.1 hc] at hnot

theorem takeWhile_append (hcs : ∀ c ∈ cs, p c = true) (hrest : Stops p rest) : (cs ++ rest).takeWhile p = cs := by
  rw [List.takeWhile_append_of_pos hcs]
  cases rest with
  | nil => simp
  | cons c rest => simp [hrest c rfl]

/-- Characters are split where a class ends. -/
theorem exists_takeWhile (p : Char → Bool) (cs : List Char) :
    ∃ taken rest, cs = taken ++ rest ∧ (∀ c ∈ taken, p c = true) ∧ Stops p rest ∧ cs.takeWhile p = taken :=
  ⟨cs.takeWhile p, cs.dropWhile p, List.takeWhile_append_dropWhile.symm,
    fun c hc => List.all_eq_true.1 List.all_takeWhile c hc, stops_dropWhile p cs, rfl⟩

/-! ### Numbers -/

/-- What a decimal number may go on with: a digit, a point, or the letter of an exponent. -/
def continuesDecimal (c : Char) : Bool := c.isDigit || c = '.' || c = 'e' || c = 'E'

theorem Stops.digit (h : Stops continuesDecimal rest) : Stops Char.isDigit rest := by
  intro c hc
  have hnot := h c hc
  simp only [continuesDecimal, Bool.or_eq_false_iff] at hnot
  exact hnot.1.1.1

theorem Stops.ne_point (h : Stops continuesDecimal rest) : rest.head? ≠ some '.' :=
  fun hpoint => absurd (h '.' hpoint) (by decide)

theorem digitCount_append (hcs : ∀ c ∈ cs, c.isDigit = true) (hrest : Stops Char.isDigit rest) :
    digitCount (cs ++ rest) = cs.length := by
  rw [digitCount, takeWhile_append hcs hrest]

theorem mantissaLength_le_length (cs : List Char) : mantissaLength cs ≤ cs.length := by
  obtain ⟨whole, tail, rfl, hwhole, htail, _⟩ := exists_takeWhile Char.isDigit cs
  rw [mantissaLength, digitCount_append hwhole htail, List.drop_left]
  split
  · next more _ =>
    have := (List.takeWhile_sublist Char.isDigit (l := more)).length_le
    simp [digitCount]
    omega
  · simp

/-- A mantissa is cut off by what is neither a digit nor a point. -/
theorem mantissaLength_take (cs : List Char) (hrest : Stops Char.isDigit rest) (hpoint : rest.head? ≠ some '.') :
    mantissaLength (cs.take (mantissaLength cs) ++ rest) = mantissaLength cs := by
  obtain ⟨whole, tail, rfl, hwhole, htail, _⟩ := exists_takeWhile Char.isDigit cs
  have hdigits : digitCount (whole ++ tail) = whole.length := digitCount_append hwhole htail
  by_cases htailpoint : tail.head? = some '.'
  · obtain ⟨more, rfl⟩ : ∃ more, tail = '.' :: more := by
      cases tail with
      | nil => cases htailpoint
      | cons c more => exact ⟨more, by rw [Option.some.inj htailpoint]⟩
    obtain ⟨fraction, after, rfl, hfraction, hafter, _⟩ := exists_takeWhile Char.isDigit more
    have hlength : ∀ after, Stops Char.isDigit after →
        mantissaLength (whole ++ '.' :: (fraction ++ after)) = whole.length + 1 + fraction.length := by
      intro after hafter
      have hcount : digitCount (whole ++ '.' :: (fraction ++ after)) = whole.length :=
        digitCount_append hwhole (stops_cons (by decide))
      simp [mantissaLength, hcount, digitCount_append hfraction hafter]
    have htaken : (whole ++ '.' :: (fraction ++ after)).take (whole.length + 1 + fraction.length) =
        whole ++ '.' :: fraction := by
      rw [← List.cons_append, ← List.append_assoc]
      exact List.take_left' (by simp; omega)
    rw [hlength after hafter, htaken, List.append_assoc, List.cons_append, hlength rest hrest]
  · have hlength : ∀ after, Stops Char.isDigit after → after.head? ≠ some '.' →
        mantissaLength (whole ++ after) = whole.length := by
      intro after hafter hpoint
      rw [mantissaLength, digitCount_append hwhole hafter, List.drop_left]
      cases after with
      | nil => rfl
      | cons c after =>
        split
        · next heq => cases heq; exact absurd rfl hpoint
        · rfl
    rw [hlength tail htail htailpoint, List.take_left, hlength rest hrest hpoint]

theorem exponentLength_eq_zero (h : Stops continuesDecimal cs) : exponentLength cs = 0 := by
  cases cs with
  | nil => rfl
  | cons c cs =>
    have hnot := h c rfl
    simp only [continuesDecimal, Bool.or_eq_false_iff, decide_eq_false_iff_not] at hnot
    simp [exponentLength, hnot.1.2, hnot.2]

/-- An exponent: its letter, a sign if there is one, and at least one digit. -/
inductive Exponent : List Char → Prop where
  | mk {letter : Char} {sign digits : List Char} : letter = 'e' ∨ letter = 'E' →
      sign = [] ∨ sign = ['+'] ∨ sign = ['-'] → digits ≠ [] → (∀ c ∈ digits, c.isDigit = true) →
      Exponent (letter :: (sign ++ digits))

theorem Exponent.length_append {exponent : List Char} (h : Exponent exponent) (hrest : Stops Char.isDigit rest) :
    exponentLength (exponent ++ rest) = exponent.length := by
  obtain @⟨letter, sign, digits, hletter, hsign, hne, hdigits⟩ := h
  have hcount := digitCount_append hdigits hrest
  obtain ⟨d, ds, rfl⟩ := List.exists_cons_of_ne_nil hne
  have hd : d ≠ '+' ∧ d ≠ '-' := by
    have hdigit := hdigits d List.mem_cons_self
    constructor <;> rintro rfl <;> cases hdigit
  rw [List.cons_append] at hcount
  rcases hsign with rfl | rfl | rfl <;> simp [exponentLength, hletter, hd, hcount] <;> omega

/-- What an exponent takes is one. -/
theorem exponent_of_exponentLength (h : exponentLength cs ≠ 0) : ∃ exponent after, cs = exponent ++ after ∧
    Exponent exponent ∧ exponentLength cs = exponent.length := by
  cases cs with
  | nil => exact absurd rfl h
  | cons c cs =>
    have hletter : c = 'e' ∨ c = 'E' := Decidable.byContradiction fun hnot => h (by simp [exponentLength, hnot])
    obtain ⟨sign, tail, rfl, hsign, hlength⟩ : ∃ sign tail, cs = sign ++ tail ∧
        (sign = [] ∨ sign = ['+'] ∨ sign = ['-']) ∧
        exponentLength (c :: cs) = if digitCount tail = 0 then 0 else 1 + sign.length + digitCount tail := by
      cases cs with
      | nil => exact ⟨[], [], rfl, .inl rfl, by simp [exponentLength, digitCount]⟩
      | cons d tail =>
        by_cases hd : d = '+' ∨ d = '-'
        · exact ⟨[d], tail, rfl, .inr (by simpa using hd), by simp [exponentLength, hletter, hd]⟩
        · exact ⟨[], d :: tail, rfl, .inl rfl, by simp [exponentLength, hletter, hd]⟩
    obtain ⟨digits, after, rfl, hdigits, hafter, _⟩ := exists_takeWhile Char.isDigit tail
    rw [digitCount_append hdigits hafter] at hlength
    have hne : digits.length ≠ 0 := fun hzero => h (by rw [hlength, if_pos hzero])
    refine ⟨c :: (sign ++ digits), after, by simp, .mk hletter hsign (List.ne_nil_of_length_pos (by omega)) hdigits, ?_⟩
    rw [hlength, if_neg hne]
    simp
    omega

/-- An exponent is cut off by what no decimal number goes on with. -/
theorem exponentLength_take (cs : List Char) (hrest : Stops continuesDecimal rest) :
    exponentLength (cs.take (exponentLength cs) ++ rest) = exponentLength cs := by
  by_cases hzero : exponentLength cs = 0
  · rw [hzero, List.take_zero, List.nil_append, exponentLength_eq_zero hrest]
  · obtain ⟨exponent, after, rfl, hexponent, hlength⟩ := exponent_of_exponentLength hzero
    rw [hlength, List.take_left, hexponent.length_append hrest.digit]

/-- A decimal number is cut off by what it does not go on with. -/
theorem decimalLength_take (cs : List Char) (hrest : Stops continuesDecimal rest) :
    decimalLength (cs.take (decimalLength cs) ++ rest) = decimalLength cs := by
  have hlen := mantissaLength_le_length cs
  generalize hafter : (cs.drop (mantissaLength cs)).take (exponentLength (cs.drop (mantissaLength cs))) ++ rest = after
  have hsplit : cs.take (decimalLength cs) ++ rest = cs.take (mantissaLength cs) ++ after := by
    rw [decimalLength_eq, List.take_add, List.append_assoc, hafter]
  have hstops : Stops Char.isDigit after ∧ after.head? ≠ some '.' := by
    by_cases hzero : exponentLength (cs.drop (mantissaLength cs)) = 0
    · rw [hzero, List.take_zero, List.nil_append] at hafter
      exact hafter ▸ ⟨hrest.digit, hrest.ne_point⟩
    · obtain ⟨_, more, hexponent, ⟨hletter, _, _, _⟩, hlength⟩ := exponent_of_exponentLength hzero
      rw [hlength, hexponent, List.take_left, List.cons_append] at hafter
      rw [← hafter]
      rcases hletter with rfl | rfl <;> exact ⟨stops_cons (by decide), by simp⟩
  have hmantissa := mantissaLength_take cs hstops.1 hstops.2
  rw [hsplit, decimalLength_eq, hmantissa, List.drop_left' (by simp [hlen]), ← hafter, exponentLength_take _ hrest,
    ← decimalLength_eq]

/-- A hexadecimal number: a zero, the letter, and at least one digit. -/
inductive Hexadecimal : List Char → List Char → Prop where
  | mk {x : Char} {digits : List Char} (rest : List Char) : x = 'x' ∨ x = 'X' → digits ≠ [] →
      (∀ c ∈ digits, (Text.hexDigit? c).isSome = true) → Stops (fun c => (Text.hexDigit? c).isSome) rest →
      Hexadecimal ('0' :: x :: digits) rest

theorem Hexadecimal.numberLength_eq (h : Hexadecimal ds rest) : numberLength (ds ++ rest) = ds.length := by
  obtain ⟨_, hx, hne, hdigits, hrest⟩ := h
  simp only [numberLength, List.cons_append, takeWhile_append hdigits hrest]
  rw [if_pos ⟨hx, fun hzero => hne (List.length_eq_zero_iff.1 hzero)⟩]
  simp only [List.length_cons]
  omega

/-- A number is hexadecimal, or it is read as a decimal one. -/
theorem hexadecimal_or_decimal (cs : List Char) :
    (∃ ds rest, cs = ds ++ rest ∧ Hexadecimal ds rest) ∨ numberLength cs = decimalLength cs := by
  unfold numberLength
  dsimp only
  split
  · next x tail =>
    split
    · next hx =>
      obtain ⟨digits, rest, rfl, hdigits, hrest, heq⟩ := exists_takeWhile (fun c => (Text.hexDigit? c).isSome) tail
      refine .inl ⟨'0' :: x :: digits, rest, rfl, .mk rest hx.1 ?_ hdigits hrest⟩
      rintro rfl
      exact hx.2 (by rw [heq]; rfl)
    · exact .inr rfl
  · exact .inr rfl

theorem decimalLength_le_length (cs : List Char) : decimalLength cs ≤ cs.length := by
  have hmantissa := mantissaLength_le_length cs
  rw [decimalLength_eq]
  by_cases hzero : exponentLength (cs.drop (mantissaLength cs)) = 0
  · omega
  · obtain ⟨exponent, after, hdrop, -, hlength⟩ := exponent_of_exponentLength hzero
    have hlen := congrArg List.length hdrop
    rw [List.length_drop, List.length_append] at hlen
    omega

theorem numberLength_le_length (cs : List Char) : numberLength cs ≤ cs.length := by
  rcases hexadecimal_or_decimal cs with ⟨ds, after, rfl, hhex⟩ | hdecimal
  · rw [hhex.numberLength_eq, List.length_append]
    omega
  · exact hdecimal ▸ decimalLength_le_length cs

theorem decimalLength_zero_letter {x : Char} (h : x = 'x' ∨ x = 'X') (cs : List Char) :
    decimalLength ('0' :: x :: cs) = 1 := by
  have hmantissa : mantissaLength ('0' :: x :: cs) = 1 := by
    rcases h with rfl | rfl <;> simp [mantissaLength, digitCount]
  rw [decimalLength_eq, hmantissa]
  rcases h with rfl | rfl <;> rfl

/-- A number is cut off by a boundary. -/
theorem numberLength_take (cs : List Char) (hrest : Boundary rest) :
    numberLength (cs.take (numberLength cs) ++ rest) = numberLength cs := by
  rcases hexadecimal_or_decimal cs with ⟨ds, after, rfl, hhex⟩ | hdecimal
  · rw [hhex.numberLength_eq, List.take_left]
    obtain ⟨_, hx, hne, hdigits, _⟩ := hhex
    exact (Hexadecimal.mk rest hx hne hdigits (hrest.stops (by decide))).numberLength_eq
  · rw [hdecimal]
    rcases hexadecimal_or_decimal (cs.take (decimalLength cs) ++ rest) with ⟨ds, after, heq, hhex⟩ | hdecimal'
    · exfalso
      obtain @⟨x, digits, _, hx, _, _, _⟩ := hhex
      generalize htaken : cs.take (decimalLength cs) = taken at heq
      match taken with
      | [] =>
        replace heq : rest = '0' :: x :: (digits ++ after) := heq
        exact absurd (hrest '0' (by rw [heq]; rfl)) (by decide)
      | [a] =>
        obtain ⟨-, hx'⟩ : a = '0' ∧ rest = x :: (digits ++ after) := List.cons.inj heq
        have := hrest x (by rw [hx']; rfl)
        rcases hx with rfl | rfl <;> exact absurd this (by decide)
      | a :: b :: more =>
        obtain ⟨rfl, htail⟩ : a = '0' ∧ b :: (more ++ rest) = x :: (digits ++ after) := List.cons.inj heq
        obtain ⟨rfl, -⟩ := List.cons.inj htail
        have hcs := List.take_append_drop (decimalLength cs) cs
        rw [htaken] at hcs
        have hone : decimalLength cs = 1 := by
          rw [← hcs]
          exact decimalLength_zero_letter hx _
        have hlen := List.length_take_le (decimalLength cs) cs
        rw [htaken, hone] at hlen
        simp at hlen
    · rw [hdecimal', decimalLength_take cs (hrest.stops (by decide))]

/-! ### Strings -/

/-- A character that is not written by its code is read back. -/
theorem stringRest_escaped {c : Char} (h : ¬ Text.WrittenByCode c) (content cs : List Char) :
    stringRest '"' .plain content (Text.escaped '"' c ++ cs) =
      (stringRest '"' .plain (c :: content) cs).map fun (all, n) => (all, n + (Text.escaped '"' c).length) := by
  unfold Text.WrittenByCode at h
  unfold Text.escaped at h ⊢
  split
  · next hc => simp [hc, stringRest, plainStep, escapeStep, Function.comp_def]
  split
  · next hc => simp [hc, stringRest, plainStep, escapeStep, Function.comp_def]
  split
  · next hc => simp [hc, stringRest, plainStep, escapeStep, Function.comp_def]
  split
  · next hc => simp [hc, stringRest, plainStep, escapeStep, Function.comp_def]
  split
  · next hc => rcases hc with hc | hc <;> simp [hc, stringRest, plainStep, escapeStep, Function.comp_def]
  split
  · next hnul htab hreturn hline hquote hcode =>
    rw [if_neg hnul, if_neg htab, if_neg hreturn, if_neg hline, if_neg hquote, if_pos hcode, List.append_assoc] at h
    exact absurd (List.prefix_append _ _) h
  · next hnul htab hreturn hline hquote _ =>
    obtain ⟨hbackslash, hquote⟩ := not_or.1 hquote
    simp [stringRest, plainStep, hquote, hbackslash, hline]

theorem stringRest_plain {cs : List Char} (hcs : ∀ c ∈ cs, c ≠ '"' ∧ c ≠ '\\' ∧ c ≠ '\n') (content rest : List Char) :
    stringRest '"' .plain content (cs ++ rest) =
      (stringRest '"' .plain (cs.reverse ++ content) rest).map fun (all, n) => (all, n + cs.length) := by
  induction cs generalizing content with
  | nil => simp
  | cons c cs ih =>
    obtain ⟨hquote, hbackslash, hline⟩ := hcs c mem_cons_self
    simp [stringRest, plainStep, hquote, hbackslash, hline, ih fun d hd => hcs d (mem_cons_of_mem c hd), Function.comp_def,
      Nat.add_assoc]

/-- Between quotes, what is written for a character is read as what its escape means. -/
theorem stringRest_written (c : Char) (content cs : List Char) :
    stringRest '"' .plain content (Text.escaped '"' c ++ cs) =
      (stringRest '"' .plain ((Text.rereadChar c).reverse ++ content) cs).map fun (all, n) =>
        (all, n + (Text.escaped '"' c).length) := by
  unfold Text.rereadChar
  split
  · next hcode =>
    have hplain : ∀ d ∈ Text.hexText c.toNat ++ ['\x7d'], d ≠ '"' ∧ d ≠ '\\' ∧ d ≠ '\n' := by
      intro d hd
      rcases List.mem_append.1 hd with hd | hd
      · exact Text.plain_of_mem_hexText hd
      · obtain rfl := List.mem_singleton.1 hd
        decide
    have hbrace : Text.hexDigit? '\x7b' = none := by decide
    have hnul : charOfCode 0 = '\x00' := by decide
    rw [Text.escaped_of_writtenByCode hcode]
    generalize Text.hexText c.toNat ++ ['\x7d'] = code at hplain
    simp [stringRest, plainStep, escapeStep, codeStep, hbrace, hnul, stringRest_plain hplain, Function.comp_def,
      Nat.add_assoc]
  · next hcode => exact stringRest_escaped hcode content cs

/-- What is read between the quotes of a quoted text. -/
theorem stringRest_flatMap (text content rest : List Char) :
    stringRest '"' .plain content (text.flatMap (Text.escaped '"') ++ '"' :: rest) =
      some ((text.flatMap Text.rereadChar).reverse ++ content, (text.flatMap (Text.escaped '"')).length + 1) := by
  induction text generalizing content with
  | nil => rfl
  | cons c text ih =>
    rw [flatMap_cons, append_assoc, stringRest_written, ih]
    simp
    omega

theorem string?_quoted (text : String) (rest : List Char) :
    string? ((Text.quoted text).toList ++ rest) = some (Text.reread text, (Text.quoted text).length) := by
  have hrest := stringRest_flatMap text.toList [] rest
  rw [← String.length_toList]
  simp [string?, Text.quoted, Text.reread, hrest]

/-! ### Punctuators -/

/-- A punctuator before a boundary is the longest one there. -/
theorem punctuator?_append {p : String} (hp : p ∈ punctuators) (hrest : Boundary rest) :
    punctuator? (p.toList ++ rest) = some p := by
  have hfree : (punctuators.all fun q => q.toList.all fun c => !separators.contains c) = true := by decide
  have hself : ∀ p ∈ punctuators, punctuator? p.toList = some p := by decide
  rw [← hself p hp]
  have hbound : ∀ q ∈ punctuators, q.toList <+: p.toList ++ rest → q.toList <+: p.toList := by
    intro q hq hpre
    rcases prefix_or_prefix_of_prefix hpre (prefix_append p.toList rest) with hqp | ⟨more, hmore⟩
    · exact hqp
    · cases more with
      | nil => exact ⟨[], by rw [← hmore]; simp⟩
      | cons c more =>
        rw [← hmore, prefix_append_right_inj] at hpre
        obtain ⟨tail, htail⟩ := hpre
        have hc := all_eq_true.1 (all_eq_true.1 hfree q hq) c (by rw [← hmore]; simp)
        exact absurd (hrest c (by rw [← htail]; rfl)) (by simpa using hc)
  refine List.find?_congr fun q hq => Bool.eq_iff_iff.2 ?_
  rw [List.isPrefixOf_iff_prefix, isPrefixOf_iff_prefix]
  exact ⟨hbound q hq, fun h => h.trans (prefix_append _ _)⟩

end Lexeme

end Hygiene
