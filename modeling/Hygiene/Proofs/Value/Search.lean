import Hygiene.Proofs.Number.Words
import Hygiene.Value.Method

/-!
# Searching and splitting texts

The walks over the characters are stated with what was read before. Indices are doubles, so all counts are below `2 ^
53`.
-/

namespace Hygiene

open List

namespace Text

variable {needle separator text : List Char}

/-! ### Parts -/

theorem splitFrom_ne_nil (separator : List Char) (pending : Nat) (part text : List Char) :
    splitFrom separator pending part text ≠ [] := by
  fun_induction splitFrom separator pending part text <;> simp_all

/-- Joining gives back the part read so far and the text behind what is still to be passed over. -/
theorem intercalate_splitFrom (hseparator : separator ≠ []) (pending : Nat) (part text : List Char) :
    separator.intercalate (splitFrom separator pending part text) = part.reverse ++ text.drop pending := by
  fun_induction splitFrom separator pending part text with
  | case1 pending part => simp
  | case2 pending part c cs ih => simpa using ih
  | case3 part c cs hprefix ih =>
    obtain ⟨d, ds, rfl⟩ := exists_cons_of_ne_nil hseparator
    obtain ⟨rest, hrest⟩ := isPrefixOf_iff_prefix.1 hprefix
    obtain ⟨rfl, rfl⟩ := List.cons.inj hrest
    rw [intercalate_cons_of_ne_nil (splitFrom_ne_nil _ _ _ _), ih]
    simp
  | case4 part c cs _ ih => simpa using ih

theorem intercalate_characters (text : List Char) : [].intercalate (text.map fun c => [c]) = text := by
  induction text with
  | nil => rfl
  | cons c cs ih => cases cs <;> simp_all

/-! ### Occurrences -/

theorem not_prefix_drop_of_indexOf? (h : indexOf? needle text = none) (k : Nat) : ¬ needle <+: text.drop k := by
  fun_induction indexOf? needle text generalizing k with
  | case1 => cases h
  | case2 hneedle => simpa [prefix_nil] using hneedle
  | case3 => cases h
  | case4 c cs hprefix ih =>
    cases k with
    | zero => exact fun hzero => hprefix (List.isPrefixOf_iff_prefix.2 hzero)
    | succ k => exact ih (Option.map_eq_none_iff.1 h) k

/-- The occurrence that is found is the leftmost one. -/
theorem prefix_drop_of_indexOf? {k : Nat} (h : indexOf? needle text = some k) :
    needle <+: text.drop k ∧ k ≤ text.length ∧ ∀ j < k, ¬ needle <+: text.drop j := by
  fun_induction indexOf? needle text generalizing k with
  | case1 hneedle =>
    cases h
    exact ⟨by simp_all, by simp⟩
  | case2 => cases h
  | case3 c cs hprefix =>
    cases h
    exact ⟨List.isPrefixOf_iff_prefix.1 hprefix, by simp⟩
  | case4 c cs hprefix ih =>
    obtain ⟨k, hk, rfl⟩ := Option.map_eq_some_iff.1 h
    obtain ⟨hoccurs, hlength, hleast⟩ := ih hk
    refine ⟨hoccurs, Nat.succ_le_succ hlength, fun j hj => ?_⟩
    cases j with
    | zero => exact fun hzero => hprefix (List.isPrefixOf_iff_prefix.2 hzero)
    | succ j => exact hleast j (Nat.lt_of_succ_lt_succ hj)

end Text

namespace Value

open Number

variable {x y : Float} {k n : Nat} {s t : String}

/-! ### Joining -/

theorem itemTexts_map_str (texts : List String) : itemTexts (texts.map str) = texts := by
  induction texts with
  | nil => rfl
  | cons head texts ih => simp [itemTexts, text, ih]

theorem exists_textSplit (s t : String) : ∃ texts : List String, textSplit s t = texts.map str ∧
    t.toList.intercalate (texts.map String.toList) = s.toList := by
  rw [textSplit]
  split
  · next hempty =>
    have hchar : String.toList ∘ Char.toString = fun c => [c] := funext fun c => String.toList_singleton c
    refine ⟨s.toList.map Char.toString, by simp, ?_⟩
    rw [String.isEmpty_iff.1 hempty, List.map_map, hchar]
    exact Text.intercalate_characters s.toList
  · next hne =>
    have hseparator : t.toList ≠ [] := fun h => hne (String.isEmpty_iff.2 (String.toList_eq_nil_iff.1 h))
    refine ⟨(Text.splitOn t.toList s.toList).map String.ofList, by simp [ofChars], ?_⟩
    simpa [Text.splitOn] using Text.intercalate_splitFrom hseparator 0 [] s.toList

/-- A text that is split and joined again is as it was. -/
theorem join_textSplit (s t : String) : join (textSplit s t) t = s := by
  obtain ⟨texts, htexts, hchars⟩ := exists_textSplit s t
  rw [join, htexts, itemTexts_map_str, ← String.toList_inj, String.toList_intercalate, hchars]

/-! ### Slices -/

theorem sliceBound_of_isInteger (h : IsInteger x n) (hn : n < 2 ^ 64) (length default : Nat) :
    sliceBound length (some (number x)) default = min n length := by
  have hnumber : (some (number x)).map toNumber = some x := rfl
  have hnan : ¬ x.isNaN = true := by rw [isNaN_of_isFinite h.finite]; exact Bool.false_ne_true
  rw [sliceBound, hnumber]
  dsimp only
  rw [if_neg hnan, if_neg h.not_lt_zero, h.toNat64 hn]

theorem slice_of_isInteger {α : Type} (hx : IsInteger x k) (hy : IsInteger y (k + n : Nat)) (h : k + n < 2 ^ 64)
    (items : List α) : slice items [number x, number y] = (items.drop k).take n := by
  rw [slice, drop_take]
  simp only [List.getElem?_cons_zero, List.getElem?_cons_succ, sliceBound_of_isInteger hx (by omega),
    sliceBound_of_isInteger hy h]
  rcases Nat.le_total k items.length with hk | hk
  · rw [Nat.min_eq_left hk, Nat.max_eq_right (by omega), take_eq_take_iff, length_drop]
    omega
  · simp [hk, drop_eq_nil_of_le]

/-- Whatever its bounds are, a slice stands somewhere in the items. -/
theorem slice_prefix_drop {α : Type} (items : List α) (args : List Value) :
    ∃ start, slice items args <+: items.drop start := by
  refine ⟨sliceBound items.length args[0]? 0, ?_⟩
  rw [slice, drop_take]
  exact take_prefix _ _

/-- The slice of a text that begins at an index and is as long as another text is the other text. -/
def SlicesTo (s t : String) (k : Nat) : Prop :=
  ∃ length, (str t).member "length" = .ok length ∧
    textMethod s "slice" [ofCount k, plus (ofCount k) length] = .ok (str t)

theorem slicesTo_iff_slice : SlicesTo s t k ↔
    slice s.toList [number (Float.ofNat k), number (Float.ofNat k + Float.ofNat t.length)] = t.toList := by
  have hlength : (str t).member "length" = .ok (ofCount t.length) := rfl
  have hplus : plus (ofCount k) (ofCount t.length) = number (Float.ofNat k + Float.ofNat t.length) := rfl
  have hslice : ∀ args, textMethod s "slice" args = .ok (ofChars (slice s.toList args)) := fun _ => rfl
  simp [SlicesTo, hlength, hplus, hslice, ofChars, ← String.toList_inj]
  rfl

theorem slicesTo_iff_occurs (h : k + t.length < 2 ^ 53) : SlicesTo s t k ↔ t.toList <+: s.toList.drop k := by
  have hk := isInteger_ofNat (n := k) (by omega)
  have hlength := isInteger_ofNat (n := t.length) (by omega)
  rw [slicesTo_iff_slice, slice_of_isInteger hk (hk.add hlength h) (by omega), prefix_iff_eq_take, String.length_toList]
  exact eq_comm

theorem SlicesTo.exists_occurs (h : SlicesTo s t k) : ∃ start, t.toList <+: s.toList.drop start := by
  rw [slicesTo_iff_slice] at h
  exact h ▸ slice_prefix_drop _ _

/-! ### The methods of texts -/

/-- The index that is found, as a number: the least one at which the slice is the text, or `-1`. -/
theorem textIndexOf_spec (hs : s.length < 2 ^ 53) :
    (∃ k, textIndexOf s t = ofCount k ∧ k < 2 ^ 53 ∧ SlicesTo s t k ∧ ∀ j < k, ¬ SlicesTo s t j) ∨
      textIndexOf s t = number (-1) ∧ ∀ k, ¬ SlicesTo s t k := by
  rw [textIndexOf]
  cases hindex : Text.indexOf? t.toList s.toList with
  | none =>
    refine Or.inr ⟨rfl, fun k hk => ?_⟩
    obtain ⟨start, hstart⟩ := hk.exists_occurs
    exact Text.not_prefix_drop_of_indexOf? hindex start hstart
  | some k =>
    obtain ⟨hoccurs, hlength, hleast⟩ := Text.prefix_drop_of_indexOf? hindex
    have hfits : k + t.length < 2 ^ 53 := by
      have := hoccurs.length_le
      simp only [length_drop, String.length_toList] at this hlength
      omega
    refine Or.inl ⟨k, rfl, by omega, (slicesTo_iff_occurs hfits).2 hoccurs, fun j hj hslice => ?_⟩
    exact hleast j hj ((slicesTo_iff_occurs (by omega)).1 hslice)

/-- Splitting a text and joining the parts with the same separator gives the text. The search for a text gives the least
index at which the slice of the same length is that text, and `-1` if there is none. Counts are exact below `2 ^ 53`. -/
theorem text_methods_agree (s t : String) :
    (∃ parts, textMethod s "split" [str t] = .ok (array parts) ∧ arrayMethod parts "join" [str t] = .ok (str s)) ∧
    (s.length < 2 ^ 53 → ∃ x, textMethod s "indexOf" [str t] = .ok (number x) ∧
      (∀ k : Nat, IsInteger x k ↔ SlicesTo s t k ∧ ∀ j < k, ¬ SlicesTo s t j) ∧
      (IsInteger x (-1) ↔ ∀ k, ¬ SlicesTo s t k)) := by
  constructor
  · refine ⟨textSplit s t, rfl, ?_⟩
    have hjoin : arrayMethod (textSplit s t) "join" [str t] = .ok (str (join (textSplit s t) t)) := rfl
    rw [hjoin, join_textSplit]
  · intro hs
    have hindex : textMethod s "indexOf" [str t] = .ok (textIndexOf s t) := rfl
    rw [hindex]
    rcases textIndexOf_spec hs (t := t) with ⟨k, hk, hlt, hslice, hleast⟩ | ⟨hk, hnone⟩
    · have hx := isInteger_ofNat hlt
      refine ⟨Float.ofNat k, congrArg _ hk, fun j => ⟨fun hj => ?_, fun ⟨hj, hless⟩ => ?_⟩, fun hneg => ?_, fun hnone => ?_⟩
      · obtain rfl : k = j := by exact_mod_cast hx.unique hj
        exact ⟨hslice, hleast⟩
      · obtain rfl : k = j := by
          rcases Nat.lt_trichotomy k j with h | h | h
          · exact absurd hslice (hless k h)
          · exact h
          · exact absurd hj (hleast j h)
        exact hx
      · have := hx.unique hneg
        omega
      · exact absurd hslice (hnone k)
    · have hx : IsInteger (-1) (-1) := (isInteger_ofNat (n := 1) (by decide)).neg (by decide)
      refine ⟨-1, congrArg _ hk, fun j => ⟨fun hj => ?_, fun ⟨hj, _⟩ => absurd hj (hnone j)⟩, fun _ => hnone, fun _ => hx⟩
      have := hx.unique hj
      omega

/-- In a text with characters of two bytes, the index is that of a character. -/
theorem text_methods_agree_accents : "éaéa".length < 2 ^ 53 ∧ SlicesTo "éaéa" "aé" 1 ∧ ¬ SlicesTo "éaéa" "aé" 0 := by
  have hlength : "éaéa".length < 2 ^ 53 := by decide
  obtain ⟨x, hx, hindex, -⟩ := (text_methods_agree "éaéa" "aé").2 hlength
  have hfound : textMethod "éaéa" "indexOf" [str "aé"] = .ok (ofCount 1) := rfl
  obtain rfl : Float.ofNat 1 = x := by
    rw [hfound] at hx
    injection hx with hx
    injection hx
  obtain ⟨hslice, hleast⟩ := (hindex 1).1 (isInteger_ofNat (by decide))
  exact ⟨hlength, hslice, hleast 0 Nat.one_pos⟩

theorem textIndexOf_replicate (n : Nat) : textIndexOf (String.ofList (List.replicate n 'a' ++ ['b'])) "b" = ofCount n := by
  have hindex : Text.indexOf? ['b'] (List.replicate n 'a' ++ ['b']) = some n := by
    induction n with
    | zero => rfl
    | succ n ih => simp [replicate_succ, Text.indexOf?, ih]
  rw [textIndexOf, String.toList_ofList, String.toList_ofList, hindex]

/-- Beyond `2 ^ 53` an index is rounded, and the slice at the index that is given may be another one. -/
theorem indexOf_rounded : ∃ s t, textMethod s "indexOf" [str t] = .ok (ofCount (2 ^ 53 + 1)) ∧
    ¬ SlicesTo s t (2 ^ 53 + 1) := by
  generalize hn : 2 ^ 53 + 1 = n
  refine ⟨_, "b", congrArg Except.ok (textIndexOf_replicate n), fun h => ?_⟩
  have hstart : IsInteger (Float.ofNat n) (2 ^ 53 : Nat) := by
    rw [← hn]
    exact ⟨by decide +kernel, by decide +kernel, by decide +kernel⟩
  have hstop : IsInteger (Float.ofNat n + Float.ofNat "b".length) (2 ^ 53 + 0 : Nat) := by
    rw [← hn]
    exact ⟨by decide +kernel, by decide +kernel, by decide +kernel⟩
  rw [slicesTo_iff_slice, slice_of_isInteger hstart hstop (by decide)] at h
  cases h

end Value

end Hygiene
