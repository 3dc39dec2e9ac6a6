import Mathlib.Data.List.DropRight
import Mathlib.Data.Prod.Lex
import Mathlib.Order.Interval.Set.Defs
import Mathlib.Order.Monotone.Basic
import Hygiene.Proofs.Token.Bounds

/-!
# Lines of a text

Every byte moves the caret to a later line or a later column. The caret stands on the line that begins behind the last
newline before it.
-/

namespace Hygiene

open List

/-! ### The caret -/

theorem caretAfter_concat (bs : List UInt8) (b : UInt8) : caretAfter (bs ++ [b]) = caretStep (caretAfter bs) b := by
  rw [caretAfter, foldl_append]
  rfl

theorem lt_caretStep (caret : Nat × Nat) (b : UInt8) : toLex caret < toLex (caretStep caret b) := by
  rw [Prod.Lex.toLex_lt_toLex, caretStep]
  split
  · exact Or.inl (Nat.lt_succ_self _)
  · exact Or.inr ⟨rfl, Nat.lt_succ_self _⟩

theorem le_foldl_caretStep (caret : Nat × Nat) (bs : List UInt8) : toLex caret ≤ toLex (bs.foldl caretStep caret) := by
  induction bs generalizing caret with
  | nil => exact le_refl _
  | cons b bs ih => exact (lt_caretStep caret b).le.trans (ih _)

/-- A line begins at the start of the bytes and behind each newline. -/
def StartsLine (bs : List UInt8) (start : Nat) : Prop := start = 0 ∨ ∃ n, start = n + 1 ∧ bs[n]? = some newlineByte

/-- The last line of the bytes begins at `start`. -/
def StartsLastLine (bs : List UInt8) (start : Nat) : Prop :=
  StartsLine bs start ∧ start ≤ bs.length ∧ ∀ other, StartsLine bs other → other ≤ start

/-- The caret has counted the newlines, and the bytes behind the last one. -/
theorem exists_caretAfter (bs : List UInt8) : ∃ start, StartsLastLine bs start ∧
    caretAfter bs = (1 + bs.count newlineByte, 1 + (bs.length - start)) := by
  induction bs using List.reverseRecOn with
  | nil =>
    refine ⟨0, ⟨Or.inl rfl, Nat.le_refl _, ?_⟩, rfl⟩
    rintro other (rfl | ⟨n, rfl, hn⟩)
    · exact Nat.le_refl _
    · cases hn
  | append_singleton bs b ih =>
    obtain ⟨start, ⟨hstart, hle, hlast⟩, hcaret⟩ := ih
    have hbelow {n : Nat} (hn : (bs ++ [b])[n]? = some newlineByte) : n < bs.length + 1 := by
      simpa using (List.getElem?_eq_some_iff.1 hn).1
    rw [caretAfter_concat, hcaret, caretStep, count_append, List.length_append, length_singleton]
    by_cases hb : b = newlineByte
    · subst hb
      refine ⟨bs.length + 1, ⟨Or.inr ⟨_, rfl, by simp⟩, by simp, ?_⟩, by simp; omega⟩
      rintro other (rfl | ⟨n, rfl, hn⟩)
      · exact Nat.zero_le _
      · exact hbelow hn
    · have hsame (other : Nat) : StartsLine (bs ++ [b]) other ↔ StartsLine bs other := by
        refine or_congr_right (exists_congr fun n => and_congr_right fun _ => ?_)
        rcases Nat.lt_or_ge n bs.length with hn | hn
        · rw [List.getElem?_append_left hn]
        · rw [List.getElem?_append_right hn, List.getElem?_eq_none hn, List.getElem?_singleton]
          split <;> simp [hb]
      refine ⟨start, ⟨(hsame _).2 hstart, by simp; omega, fun other h => hlast other ((hsame _).1 h)⟩, ?_⟩
      simp [hb]
      omega

/-! ### Lines as slices -/

/-- Where a line begins, there the text is cut between two characters; the line has no newline, and one follows it unless
the text ends. -/
theorem exists_newlineEnds {cs : List Char} {offset k start : Nat} (h : (offset :: newlineEnds offset cs)[k]? = some start) :
    ∃ before line after, cs = before ++ (line ++ after) ∧ start = offset + byteLength before ∧ '\n' ∉ line ∧
      (after = [] ∧ (newlineEnds offset cs)[k]? = none ∨
        ∃ rest, after = '\n' :: rest ∧ (newlineEnds offset cs)[k]? = some (start + byteLength line + 1)) := by
  induction cs generalizing offset k start with
  | nil =>
    cases k with
    | zero => exact ⟨[], [], [], rfl, (Option.some.inj h).symm, by simp, Or.inl ⟨rfl, rfl⟩⟩
    | succ k => cases h
  | cons c cs ih =>
    by_cases hc : c = '\n'
    · subst hc
      cases k with
      | zero =>
        obtain rfl : offset = start := Option.some.inj h
        exact ⟨[], [], '\n' :: cs, rfl, rfl, by simp, Or.inr ⟨cs, rfl, rfl⟩⟩
      | succ k =>
        obtain ⟨before, line, after, rfl, hstart, hrest⟩ := @ih (offset + 1) k start h
        refine ⟨'\n' :: before, line, after, rfl, ?_, hrest⟩
        rw [hstart, byteLength_cons, ← Nat.add_assoc]
        rfl
    · have hends : newlineEnds offset (c :: cs) = newlineEnds (offset + c.utf8Size) cs := if_neg hc
      rw [hends] at h ⊢
      cases k with
      | zero =>
        obtain rfl : offset = start := Option.some.inj h
        obtain ⟨before, line, after, rfl, hstart, hnew, hrest⟩ := @ih (offset + c.utf8Size) 0 _ rfl
        obtain rfl : before = [] := by
          by_contra hne
          have := byteLength_pos hne
          omega
        refine ⟨[], c :: line, after, rfl, rfl, by simp [hnew, Ne.symm hc], ?_⟩
        simpa [Nat.add_assoc] using hrest
      | succ k =>
        obtain ⟨before, line, after, rfl, hstart, hrest⟩ := @ih (offset + c.utf8Size) (k + 1) start h
        refine ⟨c :: before, line, after, rfl, ?_, hrest⟩
        rw [hstart, byteLength_cons, Nat.add_assoc]

/-- Of a text in parts, a range of offsets from one end of a part to another has the parts between. -/
theorem charsBetween_append (before line after : List Char) :
    charsBetween (byteLength before) (byteLength before + byteLength line) 0 (before ++ (line ++ after)) = line := by
  have hpart : ∀ (start stop offset : Nat) (cs rest : List Char), charsBetween start stop offset (cs ++ rest) =
      charsBetween start stop offset cs ++ charsBetween start stop (offset + byteLength cs) rest := by
    intro start stop offset cs rest
    induction cs generalizing offset with
    | nil => rfl
    | cons c cs ih =>
      rw [cons_append, charsBetween, charsBetween, ih, byteLength_cons, Nat.add_assoc]
      split <;> rfl
  have houtside : ∀ (start stop offset : Nat) (cs : List Char), offset + byteLength cs ≤ start ∨ stop ≤ offset →
      charsBetween start stop offset cs = [] := by
    intro start stop offset cs h
    induction cs generalizing offset with
    | nil => rfl
    | cons c cs ih =>
      have := c.utf8Size_pos
      rw [byteLength_cons] at h
      rw [charsBetween, if_neg (by omega), ih _ (by omega)]
  have hinside : ∀ (start stop offset : Nat) (cs : List Char), start ≤ offset → offset + byteLength cs ≤ stop →
      charsBetween start stop offset cs = cs := by
    intro start stop offset cs hstart hstop
    induction cs generalizing offset with
    | nil => rfl
    | cons c cs ih =>
      have := c.utf8Size_pos
      rw [byteLength_cons] at hstop
      rw [charsBetween, if_pos (by omega), ih _ (by omega) (by omega)]
  rw [hpart, hpart, houtside _ _ _ before (by omega), hinside _ _ _ line (by omega) (by omega),
    houtside _ _ _ after (by omega), nil_append, append_nil]

namespace SourceText

variable (t : SourceText)

/-- The line that begins at `start`: the text from there to the next newline, or to its end. -/
def LineAt (start : Nat) (line : List Char) : Prop :=
  ∃ before after, t.text.toList = before ++ (line ++ after) ∧ start = byteLength before ∧ '\n' ∉ line ∧
    (after = [] ∨ ∃ rest, after = '\n' :: rest)

variable {t}

theorem isValid_of_append {before after : List Char} (h : t.text.toList = before ++ after) :
    String.Pos.Raw.IsValid t.text ⟨byteLength before⟩ := by
  refine String.Pos.Raw.isValid_iff_exists_append.2 ⟨String.ofList before, String.ofList after, ?_, ?_⟩
  · rw [← String.ofList_append, ← h, String.ofList_toList]
  · rw [String.rawEndPos, ← byteLength_toList, String.toList_ofList]

/-- The line with a given number, as the text has it and as it is shown. -/
theorem exists_line {n start : Nat} (h : t.starts[n]? = some start) :
    (String.Pos.Raw.IsValid t.text ⟨start⟩ ∧ String.Pos.Raw.IsValid t.text ⟨t.stop n⟩ ∧ start ≤ t.stop n) ∧
    ∃ line, t.LineAt start line ∧ t.line? (n + 1) = some (String.ofList (line.rdropWhile endsLine)) := by
  have hline : t.line? (n + 1) = some (String.ofList ((charsBetween start (t.stop n) 0 t.text.toList).rdropWhile endsLine)) := by
    rw [line?, if_neg (Nat.succ_ne_zero n), Nat.add_sub_cancel, h]
    rfl
  rw [t.starts_eq, lineStarts] at h
  obtain ⟨before, line, after, htext, hstart, hnew, hafter⟩ := exists_newlineEnds h
  rw [Nat.zero_add] at hstart
  have hstop : t.stop n = (newlineEnds 0 t.text.toList)[n]?.getD t.text.utf8ByteSize := by
    rw [stop, t.starts_eq, lineStarts, List.getElem?_cons_succ]
  rw [hline, hstop]
  rcases hafter with ⟨rfl, hend⟩ | ⟨rest, rfl, hend⟩
  · have hcut : t.text.toList = before ++ line ++ [] := by simp [htext]
    have hsize : t.text.utf8ByteSize = byteLength before + byteLength line := by
      rw [← byteLength_toList, hcut, append_nil, byteLength_append]
    have hvalid := isValid_of_append hcut
    rw [byteLength_append] at hvalid
    rw [hend, Option.getD_none, hstart, hsize]
    refine ⟨⟨isValid_of_append htext, hvalid, by omega⟩, line, ⟨before, [], htext, rfl, hnew, Or.inl rfl⟩, ?_⟩
    rw [htext, charsBetween_append]
  · have hcut : t.text.toList = before ++ (line ++ ['\n']) ++ rest := by simp [htext]
    have hsize : start + byteLength line + 1 = byteLength before + byteLength (line ++ ['\n']) := by
      rw [hstart, byteLength_append, Nat.add_assoc]
      rfl
    have hvalid := isValid_of_append hcut
    rw [byteLength_append] at hvalid
    rw [hend, Option.getD_some, hsize, hstart]
    refine ⟨⟨isValid_of_append htext, hvalid, by omega⟩, line,
      ⟨before, '\n' :: rest, htext, rfl, hnew, Or.inr ⟨rest, rfl⟩⟩, ?_⟩
    rw [hcut, append_assoc, charsBetween_append, rdropWhile_concat_pos _ _ _ rfl]

/-- The line of an offset is found by its number. -/
theorem starts_lineColumn (t : SourceText) (offset : Nat) : ∃ n start, t.starts[n]? = some start ∧ start ≤ offset ∧
    t.lineColumn offset = (n + 1, offset - start + 1) := by
  obtain ⟨hlt, htake⟩ := t.takeWhile_starts offset
  refine ⟨_, _, List.getElem?_eq_getElem hlt, ?_, ?_⟩
  · have hmem : t.starts[t.lineIndex offset] ∈ t.starts.take (t.lineIndex offset + 1) :=
      mem_iff_getElem?.2 ⟨_, by rw [List.getElem?_take_of_lt (Nat.lt_succ_self _), List.getElem?_eq_getElem hlt]⟩
    rw [← htake] at hmem
    simpa using mem_takeWhile_imp hmem
  · rw [lineColumn, List.getElem?_eq_getElem hlt]
    rfl

/-- Offsets, lines and columns correspond. The line of an offset is one more than the newlines before it, its column one
more than the bytes since the start of the line. A later offset is on a later line or at a later column. The line is
shown from its start to the next newline without what ends a line there, and every line is cut out of the text between
characters. -/
theorem offsets_correspond (t : SourceText) :
    (∀ offset ≤ t.text.utf8ByteSize, ∃ start line, StartsLastLine (t.bytes.take offset) start ∧
      t.lineColumn offset = (1 + (t.bytes.take offset).count newlineByte, 1 + (offset - start)) ∧ t.LineAt start line ∧
      t.line? (t.lineColumn offset).1 = some (String.ofList (line.rdropWhile endsLine))) ∧
    StrictMonoOn (fun offset => toLex (t.lineColumn offset)) (Set.Iic t.text.utf8ByteSize) ∧
    Set.InjOn t.lineColumn (Set.Iic t.text.utf8ByteSize) ∧
    ∀ n start, t.starts[n]? = some start → String.Pos.Raw.IsValid t.text ⟨start⟩ ∧
      String.Pos.Raw.IsValid t.text ⟨t.stop n⟩ ∧ start ≤ t.stop n := by
  have hmono : StrictMonoOn (fun offset => toLex (t.lineColumn offset)) (Set.Iic t.text.utf8ByteSize) := by
    intro a ha b hb hab
    have hsplit : t.bytes.take b = t.bytes.take a ++ (t.bytes.drop a).take (b - a) := by
      rw [← take_add, Nat.add_sub_cancel' (Nat.le_of_lt hab)]
    dsimp only
    rw [t.lineColumn_eq ha, t.lineColumn_eq hb, hsplit, caretAfter, caretAfter, foldl_append]
    cases hmore : (t.bytes.drop a).take (b - a) with
    | nil =>
      have hlen := congrArg List.length hmore
      rw [length_take, length_drop, length_bytes, length_nil] at hlen
      rw [Set.mem_Iic] at hb
      omega
    | cons byte more => exact (lt_caretStep _ byte).trans_le (le_foldl_caretStep _ more)
  refine ⟨fun offset hoffset => ?_, hmono, fun a ha b hb heq => hmono.injOn ha hb (congrArg toLex heq),
    fun n start h => (exists_line h).1⟩
  obtain ⟨start, hlast, hcaret⟩ := exists_caretAfter (t.bytes.take offset)
  obtain ⟨n, start', hget, hle, hplace⟩ := t.starts_lineColumn offset
  have hlength : (t.bytes.take offset).length = offset := by rw [length_take, length_bytes, Nat.min_eq_left hoffset]
  have hcolumn := hplace.symm.trans ((t.lineColumn_eq hoffset).trans hcaret)
  have hstart : start ≤ offset := hlength ▸ hlast.2.1
  rw [Prod.mk.injEq, hlength] at hcolumn
  obtain rfl : start' = start := by omega
  obtain ⟨line, hline, hshown⟩ := (exists_line hget).2
  refine ⟨start', line, hlast, ?_, hline, by rw [hplace, hshown]⟩
  rw [t.lineColumn_eq hoffset, hcaret, hlength]

/-- The character before the carriage return has two bytes, and the offset is behind the newline. -/
theorem offsets_correspond_return : ∃ t : SourceText, t.text = "é\r\nx" ∧ 4 ≤ t.text.utf8ByteSize ∧
    t.lineColumn 4 = (2, 1) ∧ ∃ start line, StartsLastLine (t.bytes.take 4) start ∧ t.LineAt start line ∧
      t.line? (t.lineColumn 4).1 = some (String.ofList (line.rdropWhile endsLine)) := by
  have hsize : 4 ≤ (⟨"a", "é\r\nx", _, rfl⟩ : SourceText).text.utf8ByteSize := by decide
  obtain ⟨start, line, hlast, _, hline, hshown⟩ := (offsets_correspond ⟨"a", "é\r\nx", _, rfl⟩).1 4 hsize
  exact ⟨_, rfl, hsize, by decide, start, line, hlast, hline, hshown⟩

end SourceText

end Hygiene
