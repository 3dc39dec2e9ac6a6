import Hygiene.Source.Text

/-!
# Places in texts

The line and the column of an offset are those of a caret that starts on the first column of the first line and moves
over the bytes before the offset: behind a newline to the beginning of the next line, behind any other byte one column
further. Looking up the offset in the starts of the lines gives the same. A site is within the texts when it is unknown
or its span is a range of bytes of a registered text; the locations of such sites are right.
-/

namespace Hygiene

open List

variable {bs : List UInt8} {l : Location} {offset : Nat} {name text : String}

/-- The byte of a newline. -/
def newlineByte : UInt8 := 10

/-- The caret, as line and column, after one more byte. -/
def caretStep (caret : Nat × Nat) (byte : UInt8) : Nat × Nat :=
  if byte = newlineByte then (caret.1 + 1, 1) else (caret.1, caret.2 + 1)

/-- The line and the column behind the bytes. -/
def caretAfter (bytes : List UInt8) : Nat × Nat := bytes.foldl caretStep (1, 1)

/-- The bytes of the text. -/
def SourceText.bytes (t : SourceText) : List UInt8 := t.text.toByteArray.data.toList

/-- The place lies in the text, and its line and column are those of its offset. -/
def Position.IsIn (t : SourceText) (p : Position) : Prop :=
  p.offset ≤ t.text.utf8ByteSize ∧ (p.line, p.column) = caretAfter (t.bytes.take p.offset)

/-- The location is a range of bytes of a registered text, and the lines and columns of its ends are right. -/
def Location.Within (sources : Sources) (l : Location) : Prop :=
  ∃ t, sources.text? l.file = some t ∧ l.start.offset ≤ l.stop.offset ∧ l.start.IsIn t ∧ l.stop.IsIn t

/-- The span is a range of the first `size` bytes. -/
def Span.Fits (size : Nat) (span : Span) : Prop := span.start ≤ span.stop ∧ span.stop ≤ size

/-- The site is unknown, or it is a range of bytes of a registered text. -/
def Site.Within (sources : Sources) (site : Site) : Prop :=
  ∀ file, site.file = some file → ∃ t, sources.text? file = some t ∧ site.span.Fits t.text.utf8ByteSize

/-! ### Newlines among the bytes -/

/-- The offsets behind the newlines of bytes that begin at `offset`. -/
def newlineOffsets (offset : Nat) : List UInt8 → List Nat
  | [] => []
  | b :: bs => if b = newlineByte then (offset + 1) :: newlineOffsets (offset + 1) bs else newlineOffsets (offset + 1) bs

theorem lt_of_mem_newlineOffsets {n : Nat} (h : n ∈ newlineOffsets offset bs) : offset < n := by
  induction bs generalizing offset with
  | nil => cases h
  | cons b bs ih =>
    rw [newlineOffsets] at h
    split at h
    · rcases mem_cons.1 h with rfl | h
      · exact Nat.lt_succ_self _
      · exact Nat.lt_of_succ_lt (ih h)
    · exact Nat.lt_of_succ_lt (ih h)

theorem pairwise_newlineOffsets (offset : Nat) (bs : List UInt8) : (newlineOffsets offset bs).Pairwise (· < ·) := by
  induction bs generalizing offset with
  | nil => exact .nil
  | cons b bs ih =>
    rw [newlineOffsets]
    split
    · exact pairwise_cons.2 ⟨fun _ h => lt_of_mem_newlineOffsets h, ih _⟩
    · exact ih _

theorem newlineOffsets_append_of_not_mem (h : newlineByte ∉ bs) (offset : Nat) (rest : List UInt8) :
    newlineOffsets offset (bs ++ rest) = newlineOffsets (offset + bs.length) rest := by
  induction bs generalizing offset with
  | nil => rfl
  | cons b bs ih =>
    obtain ⟨hb, hbs⟩ := not_or.1 (mt mem_cons.2 h)
    rw [cons_append, newlineOffsets, if_neg (Ne.symm hb), ih hbs, length_cons]
    congr 1
    omega

/-- No byte of another character is the byte of a newline. -/
theorem newlineByte_not_mem {c : Char} (h : c ≠ '\n') : newlineByte ∉ String.utf8EncodeChar c := by
  have hval : c.val.toNat ≠ 10 := fun hc => h (Char.ext (UInt32.toNat.inj hc))
  have byte {n : Nat} (hlt : n < 256) (hne : n ≠ 10) : newlineByte ≠ UInt8.ofNat n := fun heq => hne (by
    have := congrArg UInt8.toNat heq
    rw [UInt8.toNat_ofNat', Nat.mod_eq_of_lt hlt] at this
    exact this.symm)
  unfold String.utf8EncodeChar
  dsimp only
  split
  · exact mt mem_singleton.1 (byte (by omega) hval)
  · split
    · simp only [mem_cons, not_mem_nil, or_false, not_or]
      exact ⟨byte (by omega) (by omega), byte (by omega) (by omega)⟩
    · split
      · simp only [mem_cons, not_mem_nil, or_false, not_or]
        exact ⟨byte (by omega) (by omega), byte (by omega) (by omega), byte (by omega) (by omega)⟩
      · simp only [mem_cons, not_mem_nil, or_false, not_or]
        exact ⟨byte (by omega) (by omega), byte (by omega) (by omega), byte (by omega) (by omega),
          byte (by omega) (by omega)⟩

theorem newlineEnds_eq (offset : Nat) (cs : List Char) :
    newlineEnds offset cs = newlineOffsets offset (cs.flatMap String.utf8EncodeChar) := by
  induction cs generalizing offset with
  | nil => rfl
  | cons c cs ih =>
    rw [newlineEnds, flatMap_cons, ih]
    split
    · next h =>
      subst h
      rfl
    · next h => rw [newlineOffsets_append_of_not_mem (newlineByte_not_mem h), String.length_utf8EncodeChar]

namespace SourceText

variable (t : SourceText)

theorem starts_eq_newlineOffsets : t.starts = 0 :: newlineOffsets 0 t.bytes := by
  have hbytes : t.bytes = t.text.toList.flatMap String.utf8EncodeChar := by
    rw [bytes, ← String.utf8Encode_toList, List.utf8Encode]
    simp
  rw [t.starts_eq, lineStarts, newlineEnds_eq, hbytes]

/-- The lines that begin up to an offset are those up to the line of the offset. -/
theorem takeWhile_starts (offset : Nat) : t.lineIndex offset < t.starts.length ∧
    t.starts.takeWhile (· ≤ offset) = t.starts.take (t.lineIndex offset + 1) := by
  have hstarts := t.starts_eq_newlineOffsets
  have hincreasing : t.starts.Pairwise (· < ·) := by
    rw [hstarts]
    exact pairwise_cons.2 ⟨fun _ h => Nat.zero_lt_of_lt (lt_of_mem_newlineOffsets h), pairwise_newlineOffsets _ _⟩
  have htakeWhile {n : Nat} (hbelow : ∀ y ∈ t.starts.take n, y ≤ offset) (habove : ∀ y ∈ t.starts.drop n, offset < y) :
      t.starts.takeWhile (· ≤ offset) = t.starts.take n := by
    have hfront : (t.starts.take n ++ t.starts.drop n).takeWhile (· ≤ offset) = t.starts.take n := by
      rw [takeWhile_append_of_pos (by simpa using hbelow)]
      cases hdrop : t.starts.drop n with
      | nil => simp
      | cons y ys => simp [habove y (hdrop ▸ mem_cons_self)]
    rwa [take_append_drop] at hfront
  have hfound := sought_binarySearch (x := offset) hincreasing
  rw [lineIndex]
  cases hplace : binarySearch t.starts offset with
  | ok i =>
    rw [hplace] at hfound
    obtain ⟨hlt, rfl⟩ := List.getElem?_eq_some_iff.1 hfound
    have hsplit := pairwise_append.1 ((t.starts.take_append_drop i).symm ▸ hincreasing)
    rw [drop_eq_getElem_cons hlt] at hsplit
    refine ⟨hlt, htakeWhile (fun y hy => ?_) (pairwise_cons.1 hsplit.2.1).1⟩
    rw [take_add_one, List.getElem?_eq_getElem hlt] at hy
    rcases mem_append.1 hy with hy | hy
    · exact Nat.le_of_lt (hsplit.2.2 y hy _ mem_cons_self)
    · exact Nat.le_of_eq (mem_singleton.1 hy)
  | error i =>
    rw [hplace] at hfound
    obtain ⟨hlength, hbelow, habove⟩ := hfound
    have hpos : 0 < i := by
      refine Nat.pos_of_ne_zero fun hzero => ?_
      rw [hzero, hstarts] at habove
      exact absurd (habove 0 mem_cons_self) (Nat.not_lt_zero _)
    dsimp only
    rw [Nat.sub_add_cancel hpos]
    exact ⟨by omega, htakeWhile (fun y hy => Nat.le_of_lt (hbelow y hy)) habove⟩

/-- The line of an offset begins at the last start of a line that is not behind the offset. -/
theorem lineColumn_eq_takeWhile (offset : Nat) : t.lineColumn offset =
    ((t.starts.takeWhile (· ≤ offset)).length, offset - (t.starts.takeWhile (· ≤ offset)).getLast?.getD 0 + 1) := by
  obtain ⟨hlt, htake⟩ := t.takeWhile_starts offset
  have hlength : (t.starts.take (t.lineIndex offset + 1)).length = t.lineIndex offset + 1 := by
    rw [length_take]
    omega
  rw [lineColumn, htake, hlength, List.getLast?_eq_getElem?, hlength, Nat.add_sub_cancel, List.getElem?_take_of_lt (by omega)]

theorem length_bytes : t.bytes.length = t.text.utf8ByteSize := by
  rw [bytes, Array.length_toList]
  rfl

end SourceText

/-- The caret moves over bytes that begin at `offset`, on a line that begins at `start`: the newlines it has passed
count its lines, and the last is where its line begins. -/
theorem foldl_caretStep (bs : List UInt8) (n offset start line : Nat) (hs : start ≤ offset) (hn : n ≤ bs.length) :
    (bs.take n).foldl caretStep (line, offset - start + 1) =
      (line + ((newlineOffsets offset bs).takeWhile (· ≤ offset + n)).length,
        offset + n - (((newlineOffsets offset bs).takeWhile (· ≤ offset + n)).getLast?.getD start) + 1) := by
  induction bs generalizing n offset start line with
  | nil =>
    obtain rfl : n = 0 := by simpa using hn
    rfl
  | cons b bs ih =>
    cases n with
    | zero =>
      have hnone : (newlineOffsets offset (b :: bs)).takeWhile (· ≤ offset + 0) = [] := by
        cases hl : newlineOffsets offset (b :: bs) with
        | nil => rfl
        | cons m ms =>
          have := lt_of_mem_newlineOffsets (hl ▸ mem_cons_self : m ∈ newlineOffsets offset (b :: bs))
          rw [takeWhile_cons_of_neg (by simpa using this)]
      rw [hnone]
      rfl
    | succ n =>
      have hn' : n ≤ bs.length := by simpa using hn
      have hsum : offset + (n + 1) = offset + 1 + n := by omega
      rw [take_succ_cons, foldl_cons, caretStep, newlineOffsets, hsum]
      split
      · have hstep := ih n (offset + 1) (offset + 1) (line + 1) (Nat.le_refl _) hn'
        rw [Nat.sub_self] at hstep
        rw [hstep, takeWhile_cons_of_pos (by simp), length_cons, List.getLast?_cons, Option.getD_some]
        congr 1
        omega
      · have hstep := ih n (offset + 1) start line (by omega) hn'
        rw [← hstep]
        congr 2
        omega

namespace SourceText

variable (t : SourceText)

/-- The line and the column that are looked up are those behind the bytes before the offset. -/
theorem lineColumn_eq (h : offset ≤ t.text.utf8ByteSize) :
    t.lineColumn offset = caretAfter (t.bytes.take offset) := by
  have hfold := foldl_caretStep t.bytes offset 0 0 1 (Nat.le_refl _) (by rwa [length_bytes])
  rw [caretAfter, hfold, lineColumn_eq_takeWhile, starts_eq_newlineOffsets, takeWhile_cons_of_pos (by simp)]
  simp only [Nat.zero_add, length_cons, List.getLast?_cons, Option.getD_some, Nat.add_comm 1]

theorem position_isIn (h : offset ≤ t.text.utf8ByteSize) : (t.position offset).IsIn t :=
  ⟨h, t.lineColumn_eq h⟩

end SourceText

/-- A character of two bytes before a newline: the caret counts bytes. -/
example : (SourceText.mk "a" "é\nx" _ rfl).lineColumn 4 = (2, 2) ∧ caretAfter [0xc3, 0xa9, 10, 0x78] = (2, 2) := by decide

/-! ### Sites within the texts -/

/-- More texts are registered, under later numbers. -/
def Sources.Extends (s s' : Sources) : Prop := s.texts <+: s'.texts

namespace Sources

variable {s s' s'' : Sources}

theorem Extends.refl (s : Sources) : s.Extends s := prefix_refl _

theorem Extends.trans (h : s.Extends s') (h' : s'.Extends s'') : s.Extends s'' := List.IsPrefix.trans h h'

theorem Extends.text? (h : s.Extends s') {file : Nat} {t : SourceText} (ht : s.text? file = some t) :
    s'.text? file = some t := by
  obtain ⟨more, hmore⟩ := h
  rw [Sources.text?, ← hmore, List.getElem?_append_left (List.getElem?_eq_some_iff.1 ht).1]
  exact ht

/-- Registering a text keeps the others. -/
theorem extends_add (s : Sources) (name text : String) : s.Extends (s.add name text).2 := by
  unfold add
  split
  · exact .refl s
  · exact prefix_append _ _

/-- Registering a text adds at most one of that name. -/
theorem eq_or_mem_of_mem_add {t : SourceText} (h : t ∈ (s.add name text).2.texts) :
    t.name = name ∨ t ∈ s.texts := by
  unfold add at h
  split at h
  · exact Or.inr h
  · rcases mem_append.1 h with h | h
    · exact Or.inr h
    · rw [mem_singleton.1 h]
      exact Or.inl rfl

/-- A text that is registered under a new name is found under its number. -/
theorem text?_add (h : name ∉ s.texts.map (·.name)) :
    ∃ t, (s.add name text).2.text? (s.add name text).1 = some t ∧ t.text = text := by
  have hfind : s.find? name = none := by
    rw [find?, s.indexed, List.findIdx?_eq_none_iff]
    intro t ht
    exact decide_eq_false fun hname => h (mem_map.2 ⟨t, ht, hname⟩)
  refine ⟨{ name, text }, ?_, rfl⟩
  unfold add
  split
  · next hsome =>
    rw [hfind] at hsome
    cases hsome
  · simp [text?]

end Sources

theorem Location.Within.mono {s s' : Sources} (h : s.Extends s') (hl : l.Within s) : l.Within s' := by
  obtain ⟨t, ht, hrest⟩ := hl
  exact ⟨t, h.text? ht, hrest⟩

namespace Site

variable {s s' : Sources} {a b : Site}

theorem within_unknown : unknown.Within s := nofun

theorem Within.mono (h : s.Extends s') (ha : a.Within s) : a.Within s' := by
  intro file hfile
  obtain ⟨t, ht, hspan⟩ := ha file hfile
  exact ⟨t, h.text? ht, hspan⟩

/-- The site that covers two sites is within the texts. -/
theorem Within.cover (ha : a.Within s) (hb : b.Within s) : (a.cover b).Within s := by
  unfold Site.cover
  split
  · next hfile =>
    intro file hf
    obtain ⟨t, ht, hstart, hstop⟩ := ha file hf
    obtain ⟨t', ht', hstart', hstop'⟩ := hb file (hfile ▸ hf)
    obtain rfl : t = t' := Option.some.inj (ht.symm.trans ht')
    refine ⟨t, ht, ?_, ?_⟩ <;> simp only [Span.merge] at * <;> omega
  · exact ha

/-- The location of a site within the texts is right. -/
theorem Within.locateSite (ha : a.Within s) (h : s.locateSite a = some l) : l.Within s := by
  obtain ⟨file, hfile, hlocate⟩ := Option.bind_eq_some_iff.1 h
  obtain ⟨t, ht, rfl⟩ := Option.map_eq_some_iff.1 hlocate
  obtain ⟨t', ht', hstart, hstop⟩ := ha file hfile
  obtain rfl : t = t' := Option.some.inj (ht.symm.trans ht')
  exact ⟨t, ht, hstart, t.position_isIn (Nat.le_trans hstart hstop), t.position_isIn hstop⟩

end Site

end Hygiene
