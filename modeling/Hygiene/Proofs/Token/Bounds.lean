import Hygiene.Proofs.Source.Position
import Hygiene.Proofs.Token.Coverage
import Hygiene.Proofs.Token.Spelling

/-!
# Spans lie in the text

Whether a text can be read or not, the spans of its tokens and of the fault are ranges of its bytes.
-/

namespace Hygiene

open List

variable {text : String} {trees : List (Tree Span)}

theorem byteLength_toList (text : String) : byteLength text.toList = text.utf8ByteSize := by
  have hchars : ∀ cs : List Char, byteLength cs = (cs.flatMap String.utf8EncodeChar).length := by
    intro cs
    induction cs with
    | nil => rfl
    | cons c cs ih => rw [byteLength_cons, flatMap_cons, List.length_append, String.length_utf8EncodeChar, ih]
  rw [hchars, ← String.size_toByteArray, ← String.utf8Encode_toList, List.utf8Encode, size_toByteArray]

theorem byteLength_le_of_prefix {before text : List Char} (h : before <+: text) : byteLength before ≤ byteLength text := by
  obtain ⟨after, rfl⟩ := h
  rw [byteLength_append]
  exact Nat.le_add_right _ _

/-! ### The spans of tokens -/

namespace Token

mutual

/-- The pieces of a token with a span among the first bytes, whose parts are accounted for, stand among them. -/
theorem fits_pieces (text : List Char) {size file : Nat} : (t : Tree Span) → t.note.Fits size →
    (∀ span shape children, t = .nest span shape children →
      Tree.Covered text (span.start + byteLength shape.openText.toList) (span.stop - byteLength shape.closeText.toList)
        children) →
    ∀ p ∈ pieces (ofTree file t), ∃ span : Span, p.mark.site = ⟨some file, span⟩ ∧ span.Fits size
  | .atom span a, hspan, _, p, hp => by
    simp only [ofTree, Tree.map, pieces, mem_singleton] at hp
    subst hp
    exact ⟨span, rfl, hspan⟩
  | .nest span shape children, hspan, hparts, p, hp => by
    simp only [ofTree, Tree.map, pieces, mem_cons] at hp
    rcases hp with rfl | hp
    · exact ⟨span, rfl, hspan⟩
    · have hcovered := Tree.covered_iff.1 (hparts span shape children rfl)
      refine fits_mapAll text children (fun t ht => ?_) (fun t ht => ?_) p hp
      · have := hcovered.1.within t ht
        have hstop : span.stop ≤ size := hspan.2
        exact ⟨by omega, by omega⟩
      · rintro inner shape' children' rfl
        exact hcovered.2 inner shape' children' ht

theorem fits_mapAll (text : List Char) {size file : Nat} : (ts : List (Tree Span)) → (∀ t ∈ ts, t.note.Fits size) →
    (∀ t ∈ ts, ∀ span shape children, t = .nest span shape children →
      Tree.Covered text (span.start + byteLength shape.openText.toList) (span.stop - byteLength shape.closeText.toList)
        children) →
    ∀ p ∈ piecesAll (Tree.mapAll (fun span => (⟨⟨some file, span⟩, .empty⟩ : Mark)) ts),
      ∃ span : Span, p.mark.site = ⟨some file, span⟩ ∧ span.Fits size
  | [], _, _, p, hp => by cases hp
  | t :: ts, hspans, hparts, p, hp => by
    obtain ⟨hspan, hspans⟩ := forall_mem_cons.1 hspans
    obtain ⟨hpart, hparts⟩ := forall_mem_cons.1 hparts
    simp only [Tree.mapAll, piecesAll, mem_append] at hp
    rcases hp with hp | hp
    · exact fits_pieces text t hspan hpart p hp
    · exact fits_mapAll text ts hspans hparts p hp

end

end Token

/-- The tokens of a text stand in it. -/
theorem read_fits (h : read text = .ok trees) (file : Nat) : ∀ p ∈ Token.piecesAll (Token.ofTrees file trees),
      ∃ span : Span, p.mark.site = ⟨some file, span⟩ ∧ span.Fits text.utf8ByteSize := by
  obtain ⟨s, hcovers, hnests, rfl⟩ := Reader.walk_invariant text.toList
    (fun done s => ReaderState.Covers text.toList (byteLength done) s.current s.openNests)
    (Tree.Covered.nil (@Gap.self _ [] _ rfl)) (fun htext hI htook => htook.covers htext hI) h
  rw [hnests] at hcovers
  obtain ⟨haccounted, hparts⟩ := Tree.covered_iff.1 hcovers
  intro p hp
  obtain ⟨t, ht, hp⟩ := Token.mem_piecesAll.1 hp
  obtain ⟨tree, htree, rfl⟩ := mem_map.1 ht
  refine Token.fits_pieces text.toList tree ?_ (fun span shape children heq => hparts span shape children (heq ▸ htree)) p hp
  have := haccounted.within tree htree
  rw [byteLength_toList] at this
  exact ⟨by omega, this.2.2⟩

/-! ### The spans of faults -/

namespace Reader

variable {s : ReaderState} {offset : Nat} {c : Char} {rest cs : List Char} {e : ReadError}

/-- The fault begins at the offset and lies among the characters ahead. -/
def FaultAhead (offset : Nat) (cs : List Char) (e : ReadError) : Prop :=
  ∃ n, e.span = ⟨offset, offset + n⟩ ∧ n ≤ byteLength cs

theorem FaultAhead.fits (h : FaultAhead offset cs e) : e.span.Fits (offset + byteLength cs) := by
  obtain ⟨n, hspan, hn⟩ := h
  rw [hspan]
  exact ⟨Nat.le_add_right _ _, Nat.add_le_add_left hn _⟩

theorem faultAhead_close (hc : c.utf8Size = 1) (h : close s offset c = .error e) : FaultAhead offset (c :: rest) e := by
  unfold close at h
  extract_lets closes at h
  split at h <;> cases h
  exact ⟨1, rfl, by rw [byteLength_cons]; omega⟩

theorem faultAhead_string (h : string s offset cs = .error e) : FaultAhead offset cs e := by
  unfold string at h
  split at h <;> cases h
  exact ⟨_, rfl, byteLength_le_of_prefix (List.takeWhile_prefix _)⟩

theorem faultAhead_number (h : number s offset cs = .error e) : FaultAhead offset cs e := by
  unfold number at h
  dsimp only at h
  split at h <;> cases h
  exact ⟨_, rfl, byteLength_le_of_prefix (List.take_prefix _ _)⟩

theorem faultAhead_token (h : token s offset c rest = .error e) : FaultAhead offset (c :: rest) e := by
  unfold token at h
  dsimp only at h
  split at h
  · next hc => exact faultAhead_close (by rcases hc with rfl | rfl | rfl <;> rfl) h
  split at h
  · cases h
  split at h
  · split at h <;> cases h
  split at h
  · cases h
  split at h
  · exact faultAhead_string h
  split at h
  · exact faultAhead_number h
  split at h
  · cases h
  split at h <;> cases h
  exact ⟨_, rfl, by rw [byteLength_cons]; omega⟩

theorem faultAhead_step (h : step s offset c rest = .error e) : FaultAhead offset (c :: rest) e := by
  unfold step at h
  split at h
  · cases h
  split at h
  · cases h
    exact ⟨_, rfl, Nat.le_refl _⟩
  · exact faultAhead_token h

/-- What a step does to the open nests: at most one more is open, and it begins at the offset. -/
theorem Took.start_lt {s' : ReaderState} {n : Nat} (htook : Took s offset (c :: rest) s' n)
    (hs : ∀ nest ∈ s.openNests, nest.start < offset) : ∀ nest ∈ s'.openNests, nest.start < offset + c.utf8Size := by
  have hpos := c.utf8Size_pos
  have hold : ∀ nest ∈ s.openNests, nest.start < offset + c.utf8Size := fun nest hn => by
    have := hs nest hn
    omega
  cases htook with
  | trivia => exact hold
  | atom => exact hold
  | opened => exact forall_mem_cons.2 ⟨by dsimp only; omega, hold⟩
  | closed nests =>
    rw [ReaderState.closeNest, nests]
    exact fun nest hn => hold nest (nests ▸ mem_cons_of_mem _ hn)

/-- A fault is found in the characters ahead, or in a nest that was opened before. -/
theorem fits_walk {pending : Nat} (hs : ∀ nest ∈ s.openNests, nest.start < offset)
    (h : walk pending offset s cs = .error e) : e.span.Fits (offset + byteLength cs) := by
  induction cs generalizing pending offset s with
  | nil =>
    unfold walk ReaderState.finish at h
    split at h
    · cases h
    · next nest around hnests =>
      have := hs nest (hnests ▸ mem_cons_self)
      split at h <;> cases h <;> exact ⟨by dsimp only; omega, by dsimp only [byteLength_nil]; omega⟩
  | cons c cs ih =>
    have hpos := c.utf8Size_pos
    rw [byteLength_cons, ← Nat.add_assoc]
    cases pending with
    | succ pending =>
      rw [walk] at h
      exact ih (fun nest hn => Nat.lt_add_right _ (hs nest hn)) h
    | zero =>
      rw [walk] at h
      cases hstep : step s offset c cs with
      | error e' =>
        rw [hstep] at h
        cases h
        have := (faultAhead_step hstep).fits
        rwa [byteLength_cons, ← Nat.add_assoc] at this
      | ok r =>
        rw [hstep] at h
        exact ih ((took_of_step hstep).start_lt hs) h

end Reader

/-- The fault of a text lies in it. -/
theorem read_error_fits {e : ReadError} (h : read text = .error e) : e.span.Fits text.utf8ByteSize := by
  have := Reader.fits_walk (s := {}) nofun h
  rwa [Nat.zero_add, byteLength_toList] at this

/-! ### The sites of a text that is registered -/

/-- The tokens of a module's text are within the texts. -/
theorem read_within {sources : Sources} {file : Nat} {t : SourceText}
    (h : read text = .ok trees) (ht : sources.text? file = some t) (htext : t.text = text) :
    ∀ p ∈ Token.piecesAll (Token.ofTrees file trees), p.mark.site.Within sources := by
  intro p hp
  obtain ⟨span, hsite, hfits⟩ := read_fits h file p hp
  rw [hsite]
  rintro _ ⟨⟩
  exact ⟨t, ht, htext ▸ hfits⟩

end Hygiene
