import Mathlib.Logic.Basic
import Hygiene.Proofs.Token.Piece
import Hygiene.Token.Reader

/-!
# The names in a text

The reader makes an identifier of the characters that a name may consist of, so every identifier of a text has such a
name.
-/

namespace Hygiene

open List

variable {trees : List (Tree Span)} {rest : List Char} {file : Nat} {p : Piece}

/-- If the atom is an identifier then its name has only characters of names, and if it is a number then its text is read
as its value. -/
def Atom.Spelled : Atom → Prop
  | .ident name => ∀ c ∈ name.toList, Lexeme.continuesName c = true
  | .number value raw => Number.readLiteral? raw.toList = some value
  | _ => True

namespace Tree

variable {α : Type}

mutual

/-- All identifiers in the tree are spelled. -/
def Spelled : Tree α → Prop
  | .atom _ a => a.Spelled
  | .nest _ _ children => SpelledAll children

/-- All identifiers in the trees are spelled. -/
def SpelledAll : List (Tree α) → Prop
  | [] => True
  | t :: ts => Spelled t ∧ SpelledAll ts

end

theorem spelledAll_iff {ts : List (Tree α)} : SpelledAll ts ↔ ∀ t ∈ ts, Spelled t := by
  induction ts with
  | nil => simp [SpelledAll]
  | cons t ts ih => simp [SpelledAll, ih]

theorem spelledAll_reverse {ts : List (Tree α)} : SpelledAll ts.reverse ↔ SpelledAll ts := by
  simp [spelledAll_iff]

end Tree

namespace ReaderState

/-- All identifiers read so far are spelled. -/
structure Spelled (s : ReaderState) : Prop where
  current : Tree.SpelledAll s.current
  before : ∀ nest ∈ s.openNests, Tree.SpelledAll nest.before

variable {s : ReaderState}

theorem Spelled.push (hs : s.Spelled) {t : Tree Span} (ht : t.Spelled) : (s.push t).Spelled := ⟨⟨ht, hs.current⟩, hs.before⟩

theorem Spelled.openNest (hs : s.Spelled) (shape : Nest) (start : Nat) : (s.openNest shape start).Spelled := by
  refine ⟨trivial, fun nest hnest => ?_⟩
  rcases mem_cons.1 hnest with rfl | hnest
  · exact hs.current
  · exact hs.before nest hnest

theorem Spelled.closeNest (hs : s.Spelled) (stop : Nat) : (s.closeNest stop).Spelled := by
  unfold ReaderState.closeNest
  split
  · exact hs
  · next nest rest heq =>
    have hmem : ∀ n ∈ nest :: rest, Tree.SpelledAll n.before := heq ▸ hs.before
    exact ⟨⟨Tree.spelledAll_reverse.2 hs.current, hmem nest mem_cons_self⟩,
      fun n hn => hmem n (mem_cons_of_mem _ hn)⟩

end ReaderState

namespace Lexeme

/-- A name goes on with the characters it may begin with. -/
theorem continuesName_of_startsName {c : Char} (h : startsName c = true) : continuesName c = true := by
  simp only [startsName, Bool.or_eq_true] at h
  simp only [continuesName, Bool.or_eq_true]
  rcases h with (h | h) | h <;> simp [h]

/-- The characters that the name at the start of a text takes are characters of names. -/
theorem continuesName_of_mem_take {c : Char} (h : startsName c = true) {x : Char}
    (hx : x ∈ (c :: rest).take (nameLength (c :: rest))) : continuesName x = true := by
  unfold nameLength at hx
  rw [Nat.add_comm, take_succ_cons, tail_cons, mem_cons] at hx
  rcases hx with rfl | hx
  · exact continuesName_of_startsName h
  · have hprefix : rest.takeWhile continuesName <+: rest := takeWhile_prefix _
    rw [← prefix_iff_eq_take.1 hprefix] at hx
    exact all_eq_true.1 all_takeWhile x hx

end Lexeme

namespace Reader

variable {s s' : ReaderState} {offset n : Nat} {c : Char} {cs : List Char}

/-- Reading a closing delimiter keeps identifiers spelled. -/
theorem spelled_close (hs : s.Spelled) (h : close s offset c = .ok (s', n)) : s'.Spelled := by
  unfold close at h
  dsimp only at h
  rcases ite_eq_iff.1 h with ⟨_, h⟩ | ⟨_, h⟩ <;> cases h
  exact hs.closeNest _

theorem spelled_string (hs : s.Spelled) (h : string s offset cs = .ok (s', n)) : s'.Spelled := by
  unfold string at h
  split at h
  · cases h
    exact hs.push trivial
  · cases h

theorem spelled_number (hs : s.Spelled) (h : number s offset cs = .ok (s', n)) : s'.Spelled := by
  unfold number at h
  dsimp only at h
  split at h
  · next value hvalue =>
    cases h
    refine hs.push ?_
    rw [← String.toList_ofList (l := cs.take _)] at hvalue
    exact hvalue
  · cases h

/-- Reading a token keeps identifiers spelled. -/
theorem spelled_token (hs : s.Spelled) (h : token s offset c rest = .ok (s', n)) : s'.Spelled := by
  unfold token at h
  dsimp only at h
  split at h
  · exact spelled_close hs h
  split at h
  · cases h
    exact hs.openNest _ _
  split at h
  · split at h <;> cases h
    · exact hs.closeNest _
    · exact hs.openNest _ _
  split at h
  · cases h
    exact hs.openNest _ _
  split at h
  · exact spelled_string hs h
  split at h
  · exact spelled_number hs h
  split at h
  · next hname =>
    cases h
    refine hs.push (t := .atom _ (.ident _)) fun x hx => ?_
    rw [String.toList_ofList] at hx
    exact Lexeme.continuesName_of_mem_take hname hx
  split at h <;> cases h
  exact hs.push trivial

theorem spelled_step (hs : s.Spelled) (h : step s offset c rest = .ok (s', n)) : s'.Spelled := by
  unfold step at h
  split at h
  · cases h
    exact hs
  · split at h
    · cases h
    · exact spelled_token hs h

/-- A text is walked over with all identifiers spelled. -/
theorem spelled_walk {pending : Nat} (hs : s.Spelled)
    (h : walk pending offset s cs = .ok trees) : Tree.SpelledAll trees := by
  induction cs generalizing pending offset s with
  | nil =>
    unfold walk ReaderState.finish at h
    split at h
    · cases h
      exact Tree.spelledAll_reverse.2 hs.current
    · split at h <;> cases h
  | cons c cs ih =>
    cases pending with
    | succ pending => exact ih hs h
    | zero =>
      unfold walk at h
      split at h
      · cases h
      · next hstep => exact ih (spelled_step hs hstep) h

end Reader

/-- Every identifier of a text has a name of characters of names. -/
theorem spelled_read {text : String} (h : read text = .ok trees) : Tree.SpelledAll trees :=
  Reader.spelled_walk (s := {}) ⟨trivial, fun _ hn => by cases hn⟩ h

/-- If the piece is an identifier then its name has only characters of names. -/
def Piece.Spelled (p : Piece) : Prop := ∀ name, p.name? = some name → ∀ c ∈ name.toList, Lexeme.continuesName c = true

/-- If the piece is a number then its text is read as its value. -/
def Piece.Denotes (p : Piece) : Prop :=
  ∀ value raw, p.label = .atom (.number value raw) → Number.readLiteral? raw.toList = some value

namespace Token

mutual

/-- A token of a text stands in that text, has no scopes and is spelled. -/
theorem mem_pieces_ofTree : (t : Tree Span) → t.Spelled → p ∈ pieces (ofTree file t) →
    (∃ span, p.mark = ⟨⟨some file, span⟩, .empty⟩) ∧ p.Spelled ∧ p.Denotes
  | .atom span a, hs, h => by
    simp only [ofTree, Tree.map, pieces, mem_singleton] at h
    subst h
    refine ⟨⟨span, rfl⟩, fun name hname => ?_, fun value raw hlabel => ?_⟩
    · cases a <;> cases hname
      exact hs
    · cases hlabel
      exact hs
  | .nest span shape children, hs, h => by
    simp only [ofTree, Tree.map, pieces, mem_cons] at h
    rcases h with rfl | h
    · exact ⟨⟨span, rfl⟩, nofun, nofun⟩
    · exact mem_pieces_mapAll children hs h

theorem mem_pieces_mapAll : (ts : List (Tree Span)) → Tree.SpelledAll ts →
    p ∈ piecesAll (Tree.mapAll (fun span => (⟨⟨some file, span⟩, .empty⟩ : Mark)) ts) →
      (∃ span, p.mark = ⟨⟨some file, span⟩, .empty⟩) ∧ p.Spelled ∧ p.Denotes
  | [], _, h => by cases h
  | t :: ts, hs, h => by
    simp only [Tree.mapAll, piecesAll, mem_append] at h
    rcases h with h | h
    · exact mem_pieces_ofTree t hs.1 h
    · exact mem_pieces_mapAll ts hs.2 h

end

theorem mem_piecesAll_ofTrees (hs : Tree.SpelledAll trees)
    (h : p ∈ piecesAll (ofTrees file trees)) : (∃ span, p.mark = ⟨⟨some file, span⟩, .empty⟩) ∧ p.Spelled ∧ p.Denotes := by
  obtain ⟨t, ht, hp⟩ := mem_piecesAll.1 h
  obtain ⟨tree, htree, rfl⟩ := mem_map.1 ht
  exact mem_pieces_ofTree tree (Tree.spelledAll_iff.1 hs tree htree) hp

end Token

end Hygiene
