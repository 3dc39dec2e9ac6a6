import Hygiene.Token.Reader
import Hygiene.Proofs.Token.Lexeme

/-!
# The steps of reading

`Reader.Took` says once what a step can do with the characters ahead: pass over trivia, take an atom, open a nest, or
close the innermost one. A property of the tokens read so far that every step keeps holds when the text has ended.
-/

namespace Hygiene

open List

@[simp] theorem byteLength_nil : byteLength [] = 0 := rfl

@[simp] theorem byteLength_cons (c : Char) (cs : List Char) : byteLength (c :: cs) = c.utf8Size + byteLength cs := by
  have shift : ∀ (cs : List Char) (n : Nat), cs.foldl (fun n c => n + c.utf8Size) n = n + byteLength cs := by
    intro cs
    induction cs with
    | nil => exact fun _ => rfl
    | cons d cs ih =>
      intro n
      unfold byteLength
      rw [foldl_cons, foldl_cons, ih, ih (0 + d.utf8Size)]
      omega
  unfold byteLength
  rw [foldl_cons, shift, Nat.zero_add]
  rfl

@[simp] theorem byteLength_append (cs ds : List Char) : byteLength (cs ++ ds) = byteLength cs + byteLength ds := by
  induction cs with
  | nil => simp
  | cons c cs ih => simp [ih, Nat.add_assoc]

/-- Every character takes at least one byte. -/
theorem byteLength_pos {cs : List Char} (h : cs ≠ []) : 0 < byteLength cs := by
  cases cs with
  | nil => exact absurd rfl h
  | cons c cs =>
    have := c.utf8Size_pos
    rw [byteLength_cons]
    omega

theorem Nest.byteLength_closeText (shape : Nest) : byteLength shape.closeText.toList = 1 := by
  match shape with
  | .group d => cases d <;> rfl
  | .template => rfl
  | .unquote => rfl

theorem Nest.length_closeText (shape : Nest) : shape.closeText.toList.length = 1 := by
  match shape with
  | .group d => cases d <;> rfl
  | .template => rfl
  | .unquote => rfl

/-- The text that opens a nest begins the characters, and a nest of this shape may be opened inside `around`. -/
structure Nest.Opens (shape : Nest) (around : Option Nest) (inTemplate : Bool) (cs : List Char) : Prop where
  text : shape.openText.toList <+: cs
  unquote : shape = .unquote → inTemplate = true
  template : shape = .template → around ≠ some .template

namespace Reader

variable {trees : List (Tree Span)}

/-- What a step does with the characters ahead: which state it leads to, and how many characters it takes. -/
inductive Took (s : ReaderState) (offset : Nat) (cs : List Char) : ReaderState → Nat → Prop where
  | trivia {n : Nat} (read : Lexeme.triviaLength? cs = some n) : Took s offset cs s n
  | atom {n : Nat} {a : Atom} (starts : Lexeme.Starts cs n a) :
      Took s offset cs (s.push (.atom ⟨offset, offset + byteLength (cs.take n)⟩ a)) n
  | opened {shape : Nest} (opens : shape.Opens s.shape? s.inTemplate cs) :
      Took s offset cs (s.openNest shape offset) shape.openText.length
  | closed {nest : OpenNest} {around : List OpenNest} (nests : s.openNests = nest :: around)
      (text : nest.shape.closeText.toList <+: cs) : Took s offset cs (s.closeNest (offset + 1)) 1

variable {s s' : ReaderState} {offset n : Nat} {c : Char} {rest : List Char}

/-- A closing delimiter closes a group that it belongs to, or an unquote. -/
theorem took_of_close (h : close s offset c = .ok (s', n)) : Took s offset (c :: rest) s' n := by
  unfold close ReaderState.shape? at h
  cases hnests : s.openNests with
  | nil =>
    rw [hnests] at h
    cases h
  | cons nest around =>
    rw [hnests] at h
    dsimp only [List.head?_cons, Option.map_some] at h
    cases hshape : nest.shape with
    | group d =>
      rw [hshape] at h
      dsimp only at h
      split at h <;> cases h
      next hcloses =>
      refine .closed hnests ?_
      rw [hshape, ← of_decide_eq_true hcloses]
      simp [Nest.closeText]
    | template =>
      rw [hshape] at h
      cases h
    | unquote =>
      rw [hshape] at h
      dsimp only at h
      split at h <;> cases h
      next hcloses =>
      refine .closed hnests ?_
      rw [hshape, of_decide_eq_true hcloses]
      simp [Nest.closeText]

theorem took_of_string {quote : Char} (hquote : quote = '"' ∨ quote = '\'')
    (h : string s offset (quote :: rest) = .ok (s', n)) : Took s offset (quote :: rest) s' n := by
  unfold string at h
  split at h
  · next hread =>
    cases h
    exact .atom (.str rfl hquote hread)
  · cases h

theorem took_of_number {cs : List Char} (hstarts : Lexeme.startsNumber cs = true)
    (h : number s offset cs = .ok (s', n)) : Took s offset cs s' n := by
  unfold number at h
  dsimp only at h
  split at h
  · next hread =>
    cases h
    exact .atom (.number hstarts hread)
  · cases h

theorem opener_of_ofOpener? {d : Delimiter} (h : Delimiter.ofOpener? c = some d) : c = d.opener := by
  unfold Delimiter.ofOpener? at h
  split at h
  · cases h
    assumption
  split at h
  · cases h
    assumption
  split at h
  · cases h
    assumption
  · cases h

/-- A token is an atom, opens a nest, or closes the innermost one. -/
theorem took_of_token (h : token s offset c rest = .ok (s', n)) : Took s offset (c :: rest) s' n := by
  unfold token at h
  dsimp only at h
  split at h
  · exact took_of_close h
  split at h
  · next d hopener =>
    cases h
    have hlength : (Nest.group d).openText.length = 1 := by cases d <;> rfl
    rw [← hlength]
    exact .opened ⟨by simp [Nest.openText, opener_of_ofOpener? hopener], nofun, nofun⟩
  split at h
  · next hbacktick =>
    subst hbacktick
    split at h
    · next hshape =>
      cases h
      unfold ReaderState.shape? at hshape
      obtain ⟨nest, hnest, hshape⟩ := Option.map_eq_some_iff.1 hshape
      obtain ⟨around, hnests⟩ := List.head?_eq_some_iff.1 hnest
      refine .closed hnests ?_
      rw [hshape]
      simp [Nest.closeText]
    · next hshape =>
      cases h
      exact @Took.opened _ _ _ .template ⟨by simp [Nest.openText], nofun, fun _ => hshape⟩
  split at h
  · next hunquote =>
    obtain ⟨rfl, htemplate, hbrace⟩ := hunquote
    cases h
    obtain ⟨rest, rfl⟩ := List.head?_eq_some_iff.1 hbrace
    exact @Took.opened _ _ _ .unquote ⟨by simp [Nest.openText], fun _ => htemplate, nofun⟩
  split at h
  · next hquote => exact took_of_string hquote h
  split at h
  · next hstarts => exact took_of_number hstarts h
  split at h
  · next hstarts =>
    cases h
    exact .atom (.ident rfl hstarts)
  split at h
  · next hread =>
    cases h
    exact .atom (.punct hread)
  · cases h

/-- A step passes over trivia or reads a token. -/
theorem took_of_step (h : step s offset c rest = .ok (s', n)) : Took s offset (c :: rest) s' n := by
  unfold step at h
  split at h
  · next hread =>
    cases h
    exact .trivia hread
  split at h
  · cases h
  · exact took_of_token h

/-- The characters that belong to a lexeme already read are passed over. -/
theorem walk_pending (pending offset : Nat) (s : ReaderState) (cs : List Char) :
    walk pending offset s cs = walk 0 (offset + byteLength (cs.take pending)) s (cs.drop pending) := by
  induction cs generalizing pending offset with
  | nil => cases pending <;> simp [walk]
  | cons c cs ih =>
    cases pending with
    | zero => simp
    | succ pending =>
      rw [walk, ih, take_succ_cons, drop_succ_cons, byteLength_cons, Nat.add_assoc]

/-- A step takes at least one character. -/
theorem Took.pos {cs : List Char} (h : Took s offset cs s' n) : 0 < n := by
  cases h with
  | trivia read => exact (Lexeme.trivia_of_triviaLength? read).1
  | atom starts => exact Nat.pos_of_ne_zero fun hzero => starts.spells.1 (by rw [hzero, take_zero])
  | opened _ =>
    next shape _ =>
    match shape with
    | .group d => cases d <;> exact Nat.one_pos
    | .template => exact Nat.one_pos
    | .unquote => exact Nat.two_pos
  | closed _ _ => exact Nat.one_pos

/-- Where a step succeeds, the walk goes on behind the characters that it takes. -/
theorem walk_of_step (h : step s offset c rest = .ok (s', n)) :
    walk 0 offset s (c :: rest) = walk 0 (offset + byteLength ((c :: rest).take n)) s' ((c :: rest).drop n) := by
  obtain ⟨m, rfl⟩ : ∃ m, n = m + 1 := Nat.exists_eq_succ_of_ne_zero (Nat.ne_of_gt (took_of_step h).pos)
  rw [walk, h]
  dsimp only
  rw [Nat.add_sub_cancel, walk_pending, take_succ_cons, drop_succ_cons, byteLength_cons, Nat.add_assoc]

theorem finish_eq_ok (h : s.finish offset = .ok trees) : s.openNests = [] ∧ trees = s.current.reverse := by
  unfold ReaderState.finish at h
  split at h
  · next hnests =>
    cases h
    exact ⟨hnests, rfl⟩
  · split at h <;> cases h

/-- A property of what has been read of a text that holds at its start, and that every step keeps, holds at its end. -/
theorem walk_invariant (text : List Char) (I : List Char → ReaderState → Prop) (start : I [] {})
    (keep : ∀ {done cs : List Char} {s s' : ReaderState} {n : Nat}, text = done ++ cs → I done s →
      Took s (byteLength done) cs s' n → I (done ++ cs.take n) s')
    (h : walk 0 0 {} text = .ok trees) : ∃ s, I text s ∧ s.openNests = [] ∧ trees = s.current.reverse := by
  have go : ∀ (size : Nat) (done cs : List Char) (s : ReaderState), cs.length < size → text = done ++ cs → I done s →
      walk 0 (byteLength done) s cs = .ok trees → ∃ s, I text s ∧ s.openNests = [] ∧ trees = s.current.reverse := by
    intro size
    induction size with
    | zero => exact fun _ _ _ hsize => absurd hsize (Nat.not_lt_zero _)
    | succ size ih =>
      intro done cs s hsize htext hI hwalk
      cases cs with
      | nil =>
        rw [append_nil] at htext
        exact ⟨s, htext ▸ hI, finish_eq_ok hwalk⟩
      | cons c rest =>
        cases hstep : step s (byteLength done) c rest with
        | error e =>
          rw [walk, hstep] at hwalk
          cases hwalk
        | ok r =>
          obtain ⟨s', n⟩ := r
          have htook := took_of_step hstep
          rw [walk_of_step hstep, ← byteLength_append] at hwalk
          refine ih _ _ s' ?_ ?_ (keep htext hI htook) hwalk
          · have := htook.pos
            simp only [length_drop, length_cons] at hsize ⊢
            omega
          · rw [append_assoc, take_append_drop, htext]
  exact go (text.length + 1) [] text {} (Nat.lt_succ_self _) rfl start h

end Reader

end Hygiene
