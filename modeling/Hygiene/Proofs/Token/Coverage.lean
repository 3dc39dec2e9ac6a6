import Hygiene.Proofs.Token.Walk

/-!
# Reading loses nothing

The tokens at one depth stand in order, inside the delimiters around them; and between them is blank space and complete
comments.
-/

namespace Hygiene

open List

/-- The characters at a span of a text. Both ends of the span lie between characters. -/
def Span.Holds (text : List Char) (span : Span) (cs : List Char) : Prop :=
  ∃ before after, text = before ++ cs ++ after ∧ byteLength before = span.start ∧ byteLength (before ++ cs) = span.stop

/-- Between two offsets of a text there are only blank space and complete comments. -/
def Gap (text : List Char) (start stop : Nat) : Prop :=
  ∃ before gap after, text = before ++ gap ++ after ∧ byteLength before = start ∧ byteLength (before ++ gap) = stop ∧
    Trivia gap after

/-- The text of a token: what spells an atom, and what begins and ends with the delimiters of a nest. -/
def Tree.Shows {α : Type} : Tree α → List Char → Prop
  | .atom _ a, cs => a.Spells cs
  | .nest _ shape _, cs => ∃ inner, cs = shape.openText.toList ++ inner ++ shape.closeText.toList

/-- Before, between and after the tokens there are only blank space and complete comments. -/
def Tree.Gaps (text : List Char) : Nat → Nat → List (Tree Span) → Prop
  | start, stop, [] => Gap text start stop
  | start, stop, t :: ts => Gap text start t.note.start ∧ Gaps text t.note.stop stop ts

/-- Tokens at one depth account for the text between two offsets. -/
structure Tree.Accounted (text : List Char) (start stop : Nat) (ts : List (Tree Span)) : Prop where
  within : ∀ t ∈ ts, start ≤ t.note.start ∧ t.note.start < t.note.stop ∧ t.note.stop ≤ stop
  ordered : ts.Pairwise fun t u => t.note.stop ≤ u.note.start
  shown : ∀ t ∈ ts, ∃ cs, t.note.Holds text cs ∧ t.Shows cs
  gaps : Gaps text start stop ts

/-- Inside tokens between two offsets there are tokens at every depth: they themselves, and inside the parts of a nest,
which stand between its delimiters. -/
inductive Tree.Inside : Nat → Nat → List (Tree Span) → Nat → Nat → List (Tree Span) → Prop where
  | all (start stop : Nat) (ts : List (Tree Span)) : Inside start stop ts start stop ts
  | parts {start stop start' stop' : Nat} {ts us children : List (Tree Span)} {span : Span} {shape : Nest} :
      .nest span shape children ∈ ts →
        Inside (span.start + byteLength shape.openText.toList) (span.stop - byteLength shape.closeText.toList) children
          start' stop' us → Inside start stop ts start' stop' us

variable {text : List Char}

/-! ### Prefixes of a text -/

theorem prefix_of_byteLength_le {before done : List Char} (h : before <+: text) (h' : done <+: text)
    (hle : byteLength before ≤ byteLength done) : before <+: done := by
  rcases prefix_or_prefix_of_prefix h h' with hpre | ⟨more, rfl⟩
  · exact hpre
  · cases more with
    | nil => exact ⟨[], by simp⟩
    | cons c more =>
      have := byteLength_pos (cons_ne_nil c more)
      rw [byteLength_append] at hle
      omega

theorem eq_of_byteLength_eq {before done : List Char} (h : before <+: text) (h' : done <+: text)
    (heq : byteLength before = byteLength done) : before = done := by
  refine (prefix_of_byteLength_le h h' (Nat.le_of_eq heq)).eq_of_length_le ?_
  exact (prefix_of_byteLength_le h' h (Nat.le_of_eq heq.symm)).length_le

namespace Gap

variable {a b c : Nat}

theorem le (h : Gap text a b) : a ≤ b := by
  obtain ⟨before, gap, _, _, rfl, rfl, _⟩ := h
  rw [byteLength_append]
  omega

/-- There is nothing between a place and itself. -/
theorem self {done cs : List Char} (htext : text = done ++ cs) : Gap text (byteLength done) (byteLength done) :=
  ⟨done, [], cs, by rw [htext, append_nil], rfl, by rw [append_nil], .nil cs⟩

theorem trans (h : Gap text a b) (h' : Gap text b c) : Gap text a c := by
  obtain ⟨before, gap, after, htext, hstart, hstop, htrivia⟩ := h
  obtain ⟨before', gap', after', htext', hstart', hstop', htrivia'⟩ := h'
  obtain rfl : before ++ gap = before' :=
    eq_of_byteLength_eq ⟨after, htext.symm⟩ ⟨gap' ++ after', by rw [← append_assoc, htext']⟩
      (hstop.trans hstart'.symm)
  obtain rfl : after = gap' ++ after' := by
    rw [htext, append_assoc _ gap'] at htext'
    exact append_cancel_left htext'
  refine ⟨before, gap ++ gap', after', ?_, hstart, ?_, htrivia.append htrivia'⟩
  · rw [htext']
    simp only [append_assoc]
  · rw [← append_assoc, hstop']

end Gap

/-! ### Tokens are added at the end -/

namespace Tree

variable {a b c : Nat} {ts : List (Tree Span)}

theorem Gaps.extend (h : Gaps text a b ts) (h' : Gap text b c) : Gaps text a c ts := by
  induction ts generalizing a with
  | nil => exact Gap.trans h h'
  | cons t ts ih => exact ⟨h.1, ih h.2⟩

theorem Gaps.snoc {t : Tree Span} (h : Gaps text a t.note.start ts) (h' : Gap text t.note.stop t.note.stop) :
    Gaps text a t.note.stop (ts ++ [t]) := by
  induction ts generalizing a with
  | nil => exact ⟨h, h'⟩
  | cons u ts ih => exact ⟨h.1, ih h.2⟩

theorem Gaps.le (h : Gaps text a b ts) (hts : ∀ t ∈ ts, t.note.start < t.note.stop) : a ≤ b := by
  induction ts generalizing a with
  | nil => exact Gap.le h
  | cons t ts ih =>
    have := h.1.le
    have := hts t mem_cons_self
    have := ih h.2 fun u hu => hts u (mem_cons_of_mem _ hu)
    omega

theorem Accounted.le (h : Accounted text a b ts) : a ≤ b := h.gaps.le fun t ht => (h.within t ht).2.1

theorem Accounted.nil (h : Gap text a a) : Accounted text a a [] := ⟨nofun, .nil, nofun, h⟩

theorem Accounted.extend (h : Accounted text a b ts) (h' : Gap text b c) : Accounted text a c ts where
  within t ht := by
    have := h.within t ht
    have := h'.le
    omega
  ordered := h.ordered
  shown := h.shown
  gaps := h.gaps.extend h'

theorem Accounted.snoc {t : Tree Span} {cs : List Char} (h : Accounted text a t.note.start ts) (hne : cs ≠ [])
    (hcs : t.note.Holds text cs) (hshows : t.Shows cs) : Accounted text a t.note.stop (ts ++ [t]) := by
  obtain ⟨before, after, htext, hstart, hstop⟩ := hcs
  have hlt : t.note.start < t.note.stop := by
    have := byteLength_pos hne
    rw [byteLength_append] at hstop
    omega
  have hle := h.le
  refine ⟨fun u hu => ?_, ?_, fun u hu => ?_, h.gaps.snoc (hstop ▸ Gap.self htext)⟩
  · rcases mem_append.1 hu with hu | hu
    · have := h.within u hu
      omega
    · rw [mem_singleton.1 hu]
      omega
  · refine pairwise_append.2 ⟨h.ordered, pairwise_singleton _ _, fun u hu v hv => ?_⟩
    rw [mem_singleton.1 hv]
    exact (h.within u hu).2.2
  · rcases mem_append.1 hu with hu | hu
    · exact h.shown u hu
    · rw [mem_singleton.1 hu]
      exact ⟨cs, ⟨before, after, htext, hstart, hstop⟩, hshows⟩

/-- The tokens account for the text between two offsets, and so do all tokens inside them. -/
def Covered (text : List Char) (a b : Nat) (ts : List (Tree Span)) : Prop :=
  ∀ a' b' us, Inside a b ts a' b' us → Accounted text a' b' us

theorem covered_iff : Covered text a b ts ↔ Accounted text a b ts ∧
    ∀ span shape children, .nest span shape children ∈ ts →
      Covered text (span.start + byteLength shape.openText.toList) (span.stop - byteLength shape.closeText.toList)
        children := by
  constructor
  · exact fun h => ⟨h _ _ _ (.all _ _ _), fun span shape children hmem _ _ _ hin => h _ _ _ (.parts hmem hin)⟩
  · rintro ⟨hts, hparts⟩ _ _ _ hin
    cases hin with
    | all => exact hts
    | parts hmem hin => exact hparts _ _ _ hmem _ _ _ hin

theorem Covered.nil (h : Gap text a a) : Covered text a a [] := covered_iff.2 ⟨.nil h, nofun⟩

theorem Covered.extend (h : Covered text a b ts) (h' : Gap text b c) : Covered text a c ts :=
  covered_iff.2 ⟨(covered_iff.1 h).1.extend h', (covered_iff.1 h).2⟩

theorem Covered.snoc_atom (span : Span) {atom : Atom} {cs : List Char} (h : Covered text a span.start ts)
    (hne : cs ≠ []) (hcs : span.Holds text cs) (hspells : atom.Spells cs) :
    Covered text a span.stop (ts ++ [.atom span atom]) := by
  obtain ⟨hts, hparts⟩ := covered_iff.1 h
  refine covered_iff.2 ⟨hts.snoc (t := .atom span atom) hne hcs hspells, fun span' shape children hmem => ?_⟩
  rcases mem_append.1 hmem with hmem | hmem
  · exact hparts span' shape children hmem
  · cases mem_singleton.1 hmem

theorem Covered.snoc_nest (span : Span) {shape : Nest} {children : List (Tree Span)} {inner : List Char}
    (h : Covered text a span.start ts)
    (hcs : span.Holds text (shape.openText.toList ++ inner ++ shape.closeText.toList))
    (hchildren : Covered text (span.start + byteLength shape.openText.toList)
      (span.stop - byteLength shape.closeText.toList) children) :
    Covered text a span.stop (ts ++ [.nest span shape children]) := by
  obtain ⟨hts, hparts⟩ := covered_iff.1 h
  have hne : shape.openText.toList ++ inner ++ shape.closeText.toList ≠ [] := by
    cases shape <;> simp [Nest.openText]
  refine covered_iff.2 ⟨hts.snoc (t := .nest span shape children) hne hcs ⟨inner, rfl⟩, ?_⟩
  intro span' shape' children' hmem
  rcases mem_append.1 hmem with hmem | hmem
  · exact hparts span' shape' children' hmem
  · cases mem_singleton.1 hmem
    exact hchildren

end Tree

/-! ### What has been read accounts for the text so far -/

namespace ReaderState

/-- The tokens read so far, and the nests that are open around them, account for the text up to an offset. -/
def Covers (text : List Char) (offset : Nat) : List (Tree Span) → List OpenNest → Prop
  | current, [] => Tree.Covered text 0 offset current.reverse
  | current, nest :: around =>
    Tree.Covered text (nest.start + byteLength nest.shape.openText.toList) offset current.reverse ∧
      (∃ before, before ++ nest.shape.openText.toList <+: text ∧ byteLength before = nest.start) ∧
      Covers text nest.start nest.before around

variable {offset offset' : Nat} {current current' : List (Tree Span)} {nests : List OpenNest}

/-- The tokens of the innermost open nest go on. -/
theorem Covers.advance (h : Covers text offset current nests)
    (hgo : ∀ a, Tree.Covered text a offset current.reverse → Tree.Covered text a offset' current'.reverse) :
    Covers text offset' current' nests := by
  cases nests with
  | nil => exact hgo 0 h
  | cons nest around => exact ⟨hgo _ h.1, h.2⟩

end ReaderState

namespace Reader

open ReaderState (Covers)

variable {s s' : ReaderState} {done cs : List Char} {n : Nat}

/-- Every step goes on accounting for the text. -/
theorem Took.covers (htext : text = done ++ cs) (h : Covers text (byteLength done) s.current s.openNests)
    (htook : Took s (byteLength done) cs s' n) :
    Covers text (byteLength (done ++ cs.take n)) s'.current s'.openNests := by
  have hsplit : text = done ++ cs.take n ++ cs.drop n := by rw [append_assoc, take_append_drop, htext]
  cases htook with
  | trivia read =>
    refine h.advance fun a hcovered => hcovered.extend ?_
    exact ⟨done, cs.take n, cs.drop n, hsplit, rfl, rfl, (Lexeme.trivia_of_triviaLength? read).2⟩
  | atom starts =>
    next a =>
    obtain ⟨hne, hspells⟩ := starts.spells
    refine h.advance fun start hcovered => ?_
    rw [ReaderState.push, reverse_cons, byteLength_append]
    refine hcovered.snoc_atom ⟨byteLength done, byteLength done + byteLength (cs.take n)⟩ hne ?_ hspells
    exact ⟨done, cs.drop n, hsplit, rfl, byteLength_append _ _⟩
  | opened opens =>
    next shape =>
    have htake : cs.take shape.openText.length = shape.openText.toList := by
      rw [← String.length_toList]
      exact (prefix_iff_eq_take.1 opens.text).symm
    rw [htake] at hsplit ⊢
    rw [byteLength_append]
    refine ⟨.nil ?_, ⟨done, ⟨_, hsplit.symm⟩, rfl⟩, h⟩
    rw [← byteLength_append]
    exact Gap.self hsplit
  | closed nests hclose =>
    next nest around =>
    rw [nests] at h
    obtain ⟨hinner, ⟨before, hopen, hstart⟩, houter⟩ := h
    have htake : cs.take 1 = nest.shape.closeText.toList := by
      rw [prefix_iff_eq_take.1 hclose, Nest.length_closeText]
    rw [htake] at hsplit ⊢
    have hle := (Tree.covered_iff.1 hinner).1.le
    rw [← hstart, ← byteLength_append] at hle
    obtain ⟨inner, rfl⟩ := prefix_of_byteLength_le hopen ⟨cs, htext.symm⟩ hle
    rw [ReaderState.closeNest, nests]
    refine houter.advance fun start hbefore => ?_
    rw [reverse_cons, byteLength_append _ nest.shape.closeText.toList, nest.shape.byteLength_closeText]
    have hholds : (Span.mk nest.start (byteLength (before ++ nest.shape.openText.toList ++ inner) + 1)).Holds text
        (nest.shape.openText.toList ++ inner ++ nest.shape.closeText.toList) := by
      refine ⟨before, cs.drop 1, ?_, hstart, ?_⟩
      · rw [hsplit]
        simp only [append_assoc]
      · simp only [byteLength_append, nest.shape.byteLength_closeText]
        omega
    refine hbefore.snoc_nest ⟨nest.start, _⟩ hholds ?_
    rw [nest.shape.byteLength_closeText, Nat.add_sub_cancel]
    exact hinner

end Reader

theorem read_covered {text : String} {trees : List (Tree Span)} (h : read text = .ok trees) :
    Tree.Covered text.toList 0 (byteLength text.toList) trees := by
  obtain ⟨s, hcovers, hnests, rfl⟩ := Reader.walk_invariant text.toList
    (fun done s => ReaderState.Covers text.toList (byteLength done) s.current s.openNests)
    (Tree.Covered.nil (@Gap.self _ [] _ rfl)) (fun htext hI htook => htook.covers htext hI) h
  rw [hnests] at hcovers
  exact hcovers

/-- The tokens of a text account for all of it, at every depth. -/
theorem read_accounted {text : String} {trees : List (Tree Span)} (h : read text = .ok trees) (start stop : Nat)
    (ts : List (Tree Span)) (hts : Tree.Inside 0 (byteLength text.toList) trees start stop ts) :
    Tree.Accounted text.toList start stop ts := read_covered h _ _ _ hts

/-- A comment with a character of two bytes, a group, and an unquote in a template. -/
theorem read_accounted_nested :
    read "f(/* é */ x, `$\x7by\x7d`) // end" = .ok [.atom ⟨0, 1⟩ (.ident "f"),
      .nest ⟨1, 21⟩ (.group .paren) [.atom ⟨11, 12⟩ (.ident "x"), .atom ⟨12, 13⟩ (.punct ","),
        .nest ⟨14, 20⟩ .template [.nest ⟨15, 19⟩ .unquote [.atom ⟨17, 18⟩ (.ident "y")]]]] ∧
      Tree.Accounted "f(/* é */ x, `$\x7by\x7d`) // end".toList 2 20
        [.atom ⟨11, 12⟩ (.ident "x"), .atom ⟨12, 13⟩ (.punct ","),
          .nest ⟨14, 20⟩ .template [.nest ⟨15, 19⟩ .unquote [.atom ⟨17, 18⟩ (.ident "y")]]] := by
  have hread : read "f(/* é */ x, `$\x7by\x7d`) // end" = .ok [.atom ⟨0, 1⟩ (.ident "f"),
      .nest ⟨1, 21⟩ (.group .paren) [.atom ⟨11, 12⟩ (.ident "x"), .atom ⟨12, 13⟩ (.punct ","),
        .nest ⟨14, 20⟩ .template [.nest ⟨15, 19⟩ .unquote [.atom ⟨17, 18⟩ (.ident "y")]]]] := rfl
  exact ⟨hread, read_accounted hread _ _ _ (.parts (mem_cons_of_mem _ mem_cons_self) (.all _ _ _))⟩

end Hygiene
