import Mathlib
import Hygiene.Proofs.Token.Literal
import Hygiene.Proofs.Token.Walk

/-!
# Reading what was written

Tokens are written with a space between neighbours. When that is read, every atom is cut off by what stands behind it,
and every nest is opened and closed where it was.
-/

namespace Hygiene

open List

open Lexeme (Boundary Stops Starts)

namespace Lexeme

variable {cs ds rest : List Char} {c : Char} {n : Nat}

/-- The characters that begin something else than a number, a name or a punctuator. -/
def marks : List Char := [')', ']', '\x7d', '(', '[', '\x7b', '`', '"', '\'']

theorem startsName_eq_false_of_isDigit (h : c.isDigit = true) : startsName c = false := by
  simp only [Char.isDigit, Bool.and_eq_true, decide_eq_true_eq] at h
  have hascii : Text.isAscii c = true := decide_eq_true (Nat.lt_of_le_of_lt (UInt32.le_iff_toNat_le.1 h.2) (by decide))
  have hletter : c.isAlpha = false := by
    simp only [Char.isAlpha, Char.isUpper, Char.isLower]
    grind
  have hne : c ≠ '_' ∧ c ≠ '$' := by
    constructor <;> rintro rfl <;> revert h <;> decide
  simp [startsName, Text.isAlphabetic, hascii, hletter, hne]

/-- A number that was read still begins one where it is cut off. -/
theorem startsNumber_take (h : startsNumber cs = true) (rest : List Char) :
    startsNumber (cs.take (numberLength cs) ++ rest) = true := by
  have hpos := numberLength_pos h
  unfold startsNumber at h
  split at h
  · next c tail =>
    have htwo : 2 ≤ numberLength ('.' :: c :: tail) := by
      show 2 ≤ mantissaLength ('.' :: c :: tail) + _
      have hmantissa : mantissaLength ('.' :: c :: tail) = 0 + 1 + digitCount (c :: tail) := rfl
      have hdigit : 0 < digitCount (c :: tail) := by simp [digitCount, h]
      omega
    obtain ⟨m, hm⟩ := Nat.exists_eq_add_of_le' htwo
    rw [hm]
    exact h
  · next c tail hpoint =>
    obtain ⟨m, hm⟩ := Nat.exists_eq_add_of_le' hpos
    rw [hm, List.take_succ_cons, List.cons_append]
    generalize tail.take m ++ rest = after
    unfold startsNumber
    split
    · next heq =>
      cases heq
      cases h
    · next heq =>
      cases heq
      exact h
    · next heq => cases heq
  · cases h

theorem isDigit_or_point_of_startsNumber (h : startsNumber (c :: cs) = true) : c.isDigit = true ∨ c = '.' := by
  unfold startsNumber at h
  split at h
  · next heq => exact .inr (List.cons.inj heq).1
  · next heq => exact .inl (by rwa [(List.cons.inj heq).1])
  · cases h

theorem startsNumber_eq_false (hdigit : c.isDigit = false) (hpoint : c = '.' → Stops Char.isDigit cs) :
    startsNumber (c :: cs) = false := by
  unfold startsNumber
  split
  · next heq =>
    cases heq
    exact hpoint rfl _ rfl
  · next heq =>
    cases heq
    exact hdigit
  · rfl

end Lexeme

namespace Reader

variable {s : ReaderState} {offset : Nat} {c : Char} {cs rest : List Char} {p : String}

/-- What no trivia begin with is a token. -/
theorem step_eq_token (hspace : Lexeme.isSpace c = false)
    (hslash : c = '/' → cs.head? ≠ some '/' ∧ cs.head? ≠ some '*') : step s offset c cs = token s offset c cs := by
  have htrivia : Lexeme.triviaLength? (c :: cs) = none := by
    unfold Lexeme.triviaLength?
    split
    · next heq =>
      cases heq
      exact absurd rfl (hslash rfl).1
    · next heq =>
      cases heq
      exact absurd rfl (hslash rfl).2
    · next heq =>
      cases heq
      rw [hspace]
      rfl
    · rfl
  rw [step, htrivia]
  exact if_neg fun h => (hslash h.1).2 h.2

/-- What begins with no mark is a number, a name or a punctuator. -/
theorem token_of_not_mem_marks (hmarks : c ∉ Lexeme.marks) (hunquote : c = '$' → cs.head? ≠ some '\x7b') :
    token s offset c cs =
      if Lexeme.startsNumber (c :: cs) then number s offset (c :: cs)
      else if Lexeme.startsName c then
        .ok (pushAtom s offset (c :: cs) (Lexeme.nameLength (c :: cs))
          (.ident (String.ofList ((c :: cs).take (Lexeme.nameLength (c :: cs))))))
      else match Lexeme.punctuator? (c :: cs) with
        | some p => .ok (pushAtom s offset (c :: cs) p.length (.punct p))
        | none => .error ⟨.unexpected c, ⟨offset, offset + c.utf8Size⟩⟩ := by
  simp only [Lexeme.marks, List.mem_cons, List.not_mem_nil, or_false, not_or] at hmarks
  obtain ⟨hparen', hbracket', hbrace', hparen, hbracket, hbrace, hbacktick, hdouble, hsingle⟩ := hmarks
  have hopener : Delimiter.ofOpener? c = none := by simp [Delimiter.ofOpener?, hparen, hbracket, hbrace]
  rw [token, if_neg (by simp [hparen', hbracket', hbrace']), hopener]
  dsimp only
  rw [if_neg hbacktick, if_neg (fun h => hunquote h.1 h.2.2)]
  exact if_neg (by simp [hdouble, hsingle])

/-- Where a step takes the atom that is ahead, the walk goes on behind it. -/
theorem walk_of_pushAtom {a : Atom}
    (h : step s offset c (cs ++ rest) = .ok (pushAtom s offset (c :: cs ++ rest) (c :: cs).length a)) :
    walk 0 offset s (c :: cs ++ rest) =
      walk 0 (offset + byteLength (c :: cs)) (s.push (.atom ⟨offset, offset + byteLength (c :: cs)⟩ a)) rest := by
  rw [pushAtom, List.take_left] at h
  rw [List.cons_append, walk_of_step h, ← List.cons_append, List.take_left, List.drop_left]

variable {ds : List Char} {n : Nat}

theorem walk_str (content : String) :
    walk 0 offset s ((Text.quoted content).toList ++ rest) = walk 0 (offset + byteLength (Text.quoted content).toList)
      (s.push (.atom ⟨offset, offset + byteLength (Text.quoted content).toList⟩ (.str (Text.reread content)))) rest := by
  have hread := Lexeme.string?_quoted content rest
  have htext : (Text.quoted content).toList = '"' :: (content.toList.flatMap (Text.escaped '"') ++ ['"']) := by
    simp [Text.quoted]
  rw [← String.length_toList, htext] at hread
  rw [htext]
  refine walk_of_pushAtom ?_
  rw [step_eq_token (by decide) (fun h => absurd h (by decide))]
  show string s offset _ = _
  rw [string, ← cons_append, hread]

theorem walk_number {value : Float} (hstarts : Lexeme.startsNumber ds = true)
    (hread : Number.readLiteral? (ds.take (Lexeme.numberLength ds)) = some value) (hrest : Boundary rest) :
    walk 0 offset s (ds.take (Lexeme.numberLength ds) ++ rest) =
      walk 0 (offset + byteLength (ds.take (Lexeme.numberLength ds)))
        (s.push (.atom ⟨offset, offset + byteLength (ds.take (Lexeme.numberLength ds))⟩
          (.number value (String.ofList (ds.take (Lexeme.numberLength ds)))))) rest := by
  have hstarts' := Lexeme.startsNumber_take hstarts rest
  have hlength := Lexeme.numberLength_take ds hrest
  have hne := (Lexeme.Starts.number hstarts hread).spells.1
  have htaken := length_take_of_le (Lexeme.numberLength_le_length ds)
  generalize ds.take (Lexeme.numberLength ds) = taken at *
  obtain ⟨c, cs, rfl⟩ := exists_cons_of_ne_nil hne
  have hother : (Lexeme.marks ++ ['$', '/', ' ', '\t', '\r', '\n']).all (fun d => !(d.isDigit || d == '.')) = true := by
    decide
  have hc : c ∉ Lexeme.marks ++ ['$', '/', ' ', '\t', '\r', '\n'] := by
    intro hmem
    have hnot : ¬ (c.isDigit = true ∨ c = '.') := by simpa using all_eq_true.1 hother c hmem
    exact hnot (Lexeme.isDigit_or_point_of_startsNumber hstarts')
  simp only [mem_append, mem_cons, not_mem_nil, or_false, not_or] at hc
  obtain ⟨hmarks, hdollar, hslash, hspace⟩ := hc
  refine walk_of_pushAtom ?_
  rw [step_eq_token (by simp [Lexeme.isSpace, hspace]) (fun h => absurd h hslash),
    token_of_not_mem_marks hmarks (fun h => absurd h hdollar), ← cons_append, if_pos hstarts', number,
    hlength, ← htaken, take_left, hread]

theorem walk_ident {rest' : List Char} (hstarts : Lexeme.startsName c = true) (hrest : Boundary rest) :
    walk 0 offset s ((c :: rest').take (Lexeme.nameLength (c :: rest')) ++ rest) =
      walk 0 (offset + byteLength ((c :: rest').take (Lexeme.nameLength (c :: rest'))))
        (s.push (.atom ⟨offset, offset + byteLength ((c :: rest').take (Lexeme.nameLength (c :: rest')))⟩
          (.ident (String.ofList ((c :: rest').take (Lexeme.nameLength (c :: rest'))))))) rest := by
  obtain ⟨taken, after, rfl, htaken, -, heq⟩ := Lexeme.exists_takeWhile Lexeme.continuesName rest'
  have hname : (c :: (taken ++ after)).take (Lexeme.nameLength (c :: (taken ++ after))) = c :: taken := by
    rw [Lexeme.nameLength, tail_cons, heq, Nat.add_comm, take_succ_cons, take_left]
  have hlength : Lexeme.nameLength (c :: taken ++ rest) = (c :: taken).length := by
    have := Lexeme.takeWhile_append htaken (hrest.stops (p := Lexeme.continuesName) (by decide))
    rw [Lexeme.nameLength, cons_append, tail_cons, this, length_cons, Nat.add_comm]
  have hbrace : (taken ++ rest).head? ≠ some '\x7b' := by
    intro h
    cases taken with
    | nil => exact absurd (hrest _ h) (by decide)
    | cons d taken =>
      have hd := htaken d mem_cons_self
      rw [Option.some.inj h] at hd
      exact absurd hd (by decide)
  have hother : (Lexeme.marks ++ ['.', '/', ' ', '\t', '\r', '\n']).all (fun d => !Lexeme.startsName d) = true := by
    decide
  have hc : c ∉ Lexeme.marks ++ ['.', '/', ' ', '\t', '\r', '\n'] := by
    intro hmem
    have hnot := all_eq_true.1 hother c hmem
    rw [hstarts] at hnot
    cases hnot
  simp only [mem_append, mem_cons, not_mem_nil, or_false, not_or] at hc
  obtain ⟨hmarks, hpoint, hslash, hspace⟩ := hc
  have hdigit : c.isDigit = false := by
    cases hdigit : c.isDigit with
    | false => rfl
    | true =>
      rw [Lexeme.startsName_eq_false_of_isDigit hdigit] at hstarts
      cases hstarts
  rw [hname]
  refine walk_of_pushAtom ?_
  rw [step_eq_token (by simp [Lexeme.isSpace, hspace]) (fun h => absurd h hslash),
    token_of_not_mem_marks hmarks (fun _ => hbrace),
    if_neg (by rw [Lexeme.startsNumber_eq_false hdigit (fun h => absurd h hpoint)]; decide), if_pos hstarts,
    ← cons_append, hlength, take_left]

/-- What a punctuator begins with begins nothing else. -/
theorem first_of_mem_punctuators (hp : p ∈ Lexeme.punctuators) (htext : p.toList = c :: cs) :
    c ∉ Lexeme.marks ++ ['$', ' ', '\t', '\r', '\n'] ∧ Lexeme.startsName c = false ∧ c.isDigit = false := by
  have hall : Lexeme.punctuators.all (fun p => p.toList.head?.all fun c =>
      !(Lexeme.marks ++ ['$', ' ', '\t', '\r', '\n']).contains c && (!Lexeme.startsName c && !c.isDigit)) = true := by
    decide
  have hfirst := all_eq_true.1 hall p hp
  rw [htext] at hfirst
  simpa only [List.head?_cons, Option.all_some, Bool.and_eq_true, Bool.not_eq_true', Bool.eq_false_iff, ne_eq,
    contains_iff_mem] using hfirst

/-- A punctuator does not go on like a number or a comment. -/
theorem second_of_mem_punctuators {d : Char} (hp : p ∈ Lexeme.punctuators)
    (htext : p.toList = c :: d :: cs) : d.isDigit = false ∧ (c = '/' → d ≠ '/' ∧ d ≠ '*') := by
  have hall : Lexeme.punctuators.all (fun p => p.toList.tail.head?.all fun d =>
      !d.isDigit && (p.toList.head? != some '/' || d != '/' && d != '*')) = true := by decide
  have hsecond := all_eq_true.1 hall p hp
  rw [htext] at hsecond
  simp only [tail_cons, List.head?_cons, Option.all_some, Bool.and_eq_true, Bool.not_eq_true', Bool.or_eq_true,
    bne_iff_ne, ne_eq, Option.some.injEq] at hsecond
  exact ⟨hsecond.1, fun hc => hsecond.2.resolve_left (not_not_intro hc)⟩

theorem walk_punct (hp : p ∈ Lexeme.punctuators) (hrest : Boundary rest) :
    walk 0 offset s (p.toList ++ rest) = walk 0 (offset + byteLength p.toList)
      (s.push (.atom ⟨offset, offset + byteLength p.toList⟩ (.punct p))) rest := by
  have hread := Lexeme.punctuator?_append hp hrest
  have hne : ∀ p ∈ Lexeme.punctuators, p.toList ≠ [] := by decide
  obtain ⟨c, cs, htext⟩ := exists_cons_of_ne_nil (hne p hp)
  obtain ⟨hc, hname, hdigit⟩ := first_of_mem_punctuators hp htext
  have hsecond : ∀ d ds, cs = d :: ds → d.isDigit = false ∧ (c = '/' → d ≠ '/' ∧ d ≠ '*') := fun d ds hcs =>
    second_of_mem_punctuators hp (hcs ▸ htext)
  rw [htext] at hread ⊢
  simp only [mem_append, mem_cons, not_mem_nil, or_false, not_or] at hc
  obtain ⟨hmarks, hdollar, hspace⟩ := hc
  have hpoint : Stops Char.isDigit (cs ++ rest) := by
    cases cs with
    | nil => exact hrest.stops (by decide)
    | cons d cs => exact Lexeme.stops_cons (hsecond d cs rfl).1
  have hslash : c = '/' → (cs ++ rest).head? ≠ some '/' ∧ (cs ++ rest).head? ≠ some '*' := by
    rintro rfl
    cases cs with
    | nil => exact ⟨fun h => absurd (hrest _ h) (by decide), fun h => absurd (hrest _ h) (by decide)⟩
    | cons d cs =>
      have hd := (hsecond d cs rfl).2 rfl
      exact ⟨fun h => hd.1 (Option.some.inj h), fun h => hd.2 (Option.some.inj h)⟩
  refine walk_of_pushAtom ?_
  rw [step_eq_token (by simp [Lexeme.isSpace, hspace]) hslash,
    token_of_not_mem_marks hmarks (fun h => absurd h hdollar),
    if_neg (by rw [Lexeme.startsNumber_eq_false hdigit (fun _ => hpoint)]; decide), if_neg (by rw [hname]; decide),
    ← cons_append, hread]
  dsimp only
  rw [← String.length_toList, htext]

/-- An atom that was read is read again where it is written before a boundary. -/
theorem walk_atom {a : Atom} (h : Starts ds n a)
    (hplain : ∀ content, a = .str content → ∀ c ∈ content.toList, ¬ Text.WrittenByCode c) (hrest : Boundary rest) :
    walk 0 offset s (a.text.toList ++ rest) = walk 0 (offset + byteLength a.text.toList)
      (s.push (.atom ⟨offset, offset + byteLength a.text.toList⟩ a)) rest := by
  cases h with
  | str _ _ _ =>
    rw [Atom.text, walk_str, Text.reread_eq_iff.2 (hplain _ rfl)]
  | number starts read =>
    rw [Atom.text, String.toList_ofList]
    exact walk_number starts read hrest
  | ident head starts =>
    subst head
    rw [Atom.text, String.toList_ofList]
    exact walk_ident starts hrest
  | punct read => exact walk_punct (Lexeme.punctuator?_spec read).1 hrest

theorem walk_space : walk 0 offset s (' ' :: rest) = walk 0 (offset + 1) s rest :=
  walk_of_step (show step s offset ' ' rest = .ok (s, 1) from rfl)

/-- The text before the parts of a nest opens it, where it may stand. -/
theorem walk_openText {shape : Nest} (hunquote : shape = .unquote → s.inTemplate = true)
    (htemplate : shape = .template → s.shape? ≠ some .template) :
    walk 0 offset s (shape.openText.toList ++ rest) =
      walk 0 (offset + byteLength shape.openText.toList) (s.openNest shape offset) rest := by
  match shape with
  | .group d =>
    cases d <;> exact walk_of_step (n := 1) rfl
  | .template =>
    refine walk_of_step (n := 1) ?_
    rw [step_eq_token (by decide) (fun h => absurd h (by decide))]
    show (if s.shape? = some .template then _ else _) = _
    rw [if_neg (htemplate rfl)]
  | .unquote =>
    refine walk_of_step (n := 2) ?_
    rw [step_eq_token (by decide) (fun h => absurd h (by decide))]
    show (if '$' = '$' ∧ s.inTemplate = true ∧ some '\x7b' = some '\x7b' then _ else _) = _
    rw [if_pos ⟨rfl, hunquote rfl, rfl⟩]

/-- The text after the parts of a nest closes it. -/
theorem walk_closeText {shape : Nest} (hshape : s.shape? = some shape) :
    walk 0 offset s (shape.closeText.toList ++ rest) = walk 0 (offset + 1) (s.closeNest (offset + 1)) rest := by
  match shape with
  | .group d =>
    cases d <;>
    · refine walk_of_step (n := 1) ?_
      change close s offset _ = _
      rw [close, hshape]
      rfl
  | .template =>
    refine walk_of_step (n := 1) ?_
    rw [step_eq_token (by decide) (fun h => absurd h (by decide))]
    show (if s.shape? = some .template then _ else _) = _
    rw [if_pos hshape]
  | .unquote =>
    refine walk_of_step (n := 1) ?_
    change close s offset _ = _
    rw [close, hshape]
    rfl

end Reader

/-- Whether an unquote may stand directly inside a nest, from whether it may stand around it. -/
def Nest.inTemplate : Nest → Bool → Bool
  | group _, around => around
  | template, _ => true
  | unquote, _ => false

theorem ReaderState.openNest_inTemplate (s : ReaderState) (shape : Nest) (offset : Nat) :
    (s.openNest shape offset).inTemplate = shape.inTemplate s.inTemplate := by
  cases shape <;> rfl

theorem Nest.boundary_closeText (shape : Nest) (rest : List Char) : Boundary (shape.closeText.toList ++ rest) := by
  intro c hc
  match shape with
  | .group d => cases d <;> cases hc <;> decide
  | .template => cases hc; decide
  | .unquote => cases hc; decide

namespace Tree

mutual

/-- The token may be read directly inside a nest: its atoms are read from some text, unquotes stand in templates only,
and no template stands directly in another. -/
def Readable {α : Type} (around : Option Nest) (inTemplate : Bool) : Tree α → Prop
  | atom _ a => ∃ cs n, Starts cs n a
  | nest _ shape children => (shape = .unquote → inTemplate = true) ∧ (shape = .template → around ≠ some .template) ∧
      ReadableAll (some shape) (shape.inTemplate inTemplate) children

/-- All tokens may be read directly inside a nest. -/
def ReadableAll {α : Type} (around : Option Nest) (inTemplate : Bool) : List (Tree α) → Prop
  | [] => True
  | t :: ts => Readable around inTemplate t ∧ ReadableAll around inTemplate ts

end

theorem readableAll_iff {α : Type} {around : Option Nest} {inTemplate : Bool} {ts : List (Tree α)} :
    ReadableAll around inTemplate ts ↔ ∀ t ∈ ts, t.Readable around inTemplate := by
  induction ts with
  | nil => simp [ReadableAll]
  | cons t ts ih => simp [ReadableAll, ih]

theorem ReadableAll.reverse {α : Type} {around : Option Nest} {inTemplate : Bool} {ts : List (Tree α)}
    (h : ReadableAll around inTemplate ts) : ReadableAll around inTemplate ts.reverse :=
  readableAll_iff.2 fun t ht => readableAll_iff.1 h t (mem_reverse.1 ht)

mutual

/-- The contents of the string literals in a token. -/
def strings {α : Type} : Tree α → List String
  | atom _ (.str content) => [content]
  | atom _ _ => []
  | nest _ _ children => stringsAll children

/-- The contents of the string literals in tokens. -/
def stringsAll {α : Type} : List (Tree α) → List String
  | [] => []
  | t :: ts => strings t ++ stringsAll ts

end

end Tree

namespace Reader

variable {s : ReaderState}

/-- The tokens read so far may be read where they stand, and so may the nests that are open. -/
def Readable (current : List (Tree Span)) : List OpenNest → Prop
  | [] => Tree.ReadableAll none false current
  | nest :: around =>
    Tree.ReadableAll (some nest.shape) nest.inTemplate current ∧
      nest.inTemplate = nest.shape.inTemplate (ReaderState.mk nest.before around).inTemplate ∧
      (nest.shape = .unquote → (ReaderState.mk nest.before around).inTemplate = true) ∧
      (nest.shape = .template → (ReaderState.mk nest.before around).shape? ≠ some .template) ∧
      Readable nest.before around

theorem Readable.push {s : ReaderState} {t : Tree Span} (h : Readable s.current s.openNests)
    (ht : t.Readable s.shape? s.inTemplate) : Readable (t :: s.current) s.openNests := by
  obtain ⟨current, openNests⟩ := s
  cases openNests with
  | nil => exact ⟨ht, h⟩
  | cons nest around => exact ⟨⟨ht, h.1⟩, h.2⟩

/-- Every step leads on to tokens that may be read where they stand. -/
theorem Took.readable {s s' : ReaderState} {offset n : Nat} {cs : List Char} (h : Readable s.current s.openNests)
    (htook : Took s offset cs s' n) : Readable s'.current s'.openNests := by
  cases htook with
  | trivia _ => exact h
  | atom starts => exact h.push ⟨_, _, starts⟩
  | @opened shape opens =>
    exact ⟨trivial, s.openNest_inTemplate shape offset, opens.unquote, opens.template, h⟩
  | @closed nest around nests _ =>
    rw [nests] at h
    obtain ⟨hcurrent, hin, hunquote, htemplate, hbefore⟩ := h
    rw [ReaderState.closeNest, nests]
    refine Readable.push (s := ⟨nest.before, around⟩) hbefore ⟨hunquote, htemplate, ?_⟩
    rw [← hin]
    exact hcurrent.reverse

mutual

/-- A token that was read is read again where it is written before a boundary. -/
theorem walk_text (t : Tree Span) (s : ReaderState) (offset : Nat) (rest : List Char)
    (hread : t.Readable s.shape? s.inTemplate)
    (hplain : ∀ content ∈ t.strings, ∀ c ∈ content.toList, ¬ Text.WrittenByCode c) (hrest : Boundary rest) :
    ∃ t' : Tree Span, t'.map (fun _ => ()) = t.map (fun _ => ()) ∧
      walk 0 offset s (t.text.toList ++ rest) = walk 0 (offset + byteLength t.text.toList) (s.push t') rest :=
  match t with
  | .atom _ a => by
    obtain ⟨cs, n, hstarts⟩ := hread
    refine ⟨.atom ⟨offset, offset + byteLength a.text.toList⟩ a, rfl, ?_⟩
    refine walk_atom hstarts (fun content ha => hplain content ?_) hrest
    rw [ha]
    exact mem_singleton.2 rfl
  | .nest _ shape children => by
    obtain ⟨hunquote, htemplate, hchildren⟩ := hread
    rw [← s.openNest_inTemplate shape offset] at hchildren
    obtain ⟨ts, hts, hwalk⟩ := walk_textAll children (s.openNest shape offset)
      (offset + byteLength shape.openText.toList) (shape.closeText.toList ++ rest) hchildren hplain
      (shape.boundary_closeText rest)
    refine ⟨.nest ⟨offset, offset + byteLength shape.openText.toList + byteLength (Tree.textAll children).toList + 1⟩
      shape ts, by rw [Tree.map, Tree.map, hts], ?_⟩
    simp only [Tree.text, String.toList_append, append_assoc, byteLength_append, shape.byteLength_closeText]
    rw [walk_openText hunquote htemplate, hwalk, walk_closeText rfl]
    simp only [ReaderState.closeNest, ReaderState.openNest, ReaderState.push, append_nil, reverse_reverse,
      Nat.add_assoc]

/-- Tokens that were read are read again where they are written before a boundary. -/
theorem walk_textAll (ts : List (Tree Span)) (s : ReaderState) (offset : Nat) (rest : List Char)
    (hread : Tree.ReadableAll s.shape? s.inTemplate ts)
    (hplain : ∀ content ∈ Tree.stringsAll ts, ∀ c ∈ content.toList, ¬ Text.WrittenByCode c)
    (hrest : Boundary rest) : ∃ ts' : List (Tree Span), Tree.mapAll (fun _ => ()) ts' = Tree.mapAll (fun _ => ()) ts ∧
      walk 0 offset s ((Tree.textAll ts).toList ++ rest) =
        walk 0 (offset + byteLength (Tree.textAll ts).toList) { s with current := ts'.reverse ++ s.current } rest :=
  match ts with
  | [] => ⟨[], rfl, by simp [Tree.textAll]⟩
  | [t] => by
    obtain ⟨t', ht, hwalk⟩ := walk_text t s offset rest hread.1
      (fun content hmem => hplain content (mem_append_left _ hmem)) hrest
    exact ⟨[t'], by rw [Tree.mapAll, Tree.mapAll, ht]; rfl, hwalk⟩
  | t :: u :: ts => by
    obtain ⟨t', ht, hwalk⟩ := walk_text t s offset (' ' :: ((Tree.textAll (u :: ts)).toList ++ rest)) hread.1
      (fun content hmem => hplain content (mem_append_left _ hmem)) (by rintro _ ⟨⟩; decide)
    obtain ⟨ts', hts, hwalk'⟩ := walk_textAll (u :: ts) (s.push t') (offset + byteLength t.text.toList + 1) rest hread.2
      (fun content hmem => hplain content (mem_append_right _ hmem)) hrest
    refine ⟨t' :: ts', by rw [Tree.mapAll, ht, hts]; rfl, ?_⟩
    have htext : (Tree.textAll (t :: u :: ts)).toList ++ rest =
        t.text.toList ++ ' ' :: ((Tree.textAll (u :: ts)).toList ++ rest) := by
      simp [Tree.textAll]
    rw [htext, hwalk, walk_space, hwalk']
    have hlength : byteLength (Tree.textAll (t :: u :: ts)).toList =
        byteLength t.text.toList + 1 + byteLength (Tree.textAll (u :: ts)).toList := by
      simp [Tree.textAll, show ' '.utf8Size = 1 from rfl, Nat.add_assoc]
    simp [hlength, ReaderState.push, Nat.add_assoc]

end

end Reader

/-- What is written for a string is read as one string. It is the same exactly if none of its characters is written by
its code; such an escape is read as NUL before the braces and the digits. -/
theorem read_str_text (content : String) :
    read (Atom.str content).text =
      .ok [.atom ⟨0, byteLength (Atom.str content).text.toList⟩ (.str (Text.reread content))] ∧
    (Text.reread content = content ↔ ∀ c ∈ content.toList, ¬ Text.WrittenByCode c) := by
  refine ⟨?_, Text.reread_eq_iff⟩
  have hwalk : Reader.walk 0 0 {} ((Text.quoted content).toList ++ []) = _ := Reader.walk_str content
  rw [append_nil, Nat.zero_add] at hwalk
  exact hwalk

/-- A combining accent is not read back. -/
theorem read_str_text_accent : (Atom.str "\u0301").text = "\"\\u\x7b301\x7d\"" ∧
    read "\"\\u\x7b301\x7d\"" = .ok [.atom ⟨0, 9⟩ (.str "\x00\x7b301\x7d")] ∧ "\u0301" ≠ "\x00\x7b301\x7d" :=
  ⟨by decide +kernel, rfl, by decide⟩

/-- Tokens that were read, written down and read again, are the same tokens; only their spans may differ. -/
theorem read_textAll {source : String} {trees : List (Tree Span)} (h : read source = .ok trees)
    (hplain : ∀ content ∈ Tree.stringsAll trees, ∀ c ∈ content.toList, ¬ Text.WrittenByCode c) :
    ∃ again, read (Tree.textAll trees) = .ok again ∧
      Tree.mapAll (fun _ => ()) again = Tree.mapAll (fun _ => ()) trees := by
  obtain ⟨s, hreadable, hnests, rfl⟩ := Reader.walk_invariant source.toList
    (fun _ s => Reader.Readable s.current s.openNests) trivial (fun _ hI htook => htook.readable hI) h
  rw [hnests] at hreadable
  obtain ⟨again, hagain, hwalk⟩ := Reader.walk_textAll s.current.reverse {} 0 [] hreadable.reverse hplain nofun
  refine ⟨again, ?_, hagain⟩
  rw [append_nil] at hwalk
  rw [read, hwalk]
  simp [Reader.walk, ReaderState.finish]

/-- A name before a brace, a string with a quote in it, a point beside a number, and an unquote in a template. -/
theorem read_textAll_template :
    read "$ \x7b'a\"b' . .5\x7d /* c */`$\x7by\x7d`" = .ok [.atom ⟨0, 1⟩ (.ident "$"),
      .nest ⟨2, 14⟩ (.group .brace) [.atom ⟨3, 8⟩ (.str "a\"b"), .atom ⟨9, 10⟩ (.punct "."),
        .atom ⟨11, 13⟩ (.number 0.5 ".5")],
      .nest ⟨22, 28⟩ .template [.nest ⟨23, 27⟩ .unquote [.atom ⟨25, 26⟩ (.ident "y")]]] ∧
    ∃ again, read "$ \x7b\"a\\\"b\" . .5\x7d `$\x7by\x7d`" = .ok again ∧
      Tree.mapAll (fun _ => ()) again = [.atom () (.ident "$"),
        .nest () (.group .brace) [.atom () (.str "a\"b"), .atom () (.punct "."), .atom () (.number 0.5 ".5")],
        .nest () .template [.nest () .unquote [.atom () (.ident "y")]]] := by
  have hread : read "$ \x7b'a\"b' . .5\x7d /* c */`$\x7by\x7d`" = .ok [.atom ⟨0, 1⟩ (.ident "$"),
      .nest ⟨2, 14⟩ (.group .brace) [.atom ⟨3, 8⟩ (.str "a\"b"), .atom ⟨9, 10⟩ (.punct "."),
        .atom ⟨11, 13⟩ (.number 0.5 ".5")],
      .nest ⟨22, 28⟩ .template [.nest ⟨23, 27⟩ .unquote [.atom ⟨25, 26⟩ (.ident "y")]]] := rfl
  have hplain : ("a\"b".toList.all fun c => !decide (Text.WrittenByCode c)) = true := by decide
  refine ⟨hread, read_textAll hread fun content hcontent c hc => ?_⟩
  obtain rfl : content = "a\"b" := mem_singleton.1 hcontent
  simpa using all_eq_true.1 hplain c hc

end Hygiene
