import Hygiene.Token.Lexeme
import Hygiene.Token.Tree

/-!
# What lexemes are made of

An identifier, a punctuator or a number takes its own text, and a string the characters between two equal quotes. What
stands between tokens is trivia: blank space and complete comments.
-/

namespace Hygiene

open List

/-- The characters are a way to write the atom. Of a string only the quotes are said: its content is written with
escapes. -/
def Atom.Spells : Atom → List Char → Prop
  | .ident name, cs => cs = name.toList
  | .punct text, cs => cs = text.toList
  | .number _ raw, cs => cs = raw.toList
  | .str _, cs => ∃ quote inner, (quote = '"' ∨ quote = '\'') ∧ cs = quote :: inner ++ [quote]

/-- What may stand between tokens and before `rest`: blank space and complete comments. A comment in a line goes on to
the end of the line; one in a block ends where it is first closed. -/
inductive Trivia : List Char → List Char → Prop where
  | nil (rest : List Char) : Trivia [] rest
  | blank {c : Char} {cs rest : List Char} : Lexeme.isSpace c = true → Trivia cs rest → Trivia (c :: cs) rest
  | line {body cs rest : List Char} : '\n' ∉ body → (∀ c ∈ (cs ++ rest).head?, c = '\n') → Trivia cs rest →
      Trivia ('/' :: '/' :: (body ++ cs)) rest
  | block {body cs rest : List Char} : ¬ ['*', '/'] <:+: body → Trivia cs rest →
      Trivia ('/' :: '*' :: (body ++ '*' :: '/' :: cs)) rest

namespace Trivia

variable {cs ds rest : List Char}

/-- Trivia before trivia are trivia. -/
theorem append (h : Trivia cs (ds ++ rest)) (h' : Trivia ds rest) : Trivia (cs ++ ds) rest := by
  generalize hafter : ds ++ rest = after at h
  induction h with
  | nil _ => exact h'
  | blank hspace _ ih => exact .blank hspace (ih hafter)
  | line hbody hend _ ih =>
    subst hafter
    rw [List.cons_append, List.cons_append, List.append_assoc]
    refine .line hbody ?_ (ih rfl)
    rwa [List.append_assoc]
  | block hbody _ ih =>
    rw [List.cons_append, List.cons_append, List.append_assoc, List.cons_append, List.cons_append]
    exact .block hbody (ih hafter)

end Trivia

namespace Lexeme

variable {cs : List Char} {n : Nat}

/-- A block comment goes on to where it is first closed. -/
theorem eq_append_of_commentLength? (h : commentLength? cs = some n) :
    ∃ body rest, cs = body ++ '*' :: '/' :: rest ∧ ¬ ['*', '/'] <:+: body ∧ n = body.length + 2 := by
  fun_induction commentLength? cs generalizing n with
  | case1 rest =>
    cases h
    exact ⟨[], rest, rfl, by simp, rfl⟩
  | case2 c cs hopen ih =>
    obtain ⟨m, hm, rfl⟩ := Option.map_eq_some_iff.1 h
    obtain ⟨body, rest, rfl, hbody, rfl⟩ := ih hm
    refine ⟨c :: body, rest, rfl, fun hinfix => ?_, rfl⟩
    rcases List.infix_cons_iff.1 hinfix with hpre | hinfix
    · obtain ⟨rfl, tail, rfl⟩ := List.cons_prefix_cons.1 hpre
      exact hopen (tail ++ '*' :: '/' :: rest) rfl rfl
    · exact hbody hinfix
  | case3 => cases h

/-- What is passed over between tokens is trivia. -/
theorem trivia_of_triviaLength? (h : triviaLength? cs = some n) : 0 < n ∧ Trivia (cs.take n) (cs.drop n) := by
  unfold triviaLength? at h
  split at h
  · next cs =>
    cases h
    refine ⟨by omega, ?_⟩
    have hbody : '\n' ∉ cs.takeWhile (· ≠ '\n') := fun hmem => by
      simpa using List.all_eq_true.1 List.all_takeWhile _ hmem
    have hend : ∀ c ∈ (cs.dropWhile (· ≠ '\n')).head?, c = '\n' := fun c hc => by
      have hnot := List.head?_dropWhile_not (· ≠ '\n') cs
      rw [Option.mem_def.1 hc] at hnot
      simpa using hnot
    have hsplit := List.takeWhile_append_dropWhile (p := (· ≠ '\n')) (l := cs)
    generalize cs.takeWhile (· ≠ '\n') = body at *
    generalize cs.dropWhile (· ≠ '\n') = rest at *
    subst hsplit
    rw [Nat.add_comm, List.take_succ_cons, List.take_succ_cons, List.drop_succ_cons, List.drop_succ_cons,
      List.take_left, List.drop_left]
    have htrivia : Trivia ('/' :: '/' :: (body ++ [])) rest := .line hbody hend (.nil rest)
    rwa [List.append_nil] at htrivia
  · next cs =>
    obtain ⟨m, hm, rfl⟩ := Option.map_eq_some_iff.1 h
    obtain ⟨body, rest, rfl, hbody, rfl⟩ := eq_append_of_commentLength? hm
    refine ⟨by omega, ?_⟩
    have hsplit : body ++ '*' :: '/' :: rest = (body ++ ['*', '/']) ++ rest := by simp
    have hlength : body.length + 2 = (body ++ ['*', '/']).length := by simp
    rw [hsplit, hlength, List.take_succ_cons, List.take_succ_cons, List.drop_succ_cons, List.drop_succ_cons,
      List.take_left, List.drop_left]
    exact .block hbody (.nil rest)
  · next c cs _ _ =>
    split at h
    · next hspace =>
      cases h
      exact ⟨Nat.one_pos, .blank hspace (.nil _)⟩
    · cases h
  · cases h

/-- A string goes on to the next quote of its kind that is not escaped. -/
theorem eq_append_of_stringRest {quote : Char} {mode : StringMode} {content all : List Char}
    (h : stringRest quote mode content cs = some (all, n)) :
    ∃ inner rest, cs = inner ++ quote :: rest ∧ n = inner.length + 1 := by
  have plain : ∀ {content closed : List Char} {c : Char}, plainStep quote content c = .closed closed → c = quote := by
    intro content closed c hstep
    unfold plainStep at hstep
    split at hstep
    · assumption
    · split at hstep
      · cases hstep
      · split at hstep <;> cases hstep
  have escape : ∀ {content closed : List Char} {c : Char}, escapeStep content c ≠ .closed closed := by
    intro content closed c hstep
    unfold escapeStep at hstep
    split at hstep
    · cases hstep
    · split at hstep <;> cases hstep
  induction cs generalizing mode content n with
  | nil => cases h
  | cons c cs ih =>
    unfold stringRest at h
    dsimp only at h
    split at h
    · next hstep =>
      cases h
      have hquote : c = quote := by
        split at hstep
        · exact plain hstep
        · exact absurd hstep escape
        · unfold codeStep at hstep
          split at hstep
          · cases hstep
          · exact plain hstep
      exact ⟨[], cs, by rw [hquote]; rfl, rfl⟩
    · cases h
    · next mode content _ =>
      obtain ⟨⟨_, m⟩, hrest, heq⟩ := Option.map_eq_some_iff.1 h
      cases heq
      obtain ⟨inner, rest, rfl, rfl⟩ := ih hrest
      exact ⟨c :: inner, rest, rfl, rfl⟩

/-- An atom takes the first characters of a text; how many they are. -/
inductive Starts (cs : List Char) : Nat → Atom → Prop where
  | str {quote : Char} {rest : List Char} {content : String} {n : Nat} (head : cs = quote :: rest)
      (isQuote : quote = '"' ∨ quote = '\'') (read : string? cs = some (content, n)) : Starts cs n (.str content)
  | number {value : Float} (starts : startsNumber cs = true)
      (read : Number.readLiteral? (cs.take (numberLength cs)) = some value) :
      Starts cs (numberLength cs) (.number value (String.ofList (cs.take (numberLength cs))))
  | ident {c : Char} {rest : List Char} (head : cs = c :: rest) (starts : startsName c = true) :
      Starts cs (nameLength cs) (.ident (String.ofList (cs.take (nameLength cs))))
  | punct {p : String} (read : punctuator? cs = some p) : Starts cs p.length (.punct p)

/-- How many characters a decimal number takes before its exponent. -/
def mantissaLength (cs : List Char) : Nat :=
  match cs.drop (digitCount cs) with
  | '.' :: more => digitCount cs + 1 + digitCount more
  | _ => digitCount cs

theorem decimalLength_eq (cs : List Char) :
    decimalLength cs = mantissaLength cs + exponentLength (cs.drop (mantissaLength cs)) := rfl

theorem digitCount_le_mantissaLength (cs : List Char) : digitCount cs ≤ mantissaLength cs := by
  unfold mantissaLength
  split <;> omega

theorem mantissaLength_pos (h : startsNumber cs = true) : 0 < mantissaLength cs := by
  unfold startsNumber at h
  split at h
  · next c cs =>
    show 0 < 0 + 1 + digitCount (c :: cs)
    omega
  · next c cs _ =>
    refine Nat.lt_of_lt_of_le ?_ (digitCount_le_mantissaLength _)
    simp [digitCount, h]
  · cases h

/-- A number takes at least one character. -/
theorem numberLength_pos (h : startsNumber cs = true) : 0 < numberLength cs := by
  have decimal : 0 < decimalLength cs := by
    have := mantissaLength_pos h
    rw [decimalLength_eq]
    omega
  unfold numberLength
  dsimp only
  split
  · split
    · omega
    · exact decimal
  · exact decimal

theorem punctuator?_spec {p : String} (h : punctuator? cs = some p) : p ∈ punctuators ∧ p.toList <+: cs := by
  unfold punctuator? at h
  exact ⟨mem_of_find?_eq_some h, by simpa using List.find?_some h⟩

/-- An atom takes at least one character, and is spelled by what it takes. -/
theorem Starts.spells {a : Atom} (h : Starts cs n a) : cs.take n ≠ [] ∧ a.Spells (cs.take n) := by
  cases h with
  | str head isQuote read =>
    subst head
    obtain ⟨⟨content, m⟩, hrest, heq⟩ := Option.map_eq_some_iff.1 read
    cases heq
    obtain ⟨inner, rest, rfl, rfl⟩ := eq_append_of_stringRest hrest
    rw [take_succ_cons]
    refine ⟨cons_ne_nil _ _, _, inner, isQuote, ?_⟩
    simp [take_append, take_of_length_le (Nat.le_succ inner.length)]
  | number starts _ =>
    refine ⟨fun hnil => ?_, String.toList_ofList.symm⟩
    rcases take_eq_nil_iff.1 hnil with hzero | rfl
    · exact absurd hzero (Nat.ne_of_gt (numberLength_pos starts))
    · cases starts
  | ident head _ =>
    subst head
    refine ⟨?_, String.toList_ofList.symm⟩
    rw [nameLength, Nat.add_comm, take_succ_cons]
    exact cons_ne_nil _ _
  | punct read =>
    obtain ⟨hmem, hpre⟩ := punctuator?_spec read
    have htake := prefix_iff_eq_take.1 hpre
    rw [String.length_toList] at htake
    have hne : ∀ p ∈ punctuators, p.toList ≠ [] := by decide
    exact ⟨htake ▸ hne _ hmem, htake.symm⟩

end Lexeme

end Hygiene
