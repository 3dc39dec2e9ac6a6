import Hygiene.Proofs.Expand.Action

/-!
# Reading from a stream is sound

What is read from a stream is part of its content.
-/

namespace Hygiene

open List

variable {t : Token}

theorem Content.ofTokens_cons (t : Token) (ts : List Token) : ofTokens (t :: ts) = ofTokens [t] ++ ofTokens ts := by
  simp [ofTokens, Token.piecesAll]

theorem Content.ofTokens_nil : ofTokens [] = [] := rfl

/-- The parts of a group are part of it. -/
theorem Content.ofTokens_group {d : Delimiter} {ts : List Token} (h : t.group? d = some ts) :
    ofTokens ts ⊆ ofTokens [t] := by
  match t, h with
  | .nest mark (.group d') children, h =>
    rw [Tree.group?] at h
    split at h <;> cases h
    refine map_subset _ ?_
    simp [Token.piecesAll, Token.pieces]

/-- The parts of a template are part of it. -/
theorem Content.ofTokens_template {ts : List Token} (h : t.template? = some ts) : ofTokens ts ⊆ ofTokens [t] := by
  match t, h with
  | .nest mark .template children, rfl =>
    refine map_subset _ ?_
    simp [Token.piecesAll, Token.pieces]

theorem Stream.content_advance (s : Stream) : s.advance.content ⊆ s.content := by
  obtain ⟨before, after⟩ := s
  cases after with
  | nil => exact fun _ h => h
  | cons t ts =>
    simp only [advance, content, Content.ofTokens_cons t ts, Content.ofTokens_cons t before]
    grind

theorem Stream.suffix_advance (s : Stream) : s.advance.after <:+ s.after := by
  obtain ⟨before, after⟩ := s
  cases after with
  | nil => exact suffix_refl _
  | cons t ts => exact suffix_cons t ts

theorem Stream.content_head? {s : Stream} (h : s.after.head? = some t) : Content.ofTokens [t] ⊆ s.content :=
  subset_append_of_subset_right _ (Content.ofTokens_subset (by simpa using mem_of_mem_head? h))

namespace Parse

variable {α : Type} {m : Mode} {l : List Content} {Q : α → List Content}

/-- Reading that changes only the stream. -/
theorem Sound.of_pure {x : Parse α} (f : Stream → α × Stream) (hx : ∀ stream, x stream = Pure.pure (f stream))
    (hQ : ∀ stream, Q (f stream).1 ++ (f stream).2.content ⊆ stream.content ++ l)
    (h : ∀ stream, (f stream).2.after <:+ stream.after := by exact fun _ => suffix_refl _) : Sound m l x Q := by
  refine .of_suffix (fun stream => hx stream ▸ Expand.Sound.pure (hQ stream)) fun stream run r run' heq => ?_
  rw [hx] at heq
  cases heq
  exact h stream

theorem sound_peek : Sound m l peek fun t => Content.ofTokens t.toList := by
  refine .of_pure (fun s => (s.after.head?, s)) (fun _ => rfl) fun s => ?_
  cases h : s.after.head? with
  | none => simp [Content.ofTokens_nil]
  | some t =>
    have := s.content_head? h
    simp only [Option.toList]
    grind

theorem sound_atEnd : Sound m l atEnd fun _ => [] :=
  .of_pure (fun s => (s.after.isEmpty, s)) (fun _ => rfl) fun _ => by simp

theorem sound_peekIs (test : Token → Bool) : Sound m l (peekIs test) fun _ => [] :=
  .of_pure (fun s => (s.after.head?.any test, s)) (fun _ => rfl) fun _ => by simp

theorem sound_peekNthIs (n : Nat) (test : Token → Bool) : Sound m l (peekNthIs n test) fun _ => [] :=
  .of_pure (fun s => (s.after[n]?.any test, s)) (fun _ => rfl) fun _ => by simp

theorem sound_peekGroup (d : Delimiter) : Sound m l (peekGroup d) fun _ => [] := sound_peekIs _

theorem sound_advance : Sound m l advance fun _ => [] :=
  .of_pure (fun s => ((), s.advance)) (fun _ => rfl) (fun s => by have := s.content_advance; grind) Stream.suffix_advance

theorem sound_previousSite : Sound m l previousSite fun _ => [] :=
  .of_pure (fun s => ((s.before.head?.map Token.site).getD .unknown, s)) (fun _ => rfl) fun _ => by simp

theorem sound_fail {fault : ParseFault} {site : Site} : Sound m l (fail fault site) Q := .lift Expand.Sound.fail

theorem sound_exhausted : Sound m l (liftM (Expand.exhausted : Expand α)) Q := .lift Expand.Sound.exhausted

theorem sound_unexpected (expected : String) : Sound m l (unexpected expected) Q := by
  refine .bind sound_peek fun t => ?_
  cases t with
  | none => exact .bind sound_previousSite fun _ => sound_fail
  | some t => exact sound_fail

theorem sound_next (expected : String) : Sound m l (next expected) fun t => Content.ofTokens [t] := by
  refine .bind sound_peek fun t => ?_
  cases t with
  | none => exact sound_unexpected expected
  | some t =>
    refine .bind sound_advance fun _ => .pure ?_
    simp only [Option.toList]
    grind

theorem sound_eat (p : String) : Sound m l (eat p) fun _ => [] := by
  refine .bind (sound_peekIs _) fun b => .ite (fun _ => ?_) (fun _ => .pure (nil_subset _))
  exact .bind sound_advance fun _ => .pure (nil_subset _)

theorem sound_optionalSemicolon : Sound m l optionalSemicolon fun _ => [] :=
  .bind (sound_eat ";") fun _ => .pure (nil_subset _)

theorem sound_expectPunct (p : String) : Sound m l (expectPunct p) fun _ => [] := by
  refine .bind (sound_eat p) fun b => .ite (fun _ => .pure (nil_subset _)) (fun _ => ?_)
  exact sound_unexpected _

theorem isIdent_of_expectIdent {expected : String} {stream stream' : Stream} {run run' : Run} {t : Token}
    (h : expectIdent expected stream run = .ok (t, stream') run') : t.isIdent = true := by
  obtain ⟨before, after⟩ := stream
  cases after with
  | nil => cases h
  | cons token after =>
    have h : (if token.isIdent then next expected else unexpected expected : Parse Token) ⟨before, token :: after⟩ run =
        .ok (t, stream') run' := h
    split at h
    · next hident =>
      cases h
      exact hident
    · cases h

theorem sound_expectIdent (expected : String) : Sound m l (expectIdent expected) fun t => Content.ofTokens [t] :=
  .bind (sound_peekIs _) fun _ => .ite (fun _ => sound_next expected) (fun _ => sound_unexpected expected)

theorem sound_expectGroup (d : Delimiter) (expected : String) :
    Sound m l (expectGroup d expected) fun r => Content.ofTokens r.1 := by
  refine .bind sound_peek fun t => ?_
  cases t with
  | none => exact sound_unexpected expected
  | some t =>
    cases hg : t.group? d with
    | none =>
      simp only [hg]
      exact sound_unexpected expected
    | some children =>
      simp only [hg]
      refine .bind sound_advance fun _ => .pure ?_
      have := Content.ofTokens_group hg
      simp only [Option.toList]
      grind

end Parse

end Hygiene
