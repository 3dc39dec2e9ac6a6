import Hygiene.Proofs.Lexical.Still

/-!
# Reading from a stream in a region

The tokens of a stream all carry the scopes of one region, and so does what is read. Without transformers reading only
moves on in the stream.
-/

namespace Hygiene

open Outline

namespace Parse

variable {α β : Type} {d : List Token → List Key} {u c : ScopeSet} {φ ψ : Prop} {k : List Outline}
  {Q : α → Prop} {Q' : β → Prop} {L : α → List Outline} {L' : β → List Outline} {x : Parse α} {L₁ : α → List Outline}
  {f : ScopeId → Parse α}

/-- In a region with the scopes `c`, something is read from a stream of tokens with the scopes `u`. -/
def Lex (d : List Token → List Key) (u c : ScopeSet) (φ : Prop) (k : List Outline) (x : Parse α) (Q : α → Prop)
    (L : α → List Outline) : Prop :=
  ∀ stream : Stream, Expand.Lex d c (Token.Uniform u stream.after ∧ φ) k (x stream)
    (fun r => Q r.1 ∧ Token.Uniform u r.2.after) fun r => L r.1

/-- What a reader leaves placed, the next one starts from. -/
theorem Lex.bind {f : α → Parse β} (hx : Lex d u c φ k x Q L)
    (hf : ∀ a, Lex d u c (Q a ∧ φ) (L a) (f a) Q' L') : Lex d u c φ k (x >>= f) Q' L' := by
  intro stream
  refine Expand.Lex.bind (hx stream) fun r => (hf r.1 r.2).assume ?_
  rintro ⟨⟨hQ, hu⟩, _, hφ⟩
  exact ⟨hu, hQ, hφ⟩

theorem Lex.pure {a : α} (hQ : φ → Q a) (hkeys : keys (L a) = keys k)
    (hL : φ → ∀ R store, PlacedAll d R store c k → PlacedAll d R store c (L a)) : Lex d u c φ k (pure a) Q L :=
  fun _ => Expand.Lex.pure (fun h => ⟨hQ h.2, h.1⟩) hkeys fun h => hL h.2

theorem Lex.done {a : α} (hQ : φ → Q a) (h : L a = k) : Lex d u c φ k (Pure.pure a) Q L :=
  .pure hQ (by rw [h]) fun _ _ _ hk => h ▸ hk

theorem Lex.here {a : α} (h : L a = k) : Lex d u c φ k (Pure.pure a) (fun _ => True) L :=
  .done (fun _ => trivial) h

/-- What is read is placed behind the parts that are there. -/
abbrev Adds (d : List Token → List Key) (u c : ScopeSet) (φ : Prop) (k : List Outline) (x : Parse α)
    (L : α → List Outline) : Prop := Lex d u c φ k x (fun _ => True) fun a => k ++ L a

/-- Nothing that is placed is read. -/
abbrev Skims (d : List Token → List Key) (u c : ScopeSet) (φ : Prop) (k : List Outline) (x : Parse α) : Prop :=
  Lex d u c φ k x (fun _ => True) fun _ => k

/-- Parts that are placed whatever the regions are, and declare nothing, may be added first. -/
theorem Lex.add {l : List Outline} (hkeys : keys l = []) (hl : φ → ∀ R store, PlacedAll d R store c l)
    (hx : Lex d u c φ (k ++ l) x Q L) : Lex d u c φ k x Q L := by
  have hpure : Adds d u c φ k (Pure.pure ()) fun _ => l :=
    .pure (fun _ => trivial) (by simp [hkeys]) fun hφ R store hk => placedAll_append.2 ⟨hk, hl hφ R store⟩
  exact .bind hpure fun _ => fun stream => (hx stream).assume fun h => ⟨h.1, h.2.2⟩

/-- A placement may be restated when it declares the same. -/
theorem Lex.conseq {Q₁ : α → Prop} (hx : Lex d u c ψ k x Q L) (hφ : φ → ψ)
    (hQ : ∀ a, φ → Q a → Q₁ a) (hkeys : ∀ a, φ → Q a → keys (L₁ a) = keys (L a))
    (hL : ∀ a R store, φ → Q a → PlacedAll d R store c (L a) → PlacedAll d R store c (L₁ a)) : Lex d u c φ k x Q₁ L₁ :=
  fun stream => (hx stream).conseq (fun h => ⟨h.1, hφ h.2⟩) (fun r h hr => ⟨hQ r.1 h.2 hr.1, hr.2⟩)
    (fun r h hr => hkeys r.1 h.2 hr.1)
    fun r R store h hr => hL r.1 R store h.2 hr.1

/-- The parts that come out may be told in another way. -/
theorem Lex.retell (hx : Lex d u c φ k x Q L) (h : ∀ a, Q a → L₁ a = L a) : Lex d u c φ k x Q L₁ :=
  hx.conseq (fun h => h) (fun _ _ h => h) (fun a _ hQ => by rw [h a hQ]) fun a _ _ _ hQ hL => h a hQ ▸ hL

theorem Lex.assume (hx : Lex d u c ψ k x Q L) (hφ : φ → ψ) : Lex d u c φ k x Q L :=
  fun stream => (hx stream).assume fun h => ⟨h.1, hφ h.2⟩

/-- What was placed before stays placed. -/
theorem Lex.frame (hx : Lex d u c φ [] x Q L) : Lex d u c φ k x Q fun a => k ++ L a :=
  fun stream => (hx stream).frame

theorem Lex.ite {p : Prop} [Decidable p] {y : Parse α} (hx : p → Lex d u c φ k x Q L)
    (hy : ¬ p → Lex d u c φ k y Q L) : Lex d u c φ k (if p then x else y) Q L := by
  split
  · next h => exact hx h
  · next h => exact hy h

theorem Lex.map {f : α → β} (hx : Lex d u c φ k x Q L) (hQ : ∀ a, φ → Q a → Q' (f a))
    (hL : ∀ a, L' (f a) = L a) : Lex d u c φ k (f <$> x) Q' L' := by
  refine .bind hx fun a => .pure (fun h => hQ a h.2 h.1) (by rw [hL]) fun _ R store h => ?_
  rw [hL]
  exact h

/-- An expansion places terms as a reader too. -/
theorem Lex.lift {x : Expand α} (hx : Expand.Lex d c φ k x Q L) : Lex d u c φ k (liftM x : Parse α) Q L := by
  intro stream
  refine Expand.Lex.bind (hx.assume And.right) fun a => ?_
  exact Expand.Lex.pure (fun h => ⟨h.1, h.2.1⟩) rfl fun _ _ _ h => h

/-- Reading from other tokens than those of the stream. -/
theorem Lex.on {x : Parse α} {tokens : List Token} (hx : Lex d u c φ k x Q L) (ht : φ → Token.Uniform u tokens) :
    Expand.Lex d c φ k (on tokens x) (fun r => Q r.1 ∧ Token.Uniform u r.2.after) fun r => L r.1 :=
  (hx { after := tokens }).assume fun h => ⟨ht h, h⟩

/-- What is read in a new region is a scope of the region around it. -/
theorem Lex.region {event : ScopeId → Event} (hf : ∀ F, Lex d u (c.insert F) ((∀ x ∈ c, x < F) ∧ φ) [] (f F) Q L) :
    Lex d u c φ k (liftM (Expand.freshScope event) >>= f) Q fun a => k ++ [scope (L a)] := by
  intro stream
  have hregion : Expand.Lex d c (Token.Uniform u stream.after ∧ φ) k (Expand.freshScope event >>= fun F => f F stream)
      (fun r => Q r.1 ∧ Token.Uniform u r.2.after) fun r => k ++ [scope (L r.1)] :=
    Expand.Lex.region fun F => (hf F stream).assume fun h => ⟨h.2.1, h.1, h.2.2⟩
  exact hregion

/-- What is read in a new region is a scope of the region around it, in which a declaration is made as well. -/
theorem Lex.declaring {event event' : ScopeId → Event} {ident : Token}
    (hident : φ → ident.scopes = c ∧ ident.isIdent = true)
    (hf : ∀ F, Lex d u (c.insert F) ((∀ x ∈ c, x < F) ∧ φ) [] (f F) Q L) :
    Lex d u c φ k (liftM (Expand.freshScope event) >>= fun F => liftM (Expand.record (event' F)) >>= fun _ =>
      liftM (Expand.bindVariable ident) >>= fun _ => f F) Q fun a => k ++ [declare ident, scope (L a)] := by
  intro stream
  have hdeclaring : Expand.Lex d c (Token.Uniform u stream.after ∧ φ) k
      (Expand.freshScope event >>= fun F => Expand.record (event' F) >>= fun _ =>
        Expand.bindVariable ident >>= fun _ => f F stream)
      (fun r => Q r.1 ∧ Token.Uniform u r.2.after) fun r => k ++ [declare ident, scope (L r.1)] :=
    Expand.Lex.declaring (fun h => hident h.2) (fun _ => Expand.still_record _) fun F =>
      (hf F stream).assume fun h => ⟨h.2.1, h.1, h.2.2⟩
  exact hdeclaring

/-- Reading that changes only the stream. -/
theorem Lex.of_pure (f : Stream → α × Stream) (hx : ∀ stream, x stream = Pure.pure (f stream))
    (hQ : ∀ stream, Token.Uniform u stream.after → Q (f stream).1 ∧ Token.Uniform u (f stream).2.after) :
    Lex d u c φ k x Q fun _ => k := by
  intro stream
  rw [hx]
  exact Expand.Lex.pure (fun h => hQ stream h.1) rfl fun _ _ _ h => h

/-- Reading that looks at the stream. -/
theorem Lex.of_look (f : Stream → α) (hx : ∀ stream, x stream = Pure.pure (f stream, stream)) : Skims d u c φ k x :=
  .of_pure (fun stream => (f stream, stream)) hx fun _ h => ⟨trivial, h⟩

/-- The tokens ahead carry the scopes of the stream. -/
theorem lex_get : Lex d u c φ k get (fun stream => Token.Uniform u stream.after) fun _ => k :=
  .of_pure (fun s => (s, s)) (fun _ => rfl) fun _ h => ⟨h, h⟩

theorem lex_set {stream : Stream} (h : φ → Token.Uniform u stream.after) :
    Skims d u c φ k (set stream) :=
  fun _ => Expand.Lex.pure (fun hφ => ⟨trivial, h hφ.2⟩) rfl fun _ _ _ h => h

theorem lex_exhausted : Lex d u c φ k (liftM (Expand.exhausted : Expand α)) Q L := .lift Expand.Lex.exhausted

theorem lex_fail (fault : ParseFault) (site : Site) : Lex d u c φ k (fail fault site) Q L := .lift Expand.Lex.fail

/-- So does the next token. -/
theorem lex_peek : Lex d u c φ k peek (fun t => ∀ x, t = some x → Token.Uniform u [x]) fun _ => k :=
  .of_pure (fun s => (s.after.head?, s)) (fun _ => rfl) fun _ h =>
    ⟨fun _ hx => h.of_mem (List.mem_of_mem_head? hx), h⟩

theorem lex_atEnd : Skims d u c φ k atEnd := .of_look (fun s => s.after.isEmpty) fun _ => rfl

theorem lex_peekIs (test : Token → Bool) : Skims d u c φ k (peekIs test) :=
  .of_look (fun s => s.after.head?.any test) fun _ => rfl

theorem lex_peekNthIs (n : Nat) (test : Token → Bool) : Skims d u c φ k (peekNthIs n test) :=
  .of_look (fun s => s.after[n]?.any test) fun _ => rfl

theorem lex_peekGroup (delimiter : Delimiter) : Skims d u c φ k (peekGroup delimiter) :=
  lex_peekIs _

theorem lex_previousSite : Skims d u c φ k previousSite :=
  .of_look (fun s => (s.before.head?.map Token.site).getD .unknown) fun _ => rfl

theorem uniform_advance {stream : Stream} (h : Token.Uniform u stream.after) : Token.Uniform u stream.advance.after := by
  obtain ⟨before, after⟩ := stream
  cases after with
  | nil => exact h
  | cons t ts => exact (Token.uniform_cons.1 h).2

theorem lex_advance : Skims d u c φ k advance :=
  .of_pure (fun s => ((), s.advance)) (fun _ => rfl) fun _ h => ⟨trivial, uniform_advance h⟩

theorem lex_unexpected (expected : String) : Lex d u c φ k (unexpected expected : Parse α) Q L := by
  refine .bind lex_peek fun t => ?_
  cases t with
  | none => exact .bind lex_previousSite fun _ => lex_fail _ _
  | some t => exact lex_fail _ _

/-- So does a token that is taken. -/
theorem lex_next (expected : String) : Lex d u c φ k (next expected) (fun t => Token.Uniform u [t]) fun _ => k := by
  refine .bind lex_peek fun t => ?_
  cases t with
  | none => exact lex_unexpected _
  | some t =>
    refine .bind lex_advance fun _ => Lex.done (fun h => h.2.1 t rfl) rfl

theorem lex_eat (p : String) : Skims d u c φ k (eat p) := by
  refine .bind (lex_peekIs _) fun _ => .ite (fun _ => ?_) fun _ => ?_
  · exact .bind lex_advance fun _ => .here rfl
  · exact .here rfl

theorem lex_optionalSemicolon : Skims d u c φ k optionalSemicolon :=
  .map (lex_eat ";") (fun _ _ _ => trivial) fun _ => rfl

theorem lex_expectPunct (p : String) : Skims d u c φ k (expectPunct p) := by
  refine .bind (lex_eat p) fun _ => .ite (fun _ => ?_) fun _ => lex_unexpected _
  exact .here rfl

/-- An identifier is read where the token at the place is one. -/
theorem lex_expectIdent (expected : String) :
    Lex d u c φ k (expectIdent expected) (fun t => t.scopes = u ∧ t.isIdent = true) fun _ => k := by
  intro stream run r run' h plain
  have hident : r.1.isIdent = true := isIdent_of_expectIdent h
  have hnext : Lex d u c φ k (expectIdent expected) (fun t => Token.Uniform u [t]) fun _ => k :=
    .bind (lex_peekIs _) fun _ => .ite (fun _ => lex_next _) fun _ => lex_unexpected _
  obtain ⟨plain₀, post⟩ := hnext stream run r run' h plain
  refine ⟨plain₀, fun hφ R hv ho hk => ?_⟩
  obtain ⟨hQ, rest⟩ := post hφ R hv ho hk
  exact ⟨⟨⟨hQ.1.scopes_eq, hident⟩, hQ.2⟩, rest⟩

/-- So do the tokens of a group. -/
theorem lex_expectGroup (delimiter : Delimiter) (expected : String) :
    Lex d u c φ k (expectGroup delimiter expected) (fun r => Token.Uniform u r.1) fun _ => k := by
  refine .bind lex_peek fun t => ?_
  cases t with
  | none => exact lex_unexpected _
  | some t =>
    dsimp only
    split
    · next children hgroup =>
      refine .bind lex_advance fun _ => Lex.done (fun h => ?_) rfl
      exact (h.2.1 t rfl).group hgroup
    · exact lex_unexpected _

/-- Nothing is invoked without transformers. -/
theorem lex_invokeHere (s : Setup) : Lex d u c φ k (invokeHere s) (fun invoked => invoked = false) fun _ => k := by
  intro stream run r run' h plain
  obtain ⟨rfl, rfl⟩ := invokeHere_of_plain s h plain
  refine ⟨plain, fun hφ R hv _ hk => ⟨⟨rfl, hφ.1⟩, R, [], hv, .refl c R run', ?_, hk⟩⟩
  rw [List.append_nil]

theorem lex_invokeAll (s : Setup) (limit : Nat) : Skims d u c φ k (invokeAll s limit) := by
  induction limit generalizing φ with
  | zero => exact lex_exhausted
  | succ limit ih =>
    refine .bind (lex_invokeHere s) fun _ => .ite (fun _ => ih) fun _ => ?_
    exact .here rfl

end Parse

end Hygiene
