import Mathlib.Data.List.Forall2
import Hygiene.Proofs.Expand.Modules
import Hygiene.Proofs.Expand.Provenance

/-!
# Introduced binders do not capture names from the place of use

An invocation has a scope that nothing had before it, and no later event gives the scope to a token. So a name from the
place of use never refers to a binding that has it.
-/

namespace Hygiene

namespace Invocation

/-- A piece of the output and what stands in its place in the stream. A piece that the transformer was handed is there
as it was at the place of use; any other one has got the scope of the invocation. -/
inductive Places (inv : Invocation) (earlier : List Event) : Piece → Piece → Prop where
  | handed (q : Piece) (rest : q ∈ Token.piecesAll inv.call.rest) :
      Places inv earlier (q.mapScopes (·.flip inv.call.scope)) q
  | introduced (p p' : Piece) (arises : Arises earlier p) (label : p'.label = p.label)
      (scopes : ∀ x, x ∈ p'.scopes ↔ x = inv.call.scope ∨ some x = inv.call.transformer.outputScope ∨ x ∈ p.scopes) :
      Places inv earlier p p'

/-- What is guaranteed of an invocation in a history: `earlier` are the events before the call, and `later` the events
after it. -/
structure Hygienic (inv : Invocation) (earlier later : List Event) : Prop where
  /-- Nothing that came about before has the scope of the invocation. -/
  fresh : ∀ p, Arises earlier p → inv.call.scope ∉ p.scopes
  /-- No binding made before has it. -/
  bindings : ∀ b ∈ History.bindings earlier, inv.call.scope ∉ b.scopes
  /-- The tokens around the name of the transformer came about before. -/
  stream : ∀ p ∈ Token.piecesAll (inv.call.stream.before ++ inv.call.stream.after), Arises earlier p
  /-- So did the tokens in the transformer. -/
  value : inv.call.transformer.value.Good (Arises earlier)
  /-- The output stands between the tokens before the name and the tokens that the transformer did not take. -/
  spliced : inv.result = inv.spliced
  /-- Each piece of the output is handed back or introduced. -/
  placed : List.Forall₂ (inv.Places earlier) (Token.piecesAll inv.output)
    (Token.piecesAll (markOutput inv.call.scope inv.call.transformer.outputScope inv.output))
  /-- What was there before never refers to a binding with the scope, in no store. -/
  uncaptured : ∀ p q, Arises earlier p → Stems later p q → inv.call.scope ∉ q.scopes ∧
    ∀ (store : Store) (name : String) (b : Binding), store.resolve name q.scopes = some b → inv.call.scope ∉ b.scopes
  /-- What has the scope stems from an introduced piece, or from a piece that the transformer was handed and did not hand
  back. -/
  carried : ∀ q, Arises (later ++ .invoked inv :: .called inv.call :: earlier) q → inv.call.scope ∈ q.scopes →
    (∃ p ∈ Token.piecesAll inv.output, Arises earlier p ∧
      Stems later (p.markOutput inv.call.scope inv.call.transformer.outputScope) q) ∨
    ∃ p ∈ Token.piecesAll inv.call.rest, Stems later (p.mapScopes (·.flip inv.call.scope)) q

end Invocation

namespace History

variable {inv : Invocation} {earlier later : List Event} {p q : Piece}

theorem Sound.fresh_piece (hs : Sound (.invoked inv :: .called inv.call :: earlier)) (hp : Arises earlier p) :
    inv.call.scope ∉ p.scopes := by
  intro hx
  have hlt := hs.tail.tail.lt hp hx
  rw [hs.scope_eq] at hlt
  exact Nat.lt_irrefl _ hlt

theorem Sound.fresh_binding (hs : Sound (.invoked inv :: .called inv.call :: earlier)) {b : Binding}
    (hb : b ∈ bindings earlier) : inv.call.scope ∉ b.scopes := by
  intro hx
  have hlt := hs.tail.tail.binding_lt hb hx
  rw [hs.scope_eq] at hlt
  exact Nat.lt_irrefl _ hlt

/-- The pieces after the name of a transformer came about before. -/
theorem Sound.arises_rest (hs : Sound (.invoked inv :: .called inv.call :: earlier))
    (hq : q ∈ Token.piecesAll inv.call.rest) : Arises earlier q := hs.tail.source (.called hq)

/-- A piece that was handed to the transformer has the scope of the invocation. -/
theorem Sound.mem_handed (hs : Sound (.invoked inv :: .called inv.call :: earlier))
    (hq : q ∈ Token.piecesAll inv.call.rest) : inv.call.scope ∈ (q.mapScopes (·.flip inv.call.scope)).scopes :=
  ScopeSet.mem_flip_self.2 (hs.fresh_piece (hs.arises_rest hq))

/-- A piece that was handed to the transformer comes back as it was. -/
theorem Sound.markOutput_handed (hs : Sound (.invoked inv :: .called inv.call :: earlier))
    (hq : q ∈ Token.piecesAll inv.call.rest) :
    (q.mapScopes (·.flip inv.call.scope)).markOutput inv.call.scope inv.call.transformer.outputScope = q := by
  rw [Piece.markOutput_of_mem (hs.mem_handed hq), Piece.mapScopes_mapScopes]
  exact Piece.mapScopes_eq_self (ScopeSet.flip_flip _ _)

/-- A piece of the output came about before, or the transformer was handed it. -/
theorem Sound.output (hs : Sound (.invoked inv :: .called inv.call :: earlier)) (hp : p ∈ Token.piecesAll inv.output) :
    Arises earlier p ∨ ∃ q ∈ Token.piecesAll inv.call.rest, p = q.mapScopes (·.flip inv.call.scope) := by
  obtain ⟨_, _, heq, hout⟩ := hs.fits
  obtain ⟨_, rfl⟩ := List.cons.inj heq
  exact hout p hp

theorem Sound.places (hs : Sound (.invoked inv :: .called inv.call :: earlier)) (hp : p ∈ Token.piecesAll inv.output) :
    inv.Places earlier p (p.markOutput inv.call.scope inv.call.transformer.outputScope) := by
  rcases hs.output hp with harises | ⟨q, hq, rfl⟩
  · exact .introduced p _ harises (Piece.label_markOutput _ _ _) fun x =>
      Piece.mem_markOutput_of_not_mem (hs.fresh_piece harises)
  · rw [hs.markOutput_handed hq]
    exact .handed q hq

/-- Right after an invocation, its scope is on what it introduced and on what its transformer was handed. -/
theorem Sound.carried_invoked (hs : Sound (.invoked inv :: .called inv.call :: earlier))
    (hq : Arises (.invoked inv :: .called inv.call :: earlier) q) (hx : inv.call.scope ∈ q.scopes) :
    (∃ p ∈ Token.piecesAll inv.output, Arises earlier p ∧
      p.markOutput inv.call.scope inv.call.transformer.outputScope = q) ∨
    ∃ p ∈ Token.piecesAll inv.call.rest, p.mapScopes (·.flip inv.call.scope) = q := by
  have absent : ∀ p, Arises earlier p → inv.call.scope ∈ p.scopes → False := fun p hp => hs.fresh_piece hp
  cases hq with
  | literal lit => exact (absent q (.literal lit) hx).elim
  | made hm =>
    cases hm with
    | invoked hp =>
      rcases hs.output hp with harises | ⟨p, hrest, rfl⟩
      · exact Or.inl ⟨_, hp, harises, rfl⟩
      · rw [hs.markOutput_handed hrest] at hx
        exact (hs.fresh_piece (hs.arises_rest hrest) hx).elim
  | old hq =>
    cases hq with
    | literal lit => exact (absent q (.literal lit) hx).elim
    | old hq => exact (absent q hq hx).elim
    | made hm =>
      cases hm with
      | called hp => exact Or.inr ⟨_, hp, rfl⟩

/-- Whatever has the scope of an invocation stems from what had it right after the invocation. -/
theorem Sound.stems_of_mem (hs : Sound (later ++ .invoked inv :: .called inv.call :: earlier))
    (hq : Arises (later ++ .invoked inv :: .called inv.call :: earlier) q) (hx : inv.call.scope ∈ q.scopes) :
    ∃ p, Arises (.invoked inv :: .called inv.call :: earlier) p ∧ inv.call.scope ∈ p.scopes ∧ Stems later p q := by
  induction later generalizing q with
  | nil => exact ⟨q, hq, hx, .refl q⟩
  | cons e later ih =>
    have literal : q.IsLiteral → inv.call.scope ∉ q.scopes := by
      intro lit
      rw [lit.1]
      exact ScopeSet.not_mem_empty
    cases hq with
    | literal lit => exact absurd hx (literal lit)
    | text hmem =>
      cases hs.scope_unique (e := .called inv.call) (by simp) List.mem_cons_self
        (congrArg some (hs.mem_text hmem hx)) rfl
    | old hq =>
      obtain ⟨p, hp, hxp, hst⟩ := ih hs.tail hq hx
      exact ⟨p, hp, hxp, .old hst⟩
    | made hm =>
      rcases hm.mem hx with hxq | ha
      · obtain ⟨p, hp, hxp, hst⟩ := ih hs.tail (hs.source hm) hxq
        exact ⟨p, hp, hxp, .made hst hm⟩
      · exact (hs.not_adds ha).elim

/-- Every invocation in a sound history is hygienic. -/
theorem Sound.hygienic (hs : Sound (later ++ .invoked inv :: .called inv.call :: earlier)) :
    inv.Hygienic earlier later where
  fresh := fun _ => hs.of_append.fresh_piece
  bindings := fun _ => hs.of_append.fresh_binding
  stream := hs.of_append.tail.fits.1
  value := hs.of_append.tail.fits.2.1
  spliced := hs.of_append.fits.1
  placed := by
    rw [Token.piecesAll_markOutput, List.forall₂_map_right_iff]
    exact List.forall₂_same.2 fun p hp => hs.of_append.places hp
  uncaptured := by
    intro p q hp hst
    have hq : inv.call.scope ∉ q.scopes := hs.not_mem_of_stems hst (hs.of_append.fresh_piece hp)
    refine ⟨hq, fun store name b hb hx => hq ?_⟩
    exact (Binding.isVisible_iff.1 (Store.resolve_visible hb).2).2.1 _ hx
  carried := by
    intro q hq hx
    obtain ⟨p, hp, hxp, hst⟩ := hs.stems_of_mem hq hx
    rcases hs.of_append.carried_invoked hp hxp with ⟨p', hp', harises, rfl⟩ | ⟨p', hp', rfl⟩
    · exact Or.inl ⟨p', hp', harises, hst⟩
    · exact Or.inr ⟨p', hp', hst⟩

end History

/-- In every run that an operation on a program leaves, everything that the run holds has come about in its history, and
every invocation in it is hygienic. -/
theorem Run.Final.invocation_hygienic {s : Setup} {run : Run} (hrun : run.Final s) {later before : List Event}
    {inv : Invocation} (h : run.events = later ++ .invoked inv :: before) :
    run.Sound ∧ ∃ earlier, before = .called inv.call :: earlier ∧ inv.Hygienic earlier later := by
  have hs : History.Sound (later ++ .invoked inv :: before) := h ▸ hrun.sound.history
  obtain ⟨earlier, rfl⟩ := hs.of_append.called
  exact ⟨hrun.sound, earlier, rfl, hs.hygienic⟩

/-- A transformer takes a name and declares a variable that is initialized with it. -/
def declaringText : String :=
  "syntax m = ctx => \x7b let p = ctx.next().value; return #`let t = $\x7bp\x7d;`; \x7d; let t = a; m t;"

/-- The name that the transformer takes is handed back among four tokens that it introduces. -/
theorem Run.Final.invocation_hygienic_declaring : ∃ later inv earlier,
    (finalRun (expandProgram .alone declaringText)).events = later ++ .invoked inv :: .called inv.call :: earlier ∧
    inv.taken = 1 ∧ inv.output.length = 5 ∧ inv.Hygienic earlier later := by
  have hany : History.anyInvocation (fun inv _ _ => inv.taken == 1 && inv.output.length == 5) []
      (finalRun (expandProgram .alone declaringText)).events = true := by decide +kernel
  obtain ⟨later, inv, before, hsplit, htest⟩ := History.exists_invocation hany
  obtain ⟨_, earlier, rfl, hhygienic⟩ := Run.Final.invocation_hygienic (.program _) hsplit
  simp only [Bool.and_eq_true, beq_iff_eq] at htest
  exact ⟨later, inv, earlier, hsplit, htest.1, htest.2, hhygienic⟩

end Hygiene
