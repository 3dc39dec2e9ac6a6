import Hygiene.Proofs.Expand.Transparency

/-!
# The name of a transformer in its own output

A transformer gets the tokens after its name with the scope of the invocation, which its output then loses again, but
its own name without it. So the name takes the scope on where it is handed back.
-/

namespace Hygiene

theorem Token.getElem?_markOutput {output : List Token} {i : Nat} {p : Piece} (h : (piecesAll output)[i]? = some p)
    (scope : ScopeId) (outputScope : Option ScopeId) :
    (piecesAll (markOutput scope outputScope output))[i]? = some (p.markOutput scope outputScope) := by
  rw [piecesAll_markOutput, List.getElem?_map, h, Option.map_some]

namespace History

variable {inv : Invocation} {earlier : List Event}

/-- The name of the transformer came about before the call. -/
theorem Sound.arises_name (hs : Sound (.invoked inv :: .called inv.call :: earlier)) {name : Token}
    (hname : inv.call.stream.after.head? = some name) {p : Piece} (hp : p ∈ Token.pieces name) : Arises earlier p := by
  refine hs.tail.fits.1 p (Token.mem_piecesAll.2 ⟨name, ?_, hp⟩)
  exact List.mem_append_right _ (List.mem_of_mem_head? hname)

/-- What the place of use refers to does not have the scope of the invocation. -/
theorem Sound.unseen (hs : Sound (.invoked inv :: .called inv.call :: earlier)) {q : Piece}
    (hq : q ∈ Token.piecesAll inv.call.rest) {store : Store} {name : String} {b : Binding}
    (hb : store.resolve name q.scopes = some b) : inv.call.scope ∉ b.scopes := fun hx =>
  hs.fresh_piece (hs.arises_rest hq) ((Binding.isVisible_iff.1 (Store.resolve_visible hb).2).2.1 _ hx)

end History

/-- In every invocation, the name that `name` answers is the name at the place of use without a further scope. Wherever
a piece of it stands in the output, the stream gets it with the scope of the invocation and the output scope, so what it
binds is not seen from the place of use. A piece that `next` answered is put back as it was. -/
theorem Run.Final.own_name_introduced {s : Setup} {run : Run} (hrun : run.Final s) {later before : List Event}
    {inv : Invocation} (h : run.events = later ++ .invoked inv :: before) {name : Token}
    (hname : inv.call.stream.after.head? = some name) :
    (∀ w r object cursor args site, Evaluator.methodCall w r object (.context cursor name) "name" args site =
      pure (.fragment [name])) ∧ inv.result = inv.spliced ∧
    ∀ (i : Nat) (p : Piece), (Token.piecesAll inv.output)[i]? = some p → ∃ p',
      (Token.piecesAll (markOutput inv.call.scope inv.call.transformer.outputScope inv.output))[i]? = some p' ∧
      p'.label = p.label ∧
      (p ∈ Token.pieces name → inv.call.scope ∉ p.scopes ∧
        (∀ x, x ∈ p'.scopes ↔ x = inv.call.scope ∨ some x = inv.call.transformer.outputScope ∨ x ∈ p.scopes) ∧
        ∀ q ∈ Token.piecesAll inv.call.rest, ∀ (store : Store) (n : String) (b : Binding),
          store.resolve n q.scopes = some b → ¬ ∀ x ∈ p'.scopes, x ∈ b.scopes) ∧
      ∀ q ∈ Token.piecesAll inv.call.rest, p = q.mapScopes (·.flip inv.call.scope) → p' = q := by
  have hs : History.Sound (later ++ .invoked inv :: before) := h ▸ hrun.sound.history
  obtain ⟨earlier, rfl⟩ := hs.of_append.called
  have hinv := hs.of_append
  refine ⟨fun _ _ _ _ _ _ => rfl, hinv.fits.1, fun i p hi =>
    ⟨_, Token.getElem?_markOutput hi _ _, Piece.label_markOutput _ _ _, ?_, ?_⟩⟩
  · intro hp
    have hfresh := hinv.fresh_piece (hinv.arises_name hname hp)
    have hscopes : ∀ x, x ∈ (p.markOutput inv.call.scope inv.call.transformer.outputScope).scopes ↔
        x = inv.call.scope ∨ some x = inv.call.transformer.outputScope ∨ x ∈ p.scopes :=
      fun x => Piece.mem_markOutput_of_not_mem hfresh
    exact ⟨hfresh, hscopes, fun q hq store n b hb hsub => hinv.unseen hq hb (hsub _ ((hscopes _).2 (Or.inl rfl)))⟩
  · rintro q hq rfl
    exact hinv.markOutput_handed hq

/-- A transformer makes its own name the parameter of a function, and returns in it the name that it takes. -/
def ownNameText : String :=
  "syntax m = ctx => \x7b let n = ctx.name(); let b = ctx.next().value; " ++
    "return #`(function ($\x7bn\x7d) \x7b return $\x7bb\x7d; \x7d)('x')`; \x7d; output = m m;"

/-- The fourth piece of the output is a piece of the name. -/
def Invocation.putsOwnName (inv : Invocation) (_ _ : List Event) : Bool :=
  match inv.call.stream.after, (Token.piecesAll inv.output)[3]? with
  | name :: _, some p => p.name? == some "m" && Piece.among "m" p.mark (Token.pieces name)
  | _, _ => false

/-- The parameter is the fourth piece of the output. -/
theorem ownNameText_invocation : ∃ later inv before name p,
    (finalRun (expandProgram .alone ownNameText)).events = later ++ .invoked inv :: before ∧
    inv.call.stream.after.head? = some name ∧ p ∈ Token.pieces name ∧ (Token.piecesAll inv.output)[3]? = some p := by
  have hany : History.anyInvocation Invocation.putsOwnName [] (finalRun (expandProgram .alone ownNameText)).events = true := by
    decide +kernel
  obtain ⟨later, inv, before, hsplit, htest⟩ := History.exists_invocation hany
  unfold Invocation.putsOwnName at htest
  split at htest
  · next name rest p hafter hp =>
    rw [Bool.and_eq_true, beq_iff_eq] at htest
    refine ⟨later, inv, before, name, p, hsplit, ?_, Piece.mem_of_among htest.2 htest.1, hp⟩
    rw [hafter, List.head?_cons]
  · cases htest

/-- The parameter has the scope of the invocation where it is put into the stream. -/
theorem Run.Final.own_name_introduced_parameter : ∃ later inv before name p p',
    (finalRun (expandProgram .alone ownNameText)).events = later ++ .invoked inv :: before ∧
    p ∈ Token.pieces name ∧ (Token.piecesAll inv.output)[3]? = some p ∧
    (Token.piecesAll (markOutput inv.call.scope inv.call.transformer.outputScope inv.output))[3]? = some p' ∧
    inv.call.scope ∈ p'.scopes := by
  obtain ⟨later, inv, before, name, p, hsplit, hname, hp, hi⟩ := ownNameText_invocation
  obtain ⟨p', hp', _, hown, _⟩ := (Run.Final.own_name_introduced (.program _) hsplit hname).2.2 3 p hi
  exact ⟨later, inv, before, name, p, p', hsplit, hp, hi, hp', ((hown hp).2.1 _).2 (Or.inl rfl)⟩

/-- The parameter does not have the scopes that the name of the transformer has at the place of use. -/
theorem Run.Final.own_name_not_restored : ∃ later inv before name p p',
    (finalRun (expandProgram .alone ownNameText)).events = later ++ .invoked inv :: before ∧
    inv.call.stream.after.head? = some name ∧ p ∈ Token.pieces name ∧ (Token.piecesAll inv.output)[3]? = some p ∧
    (Token.piecesAll (markOutput inv.call.scope inv.call.transformer.outputScope inv.output))[3]? = some p' ∧
    p'.scopes ≠ p.scopes := by
  obtain ⟨later, inv, before, name, p, hsplit, hname, hp, hi⟩ := ownNameText_invocation
  have hs : History.Sound (later ++ .invoked inv :: before) := hsplit ▸ (Run.Final.program _).sound.history
  obtain ⟨earlier, rfl⟩ := hs.of_append.called
  have hfresh := hs.of_append.fresh_piece (hs.of_append.arises_name hname hp)
  refine ⟨later, inv, _, name, p, _, hsplit, hname, hp, hi, Token.getElem?_markOutput hi _ _, fun heq => hfresh ?_⟩
  rw [← heq]
  exact (Piece.mem_markOutput_of_not_mem hfresh).2 (Or.inl rfl)

end Hygiene
