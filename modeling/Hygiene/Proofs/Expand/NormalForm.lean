import Hygiene.Proofs.Expand.ModuleLaw
import Hygiene.Proofs.Expand.Transparency

/-!
# Expanded programs are in normal form

While terms are read, the token at the place is expanded as long as it refers to a transformer. A property that is read
together with its value is not looked at.
-/

namespace Hygiene

namespace History

variable {h l : List Event} {ident : Token} {b : Binding}

/-- An identifier that did not refer to a transformer when it was read refers to one only if that was bound later. -/
theorem Sound.bound_after_read (hs : Sound (l ++ .read ident :: h))
    (hread : ∀ c, (store h).resolveIdent ident = some c → c.kind.isTransformer = false)
    (hb : (store (l ++ .read ident :: h)).resolveIdent ident = some b) (hk : b.kind.isTransformer = true) :
    (bindings h).length ≤ b.id := by
  rcases hs.resolveIdent_later nofun ident with hsame | ⟨c, hc, hle⟩
  · have := hread b (hsame.symm.trans hb)
    rw [hk] at this
    cases this
  · rw [hb] at hc
    cases hc
    exact hle

end History

/-- The run of a program that was expanded holds its module, and the output is made from it. -/
theorem record_of_expandProgram {s : Setup} {text : String} {expansion : Expansion} {run : Run}
    (h : expandProgram s text = .ok expansion run) : ∃ record, Assoc.get? entrySpecifier run.modules = some record ∧
      expansion.tree = Lowering.module { store := run.store, sources := run.sources, config := s.config } record := by
  obtain ⟨record, run₁, hentry, h⟩ := Expand.bind_eq_ok h
  have hget := Expand.get?_of_compile hentry
  refine ⟨record, ?_⟩
  cases h
  exact ⟨hget, rfl⟩

/-- An identifier that is read as an expression refers in the final store to no transformer but one that was bound after
the identifier had been read. Occurrences are told apart by their tokens, so one token that a transformer gives twice
counts as read early when one copy was. -/
theorem expandProgram_normal {s : Setup} {text : String} {expansion : Expansion} {run : Run}
    (h : expandProgram s text = .ok expansion run) : ∃ record, Assoc.get? entrySpecifier run.modules = some record ∧
      expansion.tree = Lowering.module { store := run.store, sources := run.sources, config := s.config } record ∧
      ∀ ident, .use ident ∈ record.content → ∀ b, run.store.resolveIdent ident = some b → b.kind.isTransformer = true →
        .shorthand ident ∈ run.events ∨ ∃ later earlier, run.events = later ++ .read ident :: earlier ∧
          (History.bindings earlier).length ≤ b.id := by
  obtain ⟨record, hget, htree⟩ := record_of_expandProgram h
  have hr : run.Sound := (Run.Final.of_ok h).sound
  obtain ⟨key, hmem⟩ := Assoc.exists_mem_of_get? hget
  refine ⟨record, hget, htree, fun ident huse b hb hk => ?_⟩
  rcases hr.modules _ hmem _ huse trivial with hshort | ⟨later, earlier, hsplit, hread⟩
  · exact Or.inl hshort
  · have hs : History.Sound (later ++ .read ident :: earlier) := hsplit ▸ hr.history
    have hb' : (History.store (later ++ .read ident :: earlier)).resolveIdent ident = some b := by
      rw [← hsplit, hr.resolveIdent_store, hb]
    exact Or.inr ⟨later, earlier, hsplit, hs.bound_after_read hread hb' hk⟩

/-- A name stands before the declaration of the transformer that it is bound to, and behind it. -/
def earlyText : String := "m; syntax m = ctx => #`x`; m;"

/-- Whether an identifier of the entry program refers to a transformer. -/
def Run.refersToTransformer (run : Run) : Bool :=
  (Assoc.get? entrySpecifier run.modules).any fun record => record.content.any fun
    | .use ident => (run.store.resolveIdent ident).any (·.kind.isTransformer)
    | _ => false

/-- The identifier that refers to a transformer was read before the transformer was bound. -/
theorem expandProgram_normal_early : ∃ expansion run, expandProgram .alone earlyText = .ok expansion run ∧
    ∃ record, Assoc.get? entrySpecifier run.modules = some record ∧
      ∀ ident, .use ident ∈ record.content → ∀ b, run.store.resolveIdent ident = some b → b.kind.isTransformer = true →
        .shorthand ident ∈ run.events ∨ ∃ later earlier, run.events = later ++ .read ident :: earlier ∧
          (History.bindings earlier).length ≤ b.id := by
  obtain ⟨expansion, run, hres, -⟩ := exists_of_succeeds (expandProgram .alone earlyText) (fun _ _ => true)
    (by decide +kernel)
  obtain ⟨record, hget, _, huses⟩ := expandProgram_normal hres
  exact ⟨expansion, run, hres, record, hget, huses⟩

/-- The expanded program has an identifier that refers to a transformer. -/
theorem expandProgram_not_normal : ∃ expansion run, expandProgram .alone earlyText = .ok expansion run ∧
    ∃ record, Assoc.get? entrySpecifier run.modules = some record ∧
      ∃ ident, .use ident ∈ record.content ∧ ∃ b, run.store.resolveIdent ident = some b ∧ b.kind.isTransformer = true := by
  obtain ⟨expansion, run, hres, hrefers⟩ := exists_of_succeeds (expandProgram .alone earlyText)
    (fun _ run => run.refersToTransformer) (by decide +kernel)
  obtain ⟨record, hget, hany⟩ := (Option.any_eq_true ..).1 hrefers
  obtain ⟨c, hc, htest⟩ := List.any_eq_true.1 hany
  cases c with
  | piece p => cases htest
  | use ident =>
    obtain ⟨b, hb, hk⟩ := (Option.any_eq_true ..).1 htest
    exact ⟨expansion, run, hres, record, hget, ident, hc, b, hb, hk⟩

end Hygiene
