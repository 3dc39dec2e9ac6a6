import Mathlib.Data.List.Infix
import Hygiene.Proofs.Expand.Modules

/-!
# What the initializers of transformers name

When a transformer is declared, each identifier in its initializer names something that exists at compile time. The
identifiers are resolved again each time the transformer runs.
-/

namespace Hygiene

/-- The identifier names something that exists at compile time: a transformer, an import for compile-time code, a
binding that was made when there were `mark` bindings or more, or something known everywhere. -/
def Store.AtCompileTime (store : Store) (mark : Nat) (ident : Token) : Prop :=
  match store.resolveIdent ident with
  | some b =>
    b.kind = .transformer ∨ (∃ specifier exportName, b.kind = .compileTimeImport specifier exportName) ∨ mark ≤ b.id
  | none => (globalValue? ident.name).isSome = true

/-- An identifier that is not at fault exists at compile time. -/
theorem Store.atCompileTime_of_referenceFault? {store : Store} {mark : Nat} {ident : Token}
    (h : Expand.referenceFault? store mark ident = none) : store.AtCompileTime mark ident := by
  unfold Expand.referenceFault? at h
  unfold AtCompileTime
  cases hres : store.resolveIdent ident with
  | none =>
    rw [hres] at h
    by_contra hglobal
    simp [hglobal] at h
  | some b =>
    rw [hres] at h
    simp only [ite_eq_right_iff, reduceCtorEq, imp_false, Bool.and_eq_true, Bool.not_eq_true', not_and,
      Bool.not_eq_false] at h
    cases hkind : b.kind with
    | transformer => exact Or.inl hkind
    | compileTimeImport specifier exportName => exact Or.inr (Or.inl ⟨_, _, hkind⟩)
    | declared | runtimeImport specifier exportName =>
      rw [hkind] at h
      exact Or.inr (Or.inr (of_decide_eq_true (h rfl)))

/-- What a state says of an identifier in an initializer that was accepted after the events `earlier`, with `mark`
bindings at the start of the declaration. It named something that existed at compile time, and names it still, or it
names a binding that was made since. -/
structure History.NamesAccepted (state earlier : List Event) (binding : Token) (mark : Nat) (ident : Token) : Prop where
  began : Began earlier binding mark
  accepted : (store earlier).AtCompileTime mark ident
  kept : (store state).resolveIdent ident = (store earlier).resolveIdent ident ∨
    ∃ b, (store state).resolveIdent ident = some b ∧ (bindings earlier).length ≤ b.id

/-- In every state after the initializer of a transformer was accepted, an identifier in it names what it named then, which
exists at compile time, or a binding that was made since. -/
theorem Run.Final.accepted_reference {s : Setup} {run : Run} (hrun : run.Final s) {later earlier : List Event}
    {binding : Token} {mark : Nat} {init : Expression}
    (hstate : later ++ .accepted binding mark init :: earlier <:+ run.events) {ident : Token}
    (hident : ident ∈ init.references) :
    History.NamesAccepted (later ++ .accepted binding mark init :: earlier) earlier binding mark ident := by
  obtain ⟨last, hlast⟩ := hstate
  have hs : History.Sound (later ++ .accepted binding mark init :: earlier) :=
    (hlast ▸ hrun.sound.history : History.Sound (last ++ _)).of_append
  obtain ⟨hbegan, href⟩ := hs.of_append.fits
  exact ⟨hbegan, Store.atCompileTime_of_referenceFault? (href ident hident), hs.resolveIdent_later nofun ident⟩

/-! ### Initializers in given programs -/

/-- Whether an initializer was accepted that names an identifier of which the test holds, given the events before. -/
def History.acceptedName (name : String) (test : Token → List Event → Bool) (h : List Event) : Bool :=
  h.tails.any fun
    | .accepted _ _ init :: earlier => init.references.any fun ident => ident.isWord name && test ident earlier
    | _ => false

theorem History.exists_of_acceptedName {name : String} {test : Token → List Event → Bool} {h : List Event}
    (haccepted : acceptedName name test h = true) : ∃ later binding mark init earlier,
      h = later ++ .accepted binding mark init :: earlier ∧
      ∃ ident ∈ init.references, ident.isWord name = true ∧ test ident earlier = true := by
  obtain ⟨suffix, hsuffix, htest⟩ := List.any_eq_true.1 haccepted
  split at htest
  · next binding mark init earlier =>
    obtain ⟨later, hlater⟩ := (List.mem_tails ..).1 hsuffix
    obtain ⟨ident, hident, htest⟩ := List.any_eq_true.1 htest
    obtain ⟨hname, htest⟩ := Bool.and_eq_true_iff.1 htest
    exact ⟨later, binding, mark, init, earlier, hlater.symm, ident, hident, hname, htest⟩
  · cases htest

/-- A transformer whose initializer names what is known everywhere, and is used afterwards. -/
def globalText : String := "syntax m = ctx => \x7b String(1); return #`1`; \x7d; var y = 2; m;"

/-- The name still stands for what is known everywhere when all has been expanded. -/
theorem Run.Final.accepted_reference_global : ∃ run : Run, finalRun (expandProgram .alone globalText) = run ∧
    ∃ later binding mark init earlier, run.events = later ++ .accepted binding mark init :: earlier ∧
      ∃ ident ∈ init.references, ident.isWord "String" = true ∧ (History.store run.events).resolveIdent ident = none ∧
      History.NamesAccepted (later ++ .accepted binding mark init :: earlier) earlier binding mark ident := by
  have hfinal : Run.Final .alone (finalRun (expandProgram .alone globalText)) := .program globalText
  have haccepted : (fun run : Run => History.acceptedName "String"
      (fun ident _ => ((History.store run.events).resolveIdent ident).isNone) run.events)
      (finalRun (expandProgram .alone globalText)) = true := by decide +kernel
  generalize finalRun (expandProgram .alone globalText) = run at hfinal haccepted
  obtain ⟨later, binding, mark, init, earlier, hsplit, ident, hident, hname, hnone⟩ :=
    History.exists_of_acceptedName haccepted
  refine ⟨run, rfl, later, binding, mark, init, earlier, hsplit, ident, hident, hname,
    Option.isNone_iff_eq_none.1 hnone, ?_⟩
  exact Run.Final.accepted_reference hfinal (hsplit ▸ List.suffix_refl _) hident

/-- A variable behind a transformer has the name of something known everywhere that the initializer names. -/
def shadowingText : String := "syntax m = ctx => \x7b String(1); return #`1`; \x7d; var String = 2;"

/-- The name in the accepted initializer has come to stand for the variable, which is not in the initializer. -/
theorem Run.Final.accepted_reference_shadowed : ∃ run : Run, finalRun (expandProgram .alone shadowingText) = run ∧
    ∃ later binding mark init earlier, run.events = later ++ .accepted binding mark init :: earlier ∧
      ∃ ident ∈ init.references, ∃ b, (History.store run.events).resolveIdent ident = some b ∧ b.kind = .declared ∧
        (History.bindings earlier).length ≤ b.id := by
  have haccepted : (fun run : Run => History.acceptedName "String"
      (fun ident earlier => ((History.store run.events).resolveIdent ident).any fun b =>
        b.kind = .declared && (History.bindings earlier).length ≤ b.id) run.events)
      (finalRun (expandProgram .alone shadowingText)) = true := by decide +kernel
  generalize finalRun (expandProgram .alone shadowingText) = run at haccepted
  obtain ⟨later, binding, mark, init, earlier, hsplit, ident, hident, _, hany⟩ :=
    History.exists_of_acceptedName haccepted
  obtain ⟨b, hb, htest⟩ := (Option.any_eq_true ..).1 hany
  simp only [Bool.and_eq_true, decide_eq_true_eq] at htest
  exact ⟨run, rfl, later, binding, mark, init, earlier, hsplit, ident, hident, b, hb, htest.1, htest.2⟩

end Hygiene
