import Hygiene.Module.Loader
import Hygiene.Proofs.Expand.Transparency

/-!
# Modules do not see one another's bindings

The text of a module gets a scope that was made for it. No event takes it away from a piece, and none gives it to
another one.
-/

namespace Hygiene

open List

namespace Event

/-- The event takes the scope away from pieces or gives it to them. -/
def Handles : Event → ScopeId → Prop
  | .left scope _, x => x = scope
  | e, x => e.Adds x

variable {e : Event} {p q : Piece} {x : Nat}

/-- A scope that an event does not handle is on what it makes exactly if it was there before. -/
theorem Makes.mem_iff (hm : e.Makes p q) (hx : ¬ e.Handles x) : x ∈ q.scopes ↔ x ∈ p.scopes := by
  cases hm with
  | enclosed hp => exact ScopeSet.mem_insert.trans (or_iff_right hx)
  | left hp => exact ScopeSet.mem_erase.trans (and_iff_left hx)
  | called hp => exact ScopeSet.mem_flip_of_ne hx
  | @invoked inv _ hp =>
    have hne : x ≠ inv.call.scope := fun h => hx (Or.inl h)
    by_cases hi : inv.call.scope ∈ p.scopes
    · rw [Piece.markOutput_of_mem hi, Piece.scopes_mapScopes]
      exact ScopeSet.mem_flip_of_ne hne
    · rw [Piece.mem_markOutput_of_not_mem hi, or_iff_right hne]
      exact or_iff_right fun h => hx (Or.inr h)

end Event

namespace History

variable {e : Event} {h l : List Event} {p q : Piece} {x file : Nat} {tokens : List Token}

/-- The scopes that an event handles were not made for a module. -/
theorem Sound.made_of_handles (hs : Sound (e :: h)) (hx : e.Handles x) :
    ∃ e' ∈ e :: h, e'.scope? = some x ∧ ∀ file tokens, e' ≠ .text file tokens x := by
  have fits := hs.fits
  cases e with
  | enclosed scope tokens =>
    obtain rfl : x = scope := hx
    exact ⟨.opened x, mem_cons_of_mem _ fits.1, rfl, nofun⟩
  | left scope tokens =>
    obtain rfl : x = scope := hx
    obtain ⟨⟨mid, earlier, rfl, _⟩, _⟩ := fits
    exact ⟨.opened x, by simp, rfl, nofun⟩
  | called call =>
    obtain rfl : x = call.scope := hx
    exact ⟨.called call, mem_cons_self, rfl, nofun⟩
  | invoked inv =>
    obtain ⟨_, earlier, rfl, _⟩ := fits
    rcases hx with rfl | ho
    · exact ⟨.called inv.call, by simp, rfl, nofun⟩
    · obtain ⟨id, hid⟩ := hs.tail.fits.2.2 x ho.symm
      exact ⟨.hidden id x, by simp [hid], rfl, nofun⟩
  | _ => exact hx.elim

/-- In a sound history no event handles the scope of a module. -/
theorem Sound.not_handles (hs : Sound h) (htext : .text file tokens x ∈ h) (he : e :: l <:+ h) : ¬ e.Handles x := by
  obtain ⟨later, rfl⟩ := he
  intro hx
  obtain ⟨e', he', hscope, hne⟩ := hs.of_append.made_of_handles hx
  exact hne _ _ (hs.scope_unique (mem_append_right _ he') htext hscope rfl)

/-- A piece keeps the scope of a module, and gets none. -/
theorem Sound.mem_iff_of_stems (hs : Sound h) (htext : .text file tokens x ∈ h) {earlier : List Event}
    (hl : l ++ earlier <:+ h) (hst : Stems l p q) : x ∈ q.scopes ↔ x ∈ p.scopes := by
  induction hst with
  | refl p => exact Iff.rfl
  | old _ ih => exact ih ((suffix_cons _ _).trans hl)
  | made _ hm ih => exact (hm.mem_iff (hs.not_handles htext hl)).trans (ih ((suffix_cons _ _).trans hl))

/-- The mark of something that was read from the text with the given number. -/
def ReadFrom (h : List Event) (file : Nat) (m : Mark) : Prop :=
  ∃ later tokens scope earlier p label, h = later ++ .text file tokens scope :: earlier ∧ p ∈ Token.piecesAll tokens ∧
    Stems later (p.mapScopes (·.insert scope)) ⟨m, label⟩

/-- Of all scopes of modules, what was read from a text has exactly the one of this text. -/
theorem Sound.mem_of_readFrom (hs : Sound h) {m : Mark} (hm : ReadFrom h file m) :
    ∃ tokens scope, .text file tokens scope ∈ h ∧
      ∀ file' tokens' x, .text file' tokens' x ∈ h → (x ∈ m.scopes ↔ x = scope) := by
  obtain ⟨later, tokens, scope, earlier, p, label, rfl, hp, hst⟩ := hm
  refine ⟨tokens, scope, by simp, fun file' tokens' x htext => ?_⟩
  have hkept := hs.mem_iff_of_stems htext (suffix_refl _) hst
  rw [show x ∈ m.scopes ↔ _ from hkept]
  constructor
  · exact hs.of_append.mem_text hp
  · rintro rfl
    exact ScopeSet.mem_insert.2 (Or.inl rfl)

end History

/-- In every state of a run, an identifier that was read from one text refers to no binding whose identifier was read from
another text. -/
theorem Run.Final.resolves_within_text {s : Setup} {run : Run} (hrun : run.Final s) {h : List Event}
    (hstate : h <:+ run.events) {ident : Token} {b : Binding} {file file' : Nat}
    (hident : History.ReadFrom h file ident.note) (hres : (History.store h).resolveIdent ident = some b)
    (hb : History.ReadFrom h file' ⟨b.site, b.scopes⟩) : file' = file := by
  obtain ⟨later, hlater⟩ := hstate
  have hs : History.Sound h := (hlater ▸ hrun.sound.history : History.Sound (later ++ h)).of_append
  obtain ⟨tokens, scope, htext, hscopes⟩ := hs.mem_of_readFrom hident
  obtain ⟨tokens', scope', htext', hscopes'⟩ := hs.mem_of_readFrom hb
  obtain ⟨name, _, hres⟩ := Option.bind_eq_some_iff.1 hres
  have hsub : ∀ x ∈ b.scopes, x ∈ ident.scopes := (Binding.isVisible_iff.1 (Store.resolve_visible hres).2).2.1
  have hmem : scope' ∈ ident.scopes := hsub scope' ((hscopes' _ _ _ htext').2 rfl)
  obtain rfl : scope' = scope := (hscopes _ _ _ htext').1 hmem
  cases hs.scope_unique htext htext' rfl rfl
  rfl

/-! ### Names of one text among those of another -/

/-- The pieces that an event handles, with what it makes of them. -/
def Event.made : Event → List (Piece × Piece)
  | .enclosed scope tokens => (Token.piecesAll tokens).map fun p => (p, p.mapScopes (·.insert scope))
  | .left scope tokens => (Token.piecesAll tokens).map fun p => (p, p.mapScopes (·.erase scope))
  | .called call => (Token.piecesAll call.rest).map fun p => (p, p.mapScopes (·.flip call.scope))
  | .invoked inv =>
    (Token.piecesAll inv.output).map fun p => (p, p.markOutput inv.call.scope inv.call.transformer.outputScope)
  | _ => []

theorem Event.makes_of_mem_made {e : Event} {p q : Piece} (h : (p, q) ∈ e.made) : e.Makes p q := by
  cases e with
  | enclosed scope tokens =>
    obtain ⟨p', hp, heq⟩ := mem_map.1 h
    cases heq
    exact .enclosed hp
  | left scope tokens =>
    obtain ⟨p', hp, heq⟩ := mem_map.1 h
    cases heq
    exact .left hp
  | called call =>
    obtain ⟨p', hp, heq⟩ := mem_map.1 h
    cases heq
    exact .called hp
  | invoked inv =>
    obtain ⟨p', hp, heq⟩ := mem_map.1 h
    cases heq
    exact .invoked hp
  | _ => cases h

namespace History

variable {name : String} {file : Nat} {h : List Event}

/-- The marks that identifiers of this name get when a text is read. -/
def marksOf (name : String) (file : Nat) : Event → List Mark
  | .text f tokens scope =>
    if f = file then
      ((Token.piecesAll tokens).filter (·.name? == some name)).map fun p => (p.mapScopes (·.insert scope)).mark
    else []
  | _ => []

/-- The marks of the identifiers of this name that were read from a text. -/
def marksFrom (name : String) (file : Nat) : List Event → List Mark
  | [] => []
  | e :: h =>
    let old := marksFrom name file h
    let made := e.made.filter fun (p, _) => p.name? == some name && old.contains p.mark
    marksOf name file e ++ made.map (·.2.mark) ++ old

/-- The marks that are computed are those of something that was read from the text. -/
theorem exists_of_mem_marksFrom {m : Mark}
    (hm : m ∈ marksFrom name file h) : ∃ later tokens scope earlier p, h = later ++ .text file tokens scope :: earlier ∧
      p ∈ Token.piecesAll tokens ∧ Stems later (p.mapScopes (·.insert scope)) ⟨m, .atom (.ident name)⟩ := by
  induction h generalizing m with
  | nil => cases hm
  | cons e h ih =>
    simp only [marksFrom, mem_append, mem_map, mem_filter, Bool.and_eq_true, beq_iff_eq] at hm
    rcases hm with (hm | ⟨⟨p, q⟩, ⟨hmade, hname, hold⟩, rfl⟩) | hm
    · cases e with
      | text f tokens scope =>
        by_cases hfile : f = file
        · subst hfile
          rw [marksOf, if_pos rfl] at hm
          obtain ⟨p, hp, rfl⟩ := mem_map.1 hm
          obtain ⟨hp, hname⟩ := mem_filter.1 hp
          refine ⟨[], tokens, scope, h, p, rfl, hp, ?_⟩
          have hlabel : p.label = .atom (.ident name) := Piece.label_of_name? (beq_iff_eq.1 hname)
          rw [← hlabel]
          exact .refl _
        · rw [marksOf, if_neg hfile] at hm
          cases hm
      | _ => cases hm
    · obtain ⟨later, tokens, scope, earlier, p', rfl, hp', hst⟩ := ih (contains_iff_mem.1 hold)
      have hlabel : p.label = .atom (.ident name) := Piece.label_of_name? hname
      have hmakes : e.Makes p q := Event.makes_of_mem_made hmade
      refine ⟨e :: later, tokens, scope, earlier, p', rfl, hp', ?_⟩
      rw [← hlabel] at hst
      rw [← hlabel, ← hmakes.label]
      exact .made hst hmakes
    · obtain ⟨later, tokens, scope, earlier, p, rfl, hp, hst⟩ := ih hm
      exact ⟨e :: later, tokens, scope, earlier, p, rfl, hp, .old hst⟩

theorem readFrom_of_mem_marksFrom {m : Mark} (hm : m ∈ marksFrom name file h) : ReadFrom h file m := by
  obtain ⟨later, tokens, scope, earlier, p, hsplit, hp, hst⟩ := exists_of_mem_marksFrom hm
  exact ⟨later, tokens, scope, earlier, p, _, hsplit, hp, hst⟩

/-- Whether an identifier that was read as an expression stems from a text and refers to a binding from that text. -/
def readsOwn (name : String) (file : Nat) (h : List Event) : Bool :=
  h.any fun
    | .read ident => (marksFrom name file h).contains ident.note &&
      ((store h).resolveIdent ident).any fun b => (marksFrom name file h).contains ⟨b.site, b.scopes⟩
    | _ => false

theorem exists_of_readsOwn (hreads : readsOwn name file h = true) :
    ∃ ident b, .read ident ∈ h ∧ ReadFrom h file ident.note ∧ (store h).resolveIdent ident = some b ∧
      ReadFrom h file ⟨b.site, b.scopes⟩ := by
  obtain ⟨e, he, htest⟩ := any_eq_true.1 hreads
  cases e with
  | read ident =>
    obtain ⟨hident, hb⟩ := Bool.and_eq_true_iff.1 htest
    obtain ⟨b, hres, hb⟩ := (Option.any_eq_true ..).1 hb
    exact ⟨ident, b, he, readFrom_of_mem_marksFrom (contains_iff_mem.1 hident), hres,
      readFrom_of_mem_marksFrom (contains_iff_mem.1 hb)⟩
  | _ => cases htest

end History

/-- A module that exports a transformer, which introduces a variable of the module. -/
def Setup.exporting : Setup where
  load := tableLoader [("./m.js", "#lang 'sweet.js'; var x = 1; export syntax m = ctx => #`x`;")]

/-- The transformer is used where there is another variable of that name. -/
def importingText : String := "import \x7b m \x7d from './m.js'; var x = 2; m;"

/-- An identifier of the imported module is read in the program, and refers to the variable of that module. -/
theorem Run.Final.resolves_within_text_imported : ∃ run : Run, finalRun (expandProgram .exporting importingText) = run ∧
    ∃ ident b file file', .read ident ∈ run.events ∧ 0 < file ∧ History.ReadFrom run.events file ident.note ∧
      (History.store run.events).resolveIdent ident = some b ∧ History.ReadFrom run.events file' ⟨b.site, b.scopes⟩ ∧
      file' = file := by
  have hfinal : Run.Final .exporting (finalRun (expandProgram .exporting importingText)) := .program importingText
  have hreads : History.readsOwn "x" 1 (finalRun (expandProgram .exporting importingText)).events = true := by
    decide +kernel
  generalize finalRun (expandProgram .exporting importingText) = run at hfinal hreads
  obtain ⟨ident, b, hread, hident, hres, hb⟩ := History.exists_of_readsOwn hreads
  exact ⟨run, rfl, ident, b, 1, 1, hread, Nat.one_pos, hident, hres, hb,
    Run.Final.resolves_within_text hfinal (suffix_refl _) hident hres hb⟩

end Hygiene
