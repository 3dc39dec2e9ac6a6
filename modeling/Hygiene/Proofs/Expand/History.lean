import Hygiene.Proofs.Eval.Step
import Hygiene.Proofs.Expand.Code
import Hygiene.Proofs.Scope.Resolve
import Hygiene.Proofs.Token.Spelling

/-!
# Histories

The events of a run tell where its tokens come from. `Arises h p` says that the piece `p` has come about in the history
`h`: it is written in a text, or a plain value was written as it, or an event made it out of an earlier one by giving it
a scope or taking one away. `Stems h p q` says that it has become `q`. In a sound history every event fits the ones
before it. Histories have the last event first.
-/

namespace Hygiene

open List

namespace Event

/-- The scope that an event made. -/
def scope? : Event → Option ScopeId
  | opened scope => some scope
  | text _ _ scope => some scope
  | hidden _ scope => some scope
  | called call => some call.scope
  | _ => none

/-- The event made the second piece out of the first. -/
inductive Makes : Event → Piece → Piece → Prop where
  | enclosed {scope : ScopeId} {tokens : List Token} {p : Piece} (h : p ∈ Token.piecesAll tokens) :
      Makes (.enclosed scope tokens) p (p.mapScopes (·.insert scope))
  | left {scope : ScopeId} {tokens : List Token} {p : Piece} (h : p ∈ Token.piecesAll tokens) :
      Makes (.left scope tokens) p (p.mapScopes (·.erase scope))
  | called {call : Call} {p : Piece} (h : p ∈ Token.piecesAll call.rest) :
      Makes (.called call) p (p.mapScopes (·.flip call.scope))
  | invoked {inv : Invocation} {p : Piece} (h : p ∈ Token.piecesAll inv.output) :
      Makes (.invoked inv) p (p.markOutput inv.call.scope inv.call.transformer.outputScope)

end Event

/-- The stream that an invocation leaves: the tokens before the name of the transformer, the output, and the tokens
that the transformer did not take. -/
def Invocation.spliced (inv : Invocation) : Stream where
  before := inv.call.stream.before
  after :=
    markOutput inv.call.scope inv.call.transformer.outputScope inv.output ++ inv.call.rest.drop inv.taken

/-- The piece has come about in the history. -/
inductive Arises : List Event → Piece → Prop where
  | literal {h : List Event} {p : Piece} (lit : p.IsLiteral) : Arises h p
  | text {h : List Event} {file : Nat} {tokens : List Token} {scope : ScopeId} {p : Piece}
      (mem : p ∈ Token.piecesAll tokens) : Arises (.text file tokens scope :: h) (p.mapScopes (·.insert scope))
  | old {e : Event} {h : List Event} {p : Piece} (before : Arises h p) : Arises (e :: h) p
  | made {e : Event} {h : List Event} {p q : Piece} (made : e.Makes p q) : Arises (e :: h) q

/-- The first piece has become the second in the course of the history. -/
inductive Stems : List Event → Piece → Piece → Prop where
  | refl (p : Piece) : Stems [] p p
  | old {e : Event} {h : List Event} {p q : Piece} (before : Stems h p q) : Stems (e :: h) p q
  | made {e : Event} {h : List Event} {p q r : Piece} (before : Stems h p q) (made : e.Makes q r) : Stems (e :: h) p r

namespace History

/-- How many scopes have been made. -/
def scopes (h : List Event) : Nat := h.countP (·.scope?.isSome)

/-- The bindings that have been made, as they are after all that was hidden. -/
def bindings : List Event → List Binding
  | [] => []
  | .bound b :: h => bindings h ++ [b]
  | .hidden id scope :: h => (bindings h).modify id fun b => { b with hiddenFrom := some scope }
  | _ :: h => bindings h

/-- The store of a history. -/
def store (h : List Event) : Store := .ofBindings (bindings h).toArray

/-- How many bindings have got a name of their own. -/
def renamed (h : List Event) : Nat := (bindings h).countP (·.isRenamed)

/-- No code was run. -/
def Quiet (h : List Event) : Prop := ∀ e ∈ h, e.isRan = false

/-- The declaration of a transformer began when there were `mark` bindings. -/
def Began (h : List Event) (binding : Token) (mark : Nat) : Prop :=
  ∃ since before, h = since ++ .declaring binding :: before ∧ mark = (bindings before).length

end History

/-- Bindings of the kind are made with a name of their own, or without one: what is declared has one, what is imported
does not, and a transformer may be either. -/
def BindingKind.Renames : Bool → BindingKind → Prop
  | true, kind => kind = .declared ∨ kind = .transformer
  | false, kind => kind ≠ .declared

/-- The binding that is made when `n` bindings have a name of their own gets the next number with its name, or keeps its
name. -/
def Binding.Named (n : Nat) (b : Binding) : Prop :=
  b.fresh = b.name ++ "%" ++ toString (n + 1) ∧ b.kind.Renames true ∨ b.fresh = b.name ∧ b.kind.Renames false

/-- A name with a number is not the name. -/
theorem numbered_ne (name : String) (n : Nat) : name ++ "%" ++ toString n ≠ name := by
  intro h
  have hlength := congrArg String.length h
  simp only [String.length_append] at hlength
  have : "%".length = 1 := rfl
  omega

/-- The piece stands in the text, has no scopes yet, is spelled as a text is, and denotes its value. -/
def Piece.StandsIn (file : Nat) (p : Piece) : Prop :=
  (∃ span, p.mark = ⟨⟨some file, span⟩, .empty⟩) ∧ p.Spelled ∧ p.Denotes

/-- The event fits the ones before it. -/
def Event.Fits (h : List Event) : Event → Prop
  | .opened _ => True
  | .text file tokens _ => ∀ p ∈ Token.piecesAll tokens, p.StandsIn file
  | .enclosed scope tokens => .opened scope ∈ h ∧ ∀ p ∈ Token.piecesAll tokens, Arises h p
  | .left scope tokens =>
    (∃ mid earlier, h = mid ++ .opened scope :: earlier ∧ History.Quiet mid) ∧ ∀ p ∈ Token.piecesAll tokens, Arises h p
  | .bound b =>
    b.id = (History.bindings h).length ∧ b.hiddenFrom = none ∧ b.Named (History.renamed h) ∧
      ∃ label, Arises h ⟨⟨b.site, b.scopes⟩, label⟩ ∧ (Piece.name? ⟨⟨b.site, b.scopes⟩, label⟩).getD "" = b.name
  | .hidden id _ => ∃ b earlier, h = .bound b :: earlier ∧ b.id = id
  | .called call =>
    (∀ p ∈ Token.piecesAll (call.stream.before ++ call.stream.after), Arises h p) ∧
      call.transformer.value.Good (Arises h) ∧ ∀ o, call.transformer.outputScope = some o → ∃ id, .hidden id o ∈ h
  | .invoked inv =>
    inv.result = inv.spliced ∧ ∃ earlier, h = .called inv.call :: earlier ∧ ∀ p ∈ Token.piecesAll inv.output,
      Arises earlier p ∨ ∃ q ∈ Token.piecesAll inv.call.rest, p = q.mapScopes (·.flip inv.call.scope)
  | .declaring binding => ∀ p ∈ Token.pieces binding, Arises h p
  | .accepted binding mark init =>
    History.Began h binding mark ∧
      ∀ ident ∈ init.references, Expand.referenceFault? (History.store h) mark ident = none
  | .ran code => Content.Good (Arises h) (Statement.contentAll code)
  | .read ident => ∀ p ∈ Token.pieces ident, Arises h p
  | .shorthand ident => ∀ p ∈ Token.pieces ident, Arises h p

namespace History

/-- Every event fits the ones before it, and scopes are numbered in the order in which they were made. -/
inductive Sound : List Event → Prop where
  | nil : Sound []
  | cons {e : Event} {h : List Event} (sound : Sound h) (fresh : ∀ s, e.scope? = some s → s = scopes h)
      (fits : e.Fits h) : Sound (e :: h)

variable {h l : List Event} {e : Event} {s : Nat}

theorem countP_modify {α : Type} {p : α → Bool} {f : α → α} (hf : ∀ a, p (f a) = p a) (as : List α) (i : Nat) :
    (as.modify i f).countP p = as.countP p := by
  induction as generalizing i with
  | nil => simp
  | cons a as ih =>
    cases i with
    | zero => simp [countP_cons, hf]
    | succ i => simp [countP_cons, ih]

/-- Hiding a binding keeps its name. -/
theorem renamed_hidden (id : BindingId) (scope : ScopeId) : renamed (.hidden id scope :: h) = renamed h := by
  unfold renamed
  rw [bindings, countP_modify]
  exact fun _ => rfl

theorem Sound.tail (hs : Sound (e :: h)) : Sound h := by
  cases hs with
  | cons sound _ _ => exact sound

theorem Sound.fresh (hs : Sound (e :: h)) (he : e.scope? = some s) : s = scopes h := by
  cases hs with
  | cons _ fresh _ => exact fresh s he

theorem Sound.fits (hs : Sound (e :: h)) : e.Fits h := by
  cases hs with
  | cons _ _ fits => exact fits

/-- Every earlier state of a sound history is sound. -/
theorem Sound.of_append (hs : Sound (l ++ h)) : Sound h := by
  induction l with
  | nil => exact hs
  | cons e l ih => exact ih hs.tail

theorem scopes_cons (e : Event) (h : List Event) :
    scopes (e :: h) = scopes h + if e.scope?.isSome then 1 else 0 := by
  unfold scopes
  rw [countP_cons]

theorem scopes_le_append : scopes h ≤ scopes (l ++ h) := by
  unfold scopes
  rw [countP_append]
  exact Nat.le_add_left _ _

/-- The scope that an event made is smaller than the number of scopes. -/
theorem Sound.scope_lt (hs : Sound h) (he : e ∈ h) (hscope : e.scope? = some s) : s < scopes h := by
  induction h with
  | nil => cases he
  | cons e' h ih =>
    rw [scopes_cons]
    rcases mem_cons.1 he with rfl | he
    · rw [hs.fresh hscope, hscope]
      simp
    · have := ih hs.tail he
      omega

/-- Different events make different scopes. -/
theorem Sound.scope_unique (hs : Sound h) {e' : Event} (he : e ∈ h) (he' : e' ∈ h) (hscope : e.scope? = some s)
    (hscope' : e'.scope? = some s) : e = e' := by
  induction h with
  | nil => cases he
  | cons e₀ h ih =>
    rcases mem_cons.1 he with heq | hmem <;> rcases mem_cons.1 he' with heq' | hmem'
    · exact heq.trans heq'.symm
    · have h1 := hs.tail.scope_lt hmem' hscope'
      have h2 := hs.fresh (heq ▸ hscope)
      omega
    · have h1 := hs.tail.scope_lt hmem hscope
      have h2 := hs.fresh (heq' ▸ hscope')
      omega
    · exact ih hs.tail hmem hmem'

/-- A scope that is made after a history is not among those made in it. -/
theorem Sound.scopes_le (hs : Sound (l ++ h)) (he : e ∈ l) (hscope : e.scope? = some s) : scopes h ≤ s := by
  induction l with
  | nil => cases he
  | cons e' l ih =>
    rcases mem_cons.1 he with rfl | he
    · rw [hs.fresh hscope]
      exact scopes_le_append
    · exact ih hs.tail he

end History

theorem History.Began.append {h : List Event} {binding : Token} {mark : Nat} (hb : History.Began h binding mark)
    (l : List Event) : History.Began (l ++ h) binding mark := by
  obtain ⟨since, before, rfl, hmark⟩ := hb
  exact ⟨l ++ since, before, by rw [append_assoc], hmark⟩

namespace Arises

variable {h l : List Event} {p q : Piece}

theorem append (hp : Arises h p) : Arises (l ++ h) p := by
  induction l with
  | nil => exact hp
  | cons e l ih => exact ih.old

/-- Literals arise anywhere. -/
theorem literals : Piece.Literals (Arises h) := fun _ => literal

end Arises

end Hygiene
