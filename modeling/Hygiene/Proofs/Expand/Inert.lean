import Hygiene.Expand.Session
import Hygiene.Proofs.Expand.Change

/-!
# What only reads

Most of an expansion looks at tokens, makes scopes, bindings and lambdas, and takes down what it did. `Expand.Inert`
says so of one computation, whether it succeeds or fails: nothing else is changed, and no code is run.
-/

namespace Hygiene

open List

/-- The second run differs from the first in its store and its lambdas, and in events that tell neither of calls nor of
code. The bindings of the first are there as they were. -/
structure Run.Beside (run run' : Run) : Prop where
  same : run' = { run with store := run'.store, nextLambda := run'.nextLambda, events := run'.events }
  bindings : run.store.bindings.toList <+: run'.store.bindings.toList
  events : ∃ new, run'.events = new ++ run.events ∧ ∀ e ∈ new, e.isCall = false ∧ e.isRan = false

theorem Run.Beside.refl (run : Run) : run.Beside run := ⟨rfl, prefix_refl _, [], rfl, nofun⟩

theorem Run.Beside.trans {run run' run'' : Run} (h : run.Beside run') (h' : run'.Beside run'') : run.Beside run'' := by
  obtain ⟨hsame, hbindings, new, hnew, hquiet⟩ := h
  obtain ⟨hsame', hbindings', new', hnew', hquiet'⟩ := h'
  refine ⟨?_, hbindings.trans hbindings', new' ++ new, by rw [hnew', hnew, append_assoc], fun e he => ?_⟩
  · rw [hsame', hsame]
  · rcases mem_append.1 he with he | he
    · exact hquiet' e he
    · exact hquiet e he

/-- The change that only reads. -/
abbrev Change.inert : Change where
  Rel := Run.Beside
  Fault fault := fault.isPlain = true
  refl := .refl
  trans := .trans

namespace Expand

variable {α : Type}

/-- The computation only reads: it leaves the run beside the one it starts from, and fails with a plain fault. -/
def Inert (x : Expand α) : Prop := Makes .inert x

/-! ### The state of a run -/

theorem inert_record {event : Event} (h : event.isCall = false ∧ event.isRan = false) : Inert (record event) :=
  fun _ => ⟨rfl, prefix_refl _, [event], rfl, by simpa using h⟩

theorem inert_freshScope {event : ScopeId → Event}
    (h : ∀ scope, (event scope).isCall = false ∧ (event scope).isRan = false) : Inert (freshScope event) :=
  fun run => ⟨rfl, prefix_refl _, [event run.store.nextScope], rfl, by simpa using h _⟩

/-- Binding an identifier adds one binding at the end. -/
theorem toList_bind (store : Store) (ident : Token) (kind : BindingKind) (rename : Bool) : ∃ b,
    (store.bind ident kind rename).2.bindings.toList = store.bindings.toList ++ [b] := by
  cases rename <;> exact ⟨_, Array.toList_push⟩

theorem inert_bind (ident : Token) (kind : BindingKind) (rename : Bool) : Inert (bind ident kind rename) := by
  intro run
  refine ⟨rfl, ?_, _, rfl, fun e he => ?_⟩
  · obtain ⟨b, hb⟩ := toList_bind run.store ident kind rename
    exact ⟨[b], hb.symm⟩
  · obtain ⟨b, _, rfl⟩ := mem_map.1 he
    exact ⟨rfl, rfl⟩

theorem inert_bindVariable (ident : Token) : Inert (bindVariable ident) := .discard (inert_bind ident .declared true)

theorem inert_freshLambda : Inert freshLambda := fun _ => ⟨rfl, prefix_refl _, [], rfl, nofun⟩

theorem isPlain_referenceFault {store : Store} {mark : Nat} {ident : Token} {fault : DeclarationFault}
    (h : referenceFault? store mark ident = some fault) (name : String) :
    (ExpandFault.declaration name fault).isPlain = true := by
  unfold referenceFault? at h
  split at h
  · split at h
    · cases h
      rfl
    · cases h
  · split at h
    · cases h
    · cases h
      rfl

theorem inert_checkReferences (name : String) (mark : Nat) (idents : List Token) :
    Inert (checkReferences name mark idents) := by
  induction idents with
  | nil => exact .pure
  | cons ident rest ih =>
    refine .bind .get fun run => ?_
    split
    · next hfault => exact .fail (isPlain_referenceFault hfault name)
    · exact ih

theorem inert_acceptInitializer (binding : Token) (mark : Nat) (init : Expression) :
    Inert (acceptInitializer binding mark init) :=
  .bind (inert_checkReferences _ _ _) fun _ => inert_record ⟨rfl, rfl⟩

/-- The binding that is hidden is the new one. -/
theorem inert_bindHidden (binding : Token) : Inert (bindHidden binding) := by
  intro run
  obtain ⟨id, bound, hbind, hid⟩ : ∃ id bound, bind binding .transformer true run = .ok id bound ∧
      id = run.store.bindings.size := ⟨_, _, rfl, rfl⟩
  obtain ⟨hsame, ⟨new, hnew⟩, events, hevents, hquiet⟩ := (inert_bind binding .transformer true).of_ok hbind
  have heq : bindHidden binding run = .ok (id, bound.store.nextScope)
      { bound with
        store := ({ bound.store with nextScope := bound.store.nextScope + 1 } : Store).hide id bound.store.nextScope
        events := .hidden id bound.store.nextScope :: bound.events } := by
    unfold bindHidden
    simp only [Bind.bind, EStateM.bind, hbind]
    rfl
  refine .of_ok heq ⟨?_, ?_, .hidden id bound.store.nextScope :: events, by rw [hevents]; rfl, ?_⟩
  · rw [hsame]
  · have hlength : id = run.store.bindings.toList.length := hid
    rw [Store.hide, Array.toList_modify, ← hnew, hlength, prefix_iff_getElem?]
    intro i hi
    rw [List.getElem?_modify, List.getElem?_append_left hi, List.getElem?_eq_getElem hi]
    exact congrArg some (if_neg (Nat.ne_of_gt hi))
  · exact forall_mem_cons.2 ⟨⟨rfl, rfl⟩, hquiet⟩

theorem inert_readModule (specifier text : String) (file : Nat) (dialect : Dialect) :
    Inert (readModule specifier text file dialect) := by
  unfold readModule
  split
  · exact .fail rfl
  · split
    · exact .fail rfl
    · exact .pure

end Expand

namespace Parse

variable {α : Type}

/-- The reader only reads. -/
def Inert (x : Parse α) : Prop := Makes .inert x

/-! ### Streams -/

theorem inert_get : Inert get := fun _ => .pure

theorem inert_run : Inert run := .lift .get

theorem inert_peek : Inert peek := .bind inert_get fun _ => .pure

theorem inert_peekIs (test : Token → Bool) : Inert (peekIs test) := .bind inert_peek fun _ => .pure

theorem inert_peekNthIs (n : Nat) (test : Token → Bool) : Inert (peekNthIs n test) :=
  .bind (.bind inert_get fun _ => .pure) fun _ => .pure

theorem inert_advance : Inert advance := fun _ => .pure

theorem inert_previousSite : Inert previousSite := .bind inert_get fun _ => .pure

theorem inert_fail (fault : ParseFault) (site : Site) : Inert (fail (α := α) fault site) := .lift (.fail rfl)

theorem inert_unexpected (expected : String) : Inert (unexpected (α := α) expected) := by
  refine .bind inert_peek fun token => ?_
  cases token with
  | some token => exact inert_fail _ _
  | none => exact .bind inert_previousSite fun _ => inert_fail _ _

theorem inert_next (expected : String) : Inert (next expected) := by
  refine .bind inert_peek fun token => ?_
  cases token with
  | some token => exact .bind inert_advance fun _ => .pure
  | none => exact inert_unexpected _

theorem inert_eat (text : String) : Inert (eat text) :=
  .bind (inert_peekIs _) fun _ => .ite (.bind inert_advance fun _ => .pure) .pure

theorem inert_optionalSemicolon : Inert optionalSemicolon := .map (inert_eat ";")

theorem inert_expectIdent (expected : String) : Inert (expectIdent expected) :=
  .bind (inert_peekIs _) fun _ => .ite (inert_next _) (inert_unexpected _)

theorem inert_expectGroup (delimiter : Delimiter) (expected : String) : Inert (expectGroup delimiter expected) := by
  refine .bind inert_peek fun token => ?_
  cases token with
  | none => exact inert_unexpected _
  | some token =>
    dsimp only
    split
    · exact .bind inert_advance fun _ => .pure
    · exact inert_unexpected _

theorem inert_peekGroup (delimiter : Delimiter) : Inert (peekGroup delimiter) := inert_peekIs _

/-! ### Heads of terms -/

/-! ### Imports and export lists -/

theorem inert_aliasedNames (what : String) (tokens : List Token) : Expand.Inert (aliasedNames what tokens) := by
  unfold aliasedNames
  dsimp only
  split
  · exact .ite .pure (.fail rfl)
  · exact .ite .pure (.fail rfl)
  · exact .fail rfl

theorem inert_importSpecifiers (parts : List (List Token)) : Expand.Inert (importSpecifiers parts) :=
  .mapM fun _ => .bind (inert_aliasedNames _ _) fun _ => .pure

theorem inert_defaultImport : Inert defaultImport := by
  refine .bind (inert_peekIs _) fun _ => .bind (inert_peekIs _) fun _ => .ite ?_ .pure
  exact .bind (inert_expectIdent _) fun _ => .bind (.map (inert_eat ",")) fun _ => .pure

theorem inert_moduleSpecifier : Inert moduleSpecifier := by
  refine .bind inert_peek fun token => ?_
  split
  · exact .bind inert_advance fun _ => .pure
  · exact inert_unexpected _

theorem inert_forSyntax : Inert forSyntax := by
  refine .bind (inert_peekIs _) fun _ => .bind (inert_peekNthIs _ _) fun _ => .ite ?_ .pure
  exact .bind inert_advance fun _ => .bind inert_advance fun _ => .pure

theorem inert_importDeclaration : Inert importDeclaration := by
  have hrest : ∀ (start : Token) defaultBinding named, Inert (do
      let specifier ← moduleSpecifier
      let forSyntax ← forSyntax
      optionalSemicolon
      return ({ defaultBinding, named, specifier, forSyntax, site := start.site.cover (← previousSite) } : Import)) :=
    fun start defaultBinding named =>
      .bind inert_moduleSpecifier fun _ => .bind inert_forSyntax fun _ =>
        .bind inert_optionalSemicolon fun _ => .bind inert_previousSite fun _ => .pure
  have hfrom : ∀ (start : Token) defaultBinding named, Inert (do
      if ← peekIs (·.isWord "from") then advance else unexpected "`from`"
      let specifier ← moduleSpecifier
      let forSyntax ← forSyntax
      optionalSemicolon
      return ({ defaultBinding, named, specifier, forSyntax, site := start.site.cover (← previousSite) } : Import)) :=
    fun start defaultBinding named => .bind (inert_peekIs _) fun _ => .ite
      (.bind inert_advance fun _ => hrest start defaultBinding named)
      (.bind (inert_unexpected (α := Unit) _) fun _ => hrest start defaultBinding named)
  refine .bind (inert_next _) fun start => .bind inert_defaultImport fun defaultBinding => ?_
  refine .bind (inert_peekGroup _) fun _ => .ite ?_ (hfrom start defaultBinding [])
  refine .bind (inert_expectGroup _ _) fun r => ?_
  exact .bind (.lift (inert_importSpecifiers _)) fun named => hfrom start defaultBinding named

end Parse

end Hygiene
