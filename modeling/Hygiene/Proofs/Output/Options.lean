import Hygiene.Proofs.Expand.ModuleLaw
import Hygiene.Proofs.Expand.Names
import Hygiene.Proofs.Parallel.Output

/-!
# What the options of the output change

The options are asked for when the output is written, and nowhere before. So two runs that differ in them only go
through the same states. The plain form of a tree, without locations and with the placeholder for names with a percent
sign, is the same for both.
-/

namespace Hygiene

variable {w w' : Lowering} {ident : Token}

/-! ### The plain form of a tree -/

/-- The placeholder for a name with a percent sign, and any other name as it is. -/
def plainName (name : String) : String := if '%' ∈ name.toList then hygienePlaceholder else name

mutual

/-- The tree without locations, and with the placeholder for every name of an identifier that has a percent sign. -/
def Node.plain : Node → Node
  | .mk kind _ fields => .mk kind none (Field.plainAll fields)

/-- The plain content of a field. -/
def Field.plain : Field → Field
  | .absent => .absent
  | .flag b => .flag b
  | .number x => .number x
  | .text s => .text s
  | .name s => .name (plainName s)
  | .node n => .node n.plain
  | .nodes ns => .nodes (Node.plainAll ns)

/-- The fields with plain content. -/
def Field.plainAll : List (String × Field) → List (String × Field)
  | [] => []
  | (name, field) :: rest => (name, field.plain) :: Field.plainAll rest

/-- The plain forms of trees. -/
def Node.plainAll : List Node → List Node
  | [] => []
  | n :: ns => n.plain :: Node.plainAll ns

end

/-- Trees with the same plain form, and names. -/
abbrev SamePlain (n n' : Node) : Prop := n.plain = n'.plain

theorem Field.AlikeAll.plain {l l' : List (String × Field)}
    (h : Field.AlikeAll SamePlain (fun s s' => plainName s = plainName s') l l') : Field.plainAll l = Field.plainAll l' := by
  have hnodes : ∀ {l l' : List Node}, List.Forall₂ SamePlain l l' → Node.plainAll l = Node.plainAll l' := by
    intro l l' hl
    induction hl with
    | nil => rfl
    | cons h _ ih => rw [Node.plainAll, Node.plainAll, h, ih]
  induction h with
  | nil => rfl
  | cons hf _ ih =>
    rw [Field.plainAll, Field.plainAll, ih]
    cases hf with
    | name h => rw [Field.plain, Field.plain, h]
    | node h => rw [Field.plain, Field.plain, h]
    | nodes h => rw [Field.plain, Field.plain, hnodes h]
    | _ => rfl

namespace Lowering

/-- The two write names with the same plain form, so they write trees with the same plain form. -/
theorem samePlain (hstore : w.store = w'.store)
    (hname : ∀ ident, plainName (w.name ident) = plainName (w'.name ident)) :
    Corresponds .equal SamePlain (fun s s' => plainName s = plainName s') w w' where
  name := by
    rintro ident _ rfl
    exact hname ident
  unnamed := rfl
  isTransformer := by
    rintro ident _ rfl
    rw [isTransformer, isTransformer, hstore]
  bare hfields := by rw [SamePlain, Node.plain, Node.plain, hfields.plain]
  node _ hfields := by rw [SamePlain, node, node, Node.plain, Node.plain, hfields.plain]

/-- An identifier keeps its name, or is written as the placeholder or under the fresh name of its binding. -/
theorem name_cases (w : Lowering) (ident : Token) :
    w.store.Keeps ident ∧ w.name ident = ident.name ∨ ∃ b, w.store.resolveIdent ident = some b ∧ b.isRenamed = true ∧
      (w.name ident = hygienePlaceholder ∨ w.name ident = b.fresh) := by
  rcases w.store.keeps_or_renamed ident with hkeeps | ⟨b, hb, hr⟩
  · refine Or.inl ⟨hkeeps, ?_⟩
    unfold name
    split
    · next b hb => rw [if_neg (by simp [hkeeps b hb])]
    · rfl
  · refine Or.inr ⟨b, hb, hr, ?_⟩
    unfold name
    rw [hb]
    dsimp only
    rw [if_pos hr]
    split
    · exact Or.inl rfl
    · exact Or.inr rfl

end Lowering

/-! ### Names in runs -/

theorem plainName_placeholder : plainName hygienePlaceholder = hygienePlaceholder := by decide

/-- A name that a text can contain is not the placeholder. -/
theorem ne_placeholder {name : String} (h : ∀ c ∈ name.toList, Lexeme.continuesName c = true) :
    name ≠ hygienePlaceholder := by
  rintro rfl
  exact absurd (h '<' (by decide)) (by decide)

namespace Run.Sound

variable {run : Run} (hr : run.Sound) {entry : String × ModuleRecord}

include hr

/-- A binding with a name of its own has a number in it. -/
theorem exists_fresh {b : Binding} (hb : run.store.resolveIdent ident = some b)
    (hrenamed : b.isRenamed = true) : ∃ n : Nat, b.fresh = b.name ++ "%" ++ toString n := by
  rw [← hr.resolveIdent_store] at hb
  obtain ⟨k, hk⟩ := List.mem_iff_getElem?.1 (ModuleRecord.mem_of_resolveIdent hb)
  exact ⟨_, hr.history.fresh_of_isRenamed hk hrenamed⟩

/-- The options of the output change names in such a way only that their plain form stays. -/
theorem similar (hw : w.store = run.store) (hw' : w'.store = run.store) :
    w.Corresponds .equal SamePlain (fun s s' => plainName s = plainName s') w' := by
  refine Lowering.samePlain (hw.trans hw'.symm) fun ident => ?_
  have hplain : ∀ {v : Lowering} {b : Binding}, v.store = run.store → run.store.resolveIdent ident = some b →
      b.isRenamed = true → plainName (v.name ident) = hygienePlaceholder := by
    intro v b hv hb hrenamed
    rcases v.name_cases ident with ⟨hkeeps, _⟩ | ⟨c, hc, _, hname | hname⟩
    · rw [hkeeps b (hv ▸ hb)] at hrenamed
      cases hrenamed
    · rw [hname, plainName_placeholder]
    · rw [hv, hb] at hc
      cases hc
      obtain ⟨n, hfresh⟩ := hr.exists_fresh hb hrenamed
      rw [hname, hfresh, plainName, if_pos (by simp)]
  rcases w.name_cases ident with ⟨hkeeps, hname⟩ | ⟨b, hb, hrenamed, _⟩
  · rcases w'.name_cases ident with ⟨_, hname'⟩ | ⟨b, hb, hrenamed, _⟩
    · rw [hname, hname']
    · rw [hkeeps b (by rw [hw, ← hw', hb])] at hrenamed
      cases hrenamed
  · rw [hw] at hb
    rw [hplain hw hb hrenamed, hplain hw' hb hrenamed]

/-- The identifiers of the modules have names that a text can contain. -/
theorem spelled (he : entry ∈ run.modules)
    (hident : Content.ofTokens [ident] ⊆ entry.2.content) : ∀ c ∈ ident.name.toList, Lexeme.continuesName c = true := by
  cases ident with
  | nest => exact List.forall_mem_nil _
  | atom mark a =>
    cases a with
    | ident name =>
      refine hr.history.spelled_of_occurs ⟨name, rfl, hr.modules entry he (.piece _) (hident ?_)⟩
      simp [Content.ofTokens, Token.piecesAll, Token.pieces, Tree.note]
    | _ => exact List.forall_mem_nil _

/-- The plain form of a module's tree does not depend on the options of the output. -/
theorem plain_module (hw : w.store = run.store) (hw' : w'.store = run.store)
    (hsources : w.sources = w'.sources) (he : entry ∈ run.modules) :
    (w.module entry.2).plain = (w'.module entry.2).plain := by
  refine (hr.similar hw hw').module (by rw [hsources]; rfl)
    (List.forall₂_same.2 fun item _ => item.alike_self Likeness.equal_reflexive) ?_
  rintro _ hitem specifiers site rfl s hs s' halike
  obtain rfl := halike.eq
  have hspelled : ∀ c ∈ s.exportName.toList, Lexeme.continuesName c = true := by
    refine hr.spelled he (List.Subset.trans (Content.ofTokens_subset ?_) fun _ hc => List.mem_flatMap.2 ⟨_, hitem, hc⟩)
    intro t ht
    rw [List.mem_singleton.1 ht]
    refine List.mem_flatMap.2 ⟨s, hs, ?_⟩
    cases s.outer <;> simp
  have hrenamed : ∀ {v : Lowering} {b : Binding}, v.store = run.store → v.store.resolveIdent s.inner = some b →
      b.isRenamed = true → v.name s.inner ≠ s.exportName := by
    intro v b hv hb hrenamed heq
    rcases v.name_cases s.inner with ⟨hkeeps, _⟩ | ⟨c, hc, _, hname | hname⟩
    · rw [hkeeps b hb] at hrenamed
      cases hrenamed
    · exact ne_placeholder hspelled (heq.symm.trans hname)
    · rw [hb] at hc
      cases hc
      obtain ⟨n, hfresh⟩ := hr.exists_fresh (hv ▸ hb) hrenamed
      exact ne_numbered hspelled n (heq.symm.trans (hname.trans hfresh))
  rcases w.name_cases s.inner with ⟨hkeeps, hname⟩ | ⟨b, hb, hr, _⟩
  · rcases w'.name_cases s.inner with ⟨_, hname'⟩ | ⟨b, hb, hr, _⟩
    · rw [hname, hname']
    · rw [hkeeps b (by rw [hw, ← hw', hb])] at hr
      cases hr
  · exact iff_of_false (hrenamed hw hb hr) (hrenamed hw' (by rw [hw', ← hw, hb]) hr)

end Run.Sound

/-! ### The same run -/

/-- The setup with other options of the output. -/
def Setup.writing (s : Setup) (names : NameRendering) (trackLocations : Bool) : Setup :=
  { s with config := { s.config with names, trackLocations } }

namespace Expand

variable (s : Setup) (names : NameRendering) (trackLocations : Bool)

theorem instantiate_writing (phase : Phase) (limit : Nat) :
    instantiate (s.writing names trackLocations) phase limit = instantiate s phase limit := by
  induction limit with
  | zero => rfl
  | succ limit ih =>
    funext record
    simp only [instantiate]
    rw [ih]
    rfl

theorem bindImport_writing (record : ModuleRecord) (imported : Import) :
    bindImport (s.writing names trackLocations) record imported = bindImport s record imported := by
  funext wanted
  simp only [bindImport, instantiate_writing]

theorem bind_congr_mayGive {α β : Type} {x x' : Expand α} {f f' : α → Expand β} (hx : x = x')
    (hf : ∀ a, x.MayGive a ∨ x'.MayGive a → f a = f' a) : x >>= f = x' >>= f' := by
  subst hx
  funext run
  simp only [Bind.bind, EStateM.bind]
  cases heq : x run with
  | error e run' => rfl
  | ok a run' => exact congrFun (hf a (Or.inl ⟨run, run', heq⟩)) run'

end Expand

/-- The options of the output have no part in the expansion of modules. -/
def writingLaw (s : Setup) (names : NameRendering) (trackLocations : Bool) :
    ModuleLaw s (s.writing names trackLocations) where
  Rel x x' := x = x'
  bind_rel := Expand.bind_congr_mayGive
  inert _ := rfl
  exhausted := rfl
  invokeHere _ := rfl
  declared {_} _ _ binding recursive _ _ hx hc := Parse.declared_of_settle _ _ (fun x x' => x = x')
    Expand.bind_congr_mayGive (fun _ => rfl) (fun _ _ _ => rfl) recursive hx hc
  covers _ := trivial
  akin := ⟨rfl, rfl, rfl, rfl⟩
  noted _ := rfl
  circular _ _ := rfl
  whileLoading specifier hx := congrArg (Expand.whileLoading specifier) hx
  keep _ := rfl
  processImport imported p p' hp _ := by
    have hload : p.load = p'.load := funext fun specifier => funext fun site => hp specifier site
    simp only [Expand.processImport, Expand.bindImport_writing, hload]

/-- How two expansions go together that differ in the options of the output only. -/
structure Expansion.SamePlain (x x' : Expansion) : Prop where
  tree : x.tree.plain = x'.tree.plain
  expansions : x.expansions = x'.expansions
  origins : x.origins = x'.origins
  diagnostics : x.diagnostics = x'.diagnostics

/-- Both operations fail with the same error, or both give expansions that go together; the runs that they leave are the
same. -/
def SameOutcome (result result' : EStateM.Result ExpandError Run Expansion) : Prop :=
  match result, result' with
  | .ok x run, .ok x' run' => x.SamePlain x' ∧ run = run'
  | .error e run, .error e' run' => e = e' ∧ run = run'
  | _, _ => False

namespace Expand

/-- The output is written from the same run. -/
theorem sameOutcome_finish {s : Setup} {names : NameRendering} {trackLocations : Bool} {x x' : Expand ModuleRecord}
    (hx : x = x') (hkept : ∀ record run, x {} = .ok record run → ∃ key, (key, record) ∈ run.modules)
    (hsound : Run.Sound (finalRun ((x >>= finish s) {}))) :
    SameOutcome ((x >>= finish s) {}) ((x' >>= finish (s.writing names trackLocations)) {}) := by
  subst hx
  simp only [Bind.bind, EStateM.bind] at hsound ⊢
  cases heq : x {} with
  | error e run => exact ⟨rfl, rfl⟩
  | ok record run =>
    rw [heq] at hsound
    obtain ⟨key, hmem⟩ := hkept record run heq
    have hr : Run.Sound (finalRun (finish s record run)) := hsound
    have hmem : (key, record) ∈ (finalRun (finish s record run)).modules := hmem
    refine ⟨⟨?_, rfl, rfl, rfl⟩, rfl⟩
    refine hr.plain_module ?_ ?_ ?_ hmem <;> rfl

end Expand

/-- With other options of the output, an operation on a program fails with the same error, or succeeds with the same
invocations and reports and with a tree of the same plain form. -/
theorem sameOutcome_writing (s : Setup) (names : NameRendering) (trackLocations : Bool) :
    (∀ text, SameOutcome (expandProgram s text) (expandProgram (s.writing names trackLocations) text)) ∧
    ∀ specifier, SameOutcome (expandModule s specifier) (expandModule (s.writing names trackLocations) specifier) := by
  refine ⟨fun text => ?_, fun specifier => ?_⟩
  · refine Expand.sameOutcome_finish ((writingLaw s names trackLocations).entry text) (fun record run h => ?_)
      (Run.Final.program text).sound
    exact ⟨_, Expand.compile_keeps h⟩
  · refine Expand.sameOutcome_finish ((writingLaw s names trackLocations).loadItems specifier .unknown)
      (fun record run h => ?_) (Run.Final.module specifier).sound
    exact ⟨_, Expand.load_keeps h⟩

end Hygiene
