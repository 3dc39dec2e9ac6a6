import Hygiene.Proofs.Loading.Graph
import Hygiene.Proofs.Parallel.Output

/-!
# The locations of the output

The locations of the output tree are those of the sites in the expanded items.
-/

namespace Hygiene

open List

open Expand (Located Yields)

mutual

/-- The locations in a tree. -/
def Node.locations : Node → List Location
  | .mk _ location fields => location.toList ++ Field.locationsAll fields

/-- The locations in the content of a field. -/
def Field.locations : Field → List Location
  | .absent => []
  | .flag _ => []
  | .number _ => []
  | .text _ => []
  | .name _ => []
  | .node n => n.locations
  | .nodes ns => Node.locationsAll ns

/-- The locations in fields. -/
def Field.locationsAll : List (String × Field) → List Location
  | [] => []
  | (_, field) :: rest => field.locations ++ Field.locationsAll rest

/-- The locations in trees. -/
def Node.locationsAll : List Node → List Location
  | [] => []
  | n :: ns => n.locations ++ Node.locationsAll ns

end

/-- All locations in the tree are within the texts. -/
def Node.Within (sources : Sources) (n : Node) : Prop := ∀ l ∈ n.locations, l.Within sources

/-- All locations in the content of a field are within the texts. -/
def Field.Within (sources : Sources) (f : Field) : Prop := ∀ l ∈ f.locations, l.Within sources

variable {sources : Sources}

namespace Field

@[simp] theorem within_nodes {ns : List Node} : Within sources (.nodes ns) ↔ ∀ n ∈ ns, n.Within sources := by
  have hall : (∀ l ∈ Node.locationsAll ns, l.Within sources) ↔ ∀ n ∈ ns, n.Within sources := by
    induction ns with
    | nil => simp [Node.locationsAll]
    | cons n ns ih => simp only [Node.locationsAll, forall_mem_append, forall_mem_cons, ih, Node.Within]
  exact hall

end Field

@[simp] theorem Node.within_mk {kind : String} {location : Option Location} {fields : List (String × Field)} :
    Node.Within sources (.mk kind location fields) ↔
      (∀ l ∈ location, l.Within sources) ∧ ∀ f ∈ fields, f.2.Within sources := by
  have hall : (∀ l ∈ Field.locationsAll fields, l.Within sources) ↔ ∀ f ∈ fields, f.2.Within sources := by
    induction fields with
    | nil => simp [Field.locationsAll]
    | cons f fields ih => simp only [Field.locationsAll, forall_mem_append, forall_mem_cons, ih, Field.Within]
  rw [Node.Within, Node.locations, forall_mem_append, hall]
  simp

/-- Such fields are within the texts. -/
theorem Field.AlikeAll.within {l l' : List (String × Field)} (h : Field.AlikeAll (fun n _ => n.Within sources) Eq l l') :
    ∀ f ∈ l, f.2.Within sources := by
  induction h with
  | nil => exact nofun
  | cons hf _ ih =>
    refine forall_mem_cons.2 ⟨?_, ih⟩
    cases hf with
    | node h => exact h
    | nodes h => exact Field.within_nodes.2 (Likeness.of_alike_left (fun _ _ h => h) h)
    | _ => exact nofun

/-- A module within the texts is alike some module. -/
theorem ModuleRecord.Within.exists_alike {record : ModuleRecord} (h : record.Within sources) :
    ∃ record' : ModuleRecord, record'.file = record.file ∧
      Forall₂ (ModuleItem.Alike (.within sources)) record.items record'.items := by
  have : Nonempty ModuleItem := ⟨.exportList [] .unknown⟩
  choose! image himage using h.items
  exact ⟨{ record with items := record.items.map image }, rfl,
    forall₂_map_right_iff.2 (forall₂_same.2 himage)⟩

namespace Lowering

variable {w : Lowering}

/-- Of terms within the texts, nodes within the texts are written. -/
theorem corresponds_within (hw : w.sources = sources) : Corresponds (.within sources) (fun n _ => n.Within sources) Eq w w where
  name h := h.1 ▸ rfl
  unnamed := rfl
  isTransformer h := h.1 ▸ rfl
  bare hfields := Node.within_mk.2 ⟨nofun, hfields.within⟩
  node hsite hfields := by
    refine Node.within_mk.2 ⟨fun l hl => ?_, hfields.within⟩
    unfold location at hl
    split at hl
    · exact hsite.2.locateSite (hw ▸ hl)
    · cases hl

/-- All locations in the output of a module are within the texts; the module itself stands for its whole text. -/
theorem within_module (hw : w.sources = sources) {record : ModuleRecord} (h : record.Within sources) :
    (w.module record).Within sources := by
  have hc := corresponds_within hw
  obtain ⟨t, ht⟩ := Option.isSome_iff_exists.1 h.file
  obtain ⟨record', hfile, hitems⟩ := h.exists_alike
  refine hc.module ⟨by rw [hfile], ?_⟩ hitems fun item _ => hc.sameLists item
  rintro _ ⟨⟩
  refine ⟨t, ht, Nat.zero_le _, ?_⟩
  rw [hw, ht]
  exact Nat.le_refl _

end Lowering

/-! ### Whole programs -/

/-- The location of a node. -/
def Node.location? : Node → Option Location
  | .mk _ location _ => location

/-- The places that an expansion tells of are within the texts. -/
structure Expansion.Within (sources : Sources) (e : Expansion) : Prop where
  tree : e.tree.Within sources
  origins : ∀ o ∈ e.origins, o.Within sources
  diagnostics : ∀ d ∈ e.diagnostics, d.Within sources

/-- How an operation on a program ends: its invocations, its reports and its error are located in the texts it has
registered; `P` holds of the texts and its result if it succeeds. -/
structure EndsWithin {α : Type} (result : EStateM.Result ExpandError Run α) (P : Sources → α → Prop) : Prop where
  origins : ∀ o ∈ (finalRun result).origins, o.Within (finalRun result).sources
  diagnostics : ∀ d ∈ (finalRun result).diagnostics, d.Within (finalRun result).sources
  success : ∀ a run, result = .ok a run → P run.sources a
  failure : ∀ e run, result = .error e run → e.Within run.sources ∧ e.diagnostic.Within run.sources

/-- A computation that leaves its run within the texts ends within them. -/
theorem Expand.Yields.endsWithin {α : Type} {x : Expand α} {run : Run} {P : Sources → α → Prop}
    (hx : Yields run x (fun a run' => run'.Within run'.sources ∧ P run'.sources a)
      fun e run' => run'.Within run'.sources ∧ e.Within run'.sources) : EndsWithin (x run) P := by
  unfold Yields at hx
  cases hresult : x run with
  | ok a run' =>
    rw [hresult] at hx
    obtain ⟨hrun, ha⟩ := hx
    refine ⟨hrun.origins, hrun.diagnostics, ?_, ?_⟩
    · rintro _ _ ⟨⟩
      exact ha
    · rintro _ _ ⟨⟩
  | error e run' =>
    rw [hresult] at hx
    obtain ⟨hrun, he⟩ := hx
    refine ⟨hrun.origins, hrun.diagnostics, ?_, ?_⟩
    · rintro _ _ ⟨⟩
    · rintro _ _ ⟨⟩
      refine ⟨he, ?_⟩
      rintro l (hl | ⟨label, hlabel, _⟩)
      · exact he l hl
      · cases hlabel

namespace Expand

/-- What is told of an expanded module. -/
theorem located_finish (s : Setup) {record : ModuleRecord} (hrecord : record.Within sources) :
    Located sources (finish s record) fun expansion => expansion.Within sources ∧
      (s.config.trackLocations = true → ∀ t, sources.text? record.file = some t →
        expansion.tree.location? = some ⟨record.file, t.position 0, t.position t.text.utf8ByteSize⟩) := by
  refine fun run hrun => ⟨{ hrun with origins := nofun, diagnostics := nofun }, ⟨?_, ?_, ?_⟩, fun htrack t ht => ?_⟩
  · exact Lowering.within_module hrun.sources_eq hrecord
  · exact fun o ho => hrun.origins o (mem_reverse.1 ho)
  · exact fun d hd => hrun.diagnostics d (mem_reverse.1 hd)
  · have hlocate : run.sources.text? record.file = some t := hrun.sources_eq ▸ ht
    simp [Lowering.module, Lowering.node, Node.location?, Lowering.location, htrack, Sources.locateSite, Sources.locate,
      hlocate]

end Expand

/-- Whatever an operation on a program reports is located in the texts that it has registered, with right lines and
columns: the nodes of the output, the places of invocations and of the definitions invoked, diagnostics, and the error.
If locations are tracked, the output of a program is located at its whole text. -/
theorem locations_within_texts (s : Setup) :
    (∀ text, EndsWithin (expandProgram s text) fun sources expansion => expansion.Within sources ∧
      (s.config.trackLocations = true → ∃ file t, sources.text? file = some t ∧ t.text = text ∧
        expansion.tree.location? = some ⟨file, t.position 0, t.position text.utf8ByteSize⟩)) ∧
    (∀ specifier, EndsWithin (expandModule s specifier) fun sources expansion => expansion.Within sources) ∧
    ∀ text, EndsWithin (evaluateProgram s text) fun _ _ => True := by
  have hentry := fun text => (orderUpkeep s).entry trivial text
  refine ⟨fun text => Expand.Yields.endsWithin (x := Expand.program s text) ?_,
    fun specifier => Expand.Yields.endsWithin (x := Expand.moduleProgram s specifier) ?_,
    fun text => Expand.Yields.endsWithin (x := Expand.evaluateProgram s text) ?_⟩
  · refine .bind ((hentry text).imp (fun _ _ h => h) fun _ _ hs => ⟨hs.within, hs.error⟩) ?_
    rintro record run ⟨h, -, hmem, t, ht, rfl⟩
    refine ((Expand.located_finish s (h.placed.within.modules _ hmem)).yields h.placed.within).imp ?_ fun _ _ he => he
    rintro expansion run' ⟨hrun, htexts, hwithin, htrack⟩
    rw [htexts]
    exact ⟨htexts ▸ hrun, hwithin, fun h => ⟨record.file, t, ht, rfl, htrack h t ht⟩⟩
  · refine .bind (((orderUpkeep s).loadItems trivial specifier).imp (fun _ _ h => h) fun _ _ hs => ⟨hs.within, hs.error⟩) ?_
    rintro record run ⟨h, -, hmem⟩
    refine ((Expand.located_finish s (h.placed.within.modules _ hmem)).yields h.placed.within).imp ?_ fun _ _ he => he
    rintro expansion run' ⟨hrun, htexts, hwithin, -⟩
    exact ⟨hrun, htexts ▸ hwithin⟩
  · refine .bind ((hentry text).imp (fun _ _ h => h) fun _ _ hs => ⟨hs.within, hs.error⟩) ?_
    rintro record run ⟨h, -, hmem, -⟩
    refine .get_bind ?_
    have hc := Conduct.within_ofModules run.sources .runtime
    have hruns := (h.placed.within.modules _ hmem).runs
    have hlocated : Located run.sources _ fun _ => True :=
      Conduct.keeps_runModule hc s (Conduct.keeps_instantiate hc s run.modules.length) hruns
    exact (hlocated.yields h.placed.within).imp (fun _ _ h => ⟨h.1, trivial⟩) fun _ _ he => he

end Hygiene
