import Hygiene.Module.Loader
import Hygiene.Proofs.Expand.Imports
import Hygiene.Proofs.Lexical.Modules

/-!
# Scope sets implement lexical scoping

The scopes of an identifier are the regions around it, and the more regions a binding carries the further inside it was
made. Main statement: `expandProgram_lexical`.
-/

namespace Hygiene

open Outline

/-- The binding was made for the declaration. -/
def Binding.DeclaredBy (b : Binding) (ident : Token) : Prop :=
  b.name = ident.name ∧ b.site = ident.site ∧ b.scopes = ident.scopes

/-- Everything of a module is expanded, and each of its identifiers refers to the declaration that the lexical rule gives,
or to nothing if the rule gives none. -/
structure ModuleRecord.LexicallyScoped (store : Store) (record : ModuleRecord) : Prop where
  complete : CompleteAll record.outline
  refers : ∀ r ∈ record.references, Option.Rel Binding.DeclaredBy (store.resolveIdent r.1) r.2

/-! ### The last declaration of a name -/

/-- Expanding a body more than once does not change which declaration of a region is the last one of its name. -/
theorem Region.Fits.getLast?_filter {r : Region} {found : List Key} {parts : List Outline}
    (h : r.Fits (fun _ => []) found parts) (p : Key → Bool) :
    (found.filter p).getLast? = ((keys parts).filter p).getLast? := by
  have hnone : pendingKeys (fun _ => []) parts = [] := by
    refine List.flatMap_eq_nil_iff.2 fun o _ => ?_
    cases o <;> rfl
  rcases h with ⟨hkeys, hinner, n, rfl⟩ | ⟨hkeys, _, n, rfl⟩
  · rw [hkeys, Region.repeated_of_inner (hinner.symm.trans hnone), List.append_nil]
  · rw [hkeys, ← Region.repeated_add, Region.repeated_one]
    simp only [List.filter_append, List.getLast?_append]
    cases hlast : (r.inner.filter p).getLast? with
    | none =>
      have hempty : (r.repeated n).filter p = [] := by
        refine List.filter_eq_nil_iff.2 fun k hk => ?_
        obtain ⟨l, hl, hk⟩ := List.mem_flatten.1 hk
        obtain rfl := List.eq_of_mem_replicate hl
        exact List.filter_eq_nil_iff.1 (List.getLast?_eq_none_iff.1 hlast) k hk
      simp only [hempty, List.getLast?_nil, Option.none_or]
    | some k =>
      simp only [Option.some_or]

/-- The keys of a name are those of the declarations of it. -/
theorem Outline.filter_keys (parts : List Outline) (name : String) :
    (keys parts).filter (·.1 = name) = ((declared parts).filter (·.name = name)).map Token.key := by
  rw [keys, List.filter_map]
  rfl

namespace Store

/-- The bindings of a name under exactly the given scopes, in order. -/
def exactly (s : Store) (name : String) (scopes : ScopeSet) : List Binding :=
  s.bindings.toList.filter fun b => b.scopes = scopes && b.name = name

variable {s : Store} {name : String} {c : ScopeSet} {b : Binding}

/-- `exactly` gives the bindings of a name with just these scopes. -/
theorem mem_exactly : b ∈ s.exactly name c ↔ b ∈ s.bindings.toList ∧ b.scopes = c ∧ b.name = name := by
  simp [exactly]

theorem filter_under (s : Store) (name : String) (c : ScopeSet) :
    (s.under c).filter (·.1 = name) = (s.exactly name c).map Binding.key := by
  rw [under, List.filter_map, List.filter_filter, exactly]
  congr 2
  funext b
  exact Bool.and_comm _ _

/-- If there are bindings under exactly the scopes of an identifier, it refers to the last of them. -/
theorem resolve_of_exactly (hs : s.Numbered) (shown : ∀ b ∈ s.bindings.toList, b.hiddenFrom = none)
    (h : (s.exactly name c).getLast? = some b) : s.resolve name c = some b := by
  obtain ⟨pre, hpre⟩ := List.getLast?_eq_some_iff.1 h
  obtain ⟨hb, hscopes, hname⟩ := mem_exactly.1 (hpre ▸ List.mem_append_right pre List.mem_cons_self)
  refine (resolve_eq_some hs).2 ⟨hb, ?_, fun e he hv => ?_⟩
  · refine Binding.isVisible_iff.2 ⟨hname, fun x hx => hscopes ▸ hx, fun x hx => ?_⟩
    rw [shown b hb] at hx
    cases hx
  · obtain ⟨hename, hsub, _⟩ := Binding.isVisible_iff.1 hv
    rw [← hscopes] at hsub
    rcases Nat.lt_or_eq_of_le (ScopeSet.size_le hsub) with hlt | heq
    · exact Or.inl hlt
    · refine Or.inr ⟨heq, ?_⟩
      have hmem : e ∈ pre ++ [b] := hpre ▸ mem_exactly.2 ⟨he, (ScopeSet.eq_of_size hsub heq).trans hscopes, hename⟩
      have hordered : (pre ++ [b]).Pairwise fun e e' => e.id < e'.id := hpre ▸ hs.pairwise.filter _
      rcases List.mem_append.1 hmem with hmem | hmem
      · exact Nat.le_of_lt ((List.pairwise_append.1 hordered).2.2 e hmem b List.mem_cons_self)
      · exact Nat.le_of_eq (congrArg Binding.id (List.mem_singleton.1 hmem))

end Store

/-! ### Identifiers in regions -/

namespace Regions

variable {R : Regions} {run : Run} {c : ScopeSet} {F : ScopeId} {name : String} {b : Binding}

/-- In a valid store no binding is hidden. -/
theorem Valid.shown (hv : R.Valid run) : ∀ b ∈ run.store.bindings.toList, b.hiddenFrom = none :=
  fun b hb => (hv.bound b hb).1

/-- An identifier without scopes sees nothing. -/
theorem Valid.resolve_empty (hv : R.Valid run) (name : String) : run.store.resolve name .empty = none := by
  refine Store.resolve_eq_none.2 fun b hb hvisible => ?_
  obtain ⟨_, G, hG, hscopes⟩ := hv.bound b hb
  have hmem : G ∈ ScopeSet.empty := (Binding.isVisible_iff.1 hvisible).2.1 G (hscopes ▸ hv.mem G hG)
  simp at hmem

/-- What is visible in a region but was not bound in it is visible around it. -/
theorem Valid.visible_around (hv : R.Valid run) (above : ∀ x ∈ c, x < F) (scopes : (R F).scopes = c.insert F)
    (hb : b ∈ run.store.bindings.toList) (hvisible : b.isVisible name (c.insert F) = true)
    (hne : b.scopes ≠ c.insert F) : ∀ x ∈ b.scopes, x ∈ c := by
  obtain ⟨_, G, hG, hscopes⟩ := hv.bound b hb
  have hsub := (Binding.isVisible_iff.1 hvisible).2.1
  have hGc : G ∈ c := by
    rcases ScopeSet.mem_insert.1 (hsub G (hscopes ▸ hv.mem G hG)) with rfl | hGc
    · exact absurd (hscopes.trans scopes) hne
    · exact hGc
  intro x hx
  rcases ScopeSet.mem_insert.1 (hsub x hx) with rfl | hxc
  · exact absurd (hv.le G hG x (hscopes ▸ hx)) (Nat.not_le.2 (above G hGc))
  · exact hxc

/-- A name that is not bound in a region refers to what it refers to around it. -/
theorem Valid.resolve_around (hv : R.Valid run) (hs : run.store.Numbered) (above : ∀ x ∈ c, x < F)
    (scopes : (R F).scopes = c.insert F) (h : run.store.exactly name (c.insert F) = []) :
    run.store.resolve name (c.insert F) = run.store.resolve name c := by
  have hsub : ∀ x ∈ c, x ∈ c.insert F := fun x hx => ScopeSet.mem_insert.2 (Or.inr hx)
  refine (Store.resolve_eq_iff_of_subset hs hsub fun b hb x hx => ?_).2 fun b hb => ?_
  · rw [hv.shown b (Store.resolve_visible hb).1] at hx
    cases hx
  · obtain ⟨hmem, hvisible⟩ := Store.resolve_visible hb
    refine hv.visible_around above scopes hmem hvisible fun heq => ?_
    have : b ∈ run.store.exactly name (c.insert F) :=
      Store.mem_exactly.2 ⟨hmem, heq, (Binding.isVisible_iff.1 hvisible).1⟩
    rw [h] at this
    cases this

end Regions

/-- The scopes `c` are those of the regions that enclose a place. Each is given by what it declares, the innermost
first. -/
inductive Enclosed (R : Regions) (store : Store) : List (List Token) → ScopeSet → Prop where
  | outermost : Enclosed R store [] .empty
  | inside {scopes : List (List Token)} {c : ScopeSet} {F : ScopeId} {parts : List Outline}
      (around : Enclosed R store scopes c) (placed : PlacedIn (fun _ => []) R store c F parts) :
      Enclosed R store (declared parts :: scopes) (c.insert F)

section

variable {R : Regions} {run : Run} {scopes : List (List Token)} {c : ScopeSet}

theorem Outline.mem_declared {ident : Token} {parts : List Outline} : ident ∈ declared parts ↔ declare ident ∈ parts := by
  constructor
  · intro h
    obtain ⟨o, ho, heq⟩ := List.mem_filterMap.1 h
    cases o with
    | declare t =>
      cases heq
      exact ho
    | _ => cases heq
  · exact fun h => List.mem_filterMap.2 ⟨_, h, rfl⟩

/-- In the innermost region around it that declares it, a name refers to the last declaration. -/
theorem Enclosed.resolve (he : Enclosed R run.store scopes c) (hv : R.Valid run) (hs : run.store.Numbered)
    (name : String) : Option.Rel Binding.DeclaredBy (run.store.resolve name c) (Outline.lookup scopes name) := by
  induction he with
  | outermost =>
    rw [hv.resolve_empty]
    exact .none
  | @inside scopes c F parts _ placed ih =>
    have hlast : ((run.store.exactly name (c.insert F)).map Binding.key).getLast? =
        (((declared parts).filter (·.name = name)).map Token.key).getLast? := by
      rw [← Store.filter_under, ← filter_keys, ← placed.scopes]
      exact placed.fits.getLast?_filter _
    rw [List.getLast?_map, List.getLast?_map] at hlast
    cases hdecl : ((declared parts).filter (·.name = name)).getLast? with
    | none =>
      rw [hdecl, Option.map_none, Option.map_eq_none_iff, List.getLast?_eq_none_iff] at hlast
      rw [hv.resolve_around hs placed.above placed.scopes hlast, Outline.lookup, List.findSome?_cons, hdecl]
      exact ih
    | some ident =>
      rw [hdecl, Option.map_some, Option.map_eq_some_iff] at hlast
      obtain ⟨b, hb, hkey⟩ := hlast
      rw [Store.resolve_of_exactly hs hv.shown hb, Outline.lookup, List.findSome?_cons, hdecl]
      have hident := mem_declared.1 (List.mem_filter.1 (List.mem_of_getLast? hdecl)).1
      have hscopes : ident.scopes = c.insert F := (placedAll_iff.1 placed.parts _ hident).1
      obtain ⟨_, hb, _⟩ := Store.mem_exactly.1 (List.mem_of_getLast? hb)
      obtain ⟨hname, hsite⟩ := Prod.mk.inj hkey
      exact .some ⟨hname, hsite, hb.trans hscopes.symm⟩

/-- An identifier that stands in a region refers to the declaration that the lexical rule gives. -/
theorem Enclosed.resolveIdent (he : Enclosed R run.store scopes c) (hv : R.Valid run) (hs : run.store.Numbered)
    {ident : Token} (h : ident.scopes = c ∧ ident.isIdent = true) :
    Option.Rel Binding.DeclaredBy (run.store.resolveIdent ident) (Outline.lookup scopes ident.name) := by
  obtain ⟨rfl, hident⟩ := h
  obtain ⟨name, hn⟩ := Option.isSome_iff_exists.1 hident
  have hname : ident.name = name := by
    unfold Tree.name
    rw [hn]
    rfl
  rw [Store.resolveIdent, hn, Option.bind_some, hname]
  exact he.resolve hv hs name

mutual

/-- Each identifier refers as the lexical rule says. -/
theorem Enclosed.references {scopes : List (List Token)} {c : ScopeSet} (he : Enclosed R run.store scopes c)
    (hv : R.Valid run) (hs : run.store.Numbered) : (o : Outline) → Placed (fun _ => []) R run.store c o →
    ∀ r ∈ o.references scopes, Option.Rel Binding.DeclaredBy (run.store.resolveIdent r.1) r.2
  | use _, ho, r, hr => by
    rw [List.mem_singleton.1 hr]
    exact he.resolveIdent hv hs ho
  | declare _, ho, r, hr => by
    rw [List.mem_singleton.1 hr]
    exact he.resolveIdent hv hs ho
  | pending _, _, r, hr => by cases hr
  | scope parts, ho, r, hr => by
    obtain ⟨F, placed⟩ := placed_scope.1 ho
    exact Enclosed.referencesAll (he.inside placed) hv hs parts placed.parts r hr

theorem Enclosed.referencesAll {scopes : List (List Token)} {c : ScopeSet} (he : Enclosed R run.store scopes c)
    (hv : R.Valid run) (hs : run.store.Numbered) : (l : List Outline) → PlacedAll (fun _ => []) R run.store c l →
    ∀ r ∈ Outline.referencesAll scopes l, Option.Rel Binding.DeclaredBy (run.store.resolveIdent r.1) r.2
  | [], _, r, hr => by cases hr
  | o :: l, ⟨ho, hl⟩, r, hr => by
    rcases List.mem_append.1 hr with hr | hr
    · exact Enclosed.references he hv hs o ho r hr
    · exact Enclosed.referencesAll he hv hs l hl r hr

end

/-- A module that is placed in regions is lexically scoped. -/
theorem ModuleRecord.Placed.lexicallyScoped {record : ModuleRecord} {M : ScopeId}
    (h : record.Placed R run.store M) (hv : R.Valid run) (hs : run.store.Numbered) :
    record.LexicallyScoped run.store where
  complete := h.complete
  refers := Enclosed.outermost.references hv hs (scope record.outline) (placed_scope.2 ⟨M, h.placed⟩)

end

/-- In a program without transformers, and in all its modules, every identifier refers in the final store to the last
declaration of its name in the innermost scope around it that declares it, or to nothing if there is none. -/
theorem expandProgram_lexical {s : Setup} {text : String} {expansion : Expansion} {run : Run}
    (h : expandProgram s text = .ok expansion run) (plain : run.Plain) :
    ∃ record, Assoc.get? entrySpecifier run.modules = some record ∧
      expansion.tree = Lowering.module { store := run.store, sources := run.sources, config := s.config } record ∧
      record.LexicallyScoped run.store ∧ ∀ entry ∈ run.modules, entry.2.LexicallyScoped run.store := by
  have hs : run.store.Numbered := (Run.Final.of_ok h).sound.numbered
  obtain ⟨R, hv, placed⟩ := exists_regions_of_expandProgram h plain
  have hall : ∀ entry ∈ run.modules, entry.2.LexicallyScoped run.store := fun entry he =>
    (placed entry he).elim fun M hp => hp.lexicallyScoped hv hs
  obtain ⟨record, hget, htree⟩ := record_of_expandProgram h
  obtain ⟨key, hmem⟩ := Assoc.exists_mem_of_get? hget
  exact ⟨record, hget, htree, hall _ hmem, hall⟩

/-! ### A program with nested scopes -/

instance (run : Run) : Decidable run.Plain :=
  inferInstanceAs (Decidable (∀ b ∈ run.store.bindings.toList, b.kind.isTransformer = false))

/-- Where the identifiers of a module stand, and where the declarations that they refer to. -/
def ModuleRecord.offsets (record : ModuleRecord) : List (Nat × Option Nat) :=
  record.references.map fun r => (r.1.site.span.start, r.2.map (·.site.span.start))

/-- A module with a variable. -/
def Setup.nested : Setup where
  load := tableLoader [("./k.js", "export var k = 1;")]

/-- A function, a block that declares a name twice, an arrow, and a function expression with its own name. -/
def nestedText : String :=
  "import \x7b k \x7d from './k.js'; var x = 1; function f(a) \x7b \x7b let x = a; x += k; let x; \x7d " ++
    "return y => x + y + z; \x7d f(function g(x) \x7b return g; \x7d);"

/-- What the identifiers of the program refer to by the lexical rule. The target of the compound assignment is read
twice. -/
def nestedOffsets : List (Nat × Option Nat) :=
  [(9, some 9), (32, some 32), (48, some 48), (50, some 50), (61, some 80), (65, some 50), (68, some 80), (68, some 80),
    (73, some 9), (80, some 80), (92, some 92), (97, some 32), (101, some 92), (105, none), (110, some 48),
    (121, some 121), (123, some 123), (135, some 121)]

/-- The identifiers of the program refer to what the lexical rule gives. -/
theorem expandProgram_lexical_nested : ∃ expansion run, expandProgram .nested nestedText = .ok expansion run ∧ run.Plain ∧
    ∃ record, Assoc.get? entrySpecifier run.modules = some record ∧ record.offsets = nestedOffsets ∧
      record.LexicallyScoped run.store := by
  obtain ⟨expansion, run, hres, hok⟩ := exists_of_succeeds (expandProgram .nested nestedText)
    (fun _ run => decide run.Plain && (Assoc.get? entrySpecifier run.modules).any (·.offsets == nestedOffsets))
    (by decide +kernel)
  rw [Bool.and_eq_true, decide_eq_true_eq, Option.any_eq_true] at hok
  obtain ⟨plain, record', hget', hoffsets⟩ := hok
  obtain ⟨record, hget, _, hscoped, _⟩ := expandProgram_lexical hres plain
  obtain rfl : record' = record := Option.some.inj (hget'.symm.trans hget)
  exact ⟨expansion, run, hres, plain, record', hget, eq_of_beq hoffsets, hscoped⟩

end Hygiene
