import Hygiene.Proofs.Expand.Names
import Hygiene.Proofs.Scope.Reached

/-!
# Fresh names

The numbers of fresh names increase, and no text has such a name.
-/

namespace Hygiene

open List

namespace Store

/-- The fresh name that an action makes. -/
def freshMade? (s : Store) : Action → Option String
  | .freshName name => some (s.freshName name).1
  | .bind ident _ true => some (s.freshName ident.name).1
  | _ => none

/-- The fresh names that actions make, one after the other. -/
def freshMade (s : Store) : List Action → List String
  | [] => []
  | action :: actions => (s.freshMade? action).toList ++ (s.act action).freshMade actions

/-- The names of the bindings that have a name of their own. -/
def ownNames (s : Store) : List String := (s.bindings.toList.filter (·.isRenamed)).map (·.fresh)

theorem ownNames_hide (s : Store) (id : BindingId) (scope : ScopeId) : (s.hide id scope).ownNames = s.ownNames := by
  have hmodify : ∀ (bs : List Binding) (i : Nat),
      ((bs.modify i fun b => { b with hiddenFrom := some scope }).filter (·.isRenamed)).map (·.fresh) =
        (bs.filter (·.isRenamed)).map (·.fresh) := by
    intro bs
    induction bs with
    | nil => simp
    | cons b bs ih =>
      intro i
      cases i with
      | zero => cases hb : b.isRenamed <;> simp_all [Binding.isRenamed]
      | succ i => cases hb : b.isRenamed <;> simp [hb, ih]
  rw [ownNames, ownNames, hide, Array.toList_modify, hmodify]

/-- An action makes no name, or the one with the next number; only that one can become the name of a binding. -/
theorem act_cases (s : Store) (action : Action) :
    (s.freshMade? action = none ∧ (s.act action).nextFresh = s.nextFresh ∧ (s.act action).ownNames = s.ownNames) ∨
    ∃ base, s.freshMade? action = some (base ++ "%" ++ toString (s.nextFresh + 1)) ∧
      (s.act action).nextFresh = s.nextFresh + 1 ∧
      (s.act action).ownNames.Sublist (s.ownNames ++ [base ++ "%" ++ toString (s.nextFresh + 1)]) := by
  cases action with
  | freshScope => exact Or.inl ⟨rfl, rfl, rfl⟩
  | freshName name => exact Or.inr ⟨name, rfl, rfl, sublist_append_left _ _⟩
  | hide id scope => exact Or.inl ⟨rfl, rfl, s.ownNames_hide id scope⟩
  | bind ident kind rename =>
    cases rename with
    | false => exact Or.inl ⟨rfl, rfl, by simp [act, bind, ownNames, Binding.isRenamed]⟩
    | true =>
      refine Or.inr ⟨ident.name, rfl, rfl, ?_⟩
      have hne : (s.freshName ident.name).1 ≠ ident.name := numbered_ne _ _
      simp [act, bind, ownNames, Binding.isRenamed, hne]
      exact List.Sublist.refl _

variable {s : Store} {actions : List Action} {name : String}

/-- Every name that is made later has a later number. -/
theorem numbered_of_mem_freshMade (h : name ∈ s.freshMade actions) :
    ∃ base n, name = base ++ "%" ++ toString n ∧ s.nextFresh < n := by
  induction actions generalizing s with
  | nil => cases h
  | cons action actions ih =>
    rw [freshMade, mem_append] at h
    rcases s.act_cases action with ⟨hnone, hnext, _⟩ | ⟨base, hsome, hnext, _⟩
    · rw [hnone] at h
      obtain ⟨base, n, hname, hlt⟩ := ih (h.resolve_left nofun)
      exact ⟨base, n, hname, hnext ▸ hlt⟩
    · rw [hsome] at h
      rcases h with h | h
      · exact ⟨base, _, mem_singleton.1 h, Nat.lt_succ_self _⟩
      · obtain ⟨base, n, hname, hlt⟩ := ih h
        exact ⟨base, n, hname, by omega⟩

theorem nodup_freshMade (s : Store) (actions : List Action) : (s.freshMade actions).Nodup := by
  induction actions generalizing s with
  | nil => exact nodup_nil
  | cons action actions ih =>
    rw [freshMade]
    rcases s.act_cases action with ⟨hnone, _⟩ | ⟨base, hsome, hnext, _⟩
    · rw [hnone]
      exact ih _
    · rw [hsome]
      refine nodup_cons.2 ⟨fun hmem => ?_, ih _⟩
      obtain ⟨base', n, heq, hlt⟩ := numbered_of_mem_freshMade hmem
      have := numbered_inj heq
      omega

/-- The names of bindings are among the names made, each once. -/
theorem ownNames_sublist (s : Store) (actions : List Action) :
    (actions.foldl act s).ownNames.Sublist (s.ownNames ++ s.freshMade actions) := by
  induction actions generalizing s with
  | nil => rw [freshMade, append_nil, foldl_nil]
  | cons action actions ih =>
    refine (ih (s.act action)).trans ?_
    rw [freshMade, ← append_assoc]
    refine List.Sublist.append_right ?_ _
    rcases s.act_cases action with ⟨hnone, _, hown⟩ | ⟨base, hsome, _, hown⟩
    · rw [hnone, hown]
      exact sublist_append_left _ _
    · rw [hsome]
      exact hown

/-- Bindings with names of their own have different names. -/
theorem fresh_ne {b c : Binding} {i j : Nat} (hij : i < j) (hb : (after actions).bindings[i]? = some b)
    (hc : (after actions).bindings[j]? = some c) (hrb : b.isRenamed = true) (hrc : c.isRenamed = true) :
    b.fresh ≠ c.fresh := by
  have hnodup : (after actions).ownNames.Nodup :=
    (ownNames_sublist {} actions).nodup (by rw [ownNames]; exact nodup_freshMade _ actions)
  rw [← Array.getElem?_toList] at hb hc
  rw [ownNames, ← take_append_drop j (after actions).bindings.toList, filter_append, map_append] at hnodup
  refine (nodup_append.1 hnodup).2.2 _ (mem_map_of_mem (mem_filter.2 ⟨?_, hrb⟩)) _
    (mem_map_of_mem (mem_filter.2 ⟨?_, hrc⟩))
  · exact mem_of_getElem? (by rw [List.getElem?_take, if_pos hij, hb])
  · exact mem_of_getElem? (i := 0) (by rw [List.getElem?_drop, Nat.add_zero, hc])

end Store

/-- A binding has a name that a text can contain. -/
theorem History.Sound.spelled_binding {h : List Event} (hs : Sound h) {b : Binding} (hb : b ∈ bindings h) :
    ∀ c ∈ b.name.toList, Lexeme.continuesName c = true := by
  obtain ⟨label, harises, hname⟩ := hs.exists_piece hb
  rw [← hname]
  cases hsome : Piece.name? ⟨⟨b.site, b.scopes⟩, label⟩ with
  | none => nofun
  | some name => exact hs.spelled harises name hsome

namespace Store

/-- The fresh names that any sequence of actions makes are different, and so are those of different bindings. None is an
identifier in a text or the name of a value that every program can name, and no binding of a run that keeps its name has
it. -/
theorem fresh_names_apart (actions : List Action) :
    (freshMade {} actions).Nodup ∧
    (∀ (i j : Nat) (b c : Binding), i ≠ j → (after actions).bindings[i]? = some b → (after actions).bindings[j]? = some c →
      b.isRenamed = true → c.isRenamed = true → b.fresh ≠ c.fresh) ∧
    ∀ name ∈ freshMade {} actions, globalValue? name = none ∧ (∀ b : Builtin, b.name ≠ name) ∧
      (∀ text trees file, read text = .ok trees → ∀ p ∈ Token.piecesAll (Token.ofTrees file trees), p.name? ≠ some name) ∧
      ∀ setup run, Run.Final setup run → ∀ b ∈ run.store.bindings,
        (∀ specifier exportName, b.kind = .runtimeImport specifier exportName ∨
          b.kind = .compileTimeImport specifier exportName → b.isRenamed = false) ∧
        (b.isRenamed = false → b.fresh ≠ name) := by
  refine ⟨nodup_freshMade {} actions, ?_, ?_⟩
  · intro i j b c hij hb hc hrb hrc
    rcases Nat.lt_or_gt_of_ne hij with hij | hij
    · exact fresh_ne hij hb hc hrb hrc
    · exact (fresh_ne hij hc hb hrc hrb).symm
  · intro name hname
    obtain ⟨base, n, rfl, _⟩ := numbered_of_mem_freshMade hname
    refine ⟨?_, fun b => ?_, ?_, ?_⟩
    · unfold globalValue?
      split <;> first | rfl | (next heq => exact absurd heq.symm (ne_numbered (all_eq_true.1 (by decide +kernel)) n))
    · intro heq
      have hmem : '%' ∈ b.name.toList := by rw [heq]; simp
      cases b <;> exact absurd hmem (by decide)
    · intro text trees file hread p hp hp'
      exact ne_numbered ((Token.mem_piecesAll_ofTrees (spelled_read hread) hp).2.1 _ hp') n rfl
    · intro setup run hrun b hb
      have hr := hrun.sound
      have hmem : b ∈ History.bindings run.events := by rw [← hr.bindings]; exact Array.mem_toList_iff.2 hb
      refine ⟨fun specifier exportName hkind => ?_, fun hkeeps heq => ?_⟩
      · have hrenames := hr.history.faithful.renames b hmem
        cases hrenamed : b.isRenamed with
        | false => rfl
        | true =>
          rw [hrenamed] at hrenames
          rcases hkind with hkind | hkind <;> rw [hkind] at hrenames <;> simp [BindingKind.Renames] at hrenames
      · have hfresh : b.fresh = b.name := by simpa [Binding.isRenamed] using hkeeps
        exact ne_numbered (hr.history.spelled_binding hmem) n (hfresh.symm.trans heq)

/-- Two bindings of one name, a fresh name of a name with a percent sign, a text, and a program with imports. -/
theorem fresh_names_apart_imported :
    let x : Token := .atom ⟨.unknown, .empty⟩ (.ident "x")
    let actions : List Action := [.bind x .declared true, .freshName "x%1", .bind x .declared true]
    "x%1%2" ∈ freshMade {} actions ∧
    (∃ b c, (after actions).bindings[0]? = some b ∧ (after actions).bindings[1]? = some c ∧ b.fresh ≠ c.fresh) ∧
    (∃ trees, read "x" = .ok trees ∧ ∀ p ∈ Token.piecesAll (Token.ofTrees 0 trees), p.name? ≠ some "x%1%2") ∧
    ∀ b ∈ (finalRun (expandProgram .homonym homonymText)).store.bindings, b.isRenamed = false → b.fresh ≠ "x%1%2" := by
  intro x actions
  obtain ⟨_, hbindings, hnames⟩ := fresh_names_apart actions
  have hmem : "x%1%2" ∈ freshMade {} actions := by decide +kernel
  obtain ⟨_, _, htexts, hruns⟩ := hnames _ hmem
  have hread : (read "x").toBool = true := by decide +kernel
  refine ⟨hmem, ⟨_, _, rfl, rfl, hbindings 0 1 _ _ (by decide) rfl rfl (by decide +kernel) (by decide +kernel)⟩, ?_,
    fun b hb => (hruns _ _ (.program homonymText) b hb).2⟩
  cases htrees : read "x" with
  | error e =>
    rw [htrees] at hread
    cases hread
  | ok trees => exact ⟨trees, rfl, htexts "x" trees 0 htrees⟩

end Store

end Hygiene
