import Hygiene.Proofs.Scope.Resolve

/-!
# Resolution in every store

A store comes about by making scopes, names and bindings and by hiding bindings, in any order. Its bindings stand in the
order in which they were made.
-/

namespace Hygiene

/-- The name with the scopes sees the binding: the binding has that name, no scopes but these, and is not hidden from any
of them. -/
def Binding.Seen (b : Binding) (name : String) (scopes : ScopeSet) : Prop :=
  b.name = name ∧ (∀ x ∈ b.scopes, x ∈ scopes) ∧ ∀ x, b.hiddenFrom = some x → x ∉ scopes

namespace Store

/-- What can be done to a store. -/
inductive Action where
  | freshScope
  | freshName (name : String)
  | bind (ident : Token) (kind : BindingKind) (rename : Bool)
  | hide (id : BindingId) (scope : ScopeId)

/-- The store after an action. -/
def act (s : Store) : Action → Store
  | .freshScope => s.freshScope.2
  | .freshName name => (s.freshName name).2
  | .bind ident kind rename => (s.bind ident kind rename).2
  | .hide id scope => s.hide id scope

/-- The store after a sequence of actions. -/
def after (actions : List Action) : Store := actions.foldl act {}

/-! ### The order of bindings -/

/-- Making a binding adds it at the end, under the next number. -/
theorem exists_bind (s : Store) (ident : Token) (kind : BindingKind) (rename : Bool) : ∃ b,
    (s.bind ident kind rename).2.bindings = s.bindings.push b ∧ b.id = s.bindings.size ∧ b.name = ident.name ∧
      b.scopes = ident.scopes := by
  cases rename <;> exact ⟨_, rfl, rfl, rfl, rfl⟩

/-- Every action keeps the bindings numbered in order. -/
theorem Numbered.act {s : Store} (h : s.Numbered) (action : Action) : (s.act action).Numbered := by
  cases action with
  | freshScope => exact h
  | freshName name => exact h
  | bind ident kind rename =>
    obtain ⟨b, hb, hid, _⟩ := s.exists_bind ident kind rename
    unfold Numbered at h ⊢
    rw [Store.act, hb, Array.toList_push, List.map_append, h, Array.size_push, List.range_succ, List.map_singleton, hid]
  | hide id scope =>
    have hids : ((s.bindings.modify id fun b => { b with hiddenFrom := some scope }).toList.map (·.id)) =
        s.bindings.toList.map (·.id) := by
      rw [Array.toList_modify]
      refine List.ext_getElem? fun i => ?_
      rw [List.getElem?_map, List.getElem?_map, List.getElem?_modify]
      split <;> cases s.bindings.toList[i]? <;> rfl
    unfold Numbered at h ⊢
    rw [Store.act, Store.hide, hids, h, Array.size_modify]

theorem numbered_after (actions : List Action) : (after actions).Numbered := by
  have hfold : ∀ {s : Store}, s.Numbered → (actions.foldl act s).Numbered := by
    induction actions with
    | nil => exact id
    | cons action actions ih => exact fun h => ih (h.act action)
  exact hfold rfl

/-- A binding is numbered by its place. -/
theorem Numbered.id_eq {s : Store} (h : s.Numbered) {i : Nat} {b : Binding} (hb : s.bindings[i]? = some b) : b.id = i := by
  rw [← Array.getElem?_toList] at hb
  have hnum := congrArg (·[i]?) h
  rw [List.getElem?_map, hb, Option.map_some,
    List.getElem?_range (by simpa using (List.getElem?_eq_some_iff.1 hb).1)] at hnum
  exact Option.some.inj hnum

/-! ### What is found -/

/-- A binding that is not seen makes no difference. -/
theorem resolve_bind_of_not_seen (s : Store) {ident : Token} {name : String} {scopes : ScopeSet}
    (h : ident.name ≠ name ∨ ¬ ∀ x ∈ ident.scopes, x ∈ scopes) (kind : BindingKind) (rename : Bool) :
    (s.bind ident kind rename).2.resolve name scopes = s.resolve name scopes := by
  obtain ⟨b, hb, _, hname, hscopes⟩ := s.exists_bind ident kind rename
  have hunseen : b.isVisible name scopes = false := by
    rw [← Bool.not_eq_true, Binding.isVisible_iff, hname, hscopes]
    rintro ⟨hn, hs, _⟩
    exact h.elim (fun hne => hne hn) fun hns => hns hs
  rw [resolve_eq, hb, Array.toList_push, List.filter_append, resolve_eq]
  simp [hunseen]

/-- In every store that comes about: a name with scopes refers to nothing exactly if it sees no binding, and otherwise
to the binding it sees that has the most scopes and is the last made of those. So a new binding of another name, or with
a scope that is not among these, changes nothing. -/
theorem resolve_best_seen (actions : List Action) (name : String) (scopes : ScopeSet) :
    ((after actions).resolve name scopes = none ↔ ∀ b ∈ (after actions).bindings, ¬ b.Seen name scopes) ∧
    (∀ b, (after actions).resolve name scopes = some b ↔ ∃ i : Nat, (after actions).bindings[i]? = some b ∧
      b.Seen name scopes ∧ ∀ (j : Nat) c, (after actions).bindings[j]? = some c → c.Seen name scopes →
        c.scopes.size < b.scopes.size ∨ c.scopes.size = b.scopes.size ∧ j ≤ i) ∧
    ∀ (ident : Token) (kind : BindingKind) (rename : Bool),
      ident.name ≠ name ∨ ¬ (∀ x ∈ ident.scopes, x ∈ scopes) →
        (after (actions ++ [.bind ident kind rename])).resolve name scopes = (after actions).resolve name scopes := by
  have hnum := numbered_after actions
  refine ⟨?_, fun b => ?_, fun ident kind rename h => ?_⟩
  · simp only [resolve_eq_none, Array.mem_toList_iff, Binding.isVisible_iff, Binding.Seen]
  · rw [resolve_eq_some hnum]
    simp only [Array.mem_toList_iff, Binding.isVisible_iff, Binding.Below]
    constructor
    · rintro ⟨hb, hseen, hbest⟩
      obtain ⟨i, hi⟩ := Array.mem_iff_getElem?.1 hb
      refine ⟨i, hi, hseen, fun j c hc hc' => ?_⟩
      have hbelow := hbest c (Array.mem_of_getElem? hc) hc'
      rwa [hnum.id_eq hc, hnum.id_eq hi] at hbelow
    · rintro ⟨i, hi, hseen, hbest⟩
      refine ⟨Array.mem_of_getElem? hi, hseen, fun c hc hc' => ?_⟩
      obtain ⟨j, hj⟩ := Array.mem_iff_getElem?.1 hc
      rw [hnum.id_eq hj, hnum.id_eq hi]
      exact hbest j c hj hc'
  · rw [after, List.foldl_append]
    exact resolve_bind_of_not_seen (after actions) h kind rename

/-- The larger binding is hidden from a scope of the identifier, so the smaller one is found. -/
example :
    let ident scopes : Token := .atom ⟨.unknown, .ofList scopes⟩ (.ident "x")
    let s := after [.bind (ident [0]) .declared true, .bind (ident [0, 1]) .transformer true, .hide 1 2]
    (s.resolve "x" (.ofList [0, 1])).map (·.id) = some 1 ∧ (s.resolve "x" (.ofList [0, 1, 2])).map (·.id) = some 0 := by
  decide

end Store

end Hygiene
