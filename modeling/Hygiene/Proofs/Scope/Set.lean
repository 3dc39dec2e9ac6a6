import Hygiene.Scope.Set

/-!
# Scope sets as sets

A scope set is determined by its members, and each operation is told by what it does to the members.
-/

namespace Hygiene

open List

namespace ScopeSet

variable {s : ScopeSet} {x y : ScopeId}

instance : Membership ScopeId ScopeSet := ⟨fun s scope => scope ∈ s.toList⟩

theorem mem_def : x ∈ s ↔ x ∈ s.toList := Iff.rfl

instance (s : ScopeSet) (x : ScopeId) : Decidable (x ∈ s) := inferInstanceAs (Decidable (x ∈ s.toList))

/-- What stands at the place of a scope is the scope. -/
theorem getElem?_place {i : Nat} (h : s.place x = .ok i) : s.toList[i]? = some x := by
  have hsought : Sought s.toList x (.ok i) := h ▸ sought_binarySearch s.increasing
  exact hsought

/-- A scope without a place is not in the set. -/
theorem not_mem_of_place {i : Nat} (h : s.place x = .error i) : x ∉ s := by
  obtain ⟨-, hbelow, habove⟩ : Sought s.toList x (.error i) := h ▸ sought_binarySearch s.increasing
  intro hmem
  rw [mem_def, ← s.toList.take_append_drop i] at hmem
  rcases mem_append.1 hmem with hmem | hmem
  · exact Nat.lt_irrefl x (hbelow x hmem)
  · exact Nat.lt_irrefl x (habove x hmem)

/-- A scope is found exactly if it is in the set. -/
@[simp] theorem contains_iff : s.contains x = true ↔ x ∈ s := by
  unfold contains
  cases h : s.place x with
  | ok i => exact iff_of_true rfl (mem_of_getElem? (getElem?_place h))
  | error i => exact iff_of_false Bool.false_ne_true (not_mem_of_place h)

/-- Two scope sets with the same members are equal. -/
theorem ext_mem {t : ScopeSet} (h : ∀ x, x ∈ s ↔ x ∈ t) : s = t := by
  obtain ⟨l, hl⟩ := s
  obtain ⟨k, hk⟩ := t
  have nodup : ∀ {m : List Nat}, m.Pairwise (· < ·) → m.Nodup := fun hm => hm.imp Nat.ne_of_lt
  have perm : l.Perm k := (perm_ext_iff_of_nodup (nodup hl) (nodup hk)).2 h
  have eq : l = k := perm.eq_of_pairwise (fun a b _ _ hab hba => absurd hab (Nat.lt_asymm hba)) hl hk
  subst eq
  rfl

@[simp] theorem not_mem_empty : x ∉ empty := by simp [mem_def, empty]

theorem mem_putAt {i : Nat} (h : s.place y = .error i) : x ∈ s.putAt h ↔ x = y ∨ x ∈ s := by
  have hsplit : x ∈ s ↔ x ∈ s.toList.take i ∨ x ∈ s.toList.drop i := by
    rw [← mem_append, take_append_drop, mem_def]
  rw [mem_def, putAt, mem_append, mem_cons, hsplit, or_left_comm]

theorem mem_removeAt {i : Nat} (h : s.place y = .ok i) : x ∈ s.removeAt i ↔ x ∈ s ∧ x ≠ y := by
  have hnodup : s.toList.Nodup := s.increasing.imp Nat.ne_of_lt
  have hplace := getElem?_place h
  rw [mem_def, removeAt, mem_eraseIdx_iff_getElem?]
  constructor
  · rintro ⟨j, hne, hj⟩
    refine ⟨mem_of_getElem? hj, ?_⟩
    rintro rfl
    exact hne ((List.getElem?_inj (List.getElem?_eq_some_iff.1 hj).1 hnodup).1 (hj.trans hplace.symm))
  · rintro ⟨hmem, hne⟩
    obtain ⟨j, hj⟩ := mem_iff_getElem?.1 hmem
    refine ⟨j, ?_, hj⟩
    rintro rfl
    exact hne (Option.some.inj (hj.symm.trans hplace))

@[simp] theorem mem_insert : x ∈ s.insert y ↔ x = y ∨ x ∈ s := by
  unfold insert
  split
  · next h => exact ⟨Or.inr, fun hx => hx.elim (fun heq => heq ▸ mem_of_getElem? (getElem?_place h)) id⟩
  · next h => exact mem_putAt h

@[simp] theorem mem_erase : x ∈ s.erase y ↔ x ∈ s ∧ x ≠ y := by
  unfold erase
  split
  · next h => exact mem_removeAt h
  · next h => exact ⟨fun hx => ⟨hx, fun heq => not_mem_of_place h (heq ▸ hx)⟩, And.left⟩

/-- Flipping a scope changes its own membership and no other. -/
theorem mem_flip : x ∈ s.flip y ↔ if x = y then y ∉ s else x ∈ s := by
  unfold flip
  split
  · next h =>
    have hy : y ∈ s := mem_of_getElem? (getElem?_place h)
    rw [mem_removeAt h]
    by_cases hx : x = y <;> simp [hx, hy]
  · next h =>
    have hy : y ∉ s := not_mem_of_place h
    rw [mem_putAt h]
    by_cases hx : x = y <;> simp [hx, hy]

theorem mem_flip_self : x ∈ s.flip x ↔ x ∉ s := by simp [mem_flip]

theorem mem_flip_of_ne (h : x ≠ y) : x ∈ s.flip y ↔ x ∈ s := by simp [mem_flip, h]

@[simp] theorem flip_flip (s : ScopeSet) (x : ScopeId) : (s.flip x).flip x = s := by
  refine ext_mem fun y => ?_
  by_cases hy : y = x
  · subst hy
    rw [mem_flip_self, mem_flip_self, Classical.not_not]
  · rw [mem_flip_of_ne hy, mem_flip_of_ne hy]

/-- Removing a scope that was just added restores a set that did not have it. -/
theorem erase_insert (h : x ∉ s) : (s.insert x).erase x = s := by
  refine ext_mem fun y => ?_
  rw [mem_erase, mem_insert]
  constructor
  · rintro ⟨rfl | hy, hne⟩
    · exact absurd rfl hne
    · exact hy
  · intro hy
    exact ⟨Or.inr hy, fun e => h (e ▸ hy)⟩

theorem isSubset_iff {t : ScopeSet} : s.isSubset t = true ↔ ∀ x ∈ s, x ∈ t := by
  simp [isSubset, all_eq_true, mem_def]

end ScopeSet

end Hygiene
