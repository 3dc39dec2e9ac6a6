/-!
# Binary search

A number is looked for in an increasing list by halving the part of the list in which it can stand.
-/

namespace Hygiene

/-- The place of a number in an increasing list, or else the place at which it would stand. -/
def binarySearch (xs : List Nat) (x : Nat) : Except Nat Nat := go xs.length 0 xs.length
where
  /-- The search from the place `low` on and before the place `high`, with at most `steps` halvings. -/
  go : Nat → Nat → Nat → Except Nat Nat
    | 0, low, _ => .error low
    | steps + 1, low, high =>
      if low < high then
        let middle := (low + high) / 2
        match xs[middle]? with
        | some y => if y = x then .ok middle else if y < x then go steps (middle + 1) high else go steps low middle
        | none => .error low
      else .error low

/-- What a search has to find: the place of the number, or the place that parts the smaller numbers from the larger. -/
def Sought (xs : List Nat) (x : Nat) : Except Nat Nat → Prop
  | .ok i => xs[i]? = some x
  | .error i => i ≤ xs.length ∧ (∀ y ∈ xs.take i, y < x) ∧ ∀ y ∈ xs.drop i, x < y

variable {xs : List Nat} {x : Nat}

/-- Between numbers that are smaller and numbers that are larger, the search finds what it has to. -/
theorem sought_go (h : xs.Pairwise (· < ·)) {steps low high : Nat} (hle : low ≤ high) (hsteps : high - low ≤ steps)
    (hhigh : high ≤ xs.length) (hbelow : ∀ y ∈ xs.take low, y < x) (habove : ∀ y ∈ xs.drop high, x < y) :
    Sought xs x (binarySearch.go xs x steps low high) := by
  induction steps generalizing low high with
  | zero =>
    obtain rfl : low = high := by omega
    exact ⟨hhigh, hbelow, habove⟩
  | succ steps ih =>
    rw [binarySearch.go]
    by_cases hlt : low < high
    · rw [if_pos hlt]
      dsimp only
      generalize hmid : (low + high) / 2 = middle
      have hlength : middle < xs.length := by omega
      have hdrop : xs.drop middle = xs[middle] :: xs.drop (middle + 1) := List.drop_eq_getElem_cons hlength
      obtain ⟨-, hback, hfront⟩ := List.pairwise_append.1 (xs.take_append_drop middle ▸ h)
      rw [hdrop] at hback hfront
      rw [List.getElem?_eq_getElem hlength]
      dsimp only
      split
      · next heq => exact heq ▸ List.getElem?_eq_getElem hlength
      · split
        · next hless =>
          refine ih (by omega) (by omega) hhigh (fun z hz => ?_) habove
          rw [List.take_add_one, List.getElem?_eq_getElem hlength, Option.toList_some] at hz
          rcases List.mem_append.1 hz with hz | hz
          · exact Nat.lt_trans (hfront z hz _ List.mem_cons_self) hless
          · exact List.mem_singleton.1 hz ▸ hless
        · refine ih (by omega) (by omega) (by omega) hbelow fun z hz => ?_
          have hlarger : x < xs[middle] := by omega
          rw [hdrop] at hz
          rcases List.mem_cons.1 hz with rfl | hz
          · exact hlarger
          · exact Nat.lt_trans hlarger (List.rel_of_pairwise_cons hback hz)
    · rw [if_neg hlt]
      obtain rfl : low = high := by omega
      exact ⟨hhigh, hbelow, habove⟩

/-- In an increasing list the search finds what it has to. -/
theorem sought_binarySearch (h : xs.Pairwise (· < ·)) : Sought xs x (binarySearch xs x) :=
  sought_go h (Nat.zero_le _) (Nat.le_refl _) (Nat.le_refl _) (by simp) (by simp)

end Hygiene
