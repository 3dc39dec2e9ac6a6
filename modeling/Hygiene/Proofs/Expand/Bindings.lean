import Hygiene.Proofs.Expand.Sound

/-!
# Bindings stay as they are

Bindings are numbered in the order in which they were made, and hidden at most right after that. So what an identifier
refers to changes only in favour of a binding that was made since.
-/

namespace Hygiene

open List

namespace History

variable {e : Event} {h l : List Event} {b : Binding}

/-- Bindings are numbered in the order in which they were made. -/
theorem Sound.numbered (hs : Sound h) : (bindings h).map (·.id) = List.range (bindings h).length := by
  induction h with
  | nil => rfl
  | cons e h ih =>
    cases e with
    | bound b =>
      have hid : b.id = (bindings h).length := hs.fits.1
      simp [bindings, range_succ, ih hs.tail, hid]
    | hidden id scope =>
      rw [bindings, length_modify, ← ih hs.tail]
      refine ext_getElem? fun i => ?_
      rw [List.getElem?_map, List.getElem?_map, List.getElem?_modify]
      split <;> cases (bindings h)[i]? <;> rfl
    | _ => exact ih hs.tail

theorem length_bindings_append : (bindings h).length ≤ (bindings (l ++ h)).length := by
  induction l with
  | nil => exact Nat.le_refl _
  | cons e l ih =>
    refine Nat.le_trans ih ?_
    rw [cons_append]
    cases e <;> simp [bindings]

/-- A binding is hidden right after it was made, so from any other event on it stays as it is. -/
theorem Sound.getElem?_bindings (hs : Sound (l ++ e :: h)) (he : ∀ b, e ≠ .bound b) {i : Nat}
    (hi : i < (bindings (e :: h)).length) : (bindings (l ++ e :: h))[i]? = (bindings (e :: h))[i]? := by
  induction l with
  | nil => rfl
  | cons e' l ih =>
    have hle : (bindings (e :: h)).length ≤ (bindings (l ++ e :: h)).length := length_bindings_append
    rw [← ih hs.tail, cons_append]
    cases e' with
    | bound b =>
      rw [bindings, List.getElem?_append_left]
      omega
    | hidden id scope =>
      obtain ⟨b, earlier, heq, hid⟩ := hs.fits
      cases l with
      | nil => exact absurd (List.cons.inj heq).1 (he b)
      | cons e' l =>
        obtain ⟨rfl, rfl⟩ := List.cons.inj heq
        have hb : b.id = (bindings (l ++ e :: h)).length := hs.tail.fits.1
        have hle : (bindings (e :: h)).length ≤ (bindings (l ++ e :: h)).length := length_bindings_append
        have hne : ¬ id = i := by
          rw [← hid, hb]
          exact Nat.ne_of_gt (Nat.lt_of_lt_of_le hi hle)
        show ((bindings (.bound b :: (l ++ e :: h))).modify id _)[i]? = _
        simp [hne]
    | _ => rfl

/-- Bindings are found under their numbers. -/
theorem Sound.getElem?_id (hs : Sound h) (hb : b ∈ bindings h) : (bindings h)[b.id]? = some b := by
  obtain ⟨i, hi⟩ := mem_iff_getElem?.1 hb
  have hnum := congrArg (·[i]?) hs.numbered
  simp only [List.getElem?_map, hi, Option.map_some] at hnum
  have hid : b.id = i := by
    rw [List.getElem?_range (List.getElem?_eq_some_iff.1 hi).1] at hnum
    exact Option.some.inj hnum
  rwa [hid]

theorem numbered_store (hs : Sound h) : (store h).Numbered := by
  have hnum := hs.numbered
  unfold Store.Numbered store Store.ofBindings
  rwa [size_toArray]

/-- An identifier refers to what it referred to before, or to a binding that was made since. -/
theorem Sound.resolveIdent_later (hs : Sound (l ++ e :: h)) (he : ∀ b, e ≠ .bound b) (ident : Token) :
    (store (l ++ e :: h)).resolveIdent ident = (store (e :: h)).resolveIdent ident ∨
      ∃ b, (store (l ++ e :: h)).resolveIdent ident = some b ∧ (bindings (e :: h)).length ≤ b.id := by
  have hsub : ∀ c ∈ bindings (e :: h), c ∈ bindings (l ++ e :: h) := by
    intro c hc
    obtain ⟨i, hi⟩ := mem_iff_getElem?.1 hc
    rw [← hs.getElem?_bindings he (List.getElem?_eq_some_iff.1 hi).1] at hi
    exact mem_of_getElem? hi
  unfold Store.resolveIdent
  cases ident.ident? with
  | none => exact Or.inl rfl
  | some name =>
    simp only [Option.bind_some]
    cases hnow : (store (l ++ e :: h)).resolve name ident.scopes with
    | none =>
      refine Or.inl (Store.resolve_eq_none.2 fun c hc => ?_).symm
      exact Store.resolve_eq_none.1 hnow c (hsub c hc)
    | some b =>
      by_cases hle : (bindings (e :: h)).length ≤ b.id
      · exact Or.inr ⟨b, rfl, hle⟩
      · obtain ⟨hmem, hv, hbelow⟩ := (Store.resolve_eq_some (numbered_store hs)).1 hnow
        have hget := hs.getElem?_id hmem
        rw [hs.getElem?_bindings he (Nat.lt_of_not_le hle)] at hget
        refine Or.inl ((Store.resolve_eq_some (numbered_store hs.of_append)).2 ⟨mem_of_getElem? hget, hv, ?_⟩).symm
        exact fun c hc => hbelow c (hsub c hc)

end History

namespace Run

variable {run : Run}

theorem Sound.numbered (hr : run.Sound) : run.store.Numbered := by
  have h := hr.history.numbered
  rw [← hr.bindings, Array.length_toList] at h
  exact h

/-- The bindings of a sound run are those of its history. -/
theorem Sound.resolve_store (hr : run.Sound) : (History.store run.events).resolve = run.store.resolve := by
  funext name scopes
  rw [Store.resolve_eq, Store.resolve_eq, History.store, Store.ofBindings, ← hr.bindings]

theorem Sound.resolveIdent_store (hr : run.Sound) :
    (History.store run.events).resolveIdent = run.store.resolveIdent := by
  funext ident
  unfold Store.resolveIdent
  rw [hr.resolve_store]

end Run

end Hygiene
