import Hygiene.Assoc

/-!
# Association lists under insertion
-/

namespace Hygiene.Assoc

open List

variable {κ α : Type} [BEq κ] {key : κ} {entries : List (κ × α)}

/-- A value that is found under a key is in the list. -/
theorem exists_mem_of_get? {a : α} (h : get? key entries = some a) : ∃ k, (k, a) ∈ entries := by
  induction entries with
  | nil => cases h
  | cons entry rest ih =>
    obtain ⟨k, b⟩ := entry
    rw [get?] at h
    split at h
    · cases h
      exact ⟨k, mem_cons_self⟩
    · obtain ⟨k', hk'⟩ := ih h
      exact ⟨k', mem_cons_of_mem _ hk'⟩

/-- An insertion brings no other value into the list. -/
theorem mem_insert {value : α} {entry : κ × α}
    (h : entry ∈ insert key value entries) : entry.2 = value ∨ entry ∈ entries := by
  induction entries with
  | nil =>
    rw [insert, mem_singleton] at h
    exact Or.inl (h ▸ rfl)
  | cons first rest ih =>
    obtain ⟨k, b⟩ := first
    rw [insert] at h
    split at h
    · rcases mem_cons.1 h with rfl | h
      · exact Or.inl rfl
      · exact Or.inr (mem_cons_of_mem _ h)
    · rcases mem_cons.1 h with rfl | h
      · exact Or.inr mem_cons_self
      · exact (ih h).imp_right (mem_cons_of_mem _)

/-- An insertion brings one entry into the list. -/
theorem eq_or_mem_of_mem_insert [LawfulBEq κ] {value : α} {entry : κ × α}
    (h : entry ∈ insert key value entries) : entry = (key, value) ∨ entry ∈ entries := by
  induction entries with
  | nil => exact Or.inl (mem_singleton.1 h)
  | cons first rest ih =>
    obtain ⟨k, b⟩ := first
    rw [insert] at h
    split at h
    · next heq =>
      rcases mem_cons.1 h with rfl | h
      · exact Or.inl (by rw [eq_of_beq heq])
      · exact Or.inr (mem_cons_of_mem _ h)
    · rcases mem_cons.1 h with rfl | h
      · exact Or.inr mem_cons_self
      · exact (ih h).imp_right (mem_cons_of_mem _)

/-- Insertions never repeat a key. -/
theorem nodup_insert [LawfulBEq κ] (key : κ) (value : α) (h : (keys entries).Nodup) :
    (keys (insert key value entries)).Nodup := by
  induction entries with
  | nil => simp [insert, keys]
  | cons first rest ih =>
    obtain ⟨k, b⟩ := first
    obtain ⟨hnew, hrest⟩ := nodup_cons.1 h
    rw [insert]
    split
    · exact h
    · next hne =>
      refine nodup_cons.2 ⟨fun hk => ?_, ih hrest⟩
      obtain ⟨entry, hentry, heq⟩ := mem_map.1 hk
      rcases eq_or_mem_of_mem_insert hentry with rfl | hold
      · exact hne (beq_iff_eq.2 heq.symm)
      · exact hnew (mem_map.2 ⟨entry, hold, heq⟩)

/-- A value that is found under a key is in the list with the key. -/
theorem mem_of_get? [LawfulBEq κ] {a : α} (h : get? key entries = some a) : (key, a) ∈ entries := by
  induction entries with
  | nil => cases h
  | cons entry rest ih =>
    obtain ⟨k, b⟩ := entry
    rw [get?] at h
    split at h
    · next heq =>
      cases h
      rw [eq_of_beq heq]
      exact mem_cons_self
    · exact mem_cons_of_mem _ (ih h)

end Hygiene.Assoc
