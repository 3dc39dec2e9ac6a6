/-!
# Association lists

Lists of keys with values in the order in which the keys first came. Inserting a key again changes its value and keeps
its place.
-/

namespace Hygiene.Assoc

variable {κ α : Type} [BEq κ]

/-- The value under a key. -/
def get? (key : κ) : List (κ × α) → Option α
  | [] => none
  | (k, a) :: rest => if k == key then some a else get? key rest

/-- Whether there is a value under a key. -/
def contains (key : κ) (entries : List (κ × α)) : Bool := (get? key entries).isSome

/-- Sets the value under a key: in its place when the key is there, at the end otherwise. -/
def insert (key : κ) (value : α) : List (κ × α) → List (κ × α)
  | [] => [(key, value)]
  | (k, a) :: rest => if k == key then (k, value) :: rest else (k, a) :: insert key value rest

/-- What is found after an insertion. -/
theorem get?_insert [LawfulBEq κ] (key k : κ) (value : α) (entries : List (κ × α)) :
    get? k (insert key value entries) = if key == k then some value else get? k entries := by
  induction entries with
  | nil => simp [insert, get?]
  | cons first rest ih =>
    obtain ⟨k', b⟩ := first
    by_cases h : k' = key
    · subst h
      by_cases hk : k' = k <;> simp [insert, get?, hk]
    · by_cases hk : k' = k
      · subst hk
        simp [insert, get?, h, Ne.symm h]
      · simp [insert, get?, h, hk, ih]

/-- The keys in order. -/
def keys (entries : List (κ × α)) : List κ := entries.map (·.1)

/-- The list of entries inserted one after the other. -/
def ofList (entries : List (κ × α)) : List (κ × α) :=
  entries.foldl (fun done (key, value) => insert key value done) []

end Hygiene.Assoc
