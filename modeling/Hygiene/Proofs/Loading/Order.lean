import Hygiene.Proofs.Loading.Aside

/-!
# The order of modules

A module is finished or being expanded but not both, it is asked for and begun once, it stands behind the modules it
imports, and of two modules on the stack the outer one imports the inner one. `Loads.Ordered` says so. Entering and
finishing a module keep the order, and a module that is asked for while it is on the stack closes a circle of imports.
-/

namespace Hygiene

open List

variable {record : ModuleRecord} {imported importer : String}

variable {modules : List (String × ModuleRecord)} {specifier : String} {loading : List String}
  {requests : List ImportRequest}

namespace Assoc

variable {κ α : Type} [BEq κ] [LawfulBEq κ] {key : κ} {entries : List (κ × α)}

/-- A new key goes to the end. -/
theorem insert_of_not_mem_keys (h : key ∉ keys entries) (value : α) :
    insert key value entries = entries ++ [(key, value)] := by
  induction entries with
  | nil => rfl
  | cons entry rest ih =>
    obtain ⟨k, a⟩ := entry
    obtain ⟨hne, hrest⟩ : key ≠ k ∧ key ∉ keys rest := by simpa [keys] using h
    simp [insert, Ne.symm hne, ih (by simpa [keys] using hrest)]

/-- What is not found under a key is not a key of the list. -/
theorem not_mem_keys_of_get? (h : get? key entries = none) : key ∉ keys entries := by
  induction entries with
  | nil => exact not_mem_nil
  | cons entry rest ih =>
    obtain ⟨k, a⟩ := entry
    rw [get?] at h
    split at h
    · cases h
    · next hne =>
      intro hmem
      rcases mem_cons.1 hmem with heq | hmem
      · exact hne (by simp [heq])
      · exact ih h hmem

theorem mem_keys_of_get? {a : α} (h : get? key entries = some a) :
    key ∈ keys entries := mem_map.2 ⟨_, mem_of_get? h, rfl⟩

end Assoc

/-- Every module stands behind all the modules that it imports. -/
def ImportsFirst (modules : List (String × ModuleRecord)) : Prop :=
  ∀ before specifier record after, modules = before ++ (specifier, record) :: after →
    ∀ i, .importItem i ∈ record.items → i.specifier ∈ Assoc.keys before

/-- One module imports another. -/
def Imports (modules : List (String × ModuleRecord)) (importer imported : String) : Prop :=
  ∃ record, (importer, record) ∈ modules ∧ ∃ i, .importItem i ∈ record.items ∧ i.specifier = imported

theorem ImportsFirst.append (h : ImportsFirst modules) (hrecord : ∀ i, .importItem i ∈ record.items → i.specifier ∈ Assoc.keys modules) :
    ImportsFirst (modules ++ [(specifier, record)]) := by
  intro before m r after heq i hi
  rcases eq_nil_or_concat after with rfl | ⟨init, last, rfl⟩
  · obtain ⟨rfl, hlast⟩ := append_inj' heq rfl
    cases hlast
    exact hrecord i hi
  · have hsplit : modules ++ [(specifier, record)] = (before ++ (m, r) :: init) ++ [last] := by
      simpa using heq
    exact h before m r init (append_inj' hsplit rfl).1 i hi

/-- An imported module is one of the modules. -/
theorem ImportsFirst.mem_keys (h : ImportsFirst modules) (himports : Imports modules importer imported) : imported ∈ Assoc.keys modules := by
  obtain ⟨record, hmem, i, hi, rfl⟩ := himports
  obtain ⟨before, after, rfl⟩ := append_of_mem hmem
  have hbefore := h before importer record after rfl i hi
  simp only [Assoc.keys, map_append] at hbefore ⊢
  exact mem_append_left _ hbefore

/-- An imported module has a smaller index. -/
theorem ImportsFirst.idxOf_lt (h : ImportsFirst modules)
    (hnodup : (Assoc.keys modules).Nodup) (himports : Imports modules importer imported) :
    (Assoc.keys modules).idxOf imported < (Assoc.keys modules).idxOf importer := by
  obtain ⟨record, hmem, i, hi, rfl⟩ := himports
  obtain ⟨before, after, rfl⟩ := append_of_mem hmem
  have hbefore : i.specifier ∈ Assoc.keys before := h before importer record after rfl i hi
  have hkeys : Assoc.keys (before ++ (importer, record) :: after) =
      Assoc.keys before ++ importer :: Assoc.keys after := by
    simp [Assoc.keys]
  rw [hkeys] at hnodup ⊢
  have hnot : importer ∉ Assoc.keys before := fun hin =>
    (nodup_append.1 hnodup).2.2 importer hin importer mem_cons_self rfl
  rw [idxOf_append, if_pos hbefore, idxOf_append, if_neg hnot, idxOf_cons_self, Nat.zero_add]
  exact idxOf_lt_length_of_mem hbefore

/-- No module imports itself, not even through other modules. -/
theorem ImportsFirst.acyclic (h : ImportsFirst modules)
    (hnodup : (Assoc.keys modules).Nodup) (m : String) : ¬ Relation.TransGen (Imports modules) m m := by
  have hlt : ∀ a b, Relation.TransGen (Imports modules) a b →
      (Assoc.keys modules).idxOf b < (Assoc.keys modules).idxOf a := by
    intro a b hab
    induction hab with
    | single hstep => exact h.idxOf_lt hnodup hstep
    | tail _ hstep ih => exact Nat.lt_trans (h.idxOf_lt hnodup hstep) ih
  exact fun hcycle => Nat.lt_irrefl _ (hlt m m hcycle)

/-- Every module on the stack but the outermost was imported while the one around it was being expanded. -/
def Linked (requests : List ImportRequest) (loading : List String) : Prop :=
  ∀ inner outer around, inner :: outer :: around <:+ loading → ⟨outer :: around, inner⟩ ∈ requests

theorem Linked.cons (h : Linked requests loading)
    (hrequest : loading = [] ∨ ⟨loading, specifier⟩ ∈ requests) : Linked requests (specifier :: loading) := by
  intro inner outer around hsuffix
  rcases suffix_cons_iff.1 hsuffix with heq | hsuffix
  · obtain ⟨rfl, rfl⟩ := List.cons.inj heq
    exact hrequest.resolve_left nofun
  · exact h inner outer around hsuffix

/-- An import closes a circle: it is the last that was begun, the chain leads from the module it names back to that
module, all its modules are being expanded, and while each was, the next one was imported. -/
structure ImportRequest.Closes (last : ImportRequest) (requests : List ImportRequest) (chain : List String) : Prop where
  last_begun : requests.head? = some last
  starts : chain.head? = some last.specifier
  ends : chain.getLast? = some last.specifier
  two_le_length : 2 ≤ chain.length
  expanding : ∀ m ∈ chain, m ∈ last.loading
  imports : ∀ importer imported, [importer, imported] <:+: chain →
    ∃ around, importer :: around <:+ last.loading ∧ ⟨importer :: around, imported⟩ ∈ requests

open Expand (importChain)

/-- The stack up to a module on it, read from the outside, with the module at both ends. -/
theorem reverse_importChain (loading : List String) (specifier : String) :
    (importChain loading specifier).reverse = specifier :: loading.takeWhile (· ≠ specifier) ++ [specifier] := by
  simp [importChain]

theorem takeWhile_append_prefix (h : specifier ∈ loading) :
    loading.takeWhile (· ≠ specifier) ++ [specifier] <+: loading := by
  induction loading with
  | nil => cases h
  | cons m loading ih =>
    by_cases hm : m = specifier
    · subst hm
      simp
    · have hmem : specifier ∈ loading := (mem_cons.1 h).resolve_left (Ne.symm hm)
      simpa [takeWhile_cons, hm] using ih hmem

/-- A module that is imported while it is being expanded closes a circle. -/
theorem Linked.closes
    (h : Linked requests loading) (hmem : specifier ∈ loading) (hlast : requests.head? = some ⟨loading, specifier⟩) :
    ImportRequest.Closes ⟨loading, specifier⟩ requests (importChain loading specifier) where
  last_begun := hlast
  starts := rfl
  ends := List.getLast?_concat
  two_le_length := by simp [importChain]
  expanding := by
    intro m hm
    simp only [importChain, cons_append, mem_cons, mem_append, mem_reverse, not_mem_nil,
      or_false] at hm
    rcases hm with rfl | hm | rfl
    · exact hmem
    · exact (List.takeWhile_prefix _).subset hm
    · exact hmem
  imports := by
    intro importer imported hchain
    have hrequest : ⟨loading, specifier⟩ ∈ requests := mem_of_head? hlast
    have hstack : [imported, importer] <:+: specifier :: loading := by
      have hrev : [imported, importer] <:+: (importChain loading specifier).reverse := reverse_infix.2 hchain
      rw [reverse_importChain, cons_append] at hrev
      exact hrev.trans (List.IsPrefix.isInfix (cons_prefix_cons.2 ⟨rfl, takeWhile_append_prefix hmem⟩))
    obtain ⟨pre, around, heq⟩ := hstack
    have hsuffix : imported :: importer :: around <:+ specifier :: loading := ⟨pre, by simpa using heq⟩
    refine ⟨around, ?_, (h.cons (Or.inr hrequest)) imported importer around hsuffix⟩
    rcases suffix_cons_iff.1 hsuffix with heq | hinner
    · exact ⟨[], (List.cons.inj heq).2⟩
    · exact (suffix_cons imported _).trans hinner

namespace Loads

/-- The modules that are finished or being expanded. -/
def known (l : Loads) : List String := Assoc.keys l.modules ++ l.loading

/-- The modules are in order. -/
structure Ordered (l : Loads) : Prop where
  known_nodup : l.known.Nodup
  asked_nodup : l.asked.Nodup
  asked_known : l.asked ⊆ l.known
  begun_nodup : l.begun.Nodup
  begun_known : l.begun ⊆ l.known.map expandingMessage
  importsFirst : ImportsFirst l.modules
  linked : Linked l.requests l.loading

/-- The expansion of a module begins. -/
def enter (l : Loads) (specifier : String) : Loads :=
  { l with loading := specifier :: l.loading, begun := expandingMessage specifier :: l.begun }

/-- The expansion of the innermost module is finished. -/
def finish (l : Loads) (specifier : String) (record : ModuleRecord) : Loads :=
  { l with modules := Assoc.insert specifier record l.modules, loading := l.loading.tail }

/-- The module was asked for by an import that has just begun, unless it is the first one. -/
def Requested (l : Loads) (specifier : String) : Prop :=
  l.loading = [] ∨ l.requests.head? = some ⟨l.loading, specifier⟩

variable {l : Loads} {specifier : String}

theorem expandingMessage_injective {a b : String} (h : expandingMessage a = expandingMessage b) : a = b :=
  (String.append_right_inj _).1 ((String.append_left_inj _).1 h)

theorem known_enter : (l.enter specifier).known.Perm (specifier :: l.known) := perm_middle

/-- A module that is neither finished nor being expanded can be entered. It may have been asked for. -/
theorem Ordered.enter (h : l.Ordered) (hnew : specifier ∉ l.known) (hrequest : l.Requested specifier)
    {asked : List String} (hasked : asked.Nodup) (hsubset : asked ⊆ specifier :: l.known) :
    ({ l with asked }.enter specifier).Ordered := by
  have hperm : ({ l with asked }.enter specifier).known.Perm (specifier :: l.known) := known_enter
  have hbegun : ∀ message ∈ l.begun, ∃ m ∈ l.known, expandingMessage m = message := fun message hm =>
    mem_map.1 (h.begun_known hm)
  constructor
  · exact hperm.nodup_iff.2 (nodup_cons.2 ⟨hnew, h.known_nodup⟩)
  · exact hasked
  · exact fun m hm => hperm.mem_iff.2 (hsubset hm)
  · refine nodup_cons.2 ⟨fun hmem => ?_, h.begun_nodup⟩
    obtain ⟨m, hm, heq⟩ := hbegun _ hmem
    exact hnew (expandingMessage_injective heq ▸ hm)
  · intro message hm
    refine mem_map.2 ?_
    rcases mem_cons.1 hm with rfl | hm
    · exact ⟨specifier, hperm.mem_iff.2 mem_cons_self, rfl⟩
    · obtain ⟨m, hmem, heq⟩ := hbegun message hm
      exact ⟨m, hperm.mem_iff.2 (mem_cons_of_mem _ hmem), heq⟩
  · exact h.importsFirst
  · exact h.linked.cons (hrequest.imp_right mem_of_head?)

theorem Ordered.modules_nodup (h : l.Ordered) : (Assoc.keys l.modules).Nodup := (nodup_append.1 h.known_nodup).1

theorem Ordered.not_mem_keys (h : l.Ordered) (hmem : specifier ∈ l.loading) : specifier ∉ Assoc.keys l.modules :=
  fun hkey => (nodup_append.1 h.known_nodup).2.2 specifier hkey specifier hmem rfl

/-- The innermost module is finished when the modules that it imports are. It is known as before. -/
theorem Ordered.finish (h : l.Ordered) {outer : List String} (hloading : l.loading = specifier :: outer) (himports : ∀ i, .importItem i ∈ record.items → i.specifier ∈ Assoc.keys l.modules) :
    (l.finish specifier record).Ordered ∧ (l.finish specifier record).modules = l.modules ++ [(specifier, record)] ∧
      (l.finish specifier record).known = l.known := by
  have hnew : specifier ∉ Assoc.keys l.modules := h.not_mem_keys (by rw [hloading]; exact mem_cons_self)
  have hmodules : (l.finish specifier record).modules = l.modules ++ [(specifier, record)] :=
    Assoc.insert_of_not_mem_keys hnew record
  have hkeys : Assoc.keys (l.finish specifier record).modules = Assoc.keys l.modules ++ [specifier] := by
    rw [hmodules]
    simp [Assoc.keys]
  have htail : (l.finish specifier record).loading = outer := by
    simp [Loads.finish, hloading]
  have hknown : (l.finish specifier record).known = l.known := by
    unfold known
    rw [hkeys, htail, hloading, append_assoc]
    rfl
  refine ⟨⟨?_, h.asked_nodup, ?_, h.begun_nodup, ?_, ?_, ?_⟩, hmodules, hknown⟩
  · rw [hknown]
    exact h.known_nodup
  · rw [hknown]
    exact h.asked_known
  · rw [hknown]
    exact h.begun_known
  · rw [hmodules]
    exact h.importsFirst.append himports
  · rw [htail]
    intro inner around rest hsuffix
    exact h.linked inner around rest (hloading ▸ hsuffix.trans (suffix_cons specifier outer))

end Loads

end Hygiene
