import Hygiene.Proofs.Scope.Set
import Hygiene.Scope.Store

/-!
# What an identifier refers to

Of the bindings that are visible to an identifier it refers to the last one of those with the largest scope set.
-/

namespace Hygiene

open List

namespace Binding

/-- Whether an identifier with this name and these scopes may refer to the binding. -/
def isVisible (b : Binding) (name : String) (scopes : ScopeSet) : Bool := b.name = name && b.admits scopes

/-- A binding is visible under its name, to those who have its scopes and not the one that it is hidden from. -/
theorem isVisible_iff {b : Binding} {name : String} {scopes : ScopeSet} : b.isVisible name scopes = true ↔
    b.name = name ∧ (∀ x ∈ b.scopes, x ∈ scopes) ∧ ∀ x, b.hiddenFrom = some x → x ∉ scopes := by
  simp only [isVisible, admits, Bool.and_eq_true, decide_eq_true_eq, ScopeSet.isSubset_iff, Bool.not_eq_true']
  cases b.hiddenFrom with
  | none => simp
  | some hidden => simp [← ScopeSet.contains_iff]

/-- The order in which bindings are preferred: fewer scopes come first, and of equally many the earlier binding. -/
def Below (c b : Binding) : Prop :=
  c.scopes.size < b.scopes.size ∨ c.scopes.size = b.scopes.size ∧ c.id ≤ b.id

theorem Below.refl (b : Binding) : b.Below b := Or.inr ⟨rfl, Nat.le_refl _⟩

theorem Below.id_eq {b c : Binding} (h : c.Below b) (h' : b.Below c) : c.id = b.id := by
  unfold Below at h h'
  grind

end Binding

namespace Store

variable {s : Store} {name : String} {scopes : ScopeSet} {b c : Binding}

/-! ### The index by name -/

/-- The index leads to the bindings of a name, in their order. -/
theorem named_eq : s.named name = s.bindings.toList.filter (·.name = name) := by
  have hfilter : ∀ l : List Binding,
      ((List.range l.length).filter fun i => l[i]?.any (·.name = name)).filterMap (l[·]?) = l.filter (·.name = name) := by
    intro l
    induction l with
    | nil => rfl
    | cons b l ih =>
      rw [length_cons, range_succ_eq_map, filter_cons, filter_map, filter_cons]
      by_cases hb : b.name = name <;> simp [hb, filterMap_map, Function.comp_def, ← ih]
  rw [named, s.indexed, numbersOf, ← hfilter, Array.length_toList]
  simp only [Array.getElem?_toList]

/-- An identifier refers to the best of all bindings that it sees. -/
theorem resolve_eq (s : Store) (name : String) (scopes : ScopeSet) :
    s.resolve name scopes = (s.bindings.toList.filter (·.isVisible name scopes)).foldl better none := by
  rw [resolve, named_eq, filter_filter]
  refine congrArg (List.foldl better none) (filter_congr fun b _ => ?_)
  rw [Binding.isVisible, Bool.and_comm]

/-- The index of a list of bindings. -/
theorem indexed_ofBindings (bindings : Array Binding) (name : String) :
    (Assoc.get? name (bindings.toList.map fun b => (b.name, numbersOf bindings b.name))).getD [] = numbersOf bindings name := by
  have hget : ∀ l : List Binding, Assoc.get? name (l.map fun b => (b.name, numbersOf bindings b.name)) =
      if l.any (·.name = name) then some (numbersOf bindings name) else none := by
    intro l
    induction l with
    | nil => rfl
    | cons b l ih =>
      rw [map_cons, Assoc.get?, ih]
      by_cases hb : b.name = name <;> simp [hb]
  rw [hget]
  split
  · rfl
  · next hnone =>
    refine (filter_eq_nil_iff.2 fun i _ hi => hnone ?_).symm
    obtain ⟨b, hb, hname⟩ := (Option.any_eq_true ..).1 hi
    exact any_eq_true.2 ⟨b, Array.mem_toList_iff.2 (Array.mem_of_getElem? hb), hname⟩

/-- A store with the given bindings. -/
def ofBindings (bindings : Array Binding) : Store :=
  { bindings, byName := bindings.toList.map fun b => (b.name, numbersOf bindings b.name)
    indexed := indexed_ofBindings bindings }

/-! ### The best binding -/

/-- The bindings of a store are numbered in order. -/
def Numbered (s : Store) : Prop := s.bindings.toList.map (·.id) = List.range s.bindings.size

/-- The binding is the last of the largest ones in a list. -/
def Best (b : Binding) (cs : List Binding) : Prop :=
  ∃ pre post, cs = pre ++ b :: post ∧ (∀ c ∈ pre, c.scopes.size ≤ b.scopes.size) ∧
    ∀ c ∈ post, c.scopes.size < b.scopes.size

/-- Going through a list with a binding at hand, one ends with it or with the best one of the list. -/
theorem foldl_better (a : Binding) (cs : List Binding) : ∃ b, cs.foldl better (some a) = some b ∧
    (b = a ∧ (∀ c ∈ cs, c.scopes.size < a.scopes.size) ∨ Best b cs ∧ a.scopes.size ≤ b.scopes.size) := by
  induction cs generalizing a with
  | nil => exact ⟨a, rfl, Or.inl ⟨rfl, by simp⟩⟩
  | cons c cs ih =>
    rw [foldl_cons, better]
    by_cases hc : c.scopes.size < a.scopes.size
    · rw [if_pos hc]
      obtain ⟨b, hb, ⟨rfl, hall⟩ | ⟨⟨pre, post, rfl, hpre, hpost⟩, hle⟩⟩ := ih a
      · exact ⟨b, hb, Or.inl ⟨rfl, forall_mem_cons.2 ⟨hc, hall⟩⟩⟩
      · refine ⟨b, hb, Or.inr ⟨⟨c :: pre, post, rfl, forall_mem_cons.2 ⟨?_, hpre⟩, hpost⟩, hle⟩⟩
        omega
    · rw [if_neg hc]
      obtain ⟨b, hb, ⟨rfl, hall⟩ | ⟨⟨pre, post, rfl, hpre, hpost⟩, hle⟩⟩ := ih c
      · exact ⟨b, hb, Or.inr ⟨⟨[], cs, rfl, by simp, hall⟩, by omega⟩⟩
      · refine ⟨b, hb, Or.inr ⟨⟨c :: pre, post, rfl, forall_mem_cons.2 ⟨hle, hpre⟩, hpost⟩, ?_⟩⟩
        omega

/-- Going through a list one ends with its best binding, if it has one. -/
theorem foldl_better_none (cs : List Binding) :
    cs = [] ∧ cs.foldl better none = none ∨ ∃ b, cs.foldl better none = some b ∧ Best b cs := by
  cases cs with
  | nil => exact Or.inl ⟨rfl, rfl⟩
  | cons c cs =>
    obtain ⟨b, hb, ⟨rfl, hall⟩ | ⟨⟨pre, post, rfl, hpre, hpost⟩, hle⟩⟩ := foldl_better c cs
    · exact Or.inr ⟨b, hb, [], cs, rfl, by simp, hall⟩
    · exact Or.inr ⟨b, hb, c :: pre, post, rfl, forall_mem_cons.2 ⟨hle, hpre⟩, hpost⟩

/-- In a list in order, all bindings are below the best one. -/
theorem Best.below {b : Binding} {cs : List Binding} (hb : Best b cs) (hcs : cs.Pairwise fun c d => c.id < d.id) :
    ∀ c ∈ cs, c.Below b := by
  obtain ⟨pre, post, rfl, hpre, hpost⟩ := hb
  intro c hc
  rcases mem_append.1 hc with hc | hc
  · have hlt := (pairwise_append.1 hcs).2.2 c hc b mem_cons_self
    rcases Nat.lt_or_eq_of_le (hpre c hc) with h | h
    · exact Or.inl h
    · exact Or.inr ⟨h, Nat.le_of_lt hlt⟩
  · rcases mem_cons.1 hc with rfl | hc
    · exact .refl c
    · exact Or.inl (hpost c hc)

theorem Numbered.pairwise (h : s.Numbered) : s.bindings.toList.Pairwise fun c d => c.id < d.id := by
  have : (s.bindings.toList.map (·.id)).Pairwise (· < ·) := h ▸ pairwise_lt_range
  exact pairwise_map.1 this

/-- Bindings with the same number are the same. -/
theorem Numbered.eq_of_id (h : s.Numbered) (hb : b ∈ s.bindings.toList) (hc : c ∈ s.bindings.toList)
    (hid : b.id = c.id) : b = c := by
  obtain ⟨i, hi, rfl⟩ := mem_iff_getElem.1 hb
  obtain ⟨j, hj, rfl⟩ := mem_iff_getElem.1 hc
  have get : ∀ k (hk : k < s.bindings.toList.length), (s.bindings.toList[k]).id = k := by
    intro k hk
    have h1 : (s.bindings.toList.map (·.id))[k]? = some k := by
      rw [h, List.getElem?_range (by simpa using hk)]
    rw [List.getElem?_map, List.getElem?_eq_getElem hk] at h1
    simpa using h1
  rw [get i hi, get j hj] at hid
  subst hid
  rfl

/-- An identifier that refers to nothing sees no binding. -/
theorem resolve_eq_none : s.resolve name scopes = none ↔ ∀ c ∈ s.bindings.toList, ¬ c.isVisible name scopes = true := by
  rw [resolve_eq]
  rcases foldl_better_none (s.bindings.toList.filter (·.isVisible name scopes)) with ⟨hnil, hnone⟩ | ⟨b, hb, hbest⟩
  · simp only [hnone, true_iff]
    simpa using hnil
  · rw [hb]
    obtain ⟨pre, post, heq, _, _⟩ := hbest
    have hmem : b ∈ s.bindings.toList.filter (·.isVisible name scopes) := by rw [heq]; simp
    obtain ⟨h1, h2⟩ := mem_filter.1 hmem
    simp only [reduceCtorEq, false_iff, Classical.not_forall]
    exact ⟨b, h1, fun h => h h2⟩

/-- An identifier refers to the best of the bindings that it sees. -/
theorem resolve_best (h : s.resolve name scopes = some b) :
    Best b (s.bindings.toList.filter (·.isVisible name scopes)) := by
  rw [resolve_eq] at h
  rcases foldl_better_none (s.bindings.toList.filter (·.isVisible name scopes)) with ⟨_, hnone⟩ | ⟨b', hb', hbest⟩
  · rw [hnone] at h
    cases h
  · rw [hb'] at h
    cases h
    exact hbest

theorem resolve_visible (h : s.resolve name scopes = some b) :
    b ∈ s.bindings.toList ∧ b.isVisible name scopes = true := by
  obtain ⟨pre, post, heq, _, _⟩ := resolve_best h
  exact mem_filter.1 (heq ▸ (by simp : b ∈ pre ++ b :: post))

theorem resolve_below (hs : s.Numbered) (h : s.resolve name scopes = some b) (hc : c ∈ s.bindings.toList)
    (hv : c.isVisible name scopes = true) : c.Below b :=
  (resolve_best h).below (hs.pairwise.filter _) c (mem_filter.2 ⟨hc, hv⟩)

/-- An identifier refers to the binding that all others it sees are below. -/
theorem resolve_eq_some (hs : s.Numbered) : s.resolve name scopes = some b ↔
    b ∈ s.bindings.toList ∧ b.isVisible name scopes = true ∧
      ∀ c ∈ s.bindings.toList, c.isVisible name scopes = true → c.Below b := by
  constructor
  · intro h
    obtain ⟨hmem, hvis⟩ := resolve_visible h
    exact ⟨hmem, hvis, fun c hc hv => resolve_below hs h hc hv⟩
  · rintro ⟨hmem, hvis, hbelow⟩
    cases hr : s.resolve name scopes with
    | none => exact absurd hvis (resolve_eq_none.1 hr b hmem)
    | some b' =>
      obtain ⟨hmem', hvis'⟩ := resolve_visible hr
      have hid := (hbelow b' hmem' hvis').id_eq (resolve_below hs hr hmem hvis)
      rw [hs.eq_of_id hmem' hmem hid]

/-- An identifier with more scopes refers to the same binding exactly if the binding it refers to has none of the added
scopes, unless the addition hides what it referred to. -/
theorem resolve_eq_iff_of_subset {more : ScopeSet} (hs : s.Numbered) (hsub : ∀ x ∈ scopes, x ∈ more)
    (shown : ∀ b, s.resolve name scopes = some b → ∀ x, b.hiddenFrom = some x → x ∉ more) :
    s.resolve name more = s.resolve name scopes ↔
      ∀ b, s.resolve name more = some b → ∀ x ∈ b.scopes, x ∈ scopes := by
  have visible_more : ∀ b, s.resolve name scopes = some b → b ∈ s.bindings.toList ∧ b.isVisible name more = true := by
    intro b hb
    obtain ⟨hmem, hv⟩ := resolve_visible hb
    obtain ⟨hname, hscopes, _⟩ := Binding.isVisible_iff.1 hv
    exact ⟨hmem, Binding.isVisible_iff.2 ⟨hname, fun x hx => hsub x (hscopes x hx), shown b hb⟩⟩
  constructor
  · intro heq b hb
    rw [heq] at hb
    exact (Binding.isVisible_iff.1 (resolve_visible hb).2).2.1
  · intro h
    cases hmore : s.resolve name more with
    | none =>
      cases hless : s.resolve name scopes with
      | none => rfl
      | some b =>
        obtain ⟨hmem, hv⟩ := visible_more b hless
        exact absurd hv (resolve_eq_none.1 hmore b hmem)
    | some b =>
      obtain ⟨hmem, hv⟩ := resolve_visible hmore
      obtain ⟨hname, _, hhidden⟩ := Binding.isVisible_iff.1 hv
      have hv' : b.isVisible name scopes = true :=
        Binding.isVisible_iff.2 ⟨hname, h b hmore, fun x hx hxs => hhidden x hx (hsub x hxs)⟩
      cases hless : s.resolve name scopes with
      | none => exact absurd hv' (resolve_eq_none.1 hless b hmem)
      | some c =>
        obtain ⟨hcmem, hcv⟩ := visible_more c hless
        have hid := (resolve_below hs hless hmem hv').id_eq (resolve_below hs hmore hcmem hcv)
        rw [hs.eq_of_id hmem hcmem hid]

end Store

end Hygiene
