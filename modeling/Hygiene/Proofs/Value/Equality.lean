import Mathlib
import Hygiene.Proofs.Assoc
import Hygiene.Value.Operator

/-!
# Equality is coherent

No number is equal to NaN, so strict equality is not reflexive. Objects have each name once, so the order of their
fields does not matter.
-/

namespace Hygiene

open List

open Float.Model (UnpackedFloat)

variable {x y : Float}

/-! ### Numbers -/

/-- Equal doubles are both zero, or the same number. -/
theorem compare_eq_iff {a b : UnpackedFloat} : a.compare b = some .eq ↔
    (∃ s t, a = .zero s ∧ b = .zero t) ∨ a = b ∧ a ≠ .notANumber := by
  rcases a with s | _ | s | ⟨s, m, e, hm⟩ <;> rcases b with t | _ | t | ⟨t, n, k, hn⟩ <;>
    (try cases s) <;> (try cases t) <;>
    simp [UnpackedFloat.compare, Ordering.then_eq_eq, Ordering.swap_eq_eq, and_comm]
  all_goals rfl

theorem float_beq_iff : (x == y) = true ↔ x.toModel.unpack.compare y.toModel.unpack = some .eq := by
  change (x.toModel.unpack.compare y.toModel.unpack == some .eq) = true ↔ _
  rw [beq_iff_eq]

theorem float_beq_symm (h : (x == y) = true) : (y == x) = true := by
  rw [float_beq_iff, compare_eq_iff] at h ⊢
  grind

theorem float_beq_trans {z : Float} (h : (x == y) = true) (h' : (y == z) = true) : (x == z) = true := by
  rw [float_beq_iff, compare_eq_iff] at h h' ⊢
  grind

theorem float_beq_comm (x y : Float) : (x == y) = (y == x) := Bool.eq_iff_iff.2 ⟨float_beq_symm, float_beq_symm⟩

/-! ### Tokens -/

theorem Atom.same_symm {a b : Atom} (h : a.same b = true) : b.same a = true := by
  cases a <;> cases b <;> simp only [same, Bool.and_eq_true, beq_iff_eq, reduceCtorEq] at h ⊢
  all_goals grind [float_beq_symm]

theorem Atom.same_trans {a b c : Atom} (h : a.same b = true) (h' : b.same c = true) : a.same c = true := by
  cases a <;> cases b <;> cases c <;> simp only [same, Bool.and_eq_true, beq_iff_eq, reduceCtorEq] at h h' ⊢
  all_goals grind [float_beq_trans]

namespace Tree

mutual

theorem same_symm : (x y : Token) → same x y = true → same y x = true
  | .atom _ _, .atom _ _, h => by
    simp only [same, Bool.and_eq_true, beq_iff_eq] at h ⊢
    exact ⟨h.1.symm, Atom.same_symm h.2⟩
  | .nest _ _ xs, .nest _ _ ys, h => by
    simp only [same, Bool.and_eq_true, beq_iff_eq] at h ⊢
    exact ⟨⟨h.1.1.symm, h.1.2.symm⟩, sameAll_symm xs ys h.2⟩
  | .atom _ _, .nest _ _ _, h => by simp [same] at h
  | .nest _ _ _, .atom _ _, h => by simp [same] at h

theorem sameAll_symm : (xs ys : List Token) → sameAll xs ys = true → sameAll ys xs = true
  | [], [], _ => rfl
  | x :: xs, y :: ys, h => by
    rw [sameAll, Bool.and_eq_true] at h ⊢
    exact ⟨same_symm x y h.1, sameAll_symm xs ys h.2⟩
  | [], _ :: _, h => by simp [sameAll] at h
  | _ :: _, [], h => by simp [sameAll] at h

end

mutual

theorem same_trans : (x y z : Token) → same x y = true → same y z = true → same x z = true
  | .atom _ _, .atom _ _, .atom _ _, h, h' => by
    simp only [same, Bool.and_eq_true, beq_iff_eq] at h h' ⊢
    exact ⟨h.1.trans h'.1, Atom.same_trans h.2 h'.2⟩
  | .nest _ _ xs, .nest _ _ ys, .nest _ _ zs, h, h' => by
    simp only [same, Bool.and_eq_true, beq_iff_eq] at h h' ⊢
    exact ⟨⟨h.1.1.trans h'.1.1, h.1.2.trans h'.1.2⟩, sameAll_trans xs ys zs h.2 h'.2⟩
  | .atom _ _, .nest _ _ _, _, h, _ => by simp [same] at h
  | .nest _ _ _, .atom _ _, _, h, _ => by simp [same] at h
  | .atom _ _, .atom _ _, .nest _ _ _, _, h => by simp [same] at h
  | .nest _ _ _, .nest _ _ _, .atom _ _, _, h => by simp [same] at h

theorem sameAll_trans : (xs ys zs : List Token) → sameAll xs ys = true → sameAll ys zs = true → sameAll xs zs = true
  | [], [], [], _, _ => rfl
  | x :: xs, y :: ys, z :: zs, h, h' => by
    rw [sameAll, Bool.and_eq_true] at h h' ⊢
    exact ⟨same_trans x y z h.1 h'.1, sameAll_trans xs ys zs h.2 h'.2⟩
  | [], _ :: _, _, h, _ => by simp [sameAll] at h
  | _ :: _, [], _, h, _ => by simp [sameAll] at h
  | [], [], _ :: _, _, h => by simp [sameAll] at h
  | _ :: _, _ :: _, [], _, h => by simp [sameAll] at h

end

end Tree

/-- In a list that has each key once, an entry is found under its key. -/
theorem Assoc.get?_of_mem {κ α : Type} [BEq κ] [LawfulBEq κ] {key : κ} {a : α} {entries : List (κ × α)}
    (hnodup : (keys entries).Nodup) (h : (key, a) ∈ entries) : get? key entries = some a := by
  induction entries with
  | nil => cases h
  | cons entry rest ih =>
    obtain ⟨k, b⟩ := entry
    obtain ⟨hnew, hrest⟩ := nodup_cons.1 hnodup
    rw [get?]
    rcases mem_cons.1 h with heq | h
    · cases heq
      rw [if_pos (beq_self_eq_true _)]
    · have hne : key ≠ k := fun heq => hnew (mem_map.2 ⟨(key, a), h, heq⟩)
      rw [if_neg fun heq => hne (eq_of_beq heq).symm, ih hrest h]

namespace Value

variable {fs gs : List (String × Value)} {a b : Value}

mutual

/-- Every object in the value has each name once. -/
def isKeyed : Value → Bool
  | array items => isKeyedAll items
  | object fields => decide (Assoc.keys fields).Nodup && isKeyedFields fields
  | _ => true

/-- Every object in the values has each name once. -/
def isKeyedAll : List Value → Bool
  | [] => true
  | v :: vs => isKeyed v && isKeyedAll vs

/-- Every object in the fields has each name once. -/
def isKeyedFields : List (String × Value) → Bool
  | [] => true
  | (_, v) :: rest => isKeyed v && isKeyedFields rest

end

theorem isKeyed_of_mem {fields : List (String × Value)} (h : isKeyedFields fields = true) {key : String} {v : Value}
    (hmem : (key, v) ∈ fields) : v.isKeyed = true := by
  induction fields with
  | nil => cases hmem
  | cons field rest ih =>
    rw [isKeyedFields, Bool.and_eq_true] at h
    rcases mem_cons.1 hmem with rfl | hmem
    · exact h.1
    · exact ih h.2 hmem

/-- Fields are equal to those of an object if each of them is found there with an equal value. -/
theorem strictEqFields_iff : strictEqFields fs gs = true ↔
    ∀ key v, (key, v) ∈ fs → ∃ w, Assoc.get? key gs = some w ∧ v.strictEq w = true := by
  induction fs with
  | nil => simp [strictEqFields]
  | cons field rest ih =>
    obtain ⟨key, v⟩ := field
    rw [strictEqFields, Bool.and_eq_true, ih]
    cases hget : Assoc.get? key gs <;> simp [hget, or_imp, forall_and]

theorem strictEq_object : (object fs).strictEq (object gs) = true ↔
    fs.length = gs.length ∧ strictEqFields fs gs = true := by
  rw [strictEq, Bool.and_eq_true, beq_iff_eq]

/-- If all names of an object are found in another one with as many fields, then these are all that it has. -/
theorem exists_field (hfs : (Assoc.keys fs).Nodup) (hlength : fs.length = gs.length)
    (h : strictEqFields fs gs = true) {key : String} {w : Value} (hw : (key, w) ∈ gs) : ∃ v, (key, v) ∈ fs := by
  have hsubset : Assoc.keys fs ⊆ Assoc.keys gs := by
    intro key hkey
    obtain ⟨⟨_, v⟩, hv, rfl⟩ := mem_map.1 hkey
    obtain ⟨w, hw, -⟩ := strictEqFields_iff.1 h _ v hv
    exact mem_map.2 ⟨_, Assoc.mem_of_get? hw, rfl⟩
  have hperm : (Assoc.keys fs).Perm (Assoc.keys gs) :=
    (hfs.subperm hsubset).perm_of_length_le (by simp [Assoc.keys, hlength])
  obtain ⟨⟨_, v⟩, hv, rfl⟩ := mem_map.1 (hperm.mem_iff.2 (mem_map.2 ⟨_, hw, rfl⟩))
  exact ⟨v, hv⟩

mutual

theorem strictEq_symm (a b : Value) (ha : a.isKeyed = true) (hb : b.isKeyed = true) (h : a.strictEq b = true) :
    b.strictEq a = true := by
  cases a <;> cases b
  case array.array xs ys =>
    rw [strictEq] at h ⊢
    exact strictEqAll_symm xs ys ha hb h
  case object.object fs gs =>
    rw [isKeyed, Bool.and_eq_true, decide_eq_true_eq] at ha hb
    obtain ⟨hlength, hfields⟩ := strictEq_object.1 h
    refine strictEq_object.2 ⟨hlength.symm, strictEqFields_iff.2 fun key w hw => ?_⟩
    obtain ⟨v, hv⟩ := exists_field ha.1 hlength hfields hw
    obtain ⟨w', hw', heq⟩ := strictEqFields_iff.1 hfields key v hv
    obtain rfl : w' = w := Option.some.inj (hw'.symm.trans (Assoc.get?_of_mem hb.1 hw))
    exact ⟨v, Assoc.get?_of_mem ha.1 hv, strictEqFields_symm fs ha.2 hv w' (isKeyed_of_mem hb.2 hw) heq⟩
  all_goals simp only [strictEq, beq_iff_eq, Bool.false_eq_true] at h ⊢
  case number.number => exact float_beq_symm h
  case fragment.fragment => exact Tree.sameAll_symm _ _ h
  all_goals exact h.symm

theorem strictEqAll_symm : (xs ys : List Value) → isKeyedAll xs = true → isKeyedAll ys = true →
    strictEqAll xs ys = true → strictEqAll ys xs = true
  | [], [], _, _, _ => rfl
  | x :: xs, y :: ys, hx, hy, h => by
    rw [isKeyedAll, Bool.and_eq_true] at hx hy
    rw [strictEqAll, Bool.and_eq_true] at h ⊢
    exact ⟨strictEq_symm x y hx.1 hy.1 h.1, strictEqAll_symm xs ys hx.2 hy.2 h.2⟩
  | [], _ :: _, _, _, h => by simp [strictEqAll] at h
  | _ :: _, [], _, _, h => by simp [strictEqAll] at h

theorem strictEqFields_symm : (fs : List (String × Value)) → isKeyedFields fs = true → {key : String} → {v : Value} →
    (key, v) ∈ fs → (w : Value) → w.isKeyed = true → v.strictEq w = true → w.strictEq v = true
  | (_, v) :: fs, hf, _, v', hmem, w, hw, h => by
    rw [isKeyedFields, Bool.and_eq_true] at hf
    by_cases hv : v' = v
    · rw [hv] at h ⊢
      exact strictEq_symm v w hf.1 hw h
    · have hrest := (mem_cons.1 hmem).resolve_left fun heq => hv (Prod.ext_iff.1 heq).2
      exact strictEqFields_symm fs hf.2 hrest w hw h

end

theorem strictEq_comm (ha : a.isKeyed = true) (hb : b.isKeyed = true) : a.strictEq b = b.strictEq a :=
  Bool.eq_iff_iff.2 ⟨strictEq_symm a b ha hb, strictEq_symm b a hb ha⟩

mutual

theorem strictEq_trans (a b c : Value) (h : a.strictEq b = true) (h' : b.strictEq c = true) : a.strictEq c = true := by
  cases a <;> cases b <;> simp only [strictEq, beq_iff_eq, Bool.and_eq_true, Bool.false_eq_true] at h <;> cases c <;>
    simp only [strictEq, beq_iff_eq, Bool.and_eq_true, Bool.false_eq_true] at h' ⊢
  case array.array.array xs ys zs => exact strictEqAll_trans xs ys zs h h'
  case object.object.object fs gs ks => exact ⟨h.1.trans h'.1, strictEqFields_trans fs gs ks h.2 h'.2⟩
  case number.number.number => exact float_beq_trans h h'
  case fragment.fragment.fragment => exact Tree.sameAll_trans _ _ _ h h'
  all_goals exact h.trans h'

theorem strictEqAll_trans : (xs ys zs : List Value) → strictEqAll xs ys = true → strictEqAll ys zs = true →
    strictEqAll xs zs = true
  | [], [], [], _, _ => rfl
  | x :: xs, y :: ys, z :: zs, h, h' => by
    rw [strictEqAll, Bool.and_eq_true] at h h' ⊢
    exact ⟨strictEq_trans x y z h.1 h'.1, strictEqAll_trans xs ys zs h.2 h'.2⟩
  | [], _ :: _, _, h, _ => by simp [strictEqAll] at h
  | _ :: _, [], _, h, _ => by simp [strictEqAll] at h
  | [], [], _ :: _, _, h => by simp [strictEqAll] at h
  | _ :: _, _ :: _, [], _, h => by simp [strictEqAll] at h

theorem strictEqFields_trans : (fs gs ks : List (String × Value)) → strictEqFields fs gs = true →
    strictEqFields gs ks = true → strictEqFields fs ks = true
  | [], _, _, _, _ => rfl
  | (key, v) :: fs, gs, ks, h, h' => by
    rw [strictEqFields, Bool.and_eq_true] at h ⊢
    refine ⟨?_, strictEqFields_trans fs gs ks h.2 h'⟩
    obtain ⟨w, hw, hvw⟩ : ∃ w, Assoc.get? key gs = some w ∧ v.strictEq w = true := by
      cases hw : Assoc.get? key gs with
      | none => simp [hw] at h
      | some w =>
        rw [hw] at h
        exact ⟨w, rfl, h.1⟩
    obtain ⟨x, hx, hwx⟩ := strictEqFields_iff.1 h' key w (Assoc.mem_of_get? hw)
    rw [hx]
    exact strictEq_trans v w x hvw hwx

end

/-! ### Loose equality -/

theorem looseEq_of_strictEq (h : a.strictEq b = true) : a.looseEq b = true := by
  cases a <;> cases b <;> simp_all [looseEq, isNothing, plainRank, strictEq]

theorem looseEq_comm (ha : a.isKeyed = true) (hb : b.isKeyed = true) : a.looseEq b = b.looseEq a := by
  have hstrict := strictEq_comm ha hb
  have hnumber := float_beq_comm a.toNumber b.toNumber
  simp only [looseEq, Bool.or_comm b.isNothing, Bool.and_comm b.isNothing]
  cases a.plainRank <;> cases b.plainRank <;> simp only [hstrict, hnumber, eq_comm]

/-! ### The order of fields -/

/-- The order of an object's fields does not matter. -/
theorem strictEq_perm (h : fs.Perm gs) (b : Value) : (object fs).strictEq b = (object gs).strictEq b := by
  cases b
  case object ks =>
    refine Bool.eq_iff_iff.2 ?_
    simp only [strictEq_object, strictEqFields_iff, h.length_eq, h.mem_iff]
  all_goals rfl

/-- Strict equality is symmetric and transitive and implies loose equality, which is symmetric; the other two operators
are their negations; the order of fields does not matter. -/
theorem equality_coherent {a b c : Value} (ha : a.isKeyed = true) (hb : b.isKeyed = true) :
    binary .strictEq a b = binary .strictEq b a ∧ binary .looseEq a b = binary .looseEq b a ∧
      (binary .strictEq a b = .ok (bool true) → binary .looseEq a b = .ok (bool true)) ∧
      (∃ e, binary .strictEq a b = .ok (bool e) ∧ binary .strictNe a b = .ok (bool !e)) ∧
      (∃ e, binary .looseEq a b = .ok (bool e) ∧ binary .looseNe a b = .ok (bool !e)) ∧
      (binary .strictEq a b = .ok (bool true) → binary .strictEq b c = .ok (bool true) →
        binary .strictEq a c = .ok (bool true)) ∧
      ∀ fs gs, a = object fs → fs.Perm gs → binary .strictEq a b = binary .strictEq (object gs) b := by
  simp only [binary, binary?, Except.ok.injEq, bool.injEq, exists_eq_left', true_and]
  refine ⟨strictEq_comm ha hb, looseEq_comm ha hb, looseEq_of_strictEq, strictEq_trans a b c, ?_⟩
  rintro fs gs rfl hperm
  exact strictEq_perm hperm b

/-- Two objects with the same fields in another order. -/
theorem equality_coherent_reordered :
    binary .strictEq (object [("x", number 1), ("y", null)]) (object [("y", null), ("x", number 1)]) =
        .ok (bool true) ∧
      binary .strictEq (object [("y", null), ("x", number 1)]) (object [("x", number 1), ("y", null)]) =
        .ok (bool true) := by
  have heq : binary .strictEq (object [("x", number 1), ("y", null)]) (object [("y", null), ("x", number 1)]) =
      .ok (bool true) := congrArg (fun e => Except.ok (bool e)) (by decide +kernel)
  exact ⟨heq, (equality_coherent (c := null) (by decide) (by decide)).1.symm.trans heq⟩

end Value

end Hygiene
