import Hygiene.Proofs.Eval.Machine
import Hygiene.Proofs.Eval.Places

/-!
# Variables and their frames

An identifier is read from the innermost frame that holds its variable, and set there. What exists at compile time only
is in no frame and cannot be set.
-/

namespace Hygiene

namespace Heap

variable {h h' : Heap} {env : Environment} {id : FrameId} {name : String}

theorem contains_of_holder? (hid : h.holder? env name = some id) : Assoc.contains name (h.frame id) = true :=
  List.find?_some (p := fun id => Assoc.contains name (h.frame id)) hid

theorem lt_of_contains (hc : Assoc.contains name (h.frame id) = true) : id < h.frames.size := by
  rcases Nat.lt_or_ge id h.frames.size with hlt | hge
  · exact hlt
  · rw [frame, Array.getElem?_eq_none hge] at hc
    cases hc

/-- What is stored in the frame that holds the variable is read. -/
theorem get?_store_holder (hid : h.holder? env name = some id) (value : Value) :
    (h.store id name value).get? env name = some value := by
  have hlt := lt_of_contains (contains_of_holder? hid)
  have hholder : (h.store id name value).holder? env name = some id :=
    holder?_store value hlt (List.mem_of_find?_eq_some hid) fun other hother => Option.some.inj (hother.symm.trans hid)
  rw [get?_eq_bind, hholder, Option.bind_some, frame_store hlt, if_pos rfl, Assoc.get?_insert]
  simp

theorem isSome_get? (h : Heap) (env : Environment) (name : String) :
    (h.get? env name).isSome = (h.holder? env name).isSome := by
  rw [get?_eq_bind]
  cases hid : h.holder? env name with
  | none => rfl
  | some id =>
    have hc := contains_of_holder? hid
    rw [Assoc.contains] at hc
    exact hc

theorem isSome_holder? (h : Heap) (env : Environment) (name : String) :
    (h.holder? env name).isSome = h.contains env name := by
  rw [Bool.eq_iff_iff, holder?, contains, List.find?_isSome, List.any_eq_true]

/-- A variable that is held by a frame stays so. -/
theorem Grows.isSome_holder? (hg : h.Grows h') (hs : (h.holder? env name).isSome = true) :
    (h'.holder? env name).isSome = true := by
  obtain ⟨id, hid⟩ := Option.isSome_iff_exists.1 hs
  rw [holder?, List.find?_isSome]
  exact ⟨id, List.mem_of_find?_eq_some hid, hg.contains id name (contains_of_holder? hid)⟩

end Heap

/-- The identifier is a variable: it does not refer to anything that exists at compile time only. -/
def World.Assignable (w : World) (ident : Token) : Prop :=
  ∀ binding, w.store.resolveIdent ident = some binding → binding.kind.isRuntime = true

section Identifiers

variable {w : World} {ident : Token} {m m' : Machine} {value : Value} {site : Site} {id : FrameId}

/-- A variable is set in the frame that holds it. -/
theorem assignIdent_of_holder (ha : w.Assignable ident) (h : m.heap.holder? m.env (w.store.slot ident) = some id)
    (value : Value) (site : Site) : Evaluator.assignIdent w ident value site m =
      .ok () { m with heap := m.heap.store id (w.store.slot ident) value } := by
  unfold Evaluator.assignIdent Store.slot at *
  cases hresolve : w.store.resolveIdent ident with
  | none =>
    rw [hresolve] at h
    exact congrArg (EStateM.Result.ok ()) (by simp only [h])
  | some binding =>
    rw [hresolve] at h
    dsimp only
    rw [if_pos (ha binding hresolve)]
    exact congrArg (EStateM.Result.ok ()) (by simp only [h])

theorem assignable_of_assignIdent (h : Evaluator.assignIdent w ident value site m = .ok () m') : w.Assignable ident := by
  intro binding hbinding
  rw [Evaluator.assignIdent, hbinding] at h
  dsimp only at h
  split at h
  · assumption
  · cases h

/-- What is no variable is read without the machine. A variable is read from its frame; without one, it may be a value
that every program can name. -/
theorem lookup_cases (w : World) (ident : Token) :
    (¬ w.Assignable ident ∧ ∃ result, ∀ m, lookup w m ident = result) ∨
    w.Assignable ident ∧ ∃ global : Option Value, (∀ v ∈ global, ∃ name, globalValue? name = some v) ∧
      ∀ m : Machine, lookup w m ident = match (m.heap.get? m.env (w.store.slot ident)).or global with
        | some v => .ok v
        | none => .error (.undefinedVariable ident.name) := by
  unfold lookup World.Assignable Store.slot
  cases w.store.resolveIdent ident with
  | none => exact Or.inr ⟨by simp, globalValue? ident.name, fun v hv => ⟨_, hv⟩, fun _ => rfl⟩
  | some binding =>
    have hruntime (hkind : binding.kind.isRuntime = true) : ∀ other, some binding = some other →
        other.kind.isRuntime = true := fun other h => Option.some.inj h ▸ hkind
    dsimp only
    cases hkind : binding.kind with
    | transformer | compileTimeImport =>
      exact Or.inl ⟨fun h => by simpa [hkind, BindingKind.isRuntime] using h binding rfl, _, fun _ => rfl⟩
    | declared | runtimeImport =>
      refine Or.inr ⟨hruntime (by rw [hkind]; rfl), none, by simp, fun m => ?_⟩
      cases hget : m.heap.get? m.env binding.fresh <;> rfl

theorem lookup_of_get? (ha : w.Assignable ident) (h : m.heap.get? m.env (w.store.slot ident) = some value) :
    lookup w m ident = .ok value := by
  obtain ⟨hn, _⟩ | ⟨_, global, _, hlookup⟩ := lookup_cases w ident
  · exact absurd ha hn
  · simp [hlookup, h]

/-- No value that every program can name is an array, so an array is read from a frame. -/
theorem get?_of_lookup_array (ha : w.Assignable ident) {items : List Value} (h : lookup w m ident = .ok (.array items)) :
    m.heap.get? m.env (w.store.slot ident) = some (.array items) := by
  obtain ⟨hn, _⟩ | ⟨_, global, hglobal, hlookup⟩ := lookup_cases w ident
  · exact absurd ha hn
  rw [hlookup] at h
  split at h
  · next hv =>
    cases h
    rcases Option.or_eq_some_iff.1 hv with hv | ⟨_, hv⟩
    · exact hv
    · obtain ⟨name, hname⟩ := hglobal _ hv
      unfold globalValue? at hname
      split at hname <;> cases hname
  · cases h

end Identifiers

end Hygiene
