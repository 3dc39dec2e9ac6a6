import Hygiene.Eval.Step
import Hygiene.Proofs.Eval.Demand

/-!
# Places are a store

Reading and storing are written down on the values along the way, and shown to be what the evaluator does. The laws of a
store follow by induction on the place.
-/

namespace Hygiene

open List

/-- A literal. -/
inductive Literal where
  | number (n : Float)
  | str (s : String)
  | bool (b : Bool)
  | null

namespace Literal

def value : Literal → Value
  | number n => .number n
  | str s => .str s
  | bool b => .bool b
  | null => .null

def expression (site : Site) : Literal → Expression
  | number n => .number n site
  | str s => .str s site
  | bool b => .bool b site
  | null => .null site

end Literal

/-- How a member is named, and where: by a property, or by a literal key. -/
inductive Access where
  | property (name : String) (site : Site)
  | key (literal : Literal) (keySite site : Site)

/-- What an access names in a value. -/
inductive Slot where
  | field (name : String)
  | item (place : Nat)
  | length
deriving DecidableEq

namespace Access

/-- The member of an expression. -/
def expression (base : Expression) : Access → Expression
  | property name site => .member base name site
  | key literal keySite site => .index base (literal.expression keySite) site

def site : Access → Site
  | property _ site => site
  | key _ _ site => site

/-- The value of a member. -/
def get (a : Access) (base : Value) : Except Fault Value :=
  (match a with
    | property name _ => base.member name
    | key literal _ _ => base.index literal.value).mapError .wrongType

/-- The value with a member set. -/
def set (a : Access) (base value : Value) : Except Fault Value :=
  match a with
  | property name _ => base.setMember name value
  | key literal _ _ => base.setIndex literal.value value

/-- The name of a field. -/
def name : Access → String
  | property name _ => name
  | key literal _ _ => literal.value.text

/-- What the access names in a value: a field of an object, an item of an array, or its length. -/
def slot? (a : Access) : Value → Option Slot
  | .object _ => some (.field a.name)
  | .array _ => match a with
    | key (.number n) _ _ => if 0 ≤ n then some (.item (Number.toNat64 n)) else none
    | _ => if a.name = "length" then some .length else none
  | _ => none

/-- In the value, the accesses name different things, and the second is not the length of an array that gets longer if
the first is set. -/
def Apart (a b : Access) (base : Value) : Prop :=
  b.slot? base ≠ a.slot? base ∧
    ∀ items place, base = .array items → a.slot? base = some (.item place) → b.slot? base = some .length →
      place < items.length

end Access

namespace Assoc

variable {κ α : Type} [BEq κ] [LawfulBEq κ]

theorem insert_insert (key : κ) (first second : α) (entries : List (κ × α)) :
    insert key second (insert key first entries) = insert key second entries := by
  induction entries with
  | nil => simp [insert]
  | cons entry rest ih =>
    obtain ⟨k, a⟩ := entry
    by_cases h : k = key <;> simp [insert, h, ih]

end Assoc

/-! ### One member -/

namespace Value

theorem length_setItem (items : List Value) (place : Nat) (value : Value) :
    (setItem items place value).length = max items.length (place + 1) := by
  simp only [setItem, length_set, List.length_append, length_replicate]
  omega

theorem getElem?_setItem (items : List Value) (place i : Nat) (value : Value) :
    (setItem items place value)[i]? =
      if i = place then some value else if i < items.length then items[i]? else
        if i < place then some undefined else none := by
  simp only [setItem, List.getElem?_set, List.getElem?_append, List.getElem?_replicate, List.length_append,
    length_replicate]
  grind

theorem setItem_setItem (items : List Value) (place : Nat) (first second : Value) :
    setItem (setItem items place first) place second = setItem items place second := by
  refine ext_getElem? fun i => ?_
  simp only [getElem?_setItem, length_setItem]
  grind

end Value

namespace Access

variable {a b : Access} {base value base' : Value}

theorem get_object (a : Access) (fields : List (String × Value)) :
    a.get (.object fields) = .ok ((Assoc.get? a.name fields).getD .undefined) := by
  cases a <;> rfl

theorem set_object (a : Access) (fields : List (String × Value)) (value : Value) :
    a.set (.object fields) value = .ok (.object (Assoc.insert a.name value fields)) := by
  cases a <;> rfl

/-- What is read from an array depends on its slot. -/
theorem get_array (a : Access) (items : List Value) : a.get (.array items) = .ok (match a.slot? (.array items) with
    | some (.item place) => items[place]?.getD .undefined
    | some .length => .ofCount items.length
    | _ => .undefined) := by
  have hnamed : ∀ name : String, (Value.member (.array items) name).mapError Fault.wrongType =
      .ok (match if name = "length" then some Slot.length else none with
        | some (.item place) => items[place]?.getD .undefined
        | some .length => .ofCount items.length
        | _ => .undefined) := by
    intro name
    simp only [Value.member]
    split <;> rfl
  cases a with
  | property name site => exact hnamed name
  | key literal keySite site =>
    cases literal with
    | number n =>
      simp only [get, Literal.value, Value.index, Value.item?, slot?]
      split <;> rfl
    | str s => exact hnamed s
    | bool b => exact hnamed (Literal.bool b).value.text
    | null => exact hnamed Literal.null.value.text

/-- Only fields of objects and items of arrays can be set, and then with any value. -/
theorem set_eq_ok (h : a.set base value = .ok base') :
    (∃ fields, base = .object fields) ∨
    ∃ items place, base = .array items ∧ (∀ items', a.slot? (.array items') = some (.item place)) ∧
      ∀ items' value', a.set (.array items') value' = .ok (.array (Value.setItem items' place value')) := by
  cases base with
  | object fields => exact Or.inl ⟨fields, rfl⟩
  | array items =>
    match a with
    | property name site => cases h
    | key (.str _) _ _ => cases h
    | key (.bool _) _ _ => cases h
    | key .null _ _ => cases h
    | key (.number n) keySite site =>
      simp only [set, Literal.value, Value.setIndex] at h
      split at h
      · next hn =>
        split at h
        · cases h
        · next hmax =>
          refine Or.inr ⟨items, Number.toNat64 n, rfl, fun _ => if_pos hn.1, fun items' value' => ?_⟩
          simp only [set, Literal.value, Value.setIndex, if_pos hn, if_neg hmax]
      · cases h
  | _ =>
    cases a with
    | property name site => cases h
    | key literal keySite site => cases literal <;> cases h

theorem set_any (h : a.set base value = .ok base') (value' : Value) : ∃ base'', a.set base value' = .ok base'' := by
  obtain ⟨fields, rfl⟩ | ⟨items, place, rfl, hslot, hset⟩ := set_eq_ok h
  · exact ⟨_, set_object a fields value'⟩
  · exact ⟨_, hset items value'⟩

theorem get_set (h : a.set base value = .ok base') : a.get base' = .ok value := by
  obtain ⟨fields, rfl⟩ | ⟨items, place, rfl, hslot, hset⟩ := set_eq_ok h
  · rw [set_object] at h
    cases h
    simp [get_object, Assoc.get?_insert]
  · rw [hset] at h
    cases h
    simp [get_array, hslot, Value.getElem?_setItem]

theorem set_set (h : a.set base value = .ok base') (value' : Value) : a.set base' value' = a.set base value' := by
  obtain ⟨fields, rfl⟩ | ⟨items, place, rfl, hslot, hset⟩ := set_eq_ok h
  · rw [set_object] at h
    cases h
    rw [set_object, set_object, Assoc.insert_insert]
  · rw [hset] at h
    cases h
    rw [hset, hset, Value.setItem_setItem]

theorem get_set_apart (h : a.set base value = .ok base') (hb : a.Apart b base) : b.get base' = b.get base := by
  obtain ⟨hne, hlength⟩ := hb
  obtain ⟨fields, rfl⟩ | ⟨items, place, rfl, hslot, hset⟩ := set_eq_ok h
  · rw [set_object] at h
    cases h
    have hname : a.name ≠ b.name := fun h => hne (by simp only [slot?, h])
    simp [get_object, Assoc.get?_insert, hname]
  · rw [hset] at h
    cases h
    rw [hslot] at hne hlength
    have hslot' : b.slot? (.array (Value.setItem items place value)) = b.slot? (.array items) := by cases b <;> rfl
    rw [get_array, get_array, hslot']
    cases hb : b.slot? (.array items) with
    | none => rfl
    | some slot =>
      cases slot with
      | field name => rfl
      | length =>
        have := hlength items place rfl rfl hb
        simp [Value.length_setItem, show max items.length (place + 1) = items.length by omega]
      | item i =>
        have hi : i ≠ place := by rintro rfl; exact hne hb
        simp only [Value.getElem?_setItem, if_neg hi]
        grind

end Access

/-! ### Variables -/

namespace Heap

variable {h : Heap} {env : Environment} {id id' : FrameId} {name name' : String} {value : Value}

theorem frame_store (hid : id < h.frames.size) :
    (h.store id name value).frame id' = if id = id' then Assoc.insert name value (h.frame id') else h.frame id' := by
  simp only [frame, store, Array.getElem?_modify]
  split
  · next heq =>
    subst heq
    simp [hid]
  · rfl

theorem store_store (first : Value) : (h.store id name first).store id name value = h.store id name value := by
  have hcomp : Assoc.insert name value ∘ Assoc.insert name first = Assoc.insert name value :=
    funext fun entries => Assoc.insert_insert name first value entries
  simp only [store]
  congr 1
  refine Array.ext_getElem? fun i => ?_
  simp only [Array.getElem?_modify]
  split <;> simp [hcomp]

/-- A variable is read from the frame that holds it. -/
theorem get?_eq_bind : h.get? env name = (h.holder? env name).bind fun id => Assoc.get? name (h.frame id) := by
  unfold get? holder?
  induction env.frames with
  | nil => rfl
  | cons id frames ih =>
    rw [List.findSome?_cons, List.find?_cons, Assoc.contains]
    cases hget : Assoc.get? name (h.frame id) with
    | none => exact ih
    | some v => simp [hget]

/-- The frame that is written holds the variable then. -/
theorem holder?_store (value : Value) (hid : id < h.frames.size) (hmem : id ∈ env.frames)
    (hholder : ∀ other ∈ h.holder? env name, other = id) : (h.store id name value).holder? env name = some id := by
  have hcontains : ∀ other, Assoc.contains name ((h.store id name value).frame other) =
      (Assoc.contains name (h.frame other) || id == other) := by
    intro other
    rw [frame_store hid]
    by_cases heq : id = other <;> simp [heq, Assoc.contains, Assoc.get?_insert]
  unfold holder? at hholder ⊢
  simp only [hcontains]
  generalize env.frames = frames at hmem hholder
  induction frames with
  | nil => cases hmem
  | cons first frames ih =>
    simp only [List.find?_cons] at hholder ⊢
    cases hfirst : Assoc.contains name (h.frame first) with
    | true => simp [hholder first (by simp [hfirst])]
    | false =>
      by_cases heq : id = first
      · simp [heq]
      · have hne : (id == first) = false := by simpa using heq
        simp only [hfirst] at hholder
        simpa [hne] using ih ((mem_cons.1 hmem).resolve_left heq) hholder

end Heap

/-- The evaluation that stores a value in a variable does so in one frame, which can be seen; then the value is read, and
storing again replaces it. -/
def StoresIn (m : Machine) (id : FrameId) (name : String) (store : Value → Eval Unit) : Prop :=
  ∀ value, store value m = .ok () { m with heap := m.heap.store id name value } ∧
    (m.heap.store id name value).get? m.env name = some value ∧
    ∀ value', store value' { m with heap := m.heap.store id name value } =
      .ok () { m with heap := m.heap.store id name value' }

theorem Eval.storesIn_assignOr {m : Machine} (hm : m.Grounded) (name : String) {default : FrameId}
    (elsewhere : Heap → Environment → String → Value → Heap) (hdefault : default ∈ m.env.frames)
    (h : ∀ heap value, elsewhere heap m.env name value = heap.store default name value) :
    ∃ id ∈ m.env.frames, StoresIn m id name (assignOr elsewhere name) := by
  obtain ⟨id, hmem, hholder, hassign⟩ : ∃ id ∈ m.env.frames, (∀ other ∈ m.heap.holder? m.env name, other = id) ∧
      ∀ value, assignOr elsewhere name value m = .ok () { m with heap := m.heap.store id name value } := by
    cases hh : m.heap.holder? m.env name with
    | some id =>
      refine ⟨id, mem_of_find?_eq_some hh, by simp, fun value => congrArg (EStateM.Result.ok ()) ?_⟩
      simp only [hh]
    | none =>
      refine ⟨default, hdefault, nofun, fun value => congrArg (EStateM.Result.ok ()) ?_⟩
      simp only [hh, h]
  refine ⟨id, hmem, fun value => ?_⟩
  have hstored := Heap.holder?_store value (hm id hmem) hmem hholder
  refine ⟨hassign value, ?_, fun value' => congrArg (EStateM.Result.ok ()) ?_⟩
  · rw [Heap.get?_eq_bind, hstored, Option.bind_some, Heap.frame_store (hm id hmem), if_pos rfl, Assoc.get?_insert]
    simp
  · simp only [hstored, Heap.store_store]

/-- A variable can be set whatever the value is, or not at all. -/
theorem assignIdent_cases (w : World) (ident : Token) (site : Site) {m : Machine} (hm : m.Grounded) :
    (∃ signal, ∀ value, Evaluator.assignIdent w ident value site m = .error signal m) ∨
    ∃ id ∈ m.env.frames, StoresIn m id (w.store.slot ident) (Evaluator.assignIdent w ident · site) ∧
      ∀ value, lookup w { m with heap := m.heap.store id (w.store.slot ident) value } ident = .ok value := by
  have hbase : m.env.base ∈ m.env.frames := mem_append_right _ mem_cons_self
  have hinner : m.env.inner.head?.getD m.env.base ∈ m.env.frames := by
    cases hi : m.env.inner <;> simp [Environment.frames, hi]
  unfold Evaluator.assignIdent lookup Store.slot
  cases hresolve : w.store.resolveIdent ident with
  | none =>
    obtain ⟨id, hmem, hstores⟩ := Eval.storesIn_assignOr hm ident.name Heap.defineBase hbase fun _ _ => rfl
    exact Or.inr ⟨id, hmem, hstores, fun value => by simp [(hstores value).2.1]⟩
  | some binding =>
    by_cases hkind : binding.kind.isRuntime = true
    · obtain ⟨id, hmem, hstores⟩ := Eval.storesIn_assignOr hm binding.fresh Heap.define hinner fun _ _ => rfl
      refine Or.inr ⟨id, hmem, by simpa only [if_pos hkind] using hstores, fun value => ?_⟩
      cases hb : binding.kind with
      | declared => simp [hb, (hstores value).2.1]
      | runtimeImport => simp [hb, (hstores value).2.1]
      | _ => simp [hb, BindingKind.isRuntime] at hkind
    · simp only [if_neg hkind]
      exact Or.inl ⟨_, fun _ => rfl⟩

/-! ### Places -/

/-- The place that is reached from an expression along accesses, the last one first. -/
def Expression.place (root : Expression) : List Access → Expression
  | [] => root
  | a :: path => a.expression (place root path)

/-- The value of a place of a variable. -/
def Machine.look (w : World) (m : Machine) (ident : Token) : List Access → Except Signal Value
  | [] => (lookup w m ident).mapError (.fault · ident.site)
  | a :: path => do (a.get (← look w m ident path)).mapError (.fault · a.site)

/-- The values to store in the variable of a place so that the place has a value. -/
def Machine.rebuild (w : World) (m : Machine) (ident : Token) : List Access → Value → Except Signal Value
  | [], value => .ok value
  | a :: path, value => do
    rebuild w m ident path (← (a.set (← look w m ident path) value).mapError (.fault · a.site))

namespace Machine

variable {w : World} {m m' : Machine} {ident : Token} {path : List Access} {a : Access} {value total : Value}
  {base : Value}

theorem look_cons (h : m.look w ident path = .ok base) :
    m.look w ident (a :: path) = (a.get base).mapError (.fault · a.site) := by
  rw [look, h]
  rfl

theorem rebuild_cons (h : m.look w ident path = .ok base) : m.rebuild w ident (a :: path) value =
      (a.set base value).mapError (.fault · a.site) >>= m.rebuild w ident path := by
  rw [rebuild, h]
  rfl

theorem rebuild_cons_eq_ok (h : m.rebuild w ident (a :: path) value = .ok total) :
    ∃ base base', m.look w ident path = .ok base ∧ a.set base value = .ok base' ∧ m.rebuild w ident path base' = .ok total := by
  cases hlook : m.look w ident path with
  | error signal =>
    rw [rebuild, hlook] at h
    cases h
  | ok base =>
    rw [rebuild_cons hlook] at h
    cases hset : a.set base value with
    | error fault =>
      rw [hset] at h
      cases h
    | ok base' =>
      rw [hset] at h
      exact ⟨base, base', rfl, hset, h⟩

/-- What was stored is read. -/
theorem look_of_rebuild (hm' : lookup w m' ident = .ok total) (h : m.rebuild w ident path value = .ok total) :
    m'.look w ident path = .ok value := by
  induction path generalizing value with
  | nil =>
    cases h
    rw [look, hm']
    rfl
  | cons a path ih =>
    obtain ⟨base, base', hlook, hset, hrest⟩ := rebuild_cons_eq_ok h
    rw [look_cons (ih hrest), Access.get_set hset]
    rfl

/-- Storing again replaces what was stored. -/
theorem rebuild_of_rebuild (hm' : lookup w m' ident = .ok total) (h : m.rebuild w ident path value = .ok total)
    (value' : Value) : m'.rebuild w ident path value' = m.rebuild w ident path value' := by
  induction path generalizing value value' with
  | nil => rfl
  | cons a path ih =>
    obtain ⟨base, base', hlook, hset, hrest⟩ := rebuild_cons_eq_ok h
    rw [rebuild_cons (look_of_rebuild hm' hrest), rebuild_cons hlook, Access.set_set hset]
    cases a.set base value' with
    | error fault => rfl
    | ok base'' => exact ih hrest base''

/-- What can be stored does not depend on the value. -/
theorem rebuild_any (h : m.rebuild w ident path value = .ok total) (value' : Value) :
    ∃ total', m.rebuild w ident path value' = .ok total' := by
  induction path generalizing value value' with
  | nil => exact ⟨value', rfl⟩
  | cons a path ih =>
    obtain ⟨base, base', hlook, hset, hrest⟩ := rebuild_cons_eq_ok h
    obtain ⟨base'', hset'⟩ := Access.set_any hset value'
    rw [rebuild_cons hlook, hset']
    exact ih hrest base''

/-- On the way to a place each object is set. -/
theorem rebuild_append {below : List Access} (h : m.rebuild w ident (below ++ a :: path) value = .ok total) :
    ∃ value, m.rebuild w ident (a :: path) value = .ok total := by
  induction below generalizing value with
  | nil => exact ⟨value, h⟩
  | cons b below ih =>
    obtain ⟨base, base', hlook, hset, hrest⟩ := rebuild_cons_eq_ok h
    exact ih hrest

/-- What stands apart is read as before. -/
theorem look_apart {below : List Access} (above : List Access) {b : Access} (hm' : lookup w m' ident = .ok total)
    (h : m.rebuild w ident (below ++ a :: path) value = .ok total) (hbase : m.look w ident path = .ok base)
    (hb : a.Apart b base) : m'.look w ident (above ++ b :: path) = m.look w ident (above ++ b :: path) := by
  induction above with
  | nil =>
    obtain ⟨value, h⟩ := rebuild_append h
    obtain ⟨_, base', hlook, hset, hrest⟩ := rebuild_cons_eq_ok h
    cases hbase.symm.trans hlook
    rw [nil_append, look_cons (look_of_rebuild hm' hrest), look_cons hbase, Access.get_set_apart hset hb]
  | cons c above ih => simp only [cons_append, look, ih]

end Machine

/-! ### Places in the evaluator -/

/-- How an evaluation that changes nothing ends. -/
def Eval.unchanged (m : Machine) : Except Signal Value → EStateM.Result Signal Machine Value
  | .ok value => .ok value m
  | .error signal => .error signal m

section

variable {w : World} {limit : Nat} {m : Machine} {base : Expression} {value : Value} {path : List Access}

theorem expression_literal (w : World) (limit : Nat) (literal : Literal) (site : Site) (m : Machine) :
    (evaluator w (limit + 1)).expression (literal.expression site) m = .ok literal.value m := by
  cases literal <;> rfl

theorem expression_access (a : Access) (h : (evaluator w (limit + 1)).expression base m = .ok value m) :
    (evaluator w (limit + 2)).expression (a.expression base) m =
      Eval.unchanged m ((a.get value).mapError (.fault · a.site)) := by
  cases a with
  | property name site =>
    show EStateM.bind _ _ m = _
    simp only [EStateM.bind, h]
    show Eval.lift ((value.member name).mapError .wrongType) site m = _
    simp only [Access.get, Access.site]
    cases (value.member name).mapError Fault.wrongType <;> rfl
  | key literal keySite site =>
    show EStateM.bind _ _ m = _
    simp only [EStateM.bind, h]
    show EStateM.bind _ _ m = _
    simp only [EStateM.bind, expression_literal]
    show Eval.lift ((value.index literal.value).mapError .wrongType) site m = _
    simp only [Access.get, Access.site]
    cases (value.index literal.value).mapError Fault.wrongType <;> rfl

theorem expression_access_error (a : Access) {signal : Signal}
    (h : (evaluator w limit).expression base m = .error signal m) :
    (evaluator w (limit + 1)).expression (a.expression base) m = .error signal m := by
  cases a <;> (show EStateM.bind _ _ m = _; simp only [EStateM.bind, h])

/-- Reading a place changes nothing. -/
theorem expression_place (w : World) (m : Machine) (ident : Token) (site : Site) {limit : Nat}
    (h : path.length < limit) :
    (evaluator w limit).expression (.place (.ident ident site) path) m = Eval.unchanged m (m.look w ident path) := by
  induction path generalizing limit with
  | nil =>
    obtain ⟨limit, rfl⟩ := Nat.exists_eq_succ_of_ne_zero (Nat.ne_of_gt h)
    show Eval.lift (lookup w m ident) ident.site m = _
    rw [Machine.look]
    cases lookup w m ident <;> rfl
  | cons a path ih =>
    obtain ⟨limit, rfl⟩ : ∃ n, limit = n + 2 := ⟨limit - 2, by simp at h; omega⟩
    have hrest := @ih (limit + 1) (by simpa using h)
    rw [Machine.look]
    cases hlook : m.look w ident path with
    | error signal => exact expression_access_error a (by rw [hrest, hlook]; rfl)
    | ok value => exact expression_access a (by rw [hrest, hlook]; rfl)

theorem expression_place_exhausted (w : World) (m : Machine) (ident : Token) (site : Site)
    {limit : Nat} (h : limit ≤ path.length) :
    (evaluator w limit).expression (.place (.ident ident site) path) m = .error .exhausted m := by
  induction path generalizing limit with
  | nil =>
    cases Nat.le_zero.1 h
    rfl
  | cons a path ih =>
    cases limit with
    | zero => rfl
    | succ limit => exact expression_access_error a (ih (Nat.le_of_succ_le_succ h))

theorem isPlace_place (ident : Token) (site : Site) (path : List Access) :
    (Expression.place (.ident ident site) path).isPlace = true := by
  match path with
  | [] => rfl
  | .property _ _ :: _ => rfl
  | .key _ _ _ :: _ => rfl

/-- The object of a member is stored back. -/
theorem assign_access (a : Access) {value' : Value} (hplace : base.isPlace = true)
    (h : (evaluator w (limit + 1)).expression base m = .ok value m) :
    (evaluator w (limit + 1)).assign w (a.expression base) value' m =
      match a.set value value' with
      | .ok changed => (evaluator w (limit + 1)).assign w base changed m
      | .error fault => .error (.fault fault a.site) m := by
  cases a with
  | property name site =>
    show EStateM.bind _ _ m = _
    simp only [EStateM.bind, h, Access.set]
    cases value.setMember name value' with
    | error fault => rfl
    | ok changed =>
      show (if base.isPlace = true then (evaluator w (limit + 1)).assign w base changed else pure ()) m = _
      rw [if_pos hplace]
  | key literal keySite site =>
    show EStateM.bind _ _ m = _
    simp only [EStateM.bind, h]
    show EStateM.bind _ _ m = _
    simp only [EStateM.bind, expression_literal, Access.set]
    cases value.setIndex literal.value value' with
    | error fault => rfl
    | ok changed =>
      show (if base.isPlace = true then (evaluator w (limit + 1)).assign w base changed else pure ()) m = _
      rw [if_pos hplace]

theorem assign_access_error (a : Access) {signal : Signal}
    (h : (evaluator w limit).expression base m = .error signal m) :
    (evaluator w limit).assign w (a.expression base) value m = .error signal m := by
  cases a <;> (show EStateM.bind _ _ m = _; simp only [EStateM.bind, h])

/-- Storing in a place stores in its variable. -/
theorem assign_place (w : World) (m : Machine) (ident : Token) (site : Site) (value : Value)
    {limit : Nat} (h : path.length ≤ limit) : (evaluator w limit).assign w (.place (.ident ident site) path) value m =
      match m.rebuild w ident path value with
      | .ok total => Evaluator.assignIdent w ident total site m
      | .error signal => .error signal m := by
  induction path generalizing value with
  | nil => rfl
  | cons a path ih =>
    obtain ⟨limit, rfl⟩ := Nat.exists_eq_succ_of_ne_zero (Nat.ne_of_gt (Nat.lt_of_lt_of_le (Nat.zero_lt_succ _) h))
    have hread := expression_place w m ident site (Nat.lt_of_succ_le h)
    cases hlook : m.look w ident path with
    | error signal =>
      rw [Machine.rebuild, hlook]
      exact assign_access_error a (by rw [hread, hlook]; rfl)
    | ok base =>
      refine (assign_access a (isPlace_place ident site path) (by rw [hread, hlook]; rfl)).trans ?_
      rw [Machine.rebuild_cons hlook]
      cases a.set base value with
      | error fault => rfl
      | ok changed => exact ih changed (Nat.le_of_succ_le h)

theorem assign_place_exhausted (w : World) (m : Machine) (ident : Token) (site : Site) (value : Value)
    {limit : Nat} (h : limit < path.length) :
    (evaluator w limit).assign w (.place (.ident ident site) path) value m = .error .exhausted m := by
  cases path with
  | nil => cases h
  | cons a path => exact assign_access_error a (expression_place_exhausted w m ident site (Nat.le_of_lt_succ h))

end

/-- After storing a value in a place the value is read from it; storing another value has the outcome it had before;
reading a place that stands apart has the outcome there was; and one variable at most has changed. -/
structure Stored (w : World) (limit : Nat) (m : Machine) (ident : Token) (site : Site) (path : List Access) (value : Value)
    (m' : Machine) : Prop where
  reads : (evaluator w (limit + 1)).expression (.place (.ident ident site) path) m' = .ok value m'
  replaced : ∀ value', (evaluator w limit).assign w (.place (.ident ident site) path) value' m' =
    (evaluator w limit).assign w (.place (.ident ident site) path) value' m
  apart : ∀ below a rest, path = below ++ a :: rest → ∀ base,
    (evaluator w limit).expression (.place (.ident ident site) rest) m = .ok base m → ∀ b, a.Apart b base →
    ∀ above site' depth, ∃ outcome : Except Signal Value, ∀ machine ∈ [m, m'],
      (evaluator w depth).expression (.place (.ident ident site') (above ++ b :: rest)) machine = Eval.unchanged machine outcome
  alone : ∃ id ∈ m.env.frames, (∃ total, m' = { m with heap := m.heap.store id (w.store.slot ident) total }) ∧
    ∀ id' name, id' ≠ id ∨ name ≠ w.store.slot ident →
      Assoc.get? name (m'.heap.frame id') = Assoc.get? name (m.heap.frame id')

/-- Places are a store. If nothing can be stored, nothing has changed. -/
theorem place_stored (w : World) (limit : Nat) {m : Machine} (hm : m.Grounded) (ident : Token) (site : Site)
    (path : List Access) (value : Value) :
    (∃ m', (evaluator w limit).assign w (.place (.ident ident site) path) value m = .ok () m' ∧
      Stored w limit m ident site path value m') ∨
    ∃ signal, (evaluator w limit).assign w (.place (.ident ident site) path) value m = .error signal m := by
  by_cases hlength : limit < path.length
  · exact Or.inr ⟨_, assign_place_exhausted w m ident site value hlength⟩
  have hlength := Nat.le_of_not_lt hlength
  cases hrebuild : m.rebuild w ident path value with
  | error signal => exact Or.inr ⟨signal, by rw [assign_place w m ident site value hlength, hrebuild]⟩
  | ok total =>
    rcases assignIdent_cases w ident site hm with ⟨signal, hfail⟩ | ⟨id, hmem, hstores, hlookup⟩
    · exact Or.inr ⟨signal, by rw [assign_place w m ident site value hlength, hrebuild]; exact hfail total⟩
    refine Or.inl ⟨{ m with heap := m.heap.store id (w.store.slot ident) total }, ?_, ?_, ?_, ?_, id, hmem, ⟨total, rfl⟩, ?_⟩
    · rw [assign_place w m ident site value hlength, hrebuild]
      exact (hstores total).1
    · rw [expression_place _ _ _ _ (Nat.lt_succ_of_le hlength), Machine.look_of_rebuild (hlookup total) hrebuild]
      rfl
    · intro value'
      obtain ⟨total', htotal'⟩ := Machine.rebuild_any hrebuild value'
      rw [assign_place _ _ _ _ _ hlength, assign_place _ _ _ _ _ hlength,
        Machine.rebuild_of_rebuild (hlookup total) hrebuild, htotal']
      exact ((hstores total).2.2 total').trans (hstores total').1.symm
    · rintro below a rest rfl base hbase b hb above site' depth
      have hlook : m.look w ident rest = .ok base := by
        rw [expression_place _ _ _ _ (by simp at hlength; omega)] at hbase
        cases hlook : m.look w ident rest <;> rw [hlook] at hbase <;> cases hbase
        rfl
      have hsame := Machine.look_apart above (hlookup total) hrebuild hlook hb
      by_cases hdepth : (above ++ b :: rest).length < depth
      · refine ⟨m.look w ident (above ++ b :: rest), fun machine hmachine => ?_⟩
        rw [expression_place _ _ _ _ hdepth]
        rcases mem_cons.1 hmachine with rfl | hmachine
        · rfl
        · rw [mem_singleton.1 hmachine, hsame]
      · exact ⟨.error .exhausted, fun machine _ => expression_place_exhausted _ _ _ _ (Nat.le_of_not_lt hdepth)⟩
    · intro id' name hne
      rw [Heap.frame_store (hm id hmem)]
      split
      · next heq =>
        subst heq
        have hname : name ≠ w.store.slot ident := hne.resolve_left fun h => h rfl
        simp [Assoc.get?_insert, Ne.symm hname]
      · rfl

/-- A machine in which `x` is `['a']` and `o` is `{ k: {} }`. -/
def arrayMachine : Machine where
  heap := { frames := #[[("x", .array [.str "a"]), ("o", .object [("k", .object [])])]] }
  env := ⟨0, []⟩

/-- A value is stored in `o['k'].p`. -/
theorem place_stored_field : arrayMachine.Grounded ∧ ∃ m', Stored ⟨{}, {}, {}, 9⟩ 9 arrayMachine
    (.fresh (.ident "o") .unknown) .unknown [.property "p" .unknown, .key (.str "k") .unknown .unknown] (.str "b") m' := by
  refine ⟨by decide, ?_⟩
  obtain ⟨m', _, h⟩ | ⟨signal, h⟩ := place_stored ⟨{}, {}, {}, 9⟩ 9 (m := arrayMachine) (by decide)
    (.fresh (.ident "o") .unknown) .unknown [.property "p" .unknown, .key (.str "k") .unknown .unknown] (.str "b")
  · exact ⟨m', h⟩
  · cases h

/-- A member of `x`. -/
def arrayMember (a : Access) : Expression := .place (.ident (.fresh (.ident "x") .unknown) .unknown) [a]

/-- When `x[2]` is set, the value of `x.length` changes. -/
theorem length_after_growth : ∃ m',
    (evaluator ⟨{}, {}, {}, 9⟩ 9).assign ⟨{}, {}, {}, 9⟩ (arrayMember (.key (.number 2) .unknown .unknown)) (.str "b")
      arrayMachine = .ok () m' ∧
    (evaluator ⟨{}, {}, {}, 9⟩ 9).expression (arrayMember (.property "length" .unknown)) arrayMachine =
      .ok (.ofCount 1) arrayMachine ∧
    (evaluator ⟨{}, {}, {}, 9⟩ 9).expression (arrayMember (.property "length" .unknown)) m' = .ok (.ofCount 3) m' ∧
    Value.ofCount 1 ≠ .ofCount 3 := by
  refine ⟨_, rfl, rfl, rfl, fun h => ?_⟩
  injection h with h
  exact absurd h (by decide)

end Hygiene
