import Hygiene.Proofs.Assoc
import Hygiene.Proofs.Term.Content
import Hygiene.Proofs.Term.Functions
import Hygiene.Proofs.Term.Sites

/-!
# What is asked of the code that runs

Code moves pieces and functions around: it reads pieces from templates, variables and cursors, and makes closures of the
functions in it. The only pieces that it makes are literals, without scopes and at sites of the code. So what all
pieces, functions and sites in the code and the heap meet, and literals at such sites, everything meets that the code
gives and leaves. Values may also be asked to be tidy, as code makes them.
-/

namespace Hygiene

open List

variable {d' : Demand} {fn : Lambda} {m : Machine} {G : Piece → Prop} {signal : Signal}

/-- A plain value may be written as the atom. A number is written without its sign. -/
def Atom.IsLiteral : Atom → Prop
  | ident name => name = "true" ∨ name = "false" ∨ name = "null"
  | punct text => text = "-"
  | number value raw => ∃ n : Float, n.isFinite = true ∧ value = n.abs ∧ raw = Number.numberText n.abs
  | str _ => True

/-- A piece that stands for a plain value. It was not written in any text, so it has no scopes. -/
def Piece.IsLiteral (p : Piece) : Prop := p.scopes = .empty ∧ ∃ a : Atom, p.label = .atom a ∧ a.IsLiteral

/-- Literals satisfy `G`. -/
def Piece.Literals (G : Piece → Prop) : Prop := ∀ p : Piece, p.IsLiteral → G p

namespace Value

/-- Whether the value holds no others and no frames. -/
def isPlain : Value → Bool
  | array _ => false
  | object _ => false
  | closure _ => false
  | _ => true

/-- A value as code makes it where there are `n` frames: objects have each name once, and closures have frames that there
are. -/
inductive Tidy (n : Nat) : Value → Prop
  | array {items : List Value} : (∀ v ∈ items, v.Tidy n) → (array items).Tidy n
  | object {fields : List (String × Value)} : (Assoc.keys fields).Nodup → (∀ field ∈ fields, field.2.Tidy n) →
      (object fields).Tidy n
  | closure {c : Closure} : (∀ id ∈ c.env.frames, id < n) → (closure c).Tidy n
  | plain {v : Value} : v.isPlain = true → v.Tidy n

variable {n n' : Nat} {v : Value}

theorem Tidy.mono (h : v.Tidy n) (hn : n ≤ n') : v.Tidy n' := by
  induction h with
  | array _ ih => exact .array ih
  | object hnodup _ ih => exact .object hnodup ih
  | closure hc => exact .closure fun id hid => Nat.lt_of_lt_of_le (hc id hid) hn
  | plain hplain => exact .plain hplain

theorem tidy_array {items : List Value} : (Value.array items).Tidy n ↔ ∀ v ∈ items, v.Tidy n := by
  refine ⟨fun h => ?_, .array⟩
  cases h with
  | array h => exact h
  | plain h => cases h

theorem tidy_object {fields : List (String × Value)} :
    (Value.object fields).Tidy n ↔ (Assoc.keys fields).Nodup ∧ ∀ field ∈ fields, field.2.Tidy n := by
  refine ⟨fun h => ?_, fun h => .object h.1 h.2⟩
  cases h with
  | object hnodup h => exact ⟨hnodup, h⟩
  | plain h => cases h

theorem tidy_closure {c : Closure} : (Value.closure c).Tidy n ↔ ∀ id ∈ c.env.frames, id < n := by
  refine ⟨fun h => ?_, .closure⟩
  cases h with
  | closure h => exact h
  | plain h => cases h

end Value

/-- What is asked of the pieces, functions and sites in terms and values; of a function it is asked of the sites in it.
With a number of frames, values have to be tidy for it. -/
structure Demand where
  piece : Piece → Prop
  function : Lambda → Prop
  site : Site → Prop
  function_sites : ∀ fn, function fn → ∀ s ∈ fn.sites, site s
  frames : Option Nat

namespace Demand

variable {ts : List Token}

/-- Something is asked of the pieces only. -/
def ofPieces (G : Piece → Prop) : Demand := ⟨G, fun _ => True, fun _ => True, fun _ _ _ _ => trivial, none⟩

/-- All functions have to be completed. -/
def completed : Demand :=
  ⟨fun _ => True, fun fn => fn.body.deferred? = none, fun _ => True, fun _ _ _ _ => trivial, none⟩

/-- The same is asked where there are `n` frames. -/
abbrev among (d : Demand) (n : Nat) : Demand := { d with frames := d.frames.map fun _ => n }

/-- Literals at sites that meet the demand meet it. -/
def Literals (d : Demand) : Prop := Piece.Literals fun p => d.site p.mark.site → d.piece p

/-- A term with the given content, functions and sites meets the demand. -/
def Meets (d : Demand) (content : List Content) (functions : List Lambda) (sites : List Site) : Prop :=
  Content.Good d.piece content ∧ (∀ fn ∈ functions, d.function fn) ∧ ∀ s ∈ sites, d.site s

variable {d : Demand} {c c' : List Content} {l l' : List Lambda} {k k' : List Site}

@[simp] theorem meets_nil : d.Meets [] [] [] := ⟨Content.good_nil, by simp, by simp⟩

@[simp] theorem meets_append : d.Meets (c ++ c') (l ++ l') (k ++ k') ↔ d.Meets c l k ∧ d.Meets c' l' k' := by
  simp only [Meets, Content.good_append, forall_mem_append]
  grind

@[simp] theorem meets_cons_use {t : Token} : d.Meets (.use t :: c) l k ↔ d.Meets c l k := by simp [Meets]

@[simp] theorem meets_cons_piece {p : Piece} : d.Meets (.piece p :: c) l k ↔ d.piece p ∧ d.Meets c l k := by
  simp [Meets, and_assoc]

@[simp] theorem meets_cons_site {s : Site} : d.Meets c l (s :: k) ↔ d.site s ∧ d.Meets c l k := by
  simp only [Meets, forall_mem_cons]
  grind

@[simp] theorem meets_cons_function : d.Meets c (fn :: l) k ↔ d.function fn ∧ d.Meets c l k := by
  simp only [Meets, forall_mem_cons]
  grind

@[simp] theorem meets_ofTokens_append :
    d.Meets (Content.ofTokens ts ++ c) l k ↔ (∀ p ∈ Token.piecesAll ts, d.piece p) ∧ d.Meets c l k := by
  simp only [Meets, Content.good_append, Content.good_ofTokens, and_assoc]

@[simp] theorem meets_append_ofTokens :
    d.Meets (c ++ Content.ofTokens ts) l k ↔ d.Meets c l k ∧ ∀ p ∈ Token.piecesAll ts, d.piece p := by
  simp only [Meets, Content.good_append, Content.good_ofTokens]
  grind

@[simp] theorem meets_filter_isPiece : d.Meets (c.filter Content.isPiece) l k ↔ d.Meets c l k := by
  simp only [Meets, Content.good_filter_isPiece]

theorem meets_ofTokens : d.Meets (Content.ofTokens ts) [] [] ↔ ∀ p ∈ Token.piecesAll ts, d.piece p := by
  simp [Meets]

theorem meets_ofPieces : (ofPieces G).Meets c l k ↔ Content.Good G c := by simp [Meets, ofPieces]

theorem meets_completed : completed.Meets c l k ↔ Completed l := by simp [Meets, completed, Completed, Content.Good]

theorem meets_expressions {es : List Expression} :
    d.Meets (Expression.contentAll es) (Expression.lambdasAll es) (Expression.sitesAll es) ↔
      ∀ e ∈ es, d.Meets e.content e.lambdas e.sites := by
  induction es with
  | nil => simp [Expression.contentAll, Expression.lambdasAll, Expression.sitesAll]
  | cons e es ih => simp [Expression.contentAll, Expression.lambdasAll, Expression.sitesAll, ih]

theorem meets_statements {list : List Statement} :
    d.Meets (Statement.contentAll list) (Statement.lambdasAll list) (Statement.sitesAll list) ↔
      ∀ s ∈ list, d.Meets s.content s.lambdas s.sites := by
  induction list with
  | nil => simp [Statement.contentAll, Statement.lambdasAll, Statement.sitesAll]
  | cons s list ih => simp [Statement.contentAll, Statement.lambdasAll, Statement.sitesAll, ih]

/-- The initializers of declarations meet what the declarations meet. -/
theorem Meets.init {list : List Declarator}
    (h : d.Meets (Declarator.contentAll list) (Declarator.lambdasAll list) (Declarator.sitesAll list)) :
    ∀ dr ∈ list, d.Meets (Expression.contentOption dr.init) (Expression.lambdasOption dr.init)
      (Expression.sitesOption dr.init) := by
  induction list with
  | nil => simp
  | cons dr list ih =>
    obtain ⟨binding, init, site⟩ := dr
    rw [Declarator.contentAll, Declarator.lambdasAll, Declarator.sitesAll, meets_cons_site, meets_append] at h
    exact forall_mem_cons.2 ⟨⟨(Content.good_append.1 h.2.1.1).2, h.2.1.2⟩, ih h.2.2⟩

/-- A function meets the demand on functions, and its body meets the demand on terms. -/
theorem Meets.body (h : d.Meets fn.content fn.lambdas k) :
    d.function fn ∧ d.Meets fn.body.content fn.body.lambdas fn.body.sites := by
  obtain ⟨id, name, params, rest, body, arrow, site⟩ := fn
  rw [Lambda.content, Lambda.lambdas] at h
  obtain ⟨hfn, hbody⟩ := forall_mem_cons.1 h.2.1
  exact ⟨hfn, (Content.good_append.1 h.1).2, hbody, (forall_mem_cons.1 (d.function_sites _ hfn)).2⟩

end Demand

/-- The pieces and the functions in the value meet the demand, and it is tidy if that is asked. -/
def Value.Meets (d : Demand) (v : Value) : Prop :=
  v.Good d.piece ∧ (∀ fn ∈ v.lambdas, d.function fn) ∧ ∀ n ∈ d.frames, v.Tidy n

/-- The value meets the demand where there are `n` frames. -/
abbrev Demand.Gives (d : Demand) (n : Nat) (v : Value) : Prop := v.Meets (d.among n)

/-- The values meet the demand where there are `n` frames. -/
abbrev Demand.GivesAll (d : Demand) (n : Nat) (vs : List Value) : Prop := ∀ v ∈ vs, v.Meets (d.among n)

/-- The fields of an object meet the demand. -/
def Value.FieldsMeet (d : Demand) (fields : List (String × Value)) : Prop :=
  (d.frames.isSome = true → (Assoc.keys fields).Nodup) ∧ ∀ field ∈ fields, field.2.Meets d

/-- The values of the variables and the tokens of the cursors meet the demand. -/
structure Heap.Meets (d : Demand) (h : Heap) : Prop where
  frames : ∀ (i : Nat) (f : Frame), h.frames[i]? = some f → ∀ entry ∈ f, entry.2.Meets (d.among h.frames.size)
  names : ∀ (i : Nat) (c : Cursor), h.cursors[i]? = some c → ∀ p ∈ Token.pieces c.name, d.piece p
  tokens : ∀ (i : Nat) (c : Cursor), h.cursors[i]? = some c → ∀ p ∈ Token.piecesAll c.tokens, d.piece p

/-- The frames that can be seen have been made. -/
def Machine.Grounded (m : Machine) : Prop := ∀ id ∈ m.env.frames, id < m.heap.frames.size

instance (m : Machine) : Decidable m.Grounded := inferInstanceAs (Decidable (∀ id ∈ m.env.frames, id < m.heap.frames.size))

/-- The heap meets the demand. If values have to be tidy, there are the frames for it. -/
structure Machine.Meets (d : Demand) (m : Machine) : Prop where
  heap : m.heap.Meets d
  frames : ∀ n ∈ d.frames, n ≤ m.heap.frames.size ∧ m.Grounded

/-- All compile-time values that code can name meet the demand. -/
def World.Meets (d : Demand) (w : World) : Prop := ∀ entry ∈ w.registry.values, entry.2.Meets d

/-- Whether a function was called whose body has not been expanded. -/
def Fault.isUnexpandedCall : Fault → Bool
  | unsupported (.unexpandedCall _) => true
  | _ => false

/-- A returned value and the site of a fault meet the demand. An unexpanded function is only called if the demand admits
one. -/
def Signal.Meets (d : Demand) : Signal → Prop
  | .returned value => value.Meets d
  | .fault f site => d.site site ∧ (f.isUnexpandedCall = true → ∃ fn, d.function fn ∧ fn.body.deferred? ≠ none)
  | _ => True

/-- Whether the fault is one of calling a function. -/
def Fault.isOfCall : Fault → Bool
  | recursionLimit _ _ _ => true
  | fault => fault.isUnexpandedCall

theorem Fault.isUnexpandedCall_eq_false {fault : Fault} (h : fault.isOfCall = false) : fault.isUnexpandedCall = false := by
  cases fault with
  | recursionLimit => rfl
  | _ => exact h

/-- The result, if there is one, satisfies `Q`. If there is none, that is not because of a call. -/
def Fault.Gives {α : Type} (Q : α → Prop) : Except Fault α → Prop
  | .ok a => Q a
  | .error fault => fault.isOfCall = false

namespace Value

variable {d : Demand} {v base value : Value} {items : List Value} {fields : List (String × Value)}

theorem meets_ofPieces : v.Meets (.ofPieces G) ↔ v.Good G := by
  simp [Meets, Demand.ofPieces]

@[simp] theorem meets_array : (array items).Meets d ↔ ∀ v ∈ items, v.Meets d := by
  have functions : (∀ fn ∈ (array items).lambdas, d.function fn) ↔ ∀ v ∈ items, ∀ fn ∈ v.lambdas, d.function fn := by
    rw [lambdas]
    induction items with
    | nil => simp [lambdasAll]
    | cons v vs ih => simp only [lambdasAll, forall_mem_append, forall_mem_cons, ih]
  have tidy : (∀ n ∈ d.frames, (array items).Tidy n) ↔ ∀ v ∈ items, ∀ n ∈ d.frames, v.Tidy n := by
    simp only [tidy_array]
    exact ⟨fun h v hv n hn => h n hn v hv, fun h n hn v hv => h v hv n hn⟩
  simp only [Meets, good_array, functions, tidy, forall_and]

@[simp] theorem meets_object : (object fields).Meets d ↔ FieldsMeet d fields := by
  have functions : (∀ fn ∈ (object fields).lambdas, d.function fn) ↔
      ∀ field ∈ fields, ∀ fn ∈ field.2.lambdas, d.function fn := by
    rw [lambdas]
    induction fields with
    | nil => simp [lambdasFields]
    | cons field fields ih => simp only [lambdasFields, forall_mem_append, forall_mem_cons, ih]
  have tidy : (∀ n ∈ d.frames, (object fields).Tidy n) ↔
      (d.frames.isSome = true → (Assoc.keys fields).Nodup) ∧ ∀ field ∈ fields, ∀ n ∈ d.frames, field.2.Tidy n := by
    cases d.frames <;> simp [tidy_object]
  simp only [FieldsMeet, Meets, good_object, functions, tidy, forall_and]
  grind

@[simp] theorem meets_closure {c : Closure} : (closure c).Meets d ↔
    d.Meets c.fn.content c.fn.lambdas c.fn.sites ∧ ∀ n ∈ d.frames, ∀ id ∈ c.env.frames, id < n := by
  simp only [Meets, good_closure, lambdas, Demand.Meets, tidy_closure, and_assoc]
  refine and_congr_right fun _ => and_congr_right fun h => ?_
  rw [and_iff_right (d.function_sites c.fn (h _ c.fn.mem_lambdas))]

/-- Of a plain value only its pieces matter. -/
theorem meets_plain (h : v.isPlain = true) : v.Meets d ↔ v.Good d.piece := by
  have hlambdas : v.lambdas = [] := by cases v <;> first | rfl | cases h
  simp [Meets, hlambdas, Tidy.plain h]

@[simp] theorem meets_fragment {ts : List Token} : (fragment ts).Meets d ↔ ∀ p ∈ Token.piecesAll ts, d.piece p :=
  meets_plain rfl

@[simp] theorem meets_context {cursor : CursorId} {name : Token} :
    (context cursor name).Meets d ↔ ∀ p ∈ Token.pieces name, d.piece p := meets_plain rfl

@[simp] theorem meets_undefined : undefined.Meets d := (meets_plain rfl).2 good_undefined

@[simp] theorem meets_null : null.Meets d := (meets_plain rfl).2 good_null

@[simp] theorem meets_bool {b : Bool} : (bool b).Meets d := (meets_plain rfl).2 good_bool

@[simp] theorem meets_number {n : Float} : (number n).Meets d := (meets_plain rfl).2 good_number

@[simp] theorem meets_str {s : String} : (str s).Meets d := (meets_plain rfl).2 good_str

@[simp] theorem meets_builtin {b : Builtin} : (builtin b).Meets d := (meets_plain rfl).2 good_builtin

@[simp] theorem meets_ofCount {n : Nat} : (ofCount n).Meets d := meets_number

theorem Meets.mono (hv : v.Meets d) (hp : ∀ p, d.piece p → d'.piece p)
    (hf : ∀ fn, d.function fn → d'.function fn) (hd : d'.frames = none) : v.Meets d' :=
  ⟨hv.1.mono hp, fun fn h => hf fn (hv.2.1 fn h), by simp [hd]⟩

/-- Where values need not be tidy, the number of frames does not matter. -/
theorem meets_among {n : Nat} (hd : d.frames = none) : v.Meets (d.among n) ↔ v.Meets d := by simp [Meets, hd]

/-- Where there are more frames, a value meets what it has met. -/
theorem Meets.later {n n' : Nat} (hv : v.Meets (d.among n)) (h : n ≤ n') : v.Meets (d.among n') := by
  refine ⟨hv.1, hv.2.1, fun k hk => ?_⟩
  obtain ⟨n₀, hn₀, rfl⟩ := Option.map_eq_some_iff.1 hk
  exact (hv.2.2 n (Option.map_eq_some_iff.2 ⟨n₀, hn₀, rfl⟩)).mono h

/-- If values have to be tidy, the frames of a closure have been made. -/
theorem Meets.frames {c : Closure} {n : Nat} (hc : (closure c).Meets (d.among n)) (hd : d.frames.isSome = true) :
    ∀ id ∈ c.env.frames, id < n := by
  obtain ⟨k, hk⟩ := Option.isSome_iff_exists.1 hd
  exact (meets_closure.1 hc).2 n (Option.map_eq_some_iff.2 ⟨k, hk, rfl⟩)

/-- A value that is looked up, or undefined when there is none. -/
theorem meets_getD {o : Option Value} (h : ∀ v, o = some v → v.Meets d) : (o.getD undefined).Meets d := by
  cases o with
  | none => exact meets_undefined
  | some v => exact h v rfl

theorem meets_of_getElem? {vs : List Value} (h : ∀ v ∈ vs, v.Meets d) (i : Nat) : (vs[i]?.getD undefined).Meets d :=
  meets_getD fun _ hv => h _ (mem_of_getElem? hv)

theorem meets_of_get? (h : ∀ field ∈ fields, field.2.Meets d) {name : String}
    (hv : Assoc.get? name fields = some v) : v.Meets d := by
  obtain ⟨k, hk⟩ := Assoc.exists_mem_of_get? hv
  exact h _ hk

theorem meets_insert (h : FieldsMeet d fields) (name : String) (hv : v.Meets d) :
    FieldsMeet d (Assoc.insert name v fields) := by
  refine ⟨fun hd => Assoc.nodup_insert name v (h.1 hd), fun field hf => ?_⟩
  rcases Assoc.mem_insert hf with he | hf
  · exact he ▸ hv
  · exact h.2 field hf

theorem gives_member (hb : base.Meets d) (property : String) :
    Fault.Gives (·.Meets d) ((base.member property).mapError .wrongType) := by
  unfold member
  split
  · exact meets_getD fun _ hv => meets_of_get? (meets_object.1 hb).2 hv
  all_goals first | rfl | exact meets_undefined | (show Meets d _; split <;> simp)

theorem gives_index (hb : base.Meets d) (key : Value) :
    Fault.Gives (·.Meets d) ((base.index key).mapError .wrongType) := by
  unfold index
  split
  · refine meets_getD fun w hw => ?_
    unfold item? at hw
    split at hw
    · exact meets_array.1 hb _ (mem_of_getElem? hw)
    · cases hw
  · refine meets_getD fun w hw => ?_
    obtain ⟨c, _, rfl⟩ := Option.map_eq_some_iff.1 hw
    exact meets_str
  · rfl
  · rfl
  · exact gives_member hb _

theorem gives_setMember (hb : base.Meets d) (hv : value.Meets d) (property : String) :
    Fault.Gives (·.Meets d) (base.setMember property value) := by
  unfold setMember
  split
  · exact meets_object.2 (meets_insert (meets_object.1 hb) property hv)
  · rfl

theorem meets_setItem (h : ∀ v ∈ items, v.Meets d) (place : Nat)
    (hv : value.Meets d) : ∀ v ∈ setItem items place value, v.Meets d := by
  intro v hm
  rcases mem_or_eq_of_mem_set hm with hm | rfl
  · rcases mem_append.1 hm with hm | hm
    · exact h v hm
    · rw [eq_of_mem_replicate hm]
      exact meets_undefined
  · exact hv

theorem gives_setIndex (hb : base.Meets d) (hv : value.Meets d) (key : Value) :
    Fault.Gives (·.Meets d) (base.setIndex key value) := by
  unfold setIndex
  split
  · split
    · split
      · rfl
      · exact meets_array.2 (meets_setItem (meets_array.1 hb) _ hv)
    · rfl
  · exact meets_object.2 (meets_insert (meets_object.1 hb) _ hv)
  · rfl

/-- Unary operators give plain values. -/
theorem meets_unary (operator : UnaryOp) (v : Value) : (v.unary operator).Meets d := by
  cases operator <;> simp [unary]

/-- Binary operators give plain values. -/
theorem gives_binary (operator : BinaryOp) (a b : Value) : Fault.Gives (·.Meets d) (binary operator a b) := by
  unfold binary
  split
  · next hv =>
    cases operator <;> simp only [binary?, Option.some.injEq, reduceCtorEq] at hv <;> subst hv <;>
      try exact meets_number
    all_goals first | exact meets_bool | (simp only [Fault.Gives, plus]; split <;> simp)
  · rfl

theorem gives_textMethod (s method : String) (args : List Value) :
    Fault.Gives (·.Meets d) ((textMethod s method args).mapError .unsupported) := by
  unfold textMethod
  split
  case h_2 =>
    show Meets d (textIndexOf s _)
    unfold textIndexOf
    split <;> simp
  case h_5 =>
    refine meets_array.2 fun w hw => ?_
    unfold textSplit at hw
    split at hw <;> obtain ⟨_, _, rfl⟩ := mem_map.1 hw <;> exact meets_str
  all_goals first | rfl | exact meets_str

theorem gives_arrayMethod {args : List Value} (hi : ∀ w ∈ items, w.Meets d) (ha : ∀ w ∈ args, w.Meets d)
    (method : String) : Fault.Gives (·.Meets d) ((arrayMethod items method args).mapError .unsupported) := by
  unfold arrayMethod
  split
  · exact meets_str
  · refine meets_array.2 fun w hw => ?_
    rcases mem_append.1 hw with hw | hw
    · exact hi w hw
    · obtain ⟨arg, harg, hw⟩ := mem_flatMap.1 hw
      split at hw
      · exact meets_array.1 (ha _ harg) w hw
      · exact mem_singleton.1 hw ▸ ha arg harg
  · show Meets d _
    cases items.findIdx? (·.strictEq (args[0]?.getD undefined)) <;> simp
  · exact meets_bool
  · exact meets_array.2 fun w hw => hi w (mem_of_mem_take (mem_of_mem_drop hw))
  · rfl

/-- Methods of syntax give only what the syntax holds. -/
theorem gives_fragmentMethod (sources : Sources) {tokens : List Token} (ht : ∀ p ∈ Token.piecesAll tokens, d.piece p)
    (method : String) : Fault.Gives (·.Meets d) (fragmentMethod sources tokens method) := by
  unfold fragmentMethod
  split
  case h_11 =>
    split
    · next children hc =>
      refine meets_array.2 fun w hw => ?_
      obtain ⟨t, htc, rfl⟩ := mem_map.1 hw
      match tokens, hc with
      | .nest _ (.group _) _ :: rest, rfl =>
        refine meets_fragment.2 fun p hp => ht p ?_
        rw [Token.piecesAll, Token.pieces]
        simp only [Token.piecesAll, append_nil] at hp
        exact mem_append_left _ (mem_cons_of_mem _ (Token.mem_piecesAll.2 ⟨t, htc, hp⟩))
    · rfl
  case h_1 =>
    cases firstAtom? tokens with
    | none => exact meets_null
    | some a => cases a <;> simp [Fault.Gives, ofAtom]
  all_goals first | rfl | simp [Fault.Gives]

end Value

namespace Heap

variable {d : Demand} {h : Heap}

theorem meets_empty : Heap.Meets d {} := ⟨by simp, by simp, by simp⟩

theorem Meets.mono (hh : h.Meets d) (hp : ∀ p, d.piece p → d'.piece p)
    (hf : ∀ fn, d.function fn → d'.function fn) (hd : d'.frames = none) : h.Meets d' where
  frames i f hi entry he := (hh.frames i f hi entry he).mono hp hf (by simp [hd])
  names i c hc p h := hp p (hh.names i c hc p h)
  tokens i c hc p h := hp p (hh.tokens i c hc p h)

theorem Meets.frame (hh : h.Meets d) (id : FrameId) : ∀ entry ∈ h.frame id, entry.2.Meets (d.among h.frames.size) := by
  unfold Heap.frame
  cases hf : h.frames[id]? with
  | none => simp
  | some f => exact hh.frames id f hf

theorem Meets.addFrame (hh : h.Meets d) : h.addFrame.2.Meets d := by
  refine ⟨?_, hh.names, hh.tokens⟩
  intro i f hf
  simp only [Heap.addFrame, Array.getElem?_push] at hf
  split at hf
  · cases hf
    simp
  · exact fun entry he => (hh.frames i f hf entry he).later (by simp [Heap.addFrame])

theorem Meets.newEnvironment (hh : h.Meets d) : h.newEnvironment.2.Meets d := hh.addFrame

theorem Meets.push (hh : h.Meets d) (env : Environment) : (h.push env).2.Meets d := hh.addFrame

theorem Meets.addCursor (hh : h.Meets d) {c : Cursor} (hn : ∀ p ∈ Token.pieces c.name, d.piece p)
    (ht : ∀ p ∈ Token.piecesAll c.tokens, d.piece p) : (h.addCursor c).2.Meets d := by
  refine ⟨hh.frames, ?_, ?_⟩ <;> intro i e he <;> simp only [Heap.addCursor, Array.getElem?_push] at he <;> split at he
  · cases he
    exact hn
  · exact hh.names i e he
  · cases he
    exact ht
  · exact hh.tokens i e he

theorem Meets.store (hh : h.Meets d) (id : FrameId) (name : String) {value : Value}
    (hv : value.Meets (d.among h.frames.size)) : (h.store id name value).Meets d := by
  refine ⟨?_, hh.names, hh.tokens⟩
  intro i f hf entry he
  simp only [Heap.store, Array.getElem?_modify, Array.size_modify] at hf ⊢
  split at hf
  · obtain ⟨g, hg, rfl⟩ := Option.map_eq_some_iff.1 hf
    rcases Assoc.mem_insert he with hval | he
    · exact hval ▸ hv
    · exact hh.frames i g hg entry he
  · exact hh.frames i f hf entry he

theorem Meets.define (hh : h.Meets d) (env : Environment) (name : String) {value : Value}
    (hv : value.Meets (d.among h.frames.size)) : (h.define env name value).Meets d := hh.store _ name hv

/-- A change of a cursor that keeps its name and its tokens. -/
theorem Meets.modifyCursor (hh : h.Meets d) (id : CursorId) {change : Cursor → Cursor}
    (hn : ∀ c, (change c).name = c.name) (ht : ∀ c, (change c).tokens = c.tokens) :
    (h.modifyCursor id change).Meets d := by
  refine ⟨hh.frames, ?_, ?_⟩ <;> intro i e he <;> simp only [Heap.modifyCursor, Array.getElem?_modify] at he <;>
    split at he
  · obtain ⟨c, hc, rfl⟩ := Option.map_eq_some_iff.1 he
    exact hn c ▸ hh.names i c hc
  · exact hh.names i e he
  · obtain ⟨c, hc, rfl⟩ := Option.map_eq_some_iff.1 he
    exact ht c ▸ hh.tokens i c hc
  · exact hh.tokens i e he

theorem Meets.get? (hh : h.Meets d) {env : Environment} {name : String} {v : Value} (hv : h.get? env name = some v) :
    v.Meets (d.among h.frames.size) := by
  obtain ⟨id, _, hid⟩ := exists_of_findSome?_eq_some hv
  obtain ⟨k, hk⟩ := Assoc.exists_mem_of_get? hid
  exact hh.frame id _ hk

/-- All pieces of the values and cursors of a heap satisfy `G`. -/
abbrev Good (G : Piece → Prop) (h : Heap) : Prop := h.Meets (.ofPieces G)

theorem Good.mono {G' : Piece → Prop} (hh : h.Good G) (hG : ∀ p, G p → G' p) : h.Good G' :=
  Meets.mono hh hG (fun _ _ => trivial) rfl

end Heap

theorem Signal.meets_among {d : Demand} (hd : d.frames = none) {n : Nat} :
    signal.Meets (d.among n) ↔ signal.Meets d := by
  cases signal with
  | returned value => exact Value.meets_among hd
  | _ => exact Iff.rfl

theorem Signal.Meets.later {d : Demand} {n n' : Nat} (h : signal.Meets (d.among n)) (hn : n ≤ n') :
    signal.Meets (d.among n') := by
  cases signal with
  | returned value => exact Value.Meets.later h hn
  | _ => exact h

theorem Machine.Meets.grounded {d : Demand} (hm : m.Meets d) (h : d.frames.isSome = true) : m.Grounded := by
  obtain ⟨n, hn⟩ := Option.isSome_iff_exists.1 h
  exact (hm.frames n hn).2

/-- What a value meets, it meets in the machine. -/
theorem Machine.Meets.later {d : Demand} (hm : m.Meets d) {v : Value} (hv : v.Meets d) :
    v.Meets (d.among m.heap.frames.size) := by
  refine ⟨hv.1, hv.2.1, fun k hk => ?_⟩
  obtain ⟨n, hn, rfl⟩ := Option.map_eq_some_iff.1 hk
  exact (hv.2.2 n hn).mono (hm.frames n hn).1

theorem meets_globalValue {d : Demand} {name : String} {v : Value} (h : globalValue? name = some v) : v.Meets d := by
  unfold globalValue? at h
  split at h <;> cases h <;> simp [Value.FieldsMeet, Assoc.keys]

theorem gives_lookup {d : Demand} {w : World} (hw : w.Meets d) (hm : m.Meets d) (ident : Token) :
    Fault.Gives (·.Meets (d.among m.heap.frames.size)) (lookup w m ident) := by
  unfold lookup
  dsimp only
  split
  · split
    · split
      · next v hv =>
        obtain ⟨k, hk⟩ := Assoc.exists_mem_of_get? hv
        exact hm.later (hw _ hk)
      · rfl
    · rfl
    all_goals
      split
      · next hv => exact hm.heap.get? hv
      · rfl
  · split
    · next v hv =>
      rcases Option.or_eq_some_iff.1 hv with hv | ⟨_, hv⟩
      · exact hm.heap.get? hv
      · exact meets_globalValue hv
    · rfl

/-! ### No demand -/

/-- Nothing is asked of code. -/
def Demand.any : Demand := ⟨fun _ => True, fun _ => True, fun _ => True, fun _ _ _ _ => trivial, none⟩

theorem Demand.any_frames : Demand.any.frames = none := rfl

theorem Value.meets_any (v : Value) : v.Meets .any := by
  simp [Meets, Demand.any, Good]

theorem Heap.meets_any (h : Heap) : h.Meets .any :=
  ⟨fun _ _ _ entry _ => entry.2.meets_any, fun _ _ _ _ _ => trivial, fun _ _ _ _ _ => trivial⟩

theorem Machine.meets_any (m : Machine) : m.Meets .any := ⟨m.heap.meets_any, nofun⟩

theorem Demand.any_meets (c : List Content) (l : List Lambda) (k : List Site) : Demand.any.Meets c l k := by
  simp [Meets, any, Content.Good]

end Hygiene
