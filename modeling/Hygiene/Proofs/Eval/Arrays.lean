import Hygiene.Proofs.Eval.Balance
import Hygiene.Proofs.Eval.Variables

/-!
# Arrays that methods change

The methods `push` and `pop` change a copy of an array, made before the arguments are evaluated, and store it back.
-/

namespace Hygiene

/-- From `m` to `m'` the variable has got the value in the frame that holds it, and nothing else has changed. -/
structure Machine.Sets (w : World) (ident : Token) (value : Value) (m m' : Machine) : Prop where
  stored : ∃ id, m.heap.holder? m.env (w.store.slot ident) = some id ∧
    m' = { m with heap := m.heap.store id (w.store.slot ident) value }
  reads : lookup w m' ident = .ok value

section Methods

variable {w : World} {limit : Nat} {x : Token} {m m₁ m' : Machine} {items values : List Value}

theorem sets_store (ha : w.Assignable x) {id : FrameId} (hid : m.heap.holder? m.env (w.store.slot x) = some id)
    (value : Value) : m.Sets w x value { m with heap := m.heap.store id (w.store.slot x) value } :=
  ⟨⟨id, hid, rfl⟩, lookup_of_get? ha (Heap.get?_store_holder hid value)⟩

/-- An array that was read from a variable can be stored back there, whatever has been evaluated meanwhile. -/
theorem storeBack_iff_sets (hx : lookup w m x = .ok (.array items)) (hpasses : m.Passes w .any none m₁) (r : Evaluator)
    (value a result : Value) (site : Site) :
    (do r.storeBack w (.ident x site) value; return a : Eval Value) m₁ = .ok result m' ↔
      w.Assignable x ∧ m₁.Sets w x value m' ∧ result = a := by
  have hholder (ha : w.Assignable x) : ∃ id, m₁.heap.holder? m₁.env (w.store.slot x) = some id := by
    have hsome : (m.heap.holder? m.env (w.store.slot x)).isSome = true := by
      rw [← Heap.isSome_get?, get?_of_lookup_array ha hx]
      rfl
    rw [hpasses.balanced.env]
    exact Option.isSome_iff_exists.1 (hpasses.grows.isSome_holder? hsome)
  have hassign : r.storeBack w (.ident x site) value = Evaluator.assignIdent w x value site := rfl
  simp only [hassign, bind, EStateM.bind, pure, EStateM.pure]
  constructor
  · intro h
    split at h
    · next m₂ hok =>
      cases h
      have ha := assignable_of_assignIdent hok
      obtain ⟨id, hid⟩ := hholder ha
      rw [assignIdent_of_holder ha hid] at hok
      cases hok
      exact ⟨ha, sets_store ha hid value, rfl⟩
    · cases h
  · rintro ⟨ha, ⟨⟨id, hid, rfl⟩, _⟩, rfl⟩
    rw [assignIdent_of_holder ha hid]

/-- How the call of a method on the array in a variable runs. -/
theorem methodCall_eq (hx : lookup w m x = .ok (.array items)) (method : String) (args : List Expression)
    (site memberSite callSite : Site) :
    (evaluator w (limit + 2)).expression (.call (.member (.ident x site) method memberSite) args callSite) m =
      (do
        let values ← args.mapM (evaluator w (limit + 1)).expression
        (evaluator w (limit + 1)).arrayCall w (.ident x site) items method values callSite) m := by
  have hident : (evaluator w (limit + 1)).expression (.ident x site) m = .ok (.array items) m := by
    show Eval.lift (lookup w m x) x.site m = _
    rw [hx]
    rfl
  show ((evaluator w (limit + 1)).expression (.ident x site) >>= fun base =>
    args.mapM (evaluator w (limit + 1)).expression >>= fun values =>
      (evaluator w (limit + 1)).methodCall w (.ident x site) base method values callSite) m = _
  simp only [bind, EStateM.bind, hident]
  rfl

theorem passes_args {args : List Expression} (h : args.mapM (evaluator w limit).expression m = .ok values m₁) :
    m.Passes w .any none m₁ :=
  have hkeeps : Eval.Keeps w .any 0 False _ (args.mapM (evaluator w limit).expression) _ :=
    .mapM fun e _ => (evaluator_any w limit).expression e (Demand.any_meets _ _ _)
  (hkeeps.ok m.meets_any (Nat.zero_le _) h).1

end Methods

/-- A call of `push` on the array in a variable succeeds exactly if the arguments are evaluated and the variable can be
set. Then the variable holds the array from before, with their values at its end. A call of `pop` takes the last item. -/
theorem array_stored_back (w : World) (limit : Nat) (m : Machine) (x : Token) (items : List Value)
    (hx : lookup w m x = .ok (.array items)) (site memberSite callSite : Site) (result : Value) (m' : Machine) :
    (∀ args : List Expression,
      (evaluator w (limit + 2)).expression (.call (.member (.ident x site) "push" memberSite) args callSite) m =
        .ok result m' ↔
      ∃ values m₁, args.mapM (evaluator w (limit + 1)).expression m = .ok values m₁ ∧ w.Assignable x ∧
        m₁.Sets w x (.array (items ++ values)) m' ∧ result = .ofCount (items ++ values).length) ∧
    ((evaluator w (limit + 2)).expression (.call (.member (.ident x site) "pop" memberSite) [] callSite) m =
        .ok result m' ↔
      w.Assignable x ∧ m.Sets w x (.array items.dropLast) m' ∧ result = items.getLast?.getD .undefined) := by
  refine ⟨fun args => ?_, ?_⟩
  · rw [methodCall_eq hx]
    simp only [bind, EStateM.bind]
    cases hargs : args.mapM (evaluator w (limit + 1)).expression m with
    | error signal m₁ => simp
    | ok values m₁ =>
      constructor
      · exact fun h => ⟨values, m₁, rfl, (storeBack_iff_sets hx (passes_args hargs) _ _ _ result site).1 h⟩
      · rintro ⟨_, _, hsame, hsets⟩
        cases hsame
        exact (storeBack_iff_sets hx (passes_args hargs) _ _ _ result site).2 hsets
  · rw [methodCall_eq hx]
    exact storeBack_iff_sets hx ⟨m.heap.meets_any, .of_eq rfl rfl rfl, .rfl⟩ (evaluator w (limit + 1))
      (.array items.dropLast) (items.getLast?.getD .undefined) result site

/-- The call of a method on the variable `x`. -/
def callOnX (method : String) (args : List Expression) : Expression :=
  .call (.member (.ident (.fresh (.ident "x") .unknown) .unknown) method .unknown) args .unknown

/-- The machine in which the variable `x` holds the array. -/
def holdingX (items : List Value) : Machine := ⟨{ frames := #[[("x", .array items)]] }, ⟨0, []⟩, 0, #[], []⟩

theorem array_stored_back_pop : ∃ m', (holdingX [.null, .undefined]).Sets ⟨{}, {}, {}, 9⟩ (.fresh (.ident "x") .unknown)
    (.array [.null]) m' :=
  ⟨_, ((array_stored_back ⟨{}, {}, {}, 9⟩ 7 (holdingX [.null, .undefined]) (.fresh (.ident "x") .unknown)
    [.null, .undefined] rfl .unknown .unknown .unknown .undefined _).2.1 rfl).2.1⟩

/-- By `x.push(x.push(null))` the array in `x` gets the item null first, and loses it again. -/
theorem pushed_item_lost : ∃ m₁ m',
    [callOnX "push" [.null .unknown]].mapM (evaluator ⟨{}, {}, {}, 9⟩ 8).expression (holdingX []) =
      .ok [.ofCount 1] m₁ ∧
    lookup ⟨{}, {}, {}, 9⟩ m₁ (.fresh (.ident "x") .unknown) = .ok (.array [.null]) ∧
    (evaluator ⟨{}, {}, {}, 9⟩ 9).expression (callOnX "push" [callOnX "push" [.null .unknown]]) (holdingX []) =
      .ok (.ofCount 1) m' ∧
    lookup ⟨{}, {}, {}, 9⟩ m' (.fresh (.ident "x") .unknown) = .ok (.array [.ofCount 1]) :=
  ⟨_, _, rfl, rfl, rfl, rfl⟩

end Hygiene
