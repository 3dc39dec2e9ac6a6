import Hygiene.Proofs.Eval.Machine

/-!
# What evaluations keep

An evaluation keeps a demand if, from a heap that meets it, it comes to a heap that meets it. It is balanced, the heap
grows, and more steps change nothing unless the steps were used up; so the rules compare an evaluation with one that may
have more. What is said of a value depends on how many frames there are, and stays true when there are more.
-/

namespace Hygiene

variable {body body' : Eval Unit} {signal : Signal} {site : Site} {name : String} {value : Value}

namespace Machine

variable {w : World} {d : Demand} {m m₁ m' : Machine} {refused : Option ClosureCall}

/-- From `m` an evaluation came to `m'`. -/
structure Passes (w : World) (d : Demand) (m : Machine) (refused : Option ClosureCall) (m' : Machine) : Prop where
  heap : m'.heap.Meets d
  balanced : m.Balanced w refused m'
  grows : m.heap.Grows m'.heap

theorem Passes.trans (h : m.Passes w d none m₁) (h' : m₁.Passes w d refused m') : m.Passes w d refused m' :=
  ⟨h'.heap, h.balanced.trans h'.balanced, h.grows.trans h'.grows⟩

/-- Frames that have been made stay, so the environment sees no others after an evaluation. -/
theorem Meets.passes (hm : m.Meets d) (h : m.Passes w d refused m') : m'.Meets d := by
  refine ⟨h.heap, fun n hn => ⟨Nat.le_trans (hm.frames n hn).1 h.grows.size, fun id hid => ?_⟩⟩
  rw [h.balanced.env] at hid
  exact Nat.lt_of_lt_of_le ((hm.frames n hn).2 id hid) h.grows.size

/-- A frame is made for a block or a call, and is seen first. -/
theorem Meets.push (hm : m.Meets d) {env : Environment} (henv : d.frames.isSome = true → ∀ id ∈ env.frames, id < m.heap.frames.size) :
    Meets d { m with env := (m.heap.push env).1, heap := (m.heap.push env).2 } := by
  refine ⟨hm.heap.push env, fun n hn => ⟨Nat.le_trans (hm.frames n hn).1 (m.heap.grows_push env).size, fun id hid => ?_⟩⟩
  have hframes : id = m.heap.frames.size ∨ id ∈ env.frames := List.mem_cons.1 hid
  have hsize : (m.heap.push env).2.frames.size = m.heap.frames.size + 1 := Array.size_push _
  rcases hframes with rfl | hid
  · exact hsize ▸ Nat.lt_succ_self _
  · exact hsize ▸ Nat.lt_succ_of_lt (henv (Option.isSome_of_mem hn) id hid)

end Machine

namespace Eval

variable {α β : Type} {w : World} {d : Demand} {n : Nat} {returns returns' : Prop} {Q : Nat → α → Prop}
  {R : Nat → β → Prop}

/-- How an evaluation from `m` has ended. Its result satisfies `Q` where there are at least `n` frames; it returns only
if there may be a return. The other one has ended in the same way, unless the first has used up its steps. -/
def Kept (w : World) (d : Demand) (n : Nat) (returns : Prop) (Q : Nat → α → Prop) (m : Machine)
    (result result' : EStateM.Result Signal Machine α) : Prop :=
  match result with
  | .ok a m' => m.Passes w d none m' ∧ (∃ k, n ≤ k ∧ k ≤ m'.heap.frames.size ∧ Q k a) ∧ result' = .ok a m'
  | .error signal m' => (∃ refused, m.Passes w d refused m' ∧ signal.Reports w refused) ∧
      (signal.Meets (d.among m'.heap.frames.size) ∧ signal.Leaves returns) ∧
      (signal ≠ .exhausted → result' = .error signal m')

/-- If what the evaluation `x` starts from meets the demand and there are `n` frames, then so do the heap that is left
and the signal, and the result satisfies `Q`. And `x'` ends in the same way, unless `x` has used up its steps. -/
def Keeps (w : World) (d : Demand) (n : Nat) (returns : Prop) (Q : Nat → α → Prop) (x x' : Eval α) : Prop :=
  ∀ m, m.Meets d → n ≤ m.heap.frames.size → Kept w d n returns Q m (x m) (x' m)

namespace Keeps

variable {x x' : Eval α} {m : Machine}

theorem ok (hx : Keeps w d n returns Q x x') {m' : Machine} {a : α} (hm : m.Meets d) (hn : n ≤ m.heap.frames.size)
    (h : x m = .ok a m') : m.Passes w d none m' ∧ ∃ k, k ≤ m'.heap.frames.size ∧ Q k a := by
  have hxm := hx m hm hn
  rw [h] at hxm
  obtain ⟨hpasses, ⟨k, _, hk⟩, _⟩ := hxm
  exact ⟨hpasses, k, hk⟩

theorem error (hx : Keeps w d n returns Q x x') {m' : Machine} (hm : m.Meets d)
    (hn : n ≤ m.heap.frames.size) (h : x m = .error signal m') :
    (∃ refused, m.Passes w d refused m' ∧ signal.Reports w refused) ∧
      signal.Meets (d.among m'.heap.frames.size) ∧ signal.Leaves returns := by
  have hxm := hx m hm hn
  rw [h] at hxm
  exact ⟨hxm.1, hxm.2.1⟩

theorem pure {a : α} (h : Q n a) : Keeps w d n returns Q (pure a) (pure a) :=
  fun _ hm hn => ⟨⟨hm.heap, .of_eq rfl rfl rfl, .rfl⟩, ⟨n, Nat.le_refl n, hn, h⟩, rfl⟩

theorem throw (h : signal.Meets (d.among n)) (hr : signal.isRefusal = false)
    (hl : signal.Leaves returns) : Keeps w d n returns Q (throw signal) (throw signal) :=
  fun _ hm hn => ⟨⟨none, ⟨hm.heap, .of_eq rfl rfl rfl, .rfl⟩, hr⟩, ⟨h.later hn, hl⟩, fun _ => rfl⟩

/-- Without steps an evaluation may end in any other way with more. -/
theorem exhausted : Keeps w d n returns Q (MonadExcept.throw Signal.exhausted) x' :=
  fun _ hm _ => ⟨⟨none, ⟨hm.heap, .of_eq rfl rfl rfl, .rfl⟩, rfl⟩, ⟨trivial, trivial⟩, fun h => (h rfl).elim⟩

theorem mono (hx : Keeps w d n returns Q x x') (h : returns → returns') : Keeps w d n returns' Q x x' := by
  intro m hm hn
  have hxm := hx m hm hn
  unfold Kept at hxm ⊢
  split
  · next heq =>
    rw [heq] at hxm
    exact hxm
  · next signal m' heq =>
    rw [heq] at hxm
    refine ⟨hxm.1, ⟨hxm.2.1.1, ?_⟩, hxm.2.2⟩
    cases signal with
    | returned value => exact h hxm.2.1.2
    | _ => exact hxm.2.1.2

theorem bind {f f' : α → Eval β} (hx : Keeps w d n returns Q x x')
    (hf : ∀ {k}, n ≤ k → ∀ a, Q k a → Keeps w d k returns R (f a) (f' a)) :
    Keeps w d n returns R (x >>= f) (x' >>= f') := by
  intro m hm hn
  have hxm := hx m hm hn
  simp only [Bind.bind, EStateM.bind]
  cases hr : x m with
  | error signal m' =>
    rw [hr] at hxm
    refine ⟨hxm.1, hxm.2.1, fun hs => ?_⟩
    rw [hxm.2.2 hs]
  | ok a m₁ =>
    rw [hr] at hxm
    obtain ⟨hpasses, ⟨k, hnk, hk, ha⟩, hx'⟩ := hxm
    have hrest := hf hnk a ha m₁ (hm.passes hpasses) hk
    rw [hx']
    unfold Kept at hrest ⊢
    dsimp only
    split
    · next heq =>
      rw [heq] at hrest
      obtain ⟨hpasses', ⟨k', hk', hR⟩, hrest⟩ := hrest
      exact ⟨hpasses.trans hpasses', ⟨k', Nat.le_trans hnk hk', hR⟩, hrest⟩
    · next heq =>
      rw [heq] at hrest
      obtain ⟨⟨refused, hpasses', hreports⟩, hrest⟩ := hrest
      exact ⟨⟨refused, hpasses.trans hpasses', hreports⟩, hrest⟩

theorem imp {Q' : Nat → α → Prop} (hx : Keeps w d n returns Q x x') (h : ∀ k a, Q k a → Q' k a) :
    Keeps w d n returns Q' x x' := by
  have hbind : Keeps w d n returns Q' (x >>= Pure.pure) (x' >>= Pure.pure) := hx.bind fun _ a ha => .pure (h _ a ha)
  rwa [bind_pure, bind_pure] at hbind

/-- The machine as it is meets the demand. -/
theorem get : Keeps w d n returns (fun k (m : Machine) => m.Meets d ∧ m.heap.frames.size = k) get get :=
  fun m hm hn => ⟨⟨hm.heap, .of_eq rfl rfl rfl, .rfl⟩, ⟨m.heap.frames.size, hn, Nat.le_refl _, hm, rfl⟩, rfl⟩

/-- The heap grows, and beside it only the trace changes. -/
theorem modify {f : Machine → Machine}
    (hf : ∀ m : Machine, m.heap.Meets d → n ≤ m.heap.frames.size → (f m).heap.Meets d)
    (hg : ∀ m : Machine, m.heap.Grows (f m).heap)
    (he : ∀ m : Machine, (f m).env = m.env ∧ (f m).depth = m.depth ∧ (f m).calls = m.calls) :
    Keeps w d n returns (fun _ _ => True) (modify f) (modify f) := fun m hm hn =>
  ⟨⟨hf m hm.heap hn, .of_eq (he m).1 (he m).2.1 (he m).2.2, hg m⟩, ⟨n, Nat.le_refl n, Nat.le_trans hn (hg m).size, trivial⟩, rfl⟩

theorem fail {fault : Fault} (hs : d.site site) (h : fault.isOfCall = false) :
    Keeps w d n returns Q (fail fault site) (fail fault site) := by
  refine .throw ⟨hs, fun hf => ?_⟩ ?_ trivial
  · rw [Fault.isUnexpandedCall_eq_false h] at hf
    cases hf
  · cases fault with
    | recursionLimit => cases h
    | _ => rfl

theorem failType {fault : TypeFault} (hs : d.site site) :
    Keeps w d n returns Q (failType fault site) (failType fault site) :=
  .fail hs rfl

theorem lift {result : Except Fault Value} (hs : d.site site) (h : Fault.Gives (d.Gives n) result) :
    Keeps w d n returns d.Gives (lift result site) (lift result site) := by
  cases result with
  | ok a => exact .pure h
  | error fault => exact .fail hs h

theorem forM {l : List α} {f f' : α → Eval PUnit}
    (hf : ∀ a ∈ l, ∀ n, Keeps w d n returns (fun _ _ => True) (f a) (f' a)) :
    Keeps w d n returns (fun _ _ => True) (l.forM f) (l.forM f') := by
  induction l generalizing n with
  | nil => exact .pure trivial
  | cons a l ih =>
    refine .bind (hf a List.mem_cons_self n) fun _ _ _ => ?_
    exact ih fun b hb => hf b (List.mem_cons_of_mem _ hb)

theorem mapM {l : List α} {f f' : α → Eval Value} (hf : ∀ a ∈ l, ∀ n, Keeps w d n returns d.Gives (f a) (f' a)) :
    Keeps w d n returns d.GivesAll (l.mapM f) (l.mapM f') := by
  induction l generalizing n with
  | nil => exact .pure nofun
  | cons a l ih =>
    rw [List.mapM_cons, List.mapM_cons]
    refine .bind (hf a List.mem_cons_self n) fun _ v hv => ?_
    refine .bind (ih fun c hc => hf c (List.mem_cons_of_mem _ hc)) fun hk vs hvs => ?_
    exact .pure (List.forall_mem_cons.2 ⟨hv.later hk, hvs⟩)

theorem define (hv : value.Meets (d.among n)) :
    Keeps w d n returns (fun _ _ => True) (define name value) (define name value) :=
  .modify (fun m hm hn => hm.define m.env name (hv.later hn)) (fun m => m.heap.grows_store _ name value)
    fun _ => ⟨rfl, rfl, rfl⟩

theorem assignOr {elsewhere : Heap → Environment → String → Value → Heap}
    (hv : value.Meets (d.among n)) (he : ∀ (h : Heap) env, ∃ id, elsewhere h env name value = h.store id name value) :
    Keeps w d n returns (fun _ _ => True) (assignOr elsewhere name value) (assignOr elsewhere name value) := by
  refine .modify (fun m hm hn => ?_) (fun m => ?_) fun m => ?_
  · split
    · exact hm.store _ name (hv.later hn)
    · obtain ⟨id, hid⟩ := he m.heap m.env
      simpa only [hid] using hm.store id name (hv.later hn)
  · split
    · exact m.heap.grows_store _ name value
    · obtain ⟨id, hid⟩ := he m.heap m.env
      simpa only [hid] using m.heap.grows_store id name value
  · split <;> exact ⟨rfl, rfl, rfl⟩

/-- The evaluation is run from another machine, and what is to be restored at its end is restored. -/
theorem restore (hx : Keeps w d n returns Q x x') (m₁ : Machine) (hm₁ : m₁.Meets d) (hn : n ≤ m₁.heap.frames.size)
    (leave : Machine → Machine) (hleave : ∀ m', (leave m').heap = m'.heap)
    (h : ∀ {refused m'}, m₁.Passes w d refused m' → m.Passes w d refused (leave m')) :
    Kept w d n returns Q m
      (match x m₁ with
        | .ok a m' => .ok a (leave m')
        | .error signal m' => .error signal (leave m'))
      (match x' m₁ with
        | .ok a m' => .ok a (leave m')
        | .error signal m' => .error signal (leave m')) := by
  have hxm := hx m₁ hm₁ hn
  cases heq : x m₁ with
  | ok a m' =>
    rw [heq] at hxm
    obtain ⟨hpasses, ha, hx'⟩ := hxm
    rw [hx']
    exact ⟨h hpasses, (hleave m').symm ▸ ha, rfl⟩
  | error signal m' =>
    rw [heq] at hxm
    obtain ⟨⟨refused, hpasses, hreports⟩, hsignal, hx'⟩ := hxm
    refine ⟨⟨refused, h hpasses, hreports⟩, (hleave m').symm ▸ hsignal, fun hs => ?_⟩
    rw [hx' hs]

theorem inFrame {act act' : Eval α} (ha : Keeps w d n returns Q act act') :
    Keeps w d n returns Q (inFrame act) (inFrame act') := by
  intro m hm hn
  have hgrows := m.heap.grows_push m.env
  refine ha.restore { m with env := (m.heap.push m.env).1, heap := (m.heap.push m.env).2 } (hm.push hm.grounded)
    (Nat.le_trans hn hgrows.size) (fun m' => { m' with env := m'.env.pop }) (fun _ => rfl)
    fun h => ⟨h.heap, ?_, hgrows.trans h.grows⟩
  exact { h.balanced with env := by rw [h.balanced.env]; rfl }

/-- Breaks and continues never come out of the body. -/
theorem iteration (hb : Keeps w d n returns (fun _ _ => True) body body') :
    Keeps w d n returns (fun _ _ => True) (iteration body) (iteration body') := by
  intro m hm hn
  have hbm := hb m hm hn
  unfold Eval.iteration
  cases heq : body m with
  | ok a m' =>
    rw [heq] at hbm
    exact ⟨hbm.1, hbm.2.1, by rw [hbm.2.2]⟩
  | error signal m' =>
    rw [heq] at hbm
    obtain ⟨hpasses, ⟨hmeets, hleaves⟩, hbody'⟩ := hbm
    cases signal with
    | broke => cases hleaves
    | continued => cases hleaves
    | _ => exact ⟨hpasses, ⟨hmeets, hleaves⟩, fun hs => by rw [hbody' hs]⟩

theorem loop {test test' : Eval Value} (ht : ∀ n, Keeps w d n returns d.Gives test test')
    (hb : ∀ n, Keeps w d n returns (fun _ _ => True) body body') {limit limit' : Nat} (hl : limit ≤ limit') :
    Keeps w d n returns (fun _ _ => True) (loop test body limit) (loop test' body' limit') := by
  induction limit generalizing n limit' with
  | zero => exact .exhausted
  | succ limit ih =>
    obtain ⟨limit', rfl⟩ : ∃ k, limit' = k + 1 := ⟨limit' - 1, by omega⟩
    refine .bind (ht n) fun _ v _ => ?_
    split
    · refine .bind (hb _).iteration fun _ goOn _ => ?_
      split
      · exact ih (by omega)
      · exact .pure trivial
    · exact .pure trivial

/-- A return ends with the call. -/
theorem returning {act act' : Eval Unit} (ha : Keeps w d n returns (fun _ _ => True) act act') :
    Keeps w d n returns' d.Gives (returning act) (returning act') := by
  intro m hm hn
  have ham := ha m hm hn
  unfold Eval.returning
  cases heq : act m with
  | ok a m' =>
    rw [heq] at ham
    obtain ⟨hpasses, ⟨k, hnk, hk, _⟩, hact'⟩ := ham
    exact ⟨hpasses, ⟨k, hnk, hk, Value.meets_undefined⟩, by rw [hact']⟩
  | error signal m' =>
    rw [heq] at ham
    obtain ⟨⟨refused, hpasses, hreports⟩, ⟨hmeets, hleaves⟩, hact'⟩ := ham
    cases signal with
    | returned value =>
      cases refused with
      | none => exact ⟨hpasses, ⟨_, Nat.le_trans hn hpasses.grows.size, Nat.le_refl _, hmeets⟩, by rw [hact' nofun]⟩
      | some c => cases hreports
    | broke => cases hleaves
    | continued => cases hleaves
    | _ => exact ⟨⟨refused, hpasses, hreports⟩, ⟨hmeets, trivial⟩, fun hs => by rw [hact' hs]⟩

end Keeps

end Eval

end Hygiene
