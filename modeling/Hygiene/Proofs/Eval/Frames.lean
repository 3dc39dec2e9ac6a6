import Hygiene.Proofs.Eval.Variables

/-!
# Environments that share frames

Setting a variable in one environment is seen by exactly those in which the same frame holds it.
-/

namespace Hygiene

open List

theorem mem_eraseReps {α : Type} [BEq α] [LawfulBEq α] {a : α} {l : List α} : a ∈ l.eraseReps ↔ a ∈ l := by
  have hloop : ∀ (l : List α) (first : α) (done : List α),
      a ∈ List.eraseRepsBy.loop (· == ·) first l done ↔ a ∈ first :: l ∨ a ∈ done := by
    intro l
    induction l with
    | nil => simp [List.eraseRepsBy.loop, or_comm]
    | cons b l ih =>
      intro first done
      rw [List.eraseRepsBy.loop]
      by_cases hb : first = b
      · simp [hb, ih]
      · have hne : (first == b) = false := beq_eq_false_iff_ne.2 hb
        simp only [hne, ih, mem_cons]
        grind
  cases l with
  | nil => simp [List.eraseReps, List.eraseRepsBy]
  | cons b l => exact (hloop l b []).trans (by simp)

namespace Heap

variable {h : Heap} {env other : Environment} {id : FrameId} {name : String} {value : Value}

theorem contains_eq (h : Heap) (env : Environment) (name : String) : h.contains env name = (h.get? env name).isSome := by
  rw [isSome_get?, isSome_holder?]

theorem mem_names : name ∈ h.names env ↔ (h.get? env name).isSome = true := by
  have hkeys : ∀ entries : Frame, name ∈ Assoc.keys entries ↔ Assoc.contains name entries = true := by
    intro entries
    induction entries with
    | nil => simp [Assoc.keys, Assoc.contains, Assoc.get?]
    | cons entry entries ih =>
      simp only [Assoc.keys, Assoc.contains, Assoc.get?, map_cons, mem_cons] at ih ⊢
      by_cases hk : entry.1 = name
      · simp [hk]
      · simp [hk, Ne.symm hk, ih]
  rw [← contains_eq, names, mem_eraseReps, mem_mergeSort, mem_flatMap, contains, any_eq_true]
  simp only [hkeys]

/-- A variable that is set stays in the frames that hold it, so every environment finds each variable where it did. -/
theorem holder?_store_of_contains (hc : Assoc.contains name (h.frame id) = true) (value : Value) (other : Environment)
    (m : String) : (h.store id name value).holder? other m = h.holder? other m := by
  have hframe : ∀ id', Assoc.contains m ((h.store id name value).frame id') = Assoc.contains m (h.frame id') := by
    intro id'
    rw [frame_store (lt_of_contains hc)]
    split
    · next heq =>
      subst heq
      rw [Assoc.contains, Assoc.contains, Assoc.get?_insert]
      split
      · next hm => rw [← eq_of_beq hm, ← Assoc.contains, hc, Option.isSome_some]
      · rfl
    · rfl
  simp only [holder?, hframe]

/-- What every environment reads after a variable has been set in the frame that holds it. -/
theorem get?_store_of_contains (hc : Assoc.contains name (h.frame id) = true) (value : Value) (other : Environment)
    (m : String) : (h.store id name value).get? other m =
      if m = name ∧ h.holder? other name = some id then some value else h.get? other m := by
  rw [get?_eq_bind, holder?_store_of_contains hc, get?_eq_bind]
  by_cases hm : m = name
  · subst hm
    cases hholder : h.holder? other m with
    | none => simp
    | some id' =>
      rw [Option.bind_some, Option.bind_some, frame_store (lt_of_contains hc)]
      by_cases hid : id = id'
      · simp [hid, Assoc.get?_insert]
      · simp [hid, Ne.symm hid]
  · cases h.holder? other m with
    | none => simp [hm]
    | some id' =>
      rw [Option.bind_some, Option.bind_some, frame_store (lt_of_contains hc)]
      split <;> simp [Assoc.get?_insert, hm, Ne.symm hm]

/-- A new frame holds nothing. -/
theorem get?_push (env other : Environment) (m : String) : (h.push env).2.get? other m = h.get? other m := by
  have hframe : ∀ id, (h.push env).2.frame id = h.frame id := by
    intro id
    simp only [push, addFrame, frame, Array.getElem?_push]
    split
    · next hid => simp [hid]
    · rfl
  simp only [get?, hframe]

end Heap

/-- Environments over one heap. -/
structure SharedFrames where
  heap : Heap
  envs : List Environment

namespace SharedFrames

/-- What can be done in the environment with the given number. -/
inductive Action where
  | define (name : String) (value : Value)
  | defineBase (name : String) (value : Value)
  | set (name : String) (value : Value)
  | push
  | pop
  | capture

/-- What is done in an environment leads to a heap, to an environment in its place, and to new environments. -/
def Action.result (heap : Heap) (env : Environment) : Action → Heap × Environment × List Environment
  | define name value => (heap.define env name value, env, [])
  | defineBase name value => (heap.defineBase env name value, env, [])
  | set name value => ((heap.set? env name value).getD heap, env, [])
  | push => ((heap.push env).2, (heap.push env).1, [])
  | pop => (heap, env.pop, [])
  | capture => (heap, env, [env])

/-- The environments after an action in the one with the given number. -/
def act (s : SharedFrames) (step : Nat × Action) : SharedFrames :=
  match s.envs[step.1]? with
  | some env =>
    let (heap, env, more) := step.2.result s.heap env
    ⟨heap, s.envs.set step.1 env ++ more⟩
  | none => s

/-- One environment, with the global frame alone. -/
def start : SharedFrames := ⟨(Heap.newEnvironment {}).2, [(Heap.newEnvironment {}).1]⟩

/-- The environments after a sequence of actions. -/
def after (steps : List (Nat × Action)) : SharedFrames := steps.foldl act start

/-- The number of the global frame. -/
def globalFrame : FrameId := start.heap.frames.size - 1

variable {s : SharedFrames} {i j : Nat} {env : Environment}

/-- Every environment has the global frame outermost. -/
def Global (s : SharedFrames) : Prop := ∀ env ∈ s.envs, env.base = globalFrame

theorem base_result (heap : Heap) (env : Environment) (action : Action) :
    (action.result heap env).2.1.base = env.base ∧ ∀ other ∈ (action.result heap env).2.2, other = env := by
  cases action <;> simp [Action.result, Heap.push, Environment.pop]

theorem Global.act (hs : s.Global) (step : Nat × Action) : (s.act step).Global := by
  unfold SharedFrames.act
  split
  · next env hget =>
    have henv : env.base = globalFrame := hs env (mem_of_getElem? hget)
    obtain ⟨hbase, hmore⟩ := base_result s.heap env step.2
    intro other hother
    rcases mem_append.1 hother with hother | hother
    · rcases mem_or_eq_of_mem_set hother with hother | rfl
      · exact hs other hother
      · exact hbase.trans henv
    · rw [hmore other hother, henv]
  · exact hs

theorem global_after (steps : List (Nat × Action)) : (after steps).Global := by
  have hfold : ∀ {s : SharedFrames}, s.Global → (steps.foldl SharedFrames.act s).Global := by
    induction steps with
    | nil => exact id
    | cons step steps ih => exact fun hs => ih (hs.act step)
  refine hfold fun env henv => ?_
  rw [mem_singleton.1 henv]
  rfl

/-- Pushing or popping a frame in one environment leaves the others, and what they read. -/
theorem act_aside {action : Action} (ha : action = .push ∨ action = .pop) (hij : i ≠ j) (hj : s.envs[j]? = some env) :
    (s.act (i, action)).envs[j]? = some env ∧ ∀ name, (s.act (i, action)).heap.get? env name = s.heap.get? env name := by
  unfold act
  split
  · next env' _ =>
    have hset : ∀ new, (s.envs.set i new ++ [])[j]? = some env := by simp [List.getElem?_set_ne hij, hj]
    rcases ha with rfl | rfl
    · exact ⟨hset _, fun name => Heap.get?_push env' env name⟩
    · exact ⟨hset _, fun _ => rfl⟩
  · exact ⟨hj, fun _ => rfl⟩

theorem foldl_act_aside {actions : List Action} (ha : ∀ a ∈ actions, a = .push ∨ a = .pop) (hij : i ≠ j)
    (hj : s.envs[j]? = some env) : ((actions.map (i, ·)).foldl act s).envs[j]? = some env ∧
      ∀ name, ((actions.map (i, ·)).foldl act s).heap.get? env name = s.heap.get? env name := by
  induction actions generalizing s with
  | nil => exact ⟨hj, fun _ => rfl⟩
  | cons a actions ih =>
    obtain ⟨hfirst, hrest⟩ := forall_mem_cons.1 ha
    obtain ⟨henv, hget⟩ := act_aside hfirst hij hj
    obtain ⟨henv', hget'⟩ := ih hrest henv
    exact ⟨henv', fun name => (hget' name).trans (hget name)⟩

/-- Environments that share frames behave as one store. The three ways to ask whether a variable is defined agree;
setting one succeeds if it is defined, and changes what is read for that name where the same frame holds it, and nothing
else; pushes and pops in one environment are not seen by another; and none has lost the global frame. -/
theorem frames_shared (steps : List (Nat × Action)) :
    let s := after steps
    (∀ env ∈ s.envs, env.frames.getLast? = some globalFrame ∧ ∀ name,
      s.heap.contains env name = (s.heap.get? env name).isSome ∧
      (name ∈ s.heap.names env ↔ (s.heap.get? env name).isSome = true)) ∧
    (∀ i env name value, s.envs[i]? = some env →
      (s.heap.set? env name value).isSome = (s.heap.get? env name).isSome ∧
      (s.act (i, .set name value)).envs = s.envs ∧
      ∀ other ∈ s.envs, ∀ m, (s.act (i, .set name value)).heap.get? other m =
        if m = name ∧ ∃ id, s.heap.holder? env name = some id ∧ s.heap.holder? other name = some id then some value
        else s.heap.get? other m) ∧
    ∀ i j env (actions : List Action), i ≠ j → s.envs[j]? = some env → (∀ a ∈ actions, a = .push ∨ a = .pop) →
      ((actions.map (i, ·)).foldl act s).envs[j]? = some env ∧
      ∀ name, ((actions.map (i, ·)).foldl act s).heap.get? env name = s.heap.get? env name := by
  intro s
  refine ⟨fun env henv => ⟨?_, fun name => ⟨s.heap.contains_eq env name, Heap.mem_names⟩⟩, ?_,
    fun i j env actions hij hj ha => foldl_act_aside ha hij hj⟩
  · rw [Environment.frames, List.getLast?_concat, global_after steps env henv]
  · intro i env name value hi
    have hact : s.act (i, .set name value) = ⟨(s.heap.set? env name value).getD s.heap, s.envs⟩ := by
      obtain ⟨hlt, hget⟩ := List.getElem?_eq_some_iff.1 hi
      simp only [act, hi, Action.result, append_nil, ← hget, set_getElem_self]
    rw [hact, Heap.isSome_get?, Heap.set?]
    cases hholder : s.heap.holder? env name with
    | none => simp
    | some id =>
      refine ⟨rfl, rfl, fun other _ m => ?_⟩
      simp [Heap.get?_store_of_contains (Heap.contains_of_holder? hholder)]

/-- A captured environment, and one that has pushed a frame since. -/
theorem frames_shared_captured :
    let s := after [(0, .define "x" .undefined), (0, .capture), (0, .push)]
    ∃ env other, s.envs[0]? = some env ∧ s.envs[1]? = some other ∧ env ≠ other ∧
      (s.act (0, .set "x" (.bool true))).heap.get? other "x" = some (.bool true) ∧
      (([Action.pop, .push].map (0, ·)).foldl act s).heap.get? other "x" = s.heap.get? other "x" := by
  intro s
  obtain ⟨_, hset, haside⟩ := frames_shared [(0, .define "x" .undefined), (0, .capture), (0, .push)]
  refine ⟨⟨0, [1]⟩, ⟨0, []⟩, rfl, rfl, by decide, ?_, ?_⟩
  · rw [(hset 0 ⟨0, [1]⟩ "x" (.bool true) rfl).2.2 ⟨0, []⟩ (by decide) "x", if_pos ⟨rfl, 0, rfl, rfl⟩]
  · exact (haside 0 1 ⟨0, []⟩ [.pop, .push] (by decide) rfl (by simp)).2 "x"

end SharedFrames

end Hygiene
