import Hygiene.Proofs.Eval.Demand

/-!
# What evaluations do to machines

A block runs in a new frame, and a call in the frames of its closure and one level deeper. However it ends, the
environment and the depth of the caller come back. A return ends with the call, so it leaves only statements with a
return statement outside of their functions. No variable ever goes from a frame.
-/

namespace Hygiene

/-- The signal by which a call is refused. -/
def ClosureCall.refusal (w : World) (c : ClosureCall) : Signal :=
  .fault (.recursionLimit c.fn.displayName (c.depth + 1) w.maxCallDepth) c.site

namespace Signal

/-- Whether the signal says that calls were nested too deep. -/
def isRefusal : Signal → Bool
  | fault (.recursionLimit _ _ _) _ => true
  | _ => false

/-- The signal is the refusal of the call, if there is one, and no refusal otherwise. -/
def Reports (w : World) (signal : Signal) : Option ClosureCall → Prop
  | some c => signal = c.refusal w
  | none => signal.isRefusal = false

/-- The signal is no break and no continue, and a return only if there may be one. -/
def Leaves (returns : Prop) : Signal → Prop
  | returned _ => returns
  | broke => False
  | continued => False
  | _ => True

end Signal

/-- The statement has a return statement that is not in a function. -/
inductive Statement.Returns : Statement → Prop
  | here (value : Option Expression) (site : Site) : Returns (.return value site)
  | consequent {test consequent alternate site} : Returns consequent → Returns (.branch test consequent alternate site)
  | alternate {test consequent alternate site} : Returns alternate → Returns (.branch test consequent (some alternate) site)
  | loop {test inner site} : Returns inner → Returns (.loop test inner site)
  | block {list statement site} : statement ∈ list → Returns statement → Returns (.block list site)

/-- One of the statements has a return statement that is not in a function. -/
def Statement.SomeReturns (list : List Statement) : Prop := ∃ s ∈ list, s.Returns

namespace Machine

/-- From `m` an evaluation came to `m'`: the environment and the depth are the same again, and the calls made meanwhile
were below the limit, but for the last one, which may have been refused. -/
structure Balanced (w : World) (m : Machine) (refused : Option ClosureCall) (m' : Machine) : Prop where
  env : m'.env = m.env
  depth : m'.depth = m.depth
  calls : ∃ entered, m'.calls = refused.toList ++ entered ++ m.calls ∧
    ∀ c ∈ entered, c.entered = true ∧ c.depth < w.maxCallDepth
  refused : ∀ c ∈ refused, c.entered = false ∧ w.maxCallDepth ≤ c.depth ∧
    (m.depth ≤ w.maxCallDepth → c.depth = w.maxCallDepth)

/-- The evaluation started from `m`, is balanced, and has ended with a refusal exactly if its last call was refused. -/
def Ends {α : Type} (w : World) (m : Machine) : EStateM.Result Signal Machine α → Prop
  | .ok _ m' => m.Balanced w none m'
  | .error signal m' => ∃ refused, m.Balanced w refused m' ∧ signal.Reports w refused

variable {w : World} {m m₁ m' : Machine} {refused : Option ClosureCall}

/-- The frames, the cursors and the trace may have changed. -/
theorem Balanced.of_eq (henv : m'.env = m.env) (hdepth : m'.depth = m.depth) (hcalls : m'.calls = m.calls) :
    m.Balanced w none m' := ⟨henv, hdepth, ⟨[], hcalls, nofun⟩, nofun⟩

theorem Balanced.trans (h : m.Balanced w none m₁) (h' : m₁.Balanced w refused m') : m.Balanced w refused m' where
  env := h'.env.trans h.env
  depth := h'.depth.trans h.depth
  calls := by
    obtain ⟨first, hfirst, hentered⟩ := h.calls
    obtain ⟨second, hsecond, hentered'⟩ := h'.calls
    refine ⟨second ++ first, by simp [hsecond, hfirst], fun c hc => ?_⟩
    exact (List.mem_append.1 hc).elim (hentered' c) (hentered c)
  refused c hc := by
    rw [← h.depth]
    exact h'.refused c hc

end Machine

/-! ### Frames -/

namespace Heap

/-- Every frame is still there, and every variable is still in its frame, maybe with another value. -/
structure Grows (h h' : Heap) : Prop where
  size : h.frames.size ≤ h'.frames.size
  contains : ∀ id name, Assoc.contains name (h.frame id) = true → Assoc.contains name (h'.frame id) = true

variable {h h₁ h₂ : Heap}

theorem Grows.of_frames (hf : h₁.frames = h.frames) : h.Grows h₁ := by
  refine ⟨Nat.le_of_eq (by rw [hf]), fun id name hn => ?_⟩
  rwa [frame, hf]

theorem Grows.rfl : h.Grows h := .of_frames (Eq.refl _)

theorem Grows.trans (h₁₂ : h.Grows h₁) (h₂₃ : h₁.Grows h₂) : h.Grows h₂ :=
  ⟨Nat.le_trans h₁₂.size h₂₃.size, fun id name hn => h₂₃.contains id name (h₁₂.contains id name hn)⟩

theorem frame_addFrame (h : Heap) (id : FrameId) : h.addFrame.2.frame id = h.frame id := by
  simp only [frame, addFrame, Array.getElem?_push]
  split
  · next heq => simp [heq]
  · rfl

theorem grows_push (h : Heap) (env : Environment) : h.Grows (h.push env).2 := by
  refine ⟨by simp [push, addFrame], fun id name hn => ?_⟩
  have hframe : (h.push env).2.frame id = h.frame id := frame_addFrame h id
  rwa [hframe]

theorem grows_store (h : Heap) (id : FrameId) (name : String) (value : Value) : h.Grows (h.store id name value) := by
  refine ⟨by simp [store], fun id' name' hn => ?_⟩
  simp only [frame, store, Array.getElem?_modify] at hn ⊢
  split
  · next heq =>
    subst heq
    cases hframe : h.frames[id]? with
    | none => simpa [hframe] using hn
    | some entries =>
      rw [hframe] at hn
      by_cases hname : name = name'
      · simp [Assoc.contains, Assoc.get?_insert, hname]
      · simpa [Assoc.contains, Assoc.get?_insert, hname] using hn
  · exact hn

end Heap

end Hygiene
