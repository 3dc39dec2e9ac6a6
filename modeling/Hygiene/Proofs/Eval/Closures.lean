import Hygiene.Proofs.Eval.Balance
import Hygiene.Proofs.Eval.Variables

/-!
# What closures see

The body of a call has the frame of the call, those of its blocks, and those its closure was made in. The name of a
function that is not an arrow is in the frame of the call.
-/

namespace Hygiene

open List

namespace Machine

/-- The machine in which the body of a call is run. -/
def entered (w : World) (m : Machine) (c : Closure) (args : List Value) (site : Site) : Machine :=
  let (env, heap) := m.heap.push c.env
  { heap := (Evaluator.callBindings w c args).foldl (fun heap (name, value) => heap.define env name value) heap
    env, depth := m.depth + 1, trace := m.trace
    calls := { fn := c.fn, site, depth := m.depth, entered := true } :: m.calls }

/-- The body that has started in `start` has come to a machine. The list has the frames of the blocks that it is in. -/
inductive Inside (w : World) (start : Machine) : List FrameId → Machine → Prop
  | start : Inside w start [] start
  | expression {blocks m m' value} (limit : Nat) (e : Expression) : Inside w start blocks m →
      (evaluator w limit).expression e m = .ok value m' → Inside w start blocks m'
  | statement {blocks m m'} (limit : Nat) (s : Statement) : Inside w start blocks m →
      (evaluator w limit).statement s m = .ok () m' → Inside w start blocks m'
  | define {blocks m} (name : String) (value : Value) : Inside w start blocks m →
      Inside w start blocks { m with heap := m.heap.define m.env name value }
  | enter {blocks m} : Inside w start blocks m →
      Inside w start (m.heap.frames.size :: blocks) { m with heap := (m.heap.push m.env).2, env := (m.heap.push m.env).1 }
  | leave {block blocks m} : Inside w start (block :: blocks) m → Inside w start blocks { m with env := m.env.pop }

variable {w : World} {start m : Machine} {blocks : List FrameId} {ident : Token} {env : Environment}

/-- The environment is that of the start with the frames of the blocks, which are newer than the start. -/
structure InBlocks (start : Machine) (blocks : List FrameId) (m : Machine) : Prop where
  env : m.env = { start.env with inner := blocks ++ start.env.inner }
  grows : start.heap.Grows m.heap
  newer : ∀ id ∈ blocks, start.heap.frames.size ≤ id

theorem InBlocks.passes (h : InBlocks start blocks m) {m' : Machine} (hp : m.Passes w .any none m') :
    InBlocks start blocks m' :=
  ⟨hp.balanced.env.trans h.env, h.grows.trans hp.grows, h.newer⟩

section Calls

variable {c : Closure} {args : List Value} {site : Site} {m' : Machine}

theorem env_entered : (m.entered w c args site).env = { c.env with inner := m.heap.frames.size :: c.env.inner } := rfl

/-- The frames that the body sees: those of the call first. -/
theorem InBlocks.frames (h : InBlocks (m.entered w c args site) blocks m') :
    m'.env.frames = (Environment.mk m.heap.frames.size blocks).frames ++ c.env.frames := by
  rw [h.env, env_entered]
  simp [Environment.frames]

end Calls

end Machine

end Hygiene
