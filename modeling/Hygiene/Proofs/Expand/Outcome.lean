import Hygiene.Expand.Stream

/-!
# How computations end

A computation ends with a result or an error, and with a run in both cases.
-/

namespace Hygiene

namespace ExpandFault

/-- The modules of a circular import. -/
def cycle? : ExpandFault → Option (List String)
  | circularImport chain => some chain
  | _ => none

/-- The number of invocations that were allowed, when one more was asked for. -/
def limit? : ExpandFault → Option Nat
  | expansionLimit limit => some limit
  | _ => none

/-- How code that was run ended, when that is what went wrong. -/
def signal? : ExpandFault → Option Signal
  | declaration _ (.evaluation signal) => some signal
  | invocation _ (.evaluation signal) => some signal
  | evaluation signal => some signal
  | _ => none

/-- Whether the steps were used up. -/
def isExhausted : ExpandFault → Bool
  | exhausted => true
  | _ => false

/-- Whether the fault has a plain cause: neither code that was run, nor a circular import, nor the invocations
allowed, nor the steps. -/
def isPlain (fault : ExpandFault) : Bool :=
  fault.cycle?.isNone && fault.limit?.isNone && fault.signal?.isNone && !fault.isExhausted

variable {fault : ExpandFault}

theorem cycle?_of_isPlain (h : fault.isPlain = true) : fault.cycle? = none := by
  simp only [isPlain, Bool.and_eq_true, Option.isNone_iff_eq_none] at h
  exact h.1.1.1

theorem limit?_of_isPlain (h : fault.isPlain = true) : fault.limit? = none := by
  simp only [isPlain, Bool.and_eq_true, Option.isNone_iff_eq_none] at h
  exact h.1.1.2

theorem signal?_of_isPlain (h : fault.isPlain = true) : fault.signal? = none := by
  simp only [isPlain, Bool.and_eq_true, Option.isNone_iff_eq_none] at h
  exact h.1.2

end ExpandFault

namespace Event

/-- Whether a transformer was called or has given syntax. -/
def isCall : Event → Bool
  | called _ => true
  | invoked _ => true
  | _ => false

/-- Whether code was run. -/
def isRan : Event → Bool
  | ran _ => true
  | _ => false

end Event

/-- The run in which a computation ends. -/
def finalRun {ε α : Type} : EStateM.Result ε Run α → Run
  | .ok _ run => run
  | .error _ run => run

/-- Whether a computation succeeds, and its result and the run pass a test. -/
def succeeds {ε α : Type} (result : EStateM.Result ε Run α) (test : α → Run → Bool) : Bool :=
  match result with
  | .ok a run => test a run
  | .error _ _ => false

theorem exists_of_succeeds {ε α : Type} (result : EStateM.Result ε Run α) (test : α → Run → Bool)
    (h : succeeds result test = true) : ∃ a run, result = .ok a run ∧ test a run = true := by
  cases result with
  | ok a run => exact ⟨a, run, rfl, h⟩
  | error e run => cases h

namespace Expand

variable {α β : Type} {P : α → Prop} {P' : β → Prop} {x : Expand α}

/-- A composed expansion that succeeds has a first part that succeeds. -/
theorem bind_eq_ok {f : α → Expand β} {run run'' : Run} {b : β}
    (h : (x >>= f) run = .ok b run'') : ∃ a run', x run = .ok a run' ∧ f a run' = .ok b run'' := by
  simp only [Bind.bind, EStateM.bind] at h
  cases hx : x run with
  | ok a run' =>
    rw [hx] at h
    exact ⟨a, run', rfl, h⟩
  | error e run' =>
    rw [hx] at h
    cases h

/-- An expansion that succeeds has a result with the property. -/
def Gives (x : Expand α) (P : α → Prop) : Prop := ∀ run a run', x run = .ok a run' → P a

theorem Gives.pure {a : α} (h : P a) : Gives (Pure.pure a) P := by
  intro run b run' hb
  cases hb
  exact h

theorem Gives.any (x : Expand α) : Gives x fun _ => True := fun _ _ _ _ => trivial

theorem Gives.bind {f : α → Expand β} (hx : Gives x P) (hf : ∀ a, P a → Gives (f a) P') : Gives (x >>= f) P' := by
  intro run b run₂ h
  obtain ⟨a, run₁, h₁, h₂⟩ := bind_eq_ok h
  exact hf a (hx run a run₁ h₁) run₁ b run₂ h₂

/-- The result is one that the computation can have. -/
def MayGive (x : Expand α) (a : α) : Prop := ∃ run run', x run = .ok a run'

theorem Gives.mayGive (h : Gives x P) {a : α} (ha : x.MayGive a) : P a := by
  obtain ⟨run, run', heq⟩ := ha
  exact h run a run' heq

end Expand

namespace Parse

variable {α β : Type}

/-- A composed reading that succeeds has a first part that succeeds. -/
theorem bind_eq_ok {x : Parse α} {f : α → Parse β} {stream : Stream} {run run'' : Run} {r : β × Stream}
    (h : (x >>= f) stream run = .ok r run'') :
    ∃ a stream' run', x stream run = .ok (a, stream') run' ∧ f a stream' run' = .ok r run'' := by
  obtain ⟨⟨a, stream'⟩, run', hx, hf⟩ := Expand.bind_eq_ok h
  exact ⟨a, stream', run', hx, hf⟩

end Parse

end Hygiene
