import Hygiene.Expand.Invoke

/-!
# Reading without transformers

`Parse.Reads` says that a reader succeeds on some tokens, whatever stands behind them, and takes exactly these: it
answers a value with a given property and changes nothing but the account of events.
-/

namespace Hygiene.Parse

variable {α β : Type} {t : Token} {ts us rest : List Token} {Q : α → Prop} {R : β → Prop} {p expected : String}

/-- In every run in which `tr` tells what tokens refer to, the reader takes `ts` before `rest` and answers a
value with the property. -/
def Reads (tr : Token → Option Transformer) (x : Parse α) (ts rest : List Token) (Q : α → Prop) : Prop :=
  ∀ (before : List Token) (run : Run), run.registry.lookup run.store = tr →
    ∃ a events, Q a ∧ x ⟨before, ts ++ rest⟩ run =
      .ok (a, ⟨ts.reverse ++ before, rest⟩) { run with events := events ++ run.events }

variable {tr : Token → Option Transformer} {x : Parse α} {f : α → Parse β}

namespace Reads

theorem bind (hx : Reads tr x ts (us ++ rest) Q) (hf : ∀ a, Q a → Reads tr (f a) us rest R) :
    Reads tr (x >>= f) (ts ++ us) rest R := by
  intro before run hrun
  obtain ⟨a, events, ha, hx⟩ := hx before run hrun
  obtain ⟨b, events', hb, hf⟩ := hf a ha (ts.reverse ++ before) { run with events := events ++ run.events } hrun
  refine ⟨b, events' ++ events, hb, ?_⟩
  rw [List.append_assoc]
  show EStateM.bind (x _) _ run = _
  rw [EStateM.bind, hx]
  dsimp only
  rw [hf]
  simp

/-- What comes first takes no tokens. -/
theorem look (hx : Reads tr x [] (ts ++ rest) Q) (hf : ∀ a, Q a → Reads tr (f a) ts rest R) :
    Reads tr (x >>= f) ts rest R := hx.bind hf

/-- What comes first takes one token. -/
theorem step (hx : Reads tr x [t] (ts ++ rest) Q) (hf : ∀ a, Q a → Reads tr (f a) ts rest R) :
    Reads tr (x >>= f) (t :: ts) rest R := hx.bind hf

/-- What comes first answers a known value. -/
theorem sees {a : α} (hx : Reads tr x [] (ts ++ rest) (· = a)) (hf : Reads tr (f a) ts rest R) :
    Reads tr (x >>= f) ts rest R := hx.look fun _ h => h ▸ hf

/-- What comes first takes one token and answers a known value. -/
theorem takes {a : α} (hx : Reads tr x [t] (ts ++ rest) (· = a)) (hf : Reads tr (f a) ts rest R) :
    Reads tr (x >>= f) (t :: ts) rest R := hx.step fun _ h => h ▸ hf

theorem pure {a : α} (ha : Q a) : Reads tr (pure a) [] rest Q := fun _ _ _ => ⟨a, [], ha, rfl⟩

/-- What comes last takes no tokens. -/
theorem last (hx : Reads tr x ts rest Q) (hf : ∀ a, Q a → Reads tr (f a) [] rest R) :
    Reads tr (x >>= f) ts rest R := by
  have h : Reads tr (x >>= f) (ts ++ []) rest R := hx.bind hf
  rwa [List.append_nil] at h

theorem mono {Q' : α → Prop} (hx : Reads tr x ts rest Q) (h : ∀ a, Q a → Q' a) :
    Reads tr x ts rest Q' := by
  intro before run hrun
  obtain ⟨a, events, ha, hx⟩ := hx before run hrun
  exact ⟨a, events, h a ha, hx⟩

/-- A reader that only looks at the stream. -/
theorem of_pure {a : α} (h : ∀ before, x ⟨before, rest⟩ = Pure.pure (a, ⟨before, rest⟩)) :
    Reads tr x [] rest (· = a) := by
  intro before run _
  refine ⟨a, [], rfl, ?_⟩
  rw [List.nil_append, h]
  rfl

/-- Expansions one after the other, as one reader. -/
theorem lift {y : Expand α} {g : α → Expand β} (hy : Reads tr (y : Expand α) [] rest Q)
    (hg : ∀ a, Q a → Reads tr (g a : Expand β) [] rest R) :
    Reads tr (y >>= g : Expand β) [] rest R := by
  have heq : (liftM (y >>= g : Expand β) : Parse β) = liftM y >>= fun a => liftM (g a) := by
    funext stream run
    show EStateM.bind (EStateM.bind y g) _ run = EStateM.bind (EStateM.bind y _) _ run
    simp only [EStateM.bind]
    cases y run <;> rfl
  show Reads tr (liftM (y >>= g : Expand β)) [] rest R
  rw [heq]
  exact hy.look hg

/-- Tokens that form a stream of their own are read to their end. -/
theorem on (hx : Reads tr x ts [] Q) :
    Reads tr (on ts x : Expand (α × Stream)) [] rest fun r => Q r.1 := by
  intro before run hrun
  obtain ⟨a, events, ha, hx⟩ := hx [] run hrun
  refine ⟨(a, ⟨ts.reverse ++ [], []⟩), events, ha, ?_⟩
  rw [List.append_nil] at hx
  show EStateM.bind (Parse.on ts x) _ run = _
  rw [EStateM.bind, Parse.on, hx]
  rfl

end Reads

theorem reads_peek : Reads tr peek [] rest (· = rest.head?) := .of_pure fun _ => rfl

theorem reads_atEnd : Reads tr atEnd [] rest (· = rest.isEmpty) := .of_pure fun _ => rfl

theorem reads_peekIs (test : Token → Bool) : Reads tr (peekIs test) [] rest (· = rest.head?.any test) :=
  .of_pure fun _ => rfl

theorem reads_peekNthIs (n : Nat) (test : Token → Bool) :
    Reads tr (peekNthIs n test) [] rest (· = rest[n]?.any test) := .of_pure fun _ => rfl

theorem reads_peekGroup (d : Delimiter) :
    Reads tr (peekGroup d) [] rest (· = rest.head?.any fun token => (token.group? d).isSome) :=
  .of_pure fun _ => rfl

theorem reads_run : Reads tr run [] rest fun run => run.registry.lookup run.store = tr :=
  fun _ run hrun => ⟨run, [], hrun, rfl⟩

theorem reads_advance : Reads tr advance [t] rest fun _ => True := fun _ _ _ => ⟨(), [], trivial, rfl⟩

theorem reads_record (event : Event) : Reads tr (Expand.record event : Expand Unit) [] rest fun _ => True :=
  fun _ _ _ => ⟨(), [event], trivial, rfl⟩

/-- A punctuator that is there is passed over. -/
theorem reads_eat (h : t.isPunct p = true) : Reads tr (eat p) [t] rest (· = true) := by
  refine .sees (reads_peekIs _) ?_
  simp only [List.cons_append, List.head?_cons, Option.any_some, h, if_true]
  exact .step reads_advance fun _ _ => .pure rfl

/-- A punctuator that is not there is left out. -/
theorem reads_eat_none (h : ∀ t ∈ rest.head?, t.isPunct p = false) :
    Reads tr (eat p) [] rest (· = false) := by
  refine .sees (reads_peekIs _) ?_
  have hany : ([] ++ rest).head?.any (fun t : Token => t.isPunct p) = false := by
    cases rest with
    | nil => rfl
    | cons t ts => exact h t rfl
  rw [hany]
  exact .pure rfl

theorem reads_expectPunct (h : t.isPunct p = true) : Reads tr (expectPunct p) [t] rest fun _ => True := by
  refine .takes (reads_eat h) ?_
  exact .pure trivial

theorem reads_next : Reads tr (next expected) [t] rest (· = t) := by
  refine .sees reads_peek ?_
  exact .step reads_advance fun _ _ => .pure rfl

theorem reads_expectIdent (h : t.isIdent = true) : Reads tr (expectIdent expected) [t] rest (· = t) := by
  refine .sees (reads_peekIs _) ?_
  simp only [List.cons_append, List.head?_cons, Option.any_some, h, if_true]
  exact reads_next

theorem reads_expectGroup {d : Delimiter} (h : t.group? d = some ts) :
    Reads tr (expectGroup d expected) [t] rest (· = (ts, t.site)) := by
  refine .sees reads_peek ?_
  simp only [List.cons_append, List.head?_cons, h]
  exact .step reads_advance fun _ _ => .pure rfl

/-- Where the token at the place refers to no transformer, none is invoked. -/
theorem reads_invokeAll (s : Setup) {limit : Nat} (hlimit : 0 < limit)
    (h : ∀ t ∈ rest.head?, t.isIdent = true → tr t = none) :
    Reads tr (invokeAll s limit) [] rest fun _ => True := by
  obtain ⟨limit, rfl⟩ : ∃ n, limit = n + 1 := Nat.exists_eq_succ_of_ne_zero (Nat.ne_of_gt hlimit)
  have hhere : Reads tr (invokeHere s) [] rest (· = false) := by
    refine .sees reads_peek ?_
    cases rest with
    | nil => exact .pure rfl
    | cons t ts =>
      refine .look reads_run fun run hrun => ?_
      have hnone : run.registry.lookup run.store t = none := by
        cases hident : t.ident? with
        | none => simp [Registry.lookup, Store.resolveIdent, hident]
        | some name => exact hrun ▸ h t rfl (by rw [Tree.isIdent, hident]; rfl)
      rw [hnone]
      exact .pure rfl
  refine .sees hhere ?_
  exact .pure trivial

end Hygiene.Parse
