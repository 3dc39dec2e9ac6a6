import Hygiene.Proofs.Expand.Meanings
import Hygiene.Proofs.Lexical.Lex

/-!
# What leaves regions as they are

Running code changes values and reports but no bindings, scopes or modules. No transformer is lost, so in a run which
has none in the end nothing was invoked. The declaration of a transformer leaves one.
-/

namespace Hygiene

namespace Expand

variable {α : Type}

theorem still_record (event : Event) : Still (record event) := Still.modify (fun _ => rfl) fun _ => rfl

theorem still_note (message : String) : Still (note message) := Still.modify (fun _ => rfl) fun _ => rfl

theorem still_freshLambda : Still freshLambda := by
  intro run a run' h
  cases h
  exact ⟨rfl, rfl⟩

/-- Running code leaves regions alone. -/
theorem Still.executes {phase : Option Phase} {x : Expand α} (hx : Executes phase x) : Still x := by
  intro run a run' h
  rw [(hx.of_ok h).same]
  exact ⟨rfl, rfl⟩

end Expand

/-! ### Transformers are not lost -/

/-- The change by which no transformer is lost. -/
abbrev Change.keeping : Change where
  Rel run run' := run'.Plain → run.Plain
  refl _ plain := plain
  trans h h' plain := h (h' plain)

theorem Change.keeping_inert : keeping.Covers .inert where
  rel h plain b hb := plain b (h.bindings.subset hb)

theorem Change.keeping_ofReading : keeping.OfReading where
  inert := keeping_inert
  code.rel h plain := by
    rw [h.same] at plain
    exact plain
  opening _ _ plain := plain
  closing _ _ _ plain := plain

/-- Reading loses no transformer. -/
def keepingLaw (s : Setup) : Law s s :=
  Change.law Change.keeping_ofReading s (fun _ => True) fun _ _ _ _ _ _ _ plain => plain

/-- Without transformers nothing is invoked. -/
theorem Parse.invokeHere_of_plain (s : Setup) {stream : Stream} {run run' : Run} {r : Bool × Stream}
    (h : invokeHere s stream run = .ok r run') (plain : run'.Plain) : r = (false, stream) ∧ run' = run := by
  have hplain : run.Plain := (makes_invokeHere Change.keeping_ofReading s stream).of_ok h plain
  have hnone : (stream.after.head?.bind fun name => (run.registry.lookup run.store name).map (name, ·)) = none := by
    refine Option.bind_eq_none_iff.2 fun name _ => ?_
    rw [Option.map_eq_none_iff, Option.eq_none_iff_forall_ne_some]
    intro t hlookup
    obtain ⟨b, hb, hmeaning⟩ := Option.bind_eq_some_iff.1 hlookup
    obtain ⟨_, _, hres⟩ := Option.bind_eq_some_iff.1 hb
    rw [hplain b (Store.resolve_visible hres).1] at hmeaning
    cases hmeaning
  rw [invokeHere_eq, hnone] at h
  cases h
  exact ⟨rfl, rfl⟩

/-! ### Declarations leave transformers -/

namespace Expand

variable {α β : Type} {x : Expand α} {f : α → Expand β}

/-- An expansion that succeeds leaves a transformer. -/
def Bars (x : Expand α) : Prop := ∀ run a run', x run = .ok a run' → ¬ run'.Plain

/-- A transformer that was left stays. -/
theorem Bars.bind (hx : Bars x) (hf : ∀ a, Makes .keeping (f a)) : Bars (x >>= f) := by
  intro run b run₂ h plain
  obtain ⟨a, run₁, h₁, h₂⟩ := bind_eq_ok h
  exact hx run a run₁ h₁ ((hf a).of_ok h₂ plain)

theorem Bars.of_rest (hf : ∀ a, Bars (f a)) : Bars (x >>= f) := by
  intro run b run₂ h
  obtain ⟨a, run₁, _, h₂⟩ := bind_eq_ok h
  exact hf a run₁ b run₂ h₂

theorem bars_bind_transformer (ident : Token) (rename : Bool) : Bars (Expand.bind ident .transformer rename) := by
  intro run id run' h plain
  rw [bind_eq] at h
  cases h
  have := plain (newBinding run ident .transformer rename) (by simp [afterBind])
  cases this

/-- Binding a hidden name leaves a transformer. -/
theorem bars_bindHidden (binding : Token) : Bars (bindHidden binding) := by
  intro run id run' h plain
  rw [bindHidden_eq] at h
  cases h
  have := plain _ (List.mem_of_getElem? (getElem?_afterHidden run binding))
  cases this

theorem makes_keeping_settle (s : Setup) (home : Home) (binding : Token) (early : Option BindingId) (init : Expression) :
    Makes .keeping (settle s home binding early init) :=
  makes_settle Change.keeping_inert Change.keeping_ofReading.code s (fun _ _ _ _ plain => plain) binding early init

/-- A transformer that was not bound before is bound when its meaning is settled. -/
theorem bars_settle (s : Setup) (home : Home) (binding : Token) (init : Expression) :
    Bars (settle s home binding none init) := by
  refine Bars.of_rest fun value => Bars.bind (bars_bindHidden binding) fun r => ?_
  exact .modify fun _ plain => plain

end Expand

namespace Parse

variable {α β : Type} {x : Parse α} {f : α → Parse β}

/-- Reading that succeeds leaves a transformer. -/
def Bars (x : Parse α) : Prop := ∀ stream, Expand.Bars (x stream)

theorem Bars.bind (hx : Bars x) (hf : ∀ a, Makes .keeping (f a)) : Bars (x >>= f) :=
  fun stream => Expand.Bars.bind (hx stream) fun r => hf r.1 r.2

theorem Bars.of_rest (hf : ∀ a, Bars (f a)) : Bars (x >>= f) := fun _ => Expand.Bars.of_rest fun r => hf r.1 r.2

theorem Bars.lift {x : Expand α} (hx : Expand.Bars x) : Bars (liftM x : Parse α) :=
  fun _ => Expand.Bars.bind hx fun _ => .pure

/-- A transformer is bound before its initializer is read, or after it. -/
theorem bars_declared (s : Setup) (home : Home) (binding : Token) {x : Parse Expression} (hx : Makes .keeping x)
    (recursive : Bool) : Bars (declared s home binding recursive x) := by
  cases recursive with
  | true =>
    have hearly : Expand.Bars (Expand.bindEarly binding true) := by
      refine .bind (Expand.bars_bind_transformer binding true) fun _ => .pure
    refine Bars.bind (.lift hearly) fun early => ?_
    refine .bind hx fun init => .bind (.lift (Expand.makes_keeping_settle s home binding early init)) fun _ => .pure
  | false =>
    have hrest : Bars (x >>= fun init => (Expand.settle s home binding none init : Parse Unit) >>= fun _ => pure init) :=
      Bars.of_rest fun init => Bars.bind (Bars.lift (Expand.bars_settle s home binding init)) fun _ => .pure
    exact hrest

/-- So does declaring a transformer. -/
theorem bars_transformerDeclarator {s : Setup} {p : Passes} (hp : (keepingLaw s).Ties p p) (home : Home)
    (kind : DeclarationKind) (binding : Token) : Bars (transformerDeclarator s home p kind binding) := by
  rw [transformerDeclarator_eq]
  refine Bars.of_rest fun _ => Bars.of_rest fun run => ?_
  refine Bars.bind (bars_declared s home binding (Law.initializer hp binding run.store.count) _) fun init => ?_
  exact .bind (.mono Change.keeping_inert inert_previousSite) fun _ => .pure

end Parse

end Hygiene
