import Hygiene.Proofs.Expand.ModuleLaw

/-!
# Laws about changes of a run

A change that covers what reading terms, invoking transformers and giving them a meaning do is a law of reading, and one
that covers what happens about modules as well a law of whole modules.
-/

namespace Hygiene

namespace Change

/-- The change covers what happens where terms are read, but for giving a meaning to a transformer. -/
structure OfReading (c : Change) : Prop where
  inert : c.Covers .inert
  code : c.Covers (.executes none)
  limit (n : Nat) : c.Fault (.expansionLimit n) := by exact fun _ => trivial
  opening {run : Run} {id : BindingId} {t : Transformer} (stream : Stream) : (id, t) ∈ run.registry.transformers →
    c.Rel run (run.opening (run.nextCall t stream))
  closing (run : Run) (inv : Invocation) (site : Site) : c.Rel run (run.closing inv site)

/-- The change covers that a transformer with the property becomes the meaning of a binding. -/
def Defines (c : Change) (P : Run → Transformer → Prop) : Prop := ∀ (run : Run) (id : BindingId) (t : Transformer),
  P run t → c.Rel run { run with registry := run.registry.define id t }

/-- The change covers that a value becomes the meaning of a binding. -/
def DefinesValues (c : Change) : Prop := ∀ (run : Run) (id : BindingId) (value : Value),
  c.Rel run { run with registry := run.registry.defineValue id value }

/-- The change covers that something is taken down about modules. -/
def Notes (c : Change) : Prop := ∀ (run : Run) (sources : Sources) (log asked : List String)
  (requests : List ImportRequest), run.requests <:+ requests → c.Rel run { run with sources, log, asked, requests }

end Change

variable {α : Type} {c : Change}

namespace Expand

theorem Makes.noted (hc : c.Notes) {x : Expand α} (hx : Noted x) : Makes c x := by
  intro run
  obtain ⟨a, run', heq, hsame, hrequests⟩ := hx run
  refine .of_ok heq ?_
  rw [hsame]
  exact hc run _ _ _ _ hrequests

/-- The output of a module tells the count and the origins, which are taken out of the run with the reports. -/
theorem exists_finish (s : Setup) (record : ModuleRecord) (run : Run) : ∃ expansion log,
    finish s record run = .ok expansion { run with log, origins := [], diagnostics := [] } ∧
      expansion.expansions = run.expansions ∧ expansion.origins = run.origins.reverse :=
  ⟨_, _, rfl, rfl, rfl⟩

/-- A change does not depend on what is told in the end. -/
theorem makes_finish (hc : ∀ (run : Run) (log : List String), c.Rel run { run with log, origins := [], diagnostics := [] })
    (s : Setup) (record : ModuleRecord) : Makes c (finish s record) :=
  fun run => hc run _

/-- A change that does not depend on the stack of modules is made while one more module is on it. -/
theorem Makes.whileLoading {c' : Change} {x : Expand α} (hx : Makes c' x) (specifier : String)
    (hrel : ∀ run run' : Run, c'.Rel { run with loading := specifier :: run.loading } run' →
      c.Rel run { run' with loading := run'.loading.tail })
    (hfault : ∀ fault, c'.Fault fault → c.Fault fault := by exact fun _ h => h) : Makes c (whileLoading specifier x) :=
  fun run => .whileLoading ((hx _).imp (fun _ run' => hrel run run') fun _ run' h => ⟨hrel run run' h.1, hfault _ h.2⟩)

theorem makes_settle (hi : c.Covers .inert) (he : c.Covers (.executes none)) (s : Setup) {home : Home}
    (hd : c.Defines fun _ t => t.module = home.specifier) (binding : Token) (early : Option BindingId)
    (init : Expression) : Makes c (settle s home binding early init) := by
  refine .bind (.mono he (executes_transformerValue s _ _ _)) fun value => ?_
  cases early with
  | some id => exact .modify fun run => hd run _ _ rfl
  | none => exact .bind (.mono hi (inert_bindHidden binding)) fun _ => .modify fun run => hd run _ _ rfl

/-- An import passes transformers on as they are. -/
theorem makes_bindImport (hi : c.Covers .inert) (he : c.Covers (.executes (some .compileTime)))
    (hd : c.Defines fun run t => ∃ id, (id, t) ∈ run.registry.transformers) (hv : c.DefinesValues) (s : Setup)
    (record : ModuleRecord) (imported : Import) (wanted : String × Token × Site) :
    Makes c (bindImport s record imported wanted) := by
  obtain ⟨name, binding, site⟩ := wanted
  unfold bindImport
  dsimp only
  split
  · exact .mono hi (.fail rfl)
  · next exported _ =>
    refine .bind (.mono hi (inert_bind _ _ _)) fun id run => .get_bind ?_
    split
    · next ht => exact hd run id _ (Assoc.exists_mem_of_get? ht)
    · exact c.refl run
  · refine .ite ?_ (.discard (.mono hi (inert_bind _ _ _)))
    refine .bind .get fun run => .bind (.mono he (executes_instantiate s _ _ _)) fun values => ?_
    exact .bind (.mono hi (inert_bind _ _ _)) fun id => .modify fun run => hv run id _

end Expand

theorem Parse.makes_invokeHere (hc : c.OfReading) (s : Setup) (stream : Stream) :
    Expand.Makes c (invokeHere s stream) := by
  refine fun run => yields_invokeHere s (c.refl run) (fun _ _ => ⟨c.refl run, hc.limit _⟩) fun name id t ht => ?_
  have hopening := hc.opening stream ht
  refine (Expand.Makes.mono hc.code (Expand.executes_callTransformer s t name _) _).imp (fun r run' hcall => ?_) ?_
  · exact c.trans hopening (c.trans hcall (hc.closing run' _ _))
  · exact fun _ _ hcall => ⟨c.trans hopening hcall.1, hcall.2⟩

namespace Change

/-- A change that covers what happens where terms are read is a law of reading, for the modules in which it covers
declarations of transformers. -/
def law (hc : c.OfReading) (s : Setup) (Covers : Home → Prop)
    (hd : ∀ home, Covers home → home.dialect = .sweet → c.Defines fun _ t => t.module = home.specifier) : Law s s where
  Covers := Covers
  Rel x _ := Expand.Makes c x
  bind_rel hx hf := hx.bind_mayGive fun a ha => hf a (Or.inl ha)
  inert := .mono hc.inert
  exhausted := .exhausted (hc.code.fault ⟨rfl, rfl⟩)
  invokeHere := Parse.makes_invokeHere hc s
  declared {home} covers sweet binding recursive _ _ hx h := Parse.declared_of_settle s s (fun x _ => Expand.Makes c x)
    (fun hx hf => hx.bind_mayGive fun a ha => hf a (Or.inl ha)) (.mono hc.inert)
    (fun early init _ => Expand.makes_settle hc.inert hc.code s (hd home covers sweet) binding early init) recursive hx h

end Change

end Hygiene
