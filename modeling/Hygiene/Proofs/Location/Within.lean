import Hygiene.Proofs.Expand.Conduct
import Hygiene.Proofs.Location.Terms

/-!
# Runs whose sites are within the texts

Tokens, terms, the code of closures and transformers have sites. All that a run holds are within the registered texts,
so what is reported about them is located there. `Expand.Located` says that a computation which registers no text keeps
it so, also when it fails, and what is known of its result.
-/

namespace Hygiene

variable {sources : Sources}

/-- The tokens of the stream are within the texts. -/
structure Stream.Within (sources : Sources) (s : Stream) : Prop where
  before : ∀ t ∈ s.before, t.Within sources
  after : ∀ t ∈ s.after, t.Within sources

theorem Stream.Within.advance {s : Stream} (h : s.Within sources) : s.advance.Within sources := by
  unfold Stream.advance
  split
  · next token rest heq =>
    obtain ⟨htoken, hrest⟩ := List.forall_mem_cons.1 (heq ▸ h.after)
    exact ⟨List.forall_mem_cons.2 ⟨htoken, h.before⟩, hrest⟩
  · exact h

/-! ### Runs -/

/-- All sites in the module are within the texts, and its own text is one of them. -/
structure ModuleRecord.Within (sources : Sources) (r : ModuleRecord) : Prop where
  items : ∀ item ∈ r.items, item.Within sources
  file : (sources.text? r.file).isSome = true

/-- The places of the invocation are within the texts. -/
def Origin.Within (sources : Sources) (o : Origin) : Prop :=
  ∀ l, o.callSite = some l ∨ o.definitionSite = some l → l.Within sources

/-- The places that the diagnostic is about are within the texts. -/
def Diagnostic.Within (sources : Sources) (d : Diagnostic) : Prop :=
  ∀ l, d.location = some l ∨ (∃ label ∈ d.labels, label.location = some l) → l.Within sources

/-- The place of the error is within the texts. -/
def ExpandError.Within (sources : Sources) (e : ExpandError) : Prop := ∀ l, e.location = some l → l.Within sources

/-- The registered texts are these, and all sites and locations that the run holds are within them. -/
structure Run.Within (sources : Sources) (run : Run) : Prop where
  sources_eq : run.sources = sources
  heap : run.heap.Meets (.within sources)
  values : ∀ entry ∈ run.registry.values, entry.2.Meets (.within sources)
  transformers : ∀ entry ∈ run.registry.transformers,
    entry.2.value.Meets (.within sources) ∧ entry.2.site.Within sources
  instances : ∀ entry ∈ run.instances, ∀ field ∈ entry.2, field.2.Meets (.within sources)
  modules : ∀ entry ∈ run.modules, entry.2.Within sources
  origins : ∀ o ∈ run.origins, o.Within sources
  diagnostics : ∀ d ∈ run.diagnostics, d.Within sources

/-- Code whose sites are within the texts is run, gives values that are, and its faults are at sites within the texts. -/
def Conduct.within (sources : Sources) : Conduct where
  demand := .within sources
  frames := rfl
  literals := Demand.literals_within
  unknown := Site.within_unknown
  Holds := Run.Within sources
  Fails e run := run.Within sources ∧ e.Within sources
  heap h := h.heap
  values h := h.values
  setHeap h heap := { h with heap }
  report _ _ h hs := { h with diagnostics := List.forall_mem_cons.2 ⟨
    fun | _, .inl hl => hs.locateSite (h.sources_eq ▸ hl), h.diagnostics⟩ }
  fail h _ hlocation := ⟨h, fun l hl => have ⟨_, hs, heq⟩ := hlocation l hl; hs.locateSite (h.sources_eq ▸ heq)⟩

/-- Code within the texts may be recorded. -/
theorem Conduct.within_records : (within sources).Records := fun h _ => { h with }

namespace Expand

variable {α β : Type} {P : α → Prop} {Q : β → Prop}

/-- Started in a run that is within the texts, the computation leaves one, and `P` holds of its result or its error is
within the texts. -/
abbrev Located (sources : Sources) (x : Expand α) (P : α → Prop) : Prop := (Conduct.within sources).Keeps x P

/-- A failure at a site within the texts is allowed. -/
theorem Located.fail {site : Site} (h : site.Within sources) (fault : ExpandFault) :
    Located sources (fail fault site) P :=
  fun _ hrun => Yields.fail ⟨hrun, fun _ hl => h.locateSite (hrun.sources_eq ▸ hl)⟩

/-! ### What is done to a run -/

theorem located_record (event : Event) : Located sources (record event) fun _ => True := .modify fun _ h => { h with }

theorem located_freshScope (event : ScopeId → Event) : Located sources (freshScope event) fun _ => True :=
  .modifyGet fun _ h => ⟨{ h with }, trivial⟩

theorem located_freshLambda : Located sources freshLambda fun _ => True :=
  .modifyGet fun _ h => ⟨{ h with }, trivial⟩

theorem located_bind (ident : Token) (kind : BindingKind) (rename : Bool) :
    Located sources (bind ident kind rename) fun _ => True :=
  .modifyGet fun _ h => ⟨{ h with }, trivial⟩

theorem located_bindVariable (ident : Token) : Located sources (bindVariable ident) fun _ => True :=
  (located_bind ident .declared true).discard

end Expand

namespace Parse

variable {α β : Type} {P : α → Prop} {Q : β → Prop} {x : Parse α}

/-- Reading keeps the run and the stream within the texts. -/
def Located (sources : Sources) (x : Parse α) (P : α → Prop) : Prop :=
  ∀ stream : Stream, stream.Within sources → Expand.Located sources (x stream) fun r => P r.1 ∧ r.2.Within sources

theorem Located.pure {a : α} (h : P a) : Located sources (Pure.pure a) P := fun _ hs => .pure ⟨h, hs⟩

/-- What is read within the texts is used within them. -/
theorem Located.bind {f : α → Parse β} (hx : Located sources x P)
    (hf : ∀ a, P a → Located sources (f a) Q) : Located sources (x >>= f) Q :=
  fun stream hs => Conduct.Keeps.bind (hx stream hs) fun r hr => hf r.1 hr.1 r.2 hr.2

theorem Located.imp {P' : α → Prop} (hx : Located sources x P) (h : ∀ a, P a → P' a) :
    Located sources x P' := fun stream hs => (hx stream hs).imp fun r hr => ⟨h r.1 hr.1, hr.2⟩

theorem Located.lift {x : Expand α} (hx : Expand.Located sources x P) : Located sources (liftM x : Parse α) P :=
  fun _ hs => Conduct.Keeps.bind hx fun _ ha => .pure ⟨ha, hs⟩

theorem Located.ite {p : Prop} [Decidable p] {y : Parse α} (hx : p → Located sources x P)
    (hy : ¬ p → Located sources y P) : Located sources (if p then x else y) P := by
  split
  · next h => exact hx h
  · next h => exact hy h

/-- Reading that changes only the stream. -/
theorem Located.of_pure (f : Stream → α × Stream) (hx : ∀ stream, x stream = Pure.pure (f stream))
    (h : ∀ stream, stream.Within sources → P (f stream).1 ∧ (f stream).2.Within sources) : Located sources x P :=
  fun stream hs => hx stream ▸ Conduct.Keeps.pure (h stream hs)

/-! ### Reading from a stream -/

theorem located_get : Located sources get fun stream : Stream => stream.Within sources :=
  .of_pure (fun s => (s, s)) (fun _ => rfl) fun _ hs => ⟨hs, hs⟩

theorem located_set {stream : Stream} (h : stream.Within sources) : Located sources (set stream) fun _ => True :=
  .of_pure (fun _ => ((), stream)) (fun _ => rfl) fun _ _ => ⟨trivial, h⟩

theorem located_run : Located sources run fun run => run.Within sources := Located.lift .get

/-- The next token is within the texts. -/
theorem located_peek : Located sources peek fun t => ∀ token, t = some token → token.Within sources :=
  .of_pure (fun s => (s.after.head?, s)) (fun _ => rfl) fun _ hs =>
    ⟨fun token h => hs.after token (List.mem_of_mem_head? h), hs⟩

theorem located_peekIs (test : Token → Bool) : Located sources (peekIs test) fun _ => True :=
  .of_pure (fun s => (s.after.head?.any test, s)) (fun _ => rfl) fun _ hs => ⟨trivial, hs⟩

theorem located_advance : Located sources advance fun _ => True :=
  .of_pure (fun s => ((), s.advance)) (fun _ => rfl) fun _ hs => ⟨trivial, hs.advance⟩

/-- The last token that was read is one of the stream, whatever was put in front of it since. -/
theorem located_previousSite : Located sources previousSite fun site => site.Within sources := by
  refine .of_pure (fun s => ((s.before.head?.map Token.site).getD .unknown, s)) (fun _ => rfl) fun s hs => ⟨?_, hs⟩
  dsimp only
  cases hhead : s.before.head? with
  | none => exact Site.within_unknown
  | some t => exact (hs.before t (List.mem_of_mem_head? hhead)).site

theorem located_fail {site : Site} (h : site.Within sources) (fault : ParseFault) :
    Located sources (fail fault site) P := Located.lift (.fail h _)

/-- An unexpected token is refused within the texts. -/
theorem located_unexpected (expected : String) : Located sources (unexpected expected) P := by
  refine .bind located_peek fun t ht => ?_
  cases t with
  | none => exact .bind located_previousSite fun _ hs => located_fail hs _
  | some t => exact located_fail (ht t rfl).site _

theorem located_eat (p : String) : Located sources (eat p) fun _ => True := by
  refine .bind (located_peekIs _) fun b _ => .ite (fun _ => ?_) fun _ => .pure trivial
  exact .bind located_advance fun _ _ => .pure trivial

theorem located_expectPunct (p : String) : Located sources (expectPunct p) fun _ => True :=
  .bind (located_eat p) fun _ _ => .ite (fun _ => .pure trivial) fun _ => located_unexpected _

end Parse

end Hygiene
