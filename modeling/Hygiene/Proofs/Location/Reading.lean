import Hygiene.Proofs.Expand.Law
import Hygiene.Proofs.Location.Within

/-!
# Terms are read within the texts

Readers of tokens that are within the texts build terms that are, and completing terms keeps them so. A transformer
gives tokens that it was handed, tokens of its templates, and literals at sites of its code. The references of an
initializer stand at its sites.
-/

namespace Hygiene

variable {init : Expression} {site : Site} {stream : Stream} {binding name : Token} {t : Transformer}

variable {sources : Sources} {p : Passes}

/-! ### Invocations -/

namespace Expand

/-- The budget is refused at the site given. -/
theorem located_checkBudget (s : Setup) (hs : site.Within sources) :
    Located sources (checkBudget s site) fun _ => True := by
  unfold checkBudget
  split
  · exact .bind .get fun _ _ => .ite (fun _ => Located.fail hs _) fun _ => .pure trivial
  · exact .pure trivial

/-- A transformer gives tokens within the texts. -/
theorem located_callTransformer (s : Setup) (ht : t.value.Meets (.within sources))
    (hname : name.Within sources) {rest : List Token} (hrest : ∀ t ∈ rest, t.Within sources) :
    Located sources (callTransformer s t name rest) fun r => ∀ t ∈ r.1, t.Within sources :=
  (Conduct.keeps_callTransformer (c := .within sources) s ht hname hname.site (Token.within_piecesAll.2 hrest)).imp
    fun _ => Token.within_piecesAll.1

/-- Origins taken down are within the texts. -/
theorem located_recordOrigin (ht : t.site.Within sources) (hs : site.Within sources) :
    Located sources (recordOrigin t site) fun _ => True := by
  refine .modify fun run h => { h with origins := List.forall_mem_cons.2 ⟨?_, h.origins⟩ }
  rintro l (hl | hl)
  · exact hs.locateSite (h.sources_eq ▸ hl)
  · exact ht.locateSite (h.sources_eq ▸ hl)

end Expand

namespace Parse

/-- Invoking a transformer leaves a stream within the texts. -/
theorem located_invoke (s : Setup) (hname : name.Within sources)
    (hvalue : t.value.Meets (.within sources)) (hsite : t.site.Within sources) :
    Located sources (invoke s name t) fun _ => True := by
  refine .bind (.lift (Expand.located_checkBudget s hname.site)) fun _ _ => .bind located_get fun stream hstream => ?_
  refine .bind located_run fun run _ => .bind (.lift (Expand.located_freshScope _)) fun scope _ => ?_
  have hrest : ∀ t ∈ stream.after.drop 1, t.Within sources := fun t ht => hstream.after t (List.mem_of_mem_drop ht)
  refine .bind (.lift (Expand.located_callTransformer s hvalue hname (Token.within_flip hrest scope))) fun r hr => ?_
  obtain ⟨output, taken⟩ := r
  refine .bind (located_set ⟨hstream.before, ?_⟩) fun _ _ => .bind (.lift (Expand.located_record _)) fun _ _ => ?_
  · refine List.forall_mem_append.2 ⟨Token.within_markOutput hr scope _, fun t ht => ?_⟩
    exact hrest t (List.mem_of_mem_drop ht)
  · exact .lift (Expand.located_recordOrigin hsite hname.site)

theorem located_invokeHere (s : Setup) : Located sources (invokeHere s) fun _ => True := by
  refine .bind located_peek fun t ht => ?_
  cases t with
  | none => exact .pure trivial
  | some token =>
    refine .bind located_run fun run hrun => ?_
    split
    · exact .pure trivial
    · next t hlookup =>
      obtain ⟨id, hmem⟩ := Registry.mem_of_lookup hlookup
      obtain ⟨hvalue, hsite⟩ := hrun.transformers _ hmem
      exact .bind (located_invoke s (ht token rfl) hvalue hsite) fun _ _ => .pure trivial

end Parse

/-! ### Readers -/

/-- Readers of tokens within the texts, each compared with itself. -/
def locating (sources : Sources) : Parallel (.within sources) where
  Rel R x _ := Expand.Located sources x fun a => ∃ a', R a a'
  pure_rel h := .pure ⟨_, h⟩
  bind_rel hx hf := .bind hx fun a ⟨a', h⟩ => hf a a' h
  fail _ _ _ h := Expand.Located.fail h.2 _
  exhausted := .exhausted
  record _ := (Expand.located_record _).imp fun _ _ => ⟨_, rfl⟩
  freshScope := (Expand.located_freshScope _).imp fun _ _ => ⟨_, rfl⟩
  bindVariable _ := (Expand.located_bindVariable _).imp fun _ _ => ⟨_, rfl⟩
  freshLambda := Expand.located_freshLambda.imp fun _ _ => ⟨_, rfl⟩

/-- A stream within the texts is alike itself. -/
theorem Stream.Within.alike (h : stream.Within sources) : stream.Alike (.within sources) stream :=
  ⟨Likeness.alike_within h.before, Likeness.alike_within h.after⟩

theorem Stream.Alike.within {stream' : Stream} (h : stream.Alike (.within sources) stream') :
    stream.Within sources := ⟨Likeness.tokens_within h.before, Likeness.tokens_within h.after⟩

namespace Parse.Located

variable {α : Type} {R : α → α → Prop} {x x' : Parse α}

/-- What such a reader reads is within the texts. -/
theorem of_reads (h : (locating sources).Reads R x x') : Located sources x fun a => ∃ a', R a a' := by
  refine fun stream hs => (h stream stream hs.alike).imp ?_
  rintro r ⟨r', hr⟩
  exact ⟨⟨r'.1, hr.1⟩, hr.2.within⟩

theorem reads (h : Located sources x fun a => ∃ a', R a a') : (locating sources).Reads R x x' := by
  refine fun _ _ hs => (h _ hs.within).imp ?_
  rintro r ⟨⟨a', ha⟩, hr⟩
  exact ⟨(a', r.2), ha, hr.alike⟩

end Parse.Located

/-! ### Declarations of transformers -/

theorem Expression.Within.reference {e : Expression} (h : e.Within sources) {ident : Token} (hi : ident ∈ e.references) :
    ident.site.Within sources := h.2.2 _ (e.sited _ hi)

namespace Expand

/-- A reference is refused at its own site. -/
theorem located_checkReferences (name : String) (mark : Nat) {idents : List Token}
    (h : ∀ ident ∈ idents, ident.site.Within sources) :
    Located sources (checkReferences name mark idents) fun _ => True := by
  induction idents with
  | nil => exact .pure trivial
  | cons ident rest ih =>
    obtain ⟨hident, hrest⟩ := List.forall_mem_cons.1 h
    refine .bind .get fun run _ => ?_
    split
    · exact Located.fail hident _
    · exact ih hrest

theorem located_acceptInitializer (binding : Token) (mark : Nat) (h : init.Within sources) :
    Located sources (acceptInitializer binding mark init) fun _ => True :=
  .bind (located_checkReferences _ _ fun _ hi => h.reference hi) fun _ _ => located_record _

theorem located_bindHidden (binding : Token) : Located sources (bindHidden binding) fun _ => True := by
  refine .bind (located_bind _ _ _) fun id _ => .bind (located_freshScope _) fun scope _ => ?_
  exact .bind (.modify fun _ h => { h with }) fun _ _ => .pure trivial

/-- A kept transformer is within the texts. -/
theorem located_defineTransformer (id : BindingId) (hvalue : t.value.Meets (.within sources))
    (hsite : t.site.Within sources) : Located sources (defineTransformer id t) fun _ => True := by
  refine .modify fun run h => { h with transformers := fun entry he => ?_ }
  rcases Assoc.mem_insert he with rfl | he
  · exact ⟨hvalue, hsite⟩
  · exact h.transformers entry he

/-- Settling a declaration stays within the texts. -/
theorem located_settle (s : Setup) (home : Home) (hbinding : binding.Within sources)
    (early : Option BindingId) {init' : Expression} (hinit : init.Alike (.within sources) init') :
    Located sources (settle s home binding early init) fun _ => True := by
  refine .bind (Conduct.keeps_transformerValue Conduct.within_records s _ hbinding.site hinit.meets) fun value hvalue => ?_
  cases early with
  | some id => exact located_defineTransformer id hvalue hbinding.site
  | none => exact .bind (located_bindHidden binding) fun r _ => located_defineTransformer r.1 hvalue hbinding.site

end Expand

namespace Parse

theorem located_declared (s : Setup) (home : Home) (hbinding : binding.Within sources)
    {x : Parse Expression} (hx : Located sources x fun init => ∃ init', init.Alike (.within sources) init')
    (recursive : Bool) : Located sources (declared s home binding recursive x) fun init =>
      ∃ init', init.Alike (.within sources) init' := by
  have hearly : Expand.Located sources (Expand.bindEarly binding recursive) fun _ => True := by
    cases recursive
    · exact .pure trivial
    · exact .bind (Expand.located_bind _ _ _) fun _ _ => .pure trivial
  refine .bind (.lift hearly) fun early _ => .bind hx fun init h => ?_
  exact .bind (.lift (Expand.located_settle s home hbinding early h.choose_spec)) fun _ _ => .pure h

/-- Declared transformers are read within the texts. -/
theorem located_transformerDeclarator (s : Setup) (home : Home) (hp : (locating sources).Ties p p) (kind : DeclarationKind) (hbinding : binding.Within sources) :
    Located sources (transformerDeclarator s home p kind binding) fun d => ∃ d', d.Alike (.within sources) d' := by
  rw [transformerDeclarator_eq]
  refine .bind (.lift (Expand.located_record _)) fun _ _ => .bind located_run fun run _ => ?_
  refine .bind (located_declared s home hbinding ?_ _) fun init ⟨_, hinit⟩ => .bind located_previousSite fun _ hprevious =>
    .pure ⟨_, .mk ⟨rfl, hbinding⟩ (.some hinit) ⟨rfl, hbinding.site.cover hprevious⟩⟩
  refine .bind (located_expectPunct "=") fun _ _ => .bind (.of_reads hp.assignment) fun init ⟨_, hinit⟩ => ?_
  refine .bind (.lift (Parallel.complete hp.body hinit)) fun init ⟨_, hinit⟩ => ?_
  exact .bind (.lift (Expand.located_acceptInitializer _ _ hinit.meets)) fun _ _ => .pure ⟨_, hinit⟩

end Parse

theorem locating_declares (s : Setup) (home : Home) (hp : (locating sources).Ties p p) :
    (locating sources).Declares s s home p p := by
  rintro _ kind binding _ ⟨rfl, hbinding⟩
  exact (Parse.located_transformerDeclarator s home hp kind hbinding).reads

/-- The readers of terms stay within the texts, however deep they may go. -/
theorem locating_passes (s : Setup) (limit : Nat) (home : Home) (sources : Sources) :
    (locating sources).Ties (passes s limit home) (passes s limit home) :=
  Parallel.ties_passes _ ((Parse.located_invokeHere s).imp fun _ _ => ⟨_, rfl⟩).reads (fun _ => locating_declares s home) limit

end Hygiene
