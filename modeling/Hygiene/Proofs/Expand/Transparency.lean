import Hygiene.Proofs.Expand.Introduced

/-!
# What introduced names refer to

A token of a template keeps the scopes that it has in the definition of the transformer. A region of the output may add
others: a parameter whose name comes from the place of use captures the name.
-/

namespace Hygiene

open List

variable {name : String}

namespace History

variable {e : Event} {h l : List Event} {p q : Piece} {code : List Statement} {x : Nat}

/-- A region that is left was opened after all code that was run. -/
theorem Sound.ran_lt_left {scope : Nat} {tokens : List Token}
    (hs : Sound (.left scope tokens :: (l ++ .ran code :: h))) : scopes h ≤ scope := by
  obtain ⟨⟨mid, before, heq, hquiet⟩, _⟩ := hs.fits
  have hmem : Event.opened scope ∈ l := by
    rcases append_eq_append_iff.1 heq with ⟨a, rfl, hran⟩ | ⟨c, rfl, hopened⟩
    · cases a with
      | nil => cases hran
      | cons e a =>
        obtain ⟨rfl, _⟩ := List.cons.inj hran
        cases hquiet (.ran code) (by simp)
    · cases c with
      | nil => cases hopened
      | cons e c =>
        obtain ⟨rfl, _⟩ := List.cons.inj hopened
        simp
  have hle := hs.tail.scopes_le hmem rfl
  rw [scopes_cons] at hle
  exact hle

/-- Once code was run, no event takes away a scope that was made before. -/
theorem Sound.keeps_scope (hs : Sound (e :: (l ++ .ran code :: h))) (hx : x < scopes h) (hm : e.Makes p q)
    (hp : x ∈ p.scopes) : x ∈ q.scopes := by
  have hlt : x < scopes (l ++ .ran code :: h) := by
    have : scopes (.ran code :: h) ≤ scopes (l ++ .ran code :: h) := scopes_le_append
    rw [scopes_cons] at this
    omega
  cases hm with
  | enclosed _ => exact ScopeSet.mem_insert.2 (Or.inr hp)
  | @left scope _ _ _ =>
    exact ScopeSet.mem_erase.2 ⟨hp, Nat.ne_of_lt (Nat.lt_of_lt_of_le hx hs.ran_lt_left)⟩
  | @called call _ _ =>
    have hne : x ≠ call.scope := by
      rw [hs.fresh rfl]
      omega
    exact (ScopeSet.mem_flip_of_ne hne).2 hp
  | @invoked inv _ _ =>
    have hne : x ≠ inv.call.scope := by
      obtain ⟨earlier, heq⟩ := hs.called
      cases l with
      | nil => cases heq
      | cons e l =>
        obtain ⟨rfl, _⟩ := List.cons.inj heq
        have hle := hs.tail.scopes_le (l := .called inv.call :: l) mem_cons_self rfl
        rw [scopes_cons] at hle
        simp only [Event.scope?] at hle
        omega
    by_cases hi : inv.call.scope ∈ p.scopes
    · rw [Piece.markOutput_of_mem hi]
      exact (ScopeSet.mem_flip_of_ne hne).2 hp
    · exact (Piece.mem_markOutput_of_not_mem hi).2 (Or.inr (Or.inr hp))

/-- Once code was run, a piece keeps the scopes that were made before. -/
theorem Sound.mem_of_stems (mid : List Event) (hs : Sound (l ++ (mid ++ .ran code :: h))) (hx : x < scopes h) (hst : Stems l p q)
    (hp : x ∈ p.scopes) : x ∈ q.scopes := by
  induction hst with
  | refl p => exact hp
  | old _ ih => exact ih hs.tail hp
  | made _ hm ih =>
    rw [cons_append, ← append_assoc] at hs
    refine hs.keeps_scope hx hm (ih ?_ hp)
    rw [← append_assoc]
    exact hs.tail

end History

namespace Stems

variable {l : List Event} {p q : Piece} {x : ScopeId}

theorem label (hst : Stems l p q) : q.label = p.label := by
  induction hst with
  | refl p => rfl
  | old _ ih => exact ih
  | made _ hm ih => rw [hm.label, ih]

/-- A piece has the scopes of the piece it stems from and those that events gave it. -/
theorem mem (hst : Stems l p q) (hx : x ∈ q.scopes) : x ∈ p.scopes ∨ ∃ e ∈ l, e.Adds x := by
  induction hst with
  | refl p => exact Or.inl hx
  | old _ ih => exact (ih hx).imp_right fun ⟨e, he, ha⟩ => ⟨e, mem_cons_of_mem _ he, ha⟩
  | made _ hm ih =>
    rcases hm.mem hx with hx | ha
    · exact (ih hx).imp_right fun ⟨e, he, ha⟩ => ⟨e, mem_cons_of_mem _ he, ha⟩
    · exact Or.inr ⟨_, mem_cons_self, ha⟩

theorem self (l : List Event) (p : Piece) : Stems l p p := by
  induction l with
  | nil => exact .refl p
  | cons e l ih => exact .old ih

/-- What one event makes of a piece stems from it. -/
theorem of_mem {e : Event} (he : e ∈ l) (hm : e.Makes p q) : Stems l p q := by
  induction l with
  | nil => cases he
  | cons e' l ih =>
    rcases mem_cons.1 he with rfl | he
    · exact .made (self l p) hm
    · exact .old (ih he)

end Stems

/-- The invocation introduced the piece `u` of code that had been run, such as the definition of its transformer, and
later the piece has become `r`. -/
def Invocation.Introduces (inv : Invocation) (before later : List Event) (u r : Piece) : Prop :=
  (∃ code, .ran code ∈ before ∧ .piece u ∈ Statement.contentAll code) ∧ u ∈ Token.piecesAll inv.output ∧
    Stems later (u.markOutput inv.call.scope inv.call.transformer.outputScope) r

namespace History

variable {inv : Invocation} {before later : List Event} {u r : Piece}

/-- An introduced piece keeps the scopes that it has in the definition. -/
theorem Sound.subset_of_introduces (hs : Sound (later ++ .invoked inv :: before)) (hi : inv.Introduces before later u r) :
    ∀ x ∈ u.scopes, x ∈ r.scopes := by
  obtain ⟨⟨code, hcode, hu⟩, hout, hst⟩ := hi
  obtain ⟨mid, earlier, rfl⟩ := append_of_mem hcode
  intro x hx
  have hbefore : Sound (.ran code :: earlier) := (hs.of_append.tail).of_append
  have hlt : x < scopes earlier := hbefore.tail.lt (hbefore.fits u hu) hx
  refine Sound.mem_of_stems (.invoked inv :: mid) hs hlt hst ?_
  exact Sound.keeps_scope (l := mid) hs.of_append hlt (.invoked hout) hx

/-- An introduced piece does not have the scope of the invocation in the definition. -/
theorem Sound.not_mem_of_introduces (hs : Sound (later ++ .invoked inv :: before))
    (hi : inv.Introduces before later u r) : inv.call.scope ∉ u.scopes := by
  obtain ⟨⟨code, hcode, hu⟩, _, _⟩ := hi
  obtain ⟨earlier, rfl⟩ := hs.of_append.called
  refine hs.of_append.fresh_piece ?_
  have hcode : Event.ran code ∈ earlier := (mem_cons.1 hcode).resolve_left fun h => by cases h
  obtain ⟨mid, first, rfl⟩ := append_of_mem hcode
  have hran : Sound (.ran code :: first) := hs.of_append.tail.tail.of_append
  exact (hran.fits u hu).old.append

/-- An introduced piece has the scopes that it has in the definition, the scope of the invocation, the output scope of
the transformer, and what later events gave it. -/
theorem Sound.mem_of_introduces (hs : Sound (later ++ .invoked inv :: before)) (hi : inv.Introduces before later u r)
    {x : ScopeId} (hx : x ∈ r.scopes) : x ∈ u.scopes ∨ x = inv.call.scope ∨
      some x = inv.call.transformer.outputScope ∨ ∃ e ∈ later, e.Adds x := by
  rcases hi.2.2.mem hx with hx | he
  · rcases (Piece.mem_markOutput_of_not_mem (hs.not_mem_of_introduces hi)).1 hx with h | h | h
    · exact Or.inr (Or.inl h)
    · exact Or.inr (Or.inr (Or.inl h))
    · exact Or.inl h
  · exact Or.inr (Or.inr (Or.inr he))

end History

/-- A name that an invocation introduces refers to what the name of the template refers to in the definition, or to a
binding of the same invocation, exactly if the binding that it finds has the scope of the invocation or has no scopes
but those of the name in the definition. Any other scope of the name is the output scope, or a later event gave it. What
is hidden from the output of the transformer is left aside. -/
theorem Run.Final.introduced_reference {s : Setup} {run : Run} (hrun : run.Final s) {later before : List Event}
    {inv : Invocation} (h : run.events = later ++ .invoked inv :: before) {u r : Piece}
    (hi : inv.Introduces before later u r) {name : String} (hname : u.name? = some name)
    (shown : ∀ b, run.store.resolve name u.scopes = some b → ∀ x, b.hiddenFrom = some x → x ∉ r.scopes) :
    r.name? = some name ∧
    ((run.store.resolve name r.scopes = run.store.resolve name u.scopes ∨
        ∃ b, run.store.resolve name r.scopes = some b ∧ inv.call.scope ∈ b.scopes) ↔
      ∀ b, run.store.resolve name r.scopes = some b → inv.call.scope ∈ b.scopes ∨ ∀ x ∈ b.scopes, x ∈ u.scopes) ∧
    ∀ x ∈ r.scopes, x ∈ u.scopes ∨ x = inv.call.scope ∨ some x = inv.call.transformer.outputScope ∨
      ∃ e ∈ later, e.Adds x := by
  have hs : History.Sound (later ++ .invoked inv :: before) := h ▸ hrun.sound.history
  have hkey := Store.resolve_eq_iff_of_subset hrun.sound.numbered (hs.subset_of_introduces hi) shown
  refine ⟨?_, ⟨?_, fun hb => ?_⟩, fun x hx => hs.mem_of_introduces hi hx⟩
  · have hlabel : r.label = u.label := hi.2.2.label.trans (Piece.label_markOutput _ _ _)
    unfold Piece.name? at hname ⊢
    rwa [hlabel]
  · rintro (heq | ⟨b, hb, hx⟩) c hc
    · exact Or.inr (hkey.1 heq c hc)
    · rw [hb] at hc
      cases hc
      exact Or.inl hx
  · by_cases hx : ∃ b, run.store.resolve name r.scopes = some b ∧ inv.call.scope ∈ b.scopes
    · exact Or.inr hx
    · refine Or.inl (hkey.2 fun b hres => ?_)
      exact (hb b hres).resolve_left fun hmem => hx ⟨b, hres, hmem⟩

/-! ### Introduced names in given programs -/

theorem Piece.eq_of_mark {p q : Piece} (hmark : p.mark = q.mark) (hp : p.name? = some name)
    (hq : q.name? = some name) : p = q := by
  have hlabel : p.label = q.label := (label_of_name? hp).trans (label_of_name? hq).symm
  cases p
  cases q
  cases hmark
  cases hlabel
  rfl

/-- Whether a piece of the list is the identifier of this name with this mark. -/
def Piece.among (name : String) (mark : Mark) (pieces : List Piece) : Bool :=
  pieces.any fun p => p.mark == mark && p.name? == some name

theorem Piece.mem_of_among {p : Piece} {pieces : List Piece} (h : among name p.mark pieces = true)
    (hp : p.name? = some name) : p ∈ pieces := by
  obtain ⟨q, hq, htest⟩ := any_eq_true.1 h
  simp only [Bool.and_eq_true, beq_iff_eq] at htest
  rwa [← eq_of_mark htest.1 htest.2 hp]

/-- Whether the invocation introduced an identifier of this name out of code that had been run, a region enclosed it
later, and the test succeeds for the identifier in the code and the enclosed one. -/
def Invocation.introduces (inv : Invocation) (name : String) (test : Piece → Piece → Bool) (before later : List Event) :
    Bool :=
  (Token.piecesAll inv.output).any fun u =>
    let placed := u.markOutput inv.call.scope inv.call.transformer.outputScope
    u.name? == some name &&
    (before.any fun
      | .ran code => Piece.among name u.mark (Content.pieces (Statement.contentAll code))
      | _ => false) &&
    later.any fun
      | .enclosed scope tokens =>
        Piece.among name placed.mark (Token.piecesAll tokens) && test u (placed.mapScopes (·.insert scope))
      | _ => false

theorem Invocation.exists_introduces {inv : Invocation} {test : Piece → Piece → Bool}
    {before later : List Event} (h : inv.introduces name test before later = true) :
    ∃ u r, inv.Introduces before later u r ∧ u.name? = some name ∧ test u r = true := by
  obtain ⟨u, hu, htest⟩ := any_eq_true.1 h
  simp only [Bool.and_eq_true, beq_iff_eq] at htest
  obtain ⟨⟨hname, hran⟩, hlater⟩ := htest
  obtain ⟨ran, hmem, hran⟩ := any_eq_true.1 hran
  obtain ⟨enclosed, hmem', hlater⟩ := any_eq_true.1 hlater
  have hplaced : (u.markOutput inv.call.scope inv.call.transformer.outputScope).name? = some name := by
    unfold Piece.name? at hname ⊢
    rwa [Piece.label_markOutput]
  split at hran
  · next code =>
    split at hlater
    · next scope tokens =>
      rw [Bool.and_eq_true] at hlater
      refine ⟨u, _, ⟨⟨code, hmem, ?_⟩, hu, ?_⟩, hname, hlater.2⟩
      · exact Content.mem_pieces.1 (Piece.mem_of_among hran hname)
      · exact .of_mem hmem' (.enclosed (Piece.mem_of_among hlater.1 hplaced))
    · cases hlater
  · cases hran

/-- Whether the binding that the identifier in the code refers to is visible to the identifier in the output. -/
def Store.shows (store : Store) (name : String) (u r : Piece) : Bool :=
  (store.resolve name u.scopes).all fun b => b.hiddenFrom.all fun x => !r.scopes.contains x

theorem Store.not_mem_of_shows {store : Store} {u r : Piece} (h : store.shows name u r = true) :
    ∀ b, store.resolve name u.scopes = some b → ∀ x, b.hiddenFrom = some x → x ∉ r.scopes := by
  intro b hb x hx hmem
  rw [shows, hb, Option.all_some, hx, Option.all_some, ScopeSet.contains_iff.2 hmem] at h
  cases h

/-- A transformer introduces a name into a function of its output, where the place of use binds the name as well. -/
def transparentText : String :=
  "var y = a; syntax m = ctx => #`(function (z) \x7b return y; \x7d)(b)`; function f(y) \x7b return m; \x7d"

/-- The introduced name refers to the variable at the definition of the transformer. -/
theorem Run.Final.introduced_reference_transparent : ∃ expansion run,
    expandProgram .alone transparentText = .ok expansion run ∧ ∃ later inv before u r,
      run.events = later ++ .invoked inv :: before ∧ inv.Introduces before later u r ∧ u.name? = some "y" ∧
      ∃ b, run.store.resolve "y" r.scopes = some b ∧ (∀ x ∈ b.scopes, x ∈ u.scopes) ∧
      (run.store.resolve "y" r.scopes = run.store.resolve "y" u.scopes ∨
        ∃ b, run.store.resolve "y" r.scopes = some b ∧ inv.call.scope ∈ b.scopes) := by
  let test (run : Run) (inv : Invocation) (before later : List Event) : Bool :=
    inv.introduces "y" (fun u r => run.store.shows "y" u r && (run.store.resolve "y" r.scopes).any fun b =>
      b.scopes.isSubset u.scopes) before later
  obtain ⟨expansion, run, hres, hany⟩ := exists_of_succeeds (expandProgram .alone transparentText)
    (fun _ run => History.anyInvocation (test run) [] run.events) (by decide +kernel)
  obtain ⟨later, inv, before, hsplit, htest⟩ := History.exists_invocation hany
  obtain ⟨u, r, hi, hname, htest⟩ := Invocation.exists_introduces htest
  obtain ⟨hshows, hsub⟩ := Bool.and_eq_true_iff.1 htest
  cases hb : run.store.resolve "y" r.scopes with
  | none =>
    rw [hb] at hsub
    cases hsub
  | some b =>
    rw [hb, Option.any_some, ScopeSet.isSubset_iff] at hsub
    refine ⟨expansion, run, hres, later, inv, before, u, r, hsplit, hi, hname, b, hb, hsub, ?_⟩
    refine (Run.Final.introduced_reference (.of_ok hres) hsplit hi hname (Store.not_mem_of_shows hshows)).2.1.2 ?_
    intro c hc
    rw [hb] at hc
    cases hc
    exact Or.inr hsub

/-- A transformer introduces a name into a function of its output whose parameter has the name from the place of use. -/
def capturedText : String :=
  "syntax m = ctx => \x7b let p = ctx.next().value; return #`(function ($\x7bp\x7d) \x7b return x; \x7d)('inner')`; \x7d; " ++
    "var x = 'outer'; output = m x;"

/-- The parameter captures the introduced name. -/
theorem Run.Final.introduced_reference_captured : ∃ expansion run,
    expandProgram .alone capturedText = .ok expansion run ∧ ∃ later inv before u r,
      run.events = later ++ .invoked inv :: before ∧ inv.Introduces before later u r ∧ u.name? = some "x" ∧
      (∀ b, run.store.resolve "x" u.scopes = some b → ∀ x, b.hiddenFrom = some x → x ∉ r.scopes) ∧
      ¬ (run.store.resolve "x" r.scopes = run.store.resolve "x" u.scopes ∨
        ∃ b, run.store.resolve "x" r.scopes = some b ∧ inv.call.scope ∈ b.scopes) := by
  let test (run : Run) (inv : Invocation) (before later : List Event) : Bool :=
    inv.introduces "x" (fun u r => run.store.shows "x" u r &&
      (run.store.resolve "x" r.scopes).any (fun b => !b.scopes.contains inv.call.scope) &&
      (run.store.resolve "x" r.scopes).map (·.id) != (run.store.resolve "x" u.scopes).map (·.id)) before later
  obtain ⟨expansion, run, hres, hany⟩ := exists_of_succeeds (expandProgram .alone capturedText)
    (fun _ run => History.anyInvocation (test run) [] run.events) (by decide +kernel)
  obtain ⟨later, inv, before, hsplit, htest⟩ := History.exists_invocation hany
  obtain ⟨u, r, hi, hname, htest⟩ := Invocation.exists_introduces htest
  simp only [Bool.and_eq_true, bne_iff_ne] at htest
  obtain ⟨⟨hshows, hother⟩, hne⟩ := htest
  refine ⟨expansion, run, hres, later, inv, before, u, r, hsplit, hi, hname, Store.not_mem_of_shows hshows, ?_⟩
  rintro (heq | ⟨b, hb, hx⟩)
  · exact hne (congrArg _ heq)
  · rw [hb, Option.any_some, ScopeSet.contains_iff.2 hx] at hother
    cases hother

end Hygiene
