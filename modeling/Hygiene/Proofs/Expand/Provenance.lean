import Hygiene.Proofs.Expand.History

/-!
# Where scopes come from

In a sound history a piece has only scopes that were made, and an event gives it at most the scopes that the event is
about. The scope of an invocation is given by that invocation alone, so a piece without it does not get it later.
-/

namespace Hygiene

open List

namespace Event

/-- The event can give the scope to a piece. -/
def Adds : Event → ScopeId → Prop
  | .enclosed scope _, x => x = scope
  | .called call, x => x = call.scope
  | .invoked inv, x => x = inv.call.scope ∨ some x = inv.call.transformer.outputScope
  | _, _ => False

variable {e : Event} {h : List Event} {p q : Piece} {x : Nat}

/-- A piece has the scopes of the piece it was made from, and those that the event gave it. -/
theorem Makes.mem (hm : e.Makes p q) (hx : x ∈ q.scopes) : x ∈ p.scopes ∨ e.Adds x := by
  cases hm with
  | enclosed hp => exact (ScopeSet.mem_insert.1 hx).symm
  | left hp => exact Or.inl (ScopeSet.mem_erase.1 hx).1
  | @called call _ hp =>
    by_cases hne : x = call.scope
    · exact Or.inr hne
    · exact Or.inl ((ScopeSet.mem_flip_of_ne hne).1 hx)
  | @invoked inv _ hp =>
    by_cases hi : inv.call.scope ∈ p.scopes
    · rw [Piece.markOutput_of_mem hi, Piece.scopes_mapScopes] at hx
      by_cases hne : x = inv.call.scope
      · exact Or.inr (Or.inl hne)
      · exact Or.inl ((ScopeSet.mem_flip_of_ne hne).1 hx)
    · rcases (Piece.mem_markOutput_of_not_mem hi).1 hx with h | h | h
      · exact Or.inr (Or.inl h)
      · exact Or.inr (Or.inr h)
      · exact Or.inl h

theorem Makes.label (hm : e.Makes p q) : q.label = p.label := by
  cases hm <;> simp

end Event

namespace History

variable {e : Event} {h l : List Event} {p q : Piece} {x : Nat}

/-- Events make pieces out of pieces that have come about. -/
theorem Sound.source (hs : Sound (e :: h)) (hm : e.Makes p q) : Arises h p := by
  have fits := hs.fits
  cases hm with
  | enclosed hp => exact fits.2 p hp
  | left hp => exact fits.2 p hp
  | called hp =>
    refine fits.1 p ?_
    rw [Token.piecesAll_append]
    exact mem_append_right _ (Token.piecesAll_subset (fun t ht => mem_of_mem_drop ht) hp)
  | invoked hp =>
    obtain ⟨_, earlier, rfl, hout⟩ := fits
    rcases hout p hp with harises | ⟨q, hq, rfl⟩
    · exact .old harises
    · exact .made (.called hq)

/-- A piece of a text has the scope of its module and no other one. -/
theorem Sound.mem_text {file : Nat} {tokens : List Token} {scope : ScopeId} (hs : Sound (.text file tokens scope :: h))
    (hp : p ∈ Token.piecesAll tokens) (hx : x ∈ (p.mapScopes (·.insert scope)).scopes) : x = scope := by
  obtain ⟨⟨span, hmark⟩, _⟩ := hs.fits p hp
  rw [Piece.scopes_mapScopes, Piece.scopes, hmark] at hx
  exact (ScopeSet.mem_insert.1 hx).resolve_right ScopeSet.not_mem_empty

/-- The scopes that an event can give to a piece have been made. -/
theorem Sound.made_of_adds (hs : Sound (e :: h)) (ha : e.Adds x) : ∃ e' ∈ e :: h, e'.scope? = some x := by
  have fits := hs.fits
  cases e with
  | enclosed scope tokens =>
    obtain rfl : x = scope := ha
    exact ⟨_, mem_cons_of_mem _ fits.1, rfl⟩
  | called call =>
    obtain rfl : x = call.scope := ha
    exact ⟨_, mem_cons_self, rfl⟩
  | invoked inv =>
    obtain ⟨_, earlier, rfl, _⟩ := fits
    rcases ha with rfl | ho
    · exact ⟨.called inv.call, by simp, rfl⟩
    · obtain ⟨id, hid⟩ := hs.tail.fits.2.2 x ho.symm
      exact ⟨.hidden id x, by simp [hid], rfl⟩
  | _ => exact ha.elim

/-- The scopes of a piece that has come about have been made. -/
theorem Sound.made (hs : Sound h) (hp : Arises h p) (hx : x ∈ p.scopes) : ∃ e ∈ h, e.scope? = some x := by
  induction h generalizing p with
  | nil =>
    cases hp with
    | literal lit =>
      rw [lit.1] at hx
      exact absurd hx ScopeSet.not_mem_empty
  | cons e h ih =>
    have old : ∀ q, Arises h q → x ∈ q.scopes → ∃ e' ∈ e :: h, e'.scope? = some x := by
      intro q hq hxq
      obtain ⟨e', he', hscope⟩ := ih hs.tail hq hxq
      exact ⟨e', mem_cons_of_mem _ he', hscope⟩
    cases hp with
    | literal lit =>
      rw [lit.1] at hx
      exact absurd hx ScopeSet.not_mem_empty
    | text hmem => exact ⟨_, mem_cons_self, congrArg some (hs.mem_text hmem hx).symm⟩
    | old hp => exact old p hp hx
    | made hm =>
      rcases hm.mem hx with hx | ha
      · exact old _ (hs.source hm) hx
      · exact hs.made_of_adds ha

/-- The scopes of a piece that has come about are smaller than the number of scopes. -/
theorem Sound.lt (hs : Sound h) (hp : Arises h p) (hx : x ∈ p.scopes) : x < scopes h := by
  obtain ⟨e, he, hscope⟩ := hs.made hp hx
  exact hs.scope_lt he hscope

/-- A binding has its name and its scopes from a piece that has come about. -/
theorem Sound.exists_piece (hs : Sound h) {b : Binding} (hb : b ∈ bindings h) : ∃ label,
    Arises h ⟨⟨b.site, b.scopes⟩, label⟩ ∧ (Piece.name? ⟨⟨b.site, b.scopes⟩, label⟩).getD "" = b.name := by
  induction h generalizing b with
  | nil => cases hb
  | cons e h ih =>
    have old (c : Binding) (hc : c ∈ bindings h) : ∃ label, Arises (e :: h) ⟨⟨c.site, c.scopes⟩, label⟩ ∧
        (Piece.name? ⟨⟨c.site, c.scopes⟩, label⟩).getD "" = c.name := by
      obtain ⟨label, harises, hname⟩ := ih hs.tail hc
      exact ⟨label, harises.old, hname⟩
    cases e with
    | bound c =>
      rcases mem_append.1 hb with hb | hb
      · exact old b hb
      · obtain rfl := mem_singleton.1 hb
        obtain ⟨_, _, _, label, harises, hname⟩ := hs.fits
        exact ⟨label, harises.old, hname⟩
    | hidden id scope =>
      obtain ⟨i, hi⟩ := mem_iff_getElem?.1 hb
      rw [bindings, List.getElem?_modify] at hi
      obtain ⟨c, hc, rfl⟩ := Option.map_eq_some_iff.1 hi
      have hpiece := old c (mem_of_getElem? hc)
      split <;> exact hpiece
    | _ => exact old b hb

/-- The scopes of a binding are smaller than the number of scopes. -/
theorem Sound.binding_lt (hs : Sound h) {b : Binding} (hb : b ∈ bindings h) (hx : x ∈ b.scopes) : x < scopes h := by
  obtain ⟨_, harises, _⟩ := hs.exists_piece hb
  exact hs.lt harises hx

section Invocation

variable {inv : Invocation} {earlier : List Event}

/-- An invocation comes right after the call of its transformer. -/
theorem Sound.called (hs : Sound (.invoked inv :: h)) : ∃ earlier, h = .called inv.call :: earlier := by
  obtain ⟨_, earlier, rfl, _⟩ := hs.fits
  exact ⟨earlier, rfl⟩

/-- The scope of an invocation is the next one when its transformer is called. -/
theorem Sound.scope_eq (hs : Sound (.invoked inv :: .called inv.call :: earlier)) : inv.call.scope = scopes earlier :=
  hs.tail.fresh rfl

/-- No later event gives a piece the scope of an invocation. -/
theorem Sound.not_adds (hs : Sound (e :: (l ++ .invoked inv :: .called inv.call :: earlier))) :
    ¬ e.Adds inv.call.scope := by
  have hcall : Event.called inv.call ∈ l ++ .invoked inv :: .called inv.call :: earlier := by simp
  have hlt : inv.call.scope < scopes (l ++ .invoked inv :: .called inv.call :: earlier) :=
    hs.tail.scope_lt hcall rfl
  have fits := hs.fits
  intro ha
  cases e with
  | enclosed scope tokens =>
    obtain rfl : inv.call.scope = scope := ha
    cases hs.tail.scope_unique hcall fits.1 rfl rfl
  | called call =>
    have heq : inv.call.scope = call.scope := ha
    rw [heq, hs.fresh rfl] at hlt
    exact Nat.lt_irrefl _ hlt
  | invoked inv' =>
    obtain ⟨_, before, hbefore, _⟩ := fits
    rcases ha with heq | ho
    · cases l with
      | nil => cases hbefore
      | cons e' l =>
        rw [cons_append] at hbefore
        obtain ⟨rfl, rfl⟩ := List.cons.inj hbefore
        have hlt' := hs.tail.tail.scope_lt (e := .called inv.call) (by simp) rfl
        rw [heq, hs.tail.fresh rfl] at hlt'
        exact Nat.lt_irrefl _ hlt'
    · rw [hbefore] at hs hcall
      obtain ⟨id, hid⟩ := hs.tail.fits.2.2 _ ho.symm
      cases hs.tail.scope_unique hcall (mem_cons_of_mem _ hid) rfl rfl
  | _ => exact ha

/-- A piece without the scope of an invocation does not get it later. -/
theorem Sound.not_mem_of_stems (hs : Sound (l ++ .invoked inv :: .called inv.call :: earlier)) (hst : Stems l p q)
    (hp : inv.call.scope ∉ p.scopes) : inv.call.scope ∉ q.scopes := by
  induction hst with
  | refl p => exact hp
  | old _ ih => exact ih hs.tail hp
  | made _ hm ih =>
    intro hx
    rcases hm.mem hx with hx | ha
    · exact ih hs.tail hp hx
    · exact hs.not_adds ha

end Invocation

end History

end Hygiene
