import Mathlib.Data.List.Perm.Subperm
import Hygiene.Proofs.Expand.NormalForm

/-!
# Imports and export lists

The names that an import binds are identifiers. An identifier refers to the binding made for it as long as nothing else
is bound under the same name and scopes.
-/

namespace Hygiene

open List

variable {items : List ModuleItem} {item : ModuleItem} {stream stream' : Stream}

variable {i : Import} {body : List Token → Expand (List Statement)}

/-! ### An identifier refers to the binding made for it -/

theorem ScopeSet.size_le {s t : ScopeSet} (h : ∀ x ∈ s, x ∈ t) : s.size ≤ t.size := by
  have nodup : s.toList.Nodup := s.increasing.imp Nat.ne_of_lt
  exact (nodup.subperm h).length_le

/-- A subset of the same size is the whole set. -/
theorem ScopeSet.eq_of_size {s t : ScopeSet} (h : ∀ x ∈ s, x ∈ t) (hsize : s.size = t.size) : s = t := by
  have nodup : s.toList.Nodup := s.increasing.imp Nat.ne_of_lt
  have hperm := (nodup.subperm h).perm_of_length_le (Nat.le_of_eq hsize.symm)
  exact ScopeSet.ext_mem fun x => hperm.mem_iff

namespace Store

/-- At most one binding has the name and the scopes of the identifier. -/
def BoundOnce (s : Store) (ident : Token) : Prop :=
  ∀ b ∈ s.bindings.toList, ∀ c ∈ s.bindings.toList, b.name = ident.name ∧ b.scopes = ident.scopes →
    c.name = ident.name ∧ c.scopes = ident.scopes → b.id = c.id

instance (s : Store) (ident : Token) : Decidable (s.BoundOnce ident) :=
  inferInstanceAs (Decidable (∀ b ∈ s.bindings.toList, ∀ c ∈ s.bindings.toList,
    b.name = ident.name ∧ b.scopes = ident.scopes → c.name = ident.name ∧ c.scopes = ident.scopes → b.id = c.id))

/-- An identifier refers to the only binding with its name and scopes, if that is not hidden from its own scopes. -/
theorem BoundOnce.resolveIdent {s : Store} {ident : Token} {b : Binding} (honce : s.BoundOnce ident) (hs : s.Numbered)
    (hident : ident.isIdent = true) (hb : b ∈ s.bindings.toList) (hname : b.name = ident.name)
    (hscopes : b.scopes = ident.scopes) (hshown : ∀ x, b.hiddenFrom = some x → x ∉ b.scopes) :
    s.resolveIdent ident = some b := by
  obtain ⟨name, hn⟩ := Option.isSome_iff_exists.1 hident
  have hident : ident.name = name := by
    unfold Tree.name
    rw [hn]
    rfl
  refine Option.bind_eq_some_iff.2 ⟨name, hn, (resolve_eq_some hs).2 ⟨hb, ?_, fun c hc hv => ?_⟩⟩
  · exact Binding.isVisible_iff.2 ⟨hname.trans hident, fun x hx => hscopes ▸ hx, hscopes ▸ hshown⟩
  · obtain ⟨hcname, hsub, _⟩ := Binding.isVisible_iff.1 hv
    rw [← hscopes] at hsub
    rcases Nat.lt_or_eq_of_le (ScopeSet.size_le hsub) with hlt | heq
    · exact Or.inl hlt
    · have hsame : c.scopes = b.scopes := ScopeSet.eq_of_size hsub heq
      have hid := honce c hc b hb ⟨hcname.trans hident.symm, hsame.trans hscopes⟩ ⟨hname, hscopes⟩
      exact Or.inr ⟨heq, Nat.le_of_eq hid⟩

end Store

namespace Parse

variable {run run' : Run}

theorem isIdent_of_aliasedNames {what : String} {tokens : List Token} {r : Option Token × Token}
    (h : aliasedNames what tokens run = .ok r run') : r.2.isIdent = true := by
  match tokens, h with
  | [name], h =>
    unfold aliasedNames at h
    dsimp only at h
    split at h
    · next hident =>
      cases h
      exact hident
    · cases h
  | [first, keyword, second], h =>
    unfold aliasedNames at h
    dsimp only at h
    split at h
    · next hident =>
      cases h
      exact (Bool.and_eq_true_iff.1 hident).2
    · cases h
  | [], h => cases h
  | [_, _], h => cases h
  | _ :: _ :: _ :: _ :: _, h => cases h

theorem isIdent_of_importSpecifiers {parts : List (List Token)} {specifiers : List ImportSpecifier}
    (h : importSpecifiers parts run = .ok specifiers run') : ∀ s ∈ specifiers, s.binding.isIdent = true := by
  induction parts generalizing run specifiers with
  | nil =>
    cases h
    exact fun _ h => by cases h
  | cons part parts ih =>
    unfold importSpecifiers at h
    rw [mapM_cons] at h
    obtain ⟨specifier, run₁, hfirst, h⟩ := Expand.bind_eq_ok h
    obtain ⟨rest, run₂, hrest, h⟩ := Expand.bind_eq_ok h
    cases h
    obtain ⟨names, run₃, hnames, hfirst⟩ := Expand.bind_eq_ok hfirst
    cases hfirst
    exact forall_mem_cons.2 ⟨isIdent_of_aliasedNames hnames, ih hrest⟩

theorem isIdent_of_defaultImport {binding : Option Token}
    (h : defaultImport stream run = .ok (binding, stream') run') : ∀ t ∈ binding, t.isIdent = true := by
  unfold defaultImport at h
  obtain ⟨isIdent, _, _, _, h⟩ := bind_eq_ok h
  obtain ⟨isFrom, _, _, _, h⟩ := bind_eq_ok h
  split at h
  · obtain ⟨t, _, _, hident, h⟩ := bind_eq_ok h
    obtain ⟨_, _, _, _, h⟩ := bind_eq_ok h
    cases h
    rintro _ ⟨⟩
    exact isIdent_of_expectIdent hident
  · cases h
    exact fun _ h => by cases h

/-- The names that an import binds are identifiers. -/
theorem isIdent_of_importDeclaration {i : Import}
    (h : importDeclaration stream run = .ok (i, stream') run') : ∀ t ∈ i.bindings, t.isIdent = true := by
  unfold importDeclaration at h
  obtain ⟨start, _, _, _, h⟩ := bind_eq_ok h
  obtain ⟨binding, _, _, hdefault, h⟩ := bind_eq_ok h
  obtain ⟨group, _, _, _, h⟩ := bind_eq_ok h
  have hbinding := isIdent_of_defaultImport hdefault
  have tail : ∀ (named : List ImportSpecifier) (stream : Stream) (run : Run), (∀ s ∈ named, s.binding.isIdent = true) →
      (do
        if ← peekIs (·.isWord "from") then advance else unexpected "`from`"
        let specifier ← moduleSpecifier
        let forSyntax ← forSyntax
        optionalSemicolon
        return { defaultBinding := binding, named, specifier, forSyntax, site := start.site.cover (← previousSite) } :
          Parse Import) stream run = .ok (i, stream') run' → ∀ t ∈ i.bindings, t.isIdent = true := by
    intro named stream run hnamed h
    have hend : ∀ stream run, (do
        let specifier ← moduleSpecifier
        let forSyntax ← forSyntax
        optionalSemicolon
        return { defaultBinding := binding, named, specifier, forSyntax, site := start.site.cover (← previousSite) } :
          Parse Import) stream run = .ok (i, stream') run' → ∀ t ∈ i.bindings, t.isIdent = true := by
      intro stream run h
      obtain ⟨specifier, _, _, _, h⟩ := bind_eq_ok h
      obtain ⟨forSyntax, _, _, _, h⟩ := bind_eq_ok h
      obtain ⟨_, _, _, _, h⟩ := bind_eq_ok h
      obtain ⟨site, _, _, _, h⟩ := bind_eq_ok h
      cases h
      intro t ht
      rcases mem_append.1 ht with ht | ht
      · exact hbinding t (Option.mem_toList.1 ht)
      · obtain ⟨s, hs, rfl⟩ := mem_map.1 ht
        exact hnamed s hs
    obtain ⟨isFrom, _, _, _, h⟩ := bind_eq_ok h
    split at h <;> obtain ⟨_, _, _, _, h⟩ := bind_eq_ok h <;> exact hend _ _ h
  split at h
  · obtain ⟨⟨tokens, site⟩, stream₁, run₁, _, h⟩ := bind_eq_ok h
    obtain ⟨named, stream₂, run₂, hnamed, h⟩ := bind_eq_ok h
    obtain ⟨_, _, hnamed, hlift⟩ := Expand.bind_eq_ok hnamed
    cases hlift
    exact tail named _ _ (isIdent_of_importSpecifiers hnamed) h
  · exact tail [] _ _ (fun _ h => by cases h) h

end Parse

namespace Parse

variable {s : Setup} {home : Home} {p : Passes}

/-- What is known after reading that succeeds. -/
theorem Sound.of_ok {α : Type} {Q : α → List Content} {x : Parse α} (hx : Sound ⟨False, True, []⟩ [] x Q) {run run' : Run} {a : α} (hr : run.Sound) (hs : run.Settled)
    (hk : Known True run.events stream.content) (h : x stream run = .ok (a, stream') run') :
    run'.Sound ∧ Run.Extends False run run' ∧ Known True run'.events (Q a ++ stream'.content) := by
  have hends := hx.expand stream run hr (fun _ => hs) (fun _ h => by cases h) (by simpa using hk)
  exact hends.ok h

theorem ne_importItem_of_exportItem {run run' : Run} (i : Import)
    (h : exportItem s home p stream run = .ok (item, stream') run') : item ≠ .importItem i := by
  unfold exportItem at h
  obtain ⟨start, _, _, _, h⟩ := bind_eq_ok h
  obtain ⟨group, _, _, _, h⟩ := bind_eq_ok h
  split at h
  · obtain ⟨r, _, _, _, h⟩ := bind_eq_ok h
    obtain ⟨specifiers, _, _, _, h⟩ := bind_eq_ok h
    obtain ⟨_, _, _, _, h⟩ := bind_eq_ok h
    obtain ⟨_, _, _, _, h⟩ := bind_eq_ok h
    cases h
    exact nofun
  · obtain ⟨exported, _, _, _, h⟩ := bind_eq_ok h
    obtain ⟨_, _, _, _, h⟩ := bind_eq_ok h
    cases h
    exact nofun

end Parse

theorem Import.mem_bindings {t : Token} : t ∈ i.bindings ↔ ∃ w ∈ i.wanted, w.2.1 = t := by
  simp [Import.bindings, Import.wanted, or_and_right, exists_or]

/-- Completing an item makes no imports. -/
theorem ModuleItem.eq_of_complete {run run' : Run}
    (h : item.complete body run = .ok (.importItem i) run') : item = .importItem i := by
  cases item with
  | importItem imported =>
    cases h
    rfl
  | exportItem exported site =>
    obtain ⟨_, _, _, h⟩ := Expand.bind_eq_ok h
    cases h
  | exportList specifiers site => cases h
  | statement inner =>
    obtain ⟨_, _, _, h⟩ := Expand.bind_eq_ok h
    cases h

theorem ModuleItem.mem_of_completeAll {completed : List ModuleItem}
    {run run' : Run} (h : items.mapM (·.complete body) run = .ok completed run')
    (hi : .importItem i ∈ completed) : .importItem i ∈ items := by
  induction items generalizing run completed with
  | nil =>
    cases h
    cases hi
  | cons item items ih =>
    rw [mapM_cons] at h
    obtain ⟨first, run₁, hfirst, h⟩ := Expand.bind_eq_ok h
    obtain ⟨rest, run₂, hrest, h⟩ := Expand.bind_eq_ok h
    cases h
    rcases mem_cons.1 hi with rfl | hi
    · exact eq_of_complete hfirst ▸ mem_cons_self
    · exact mem_cons_of_mem _ (ih hrest hi)

/-- The names in the export lists of a module that has a record are bound. -/
theorem ModuleRecord.isSome_of_addItems {store : Store} {r r' : ModuleRecord}
    (h : addItems store items r = .ok r') {specifiers : List ExportSpecifier} {site : Site}
    (hi : .exportList specifiers site ∈ items) : ∀ e ∈ specifiers, (store.resolveIdent e.inner).isSome = true := by
  have bound : ∀ {specifiers : List ExportSpecifier} {r r' : ModuleRecord}, addSpecifiers store specifiers r = .ok r' →
      ∀ e ∈ specifiers, (store.resolveIdent e.inner).isSome = true := by
    intro specifiers
    induction specifiers with
    | nil => exact fun _ _ h => by cases h
    | cons e rest ih =>
      intro r r' h
      rw [addSpecifiers] at h
      cases hres : store.resolveIdent e.inner with
      | none =>
        rw [hres] at h
        cases h
      | some b =>
        rw [hres] at h
        exact forall_mem_cons.2 ⟨by simp [hres], ih h⟩
  induction items generalizing r with
  | nil => cases hi
  | cons item rest ih =>
    cases item with
    | exportList list site =>
      rw [addItems] at h
      cases hlist : addSpecifiers store list r with
      | error ident =>
        rw [hlist] at h
        cases h
      | ok r₁ =>
        rw [hlist] at h
        rcases mem_cons.1 hi with heq | hi
        · cases heq
          exact bound hlist
        · exact ih h hi
    | _ => exact ih h ((mem_cons.1 hi).resolve_left fun heq => by cases heq)

end Hygiene
