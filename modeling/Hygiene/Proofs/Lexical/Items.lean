import Hygiene.Proofs.Lexical.Statements

/-!
# Items of modules are read in regions

Imports and exports are read in the region of their module. What an import brings is declared there. In a run without
transformers none is imported.
-/

namespace Hygiene

open Outline Token

variable {d : List Token → List Key} {u c : ScopeSet} {φ : Prop} {k : List Outline} {p : Passes} {α : Type}

namespace Expand

/-- What leaves a transformer has nothing to place. -/
theorem Bars.lex {x : Expand α} {Q : α → Prop} {L : α → List Outline} (hx : Bars x) : Lex d c φ k x Q L :=
  fun run a run' h plain => absurd plain (hx run a run' h)

/-- Reading of several parts that declares nothing. -/
theorem Lex.mapM {β : Type} {P : β → Prop} {xs : List α} {f : α → Expand β}
    (hf : ∀ a ∈ xs, Lex d c φ k (f a) P fun _ => k) :
    Lex d c φ k (xs.mapM f) (fun list => ∀ b ∈ list, P b) fun _ => k := by
  induction xs with
  | nil => exact Lex.done (fun _ => nofun) rfl
  | cons a xs ih =>
    rw [List.mapM_cons]
    refine .bind (hf a List.mem_cons_self) fun b => ?_
    refine .bind ((ih fun a' ha' => hf a' (List.mem_cons_of_mem _ ha')).assume And.right) fun list => ?_
    exact Lex.done (fun h => List.forall_mem_cons.2 ⟨h.2.1, h.1⟩) rfl

/-- What an import brings is declared in the region in which the import stands. -/
theorem lex_bindImport (s : Setup) (record : ModuleRecord) (imported : Import) {wanted : String × Token × Site}
    (h : φ → wanted.2.1.scopes = c ∧ wanted.2.1.isIdent = true) :
    Adds d c φ k (bindImport s record imported wanted) fun _ => [declare wanted.2.1] := by
  obtain ⟨name, binding, site⟩ := wanted
  unfold bindImport
  dsimp only
  split
  · exact .fail
  · refine (Bars.bind (bars_bind_transformer _ _) fun id => .bind .get fun run => ?_).lex
    split
    · exact .modify fun _ plain => plain
    · exact .pure
  · refine .ite (fun _ => ?_) fun _ => ?_
    · refine .bind Still.get.lex fun run => .bind (Still.executes (executes_instantiate s _ _ _)).lex fun values => ?_
      refine .bind (lex_bind fun hφ => h hφ.2.2) fun id => ?_
      exact Still.lex (Still.modify (fun _ => rfl) fun _ => rfl)
    · exact Lex.discard (lex_bind h)

/-- Imported names are declared in the region. -/
theorem lex_bindImports (s : Setup) (record : ModuleRecord) (imported : Import) {wanted : List (String × Token × Site)}
    (h : φ → ∀ w ∈ wanted, w.2.1.scopes = c ∧ w.2.1.isIdent = true) :
    Adds d c φ k (wanted.forM (bindImport s record imported)) fun _ => (wanted.map (·.2.1)).map declare := by
  induction wanted generalizing φ k with
  | nil => exact .here (List.append_nil k)
  | cons w wanted ih =>
    refine .bind (lex_bindImport s record imported fun hφ => h hφ w List.mem_cons_self) fun _ => ?_
    have hrest := ih (φ := True ∧ φ) (k := k ++ [declare w.2.1]) fun hφ w' hw' => h hφ.2 w' (List.mem_cons_of_mem _ hw')
    simpa [Adds] using hrest

theorem still_request (specifier : String) : Still (request specifier) := Still.modify (fun _ => rfl) fun _ => rfl

/-- An import declares its names in the region. -/
theorem lex_processImport (s : Setup) (hp : p.Lexical) {imported : Import}
    (h : φ → ∀ t ∈ imported.bindings, t.scopes = c ∧ t.isIdent = true) :
    Adds d c φ k (processImport s p imported) fun _ => imported.bindings.map declare := by
  have hbindings : imported.wanted.map (·.2.1) = imported.bindings := by
    simp [Import.wanted, Import.bindings, Function.comp_def]
  have hload : Lex d c φ k (p.load imported.specifier imported.site) (fun _ => True) fun _ => k := by
    simpa using ((hp.load d c _ _).assume fun _ : φ => trivial).frame (k := k)
  refine .bind (still_request _).lex fun _ => .bind (hload.assume And.right) fun record => ?_
  rw [← hbindings]
  refine lex_bindImports s record imported fun hφ w hw => h hφ.2.2 _ ?_
  rw [← hbindings]
  exact List.mem_map_of_mem hw

end Expand

namespace Parse

variable {parts : List (List Token)}

theorem lex_aliasedNames (what : String) {tokens : List Token} (h : φ → Uniform c tokens) :
    Expand.Lex d c φ k (aliasedNames what tokens) (fun r => ∀ t ∈ r.1.toList ++ [r.2], t.scopes = c ∧ t.isIdent = true)
      fun _ => k := by
  unfold aliasedNames
  dsimp only
  split
  · next name =>
    refine Expand.Lex.ite (fun hi => Expand.Lex.done (fun hφ => ?_) rfl) fun _ => Expand.Lex.fail
    simp [(h hφ).scopes_eq, hi]
  · next first keyword second =>
    refine Expand.Lex.ite (fun hi => Expand.Lex.done (fun hφ => ?_) rfl) fun _ => Expand.Lex.fail
    have hfirst := ((h hφ).of_mem (t := first) (by simp)).scopes_eq
    have hsecond := ((h hφ).of_mem (t := second) (by simp)).scopes_eq
    simp only [Bool.and_eq_true] at hi
    simp [hfirst, hsecond, hi.1.2, hi.2]
  · exact Expand.Lex.fail

/-- Imported names carry the scopes of the region. -/
theorem lex_importSpecifiers (h : φ → Uniform c parts.flatten) : Expand.Lex d c φ k (importSpecifiers parts)
      (fun list => ∀ s ∈ list, s.binding.scopes = c ∧ s.binding.isIdent = true) fun _ => k := by
  refine Expand.Lex.mapM fun part hpart => ?_
  have hpart' : part ⊆ parts.flatten := fun t ht => List.mem_flatten.2 ⟨part, hpart, ht⟩
  refine Expand.Lex.bind (lex_aliasedNames _ fun hφ => (h hφ).mono hpart') fun r => ?_
  exact Expand.Lex.done (fun hφ => hφ.1 _ (by simp)) rfl

/-- So do exported names. -/
theorem lex_exportSpecifiers (h : φ → Uniform c parts.flatten) : Expand.Lex d c φ k (exportSpecifiers parts)
      (fun list => ∀ s ∈ list, s.inner.scopes = c ∧ s.inner.isIdent = true) fun _ => k := by
  refine Expand.Lex.mapM fun part hpart => ?_
  have hpart' : part ⊆ parts.flatten := fun t ht => List.mem_flatten.2 ⟨part, hpart, ht⟩
  refine Expand.Lex.bind (lex_aliasedNames _ fun hφ => (h hφ).mono hpart') fun r => ?_
  obtain ⟨source, binding⟩ := r
  cases source with
  | some inner => exact Expand.Lex.done (fun hφ => hφ.1 inner (by simp)) rfl
  | none => exact Expand.Lex.done (fun hφ => hφ.1 binding (by simp)) rfl

theorem lex_defaultImport :
    Lex d u c φ k defaultImport (fun o => ∀ t ∈ o.toList, t.scopes = u ∧ t.isIdent = true) fun _ => k := by
  refine .bind (lex_peekIs _) fun _ => .bind (lex_peekIs _) fun _ => .ite (fun _ => ?_) fun _ => ?_
  · refine .bind (lex_expectIdent _) fun binding => ?_
    have hcomma : ∀ {ψ : Prop}, Skims d u c ψ k (discard (eat ",")) :=
      .map (lex_eat ",") (fun _ _ _ => trivial) fun _ => rfl
    refine .bind hcomma fun _ => Lex.done (fun h => ?_) rfl
    simpa using h.2.1
  · exact Lex.done (fun _ => by simp) rfl

theorem lex_moduleSpecifier : Skims d u c φ k moduleSpecifier := by
  refine .bind lex_peek fun t => ?_
  split
  · exact .bind lex_advance fun _ => .here rfl
  · exact lex_unexpected _

theorem lex_forSyntax : Skims d u c φ k forSyntax := by
  refine .bind (lex_peekIs _) fun _ => .bind (lex_peekNthIs _ _) fun _ => .ite (fun _ => ?_) fun _ => ?_
  · exact .bind lex_advance fun _ => .bind lex_advance fun _ => .here rfl
  · exact .here rfl

/-- An import binds identifiers of the region. -/
theorem lex_importDeclaration : Lex d u u φ k importDeclaration
    (fun i => ∀ t ∈ i.bindings, t.scopes = u ∧ t.isIdent = true) fun _ => k := by
  refine .bind (lex_next _) fun start => .bind lex_defaultImport fun binding => ?_
  have hrest : ∀ {ψ : Prop} (named : List ImportSpecifier),
      (ψ → (∀ t ∈ binding.toList, t.scopes = u ∧ t.isIdent = true) ∧
        ∀ s ∈ named, s.binding.scopes = u ∧ s.binding.isIdent = true) →
      Lex d u u ψ k (do
        if ← peekIs (·.isWord "from") then advance else unexpected "`from`"
        let specifier ← moduleSpecifier
        let forSyntax ← forSyntax
        optionalSemicolon
        return {
          defaultBinding := binding, named, specifier, forSyntax, site := start.site.cover (← previousSite) : Import })
        (fun i => ∀ t ∈ i.bindings, t.scopes = u ∧ t.isIdent = true) fun _ => k := by
    intro ψ named hnamed
    refine .bind (lex_peekIs _) fun _ => ?_
    have hend : ∀ {χ : Prop}, (χ → ψ) → Lex d u u χ k (do
        let specifier ← moduleSpecifier
        let forSyntax ← forSyntax
        optionalSemicolon
        return {
          defaultBinding := binding, named, specifier, forSyntax, site := start.site.cover (← previousSite) : Import })
        (fun i => ∀ t ∈ i.bindings, t.scopes = u ∧ t.isIdent = true) fun _ => k := by
      intro χ hψ
      refine .bind lex_moduleSpecifier fun _ => .bind lex_forSyntax fun _ => .bind lex_optionalSemicolon fun _ => ?_
      refine .bind lex_previousSite fun _ => Lex.done (fun h => ?_) rfl
      obtain ⟨hbinding, hspecifiers⟩ := hnamed (hψ h.2.2.2.2)
      refine List.forall_mem_append.2 ⟨hbinding, fun t ht => ?_⟩
      obtain ⟨s, hs, rfl⟩ := List.mem_map.1 ht
      exact hspecifiers s hs
    refine .ite (fun _ => .bind lex_advance fun _ => hend fun h => h.2.2) fun _ => ?_
    exact .bind (lex_unexpected (Q := fun _ => True) (L := fun _ => k) _) fun _ => hend fun h => h.2.2
  refine .bind (lex_peekGroup _) fun _ => .ite (fun _ => ?_) fun _ => ?_
  · refine .bind (lex_expectGroup _ _) fun r => ?_
    refine .bind (.lift (lex_importSpecifiers fun h => h.1.splitCommas)) fun named => ?_
    exact hrest named fun h => ⟨h.2.2.2.1, h.1⟩
  · exact hrest [] fun h => ⟨h.2.1, by simp⟩

/-- A token that was tested is read. -/
theorem lex_peekIs_next {β : Type} {Q : β → Prop} {L : β → List Outline} {test : Token → Bool} {expected : String}
    {f : Token → Parse β} {y : Parse β} (hf : ∀ t, test t = true → Lex d u c (Uniform u [t] ∧ φ) k (f t) Q L)
    (hy : Lex d u c φ k y Q L) : Lex d u c φ k (do if ← peekIs test then next expected >>= f else y) Q L := by
  intro stream
  obtain ⟨before, after⟩ := stream
  cases after with
  | nil => exact hy _
  | cons t after =>
    show Expand.Lex d c _ k ((if test t then next expected >>= f else y : Parse β) ⟨before, t :: after⟩) _ _
    split
    · next ht =>
      refine ((hf t ht) ⟨t :: before, after⟩).assume fun h => ?_
      obtain ⟨htoken, hafter⟩ := Token.uniform_cons.1 h.1
      exact ⟨hafter, htoken, h.2⟩
    · exact hy _

/-- What is exported is placed in the region. -/
theorem lex_exportDeclaration (s : Setup) (home : Home) (hp : p.Lexical) (ha : p.Agrees s) :
    Adds d c c φ k (exportDeclaration s home p) ExportDeclaration.outline := by
  refine .bind (lex_peekIs _) fun _ => .ite (fun _ => ?_) fun _ => ?_
  · exact .bind (lex_function true) fun fn => .here rfl
  refine .bind (lex_declarationKeyword home) fun kind => ?_
  cases kind with
  | some kind =>
    refine .bind (lex_declaration s home hp ha kind) fun r => .bind lex_optionalSemicolon fun _ => ?_
    exact .here rfl
  | none =>
    refine lex_peekIs_next (fun binding hb => ?_) (lex_unexpected _)
    refine .bind hp.assign fun value => .bind lex_optionalSemicolon fun _ => ?_
    refine .bind (.lift (Expand.lex_bindVariable fun h => ⟨h.2.2.1.scopes_eq, ?_⟩)) fun _ => ?_
    · unfold Tree.isWord at hb
      unfold Tree.isIdent
      rw [of_decide_eq_true hb]
      rfl
    · refine .pure (fun _ => trivial) (by simp [ExportDeclaration.outline]) fun _ R store h => ?_
      obtain ⟨h, hbinding, _⟩ := placedAll_append.1 h
      obtain ⟨hk, hvalue⟩ := placedAll_append.1 h
      exact placedAll_append.2 ⟨hk, hbinding, hvalue⟩

theorem lex_exportItem (s : Setup) (home : Home) (hp : p.Lexical) (ha : p.Agrees s) :
    Adds d c c φ k (exportItem s home p) ModuleItem.outline := by
  refine .bind (lex_next _) fun start => .bind (lex_peekGroup _) fun _ => .ite (fun _ => ?_) fun _ => ?_
  · refine .bind (lex_expectGroup _ _) fun r => ?_
    refine .bind (.lift (lex_exportSpecifiers fun h => h.1.splitCommas)) fun specifiers => ?_
    refine .bind lex_optionalSemicolon fun _ => .bind lex_previousSite fun _ => ?_
    refine .pure (fun _ => trivial) ?_ fun h R store hk => placedAll_append.2 ⟨hk, placedAll_iff.2 fun o ho => ?_⟩
    · have hinert : ∀ o ∈ specifiers.map (use ·.inner), o.Inert := by simp [Outline.Inert]
      rw [ModuleItem.outline, keys_append, keys, keys, declared_of_inert hinert, List.map_nil, List.append_nil]
    · obtain ⟨specifier, hs, rfl⟩ := List.mem_map.1 ho
      exact h.2.2.1 specifier hs
  · refine .bind (lex_exportDeclaration s home hp ha) fun exported => .bind lex_previousSite fun _ => ?_
    exact .here rfl

/-- Each item is placed in the region of the module. -/
theorem lex_moduleItem (s : Setup) (home : Home) (hp : p.Lexical) (ha : p.Agrees s) :
    Adds d c c φ k (moduleItem s home p) fun o => o.toList.flatMap ModuleItem.outline := by
  have hskip : ∀ {ψ : Prop}, Adds d c c ψ k (pure none) fun o => o.toList.flatMap ModuleItem.outline :=
    .here (List.append_nil k)
  refine .bind (lex_invokeHere s) fun _ => .ite (fun _ => hskip) fun _ => ?_
  refine .bind (lex_peekIs _) fun _ => .ite (fun _ => ?_) fun _ => ?_
  · refine .bind lex_importDeclaration fun imported => ?_
    refine .bind (.lift (Expand.lex_processImport s hp And.left)) fun _ => .here ?_
    simp [ModuleItem.outline]
  refine .bind (lex_peekIs _) fun _ => .ite (fun _ => ?_) fun _ => ?_
  · exact .map (lex_exportItem s home hp ha) (fun _ _ _ => trivial) fun item => by simp
  · refine .bind hp.stmt fun st => .here ?_
    cases st with
    | none => rfl
    | some st => simp [ModuleItem.outline, Statement.outlineOption]

theorem lex_moduleItems (s : Setup) (home : Home) (hp : p.Lexical) (ha : p.Agrees s) (limit : Nat) :
    Adds d c c φ k (moduleItems s home p limit) fun items => items.flatMap ModuleItem.outline := by
  induction limit generalizing φ k with
  | zero => exact lex_exhausted
  | succ limit ih =>
    refine .bind lex_atEnd fun _ => .ite (fun _ => .here (List.append_nil k)) fun _ => ?_
    refine .bind (lex_moduleItem s home hp ha) fun item => ?_
    cases item with
    | some item =>
      refine .bind ih fun items => .here ?_
      simp
    | none =>
      simpa using ih

end Parse

end Hygiene
