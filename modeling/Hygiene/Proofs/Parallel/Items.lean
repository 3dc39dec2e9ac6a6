import Hygiene.Proofs.Parallel.Statements

/-!
# Alike items

The readers of imports, exports and whole modules build alike items. Of carrying out an import it is assumed.
-/

namespace Hygiene

open List

namespace Parallel

variable {K : Likeness} {P : Parallel K} {p p' : Passes} {s s' : Setup} {home : Home} {parts parts' : List (List Token)}

/-! ### Imports -/

theorem aliasedNames (what : String) {ts ts' : List Token} (h : Forall₂ K.token ts ts') :
    P.Rel (fun r r' => Option.Rel K.token r.1 r'.1 ∧ K.token r.2 r'.2) (Parse.aliasedNames what ts)
      (Parse.aliasedNames what ts') := by
  have malformed := Likeness.tokens_cover h
  unfold Parse.aliasedNames
  rw [Likeness.textAll h]
  cases h with
  | nil => exact P.fail _ malformed
  | cons hfirst hs =>
    cases hs with
    | nil =>
      dsimp only
      rw [Likeness.isIdent hfirst]
      exact .ite (.pure ⟨.none, hfirst⟩) (P.fail _ malformed)
    | cons hkeyword hs =>
      cases hs with
      | nil => exact P.fail _ malformed
      | cons hsecond hs =>
        cases hs with
        | cons => exact P.fail _ malformed
        | nil =>
          dsimp only
          rw [Likeness.isWord hkeyword, Likeness.isIdent hfirst, Likeness.isIdent hsecond]
          exact .ite (.pure ⟨.some hfirst, hsecond⟩) (P.fail _ malformed)

/-- Imported names are read alike. -/
theorem importSpecifiers (h : Forall₂ (Forall₂ K.token) parts parts') :
    P.Rel (Forall₂ (ImportSpecifier.Alike K)) (Parse.importSpecifiers parts) (Parse.importSpecifiers parts') :=
  .mapM (fun _ _ hpart => .bind (aliasedNames _ hpart) fun _ _ hr => .pure (.mk hr.1 hr.2 (Likeness.tokens_cover hpart))) h

/-- Exported names are read alike. -/
theorem exportSpecifiers (h : Forall₂ (Forall₂ K.token) parts parts') :
    P.Rel (Forall₂ (ExportSpecifier.Alike K)) (Parse.exportSpecifiers parts) (Parse.exportSpecifiers parts') := by
  refine .mapM (fun part part' hpart => .bind (aliasedNames _ hpart) fun r r' hr => ?_) h
  have hsite := Likeness.tokens_cover hpart
  obtain ⟨source, name⟩ := r
  obtain ⟨source', name'⟩ := r'
  obtain ⟨hsource, hname⟩ := hr
  cases hsource with
  | none => exact .pure (.mk hname .none hsite)
  | some hsource => exact .pure (.mk hsource (.some hname) hsite)

theorem defaultImport : P.Reads (Option.Rel K.token) Parse.defaultImport Parse.defaultImport := by
  refine .after (peekIs Likeness.isIdent) fun _ => .after (peekIsWord "from") fun _ => .ite ?_ (.pure .none)
  refine .bind (expectIdent _) fun _ _ h => ?_
  exact .after (.map (eat ",") fun _ _ _ => rfl) fun _ => .pure (.some h)

theorem moduleSpecifier : P.Reads Eq Parse.moduleSpecifier Parse.moduleSpecifier := by
  refine .bind peek fun _ _ ht => ?_
  cases ht with
  | none => exact unexpected _
  | @some t t' ht =>
    cases t with
    | nest mark shape ts =>
      obtain ⟨mark', ts', _, _, rfl⟩ := K.nest ht
      exact unexpected _
    | atom mark a =>
      obtain ⟨mark', _, rfl⟩ := K.atom ht
      cases a with
      | str text => exact .after advance fun _ => .pure rfl
      | _ => exact unexpected _

theorem forSyntax : P.Reads Eq Parse.forSyntax Parse.forSyntax := by
  refine .after (peekIsWord "for") fun _ => .after (peekNthIs 1 (Likeness.isWord · "syntax")) fun _ => ?_
  exact .ite (.after advance fun _ => .after advance fun _ => .pure rfl) (.pure rfl)

/-- The word before the specifier of a module is read; then the reading goes on. -/
theorem afterFrom {α : Type} {R : α → α → Prop} {x x' : Parse α} (hx : P.Reads R x x') : P.Reads R
    (do
      if ← Parse.peekIs (·.isWord "from") then Parse.advance else Parse.unexpected "`from`"
      x)
    (do
      if ← Parse.peekIs (·.isWord "from") then Parse.advance else Parse.unexpected "`from`"
      x') :=
  .after (peekIsWord "from") fun _ => .ite (.after advance fun _ => hx) (.after (unexpected _) fun _ => hx)

/-- Imports are read alike. -/
theorem importDeclaration : P.Reads (Import.Alike K) Parse.importDeclaration Parse.importDeclaration := by
  refine .bind (next _) fun start start' hstart => .bind defaultImport fun _ _ hbinding => .after (peekGroup _) fun _ => ?_
  have hsite := Likeness.token_site hstart
  refine .ite (.bind (expectGroup _ _) fun _ _ hr => ?_) ?_
  · refine .bind (.lift (importSpecifiers (Likeness.splitCommas hr.1))) fun _ _ hnamed => afterFrom ?_
    refine .after moduleSpecifier fun _ => .after forSyntax fun _ => .after optionalSemicolon fun _ => ?_
    exact .bind previousSite fun _ _ hlast => .pure (.mk hbinding hnamed (K.cover hsite hlast))
  · refine afterFrom (.after moduleSpecifier fun _ => .after forSyntax fun _ => .after optionalSemicolon fun _ => ?_)
    exact .bind previousSite fun _ _ hlast => .pure (.mk hbinding .nil (K.cover hsite hlast))

/-! ### Exports -/

theorem exportDeclaration (hd : P.Declares s s' home p p') (hp : P.Ties p p') :
    P.Reads (ExportDeclaration.Alike K) (Parse.exportDeclaration s home p) (Parse.exportDeclaration s' home p') := by
  refine .after (peekIsWord "function") fun _ => .ite (.bind (function true) fun _ _ hf => .pure (.function hf)) ?_
  refine .bind (declarationKeyword home) fun kind _ hkind => ?_
  obtain ⟨rfl, hallowed⟩ := hkind
  cases kind with
  | some kind =>
    exact .bind (declaration hd hp (hallowed kind rfl)) fun _ _ hd => .after optionalSemicolon fun _ => .pure (.declaration hd)
  | none =>
    refine .after (peekIsWord "default") fun _ => .ite ?_ (unexpected _)
    refine .bind (next _) fun _ _ ht => .bind hp.assignment fun _ _ he => .after optionalSemicolon fun _ => ?_
    exact .after (.lift (P.bindVariable ht)) fun _ => .pure (.defaultValue ht he)

/-- Exports are read alike when declarations are. -/
theorem exportItem (hd : P.Declares s s' home p p') (hp : P.Ties p p') :
    P.Reads (ModuleItem.Alike K) (Parse.exportItem s home p) (Parse.exportItem s' home p') := by
  refine .bind (next _) fun _ _ hstart => .after (peekGroup _) fun _ => .ite (.bind (expectGroup _ _) fun _ _ hr => ?_) ?_
  · refine .bind (.lift (exportSpecifiers (Likeness.splitCommas hr.1))) fun _ _ hl => .after optionalSemicolon fun _ => ?_
    exact .bind previousSite fun _ _ hsite => .pure (.exportList hl (K.cover (Likeness.token_site hstart) hsite))
  · refine .bind (exportDeclaration hd hp) fun _ _ he => .bind previousSite fun _ _ hsite => ?_
    exact .pure (.exportItem he (K.cover (Likeness.token_site hstart) hsite))

/-! ### Modules -/

section Modules

variable (hi : P.Reads Eq (Parse.invokeHere s) (Parse.invokeHere s')) (hd : P.Declares s s' home p p')
  (himport : ∀ i i', Import.Alike K i i' → P.Rel Eq (Expand.processImport s p i) (Expand.processImport s' p' i'))
  (hp : P.Ties p p')

include hi hd himport hp

/-- Items are read alike. -/
theorem moduleItem :
    P.Reads (Option.Rel (ModuleItem.Alike K)) (Parse.moduleItem s home p) (Parse.moduleItem s' home p') := by
  refine .after hi fun _ => .ite (.pure .none) (.after (peekIsWord "import") fun _ => .ite ?_ ?_)
  · refine .bind importDeclaration fun i i' h => .after (.lift (himport i i' h)) fun _ => ?_
    exact .pure (.some (.importItem h))
  · refine .after (peekIsWord "export") fun _ => .ite (.map (exportItem hd hp) fun _ _ h => .some h) ?_
    refine .bind hp.statement fun _ _ h => ?_
    cases h with
    | none => exact .pure .none
    | some h => exact .pure (.some (.statement h))

/-- So are all items of a module. -/
theorem moduleItems (limit : Nat) :
    P.Reads (Forall₂ (ModuleItem.Alike K)) (Parse.moduleItems s home p limit) (Parse.moduleItems s' home p' limit) := by
  induction limit with
  | zero => exact .exhausted
  | succ limit ih =>
    refine .after atEnd fun _ => .ite (.pure .nil) (.bind (moduleItem hi hd himport hp) fun _ _ h => ?_)
    cases h with
    | none => exact ih
    | some h => exact .bind ih fun _ _ hs => .pure (.cons h hs)

/-- The expanded items of a module are alike. -/
theorem expandItems {ts ts' : List Token} (hts : Forall₂ K.token ts ts') :
    P.Rel (Forall₂ (ModuleItem.Alike K)) (Expand.moduleItems s home p ts) (Expand.moduleItems s' home p' ts') := by
  unfold Expand.moduleItems
  rw [← hp.limit]
  exact .bind ((moduleItems hi hd himport hp _).on hts) fun _ _ h => .mapM (fun _ _ h => completeItem hp.body h) h.1

end Modules

end Parallel

end Hygiene
