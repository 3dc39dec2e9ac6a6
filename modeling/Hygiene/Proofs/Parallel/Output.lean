import Hygiene.Output.Lower
import Hygiene.Proofs.Parallel.Alike

/-!
# Writing alike terms

Two ways to write the output are compared on alike terms. `Lowering.Corresponds` says which nodes count as written
alike; it goes from parts to nodes, and so to whole modules.
-/

namespace Hygiene

open List

section Fields

variable (N : Node → Node → Prop) (M : String → String → Prop)

/-- The fields have the same content, up to their nodes and names. -/
inductive Field.Alike : Field → Field → Prop
  | absent : Field.Alike .absent .absent
  | flag {b} : Field.Alike (.flag b) (.flag b)
  | number {x} : Field.Alike (.number x) (.number x)
  | text {s} : Field.Alike (.text s) (.text s)
  | name {s s'} : M s s' → Field.Alike (.name s) (.name s')
  | node {n n'} : N n n' → Field.Alike (.node n) (.node n')
  | nodes {l l'} : Forall₂ N l l' → Field.Alike (.nodes l) (.nodes l')

/-- The fields have the same keys, and alike content. -/
inductive Field.AlikeAll : List (String × Field) → List (String × Field) → Prop
  | nil : Field.AlikeAll [] []
  | cons {key f f' l l'} : Field.Alike N M f f' → Field.AlikeAll l l' → Field.AlikeAll ((key, f) :: l) ((key, f') :: l')

end Fields

/-- Fields with equal parts are equal. -/
theorem Field.AlikeAll.eq {l l' : List (String × Field)} (h : Field.AlikeAll Eq Eq l l') : l = l' := by
  induction h with
  | nil => rfl
  | cons hf _ ih =>
    cases hf with
    | name h => rw [h, ih]
    | node h => rw [h, ih]
    | nodes h =>
      have h : _ = _ := forall₂_eq_eq_eq ▸ h
      rw [h, ih]
    | _ => rw [ih]

variable {K : Likeness} {N : Node → Node → Prop} {M : String → String → Prop}

theorem ExportSpecifier.Alike.exportName {s s' : ExportSpecifier} (h : s.Alike K s') : s.exportName = s'.exportName := by
  obtain ⟨hinner, houter, _⟩ := h
  cases houter with
  | none => exact congrArg (Option.getD · "") (Likeness.ident? hinner)
  | some houter => exact congrArg (Option.getD · "") (Likeness.ident? houter)

namespace Lowering

variable {w w' : Lowering}

/-- Alike tokens have names that correspond, and what is made of nodes that correspond does so too. -/
structure Corresponds (K : Likeness) (N : Node → Node → Prop) (M : String → String → Prop) (w w' : Lowering) : Prop where
  name {t t' : Token} : K.token t t' → M (w.name t) (w'.name t')
  unnamed : M "" ""
  isTransformer {t t' : Token} : K.token t t' → w.isTransformer t = w'.isTransformer t'
  bare {kind : String} {fields fields' : List (String × Field)} :
    Field.AlikeAll N M fields fields' → N (.mk kind none fields) (.mk kind none fields')
  node {kind : String} {site site' : Site} {fields fields' : List (String × Field)} :
    K.site site site' → Field.AlikeAll N M fields fields' → N (w.node kind site fields) (w'.node kind site' fields')

/-- The two leave the inner name out of the same entries of export lists. -/
def SameLists (K : Likeness) (w w' : Lowering) (item : ModuleItem) : Prop :=
  ∀ specifiers site, item = .exportList specifiers site → ∀ s ∈ specifiers, ∀ s', s.Alike K s' →
    (w.name s.inner = s.exportName ↔ w'.name s'.inner = s'.exportName)

namespace Corresponds

section

variable (h : Corresponds K N M w w')

include h

/-- Alike bindings are written alike. -/
theorem binding {t t' : Token} (ht : K.token t t') : N (w.binding t) (w'.binding t') :=
  h.node (Likeness.token_site ht) (.cons (.name (h.name ht)) .nil)

theorem optionalBinding {t t' : Option Token} (ht : Option.Rel K.token t t') :
    Field.Alike N M (.optional (t.map w.binding)) (.optional (t'.map w'.binding)) := by
  cases ht with
  | none => exact .absent
  | some ht => exact .node (h.binding ht)

theorem parameters {ps ps' : List Token} {r r' : Option Token} (hps : Forall₂ K.token ps ps')
    (hr : Option.Rel K.token r r') : N (w.parameters ps r) (w'.parameters ps' r') := by
  refine h.bare (.cons (.nodes ?_) (.cons (h.optionalBinding hr) .nil))
  exact forall₂_map_left_iff.2 (forall₂_map_right_iff.2 (hps.imp fun _ _ => h.binding))

theorem functionBody {l l' : List Node} (hl : Forall₂ N l l') :
    N (Lowering.functionBody l) (Lowering.functionBody l') := h.bare (.cons (.nodes .nil) (.cons (.nodes hl) .nil))

/-- Alike functions have alike fields. -/
theorem functionFields {name name' : Field} {ps ps' : List Token} {r r' : Option Token} {l l' : List Node}
    (hn : Field.Alike N M name name') (hps : Forall₂ K.token ps ps') (hr : Option.Rel K.token r r')
    (hl : Forall₂ N l l') : Field.AlikeAll N M (w.functionFields name ps r l) (w'.functionFields name' ps' r' l') :=
  .cons .flag (.cons hn (.cons (.node (h.parameters hps hr)) (.cons (.node (h.functionBody hl)) .nil)))

end

mutual

/-- Alike expressions are written alike. -/
theorem expression (h : Corresponds K N M w w') : {e e' : Expression} → e.Alike K e' → N (w.expression e) (w'.expression e')
  | _, _, .number hs => h.node hs (.cons .number .nil)
  | _, _, .str hs => h.node hs (.cons .text .nil)
  | _, _, .bool hs => h.node hs (.cons .flag .nil)
  | _, _, .null hs => h.node hs .nil
  | _, _, .ident ht hs => h.node hs (.cons (.name (h.name ht)) .nil)
  | _, _, .array hl hs => h.node hs (.cons (.nodes (h.expressions hl)) .nil)
  | _, _, .object hl hs => h.node hs (.cons (.nodes (h.properties hl)) .nil)
  | _, _, .lambda (.mk _ hn hps hr hb _) hs => by
    cases ‹Bool› with
    | true => exact h.arrowExpression hb hps hr hs
    | false =>
      rw [Lowering.expression, Lowering.expression]
      exact h.node hs (h.functionFields (h.optionalBinding hn) hps hr (h.bodyStatements hb))
  | _, _, .call he hl hs => h.node hs (.cons (.node (h.expression he)) (.cons (.nodes (h.expressions hl)) .nil))
  | _, _, .member he hs => h.node hs (.cons (.node (h.expression he)) (.cons .text .nil))
  | _, _, .index he hk hs => h.node hs (.cons (.node (h.expression he)) (.cons (.node (h.expression hk)) .nil))
  | _, _, .unary he hs => h.node hs (.cons .text (.cons (.node (h.expression he)) .nil))
  | _, _, .binary hl hr hs =>
    h.node hs (.cons .text (.cons (.node (h.expression hl)) (.cons (.node (h.expression hr)) .nil)))
  | _, _, .conditional ht hc ha hs =>
    h.node hs (.cons (.node (h.expression ht)) (.cons (.node (h.expression hc)) (.cons (.node (h.expression ha)) .nil)))
  | _, _, .assign ht hv hs => h.node hs (.cons (.node (h.expression ht)) (.cons (.node (h.expression hv)) .nil))
  | _, _, .template _ hts hs => by
    rw [Lowering.expression, Lowering.expression, Likeness.textAll hts]
    exact h.node hs (.cons .text .nil)

/-- Arrows with alike bodies are written alike. -/
theorem arrowExpression (h : Corresponds K N M w w') : {b b' : Body} → b.Alike K b' →
    ∀ {id id' : Nat} {name name' : Option Token} {ps ps' : List Token}
    {r r' : Option Token} {site site' s s' : Site}, Forall₂ K.token ps ps' → Option.Rel K.token r r' → K.site s s' →
      N (w.expression (.lambda ⟨id, name, ps, r, b, true, site⟩ s))
        (w'.expression (.lambda ⟨id', name', ps', r', b', true, site'⟩ s'))
  | _, _, .concise he => fun hps hr hs =>
    h.node hs (.cons (.node (h.parameters hps hr)) (.cons (.node (h.expression he)) .nil))
  | _, _, .deferred _ => fun hps hr hs =>
    h.node hs (.cons (.node (h.parameters hps hr)) (.cons (.node (h.functionBody .nil)) .nil))
  | _, _, .block hl => fun hps hr hs =>
    h.node hs (.cons (.node (h.parameters hps hr)) (.cons (.node (h.functionBody (h.statements hl))) .nil))

theorem expressions (h : Corresponds K N M w w') : {l l' : List Expression} → Forall₂ (Expression.Alike K) l l' →
    Forall₂ N (w.expressions l) (w'.expressions l')
  | _, _, .nil => .nil
  | _, _, .cons he hl => .cons (h.expression he) (h.expressions hl)

theorem optionalExpression (h : Corresponds K N M w w') : {e e' : Option Expression} → Option.Rel (Expression.Alike K) e e' →
    Field.Alike N M (w.optionalExpression e) (w'.optionalExpression e')
  | _, _, .none => .absent
  | _, _, .some he => .node (h.expression he)

theorem properties (h : Corresponds K N M w w') : {l l' : List Property} → Forall₂ (Property.Alike K) l l' →
    Forall₂ N (w.properties l) (w'.properties l')
  | _, _, .nil => .nil
  | _, _, .cons (.mk he hs) hl =>
    .cons (h.node hs (.cons (.node (h.bare (.cons .text .nil))) (.cons (.node (h.expression he)) .nil))) (h.properties hl)

theorem bodyStatements (h : Corresponds K N M w w') : {b b' : Body} → b.Alike K b' → Forall₂ N (w.bodyStatements b) (w'.bodyStatements b')
  | _, _, .deferred _ => .nil
  | _, _, .block hl => h.statements hl
  | _, _, .concise he => .cons (h.node he.site (.cons (.node (h.expression he)) .nil)) .nil

theorem functionDeclaration (h : Corresponds K N M w w') : {f f' : Lambda} → f.Alike K f' → N (w.functionDeclaration f) (w'.functionDeclaration f')
  | _, _, .mk _ .none hps hr hb hs =>
    h.node hs (h.functionFields (.node (h.bare (.cons (.name h.unnamed) .nil))) hps hr (h.bodyStatements hb))
  | _, _, .mk _ (.some hn) hps hr hb hs => h.node hs (h.functionFields (.node (h.binding hn)) hps hr (h.bodyStatements hb))

/-- Alike statements are written alike. -/
theorem statement (h : Corresponds K N M w w') : {s s' : Statement} → s.Alike K s' → N (w.statement s) (w'.statement s')
  | _, _, .declaration hd hs => h.node hs (.cons (.node (h.declaration hd)) .nil)
  | _, _, .function hf _ => h.functionDeclaration hf
  | _, _, .expression he hs => h.node hs (.cons (.node (h.expression he)) .nil)
  | _, _, .return he hs => h.node hs (.cons (h.optionalExpression he) .nil)
  | _, _, .branch ht hc ha hs =>
    h.node hs (.cons (.node (h.expression ht)) (.cons (.node (h.statement hc)) (.cons (h.optionalStatement ha) .nil)))
  | _, _, .loop ht hb hs => h.node hs (.cons (.node (h.expression ht)) (.cons (.node (h.statement hb)) .nil))
  | _, _, .block hl hs => h.node hs (.cons (.node (h.node hs (.cons (.nodes (h.statements hl)) .nil))) .nil)
  | _, _, .empty hs => h.node hs .nil
  | _, _, .throw he hs => h.node hs (.cons (.node (h.expression he)) .nil)

theorem statements (h : Corresponds K N M w w') : {l l' : List Statement} → Forall₂ (Statement.Alike K) l l' →
    Forall₂ N (w.statements l) (w'.statements l')
  | _, _, .nil => .nil
  | _, _, .cons hs hl => .cons (h.statement hs) (h.statements hl)

theorem optionalStatement (h : Corresponds K N M w w') : {s s' : Option Statement} → Option.Rel (Statement.Alike K) s s' →
    Field.Alike N M (w.optionalStatement s) (w'.optionalStatement s')
  | _, _, .none => .absent
  | _, _, .some hs => .node (h.statement hs)

theorem declaration (h : Corresponds K N M w w') : {d d' : Declaration} → d.Alike K d' → N (w.declaration d) (w'.declaration d')
  | _, _, .mk hl hs => h.node hs (.cons .text (.cons (.nodes (h.declarators hl)) .nil))

theorem declarators (h : Corresponds K N M w w') : {l l' : List Declarator} → Forall₂ (Declarator.Alike K) l l' →
    Forall₂ N (w.declarators l) (w'.declarators l')
  | _, _, .nil => .nil
  | _, _, .cons (.mk ht he hs) hl =>
    .cons (h.node hs (.cons (.node (h.binding ht)) (.cons (h.optionalExpression he) .nil))) (h.declarators hl)

end

variable (h : Corresponds K N M w w')

include h

theorem importSpecifier {s s' : ImportSpecifier} (hs : s.Alike K s') : N (w.importSpecifier s) (w'.importSpecifier s') := by
  obtain ⟨hsource, hbinding, hsite⟩ := hs
  refine h.node hsite (.cons ?_ (.cons (.node (h.binding hbinding)) .nil))
  cases hsource with
  | none => exact .absent
  | @some t t' ht =>
    rw [Option.bind_some, Option.bind_some, Likeness.ident? ht]
    split
    · exact .text
    · exact .absent

/-- Alike imports are both written or both left out. -/
theorem importNode? {i i' : Import} (hi : i.Alike K i') : Option.Rel N (w.importNode? i) (w'.importNode? i') := by
  obtain @⟨b, b', l, l', specifier, forSyntax, _, _, hbinding, hnamed, hsite⟩ := hi
  have hkept : Forall₂ N ((l.filter fun s => !w.isTransformer s.binding).map w.importSpecifier)
      ((l'.filter fun s => !w'.isTransformer s.binding).map w'.importSpecifier) := by
    refine rel_map (fun _ _ hs => h.importSpecifier hs) (rel_filter (fun _ _ hs => ?_) hnamed)
    obtain ⟨_, ht, _⟩ := hs
    dsimp only
    rw [h.isTransformer ht]
  unfold Lowering.importNode?
  cases forSyntax with
  | true => exact .none
  | false =>
    dsimp only
    generalize (l.filter _).map _ = kept, (l'.filter _).map _ = kept' at hkept ⊢
    cases hkept with
    | cons hn hl =>
      exact .some (h.node hsite
        (.cons (h.optionalBinding hbinding) (.cons (.nodes (.cons hn hl)) (.cons .text .nil))))
    | nil =>
      cases hbinding with
      | none => exact .none
      | some ht => exact .some (h.node hsite (.cons (.node (h.binding ht)) (.cons (.nodes .nil) (.cons .text .nil))))

/-- Exported names are written alike when both or neither are renamed. -/
theorem exportSpecifier {s s' : ExportSpecifier} (hs : s.Alike K s')
    (hname : w.name s.inner = s.exportName ↔ w'.name s'.inner = s'.exportName) :
    N (w.exportSpecifier s) (w'.exportSpecifier s') := by
  have hinner : K.token s.inner s'.inner ∧ K.site s.site s'.site := by
    obtain ⟨hinner, _, hsite⟩ := hs
    exact ⟨hinner, hsite⟩
  unfold Lowering.exportSpecifier
  refine h.node hinner.2 (.cons ?_ (.cons (hs.exportName ▸ .text) .nil))
  by_cases heq : w.name s.inner = s.exportName
  · rw [if_pos heq, if_pos (hname.1 heq)]
    exact .absent
  · rw [if_neg heq, if_neg fun h => heq (hname.2 h)]
    exact .name (h.name hinner.1)

/-- Alike items are both written or both left out. -/
theorem item? {item item' : ModuleItem} (hi : item.Alike K item') (hlists : SameLists K w w' item) :
    Option.Rel N (w.item? item) (w'.item? item') := by
  cases hi with
  | importItem hi => exact h.importNode? hi
  | statement hs => exact .some (h.statement hs)
  | exportItem he hs =>
    cases he with
    | declaration hd => exact .some (h.node hs (.cons (.node (h.declaration hd)) .nil))
    | function hf => exact .some (h.node hs (.cons (.node (h.functionDeclaration hf)) .nil))
    | defaultValue _ he => exact .some (h.node hs (.cons (.node (h.expression he)) .nil))
  | @exportList l l' site site' hl hs =>
    have hkept : Forall₂ N ((l.filter fun s => !w.isTransformer s.inner).map w.exportSpecifier)
        ((l'.filter fun s => !w'.isTransformer s.inner).map w'.exportSpecifier) := by
      have hall := (forall₂_and_left l l').2 ⟨hlists l site rfl, hl⟩
      refine rel_map (fun _ _ hs => h.exportSpecifier hs.2 (hs.1 _ hs.2)) (rel_filter (fun _ _ hs => ?_) hall)
      obtain ⟨ht, _, _⟩ := hs.2
      dsimp only
      rw [h.isTransformer ht]
    unfold Lowering.item?
    dsimp only
    generalize (l.filter _).map _ = kept, (l'.filter _).map _ = kept' at hkept ⊢
    cases hkept with
    | nil => exact .none
    | cons hn hl => exact .some (h.node hs (.cons (.nodes (.cons hn hl)) .nil))

/-- The nodes of alike items correspond. -/
theorem items {items items' : List ModuleItem} (hitems : Forall₂ (ModuleItem.Alike K) items items')
    (hlists : ∀ item ∈ items, SameLists K w w' item) : Forall₂ N (items.filterMap w.item?) (items'.filterMap w'.item?) :=
  rel_filterMap (fun _ _ hi => h.item? hi.2 hi.1) ((forall₂_and_left _ _).2 ⟨hlists, hitems⟩)

/-- The nodes of modules with alike items correspond. -/
theorem module {record record' : ModuleRecord}
    (hsite : K.site ⟨some record.file, ⟨0, ((w.sources.text? record.file).map (·.text.utf8ByteSize)).getD 0⟩⟩
      ⟨some record'.file, ⟨0, ((w'.sources.text? record'.file).map (·.text.utf8ByteSize)).getD 0⟩⟩)
    (hitems : Forall₂ (ModuleItem.Alike K) record.items record'.items)
    (hlists : ∀ item ∈ record.items, SameLists K w w' item) : N (w.module record) (w'.module record') :=
  h.node hsite (.cons (.nodes .nil) (.cons (.nodes (h.items hitems hlists)) .nil))

end Corresponds

/-- Where the names are the same, so are the entries of export lists that leave the inner name out. -/
theorem Corresponds.sameLists (h : Corresponds K N Eq w w') (item : ModuleItem) : SameLists K w w' item := by
  rintro _ _ _ s _ s' hs
  rw [hs.exportName]
  obtain ⟨hinner, _, _⟩ := hs
  rw [h.name hinner]

end Lowering

end Hygiene
