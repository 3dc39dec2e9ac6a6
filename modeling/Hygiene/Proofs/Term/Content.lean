import Hygiene.Proofs.Token.Piece

/-!
# What terms and values hold

The content of a term is the pieces of all tokens in it, whether they have been read, are kept for later or stand in a
template, with the identifiers that it reads as expressions. The initializers of transformers are used up at compile
time, so their identifiers do not count. Values hold pieces only.
-/

namespace Hygiene

variable {ts : List Token} {p : Piece} {G' : Piece → Prop} {v : Value}

/-- Something that a term holds. -/
inductive Content where
  /-- A piece of a token. -/
  | piece (p : Piece)
  /-- An identifier that is an expression. -/
  | use (ident : Token)

namespace Content

variable {l : List Content}

/-- The content that tokens have as tokens. -/
def ofTokens (tokens : List Token) : List Content := (Token.piecesAll tokens).map .piece

/-- Whether the content is a piece. -/
def isPiece : Content → Bool
  | piece _ => true
  | _ => false

/-- The pieces of content. -/
def pieces (l : List Content) : List Piece :=
  l.filterMap fun
    | piece p => some p
    | _ => none

@[simp] theorem mem_pieces : p ∈ pieces l ↔ .piece p ∈ l := by
  rw [pieces, List.mem_filterMap]
  constructor
  · rintro ⟨c, hc, h⟩
    cases c with
    | piece q =>
      cases h
      exact hc
    | use _ => cases h
  · exact fun h => ⟨_, h, rfl⟩

/-- All pieces of the content satisfy `G`. -/
def Good (G : Piece → Prop) (l : List Content) : Prop := ∀ p, .piece p ∈ l → G p

variable {G : Piece → Prop}

@[simp] theorem good_nil : Good G [] := by simp [Good]

@[simp] theorem good_append {k : List Content} : Good G (l ++ k) ↔ Good G l ∧ Good G k := by
  simp only [Good, List.mem_append, or_imp, forall_and]

@[simp] theorem good_cons_use {t : Token} : Good G (.use t :: l) ↔ Good G l := by simp [Good]

@[simp] theorem good_cons_piece : Good G (.piece p :: l) ↔ G p ∧ Good G l := by
  simp [Good, or_imp, forall_and]

/-- What holds of tokens holds of their pieces. -/
@[simp] theorem good_ofTokens : Good G (ofTokens ts) ↔ ∀ p ∈ Token.piecesAll ts, G p := by
  simp [Good, ofTokens]

theorem Good.mono (hl : Good G l) (h : ∀ p, G p → G' p) : Good G' l :=
  fun p hp => h p (hl p hp)

/-- Only pieces have to be good. -/
@[simp] theorem good_filter_isPiece : Good G (l.filter isPiece) ↔ Good G l := by
  simp [Good, List.mem_filter, isPiece]

theorem ofTokens_append (xs ys : List Token) : ofTokens (xs ++ ys) = ofTokens xs ++ ofTokens ys := by
  simp [ofTokens]

/-- Fewer tokens have fewer pieces. -/
theorem ofTokens_subset {xs ys : List Token} (h : xs ⊆ ys) : ofTokens xs ⊆ ofTokens ys :=
  List.map_subset _ (Token.piecesAll_subset h)

end Content

mutual

/-- The content of an expression. -/
def Expression.content : Expression → List Content
  | .number _ _ => []
  | .str _ _ => []
  | .bool _ _ => []
  | .null _ => []
  | .ident token _ => .use token :: Content.ofTokens [token]
  | .array items _ => Expression.contentAll items
  | .object properties _ => Property.contentAll properties
  | .lambda fn _ => fn.content
  | .call callee args _ => callee.content ++ Expression.contentAll args
  | .member object _ _ => object.content
  | .index object key _ => object.content ++ key.content
  | .unary _ operand _ => operand.content
  | .binary _ left right _ => left.content ++ right.content
  | .conditional test consequent alternate _ => test.content ++ consequent.content ++ alternate.content
  | .assign target value _ => target.content ++ value.content
  | .template parts source _ => TemplatePart.contentAll parts ++ Content.ofTokens source

/-- The content of expressions. -/
def Expression.contentAll : List Expression → List Content
  | [] => []
  | e :: es => e.content ++ Expression.contentAll es

/-- The content of an optional expression. -/
def Expression.contentOption : Option Expression → List Content
  | none => []
  | some e => e.content

/-- The content of properties. -/
def Property.contentAll : List Property → List Content
  | [] => []
  | ⟨_, value, _⟩ :: rest => value.content ++ Property.contentAll rest

/-- The content of a function. -/
def Lambda.content : Lambda → List Content
  | ⟨_, name, params, rest, body, _, _⟩ => Content.ofTokens (name.toList ++ params ++ rest.toList) ++ body.content

/-- The content of the body of a function. -/
def Body.content : Body → List Content
  | .deferred tokens => Content.ofTokens tokens
  | .block statements => Statement.contentAll statements
  | .concise value => value.content

/-- The content of the parts of a template. -/
def TemplatePart.contentAll : List TemplatePart → List Content
  | [] => []
  | part :: parts => part.content ++ TemplatePart.contentAll parts

/-- The content of a part of a template. -/
def TemplatePart.content : TemplatePart → List Content
  | .token token => Content.ofTokens [token]
  | .group delimiter mark parts => .piece ⟨mark, .nest (.group delimiter)⟩ :: TemplatePart.contentAll parts
  | .unquote value => value.content

/-- The content of a statement. -/
def Statement.content : Statement → List Content
  | .declaration d _ => d.content
  | .function fn _ => fn.content
  | .expression value _ => value.content
  | .return value _ => Expression.contentOption value
  | .branch test consequent alternate _ => test.content ++ consequent.content ++ Statement.contentOption alternate
  | .loop test inner _ => test.content ++ inner.content
  | .block statements _ => Statement.contentAll statements
  | .empty _ => []
  | .throw value _ => value.content

/-- The content of statements. -/
def Statement.contentAll : List Statement → List Content
  | [] => []
  | s :: ss => s.content ++ Statement.contentAll ss

/-- The content of an optional statement. -/
def Statement.contentOption : Option Statement → List Content
  | none => []
  | some s => s.content

/-- The content of a declaration. The identifiers in the initializers of transformers do not count. -/
def Declaration.content : Declaration → List Content
  | ⟨kind, declarators, _⟩ =>
    if kind.declaresTransformers then (Declarator.contentAll declarators).filter Content.isPiece
    else Declarator.contentAll declarators

/-- The content of declared names and their initializers. -/
def Declarator.contentAll : List Declarator → List Content
  | [] => []
  | ⟨binding, init, _⟩ :: rest =>
    Content.ofTokens [binding] ++ Expression.contentOption init ++ Declarator.contentAll rest

end

/-- The content of an import. -/
def Import.content (i : Import) : List Content :=
  Content.ofTokens (i.defaultBinding.toList ++ i.named.flatMap fun s => s.source.toList ++ [s.binding])

/-- The content of what an export declares. -/
def ExportDeclaration.content : ExportDeclaration → List Content
  | .declaration d => d.content
  | .function fn => fn.content
  | .defaultValue binding value => Content.ofTokens [binding] ++ value.content

/-- The content of an item of a module. -/
def ModuleItem.content : ModuleItem → List Content
  | .importItem imported => imported.content
  | .exportItem exported _ => exported.content
  | .exportList specifiers _ => Content.ofTokens (specifiers.flatMap fun s => s.inner :: s.outer.toList)
  | .statement inner => inner.content

/-- The content of an expanded module. -/
def ModuleRecord.content (r : ModuleRecord) : List Content := r.items.flatMap ModuleItem.content

mutual

/-- The pieces of the tokens that a value holds. -/
def Value.pieces : Value → List Piece
  | .array items => Value.piecesAll items
  | .object fields => Value.piecesFields fields
  | .closure c => Content.pieces c.fn.content
  | .fragment tokens => Token.piecesAll tokens
  | .context _ name => Token.pieces name
  | _ => []

/-- The pieces of the tokens that values hold. -/
def Value.piecesAll : List Value → List Piece
  | [] => []
  | value :: values => value.pieces ++ Value.piecesAll values

/-- The pieces of the tokens that the fields of an object hold. -/
def Value.piecesFields : List (String × Value) → List Piece
  | [] => []
  | (_, value) :: fields => value.pieces ++ Value.piecesFields fields

end

/-- All pieces that a value holds satisfy `G`. -/
def Value.Good (G : Piece → Prop) (v : Value) : Prop := ∀ p ∈ v.pieces, G p

namespace Value

variable {G : Piece → Prop}

theorem Good.mono (hv : v.Good G) (h : ∀ p, G p → G' p) : v.Good G' :=
  fun p hp => h p (hv p hp)

/-- The pieces of an array are in its items. -/
@[simp] theorem good_array {items : List Value} : (array items).Good G ↔ ∀ v ∈ items, v.Good G := by
  induction items with
  | nil => simp [Good, pieces, piecesAll]
  | cons v vs ih =>
    simp only [Good, pieces, piecesAll, List.mem_append, or_imp, forall_and, List.mem_cons, forall_eq] at ih ⊢
    rw [ih]

/-- Those of an object are in its fields. -/
@[simp] theorem good_object {fields : List (String × Value)} :
    (object fields).Good G ↔ ∀ field ∈ fields, field.2.Good G := by
  induction fields with
  | nil => simp [Good, pieces, piecesFields]
  | cons field fields ih =>
    simp only [Good, pieces, piecesFields, List.mem_append, or_imp, forall_and, List.mem_cons, forall_eq] at ih ⊢
    rw [ih]

/-- Those of a closure are in its code. -/
@[simp] theorem good_closure {c : Closure} : (closure c).Good G ↔ Content.Good G c.fn.content := by
  show (∀ p ∈ Content.pieces c.fn.content, G p) ↔ ∀ p, .piece p ∈ c.fn.content → G p
  simp only [Content.mem_pieces]

/-- Those of syntax are in its tokens. -/
@[simp] theorem good_fragment : (fragment ts).Good G ↔ ∀ p ∈ Token.piecesAll ts, G p := Iff.rfl

/-- A context holds the name at the place of use. -/
@[simp] theorem good_context {cursor : CursorId} {name : Token} :
    (context cursor name).Good G ↔ ∀ p ∈ Token.pieces name, G p := Iff.rfl

/-- Plain values have no pieces. -/
theorem good_of_pieces_eq_nil (h : v.pieces = []) : v.Good G := by simp [Good, h]

@[simp] theorem good_undefined : undefined.Good G := good_of_pieces_eq_nil rfl

@[simp] theorem good_null : null.Good G := good_of_pieces_eq_nil rfl

@[simp] theorem good_bool {b : Bool} : (bool b).Good G := good_of_pieces_eq_nil rfl

@[simp] theorem good_number {n : Float} : (number n).Good G := good_of_pieces_eq_nil rfl

@[simp] theorem good_str {s : String} : (str s).Good G := good_of_pieces_eq_nil rfl

@[simp] theorem good_builtin {b : Builtin} : (builtin b).Good G := good_of_pieces_eq_nil rfl

end Value

end Hygiene
