import Hygiene.Scope.Mark
import Hygiene.Term.Operator

/-!
# Terms

Terms are what the expander reads from tokens. Identifiers stay tokens in them, so that each is resolved by its scopes
whenever its binding is asked for. The body of a function is first kept as tokens.
-/

namespace Hygiene

/-- The keyword of a declaration. -/
inductive DeclarationKind where
  | varDecl
  | letDecl
  | constDecl
  /-- Declares transformers whose output cannot name them. -/
  | syntaxDecl
  /-- Declares transformers that their own bodies and output can name. -/
  | syntaxRecDecl
deriving Repr, DecidableEq

namespace DeclarationKind

/-- A declaration's keyword. -/
def keyword : DeclarationKind → String
  | varDecl => "var"
  | letDecl => "let"
  | constDecl => "const"
  | syntaxDecl => "syntax"
  | syntaxRecDecl => "syntaxrec"

/-- The declaration that a keyword begins. -/
def ofKeyword? (word : String) : Option DeclarationKind :=
  [varDecl, letDecl, constDecl, syntaxDecl, syntaxRecDecl].find? (·.keyword = word)

/-- Whether the declaration declares transformers. -/
def declaresTransformers : DeclarationKind → Bool
  | syntaxDecl => true
  | syntaxRecDecl => true
  | _ => false

end DeclarationKind

mutual

/-- An expression, with the site it was read from. -/
inductive Expression where
  | number (value : Float) (site : Site)
  | str (value : String) (site : Site)
  | bool (value : Bool) (site : Site)
  | null (site : Site)
  | ident (token : Token) (site : Site)
  | array (items : List Expression) (site : Site)
  | object (properties : List Property) (site : Site)
  | lambda (fn : Lambda) (site : Site)
  | call (callee : Expression) (arguments : List Expression) (site : Site)
  | member (object : Expression) (property : String) (site : Site)
  | index (object : Expression) (key : Expression) (site : Site)
  | unary (operator : UnaryOp) (operand : Expression) (site : Site)
  | binary (operator : BinaryOp) (left : Expression) (right : Expression) (site : Site)
  | conditional (test : Expression) (consequent : Expression) (alternate : Expression) (site : Site)
  | assign (target : Expression) (value : Expression) (site : Site)
  /-- A quoted template: its parts, and its tokens as they were written. -/
  | template (parts : List TemplatePart) (source : List Token) (site : Site)

/-- A property of an object expression. -/
structure Property where
  name : String
  value : Expression
  site : Site

/-- A function or an arrow. Two function values are equal when they were made from the same lambda, so each lambda has a
number. -/
structure Lambda where
  id : Nat
  name : Option Token
  params : List Token
  rest : Option Token
  body : Body
  arrow : Bool
  site : Site

/-- The body of a lambda. -/
inductive Body where
  /-- The tokens between the braces, not yet expanded. -/
  | deferred (tokens : List Token)
  | block (statements : List Statement)
  /-- The expression of an arrow without braces. -/
  | concise (value : Expression)

/-- A part of a template: a token that is copied, a group, or an expression whose value is put in its place. -/
inductive TemplatePart where
  | token (token : Token)
  | group (delimiter : Delimiter) (mark : Mark) (parts : List TemplatePart)
  | unquote (value : Expression)

/-- A statement, with the site it was read from. -/
inductive Statement where
  | declaration (declaration : Declaration) (site : Site)
  | function (fn : Lambda) (site : Site)
  | expression (value : Expression) (site : Site)
  | return (value : Option Expression) (site : Site)
  | branch (test : Expression) (consequent : Statement) (alternate : Option Statement) (site : Site)
  | loop (test : Expression) (body : Statement) (site : Site)
  | block (statements : List Statement) (site : Site)
  | empty (site : Site)
  | throw (value : Expression) (site : Site)

/-- A declaration of one or more names. -/
structure Declaration where
  kind : DeclarationKind
  declarators : List Declarator
  site : Site

/-- A declared name and its initializer. -/
structure Declarator where
  binding : Token
  init : Option Expression
  site : Site

end

/-- The site of an expression. -/
def Expression.site : Expression → Site
  | number _ s | str _ s | bool _ s | null s | ident _ s | array _ s | object _ s | lambda _ s | call _ _ s
  | member _ _ s | index _ _ s | unary _ _ s | binary _ _ _ s | conditional _ _ _ s | assign _ _ s
  | template _ _ s => s

/-- The site of a statement. -/
def Statement.site : Statement → Site
  | declaration _ s | function _ s | expression _ s | .return _ s | branch _ _ _ s | loop _ _ s | block _ s
  | empty s | throw _ s => s

/-- Whether a value can be stored where the expression reads it from. -/
def Expression.isPlace : Expression → Bool
  | ident _ _ => true
  | member _ _ _ => true
  | index _ _ _ => true
  | _ => false

/-- The name a function is shown under. -/
def Lambda.displayName (fn : Lambda) : String :=
  (fn.name.bind (·.ident?)).getD (if fn.arrow then "<arrow>" else "<anonymous>")

/-- A name taken from another module. -/
structure ImportSpecifier where
  /-- The name in the other module, when it differs. -/
  source : Option Token
  binding : Token
  site : Site

/-- The name in the other module. -/
def ImportSpecifier.exportName (s : ImportSpecifier) : String := (s.source.getD s.binding).name

/-- An import of names from a module. -/
structure Import where
  defaultBinding : Option Token
  named : List ImportSpecifier
  specifier : String
  forSyntax : Bool
  site : Site

/-- What an export declares. -/
inductive ExportDeclaration where
  | declaration (declaration : Declaration)
  | function (fn : Lambda)
  /-- The keyword is bound, so that the value has a slot. -/
  | defaultValue (binding : Token) (value : Expression)

/-- A name given to other modules. -/
structure ExportSpecifier where
  inner : Token
  /-- The name in other modules, when it differs. -/
  outer : Option Token
  site : Site

/-- The name in other modules. -/
def ExportSpecifier.exportName (s : ExportSpecifier) : String := (s.outer.getD s.inner).name

/-- An item of a module. -/
inductive ModuleItem where
  | importItem (imported : Import)
  | exportItem (exported : ExportDeclaration) (site : Site)
  | exportList (specifiers : List ExportSpecifier) (site : Site)
  | statement (statement : Statement)

end Hygiene
