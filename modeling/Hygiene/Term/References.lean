import Hygiene.Term.Basic

/-!
# References

The identifiers that an expression refers to, in their order, those inside functions and unquotes included. Tokens of a
body that was not expanded and literal tokens of templates are no references.
-/

namespace Hygiene

mutual

/-- The references of an expression. -/
def Expression.references : Expression → List Token
  | .number _ _ | .str _ _ | .bool _ _ | .null _ => []
  | .ident token _ => [token]
  | .array items _ => Expression.referencesAll items
  | .object properties _ => Property.referencesAll properties
  | .lambda fn _ => fn.references
  | .call callee arguments _ => callee.references ++ Expression.referencesAll arguments
  | .member object _ _ => object.references
  | .index object key _ => object.references ++ key.references
  | .unary _ operand _ => operand.references
  | .binary _ left right _ => left.references ++ right.references
  | .conditional test consequent alternate _ =>
    test.references ++ consequent.references ++ alternate.references
  | .assign target value _ => target.references ++ value.references
  | .template parts _ _ => TemplatePart.referencesAll parts

/-- The references of expressions. -/
def Expression.referencesAll : List Expression → List Token
  | [] => []
  | e :: es => e.references ++ Expression.referencesAll es

/-- The references of property values. -/
def Property.referencesAll : List Property → List Token
  | [] => []
  | ⟨_, value, _⟩ :: ps => value.references ++ Property.referencesAll ps

/-- The references of an optional expression. -/
def Expression.referencesOption : Option Expression → List Token
  | none => []
  | some e => e.references

/-- The references of a function's body. -/
def Lambda.references : Lambda → List Token
  | ⟨_, _, _, _, body, _, _⟩ => body.references

/-- The references of a body. -/
def Body.references : Body → List Token
  | .deferred _ => []
  | .block statements => Statement.referencesAll statements
  | .concise value => value.references

/-- The references of template parts. -/
def TemplatePart.referencesAll : List TemplatePart → List Token
  | [] => []
  | p :: ps => p.references ++ TemplatePart.referencesAll ps

/-- The references of a template part. -/
def TemplatePart.references : TemplatePart → List Token
  | .token _ => []
  | .group _ _ parts => TemplatePart.referencesAll parts
  | .unquote value => value.references

/-- The references of a statement. -/
def Statement.references : Statement → List Token
  | .declaration ⟨_, declarators, _⟩ _ => Declarator.referencesAll declarators
  | .function fn _ => fn.references
  | .expression value _ => value.references
  | .return value _ => Expression.referencesOption value
  | .branch test consequent alternate _ =>
    test.references ++ consequent.references ++ Statement.referencesOption alternate
  | .loop test body _ => test.references ++ body.references
  | .block statements _ => Statement.referencesAll statements
  | .empty _ => []
  | .throw value _ => value.references

/-- The references of statements. -/
def Statement.referencesAll : List Statement → List Token
  | [] => []
  | s :: ss => s.references ++ Statement.referencesAll ss

/-- The references of an optional statement. -/
def Statement.referencesOption : Option Statement → List Token
  | none => []
  | some s => s.references

/-- The references of initializers. -/
def Declarator.referencesAll : List Declarator → List Token
  | [] => []
  | ⟨_, init, _⟩ :: ds => Expression.referencesOption init ++ Declarator.referencesAll ds

end

end Hygiene
