import Hygiene.Term.References

/-!
# The sites in terms

The sites that a term has of its own and those of the terms in it. Those of the tokens that it keeps are in its pieces,
but an identifier read as an expression counts here too.
-/

namespace Hygiene

mutual

/-- The sites in an expression. -/
def Expression.sites : Expression → List Site
  | .number _ site => [site]
  | .str _ site => [site]
  | .bool _ site => [site]
  | .null site => [site]
  | .ident token site => [site, token.site]
  | .array items site => site :: Expression.sitesAll items
  | .object properties site => site :: Property.sitesAll properties
  | .lambda fn site => site :: fn.sites
  | .call callee args site => site :: (callee.sites ++ Expression.sitesAll args)
  | .member object _ site => site :: object.sites
  | .index object key site => site :: (object.sites ++ key.sites)
  | .unary _ operand site => site :: operand.sites
  | .binary _ left right site => site :: (left.sites ++ right.sites)
  | .conditional test consequent alternate site => site :: (test.sites ++ consequent.sites ++ alternate.sites)
  | .assign target value site => site :: (target.sites ++ value.sites)
  | .template parts _ site => site :: TemplatePart.sitesAll parts

/-- The sites in expressions. -/
def Expression.sitesAll : List Expression → List Site
  | [] => []
  | e :: es => e.sites ++ Expression.sitesAll es

/-- The sites in an optional expression. -/
def Expression.sitesOption : Option Expression → List Site
  | none => []
  | some e => e.sites

/-- The sites in properties. -/
def Property.sitesAll : List Property → List Site
  | [] => []
  | ⟨_, value, site⟩ :: rest => site :: (value.sites ++ Property.sitesAll rest)

/-- The sites in a function. -/
def Lambda.sites : Lambda → List Site
  | ⟨_, _, _, _, body, _, site⟩ => site :: body.sites

/-- The sites in the body of a function. -/
def Body.sites : Body → List Site
  | .deferred _ => []
  | .block statements => Statement.sitesAll statements
  | .concise value => value.sites

/-- The sites in the parts of a template. -/
def TemplatePart.sitesAll : List TemplatePart → List Site
  | [] => []
  | part :: parts => part.sites ++ TemplatePart.sitesAll parts

/-- The sites in a part of a template. -/
def TemplatePart.sites : TemplatePart → List Site
  | .token _ => []
  | .group _ _ parts => TemplatePart.sitesAll parts
  | .unquote value => value.sites

/-- The sites in a statement. -/
def Statement.sites : Statement → List Site
  | .declaration d site => site :: d.sites
  | .function fn site => site :: fn.sites
  | .expression value site => site :: value.sites
  | .return value site => site :: Expression.sitesOption value
  | .branch test consequent alternate site =>
    site :: (test.sites ++ consequent.sites ++ Statement.sitesOption alternate)
  | .loop test inner site => site :: (test.sites ++ inner.sites)
  | .block statements site => site :: Statement.sitesAll statements
  | .empty site => [site]
  | .throw value site => site :: value.sites

/-- The sites in statements. -/
def Statement.sitesAll : List Statement → List Site
  | [] => []
  | s :: ss => s.sites ++ Statement.sitesAll ss

/-- The sites in an optional statement. -/
def Statement.sitesOption : Option Statement → List Site
  | none => []
  | some s => s.sites

/-- The sites in a declaration. -/
def Declaration.sites : Declaration → List Site
  | ⟨_, declarators, site⟩ => site :: Declarator.sitesAll declarators

/-- The sites in declared names and their initializers. -/
def Declarator.sitesAll : List Declarator → List Site
  | [] => []
  | ⟨_, init, site⟩ :: rest => site :: (Expression.sitesOption init ++ Declarator.sitesAll rest)

end

/-- The site of an expression is one of its sites. -/
theorem Expression.site_mem_sites (e : Expression) : e.site ∈ e.sites := by
  cases e <;> exact List.mem_cons_self

/-! ### The sites of references -/

/-- The tokens stand at sites of the list. -/
def Token.SitedIn (ts : List Token) (sites : List Site) : Prop := ∀ t ∈ ts, t.site ∈ sites

namespace Token.SitedIn

variable {ts us : List Token} {sites others : List Site} {site : Site}

theorem nil : SitedIn [] sites := nofun

/-- The references of both parts stand at sites of both. -/
theorem append (h : SitedIn ts sites) (h' : SitedIn us others) : SitedIn (ts ++ us) (sites ++ others) :=
  List.forall_mem_append.2 ⟨fun t ht => List.mem_append_left _ (h t ht), fun t ht => List.mem_append_right _ (h' t ht)⟩

theorem cons (h : SitedIn ts sites) : SitedIn ts (site :: sites) := fun t ht => List.mem_cons_of_mem _ (h t ht)

end Token.SitedIn

open Token (SitedIn)

mutual

/-- What an expression refers to stands at its sites. -/
theorem Expression.sited : (e : Expression) → SitedIn e.references e.sites
  | .number _ _ | .str _ _ | .bool _ _ | .null _ => .nil
  | .ident _ _ => by simp [SitedIn, Expression.references, Expression.sites]
  | .array items _ => .cons (Expression.sitedAll items)
  | .object properties _ => .cons (Property.sitedAll properties)
  | .lambda fn _ => .cons fn.sited
  | .call callee args _ => .cons (.append callee.sited (Expression.sitedAll args))
  | .member object _ _ => .cons object.sited
  | .index object key _ => .cons (.append object.sited key.sited)
  | .unary _ operand _ => .cons operand.sited
  | .binary _ left right _ => .cons (.append left.sited right.sited)
  | .conditional test consequent alternate _ => .cons (.append (.append test.sited consequent.sited) alternate.sited)
  | .assign target value _ => .cons (.append target.sited value.sited)
  | .template parts _ _ => .cons (TemplatePart.sitedAll parts)

theorem Expression.sitedAll : (es : List Expression) → SitedIn (Expression.referencesAll es) (Expression.sitesAll es)
  | [] => .nil
  | e :: es => .append e.sited (Expression.sitedAll es)

theorem Expression.sitedOption : (e : Option Expression) →
    SitedIn (Expression.referencesOption e) (Expression.sitesOption e)
  | none => .nil
  | some e => e.sited

theorem Property.sitedAll : (list : List Property) → SitedIn (Property.referencesAll list) (Property.sitesAll list)
  | [] => .nil
  | ⟨_, value, _⟩ :: rest => .cons (.append value.sited (Property.sitedAll rest))

/-- The references of a function stand at its sites. -/
theorem Lambda.sited : (fn : Lambda) → SitedIn fn.references fn.sites
  | ⟨_, _, _, _, body, _, _⟩ => .cons body.sited

/-- So do those of a body. -/
theorem Body.sited : (body : Body) → SitedIn body.references body.sites
  | .deferred _ => .nil
  | .block statements => Statement.sitedAll statements
  | .concise value => value.sited

theorem TemplatePart.sitedAll : (parts : List TemplatePart) →
    SitedIn (TemplatePart.referencesAll parts) (TemplatePart.sitesAll parts)
  | [] => .nil
  | part :: parts => .append part.sited (TemplatePart.sitedAll parts)

/-- So do those of a template part. -/
theorem TemplatePart.sited : (part : TemplatePart) → SitedIn part.references part.sites
  | .token _ => .nil
  | .group _ _ parts => TemplatePart.sitedAll parts
  | .unquote value => value.sited

theorem Statement.sited : (s : Statement) → SitedIn s.references s.sites
  | .declaration ⟨_, list, _⟩ _ => .cons (.cons (Declarator.sitedAll list))
  | .function fn _ => .cons fn.sited
  | .expression value _ => .cons value.sited
  | .return value _ => .cons (Expression.sitedOption value)
  | .branch test consequent alternate _ =>
    .cons (.append (.append test.sited consequent.sited) (Statement.sitedOption alternate))
  | .loop test inner _ => .cons (.append test.sited inner.sited)
  | .block statements _ => .cons (Statement.sitedAll statements)
  | .empty _ => .nil
  | .throw value _ => .cons value.sited

theorem Statement.sitedAll : (list : List Statement) → SitedIn (Statement.referencesAll list) (Statement.sitesAll list)
  | [] => .nil
  | s :: list => .append s.sited (Statement.sitedAll list)

theorem Statement.sitedOption : (s : Option Statement) →
    SitedIn (Statement.referencesOption s) (Statement.sitesOption s)
  | none => .nil
  | some s => s.sited

theorem Declarator.sitedAll : (list : List Declarator) →
    SitedIn (Declarator.referencesAll list) (Declarator.sitesAll list)
  | [] => .nil
  | ⟨_, init, _⟩ :: rest => .cons (.append (Expression.sitedOption init) (Declarator.sitedAll rest))

end

end Hygiene
