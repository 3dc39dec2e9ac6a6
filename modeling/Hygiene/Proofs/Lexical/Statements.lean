import Hygiene.Proofs.Lexical.Completing

/-!
# Statements are read in regions

What a declaration declares is declared in the region in which it is read, and a block is a region of its own. In a run
without transformers the statements that declare one are never read to the end.
-/

namespace Hygiene

open List Outline Token

variable {d : List Token → List Key} {u c : ScopeSet} {φ : Prop} {k : List Outline} {p : Passes} {α β : Type}

theorem Declarator.outlineAll_cons (first : Declarator) (list : List Declarator) :
    Declarator.outlineAll (first :: list) = Declarator.outlineAll [first] ++ Declarator.outlineAll list := by
  obtain ⟨binding, init, site⟩ := first
  rw [Declarator.outlineAll, Declarator.outlineAll, Declarator.outlineAll, append_nil]

theorem Passes.Lexical.stmt (hp : p.Lexical) :
    Parse.Adds d c c φ k p.statement Statement.outlineOption :=
  ((hp.statement d c).assume fun _ => trivial).frame

namespace Parse

variable {Q : α → Prop} {L : α → List Outline}

/-- What leaves a transformer has nothing to place. -/
theorem Bars.lex {x : Parse α} (hx : Bars x) : Lex d u c φ k x Q L :=
  fun stream run a run' h plain => absurd plain (hx stream run a run' h)

theorem lex_declarationKeyword (home : Home) :
    Skims d u c φ k (declarationKeyword home) := by
  refine .bind lex_peek fun t => ?_
  split
  · exact .here rfl
  · refine .ite (fun _ => .here rfl) fun _ => ?_
    refine .bind (lex_peekNthIs _ _) fun _ => .ite (fun _ => ?_) fun _ => ?_
    · exact .here rfl
    · exact .here rfl

/-- A variable is declared before its initializer is placed. -/
theorem lex_variableDeclarator (hp : p.Lexical) {binding : Token} (h : φ → binding.scopes = c ∧ binding.isIdent = true) :
    Adds d c c φ k (variableDeclarator p binding) fun r => Declarator.outlineAll [r] := by
  have hend : ∀ {ψ : Prop} {l : List Outline} (init : Option Expression),
      l = k ++ [declare binding] ++ Expression.outlineOption init → Lex d c c ψ l (do
        return { binding, init, site := binding.site.cover (← previousSite) : Declarator }) (fun _ => True)
        fun r => k ++ Declarator.outlineAll [r] := by
    intro ψ l init hl
    refine .bind lex_previousSite fun _ => .here ?_
    rw [hl, Declarator.outlineAll, Declarator.outlineAll, append_nil, append_assoc, singleton_append]
  refine .bind (.lift (Expand.lex_bindVariable h)) fun _ => ?_
  refine .bind (lex_eat "=") fun _ => .ite (fun _ => ?_) fun _ => ?_
  · have hinit : ∀ {ψ : Prop}, Lex d c c ψ (k ++ [declare binding]) (some <$> p.assignment) (fun _ => True)
        fun init => k ++ [declare binding] ++ Expression.outlineOption init :=
      .map hp.assign (fun _ _ _ => trivial) fun _ => rfl
    exact .bind hinit fun init => hend init rfl
  · exact hend none (append_nil _).symm

/-- Declarators are placed in order. -/
theorem lex_declarators (s : Setup) (home : Home) (hp : p.Lexical) (ha : p.Agrees s) (kind : DeclarationKind)
    (limit : Nat) :
    Adds d c c φ k (declarators s home p kind limit) Declarator.outlineAll := by
  induction limit generalizing φ k with
  | zero => exact lex_exhausted
  | succ limit ih =>
    have hrest : ∀ {ψ : Prop} (first : Declarator), Lex d c c ψ (k ++ Declarator.outlineAll [first]) (do
        if ← eat "," then return first :: (← declarators s home p kind limit) else return [first]) (fun _ => True)
        fun list => k ++ Declarator.outlineAll list := by
      intro ψ first
      refine .bind (lex_eat ",") fun _ => .ite (fun _ => ?_) fun _ => .here rfl
      refine .bind ih fun list => .here ?_
      rw [Declarator.outlineAll_cons, append_assoc]
    refine .bind (lex_expectIdent _) fun binding => .ite (fun _ => ?_) fun _ => ?_
    · exact .bind (Q := fun _ => True) (bars_transformerDeclarator ha.keeping home kind binding).lex hrest
    · exact .bind (lex_variableDeclarator hp And.left) hrest

theorem lex_declaration (s : Setup) (home : Home) (hp : p.Lexical) (ha : p.Agrees s) (kind : DeclarationKind) :
    Adds d c c φ k (declaration s home p kind) fun r => Declarator.outlineAll r.declarators := by
  refine .bind (lex_next _) fun _ => .bind (lex_declarators s home hp ha kind _) fun list => ?_
  exact .bind lex_previousSite fun _ => .here rfl

/-- Statements are placed in order. -/
theorem lex_statements (hp : p.Lexical) (limit : Nat) :
    Adds d c c φ k (statements p limit) Statement.outlineAll := by
  induction limit generalizing φ k with
  | zero => exact lex_exhausted
  | succ limit ih =>
    refine .bind lex_atEnd fun _ => .ite (fun _ => .here (append_nil k)) fun _ => ?_
    refine .bind hp.stmt fun st => ?_
    cases st with
    | some st =>
      refine .bind ih fun list => .here ?_
      rw [Statement.outlineAll, Statement.outlineOption, append_assoc]
    | none =>
      rw [Statement.outlineOption, append_nil]
      exact ih

/-- A block is a scope of the region it stands in. -/
theorem lex_block (hp : p.Lexical) {tokens : List Token} (h : φ → Token.Uniform c tokens) :
    Expand.Adds d c φ k (block p tokens) fun list => [scope (Statement.outlineAll list)] := by
  refine Expand.Lex.region fun F => Expand.Lex.bind (Expand.lex_enclose F tokens) fun wrapped => ?_
  refine Expand.Lex.bind (Lex.on (lex_statements hp _) fun hφ => ?_) fun r => .here rfl
  rw [hφ.1]
  exact (h hφ.2.2).wrap

theorem lex_requiredStatement (hp : p.Lexical) :
    Adds d c c φ k (requiredStatement p) Statement.outline := by
  refine .bind hp.stmt fun st => ?_
  cases st with
  | some st => exact .here rfl
  | none => exact .bind lex_previousSite fun _ => .here rfl

theorem lex_test (hp : p.Lexical) : Adds d c c φ k (test p) Expression.outline :=
  .bind (lex_expectGroup _ _) fun _ => .lift (Expand.lex_groupExpression hp And.left _)

/-- Branches are placed in the region around. -/
theorem lex_branch (hp : p.Lexical) (start : Site) :
    Adds d c c φ k (branch p start) Statement.outline := by
  refine .bind lex_advance fun _ => .bind (lex_test hp) fun test => ?_
  refine .bind (lex_requiredStatement hp) fun consequent => ?_
  have hend : ∀ {ψ : Prop} {l : List Outline} (alternate : Option Statement),
      l = k ++ test.outline ++ consequent.outline ++ Statement.outlineOption alternate → Lex d c c ψ l (do
        return Statement.branch test consequent alternate (start.cover (← previousSite))) (fun _ => True)
        fun st => k ++ st.outline := by
    intro ψ l alternate hl
    refine .bind lex_previousSite fun _ => .here ?_
    simp only [hl, Statement.outline, append_assoc]
  refine .bind (lex_peekIs _) fun _ => .ite (fun _ => ?_) fun _ => ?_
  · refine .bind lex_advance fun _ => ?_
    have halternate : ∀ {ψ : Prop}, Lex d c c ψ (k ++ test.outline ++ consequent.outline) (some <$> requiredStatement p)
        (fun _ => True) fun st => k ++ test.outline ++ consequent.outline ++ Statement.outlineOption st :=
      .map (lex_requiredStatement hp) (fun _ _ _ => trivial) fun _ => rfl
    exact .bind halternate fun alternate => hend alternate rfl
  · exact hend none (append_nil _).symm

/-- So are loops. -/
theorem lex_loop (hp : p.Lexical) (start : Site) :
    Adds d c c φ k (loop p start) Statement.outline := by
  refine .bind lex_advance fun _ => .bind (lex_test hp) fun test => ?_
  refine .bind (lex_requiredStatement hp) fun inner => .bind lex_previousSite fun _ => .here ?_
  rw [Statement.outline, append_assoc]

theorem lex_endStatement (start : Site) : Skims d u c φ k (endStatement start) :=
  .bind lex_optionalSemicolon fun _ => .bind lex_previousSite fun _ => .here rfl

theorem lex_returnValue (hp : p.Lexical) :
    Adds d c c φ k (returnValue p) Expression.outlineOption := by
  refine .bind lex_atEnd fun _ => .bind (lex_peekIs _) fun _ => .ite (fun _ => ?_) fun _ => ?_
  · exact .here (append_nil k)
  · exact .map hp.assign (fun _ _ _ => trivial) fun _ => rfl

/-- A statement is placed in the region of its first token. -/
theorem lex_statementAt (s : Setup) (home : Home) (hp : p.Lexical) (ha : p.Agrees s) {token : Token}
    (h : φ → Token.Uniform c [token]) :
    Adds d c c φ k (statementAt s home p token) Statement.outline := by
  have ended : ∀ {ψ : Prop} {l : List Outline} (f : Site → Statement), (∀ site, k ++ (f site).outline = l) →
      Lex d c c ψ l (do return f (← endStatement token.site)) (fun _ => True) fun st => k ++ st.outline := fun f hf =>
    .bind (lex_endStatement _) fun site => .here (hf site)
  refine .bind (lex_declarationKeyword home) fun kind => ?_
  cases kind with
  | some kind =>
    refine .bind (lex_declaration s home hp ha kind) fun declaration => ?_
    obtain ⟨_, _, _⟩ := declaration
    exact ended (.declaration _) fun _ => rfl
  | none =>
    refine .bind (lex_peekNthIs _ _) fun _ => .ite (fun _ => ?_) fun _ => ?_
    · exact .bind (lex_function true) fun fn => .bind lex_previousSite fun _ => .here rfl
    refine .ite (fun _ => ?_) fun _ => ?_
    · exact .bind lex_advance fun _ => .bind (lex_returnValue hp) fun value => ended (.return value) fun _ => rfl
    refine .ite (fun _ => lex_branch hp _) fun _ => .ite (fun _ => lex_loop hp _) fun _ => ?_
    refine .ite (fun _ => ?_) fun _ => ?_
    · exact .bind lex_advance fun _ => .bind hp.assign fun value => ended (.throw value) fun _ => rfl
    cases hg : token.group? .brace with
    | some tokens =>
      refine .bind lex_advance fun _ => .bind (.lift (lex_block hp fun hφ => ?_)) fun list =>
        .here rfl
      exact (h hφ.2.2.2).group hg
    | none =>
      refine .ite (fun _ => ?_) fun _ => ?_
      · exact .bind lex_advance fun _ => .here (append_nil k)
      · exact .bind hp.assign fun value => ended (.expression value) fun _ => rfl

theorem lex_statementStep (s : Setup) (home : Home) (hp : p.Lexical) (ha : p.Agrees s) :
    Adds d c c φ k (statementStep s home p) Statement.outlineOption := by
  refine .bind (lex_invokeAll s _) fun _ => .bind lex_peek fun t => ?_
  cases t with
  | none => exact .here (append_nil k)
  | some t =>
    exact .map (lex_statementAt s home hp ha fun h => h.1 t rfl) (fun _ _ _ => trivial) fun _ => rfl

end Parse

/-- A body is expanded completely, whatever bodies are known to declare. -/
theorem Expand.lex_body {s : Setup} (hp : p.Lexical) (ha : p.Agrees s) (tokens : List Token) :
    Expand.Lex d c (Token.Uniform c tokens) [] (Expand.body p tokens)
      (fun list => CompleteAll (Statement.outlineAll list)) Statement.outlineAll := by
  refine Expand.Lex.of_complete p.declares ?_
  refine Expand.Lex.bind (Parse.Lex.on (Parse.lex_statements hp _) fun h => h) fun r => ?_
  exact (Statement.completesAll (pends hp ha) r.1).conseq (fun _ => trivial) (fun _ _ hq => hq.1) (fun _ _ _ => rfl)
    fun _ _ _ _ _ h => h

end Hygiene
