import Hygiene.Proofs.Lexical.Rereading

/-!
# Terms are completed in their places

Completing a term expands the bodies of its functions, each in the region of its function. What a body declares is known
before. So a term that was copied, and whose bodies are expanded once for each copy, has regions in which the same
declarations are made again.
-/

namespace Hygiene

open Outline Token

/-- What a body declares when its tokens are expanded without transformers; nothing, if they cannot be. -/
noncomputable def Passes.declares (p : Passes) (tokens : List Token) : List Key :=
  open Classical in
  if h : ∃ list run run', p.body tokens run = .ok list run' ∧ run'.Plain then keys (Statement.outlineAll h.choose) else []

variable {s : Setup} {p : Passes} {d : List Token → List Key} {c : ScopeSet}

theorem Passes.Agrees.declares_eq (hp : p.Agrees s) {tokens : List Token} {list : List Statement} {run run' : Run}
    (h : p.body tokens run = .ok list run') (plain : run'.Plain) : p.declares tokens = keys (Statement.outlineAll list) := by
  have hex : ∃ list run run', p.body tokens run = .ok list run' ∧ run'.Plain := ⟨list, run, run', h, plain⟩
  unfold declares
  rw [dif_pos hex]
  obtain ⟨_, _, h', plain'⟩ := hex.choose_spec
  exact hp.keys_body h' plain' h plain

namespace Expand

variable {α β γ : Type} {l m n k : List Outline} {x : Expand α} {y : Expand β} {z : Expand γ} {L : α → List Outline}
  {M : β → List Outline} {N : γ → List Outline}

/-- Parts of a region are completed: nothing of them is left to be expanded, and they declare what they declared. -/
def Completes (d : List Token → List Key) (c : ScopeSet) (l : List Outline) (x : Expand α) (L : α → List Outline) : Prop :=
  Lex d c True l x (fun a => CompleteAll (L a) ∧ keys (L a) = keys l) L

theorem Completes.pure {a : α} (hl : CompleteAll l) (h : L a = l := by rfl) : Completes d c l (Pure.pure a) L :=
  Lex.done (fun _ => by rw [h]; exact ⟨hl, rfl⟩) h

/-- What holds one part is completed with it. -/
theorem Completes.map {g : α → β} (hx : Completes d c l x L) (h : ∀ a, M (g a) = L a := by intros; rfl) :
    Completes d c l (x >>= fun a => Pure.pure (g a)) M :=
  .bind hx fun a => Lex.done (fun hφ => by rw [h]; exact hφ.1) (h a)

/-- What holds two parts is completed part by part. -/
theorem Completes.map₂ {g : α → β → γ} (hx : Completes d c l x L) (hy : Completes d c m y M)
    (h : ∀ a b, N (g a b) = L a ++ M b := by intros; rfl) : Completes d c (l ++ m) (x >>= fun a => y >>= fun b => Pure.pure (g a b)) N := by
  refine .bind (Lex.before hx fun _ hq => hq.2) fun a => .bind (Lex.after (hy.assume fun _ => trivial)) fun b => ?_
  refine Lex.done (fun hφ => ?_) (h a b)
  obtain ⟨⟨hb, hm⟩, ⟨ha, hl⟩, _⟩ := hφ
  rw [h, keys_append, keys_append, hl, hm]
  exact ⟨completeAll_append.2 ⟨ha, hb⟩, rfl⟩

theorem Completes.map₃ {δ : Type} {O : δ → List Outline} {g : α → β → γ → δ} (hx : Completes d c l x L)
    (hy : Completes d c m y M) (hz : Completes d c n z N) (h : ∀ a b e, O (g a b e) = L a ++ M b ++ N e := by intros; rfl) :
    Completes d c (l ++ m ++ n) (x >>= fun a => y >>= fun b => z >>= fun e => Pure.pure (g a b e)) O := by
  have hxy : Completes d c (l ++ m) (x >>= fun a => y >>= fun b => Pure.pure (a, b)) fun r => L r.1 ++ M r.2 :=
    Completes.map₂ hx hy
  have hall : Completes d c (l ++ m ++ n) ((x >>= fun a => y >>= fun b => Pure.pure (a, b)) >>= fun r =>
      z >>= fun e => Pure.pure (g r.1 r.2 e)) O := Completes.map₂ hxy hz fun r e => h r.1 r.2 e
  simpa only [bind_assoc, pure_bind] using hall

/-- Parts that are complete may stand before. -/
theorem Completes.after (hx : Completes d c l x L) (hk : CompleteAll k) :
    Completes d c (k ++ l) x fun a => k ++ L a := by
  refine (Lex.after hx).conseq (fun h => h) (fun a _ hq => ?_) (fun _ _ _ => rfl) fun _ _ _ _ _ h => h
  rw [keys_append, keys_append, hq.2]
  exact ⟨completeAll_append.2 ⟨hk, hq.1⟩, rfl⟩

/-- What stands in a scope is completed in the region of the scope. -/
theorem Completes.scope (hx : ∀ F, Completes d (c.insert F) l x L) (hl : ∀ o ∈ l, o.Settled) :
    Completes d c [scope l] x fun a => [scope (L a)] := by
  refine (Lex.again hx fun a ks hq hkeys => Or.inl ⟨?_, ?_⟩).conseq (fun h => h) (fun a _ hq => ⟨⟨hq.1, trivial⟩, rfl⟩)
    (fun _ _ _ => rfl) fun _ _ _ _ _ h => h
  · exact List.append_cancel_left ((hkeys.symm.trans hq.2).trans (List.append_nil _).symm)
  · rw [pendingKeys_of_complete hq.1, pendingKeys_of_settled hl]

/-- The body of a function declares, when it is expanded, what any expansion of it declares. -/
def Pends (p : Passes) : Prop := ∀ c tokens, Lex p.declares c True [pending tokens] (p.body tokens)
  (fun list => CompleteAll (Statement.outlineAll list) ∧ keys (Statement.outlineAll list) = p.declares tokens)
  Statement.outlineAll

/-- A pending body is expanded in the region it was read in. -/
theorem pends (hp : p.Lexical) (ha : p.Agrees s) : Pends p := by
  intro c tokens run list run' h plain
  obtain ⟨plain₀, post⟩ := hp.body p.declares c tokens run list run' h plain
  refine ⟨plain₀, fun _ R hv ho hk => ?_⟩
  obtain ⟨hcomplete, rest⟩ := post hk.1 R hv ho trivial
  exact ⟨⟨hcomplete, (ha.declares_eq h plain).symm⟩, rest⟩

end Expand

open Expand

/-- A body is completed in the region of its function, and declares what was left to be declared in it. -/
def Body.Completes (p : Passes) (c : ScopeSet) (inner : Body) : Prop :=
  Lex p.declares c True inner.outline (inner.complete p.body)
    (fun b => CompleteAll b.outline ∧ keys b.outline = keys inner.outline ++ pendingKeys p.declares inner.outline)
    Body.outline

/-- Completing a function keeps its name and its parameters, and completes its body in the region of the function. -/
theorem Lambda.completes_of_body (declares : Bool) {id : Nat} {name : Option Token} {params : List Token}
    {rest : Option Token} {inner : Body} {arrow : Bool} {site : Site} (hinner : ∀ c, inner.Completes p c) :
    Completes p.declares c (Lambda.outline declares ⟨id, name, params, rest, inner, arrow, site⟩)
      (Lambda.complete p.body ⟨id, name, params, rest, inner, arrow, site⟩) (Lambda.outline declares) := by
  generalize hnames : ((if declares then [] else name.toList) ++ params ++ rest.toList).map declare = names
  have hcomplete : CompleteAll names := hnames ▸ completeAll_declare _
  have hparts : ∀ id b, Lambda.parts declares ⟨id, name, params, rest, b, arrow, site⟩ = names ++ b.outline := by
    intro id b
    rw [Lambda.parts, hnames]
  have hscope : Lex p.declares c True [scope (names ++ inner.outline)]
      (Lambda.complete p.body ⟨id, name, params, rest, inner, arrow, site⟩)
      (fun fn => fn.name = name ∧ CompleteAll (fn.parts declares) ∧
        keys (fn.parts declares) = keys (names ++ inner.outline) ++ pendingKeys p.declares (names ++ inner.outline))
      fun fn => [scope (fn.parts declares)] := by
    refine Lex.again (fun F => ?_) fun fn ks hq hkeys => Or.inr ⟨?_, pendingKeys_of_complete hq.2.1⟩
    · refine .bind (Lex.after (hinner _)) fun b => .bind still_freshLambda.lex fun id => Lex.done (fun h => ?_) ?_
      · obtain ⟨_, ⟨hb, hkeys⟩, _⟩ := h
        rw [hparts, keys_append, hkeys, pendingKeys_append, pendingKeys_of_complete hcomplete, keys_append]
        exact ⟨rfl, completeAll_append.2 ⟨hcomplete, hb⟩, by simp⟩
      · exact hparts id b
    · exact List.append_cancel_left (hkeys.symm.trans hq.2.2)
  rw [Lambda.outline_eq, hparts]
  refine (Lex.after hscope).conseq (fun h => h) (fun fn _ hq => ?_) (fun fn _ hq => ?_) fun fn _ _ _ hq h => ?_
  · rw [Lambda.outline_eq, hq.1, keys_append, keys_append]
    exact ⟨completeAll_append.2 ⟨completeAll_declare _, hq.2.1, trivial⟩, rfl⟩
  · rw [Lambda.outline_eq, hq.1]
  · rw [Lambda.outline_eq, hq.1]
    exact h

mutual

/-- A completed expression stays placed. -/
theorem Expression.completes (hb : Pends p) {c : ScopeSet} :
    (e : Expression) → Completes p.declares c e.outline (e.complete p.body) Expression.outline
  | .number _ _ | .str _ _ | .bool _ _ | .null _ => .pure trivial
  | .ident _ _ => .pure ⟨trivial, trivial⟩
  | .array items _ => .map (Expression.completesAll hb items)
  | .object properties _ => .map (Property.completesAll hb properties)
  | .lambda fn _ => .map (fn.completes hb false)
  | .call callee args _ => .map₂ (callee.completes hb) (Expression.completesAll hb args)
  | .member object _ _ => .map (object.completes hb)
  | .index object key _ => .map₂ (object.completes hb) (key.completes hb)
  | .unary _ operand _ => .map (operand.completes hb)
  | .binary _ left right _ => .map₂ (left.completes hb) (right.completes hb)
  | .conditional test consequent alternate _ =>
    .map₃ (test.completes hb) (consequent.completes hb) (alternate.completes hb)
  | .assign target value _ => .map₂ (target.completes hb) (value.completes hb)
  | .template parts _ _ => .map (TemplatePart.completesAll hb parts)

theorem Expression.completesAll (hb : Pends p) {c : ScopeSet} : (es : List Expression) →
    Completes p.declares c (Expression.outlineAll es) (Expression.completeAll p.body es) Expression.outlineAll
  | [] => .pure trivial
  | e :: es => .map₂ (e.completes hb) (Expression.completesAll hb es)

theorem Expression.completesOption (hb : Pends p) {c : ScopeSet} : (e : Option Expression) →
    Completes p.declares c (Expression.outlineOption e) (Expression.completeOption p.body e) Expression.outlineOption
  | none => .pure trivial
  | some e => .map (e.completes hb)

theorem Property.completesAll (hb : Pends p) {c : ScopeSet} : (list : List Property) →
    Completes p.declares c (Property.outlineAll list) (Property.completeAll p.body list) Property.outlineAll
  | [] => .pure trivial
  | ⟨_, value, _⟩ :: rest => .map₂ (value.completes hb) (Property.completesAll hb rest)

/-- So does a function. -/
theorem Lambda.completes (hb : Pends p) {c : ScopeSet} (declares : Bool) : (fn : Lambda) →
    Completes p.declares c (fn.outline declares) (fn.complete p.body) (Lambda.outline declares)
  | ⟨_, _, _, _, inner, _, _⟩ => Lambda.completes_of_body declares fun _ => inner.completes hb

/-- A body is placed in its region when it is expanded. -/
theorem Body.completes (hb : Pends p) {c : ScopeSet} : (inner : Body) → inner.Completes p c
  | .deferred tokens => by
    refine .bind (hb _ tokens) fun list => Lex.done (fun h => ⟨h.1.1, h.1.2.trans ?_⟩) rfl
    simp [Body.outline, keys, declared?, pendingKeys]
  | .block statements => by
    refine .bind (Statement.completesAll hb statements) fun list => Lex.done (fun h => ⟨h.1.1, ?_⟩) rfl
    rw [Body.outline, Body.outline, pendingKeys_of_settled (Statement.settled_outlineAll statements), List.append_nil]
    exact h.1.2
  | .concise value => by
    refine .bind (value.completes hb) fun value' => Lex.done (fun h => ⟨h.1.1, ?_⟩) rfl
    rw [Body.outline, Body.outline, pendingKeys_of_settled fun o ho => (value.inert_outline o ho).settled, List.append_nil]
    exact h.1.2

theorem TemplatePart.completesAll (hb : Pends p) {c : ScopeSet} : (parts : List TemplatePart) →
    Completes p.declares c (TemplatePart.outlineAll parts) (TemplatePart.completeAll p.body parts) TemplatePart.outlineAll
  | [] => .pure trivial
  | part :: parts => .map₂ (part.completes hb) (TemplatePart.completesAll hb parts)

theorem TemplatePart.completes (hb : Pends p) {c : ScopeSet} : (part : TemplatePart) →
    Completes p.declares c part.outline (part.complete p.body) TemplatePart.outline
  | .token _ => .pure trivial
  | .group _ _ parts => .map (TemplatePart.completesAll hb parts)
  | .unquote value => .map (value.completes hb)

/-- A completed statement stays placed. -/
theorem Statement.completes (hb : Pends p) {c : ScopeSet} :
    (s : Statement) → Completes p.declares c s.outline (s.complete p.body) Statement.outline
  | .declaration ⟨kind, declarators, site⟩ _ =>
    .map (Declaration.completes hb ⟨kind, declarators, site⟩) fun ⟨_, _, _⟩ => rfl
  | .function fn _ => .map (fn.completes hb true)
  | .expression value _ => .map (value.completes hb)
  | .return value _ => .map (Expression.completesOption hb value)
  | .branch test consequent alternate _ => .map₃ (test.completes hb) (consequent.completes hb)
      (Statement.completesOption hb alternate)
  | .loop test inner _ => .map₂ (test.completes hb) (inner.completes hb)
  | .block statements _ => .map (.scope (fun _ => Statement.completesAll hb statements)
      (Statement.settled_outlineAll statements))
  | .empty _ => .pure trivial
  | .throw value _ => .map (value.completes hb)

theorem Statement.completesAll (hb : Pends p) {c : ScopeSet} : (list : List Statement) →
    Completes p.declares c (Statement.outlineAll list) (Statement.completeAll p.body list) Statement.outlineAll
  | [] => .pure trivial
  | s :: list => .map₂ (s.completes hb) (Statement.completesAll hb list)

theorem Statement.completesOption (hb : Pends p) {c : ScopeSet} : (s : Option Statement) →
    Completes p.declares c (Statement.outlineOption s) (Statement.completeOption p.body s) Statement.outlineOption
  | none => .pure trivial
  | some s => .map (s.completes hb)

/-- So does a declaration. -/
theorem Declaration.completes (hb : Pends p) {c : ScopeSet} : (d : Declaration) →
    Completes p.declares c (Declarator.outlineAll d.declarators) (d.complete p.body) (Declarator.outlineAll ·.declarators)
  | ⟨_, declarators, _⟩ => .map (Declarator.completesAll hb declarators)

theorem Declarator.completesAll (hb : Pends p) {c : ScopeSet} : (list : List Declarator) →
    Completes p.declares c (Declarator.outlineAll list) (Declarator.completeAll p.body list) Declarator.outlineAll
  | [] => .pure trivial
  | ⟨binding, init, _⟩ :: rest => by
    have hinit : Completes p.declares c ([declare binding] ++ Expression.outlineOption init)
        (Expression.completeOption p.body init) fun e => [declare binding] ++ Expression.outlineOption e :=
      (Expression.completesOption hb init).after ⟨trivial, trivial⟩
    exact .map₂ hinit (Declarator.completesAll hb rest)

end

end Hygiene
