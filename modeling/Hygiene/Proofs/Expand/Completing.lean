import Hygiene.Proofs.Expand.Reading

/-!
# Completing terms is sound

Completing a term expands every body in it that is kept as tokens, and leaves the rest as it is. The readers complete
what they read in turn, so no body is left unexpanded.
-/

namespace Hygiene

open List

open Expand (Gives Sound)

theorem Expand.Sound.of_subset {α : Type} {m : Mode} {l k : List Content} {x : Expand α} {Q : α → List Content}
    (hx : Sound m l x Q) (h : l ⊆ k) : Sound m k x Q := hx.weaken h fun _ => subset_append_left _ _

/-- The expansion is sound, whatever is settled, and all functions of its result are completed. -/
structure Expand.Finishes {α : Type} (q : Prop) (l : List Content) (x : Expand α) (Q : α → List Content)
    (F : α → List Lambda) : Prop where
  sound : Sound ⟨False, q, []⟩ l x Q
  gives : Gives x fun a => Completed (F a)

open Expand (Finishes)

/-- Expanding function bodies is sound, and the statements of expanded bodies are completed. -/
def BodySound (body : List Token → Expand (List Statement)) : Prop :=
  ∀ q tokens, Finishes q (Content.ofTokens tokens) (body tokens) Statement.contentAll Statement.lambdasAll

namespace Expand.Finishes

variable {α β γ δ : Type} {q : Prop} {l k j : List Content} {x : Expand α} {y : Expand β} {z : Expand γ}
  {Q : α → List Content} {R : β → List Content} {S : γ → List Content} {T : δ → List Content}
  {F : α → List Lambda} {G : β → List Lambda} {H : γ → List Lambda} {I : δ → List Lambda}

theorem pure {a : α} (h : Q a ⊆ l) (hF : F a = [] := by rfl) : Finishes q l (Pure.pure a) Q F :=
  ⟨.pure h, .pure (hF ▸ completed_nil)⟩

theorem map {f : α → δ} (hx : Finishes q l x Q F) (h : ∀ a, T (f a) = Q a := by intros; rfl)
    (hI : ∀ a, I (f a) = F a := by intros; rfl) :
    Finishes q l (x >>= fun a => Pure.pure (f a)) T I :=
  ⟨.bind hx.sound fun a => .pure (h a ▸ subset_append_left _ _), .bind hx.gives fun a ha => .pure (hI a ▸ ha)⟩

/-- A part that stays as it is stands beside the one that is completed. -/
theorem beside {f : α → δ} (hx : Finishes q l x Q F) (h : ∀ a, T (f a) ⊆ Q a ++ k) (hl : l ++ k ⊆ j)
    (hI : ∀ a, I (f a) = F a := by intros; rfl) : Finishes q j (x >>= fun a => Pure.pure (f a)) T I := by
  obtain ⟨hl, hk⟩ := append_subset.1 hl
  refine ⟨.bind (hx.sound.of_subset hl) fun a => .pure (List.Subset.trans (h a) ?_), ?_⟩
  · grind
  · exact .bind hx.gives fun a ha => .pure (hI a ▸ ha)

theorem map₂ {f : α → β → δ} (hx : Finishes q l x Q F) (hy : Finishes q k y R G)
    (h : ∀ a b, T (f a b) = Q a ++ R b := by intros; rfl) (hI : ∀ a b, I (f a b) = F a ++ G b := by intros; rfl) :
    Finishes q (l ++ k) (x >>= fun a => y >>= fun b => Pure.pure (f a b)) T I := by
  constructor
  · refine .bind (hx.sound.of_subset (subset_append_left _ _)) fun a => ?_
    refine .bind (hy.sound.of_subset (by grind)) fun b => .pure ?_
    rw [h]
    grind
  · refine .bind hx.gives fun a ha => .bind hy.gives fun b hb => .pure ?_
    exact hI a b ▸ completed_append.2 ⟨ha, hb⟩

theorem map₃ {f : α → β → γ → δ} (hx : Finishes q l x Q F) (hy : Finishes q k y R G) (hz : Finishes q j z S H)
    (h : ∀ a b c, T (f a b c) = Q a ++ R b ++ S c := by intros; rfl)
    (hI : ∀ a b c, I (f a b c) = F a ++ G b ++ H c := by intros; rfl) :
    Finishes q (l ++ k ++ j) (x >>= fun a => y >>= fun b => z >>= fun c => Pure.pure (f a b c)) T I := by
  have hxy : Finishes q (l ++ k) (x >>= fun a => y >>= fun b => Pure.pure (a, b)) (fun r => Q r.1 ++ R r.2)
      fun r => F r.1 ++ G r.2 := map₂ hx hy
  have hall := map₂ (f := fun r c => f r.1 r.2 c) hxy hz (fun r => h r.1 r.2) fun r => hI r.1 r.2
  simpa only [bind_assoc, pure_bind] using hall

/-- A function becomes a new one with its body completed. -/
theorem lambda {f : α → Body} {id : Nat} {name : Option Token} {params : List Token} {rest : Option Token} {inner : Body}
    {arrow : Bool} {site : Site} {body : List Token → Expand (List Statement)} (hx : Finishes q inner.content x Q F)
    (hinner : inner.complete body = x >>= fun a => Pure.pure (f a)) (h : ∀ a, (f a).content = Q a := by intros; rfl)
    (hF : ∀ a, (f a).deferred? = none ∧ (f a).lambdas = F a := by exact fun _ => ⟨rfl, rfl⟩) :
    Finishes q (Lambda.content ⟨id, name, params, rest, inner, arrow, site⟩)
      (Lambda.complete body ⟨id, name, params, rest, inner, arrow, site⟩) Lambda.content Lambda.lambdas := by
  rw [Lambda.complete, hinner, bind_assoc, Lambda.content]
  constructor
  · refine .bind (hx.sound.of_subset (subset_append_right _ _)) fun a => ?_
    rw [pure_bind]
    refine .bind Expand.sound_freshLambda fun id => .pure ?_
    rw [Lambda.content, h]
    grind
  · refine .bind hx.gives fun a ha => ?_
    rw [pure_bind]
    exact .bind (.any _) fun _ _ => .pure (completed_cons.2 ⟨(hF a).1, (hF a).2 ▸ ha⟩)

end Expand.Finishes

section

variable {body : List Token → Expand (List Statement)}

mutual

theorem Expression.finishes (hb : BodySound body) {q : Prop} :
    (e : Expression) → Finishes q e.content (e.complete body) Expression.content Expression.lambdas
  | .number _ _ | .str _ _ | .bool _ _ | .null _ => .pure (nil_subset _)
  | .ident _ _ => .pure (List.Subset.refl _)
  | .array items _ => .map (Expression.finishesAll hb items)
  | .object properties _ => .map (Property.finishesAll hb properties)
  | .lambda fn _ => .map (fn.finishes hb)
  | .call callee args _ =>
    .map₂ (callee.finishes hb) (Expression.finishesAll hb args)
  | .member object _ _ => .map (object.finishes hb)
  | .index object key _ => .map₂ (object.finishes hb) (key.finishes hb)
  | .unary _ operand _ => .map (operand.finishes hb)
  | .binary _ left right _ => .map₂ (left.finishes hb) (right.finishes hb)
  | .conditional test consequent alternate _ =>
    .map₃ (test.finishes hb) (consequent.finishes hb) (alternate.finishes hb)
  | .assign target value _ => .map₂ (target.finishes hb) (value.finishes hb)
  | .template parts _ _ => .beside (TemplatePart.finishesAll hb parts) (fun _ => List.Subset.refl _) (List.Subset.refl _)

theorem Expression.finishesAll (hb : BodySound body) {q : Prop} : (es : List Expression) → Finishes q (Expression.contentAll es)
    (Expression.completeAll body es) Expression.contentAll Expression.lambdasAll
  | [] => .pure (nil_subset _)
  | e :: es => .map₂ (e.finishes hb) (Expression.finishesAll hb es)

theorem Expression.finishesOption (hb : BodySound body) {q : Prop} : (e : Option Expression) → Finishes q (Expression.contentOption e)
    (Expression.completeOption body e) Expression.contentOption Expression.lambdasOption
  | none => .pure (nil_subset _)
  | some e => .map (e.finishes hb)

theorem Property.finishesAll (hb : BodySound body) {q : Prop} : (list : List Property) → Finishes q (Property.contentAll list)
    (Property.completeAll body list) Property.contentAll Property.lambdasAll
  | [] => .pure (nil_subset _)
  | ⟨_, value, _⟩ :: rest =>
    .map₂ (value.finishes hb) (Property.finishesAll hb rest)

theorem Lambda.finishes (hb : BodySound body) {q : Prop} :
    (fn : Lambda) → Finishes q fn.content (fn.complete body) Lambda.content Lambda.lambdas
  | ⟨_, _, _, _, .deferred tokens, _, _⟩ => .lambda (hb _ tokens) rfl
  | ⟨_, _, _, _, .block statements, _, _⟩ =>
    .lambda (Statement.finishesAll hb statements) rfl
  | ⟨_, _, _, _, .concise value, _, _⟩ => .lambda (value.finishes hb) rfl

theorem TemplatePart.finishesAll (hb : BodySound body) {q : Prop} : (parts : List TemplatePart) → Finishes q
    (TemplatePart.contentAll parts) (TemplatePart.completeAll body parts) TemplatePart.contentAll TemplatePart.lambdasAll
  | [] => .pure (nil_subset _)
  | part :: parts => .map₂ (part.finishes hb) (TemplatePart.finishesAll hb parts)

theorem TemplatePart.finishes (hb : BodySound body) {q : Prop} :
    (part : TemplatePart) → Finishes q part.content (part.complete body) TemplatePart.content TemplatePart.lambdas
  | .token _ => .pure (List.Subset.refl _)
  | .group delimiter mark parts => by
    refine .beside (k := [.piece ⟨mark, .nest (.group delimiter)⟩]) (TemplatePart.finishesAll hb parts)
      (fun _ => ?_) ?_ <;> rw [TemplatePart.content] <;> grind
  | .unquote value => .map (value.finishes hb)

theorem Statement.finishes (hb : BodySound body) {q : Prop} :
    (s : Statement) → Finishes q s.content (s.complete body) Statement.content Statement.lambdas
  | .declaration d _ => .map (d.finishes hb)
  | .function fn _ => .map (fn.finishes hb)
  | .expression value _ => .map (value.finishes hb)
  | .return value _ => .map (Expression.finishesOption hb value)
  | .branch test consequent alternate _ => .map₃ (test.finishes hb) (consequent.finishes hb)
      (Statement.finishesOption hb alternate)
  | .loop test inner _ => .map₂ (test.finishes hb) (inner.finishes hb)
  | .block statements _ => .map (Statement.finishesAll hb statements)
  | .empty _ => .pure (nil_subset _)
  | .throw value _ => .map (value.finishes hb)

theorem Statement.finishesAll (hb : BodySound body) {q : Prop} : (list : List Statement) → Finishes q (Statement.contentAll list)
    (Statement.completeAll body list) Statement.contentAll Statement.lambdasAll
  | [] => .pure (nil_subset _)
  | s :: list => .map₂ (s.finishes hb) (Statement.finishesAll hb list)

theorem Statement.finishesOption (hb : BodySound body) {q : Prop} : (s : Option Statement) → Finishes q (Statement.contentOption s)
    (Statement.completeOption body s) Statement.contentOption Statement.lambdasOption
  | none => .pure (nil_subset _)
  | some s => .map (s.finishes hb)

/-- What the transformers of a declaration refer to does not count. -/
theorem Declaration.finishes (hb : BodySound body) {q : Prop} :
    (d : Declaration) → Finishes q d.content (d.complete body) Declaration.content Declaration.lambdas
  | ⟨kind, list, site⟩ => by
    rw [Declaration.content]
    split
    · next hk =>
      have h := Declarator.finishesAll (q := False) hb list
      refine .map ⟨h.sound.unread (List.Subset.refl _), h.gives⟩ fun list' => ?_
      rw [Declaration.content, if_pos hk]
    · next hk =>
      refine .map (Declarator.finishesAll hb list) fun list' => ?_
      rw [Declaration.content, if_neg hk]

theorem Declarator.finishesAll (hb : BodySound body) {q : Prop} : (list : List Declarator) → Finishes q (Declarator.contentAll list)
    (Declarator.completeAll body list) Declarator.contentAll Declarator.lambdasAll
  | [] => .pure (nil_subset _)
  | ⟨binding, init, site⟩ :: rest => by
    have hinit : Finishes q (Content.ofTokens [binding] ++ Expression.contentOption init) (Expression.completeOption body init)
        (fun e => Content.ofTokens [binding] ++ Expression.contentOption e) Expression.lambdasOption :=
      ⟨(Expression.finishesOption hb init).sound.weaken (subset_append_right _ _) fun _ => by grind,
        (Expression.finishesOption (q := q) hb init).gives⟩
    exact .map₂ hinit (Declarator.finishesAll hb rest)

end

theorem ExportDeclaration.finishes (hb : BodySound body) {q : Prop} (exported : ExportDeclaration) : Finishes q exported.content
    (exported.complete body) ExportDeclaration.content ExportDeclaration.lambdas := by
  cases exported with
  | declaration d => exact .map (d.finishes hb)
  | function fn => exact .map (fn.finishes hb)
  | defaultValue binding value =>
    refine .beside (k := Content.ofTokens [binding]) (value.finishes hb) (fun _ => ?_) ?_ <;>
      rw [ExportDeclaration.content] <;> grind

theorem ModuleItem.finishes (hb : BodySound body) {q : Prop} (item : ModuleItem) : Finishes q item.content (item.complete body)
    ModuleItem.content ModuleItem.lambdas := by
  cases item with
  | importItem imported => exact .pure (List.Subset.refl _)
  | exportItem exported site => exact .map (exported.finishes hb)
  | exportList specifiers site => exact .pure (List.Subset.refl _)
  | statement inner => exact .map (inner.finishes hb)

end

end Hygiene
