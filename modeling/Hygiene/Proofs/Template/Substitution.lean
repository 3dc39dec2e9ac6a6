import Hygiene.Template
import Mathlib.Data.List.Forall2

/-!
# Filled templates are substitutions

What reading and filling a template do together is said on the tokens of the body: the unquotes that are not in a
template inside it are its holes.
-/

namespace Hygiene

namespace Value

mutual

/-- The values in a value that are no arrays, from left to right. -/
def leaves : Value → List Value
  | .array items => leavesAll items
  | value => [value]

/-- The values in several values that are no arrays. -/
def leavesAll : List Value → List Value
  | [] => []
  | value :: values => leaves value ++ leavesAll values

end

/-- A value that is no array stands for tokens: syntax, or a finite number or another plain value. -/
def Unquotable : Value → Prop
  | fragment _ => True
  | number n => n.isFinite = true
  | str _ => True
  | bool _ => True
  | null => True
  | _ => False

end Value

namespace Template

/-! ### Values -/

/-- What values that are no arrays stand for: the tokens of all of them, unless one stands for none. -/
def Unquotes (site : Site) (leaves : List Value) : Except TypeFault (List Token) → Prop
  | .ok tokens => ∃ pieces : List (List Token), tokens = pieces.flatten ∧
      List.Forall₂ (fun leaf piece => leaf.Unquotable ∧ unquote site leaf = .ok piece ∧
        ∀ fragment, leaf = .fragment fragment → piece = fragment) leaves pieces
  | .error fault => ∃ before leaf after, leaves = before ++ leaf :: after ∧ (∀ v ∈ before, v.Unquotable) ∧
      ¬ leaf.Unquotable ∧ fault = .unquote leaf.typeName

variable {site : Site}

theorem Unquotes.of_unquotable {leaf : Value} {tokens : List Token} (hleaf : leaf.Unquotable)
    (h : unquote site leaf = .ok tokens) : Unquotes site [leaf] (.ok tokens) := by
  refine ⟨[tokens], by simp, .cons ⟨hleaf, h, ?_⟩ .nil⟩
  rintro fragment rfl
  rw [unquote] at h
  exact (Except.ok.inj h).symm

theorem Unquotes.of_not_unquotable {leaf : Value} (hleaf : ¬ leaf.Unquotable) :
    Unquotes site [leaf] (.error (.unquote leaf.typeName)) :=
  ⟨[], leaf, [], rfl, nofun, hleaf, rfl⟩

theorem Unquotes.append {first second : List Value} {x y : Except TypeFault (List Token)} (hx : Unquotes site first x)
    (hy : Unquotes site second y) :
    Unquotes site (first ++ second) (do return (← x) ++ (← y)) := by
  cases x with
  | error fault =>
    obtain ⟨before, leaf, after, rfl, hbefore, hleaf, rfl⟩ := hx
    exact ⟨before, leaf, after ++ second, by simp, hbefore, hleaf, rfl⟩
  | ok tokens =>
    obtain ⟨pieces, rfl, hpieces⟩ := hx
    cases y with
    | error fault =>
      obtain ⟨before, leaf, after, rfl, hbefore, hleaf, rfl⟩ := hy
      refine ⟨first ++ before, leaf, after, by simp, ?_, hleaf, rfl⟩
      intro v hv
      rcases List.mem_append.1 hv with hv | hv
      · obtain ⟨i, hi, rfl⟩ := List.getElem_of_mem hv
        exact (hpieces.get hi (hpieces.length_eq ▸ hi)).1
      · exact hbefore v hv
    | ok tokens' =>
      obtain ⟨pieces', rfl, hpieces'⟩ := hy
      exact ⟨pieces ++ pieces', by simp, List.rel_append hpieces hpieces'⟩

mutual

/-- Arrays are flattened at any depth, and the first value that stands for no tokens is why there are none. -/
theorem unquotes_leaves (site : Site) : (v : Value) → Unquotes site v.leaves (unquote site v)
  | .array items => by
    rw [Value.leaves, unquote]
    exact unquotes_leavesAll site items
  | .number n => by
    by_cases hn : n.isFinite = true
    · have hok : ∃ tokens, unquote site (.number n) = .ok tokens := by simp [unquote, hn]
      obtain ⟨tokens, hok⟩ := hok
      rw [hok]
      exact .of_unquotable hn hok
    · have herror : unquote site (.number n) = .error (.unquote (Value.number n).typeName) := by simp [unquote, hn]
      rw [herror]
      exact .of_not_unquotable hn
  | .fragment _ => .of_unquotable trivial (by rw [unquote])
  | .str _ => .of_unquotable trivial (by rw [unquote])
  | .bool _ => .of_unquotable trivial (by rw [unquote])
  | .null => .of_unquotable trivial (by rw [unquote])
  | .undefined => .of_not_unquotable id
  | .object _ => .of_not_unquotable id
  | .closure _ => .of_not_unquotable id
  | .builtin _ => .of_not_unquotable id
  | .context _ _ => .of_not_unquotable id

theorem unquotes_leavesAll (site : Site) : (values : List Value) →
    Unquotes site (Value.leavesAll values) (unquoteAll site values)
  | [] => ⟨[], rfl, .nil⟩
  | value :: values => by
    rw [Value.leavesAll, unquoteAll]
    exact (unquotes_leaves site value).append (unquotes_leavesAll site values)

end

/-! ### Bodies -/

mutual

/-- The unquotes of a token that are not in a template: what they hold and where they stand, from left to right. -/
def holes : Token → List (List Token × Site)
  | .atom _ _ => []
  | .nest _ .template _ => []
  | .nest mark .unquote children => [(children, mark.site)]
  | .nest _ (.group _) children => holesAll children

/-- The unquotes of several tokens. -/
def holesAll : List Token → List (List Token × Site)
  | [] => []
  | token :: tokens => holes token ++ holesAll tokens

end

/-- The parts are what a body is read as if its holes are read as the expressions, in order. -/
inductive ReadAs : List Token → List Expression → List TemplatePart → Prop
  | nil : ReadAs [] [] []
  | atom {mark : Mark} {a : Atom} {rest es parts} :
    ReadAs rest es parts → ReadAs (.atom mark a :: rest) es (.token (.atom mark a) :: parts)
  | template {mark : Mark} {children rest es parts} : ReadAs rest es parts →
    ReadAs (.nest mark .template children :: rest) es (.token (.nest mark .template children) :: parts)
  | unquote {mark : Mark} {children rest e es parts} : ReadAs rest es parts →
    ReadAs (.nest mark .unquote children :: rest) (e :: es) (.unquote e :: parts)
  | group {mark : Mark} {delimiter children inner rest es es' parts} : ReadAs children es inner → ReadAs rest es' parts →
    ReadAs (.nest mark (.group delimiter) children :: rest) (es ++ es') (.group delimiter mark inner :: parts)

/-! ### Runs -/

section Follows

variable {ε σ α β γ δ : Type} {f : α → EStateM ε σ β} {list list' : List α} {R : List β → γ → Prop}
  {S : List β → δ → Prop} {x : EStateM ε σ γ}

/-- The computation does what `f` does on the items of the list, one after the other, and its result is in the relation
to the results of `f`. -/
def Follows (f : α → EStateM ε σ β) (list : List α) (R : List β → γ → Prop) (x : EStateM ε σ γ) : Prop :=
  ∀ s, match list.mapM f s with
    | .ok bs s' => ∃ c, x s = .ok c s' ∧ R bs c
    | .error e s' => x s = .error e s'

theorem Follows.pure {c : γ} (h : R [] c) : Follows f [] R (Pure.pure c) := fun _ => ⟨c, rfl, h⟩

theorem Follows.bind {k : γ → EStateM ε σ δ} (hx : Follows f list R x)
    (hk : ∀ bs c, R bs c → Follows f list' (fun bs' => S (bs ++ bs')) (k c)) : Follows f (list ++ list') S (x >>= k) := by
  intro s
  have hfirst := hx s
  rw [List.mapM_append]
  simp only [Bind.bind, EStateM.bind]
  cases hlist : list.mapM f s with
  | error e s' =>
    rw [hlist] at hfirst
    simp only [hfirst]
  | ok bs s₁ =>
    rw [hlist] at hfirst
    obtain ⟨c, hc, hR⟩ := hfirst
    have hrest := hk bs c hR s₁
    simp only [hc]
    cases hlist' : list'.mapM f s₁ with
    | error e s' =>
      rw [hlist'] at hrest
      exact hrest
    | ok bs' s' =>
      rw [hlist'] at hrest
      exact hrest

theorem Follows.map {g : γ → δ} (hx : Follows f list R x) (hg : ∀ bs c, R bs c → S bs (g c)) :
    Follows f list S (x >>= fun c => Pure.pure (g c)) := by
  have h : Follows f (list ++ []) S (x >>= fun c => Pure.pure (g c)) := by
    refine hx.bind fun bs c hc => .pure ?_
    rw [List.append_nil]
    exact hg bs c hc
  rwa [List.append_nil] at h

theorem Follows.imp {R' : List β → γ → Prop} (hx : Follows f list R x) (h : ∀ bs c, R bs c → R' bs c) :
    Follows f list R' x := by
  intro s
  have hs := hx s
  cases hlist : list.mapM f s with
  | error e s' =>
    rw [hlist] at hs
    exact hs
  | ok bs s' =>
    rw [hlist] at hs
    obtain ⟨c, hc, hR⟩ := hs
    exact ⟨c, hc, h bs c hR⟩

theorem follows_item (f : α → EStateM ε σ β) (a : α) : Follows f [a] (fun bs b => bs = [b]) (f a) := by
  intro s
  rw [List.mapM_cons]
  simp only [Bind.bind, EStateM.bind]
  cases h : f a s with
  | ok b s' => exact ⟨b, rfl, rfl⟩
  | error e s' => rfl

end Follows

/-! ### Reading and filling -/

section Read

variable {ε τ : Type} (read : List Token → Site → EStateM ε τ Expression)

mutual

theorem follows_readPart : (token : Token) → Follows (fun hole => read hole.1 hole.2) (holes token)
    (fun es part => ∀ rest es' parts, ReadAs rest es' parts → ReadAs (token :: rest) (es ++ es') (part :: parts))
    (readPart read token)
  | .atom mark a => by
    rw [holes, readPart]
    exact .pure fun _ _ _ h => .atom h
  | .nest mark .template children => by
    rw [holes, readPart]
    exact .pure fun _ _ _ h => .template h
  | .nest mark .unquote children => by
    rw [holes, readPart]
    refine (follows_item _ (children, mark.site)).map ?_
    rintro _ e rfl _ _ _ h
    exact .unquote h
  | .nest mark (.group delimiter) children => by
    rw [holes, readPart]
    exact (follows_readParts children).map fun _ _ hinner _ _ _ h => .group hinner h

/-- A body is read by reading its holes, in order. -/
theorem follows_readParts : (body : List Token) →
    Follows (fun hole => read hole.1 hole.2) (holesAll body) (ReadAs body) (readParts read body)
  | [] => by
    rw [holesAll, readParts]
    exact .pure .nil
  | token :: rest => by
    rw [holesAll, readParts]
    exact (follows_readPart token).bind fun _ _ hpart => (follows_readParts rest).map fun _ _ hrest => hpart _ _ _ hrest

end

end Read

section Fill

variable {σ : Type} (eval : Expression → EStateM Signal σ Value)

end Fill

end Template

end Hygiene
