import Hygiene.Proofs.Expand.Modules
import Hygiene.Proofs.Expand.Provenance

/-!
# The scope of a concise arrow

The body of a concise arrow is read from all tokens to come, with the scope of the arrow on them. What the body leaves
goes back without the scope; if nothing was expanded, it is the end of the tokens as they were.
-/

namespace Hygiene

variable {value : Expression} {params : List Token} {scope : ScopeId}

namespace Expand

/-- The parameters of a function carry its scope. -/
theorem mem_scopes_of_parameters {parts : List (List Token)} {rest : Option Token}
    {run run' : Run} (h : parameters scope parts run = .ok (params, rest) run') :
    ∀ t ∈ params ++ rest.toList, scope ∈ t.scopes := by
  have hadded : ∀ t : Token, scope ∈ (t.addScope scope).scopes := fun t => by
    cases t <;> exact ScopeSet.mem_insert.2 (Or.inl rfl)
  induction parts generalizing params rest run with
  | nil =>
    cases h
    exact nofun
  | cons part parts ih =>
    unfold parameters at h
    split at h
    · split at h
      · obtain ⟨_, _, -, h⟩ := bind_eq_ok h
        obtain ⟨⟨params', rest'⟩, _, hparts, h⟩ := bind_eq_ok h
        cases h
        exact List.forall_mem_cons.2 ⟨hadded _, ih hparts⟩
      · cases h
    · split at h
      · obtain ⟨_, _, -, h⟩ := bind_eq_ok h
        split at h
        · cases h
          simpa using hadded _
        · cases h
      · cases h
    · cases h

end Expand

namespace Parse

variable {p : Passes} {stream stream' : Stream} {run run' : Run}

/-- What a concise body leaves does not carry the scope. -/
theorem conciseBody_leaves
    (h : conciseBody p scope stream run = .ok (value, stream') run') :
    stream'.before = stream.before ∧ ∀ q ∈ Token.piecesAll stream'.after, scope ∉ q.scopes := by
  obtain ⟨_, _, _, hget, h⟩ := bind_eq_ok h
  cases hget
  obtain ⟨_, _, _, -, h⟩ := bind_eq_ok h
  obtain ⟨⟨_, inner⟩, _, _, -, h⟩ := bind_eq_ok h
  obtain ⟨after, _, _, hleave, h⟩ := bind_eq_ok h
  cases hleave
  cases h
  refine ⟨rfl, fun q hq => ?_⟩
  rw [Token.piecesAll_strip] at hq
  obtain ⟨q, -, rfl⟩ := List.mem_map.1 hq
  exact fun hmem => (ScopeSet.mem_erase.1 hmem).2 rfl

/-- An arrow begins with its parameters and its sign. -/
theorem arrow_eq_some {e : Expression} (h : arrow p stream run = .ok (some e, stream') run') :
    ∃ head sign rest params, stream.after = head :: sign :: rest ∧ sign.isPunct "=>" = true ∧
      arrowParameters? head = some params ∧
      arrowFrom p head params ⟨sign :: head :: stream.before, rest⟩ run = .ok (some e, stream') run' := by
  obtain ⟨before, after⟩ := stream
  match after with
  | [] => cases h
  | [head] => cases h
  | head :: sign :: rest =>
    obtain ⟨r, _, _, hhead, h⟩ := bind_eq_ok h
    obtain ⟨found, _, _, hpeek, hhead⟩ := bind_eq_ok hhead
    cases hpeek
    split at hhead
    · next hsign =>
      obtain ⟨_, _, _, hpeek, hhead⟩ := bind_eq_ok hhead
      cases hpeek
      cases hhead
      cases hparams : arrowParameters? head with
      | none =>
        simp only [List.head?_cons, Option.bind_some, hparams] at h
        cases h
      | some params =>
        simp only [List.head?_cons, Option.bind_some, hparams] at h
        exact ⟨head, sign, rest, params, rfl, hsign, hparams, h⟩
    · cases hhead
      cases h

/-- The parameters of an arrow carry its scope, and an expression that is its body is read with the scope. -/
theorem arrowFrom_concise {head : Token} {fn : Lambda} {site : Site}
    (h : arrowFrom p head params stream run = .ok (some (.lambda fn site), stream') run') (hbody : fn.body = .concise value) :
    (∀ t ∈ fn.params ++ fn.rest.toList, run.store.nextScope ∈ t.scopes) ∧
      ∃ run₁ run₂, conciseBody p run.store.nextScope stream run₁ = .ok (value, stream') run₂ := by
  obtain ⟨_, _, _, hscope, h⟩ := bind_eq_ok h
  cases hscope
  obtain ⟨_, _, _, hrecord, h⟩ := bind_eq_ok h
  cases hrecord
  obtain ⟨⟨ps, r⟩, _, run₁, hparams, h⟩ := bind_eq_ok h
  obtain ⟨_, _, hparams, hpure⟩ := Expand.bind_eq_ok hparams
  cases hpure
  obtain ⟨_, _, _, hpeek, h⟩ := bind_eq_ok h
  cases hpeek
  dsimp only at h
  split at h
  · obtain ⟨⟨inner, _⟩, _, _, -, h⟩ := bind_eq_ok h
    obtain ⟨_, _, _, -, h⟩ := bind_eq_ok h
    cases h
    cases hbody
  · obtain ⟨value', _, run₂, hconcise, h⟩ := bind_eq_ok h
    cases h
    cases hbody
    exact ⟨Expand.mem_scopes_of_parameters hparams, run₁, run₂, hconcise⟩

/-- The scope of an arrow stays inside of its body. The tokens before the body are those there were. No token that is
left carries the scope, which all parameters carry, so none resolves to a parameter, in any store. If the run is sound,
the tokens have come about in it, and no transformer is called on the way, then the tokens that are left are the end of
those behind the sign of the arrow, with the scopes they had. -/
theorem arrow_scope_stays (s : Setup) (limit : Nat) (home : Home) {fn : Lambda} {site : Site} {value : Expression}
    (h : arrow (passes s limit home) stream run = .ok (some (.lambda fn site), stream') run') (hbody : fn.body = .concise value) :
    ∃ head sign rest, stream.after = head :: sign :: rest ∧ sign.isPunct "=>" = true ∧
      stream'.before = sign :: head :: stream.before ∧
      (∀ t ∈ fn.params ++ fn.rest.toList, run.store.nextScope ∈ t.scopes) ∧
      (∀ q ∈ Token.piecesAll stream'.after, run.store.nextScope ∉ q.scopes ∧
        ∀ (store : Store) (name : String) (b : Binding), store.resolve name q.scopes = some b →
          ∀ t ∈ fn.params ++ fn.rest.toList, b.scopes ≠ t.scopes) ∧
      (run.Sound → (∀ q ∈ Token.piecesAll (stream.before ++ stream.after), Arises run.events q) →
        (∀ e ∈ run'.events, e.isCall = true → e ∈ run.events) → stream'.after <:+ rest) := by
  obtain ⟨head, sign, rest, params, hafter, hsign, hparams, h⟩ := arrow_eq_some h
  obtain ⟨hscopes, run₁, run₂, hconcise⟩ := arrowFrom_concise h hbody
  obtain ⟨hbefore, hnone⟩ := conciseBody_leaves hconcise
  refine ⟨head, sign, rest, hafter, hsign, hbefore, hscopes, fun q hq => ⟨hnone q hq, fun store name b hb t ht heq => ?_⟩, ?_⟩
  · obtain ⟨_, hseen, _⟩ := Binding.isVisible_iff.1 (Store.resolve_visible hb).2
    exact hnone q hq (hseen _ (heq ▸ hscopes t ht))
  · intro hr hknown hcalls
    rw [hafter] at hknown
    have hall : Known False run.events (Content.ofTokens (stream.before ++ head :: sign :: rest)) := .of_tokens hknown
    have hstream : Known False run.events (Stream.content ⟨sign :: head :: stream.before, rest⟩ ++ Content.ofTokens params) := by
      refine .union (.union ?_ ?_) (.mono ?_ (arrowParameters_subset hparams)) <;>
        refine hall.mono (Content.ofTokens_subset ?_) <;> grind
    have hends := sound_arrowFrom (m := ⟨True, False, []⟩) (passes_sound s limit home) trivial head (fun _ h => h) _ run hr
      False.elim (fun _ h => by cases h) hstream
    obtain ⟨-, hfollows, -⟩ := hends.ok h
    refine (hfollows.rest trivial hcalls).suffix fun q hq x hx => ⟨hr.history.lt (hknown q ?_) hx, List.not_mem_nil⟩
    simp [Token.piecesAll, hq]

/-- An arrow with more tokens behind its body. -/
def arrowText : String := "x => x; y"

/-- The run in which the tokens of a text have been read. -/
def readRun (tokens : List Token) : Run := { store := { nextScope := 1 }, events := [.text 0 tokens 0] }

/-- Whether an arrow with an expression as its body was read, without calling a transformer, and two tokens are left. -/
def isShortArrow (r : Option Expression × Stream) (run : Run) : Bool :=
  match r with
  | (some (.lambda ⟨_, _, _, _, .concise _, _, _⟩ _), stream) => stream.after.length == 2 && run.events.all (!·.isCall)
  | _ => false

/-- The tokens behind the arrow are left as they are. -/
theorem arrow_scope_stays_semicolon : ∃ (tokens : List Token) (e : Expression) (stream : Stream) (run : Run),
    (readRun tokens).Sound ∧ (∀ q ∈ Token.piecesAll (Token.wrap 0 tokens), Arises (readRun tokens).events q) ∧
    arrow (passes .alone 30 ⟨"", 0, .sweet⟩) ⟨[], Token.wrap 0 tokens⟩ (readRun tokens) = .ok (some e, stream) run ∧
    stream.after.length = 2 ∧ ∃ head sign rest, Token.wrap 0 tokens = head :: sign :: rest ∧ stream.after <:+ rest := by
  have hok : (match read arrowText with
      | .ok trees => succeeds (arrow (passes .alone 30 ⟨"", 0, .sweet⟩) ⟨[], Token.wrap 0 (Token.ofTrees 0 trees)⟩
          (readRun (Token.ofTrees 0 trees))) isShortArrow
      | .error _ => false) = true := by decide +kernel
  cases hread : read arrowText with
  | error e =>
    rw [hread] at hok
    cases hok
  | ok trees =>
    rw [hread] at hok
    obtain ⟨r, run, hres, htest⟩ := exists_of_succeeds _ _ hok
    generalize htokens : Token.ofTrees 0 trees = tokens at hres
    have hstands : ∀ q ∈ Token.piecesAll tokens, q.StandsIn 0 := fun q hq =>
      Token.mem_piecesAll_ofTrees (spelled_read hread) (htokens ▸ hq)
    have hr : (readRun tokens).Sound := ((Expand.freshScope_ends Run.sound_empty (.text 0 tokens) (fun _ => rfl)
      (fun _ _ => rfl) (fun _ => rfl) fun _ => hstands).ok rfl).1
    have hknown : Known True (readRun tokens).events (Content.ofTokens (Token.wrap 0 tokens)) := Expand.known_wrap rfl
    unfold isShortArrow at htest
    split at htest
    · rw [Bool.and_eq_true, beq_iff_eq, List.all_eq_true] at htest
      obtain ⟨head, sign, rest, hafter, -, -, -, -, hrest⟩ := arrow_scope_stays _ _ _ hres rfl
      refine ⟨tokens, _, _, run, hr, hknown.tokens, hres, htest.1, head, sign, rest, hafter,
        hrest hr hknown.tokens fun e he hcall => ?_⟩
      exact absurd (htest.2 e he) (by simp [hcall])
    · cases htest

end Parse

end Hygiene
