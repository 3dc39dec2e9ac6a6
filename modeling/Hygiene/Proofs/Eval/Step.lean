import Hygiene.Proofs.Eval.Keep

/-!
# What the evaluator keeps

One lemma for each function of the evaluator: going one level deeper keeps what the evaluator of the parts keeps. And
what one evaluator ends with, all that go deeper end with.
-/

namespace Hygiene

open List Eval

variable {w : World} {d : Demand} {n : Nat} {returns : Prop}

/-- A token made for a plain value is a literal. -/
theorem Token.meets_fresh (literals : d.Literals) {a : Atom} (ha : a.IsLiteral) {site : Site}
    (hs : d.site site) : ∀ p ∈ Token.pieces (Token.fresh a site), d.piece p := by
  intro p hp
  rw [Token.fresh, Token.pieces, mem_singleton] at hp
  subst hp
  exact literals _ ⟨rfl, a, rfl, ha⟩ hs

namespace Template

mutual

theorem meets_unquote (literals : d.Literals) {site : Site} (hs : d.site site) : (v : Value) → v.Good d.piece →
    {ts : List Token} → unquote site v = .ok ts → ∀ p ∈ Token.piecesAll ts, d.piece p
  | .fragment tokens, hv, ts, h => by
    rw [unquote] at h
    cases h
    exact Value.good_fragment.1 hv
  | .array items, hv, ts, h => by
    rw [unquote] at h
    exact meets_unquoteAll literals hs items (Value.good_array.1 hv) h
  | .number n, _, ts, h => by
    rw [unquote] at h
    split at h
    · next hfinite =>
      cases h
      have hl := Token.meets_fresh literals (a := .number n.abs (Number.numberText n.abs)) ⟨n, hfinite, rfl, rfl⟩ hs
      have hm := Token.meets_fresh literals (a := .punct "-") rfl hs
      intro p hp
      split at hp <;> simp only [Token.piecesAll, append_nil, mem_append] at hp
      · exact hp.elim (hm p) (hl p)
      · exact hl p hp
    · cases h
  | .str s, _, ts, h => by
    rw [unquote] at h
    cases h
    simpa [Token.piecesAll] using Token.meets_fresh literals (a := .str s) trivial hs
  | .bool b, _, ts, h => by
    rw [unquote] at h
    cases h
    have hb : (Atom.ident (Value.bool b).text).IsLiteral := by cases b <;> simp [Atom.IsLiteral, Value.text]
    simpa [Token.piecesAll] using Token.meets_fresh literals hb hs
  | .null, _, ts, h => by
    rw [unquote] at h
    cases h
    simpa [Token.piecesAll] using Token.meets_fresh literals (a := .ident "null") (Or.inr (Or.inr rfl)) hs
  | .undefined, _, _, h => by cases h
  | .object _, _, _, h => by cases h
  | .closure _, _, _, h => by cases h
  | .builtin _, _, _, h => by cases h
  | .context _ _, _, _, h => by cases h

theorem meets_unquoteAll (literals : d.Literals) {site : Site} (hs : d.site site) : (vs : List Value) →
    (∀ v ∈ vs, v.Good d.piece) → {ts : List Token} → unquoteAll site vs = .ok ts → ∀ p ∈ Token.piecesAll ts, d.piece p
  | [], _, ts, h => by
    cases h
    simp [Token.piecesAll]
  | v :: vs, hvs, ts, h => by
    rw [unquoteAll] at h
    cases hv : unquote site v with
    | error fault => simp [hv, bind, Except.bind] at h
    | ok first =>
      cases hr : unquoteAll site vs with
      | error fault => simp [hv, hr, bind, Except.bind] at h
      | ok rest =>
        simp only [hv, hr, bind, Except.bind, pure, Except.pure, Except.ok.injEq] at h
        subst h
        have h1 := meets_unquote literals hs v (hvs v mem_cons_self) hv
        have h2 := meets_unquoteAll literals hs vs (fun w hw => hvs w (mem_cons_of_mem _ hw)) hr
        intro p hp
        rw [Token.piecesAll_append] at hp
        exact (mem_append.1 hp).elim (h1 p) (h2 p)

end

mutual

theorem keeps_fillPart (literals : d.Literals) {eval eval' : Expression → Eval Value}
    (heval : ∀ e, d.Meets e.content e.lambdas e.sites → ∀ n, Keeps w d n returns d.Gives (eval e) (eval' e)) : (part : TemplatePart) →
    d.Meets part.content part.lambdas part.sites →
    ∀ n, Keeps w d n returns (fun _ ts => ∀ p ∈ Token.piecesAll ts, d.piece p) (fillPart eval part) (fillPart eval' part)
  | .token token, h, n => by
    rw [fillPart, fillPart]
    exact .pure (Demand.meets_ofTokens.1 h)
  | .group delimiter mark parts, h, n => by
    rw [TemplatePart.content, TemplatePart.lambdas, TemplatePart.sites, Demand.meets_cons_piece] at h
    rw [fillPart, fillPart]
    refine .bind (keeps_fill literals heval parts h.2 n) fun _ ts hts => .pure ?_
    intro p hp
    simp only [Token.piecesAll, Token.pieces, append_nil, mem_cons] at hp
    rcases hp with rfl | hp
    · exact h.1
    · exact hts p hp
  | .unquote value, h, n => by
    rw [fillPart, fillPart]
    have hs : d.site value.site := h.2.2 _ value.site_mem_sites
    refine .bind (heval value h n) fun _ v hv => ?_
    unfold unquoted
    split
    · next hts => exact .pure (meets_unquote literals hs v hv.1 hts)
    · exact .failType hs

theorem keeps_fill (literals : d.Literals) {eval eval' : Expression → Eval Value}
    (heval : ∀ e, d.Meets e.content e.lambdas e.sites → ∀ n, Keeps w d n returns d.Gives (eval e) (eval' e)) : (parts : List TemplatePart) →
    d.Meets (TemplatePart.contentAll parts) (TemplatePart.lambdasAll parts) (TemplatePart.sitesAll parts) →
    ∀ n, Keeps w d n returns (fun _ ts => ∀ p ∈ Token.piecesAll ts, d.piece p) (fill eval parts) (fill eval' parts)
  | [], _, n => by
    rw [fill, fill]
    exact .pure (by simp [Token.piecesAll])
  | part :: parts, h, n => by
    rw [TemplatePart.contentAll, TemplatePart.lambdasAll, TemplatePart.sitesAll, Demand.meets_append] at h
    rw [fill, fill]
    refine .bind (keeps_fillPart literals heval part h.1 n) fun _ first h1 => ?_
    refine .bind (keeps_fill literals heval parts h.2 _) fun _ rest h2 => .pure ?_
    intro p hp
    rw [Token.piecesAll_append] at hp
    exact (mem_append.1 hp).elim (h1 p) (h2 p)

end

end Template

/-- The evaluator `r` keeps the demand, and `r'` may take more steps. Expressions never return. -/
structure Evaluator.Keeps (w : World) (d : Demand) (r r' : Evaluator) : Prop where
  expression : ∀ {returns : Prop} (e : Expression), d.Meets e.content e.lambdas e.sites →
    ∀ n, Eval.Keeps w d n returns d.Gives (r.expression e) (r'.expression e)
  statement : ∀ s : Statement, d.Meets s.content s.lambdas s.sites →
    ∀ n, Eval.Keeps w d n s.Returns (fun _ _ => True) (r.statement s) (r'.statement s)
  limit : r.limit ≤ r'.limit

namespace Evaluator

variable {r r' : Evaluator} {fn : Lambda} {site : Site} {args items : List Value} {value : Value} {object : Expression}

theorem keeps_close (h : d.Meets fn.content fn.lambdas fn.sites) :
    Eval.Keeps w d n returns d.Gives (close fn) (close fn) := by
  refine .bind Keeps.get fun _ m hm => .pure (Value.meets_closure.2 ⟨h, fun k hk => ?_⟩)
  obtain ⟨n, hn, rfl⟩ := Option.map_eq_some_iff.1 hk
  exact hm.2 ▸ (hm.1.frames n hn).2

theorem keeps_declare (h : d.Meets fn.content fn.lambdas fn.sites) :
    Eval.Keeps w d n returns (fun _ _ => True) (declare w fn) (declare w fn) := by
  unfold declare
  split
  · exact .bind (keeps_close h) fun _ _ hv => Keeps.define hv
  · exact .pure trivial

theorem keeps_hoist {s : Statement} (h : d.Meets s.content s.lambdas s.sites) :
    Eval.Keeps w d n returns (fun _ _ => True) (hoist w s) (hoist w s) := by
  unfold hoist
  split
  · exact keeps_declare (Demand.meets_cons_site.1 h).2
  · exact .pure trivial

theorem keeps_statements (hr : r.Keeps w d r') {list : List Statement}
    (h : d.Meets (Statement.contentAll list) (Statement.lambdasAll list) (Statement.sitesAll list)) :
    Eval.Keeps w d n (Statement.SomeReturns list) (fun _ _ => True) (statements w r list) (statements w r' list) := by
  have hs := Demand.meets_statements.1 h
  refine .bind (Keeps.forM fun s hm _ => keeps_hoist (hs s hm)) fun _ _ _ => ?_
  exact Keeps.forM fun s hm n => (hr.statement s (hs s hm) n).mono fun hreturns => ⟨s, hm, hreturns⟩

theorem keeps_body (hr : r.Keeps w d r') (h : d.Meets fn.content fn.lambdas fn.sites) (hs : d.site site) :
    Eval.Keeps w d n returns d.Gives (body w r fn site) (body w r' fn site) := by
  obtain ⟨hfn, hbody⟩ := h.body
  unfold body
  split
  · next heq =>
    rw [heq] at hbody
    exact Keeps.returning (keeps_statements hr hbody)
  · next heq =>
    rw [heq] at hbody
    exact hr.expression _ hbody n
  · next heq => exact .throw ⟨hs, fun _ => ⟨fn, hfn, by simp [heq, Body.deferred?]⟩⟩ rfl trivial

/-- The variables of a call hold the closure that is called and its arguments. -/
theorem meets_callBindings {c : Closure} (hc : (Value.closure c).Meets d) (ha : ∀ v ∈ args, v.Meets d) : ∀ entry ∈ callBindings w c args, entry.2.Meets d := by
  intro entry he
  simp only [callBindings, mem_append] at he
  rcases he with (he | he) | he
  · split at he
    · cases he
    · obtain ⟨_, _, rfl⟩ := mem_map.1 he
      exact hc
  · obtain ⟨i, _, rfl⟩ := mem_mapIdx.1 he
    exact Value.meets_of_getElem? ha i
  · obtain ⟨_, _, rfl⟩ := mem_map.1 he
    exact Value.meets_array.2 fun v hv => ha v (mem_of_mem_drop hv)

theorem meets_foldl_define (env : Environment) {entries : List (String × Value)}
    {heap : Heap} (he : ∀ entry ∈ entries, entry.2.Meets (d.among heap.frames.size)) (hh : heap.Meets d) :
    (entries.foldl (fun heap (name, value) => heap.define env name value) heap).Meets d := by
  induction entries generalizing heap with
  | nil => exact hh
  | cons entry entries ih =>
    refine ih (fun e h => ?_) (hh.define env entry.1 (he entry mem_cons_self))
    exact (he e (mem_cons_of_mem _ h)).later (heap.grows_store _ entry.1 entry.2).size

theorem grows_foldl_define (env : Environment) (entries : List (String × Value)) (heap : Heap) :
    heap.Grows (entries.foldl (fun heap (name, value) => heap.define env name value) heap) := by
  induction entries generalizing heap with
  | nil => exact .rfl
  | cons entry entries ih => exact (heap.grows_store _ entry.1 entry.2).trans (ih _)

/-- The body is run one level deeper, so not at the limit. -/
theorem keeps_callClosure (hr : r.Keeps w d r') {c : Closure} (hc : (Value.closure c).Meets (d.among n))
    (ha : d.GivesAll n args) (hs : d.site site) :
    Eval.Keeps w d n returns d.Gives (callClosure w r c args site) (callClosure w r' c args site) := by
  intro m hm hn
  unfold callClosure
  dsimp only
  by_cases hlimit : w.maxCallDepth < m.depth + 1
  · rw [if_pos hlimit, if_pos hlimit]
    refine ⟨⟨some ⟨c.fn, site, m.depth, false⟩, ⟨hm.heap, ⟨rfl, rfl, ⟨[], rfl, nofun⟩, ?_⟩, .rfl⟩, rfl⟩, ⟨⟨hs, nofun⟩, trivial⟩,
      fun _ => rfl⟩
    rintro _ ⟨⟩
    exact ⟨rfl, Nat.le_of_lt_succ hlimit, fun h => Nat.le_antisymm h (Nat.le_of_lt_succ hlimit)⟩
  · rw [if_neg hlimit, if_neg hlimit]
    have hsize : n ≤ (m.heap.push c.env).2.frames.size := Nat.le_trans hn (m.heap.grows_push c.env).size
    have hpush := hm.push fun hd id hid => Nat.lt_of_lt_of_le (hc.frames hd id hid) hn
    have hheap := meets_foldl_define (m.heap.push c.env).1
      (meets_callBindings (w := w) (hc.later hsize) fun v hv => (ha v hv).later hsize) hpush.heap
    have hdefine := grows_foldl_define (m.heap.push c.env).1 (callBindings w c args) (m.heap.push c.env).2
    generalize (callBindings w c args).foldl _ _ = heap at hheap hdefine
    have hgrows := (m.heap.grows_push c.env).trans hdefine
    have hbody : Eval.Keeps w d n returns _ _ _ := keeps_body hr (Value.meets_closure.1 hc).1 hs
    have hkept := hbody.restore (m := m)
      ⟨heap, (m.heap.push c.env).1, m.depth + 1, m.trace, ⟨c.fn, site, m.depth, true⟩ :: m.calls⟩
      ⟨hheap, fun k hk => ⟨Nat.le_trans (hpush.frames k hk).1 hdefine.size, fun id hid =>
        Nat.lt_of_lt_of_le ((hpush.frames k hk).2 id hid) hdefine.size⟩⟩ (Nat.le_trans hsize hdefine.size)
      (fun m' => { m' with env := m.env, depth := m'.depth - 1 }) (fun _ => rfl) fun h => ⟨h.heap, ?_, hgrows.trans h.grows⟩
    · generalize body w r c.fn site _ = result, body w r' c.fn site _ = result' at hkept ⊢
      cases result <;> cases result' <;> exact hkept
    obtain ⟨entered, hcalls, hentered⟩ := h.balanced.calls
    refine ⟨rfl, by rw [h.balanced.depth]; rfl, ⟨entered ++ [⟨c.fn, site, m.depth, true⟩], by simp [hcalls], ?_⟩, fun c hc => ?_⟩
    · refine forall_mem_append.2 ⟨hentered, forall_mem_singleton.2 ⟨rfl, ?_⟩⟩
      dsimp only
      omega
    · obtain ⟨hfalse, hle, heq⟩ := h.balanced.refused c hc
      exact ⟨hfalse, hle, fun _ => heq (by dsimp only; omega)⟩

theorem keeps_callBuiltin (b : Builtin) (args : List Value) :
    Eval.Keeps w d n returns d.Gives (callBuiltin b args) (callBuiltin b args) := by
  cases b with
  | consoleLog => exact .bind (.modify (fun _ hm _ => hm) (fun _ => .rfl) fun _ => ⟨rfl, rfl, rfl⟩) fun _ _ _ => .pure Value.meets_undefined
  | toText => exact .pure Value.meets_str
  | toNumber => exact .pure Value.meets_number

theorem keeps_call (hr : r.Keeps w d r') {callee : Value} (hc : callee.Meets (d.among n)) (ha : d.GivesAll n args)
    (hs : d.site site) :
    Eval.Keeps w d n returns d.Gives (call w r callee args site) (call w r' callee args site) := by
  unfold call
  split
  · exact keeps_callClosure hr hc ha hs
  · exact keeps_callBuiltin _ args
  · exact Keeps.failType hs

theorem keeps_assignIdent {ident : Token} (hv : value.Meets (d.among n)) (hs : d.site site) :
    Eval.Keeps w d n returns (fun _ _ => True) (assignIdent w ident value site) (assignIdent w ident value site) := by
  unfold assignIdent
  split
  · split
    · exact .assignOr hv fun _ _ => ⟨_, rfl⟩
    · exact Keeps.failType hs
  · exact .assignOr hv fun _ _ => ⟨_, rfl⟩

theorem keeps_assign (hr : r.Keeps w d r') {target : Expression}
    (ht : d.Meets target.content target.lambdas target.sites) (hv : value.Meets (d.among n)) :
    Eval.Keeps w d n returns (fun _ _ => True) (assign w r target value) (assign w r' target value) := by
  fun_induction assign w r target value generalizing n with
  | case1 token site value => exact keeps_assignIdent hv (ht.2.2 _ (Expression.site_mem_sites _))
  | case2 object property site value ih =>
    rw [Expression.content, Expression.lambdas, Expression.sites, Demand.meets_cons_site] at ht
    obtain ⟨hs, ht⟩ := ht
    rw [assign]
    refine .bind (hr.expression object ht n) fun hk base hb => ?_
    refine .bind (Keeps.lift hs (Value.gives_setMember hb (hv.later hk) property)) fun _ changed hc => ?_
    split
    · exact ih changed ht hc
    · exact .pure trivial
  | case3 object key site value ih =>
    rw [Expression.content, Expression.lambdas, Expression.sites, Demand.meets_cons_site, Demand.meets_append] at ht
    obtain ⟨hs, hobject, hkey⟩ := ht
    rw [assign]
    refine .bind (hr.expression object hobject n) fun hk base hb => ?_
    refine .bind (hr.expression key hkey _) fun hk' k _ => ?_
    have hv' := hv.later (Nat.le_trans hk hk')
    refine .bind (Keeps.lift hs (Value.gives_setIndex (hb.later hk') hv' k)) fun _ changed hc => ?_
    split
    · exact ih changed hobject hc
    · exact .pure trivial
  | case4 target value notIdent notMember notIndex =>
    rw [assign.eq_4 _ _ _ _ notIdent notMember notIndex]
    exact Keeps.failType (ht.2.2 _ target.site_mem_sites)

theorem keeps_storeBack (hr : r.Keeps w d r')
    (ho : d.Meets object.content object.lambdas object.sites) (hv : value.Meets (d.among n)) :
    Eval.Keeps w d n returns (fun _ _ => True) (storeBack w r object value) (storeBack w r' object value) := by
  unfold storeBack
  split
  · exact keeps_assign hr ho hv
  · exact .pure trivial

theorem keeps_callback {method : String} (ha : d.GivesAll n args) (hs : d.site site) :
    Eval.Keeps w d n returns d.Gives (callback method args site) (callback method args site) := by
  unfold callback
  split
  · split
    · exact .pure (ha _ mem_cons_self)
    · exact Keeps.failType hs
  · exact Keeps.failType hs

theorem keeps_mapItems (hr : r.Keeps w d r') {f : Value} (hf : f.Meets (d.among n)) (hs : d.site site)
    (hi : d.GivesAll n items) (place : Nat) :
    Eval.Keeps w d n returns d.GivesAll (mapItems w r f site items place)
      (mapItems w r' f site items place) := by
  induction items generalizing n place with
  | nil => exact .pure nofun
  | cons item items ih =>
    obtain ⟨hitem, hitems⟩ := forall_mem_cons.1 hi
    refine .bind (keeps_call hr hf (by simp [Demand.GivesAll, hitem]) hs) fun hk v hv => ?_
    refine .bind (ih (hf.later hk) (fun v hv => (hitems v hv).later hk) (place + 1)) fun hk' vs hvs => ?_
    exact .pure (forall_mem_cons.2 ⟨hv.later hk', hvs⟩)

theorem keeps_reduceItems (hr : r.Keeps w d r') {f : Value} (hf : f.Meets (d.among n)) (hs : d.site site)
    (hi : d.GivesAll n items) {total : Value} (ht : total.Meets (d.among n)) :
    Eval.Keeps w d n returns d.Gives (reduceItems w r f site items total) (reduceItems w r' f site items total) := by
  induction items generalizing n total with
  | nil => exact .pure ht
  | cons item items ih =>
    obtain ⟨hitem, hitems⟩ := forall_mem_cons.1 hi
    exact .bind (keeps_call hr hf (by simp [Demand.GivesAll, ht, hitem]) hs) fun hk v hv =>
      ih (hf.later hk) (fun v hv => (hitems v hv).later hk) hv

theorem keeps_arrayCall (hr : r.Keeps w d r') (ho : d.Meets object.content object.lambdas object.sites)
    (hi : d.GivesAll n items) (method : String) (ha : d.GivesAll n args) (hs : d.site site) :
    Eval.Keeps w d n returns d.Gives (arrayCall w r object items method args site)
      (arrayCall w r' object items method args site) := by
  have hf {k : Nat} (hk : n ≤ k) (f : Value) (hf : f.Meets (d.among k)) : Eval.Keeps w d k returns _ _ _ :=
    keeps_mapItems hr hf hs (fun v hv => (hi v hv).later hk) 0
  unfold arrayCall
  split
  · refine .bind (keeps_storeBack hr ho (Value.meets_array.2 fun v hv => ?_)) fun _ _ _ => ?_
    · exact (mem_append.1 hv).elim (hi v) (ha v)
    · exact .pure Value.meets_ofCount
  · refine .bind (keeps_storeBack hr ho (Value.meets_array.2 fun v hv => ?_)) fun hk _ _ => ?_
    · exact hi v (dropLast_subset items hv)
    · exact .pure (Value.meets_getD fun v hv => (hi v (mem_of_getLast? hv)).later hk)
  · exact .bind (keeps_callback ha hs) fun hk f h => .bind (hf hk f h) fun _ vs hvs =>
      .pure (Value.meets_array.2 hvs)
  · refine .bind (keeps_callback ha hs) fun hk f h => .bind (hf hk f h) fun hk' kept _ =>
      .pure (Value.meets_array.2 fun v hv => ?_)
    obtain ⟨⟨item, keep⟩, hz, hkept⟩ := mem_filterMap.1 hv
    dsimp only at hkept
    split at hkept <;> cases hkept
    exact (hi v (of_mem_zip hz).1).later (Nat.le_trans hk hk')
  · exact .bind (keeps_callback ha hs) fun hk f h => .bind (hf hk f h) fun _ _ _ =>
      .pure Value.meets_undefined
  · refine .bind (keeps_callback ha hs) fun hk f h => ?_
    split
    · next hstart =>
      exact keeps_reduceItems hr h hs (fun v hv => (hi v hv).later hk) ((ha _ (mem_of_getElem? hstart)).later hk)
    · obtain ⟨hfirst, hrest⟩ := forall_mem_cons.1 hi
      exact keeps_reduceItems hr h hs (fun v hv => (hrest v hv).later hk) (hfirst.later hk)
    · exact Keeps.failType hs
  · exact Keeps.lift hs (Value.gives_arrayMethod hi ha method)

theorem keeps_contextCall {cursor : CursorId} {name : Token} (hn : ∀ p ∈ Token.pieces name, d.piece p) (method : String)
    (hs : d.site site) :
    Eval.Keeps w d n returns d.Gives (contextCall cursor name method site) (contextCall cursor name method site) := by
  unfold contextCall
  split
  · refine .bind Keeps.get fun _ m hm => ?_
    refine .bind (.modify (fun m hm _ => ?_) (fun _ => .of_frames rfl) fun _ => ⟨rfl, rfl, rfl⟩) fun _ _ _ => .pure ?_
    · refine hm.modifyCursor cursor (fun c => ?_) (fun c => ?_) <;> unfold Cursor.next <;> split <;> rfl
    · have hv : ∀ t, ((m.heap.cursors[cursor]?.map Cursor.next).bind (·.1)) = some t →
          ∀ p ∈ Token.pieces t, d.piece p := by
        intro t ht p hp
        obtain ⟨pair, hpair, ht⟩ := Option.bind_eq_some_iff.1 ht
        obtain ⟨c, hc, rfl⟩ := Option.map_eq_some_iff.1 hpair
        unfold Cursor.next at ht
        split at ht
        · next hget =>
          cases ht
          exact hm.1.heap.tokens cursor c hc p (Token.mem_piecesAll.2 ⟨t, mem_of_getElem? hget, hp⟩)
        · cases ht
      refine Value.meets_object.2 ⟨fun _ => by simp [Assoc.keys], ?_⟩
      simp only [mem_cons, not_mem_nil, or_false, forall_eq_or_imp, forall_eq, Value.meets_bool, true_and]
      split
      · next t ht =>
        refine Value.meets_fragment.2 ?_
        simpa [Token.piecesAll] using hv t ht
      · exact Value.meets_undefined
  · refine .pure (Value.meets_fragment.2 ?_)
    simpa [Token.piecesAll] using hn
  · refine .bind (.modify (fun m hm _ => ?_) (fun _ => .of_frames rfl) fun _ => ⟨rfl, rfl, rfl⟩) fun _ _ _ =>
      .pure Value.meets_undefined
    exact hm.modifyCursor cursor (fun _ => rfl) (fun _ => rfl)
  · exact .fail hs rfl

theorem keeps_methodCall (hr : r.Keeps w d r') (ho : d.Meets object.content object.lambdas object.sites)
    {base : Value} (hb : base.Meets (d.among n)) (method : String) (ha : d.GivesAll n args) (hs : d.site site) :
    Eval.Keeps w d n returns d.Gives (methodCall w r object base method args site)
      (methodCall w r' object base method args site) := by
  unfold methodCall
  split
  · split
    · next hf => exact keeps_call hr (Value.meets_of_get? (Value.meets_object.1 hb).2 hf) ha hs
    · exact Keeps.failType hs
  · exact keeps_arrayCall hr ho (Value.meets_array.1 hb) method ha hs
  · exact Keeps.lift hs (Value.gives_textMethod _ method args)
  · exact Keeps.lift hs (Value.gives_fragmentMethod w.sources (Value.meets_fragment.1 hb) method)
  · exact keeps_contextCall (d := d) hb.1 method hs
  · exact Keeps.failType hs

theorem keeps_typeOfIdent (hw : w.Meets d) {ident : Token} (hs : d.site ident.site) :
    Eval.Keeps w d n returns d.Gives (typeOfIdent w ident) (typeOfIdent w ident) := by
  refine .bind Keeps.get fun _ m hm => ?_
  have found := gives_lookup hw hm.1 ident
  split
  · exact .pure Value.meets_str
  · exact .pure Value.meets_str
  · next heq =>
    rw [heq] at found
    exact .fail hs found

theorem keeps_properties (hr : r.Keeps w d r') {list : List Property}
    (h : d.Meets (Property.contentAll list) (Property.lambdasAll list) (Property.sitesAll list)) {done : List (String × Value)}
    (hd : Value.FieldsMeet (d.among n) done) :
    Eval.Keeps w d n returns (fun k => Value.FieldsMeet (d.among k)) (properties r list done) (properties r' list done) := by
  induction list generalizing n done with
  | nil => exact .pure hd
  | cons property list ih =>
    obtain ⟨name, value, site⟩ := property
    rw [Property.contentAll, Property.lambdasAll, Property.sitesAll, Demand.meets_cons_site, Demand.meets_append] at h
    refine .bind (hr.expression value h.2.1 n) fun hk v hv => ?_
    have hdone := (Value.meets_object.2 hd).later hk
    exact ih h.2.2 (Value.meets_insert (Value.meets_object.1 hdone) name hv)

theorem keeps_expressionStep (literals : d.Literals) (hw : w.Meets d) (hr : r.Keeps w d r') {e : Expression}
    (h : d.Meets e.content e.lambdas e.sites) :
    Eval.Keeps w d n returns d.Gives (expressionStep w r e) (expressionStep w r' e) := by
  have args {n : Nat} (es : List Expression)
      (hes : d.Meets (Expression.contentAll es) (Expression.lambdasAll es) (Expression.sitesAll es)) :
      Eval.Keeps w d n returns d.GivesAll (es.mapM r.expression) (es.mapM r'.expression) :=
    Keeps.mapM fun e he => hr.expression e (Demand.meets_expressions.1 hes e he)
  unfold expressionStep
  split <;>
    simp only [Expression.content, Expression.lambdas, Expression.sites, Demand.meets_cons_site, Demand.meets_append,
      Demand.meets_cons_use] at h <;>
    obtain ⟨hs, h⟩ := h
  · exact .pure Value.meets_number
  · exact .pure Value.meets_str
  · exact .pure Value.meets_bool
  · exact .pure Value.meets_null
  · exact .bind Keeps.get fun _ m hm => Keeps.lift h.1 (hm.2 ▸ gives_lookup hw hm.1 _)
  · exact .bind (args _ h) fun _ vs hvs => .pure (Value.meets_array.2 hvs)
  · exact .bind (keeps_properties hr h ⟨fun _ => .nil, by simp⟩) fun _ fields hf => .pure (Value.meets_object.2 hf)
  · exact keeps_close h
  · refine .bind (hr.expression _ h.1.2 n) fun _ base hb => ?_
    exact .bind (args _ h.2) fun hk vs hvs => keeps_methodCall hr h.1.2 (hb.later hk) _ hvs hs
  · refine .bind (hr.expression _ h.1 n) fun _ callee hc => ?_
    exact .bind (args _ h.2) fun hk vs hvs => keeps_call hr (hc.later hk) hvs hs
  · exact .bind (hr.expression _ h n) fun _ base hb => Keeps.lift hs (Value.gives_member hb _)
  · refine .bind (hr.expression _ h.1 n) fun _ base hb => ?_
    exact .bind (hr.expression _ h.2 _) fun hk key _ => Keeps.lift hs (Value.gives_index (hb.later hk) key)
  · exact keeps_typeOfIdent hw h.2.1
  · exact .bind (hr.expression _ h n) fun _ v _ => .pure (Value.meets_unary _ v)
  · refine .bind (hr.expression _ h.1 n) fun _ v hv => ?_
    split
    · exact hr.expression _ h.2 _
    · exact .pure hv
  · refine .bind (hr.expression _ h.1 n) fun _ v hv => ?_
    split
    · exact .pure hv
    · exact hr.expression _ h.2 _
  · refine .bind (hr.expression _ h.1 n) fun _ a _ => ?_
    exact .bind (hr.expression _ h.2 _) fun _ b _ => Keeps.lift hs (Value.gives_binary _ a b)
  · refine .bind (hr.expression _ h.1.1 n) fun _ v _ => ?_
    split
    · exact hr.expression _ h.1.2 _
    · exact hr.expression _ h.2 _
  · refine .bind (hr.expression _ h.2 n) fun _ v hv => ?_
    exact .bind (keeps_assign hr h.1 hv) fun hk _ _ => .pure (hv.later hk)
  · exact .bind (Template.keeps_fill literals hr.expression _ ⟨(Content.good_append.1 h.1).1, h.2⟩ n) fun _ ts hts =>
      .pure (Value.meets_fragment.2 hts)

theorem keeps_optional (hr : r.Keeps w d r') {e : Option Expression}
    (h : d.Meets (Expression.contentOption e) (Expression.lambdasOption e) (Expression.sitesOption e)) :
    Eval.Keeps w d n returns d.Gives (optional r e) (optional r' e) := by
  cases e with
  | none => exact .pure Value.meets_undefined
  | some e => exact hr.expression e h n

theorem keeps_statementStep (hr : r.Keeps w d r') {s : Statement} (h : d.Meets s.content s.lambdas s.sites) :
    Eval.Keeps w d n s.Returns (fun _ _ => True) (statementStep w r s) (statementStep w r' s) := by
  cases s with
  | declaration declared site =>
    obtain ⟨kind, list, dsite⟩ := declared
    simp only [statementStep]
    split
    · exact .pure trivial
    · next hk =>
      rw [Statement.content, Declaration.content, if_neg hk, Statement.lambdas, Declaration.lambdas, Statement.sites,
        Declaration.sites, Demand.meets_cons_site, Demand.meets_cons_site] at h
      refine Keeps.forM fun dr hdr n => ?_
      exact .bind (keeps_optional hr (h.2.2.init dr hdr)) fun _ v hv => Keeps.define hv
  | function fn site => exact keeps_declare (Demand.meets_cons_site.1 h).2
  | expression value site =>
    exact .bind (hr.expression value (Demand.meets_cons_site.1 h).2 n) fun _ _ _ => .pure trivial
  | «return» value site =>
    exact .bind (keeps_optional hr (Demand.meets_cons_site.1 h).2) fun _ v hv => .throw hv rfl (.here value site)
  | branch test consequent alternate site =>
    simp only [Statement.content, Statement.lambdas, Statement.sites, Demand.meets_cons_site, Demand.meets_append] at h
    obtain ⟨_, ⟨htest, hconsequent⟩, halternate⟩ := h
    refine .bind (hr.expression test htest n) fun _ v _ => ?_
    split
    · exact (hr.statement consequent hconsequent _).mono .consequent
    · split
      · exact (hr.statement _ halternate _).mono .alternate
      · exact .pure trivial
  | loop test inner site =>
    simp only [Statement.content, Statement.lambdas, Statement.sites, Demand.meets_cons_site, Demand.meets_append] at h
    exact .loop (hr.expression test h.2.1) (fun n => (hr.statement inner h.2.2 n).mono .loop) hr.limit
  | block list site =>
    refine .inFrame ((keeps_statements hr (Demand.meets_cons_site.1 h).2).mono ?_)
    rintro ⟨_, hmem, h⟩
    exact .block hmem h
  | empty site => exact .pure trivial
  | throw value site =>
    obtain ⟨hs, hvalue⟩ := Demand.meets_cons_site.1 h
    exact .bind (hr.expression value hvalue n) fun _ _ _ => .fail hs rfl

end Evaluator

/-- Every evaluator keeps what is asked of the code, and those that go deeper end in the same way. -/
theorem evaluator_keeps (literals : d.Literals) (hw : w.Meets d) {limit limit' : Nat}
    (hl : limit ≤ limit') : (evaluator w limit).Keeps w d (evaluator w limit') := by
  induction limit generalizing limit' with
  | zero => exact ⟨fun _ _ _ => Keeps.exhausted, fun _ _ _ => Keeps.exhausted, Nat.zero_le _⟩
  | succ limit ih =>
    obtain ⟨limit', rfl⟩ : ∃ k, limit' = k + 1 := ⟨limit' - 1, by omega⟩
    have hle : limit ≤ limit' := by omega
    exact ⟨fun _ h _ => Evaluator.keeps_expressionStep literals hw (ih hle) h,
      fun _ h _ => Evaluator.keeps_statementStep (ih hle) h, hle⟩

end Hygiene
