import Mathlib.Data.List.Basic
import Hygiene.Module.Loader
import Hygiene.Proofs.Expand.Modules
import Hygiene.Proofs.Expand.Provenance

/-!
# Names at runtime

A declared binding gets its name with a number behind a percent sign, which no text has. Imported bindings keep their
names, as unbound identifiers do.
-/

namespace Hygiene

open List

/-! ### Names with a number -/

theorem not_continuesName_percent : Lexeme.continuesName '%' = false := by decide

theorem percent_not_mem_toString (n : Nat) : '%' ∉ (toString n).toList := by
  intro h
  rw [Nat.toString_eq_repr, Nat.toList_repr] at h
  exact absurd (Nat.isDigit_of_mem_toDigits (by decide) (by decide) h) (by decide)

/-- A name that a text can contain is not a name with a number. -/
theorem ne_numbered {name base : String} (h : ∀ c ∈ name.toList, Lexeme.continuesName c = true) (n : Nat) :
    name ≠ base ++ "%" ++ toString n := by
  rintro rfl
  have := h '%' (by simp)
  rw [not_continuesName_percent] at this
  cases this

/-- Names with different numbers are different: the number stands behind the last percent sign. -/
theorem numbered_inj {name name' : String} {m n : Nat} (heq : name ++ "%" ++ toString m = name' ++ "%" ++ toString n) :
    m = n := by
  have hdigits (base : String) (k : Nat) :
      ((base ++ "%" ++ toString k).toList.reverse.takeWhile (· ≠ '%')).reverse = (toString k).toList := by
    have hdigit : ∀ c ∈ (toString k).toList.reverse, decide (c ≠ '%') = true := fun c hc =>
      decide_eq_true fun h => percent_not_mem_toString k (h ▸ mem_reverse.1 hc)
    rw [String.toList_append, String.toList_append, reverse_append, reverse_append,
      takeWhile_append_of_pos hdigit]
    simp
  have hlist : (toString m).toList = (toString n).toList := by rw [← hdigits name m, heq, hdigits name' n]
  have hnum := congrArg (fun ds => Nat.ofDigitChars 10 ds 0) hlist
  simpa [Nat.toString_eq_ofList_toDigits] using hnum

/-- What a plain value is written as has a name that a text can contain. -/
theorem Piece.IsLiteral.spelled {p : Piece} (h : p.IsLiteral) : p.Spelled := by
  obtain ⟨_, a, hlabel, ha⟩ := h
  intro name hname
  rw [Piece.name?, hlabel] at hname
  cases a with
  | ident =>
    cases hname
    rcases ha with rfl | rfl | rfl <;> exact all_eq_true.1 (by decide +kernel)
  | _ => cases hname

namespace History

variable {h : List Event} {p : Piece} {b c : Binding} {i : Nat}

/-- Every identifier that has come about has a name that a text can contain. -/
theorem Sound.spelled (hs : Sound h) (hp : Arises h p) : p.Spelled := by
  induction h generalizing p with
  | nil =>
    cases hp with
    | literal lit => exact lit.spelled
  | cons e h ih =>
    cases hp with
    | literal lit => exact lit.spelled
    | text hmem => exact (hs.fits _ hmem).2.1
    | old hp => exact ih hs.tail hp
    | made hm =>
      intro name hname
      refine ih hs.tail (hs.source hm) name ?_
      unfold Piece.name? at hname ⊢
      rwa [← hm.label]

/-- The bindings are named in the order in which they were made. -/
theorem Sound.named (hs : Sound h) (hb : (bindings h)[i]? = some b) :
    b.Named (((bindings h).take i).countP (·.isRenamed)) := by
  induction h generalizing i b with
  | nil => cases hb
  | cons e h ih =>
    cases e with
    | bound c =>
      rw [bindings] at hb ⊢
      by_cases hi : i < (bindings h).length
      · rw [List.getElem?_append_left hi] at hb
        rw [take_append_of_le_length (Nat.le_of_lt hi)]
        exact ih hs.tail hb
      · have hlen := (List.getElem?_eq_some_iff.1 hb).1
        rw [List.length_append, length_singleton] at hlen
        obtain rfl : i = (bindings h).length := by omega
        rw [List.getElem?_append_right (Nat.le_refl _), Nat.sub_self] at hb
        cases hb
        rw [take_left]
        exact hs.fits.2.2.1
    | hidden id scope =>
      rw [bindings, List.getElem?_modify] at hb
      obtain ⟨c, hc, rfl⟩ := Option.map_eq_some_iff.1 hb
      have hcount : ((bindings (.hidden id scope :: h)).take i).countP (·.isRenamed) =
          ((bindings h).take i).countP (·.isRenamed) := by
        rw [bindings, take_modify, countP_modify]
        exact fun _ => rfl
      have hnamed := ih hs.tail hc
      rw [hcount]
      split
      · exact hnamed
      · exact hnamed
    | _ => exact ih hs.tail hb

/-- A binding that has a name of its own has its name with a number. -/
theorem Sound.fresh_of_isRenamed (hs : Sound h) (hb : (bindings h)[i]? = some b) (hr : b.isRenamed = true) :
    b.fresh = b.name ++ "%" ++ toString (((bindings h).take i).countP (·.isRenamed) + 1) := by
  rcases hs.named hb with ⟨hfresh, _⟩ | ⟨hfresh, _⟩
  · exact hfresh
  · simp [Binding.isRenamed, hfresh] at hr

/-- Bindings that have names of their own have different numbers. -/
theorem renamed_lt {bs : List Binding} {j : Nat} (hij : i < j) (hb : bs[i]? = some b) (hr : b.isRenamed = true) :
    (bs.take i).countP (·.isRenamed) < (bs.take j).countP (·.isRenamed) := by
  have hprefix : bs.take (i + 1) <+: bs.take j := take_prefix_take_left hij
  have hle := hprefix.sublist.countP_le (p := (·.isRenamed))
  rw [take_add_one, hb, countP_append] at hle
  simp only [Option.toList_some, countP_singleton, hr, if_true] at hle
  omega

/-- A name with a number belongs to one binding. -/
theorem Sound.eq_of_fresh (hs : Sound h) (hb : b ∈ bindings h) (hc : c ∈ bindings h) (hrb : b.isRenamed = true)
    (hrc : c.isRenamed = true) (heq : b.fresh = c.fresh) : b = c := by
  obtain ⟨i, hi⟩ := mem_iff_getElem?.1 hb
  obtain ⟨j, hj⟩ := mem_iff_getElem?.1 hc
  rw [hs.fresh_of_isRenamed hi hrb, hs.fresh_of_isRenamed hj hrc] at heq
  have hnum := numbered_inj heq
  rcases Nat.lt_trichotomy i j with hij | rfl | hij
  · have := renamed_lt hij hi hrb
    omega
  · rw [hi] at hj
    exact Option.some.inj hj
  · have := renamed_lt hij hj hrc
    omega

end History

namespace Store

/-- The identifier is unbound, or refers to a binding that keeps its name. -/
def Keeps (s : Store) (ident : Token) : Prop := ∀ b, s.resolveIdent ident = some b → b.isRenamed = false

/-- Two identifiers refer to the same binding, or no binding with a name of its own tells them apart and they are written
the same. -/
def SameName (s : Store) (i j : Token) : Prop :=
  (∃ b, s.resolveIdent i = some b ∧ s.resolveIdent j = some b) ∨ s.Keeps i ∧ s.Keeps j ∧ i.name = j.name

variable {s : Store} {ident : Token}

/-- An identifier has the name of the binding that it refers to. -/
theorem name_of_resolveIdent {b : Binding} (h : s.resolveIdent ident = some b) : b.name = ident.name := by
  obtain ⟨name, hname, hres⟩ := Option.bind_eq_some_iff.1 h
  rw [(Binding.isVisible_iff.1 (resolve_visible hres).2).1, Tree.name, hname, Option.getD_some]

/-- What keeps its name has it as its slot. -/
theorem slot_of_keeps (h : s.Keeps ident) : s.slot ident = ident.name := by
  unfold slot
  cases hres : s.resolveIdent ident with
  | none => rfl
  | some b =>
    have hfresh : b.fresh = b.name := by simpa [Binding.isRenamed] using h b hres
    exact hfresh.trans (name_of_resolveIdent hres)

theorem slot_of_some {b : Binding} (h : s.resolveIdent ident = some b) : s.slot ident = b.fresh := by
  unfold slot
  rw [h]

/-- An identifier keeps its name or refers to a binding with a name of its own. -/
theorem keeps_or_renamed (s : Store) (ident : Token) :
    s.Keeps ident ∨ ∃ b, s.resolveIdent ident = some b ∧ b.isRenamed = true := by
  cases hres : s.resolveIdent ident with
  | none => exact Or.inl fun b hb => by rw [hres] at hb; cases hb
  | some b =>
    cases hr : b.isRenamed with
    | true => exact Or.inr ⟨b, rfl, hr⟩
    | false => exact Or.inl fun c hc => by rw [hres] at hc; cases hc; exact hr

end Store

/-- Under fresh names the output has the slot of an identifier. -/
theorem Lowering.name_eq_slot {w : Lowering} (h : w.config.names = .fresh) (ident : Token) :
    w.name ident = w.store.slot ident := by
  unfold Lowering.name
  cases hres : w.store.resolveIdent ident with
  | none => rw [Store.slot, hres]
  | some b =>
    rw [Store.slot_of_some hres, h]
    dsimp only
    split
    · rfl
    · next hr =>
      have hfresh : b.fresh = b.name := by simpa [Binding.isRenamed] using hr
      exact (hfresh.trans (Store.name_of_resolveIdent hres)).symm

namespace History

variable {h : List Event} {i j : Token}

/-- The identifier has come about in the history. -/
def Occurs (h : List Event) (ident : Token) : Prop :=
  ∃ name, ident.ident? = some name ∧ Arises h ⟨ident.note, .atom (.ident name)⟩

theorem Sound.spelled_of_occurs (hs : Sound h) (hi : Occurs h i) :
    ∀ c ∈ i.name.toList, Lexeme.continuesName c = true := by
  obtain ⟨name, hname, harises⟩ := hi
  rw [Tree.name, hname, Option.getD_some]
  exact hs.spelled harises name rfl

/-- An identifier that refers to a binding with a name of its own has that name, and no identifier without such a binding
has it. -/
theorem Sound.slot_ne (hs : Sound h) (hj : Occurs h j) {b : Binding} (hb : (store h).resolveIdent i = some b)
    (hr : b.isRenamed = true) (hkeeps : (store h).Keeps j) : (store h).slot i ≠ (store h).slot j := by
  obtain ⟨k, hk⟩ := mem_iff_getElem?.1 (ModuleRecord.mem_of_resolveIdent hb)
  rw [Store.slot_of_some hb, Store.slot_of_keeps hkeeps, hs.fresh_of_isRenamed hk hr]
  exact (ne_numbered (hs.spelled_of_occurs hj) _).symm

theorem Sound.slot_eq_iff (hs : Sound h) (hi : Occurs h i) (hj : Occurs h j) :
    (store h).slot i = (store h).slot j ↔ (store h).SameName i j := by
  constructor
  · intro heq
    rcases (store h).keeps_or_renamed i with hki | ⟨b, hb, hrb⟩ <;>
      rcases (store h).keeps_or_renamed j with hkj | ⟨c, hc, hrc⟩
    · rw [Store.slot_of_keeps hki, Store.slot_of_keeps hkj] at heq
      exact Or.inr ⟨hki, hkj, heq⟩
    · exact absurd heq.symm (hs.slot_ne hi hc hrc hki)
    · exact absurd heq (hs.slot_ne hj hb hrb hkj)
    · rw [Store.slot_of_some hb, Store.slot_of_some hc] at heq
      have hbc : b = c := hs.eq_of_fresh (ModuleRecord.mem_of_resolveIdent hb) (ModuleRecord.mem_of_resolveIdent hc) hrb hrc
        heq
      exact Or.inl ⟨b, hb, hbc ▸ hc⟩
  · rintro (⟨b, hb, hc⟩ | ⟨hki, hkj, heq⟩)
    · rw [Store.slot_of_some hb, Store.slot_of_some hc]
    · rw [Store.slot_of_keeps hki, Store.slot_of_keeps hkj, heq]

/-- What a state of a run guarantees of names. Two identifiers have the same slot exactly if they refer to the same
binding, or have no binding with a name of its own and are written the same. Declared bindings have such a name, and
bindings for imported variables do not. -/
structure Faithful (h : List Event) : Prop where
  slot_eq_iff : ∀ i j, Occurs h i → Occurs h j → ((store h).slot i = (store h).slot j ↔ (store h).SameName i j)
  renames : ∀ b ∈ bindings h, b.kind.Renames b.isRenamed

theorem Sound.faithful (hs : Sound h) : Faithful h where
  slot_eq_iff _ _ hi hj := hs.slot_eq_iff hi hj
  renames b hb := by
    obtain ⟨k, hk⟩ := mem_iff_getElem?.1 hb
    rcases hs.named hk with ⟨hfresh, hkind⟩ | ⟨hfresh, hkind⟩
    · have hr : b.isRenamed = true := by
        rw [Binding.isRenamed, decide_eq_true_eq, hfresh]
        exact numbered_ne _ _
      rwa [hr]
    · have hr : b.isRenamed = false := by simp [Binding.isRenamed, hfresh]
      rwa [hr]

end History

/-- The identifier that a piece is. -/
def Piece.ident? (p : Piece) : Option Token := p.name?.map fun name => .atom p.mark (.ident name)

/-- The identifiers in the terms of a module. -/
def ModuleRecord.identifiers (r : ModuleRecord) : List Token := (Content.pieces r.content).filterMap Piece.ident?

theorem ModuleRecord.occurs_of_mem_identifiers {r : ModuleRecord} {h : List Event} (hk : Known True h r.content)
    {ident : Token} (hi : ident ∈ r.identifiers) : History.Occurs h ident := by
  obtain ⟨p, hp, hident⟩ := mem_filterMap.1 hi
  obtain ⟨name, hname, rfl⟩ := Option.map_eq_some_iff.1 hident
  have harises : Arises h p := hk _ (Content.mem_pieces.1 hp)
  refine ⟨name, rfl, ?_⟩
  rwa [← Piece.label_of_name? hname]

/-- In every state of a run, names are faithful to bindings. The identifiers in the expanded modules have come about,
and the output is written under its slots when it is written under fresh names. -/
theorem Run.Final.names_faithful {s : Setup} {run : Run} (hrun : run.Final s) :
    (∀ h, h <:+ run.events → History.Faithful h) ∧
    (∀ entry ∈ run.modules, ∀ ident ∈ entry.2.identifiers, History.Occurs run.events ident) ∧
    ∀ w : Lowering, w.store = run.store → w.config.names = .fresh → ∀ ident,
      w.name ident = (History.store run.events).slot ident := by
  have hr : run.Sound := hrun.sound
  refine ⟨?_, fun entry he ident hi => ModuleRecord.occurs_of_mem_identifiers (hr.modules entry he) hi, ?_⟩
  · rintro h ⟨later, hlater⟩
    have hs : History.Sound (later ++ h) := hlater ▸ hr.history
    exact hs.of_append.faithful
  · intro w hw hfresh ident
    rw [Lowering.name_eq_slot hfresh, hw]
    unfold Store.slot
    rw [hr.resolveIdent_store]

/-! ### Names in given programs -/

/-- Whether the entry program of a run has two identifiers of which the test holds. -/
def Run.pairs (test : Store → Token → Token → Bool) (run : Run) : Bool :=
  (Assoc.get? entrySpecifier run.modules).any fun record =>
    record.identifiers.any fun i => record.identifiers.any fun j => test (History.store run.events) i j

theorem Run.exists_of_pairs {test : Store → Token → Token → Bool} {run : Run} (h : run.pairs test = true) :
    ∃ entry ∈ run.modules, ∃ i ∈ entry.2.identifiers, ∃ j ∈ entry.2.identifiers,
      test (History.store run.events) i j = true := by
  obtain ⟨record, hget, h⟩ := (Option.any_eq_true ..).1 h
  obtain ⟨key, hmem⟩ := Assoc.exists_mem_of_get? hget
  obtain ⟨i, hi, h⟩ := any_eq_true.1 h
  obtain ⟨j, hj, h⟩ := any_eq_true.1 h
  exact ⟨_, hmem, i, hi, j, hj, h⟩

/-- A parameter has the name of a variable around it. -/
def parameterText : String := "var x = 1; function f(x) \x7b return x; \x7d"

/-- The variable and the parameter have different slots. -/
theorem Run.Final.names_faithful_parameter : ∃ run : Run, finalRun (expandProgram .alone parameterText) = run ∧
    ∃ entry ∈ run.modules, ∃ i ∈ entry.2.identifiers, ∃ j ∈ entry.2.identifiers, i.name = j.name ∧
      (History.store run.events).slot i ≠ (History.store run.events).slot j := by
  have hfinal : Run.Final .alone (finalRun (expandProgram .alone parameterText)) := .program parameterText
  have hpairs : (finalRun (expandProgram .alone parameterText)).pairs (fun store i j => i.name == j.name &&
      (store.resolveIdent i).any fun b => b.isRenamed && (store.resolveIdent j).any fun c => b.id != c.id) = true := by
    decide +kernel
  generalize finalRun (expandProgram .alone parameterText) = run at hfinal hpairs
  obtain ⟨entry, hentry, i, hi, j, hj, htest⟩ := Run.exists_of_pairs hpairs
  obtain ⟨hname, htest⟩ := Bool.and_eq_true_iff.1 htest
  obtain ⟨b, hb, htest⟩ := (Option.any_eq_true ..).1 htest
  obtain ⟨hrenamed, htest⟩ := Bool.and_eq_true_iff.1 htest
  obtain ⟨c, hc, hne⟩ := (Option.any_eq_true ..).1 htest
  obtain ⟨hfaithful, hoccurs, _⟩ := Run.Final.names_faithful hfinal
  refine ⟨run, rfl, entry, hentry, i, hi, j, hj, beq_iff_eq.1 hname, fun heq => ?_⟩
  have hsame := ((hfaithful _ (suffix_refl _)).slot_eq_iff i j (hoccurs entry hentry i hi)
    (hoccurs entry hentry j hj)).1 heq
  rcases hsame with ⟨d, hd, hd'⟩ | ⟨hkeeps, _, _⟩
  · rw [hb] at hd
    rw [hc] at hd'
    cases hd
    cases hd'
    simp at hne
  · rw [hkeeps b hb] at hrenamed
    cases hrenamed

/-- A module whose transformer introduces a name that is bound nowhere, and a module that exports a variable of that
name. -/
def Setup.homonym : Setup where
  load := tableLoader [("./m.js", "#lang 'sweet.js'; export syntax m = ctx => #`x`;"), ("./x.js", "export var x = 1;")]

/-- The transformer is used where the variable is imported. -/
def homonymText : String := "import \x7b m \x7d from './m.js'; import \x7b x \x7d from './x.js'; output = m;"

/-- The imported name and the unbound name that the transformer introduces have the same slot. -/
theorem Run.Final.names_faithful_homonym : ∃ run : Run, finalRun (expandProgram .homonym homonymText) = run ∧
    ∃ entry ∈ run.modules, ∃ i ∈ entry.2.identifiers, ∃ j ∈ entry.2.identifiers,
      (History.store run.events).slot i = (History.store run.events).slot j ∧
      (∃ b, (History.store run.events).resolveIdent i = some b) ∧ (History.store run.events).resolveIdent j = none := by
  have hpairs : (finalRun (expandProgram .homonym homonymText)).pairs (fun store i j => store.slot i == store.slot j &&
      (store.resolveIdent i).isSome && (store.resolveIdent j).isNone) = true := by decide +kernel
  generalize finalRun (expandProgram .homonym homonymText) = run at hpairs
  obtain ⟨entry, hentry, i, hi, j, hj, htest⟩ := Run.exists_of_pairs hpairs
  simp only [Bool.and_eq_true, beq_iff_eq, Option.isSome_iff_exists, Option.isNone_iff_eq_none] at htest
  exact ⟨run, rfl, entry, hentry, i, hi, j, hj, htest.1.1, htest.1.2, htest.2⟩

end Hygiene
