import Antic.ConstAgreeProofs
import Mathlib.Data.List.Forall2

/-! # A constant has one value on every target

    The two inductions over an expression: a constant has the type of its expression, and its parts
    agree with the program just where none of them splits. -/

namespace AnticConst

open AnticIr MachineInt List Option

variable {F : Type} (target : Target) (ops : FloatOps F)

/-! ## A constant has the type of its expression -/

theorem heldNumber_stands {t : IntType} {n : Nat} (h : heldNumber t n = true) :
    ∃ z, Stands t n z := by
  obtain ⟨h, hone⟩ := Bool.and_eq_true_iff.mp h
  obtain ⟨hlt, hwrap⟩ := Bool.and_eq_true_iff.mp h
  have hlt := of_decide_eq_true hlt
  have hwrap : wrap t n = n := eq_of_beq hwrap
  have hfits : fitsEveryTarget t (wrap t n) = some (.int (.int t) n : Value Unit) := by
    rw [hwrap, fitsEveryTarget, if_pos hone]
  obtain ⟨-, hstands⟩ := fits_stands hlt hfits
  rw [hwrap] at hstands
  exact ⟨_, hstands⟩

section Parts

variable {e : Expr F} {v : Value F}

theorem hasAll_of {es : List (Expr F)} {vs : List (Value F)} {t : Ty}
    (h : List.Forall₂ (fun e v => v.Has e.type) es vs)
    (ht : (es.all fun e => decide (e.type = t)) = true) : Value.HasAll vs t := by
  induction h with
  | nil => trivial
  | cons hv _ ih =>
    obtain ⟨hhead, htail⟩ := Bool.and_eq_true_iff.mp ht
    exact ⟨of_decide_eq_true hhead ▸ hv, ih htail⟩

theorem hasFields_of {es : List (Expr F)} {vs : List (Value F)} {fields : Fields}
    (h : List.Forall₂ (fun e v => v.Has e.type) es vs)
    (ht : typesFit fields es = true) : Value.HasFields vs fields := by
  induction h generalizing fields with
  | nil =>
    cases fields with
    | nil => trivial
    | cons t ts => cases ht
  | cons hv _ ih =>
    cases fields with
    | nil => cases ht
    | cons t ts =>
      obtain ⟨hhead, htail⟩ := Bool.and_eq_true_iff.mp ht
      exact ⟨of_decide_eq_true hhead ▸ hv, ih htail⟩

theorem joined_lt {t : IntType} {n : Nat} {flags : Bool}
    (hc : checked (.unary .minus flags (.int t n) : Expr F) = true) : n < 2 ^ 64 := by
  have hc : (if typesIsSigned t then decide (n ≤ maxOf t + 1) else decide (n = 0)) =
      true := hc
  have hmax : typesIsSigned t = true → maxOf t + 1 < 2 ^ 64 := by
    cases t <;> decide
  split at hc
  · rename_i hs
    have hn : n ≤ maxOf t + 1 := of_decide_eq_true hc
    exact lt_of_le_of_lt hn (hmax hs)
  · have hn : n = 0 := of_decide_eq_true hc
    omega

end Parts

section Types

variable {op : BinaryOp} {left right : Expr F} {a v : Value F}

theorem operandsFit_bool (hop : op = .andAnd ∨ op = .orOr) (h : operandsFit op left right = true) :
    left.type = .bool ∧ right.type = .bool := by
  rcases hop with rfl | rfl <;> exact of_decide_eq_true h

theorem eval_short {flags : Bool} (hop : op = .andAnd ∨ op = .orOr)
    (h : semaEvalConst ops (.binary op flags left right) = some v) :
    ∃ a, semaEvalConst ops left = some a ∧ (v = a ∨ semaEvalConst ops right = some v) := by
  obtain ⟨a, ha, h⟩ := bind_eq_some_iff.mp h
  refine ⟨a, ha, ?_⟩
  rcases hop with rfl | rfl <;> cases a with
  | bool b =>
    cases b with
    | true | false => first | exact Or.inr h | exact Or.inl (some.inj h).symm
  | int | char | float | null | text | array | struct => exact Or.inr h

theorem notPlain_cases (h : op.isPlain = false) :
    (op = .andAnd ∨ op = .orOr) ∨ op = .questionQuestion := by
  cases op with
  | andAnd => exact Or.inl (Or.inl rfl)
  | orOr => exact Or.inl (Or.inr rfl)
  | questionQuestion => exact Or.inr rfl
  | plus | plusWrap | plusSat | minus | minusWrap | minusSat | star | starWrap
  | starSat | mulHigh | slash | percent | amp | pipe | caret | shl | shlWrap
  | shr | eq | ne | lt | le | gt | ge => cases h

theorem constUnary_unjoined {op : UnaryOp} {operand : Expr F} {flags : Bool} {t : Ty}
    (h : joins op operand = false) :
    constUnary ops op t flags operand.isLiteral a =
      constUnary ops op t flags false a := by
  cases op with
  | minus =>
    have hlit : operand.isLiteral = false := h
    rw [hlit]
  | bang | tilde => rfl

variable {base : Ty} {i : Nat}

theorem field_has (hfield : (match base with
      | .struct _ fields => (fields.get? i).isSome
      | _ => false) = true)
    (ha : a.Has base) (h : a.field? i = some v) : v.Has (base.fieldType i) := by
  cases base with
  | struct id fields =>
    obtain ⟨node, items, rfl, hitems⟩ := has_struct ha
    obtain ⟨t, ht⟩ := isSome_iff_exists.mp hfield
    have htype : (Ty.struct id fields).fieldType i = t := by
      show (fields.get? i).getD default = t
      rw [ht]
      rfl
    rw [htype]
    exact hasFields_get hitems h ht
  | bool | char | int | float | str | pointer | enum | array => cases hfield

theorem element_has {index : Ty} {n : Nat} (hkind : (match base, index with
      | .array _ _, .int _ => true
      | _, _ => false) = true)
    (ha : a.Has base) (h : a.element? n = some v) : v.Has base.element := by
  cases base with
  | array e length =>
    obtain ⟨node, items, rfl, -, -, hitems⟩ := has_array ha
    exact hasAll_get hitems h
  | bool | char | int | float | str | pointer | enum | struct => cases hkind

/-- The length of a constant is that of the value it stands for. -/
theorem len_has (h : (match base, a with
      | .str, .text bytes => some (.int (.int .i64) bytes.length)
      | .array _ length, _ => some (.int (.int .i64) length)
      | _, _ => none) = some v)
    (ha : a.Has base) :
    v.Has (.int .i64) ∧ (match a.read with
      | .text bytes => some (.int bytes.length)
      | .array _ items => some (.int items.length)
      | _ => none) = some v.read := by
  have hlength {n : Nat} (hn : n ≤ maxOf .i64) :
      (Value.int (.int .i64) n : Value F).Has (.int .i64) ∧
        (Value.int (.int .i64) n : Value F).read = .int n := by
    have hstands := stands_nat hn
    exact ⟨⟨rfl, Or.inl ⟨_, rfl⟩, _, hstands⟩, congrArg RunValue.int hstands.number⟩
  cases base with
  | str =>
    obtain ⟨bytes, rfl, hlen⟩ := has_str ha
    cases some.inj h
    exact ⟨(hlength hlen).1, congrArg some (hlength hlen).2.symm⟩
  | array e length =>
    obtain ⟨node, items, rfl, rfl, hlen, -⟩ := has_array ha
    cases some.inj h
    refine ⟨(hlength hlen).1, ?_⟩
    rw [(hlength hlen).2, ← readAll_length items]
    rfl
  | bool | char | int | float | pointer | enum | struct => cases h

theorem eval_inRange {value low high : Expr F}
    (h : semaEvalConst ops (.inRange value low high) = some v) :
    (value.type.isNumeric || value.type = .char) = true ∧
      ∃ a b, semaEvalConst ops value = some a ∧ semaEvalConst ops low = some b ∧
        ((constCompare ops .ge value.type.isSigned a b = true ∧
            ∃ c, semaEvalConst ops high = some c ∧
              v = .bool (constCompare ops .lt value.type.isSigned a c)) ∨
          (constCompare ops .ge value.type.isSigned a b = false ∧ v = .bool false)) := by
  rw [semaEvalConst] at h
  cases hkind : (value.type.isNumeric || decide (value.type = .char)) with
  | false =>
    rw [hkind] at h
    cases h
  | true =>
    rw [hkind] at h
    refine ⟨rfl, ?_⟩
    obtain ⟨a, ha, h⟩ := bind_eq_some_iff.mp h
    obtain ⟨b, hb, h⟩ := bind_eq_some_iff.mp h
    refine ⟨a, b, ha, hb, ?_⟩
    cases hge : constCompare ops .ge value.type.isSigned a b with
    | true =>
      rw [hge, if_pos rfl] at h
      obtain ⟨a', ha', h⟩ := bind_eq_some_iff.mp h
      cases some.inj (ha.symm.trans ha')
      obtain ⟨c, hc, h⟩ := bind_eq_some_iff.mp h
      exact Or.inl ⟨rfl, c, hc, (some.inj h).symm⟩
    | false =>
      rw [hge, if_neg Bool.false_ne_true] at h
      exact Or.inr ⟨rfl, (some.inj h).symm⟩

end Types

mutual

/-- A checked expression gives a value of its type, by recursion over the expression. -/
theorem eval_has : ∀ (e : Expr F) {v : Value F}, checked e = true →
    semaEvalConst ops e = some v → v.Has e.type
  | .int t n, v, hc, h => by
      cases some.inj h
      exact (const_literal (of_decide_eq_true hc)).1
  | .float t x, v, _, h => by
      cases some.inj h
      exact ⟨t, rfl⟩
  | .char c, v, hc, h => by
      cases some.inj h
      exact ⟨rfl, hc⟩
  | .bool b, v, _, h => by
      cases some.inj h
      rfl
  | .none id, v, _, h => by
      cases some.inj h
      exact ⟨id, rfl⟩
  | .string bytes, v, hc, h => by
      cases some.inj h
      exact ⟨rfl, of_decide_eq_true hc⟩
  | .name value, v, hc, h => eval_has value hc h
  | .enumValue id base number, v, hc, h => by
      cases some.inj h
      exact ⟨rfl, Or.inr ⟨id, base, rfl⟩, heldNumber_stands hc⟩
  | .cast result operand, v, hc, h => by
      obtain ⟨hoperand, hconv⟩ := Bool.and_eq_true_iff.mp hc
      obtain ⟨a, ha, h⟩ := bind_eq_some_iff.mp h
      have hhas := eval_has operand hoperand ha
      show v.Has result
      split at h
      · rename_i hsame
        cases some.inj h
        exact hsame ▸ hhas
      · rename_i hother
        rw [decide_eq_false hother] at hconv
        exact (constAs_runs ops hhas hconv h).1
  | .unary op flags operand, v, hc, h => by
      obtain ⟨a, ha, h⟩ := bind_eq_some_iff.mp h
      cases hjoins : joins op operand with
      | true =>
        obtain ⟨rfl, t, n, rfl⟩ := joins_cases hjoins
        cases some.inj ha
        exact (constMinus_literal ops (joined_lt hc) h).1
      | false =>
        rw [checked_unary hjoins] at hc
        obtain ⟨hoperand, hfit⟩ := Bool.and_eq_true_iff.mp hc
        rw [constUnary_unjoined ops hjoins] at h
        exact (constUnary_runs ops (eval_has operand hoperand ha) hfit h).1
  | .binary op flags left right, v, hc, h => by
      obtain ⟨hc, hfit⟩ := Bool.and_eq_true_iff.mp hc
      obtain ⟨hleft, hright⟩ := Bool.and_eq_true_iff.mp hc
      cases hplain : op.isPlain with
      | true =>
        rw [eval_binary ops hplain] at h
        obtain ⟨a, ha, h⟩ := bind_eq_some_iff.mp h
        obtain ⟨b, hb, h⟩ := bind_eq_some_iff.mp h
        exact binary_has ops hplain hfit (eval_has left hleft ha) (eval_has right hright hb) h
      | false =>
        rcases notPlain_cases hplain with hop | hop
        · obtain ⟨a, ha, hv⟩ := eval_short ops hop h
          obtain ⟨htl, htr⟩ := operandsFit_bool hop hfit
          have htype : (Expr.binary op flags left right).type = .bool := by
            rcases hop with rfl | rfl <;> rfl
          rw [htype]
          rcases hv with rfl | hv
          · exact htl ▸ eval_has left hleft ha
          · exact htr ▸ eval_has right hright hv
        · subst hop
          obtain ⟨a, -, h⟩ := bind_eq_some_iff.mp h
          cases h
  | .array element node elements, v, hc, h => by
      obtain ⟨hc, htypes⟩ := Bool.and_eq_true_iff.mp hc
      obtain ⟨hlen, hall⟩ := Bool.and_eq_true_iff.mp hc
      obtain ⟨vs, hvs, h⟩ := bind_eq_some_iff.mp h
      cases some.inj h
      have hparts := evals_has elements hall hvs
      have hlength := hparts.length_eq
      refine ⟨element, ?_, ?_, hasAll_of hparts htypes⟩
      · show Ty.array element elements.length = _
        rw [hlength]
      · rw [← hlength]
        exact of_decide_eq_true hlen
  | .arrayRepeat node length value, v, hc, h => by
      obtain ⟨hlen, hvalue⟩ := Bool.and_eq_true_iff.mp hc
      rw [semaEvalConst] at h
      split at h
      · cases h
      obtain ⟨a, ha, h⟩ := bind_eq_some_iff.mp h
      cases some.inj h
      refine ⟨value.type, ?_, ?_, hasAll_replicate (eval_has value hvalue ha) length⟩
      · rw [length_replicate]
        rfl
      · rw [length_replicate]
        exact of_decide_eq_true hlen
  | .struct id fields node values, v, hc, h => by
      obtain ⟨hall, htypes⟩ := Bool.and_eq_true_iff.mp hc
      obtain ⟨vs, hvs, h⟩ := bind_eq_some_iff.mp h
      cases some.inj h
      exact ⟨id, fields, rfl, hasFields_of (evals_has values hall hvs) htypes⟩
  | .field base i, v, hc, h => by
      obtain ⟨hbase, hfield⟩ := Bool.and_eq_true_iff.mp hc
      obtain ⟨a, ha, h⟩ := bind_eq_some_iff.mp h
      exact field_has hfield (eval_has base hbase ha) h
  | .len base, v, hc, h => by
      obtain ⟨hbase, hkind⟩ := Bool.and_eq_true_iff.mp hc
      rw [eval_len] at h
      obtain ⟨a, ha, h⟩ := bind_eq_some_iff.mp h
      exact (len_has h (eval_has base hbase ha)).1
  | .index base index, v, hc, h => by
      obtain ⟨hc, hkind⟩ := Bool.and_eq_true_iff.mp hc
      obtain ⟨hbase, -⟩ := Bool.and_eq_true_iff.mp hc
      obtain ⟨a, ha, h⟩ := bind_eq_some_iff.mp h
      obtain ⟨b, -, h⟩ := bind_eq_some_iff.mp h
      exact element_has hkind (eval_has base hbase ha) h
  | .inRange value low high, v, hc, h => by
      obtain ⟨-, a, b, -, -, hv⟩ := eval_inRange ops h
      rcases hv with ⟨-, c, -, rfl⟩ | ⟨-, rfl⟩ <;> rfl
  | .other t, v, _, h => by cases h

theorem evals_has : ∀ (es : List (Expr F)) {vs : List (Value F)},
    checkedAll es = true → semaEvalConsts ops es = some vs →
    List.Forall₂ (fun e v => v.Has e.type) es vs
  | [], vs, _, h => by
      cases some.inj h
      exact .nil
  | e :: es, vs, hc, h => by
      obtain ⟨hhead, htail⟩ := Bool.and_eq_true_iff.mp hc
      obtain ⟨v, hv, h⟩ := bind_eq_some_iff.mp h
      obtain ⟨ws, hws, h⟩ := bind_eq_some_iff.mp h
      cases some.inj h
      exact .cons (eval_has e hhead hv) (evals_has es htail hws)

end

/-! ## The parts of an expression -/

/-- The parts agree with the program just where none of them splits. -/
def Settles (ps : List (Expr F)) : Prop :=
  (∀ p ∈ ps, Agrees target ops p) ↔ ∀ p ∈ ps, ¬ Splits target ops p

section Settling

variable {target ops} {e : Expr F} {v : Value F} {ps qs : List (Expr F)}

theorem agrees_iff (h : semaEvalConst ops e = some v) :
    Agrees target ops e ↔ run target ops e = some v.read := by
  constructor
  · rintro ⟨w, hw, hrun⟩
    cases some.inj (h.symm.trans hw)
    exact hrun
  · exact fun hrun => ⟨v, h, hrun⟩

theorem settles_cons (h : Settles target ops ps) (he : (∀ p ∈ ps, Agrees target ops p) →
      (Agrees target ops e ↔ ¬ Splits target ops e)) :
    Settles target ops (e :: ps) := by
  unfold Settles
  rw [forall_mem_cons, forall_mem_cons]
  constructor
  · exact fun ⟨hagrees, hps⟩ => ⟨(he hps).mp hagrees, h.mp hps⟩
  · exact fun ⟨hsplits, hps⟩ => ⟨(he (h.mpr hps)).mpr hsplits, h.mpr hps⟩

theorem settles_append (hp : Settles target ops ps)
    (hq : (∀ p ∈ ps, Agrees target ops p) → Settles target ops qs) :
    Settles target ops (ps ++ qs) := by
  unfold Settles
  rw [forall_mem_append, forall_mem_append]
  constructor
  · exact fun ⟨hps, hqs⟩ => ⟨hp.mp hps, (hq hps).mp hqs⟩
  · exact fun ⟨hps, hqs⟩ => ⟨hp.mpr hps, (hq (hp.mpr hps)).mpr hqs⟩

theorem settles_nil : Settles target ops ([] : List (Expr F)) :=
  iff_of_true (fun _ h => nomatch h) (fun _ h => nomatch h)

/-- A form that is no comparison splits nowhere of its own. -/
theorem settles_form (h : Settles target ops ps) (hv : semaEvalConst ops e = some v)
    (he : (∀ p ∈ ps, Agrees target ops p) → run target ops e = some v.read)
    (hsplits : ¬ Splits target ops e := by rintro (h | h) <;> cases h) :
    Settles target ops (e :: ps) :=
  settles_cons h fun hps => iff_of_true ((agrees_iff hv).mpr (he hps)) hsplits

theorem settles_leaf (hv : semaEvalConst ops e = some v) (he : run target ops e = some v.read)
    (hsplits : ¬ Splits target ops e := by rintro (h | h) <;> cases h) :
    Settles target ops [e] :=
  settles_form settles_nil hv (fun _ => he) hsplits

theorem head_mem (e : Expr F) : e ∈ parts target ops e := by
  cases e with
  | unary op flags operand => cases op <;> cases operand <;> exact mem_cons_self
  | int | float | char | bool | none | string | name | enumValue | cast | binary
  | array | arrayRepeat | struct | field | len | index | inRange | other => exact mem_cons_self

theorem run_of_parts (hv : semaEvalConst ops e = some v)
    (h : ∀ p ∈ parts target ops e, Agrees target ops p) :
    run target ops e = some v.read :=
  (agrees_iff hv).mp (h e (head_mem e))

theorem runAll_of_parts {es : List (Expr F)} {vs : List (Value F)}
    (hvs : semaEvalConsts ops es = some vs)
    (h : ∀ p ∈ partsAll target ops es, Agrees target ops p) :
    runAll target ops es = some (Value.readAll vs) := by
  induction es generalizing vs with
  | nil =>
    cases some.inj hvs
    rfl
  | cons e es ih =>
    obtain ⟨v, hv, hvs⟩ := bind_eq_some_iff.mp hvs
    obtain ⟨ws, hws, hvs⟩ := bind_eq_some_iff.mp hvs
    cases some.inj hvs
    obtain ⟨hhead, htail⟩ := forall_mem_append.mp h
    rw [runAll, run_of_parts hv hhead, ih hws htail]
    rfl

end Settling

section Forms

variable {v a b : Value F}

theorem run_short {op : BinaryOp} {flags : Bool} {left right : Expr F}
    (hop : op = .andAnd ∨ op = .orOr) (hleft : run target ops left = some a.read)
    (hv : semaEvalConst ops left = some a)
    (h : semaEvalConst ops (.binary op flags left right) = some v) :
    (op.goesOn (run target ops left) = false ∧
        run target ops (.binary op flags left right) = some v.read) ∨
      (op.goesOn (run target ops left) = true ∧ semaEvalConst ops right = some v ∧
        run target ops (.binary op flags left right) = run target ops right) := by
  rw [semaEvalConst, hv] at h
  rw [run, hleft]
  rcases hop with rfl | rfl <;> cases a with
  | bool b =>
    cases b with
    | true | false =>
      first
      | exact Or.inr ⟨rfl, h, rfl⟩
      | exact Or.inl ⟨rfl, congrArg (fun w => w.map Value.read) h⟩
  | int | char | float | null | text | array | struct => exact Or.inr ⟨rfl, h, rfl⟩

theorem field_runs {i : Nat} (h : a.field? i = some v) : a.read.field? i = some v.read := by
  cases a with
  | struct node items =>
    have hitem : items[i]? = some v := h
    show (Value.readAll items)[i]? = _
    rw [readAll_get, hitem]
    rfl
  | int | bool | char | float | null | text | array => cases h

theorem element_runs {base index : Ty} (hkind : (match base, index with
      | .array _ _, .int _ => true
      | _, _ => false) = true)
    (ha : a.Has base) (hb : b.Has index) (h : a.element? b.integer = some v) :
    a.read.element? b.read = some v.read := by
  cases base with
  | array e length =>
    cases index with
    | int t =>
      obtain ⟨node, items, rfl, hlen, hmax, -⟩ := has_array ha
      obtain ⟨n, z, rfl, hz⟩ := has_int hb
      have hitem : items[n]? = some v := h
      have hn : n < items.length := (List.getElem?_eq_some_iff.mp hitem).1
      have hnz : z = n := by
        have hsmall : n < 2 ^ 63 := by
          have hmax' : length ≤ 2 ^ 63 - 1 := hmax
          omega
        have hs : arithSigned n 64 = n := signed_of_lt (n := 64) (by norm_num) hsmall
        rw [← hz.number]
        show (if typesIsSigned t then arithSigned n 64 else (n : Int)) = n
        split
        · exact hs
        · rfl
      have hread : (Value.int (.int t) n : Value F).read = .int z := congrArg RunValue.int hz.number
      rw [hread, hnz]
      show (if 0 ≤ (n : Int) then (Value.readAll items)[(n : Int).toNat]? else none) = _
      rw [if_pos (Int.natCast_nonneg n), Int.toNat_natCast, readAll_get, hitem]
      rfl
    | bool | char | float | str | pointer | enum | array | struct => cases hkind
  | bool | char | int | float | str | pointer | enum | struct => cases hkind

theorem ordered_runs {t : Ty} {op : BinaryOp} (ha : a.Has t) (hb : b.Has t)
    (hkind : (t.isNumeric || t = .char) = true) (hop : op = .ge ∨ op = .lt) :
    runCompare ops op a.read b.read =
      some (constCompare ops op t.isSigned a b) := by
  have hfit : comparesFit op t = true := by
    rcases hop with rfl | rfl <;>
      exact Bool.or_eq_true_iff.mpr (Or.inl hkind)
  refine constCompare_runs ops ha hb hfit fun i j hi _ => ?_
  -- A number and a character have no place.
  obtain ⟨items, rfl | rfl⟩ := node_cases hi
  · obtain ⟨e, rfl, -⟩ := ha
    cases hkind
  · obtain ⟨id, fields, rfl, -⟩ := ha
    cases hkind

end Forms

section Short

variable {target ops}

/-- What is evaluated on the right of `&&` and `||` hangs on the value of the left. -/
theorem short_settles {op : BinaryOp} {flags : Bool} {left right : Expr F} {v : Value F}
    (hop : op = .andAnd ∨ op = .orOr) (h : semaEvalConst ops (.binary op flags left right) = some v)
    (hleft : ∀ {a}, semaEvalConst ops left = some a → Settles target ops (parts target ops left))
    (hright : ∀ {b}, semaEvalConst ops right = some b →
      Settles target ops (parts target ops right)) :
    Settles target ops (parts target ops (.binary op flags left right)) := by
  obtain ⟨a, ha, -⟩ := bind_eq_some_iff.mp h
  have hshort (hps : ∀ p ∈ parts target ops left, Agrees target ops p) :=
    run_short target ops hop (run_of_parts ha hps) ha h
  have hsplits : ¬ Splits target ops (.binary op flags left right) := by
    have hcompare : op.isComparison = false := by
      rcases hop with rfl | rfl <;> rfl
    rintro (hb | hp)
    · rcases hop with rfl | rfl <;> cases hb
    · rw [comparesPlaces_other target ops hcompare] at hp
      cases hp
  refine settles_form (settles_append (hleft ha) fun hps => ?_) h (fun hps => ?_) hsplits
  · rcases hshort hps with ⟨hgoes, -⟩ | ⟨hgoes, hr, -⟩
    · rw [hgoes]
      exact settles_nil
    · rw [hgoes]
      exact hright hr
  · obtain ⟨hpa, hpb⟩ := forall_mem_append.mp hps
    rcases hshort hpa with ⟨-, hrun⟩ | ⟨hgoes, hr, hrun⟩
    · exact hrun
    · rw [hgoes] at hpb
      rw [hrun]
      exact run_of_parts hr hpb

/-- The upper bound of a range is evaluated where the value reaches the lower one. -/
theorem inRange_settles {value low high : Expr F} {v : Value F}
    (hc : checked (.inRange value low high) = true)
    (h : semaEvalConst ops (.inRange value low high) = some v)
    (hsvalue : ∀ {a}, checked value = true → semaEvalConst ops value = some a →
      Settles target ops (parts target ops value))
    (hslow : ∀ {b}, checked low = true → semaEvalConst ops low = some b →
      Settles target ops (parts target ops low))
    (hshigh : ∀ {c}, checked high = true → semaEvalConst ops high = some c →
      Settles target ops (parts target ops high)) :
    Settles target ops (parts target ops (.inRange value low high)) := by
  obtain ⟨hc, hthigh⟩ := Bool.and_eq_true_iff.mp hc
  obtain ⟨hc, htlow⟩ := Bool.and_eq_true_iff.mp hc
  obtain ⟨hc, hhigh⟩ := Bool.and_eq_true_iff.mp hc
  obtain ⟨hvalue, hlow⟩ := Bool.and_eq_true_iff.mp hc
  obtain ⟨hkind, a, b, ha, hb, hv⟩ := eval_inRange ops h
  have hhas := eval_has ops value hvalue ha
  have hbhas := of_decide_eq_true htlow ▸ eval_has ops low hlow hb
  have hge := ordered_runs ops hhas hbhas hkind (Or.inl rfl)
  refine settles_form (settles_append (settles_append (hsvalue hvalue ha) fun _ => hslow hlow hb)
    fun hps => ?_) h fun hps => ?_
  · obtain ⟨hpa, hpb⟩ := forall_mem_append.mp hps
    rw [run_of_parts ha hpa, run_of_parts hb hpb]
    show Settles target ops (if runCompare ops .ge a.read b.read = some true
      then parts target ops high else [])
    rcases hv with ⟨htrue, c, hc, -⟩ | ⟨hfalse, -⟩
    · rw [htrue] at hge
      rw [if_pos hge]
      exact hshigh hhigh hc
    · rw [hfalse] at hge
      rw [if_neg (by rw [hge]; simp)]
      exact settles_nil
  · obtain ⟨hps, hpc⟩ := forall_mem_append.mp hps
    obtain ⟨hpa, hpb⟩ := forall_mem_append.mp hps
    have hruna := run_of_parts ha hpa
    have hrunb := run_of_parts hb hpb
    rw [hruna, hrunb] at hpc
    rw [run, hruna, hrunb]
    show (runCompare ops .ge a.read b.read).bind _ = _
    rcases hv with ⟨htrue, c, hcv, rfl⟩ | ⟨hfalse, rfl⟩
    · rw [htrue] at hge
      rw [hge]
      have hpc : ∀ p ∈ (if runCompare ops .ge a.read b.read = some true
        then parts target ops high else []), Agrees target ops p := hpc
      rw [if_pos hge] at hpc
      have hchas := of_decide_eq_true hthigh ▸ eval_has ops high hhigh hcv
      have hlt := ordered_runs ops hhas hchas hkind (Or.inr rfl)
      show (run target ops high).bind _ = _
      rw [run_of_parts hcv hpc]
      show (runCompare ops .lt a.read c.read).bind _ = _
      rw [hlt]
      rfl
    · rw [hge, hfalse]
      rfl

end Short

mutual

/-- The parts of a constant agree just where none of them splits. -/
theorem parts_settle : ∀ (e : Expr F) {v : Value F}, checked e = true →
    semaEvalConst ops e = some v → Settles target ops (parts target ops e)
  | .int t n, v, hc, h => by
      have hv := some.inj h
      refine settles_leaf h ?_
      rw [← hv, (const_literal (of_decide_eq_true hc)).2 target]
      rfl
  | .float t x, v, _, h
  | .char c, v, _, h
  | .bool b, v, _, h
  | .none id, v, _, h
  | .string bytes, v, _, h
  | .enumValue id base number, v, _, h => by
      cases some.inj h
      exact settles_leaf h rfl
  | .name value, v, hc, h =>
    settles_form (parts_settle value hc h) h (run_of_parts h)
  | .cast result operand, v, hc, h => by
      obtain ⟨hoperand, hconv⟩ := Bool.and_eq_true_iff.mp hc
      obtain ⟨a, ha, hv⟩ := bind_eq_some_iff.mp h
      refine settles_form (parts_settle operand hoperand ha) h fun hps => ?_
      rw [run, run_of_parts ha hps]
      show (if operand.type = result then some a.read
        else runAs target ops result a.read) = _
      split at hv
      · rename_i hsame
        rw [if_pos hsame, some.inj hv]
      · rename_i hother
        rw [decide_eq_false hother] at hconv
        rw [if_neg hother]
        exact (constAs_runs ops (eval_has ops operand hoperand ha) hconv hv).2 target
  | .unary op flags operand, v, hc, h => by
      obtain ⟨a, ha, hv⟩ := bind_eq_some_iff.mp h
      cases hjoins : joins op operand with
      | true =>
        obtain ⟨rfl, t, n, rfl⟩ := joins_cases hjoins
        cases some.inj ha
        refine settles_leaf h ?_
        rw [(constMinus_literal ops (joined_lt hc) hv).2 target]
        rfl
      | false =>
        rw [checked_unary hjoins] at hc
        obtain ⟨hoperand, hfit⟩ := Bool.and_eq_true_iff.mp hc
        rw [constUnary_unjoined ops hjoins] at hv
        rw [parts_unary target ops hjoins]
        refine settles_form (parts_settle operand hoperand ha) h fun hps => ?_
        rw [run_unary target ops hjoins, run_of_parts ha hps]
        exact (constUnary_runs ops (eval_has ops operand hoperand ha) hfit hv).2 target
  | .binary op flags left right, v, hc, h => by
      obtain ⟨hc, hfit⟩ := Bool.and_eq_true_iff.mp hc
      obtain ⟨hleft, hright⟩ := Bool.and_eq_true_iff.mp hc
      cases hplain : op.isPlain with
      | true =>
        have hv := h
        rw [eval_binary ops hplain] at hv
        obtain ⟨a, ha, hv⟩ := bind_eq_some_iff.mp hv
        obtain ⟨b, hb, hv⟩ := bind_eq_some_iff.mp hv
        rw [parts_binary target ops hplain]
        refine settles_cons (settles_append
          (parts_settle left hleft ha) fun _ => parts_settle right hright hb)
          fun hps => ?_
        obtain ⟨hpa, hpb⟩ := forall_mem_append.mp hps
        rw [agrees_iff h]
        exact binary_agrees target ops hplain hfit (eval_has ops left hleft ha)
          (eval_has ops right hright hb) (run_of_parts ha hpa)
          (run_of_parts hb hpb) hv
      | false =>
        rcases notPlain_cases hplain with hop | hop
        · exact short_settles hop h (fun ha => parts_settle left hleft ha)
            fun hb => parts_settle right hright hb
        · subst hop
          obtain ⟨a, -, h⟩ := bind_eq_some_iff.mp h
          cases h
  | .array element node elements, v, hc, h => by
      obtain ⟨hc, -⟩ := Bool.and_eq_true_iff.mp hc
      obtain ⟨-, hall⟩ := Bool.and_eq_true_iff.mp hc
      obtain ⟨vs, hvs, hv⟩ := bind_eq_some_iff.mp h
      cases some.inj hv
      refine settles_form (partsAll_settle elements hall hvs) h fun hps => ?_
      rw [run, runAll_of_parts hvs hps]
      rfl
  | .arrayRepeat node length value, v, hc, h => by
      obtain ⟨-, hvalue⟩ := Bool.and_eq_true_iff.mp hc
      have hv := h
      rw [semaEvalConst] at hv
      split at hv
      · cases hv
      obtain ⟨a, ha, hv⟩ := bind_eq_some_iff.mp hv
      cases some.inj hv
      refine settles_form (parts_settle value hvalue ha) h fun hps => ?_
      rw [run, run_of_parts ha hps]
      show some (RunValue.array node (List.replicate length a.read)) =
        some (RunValue.array node (Value.readAll (List.replicate length a)))
      rw [readAll_eq_map, map_replicate]
  | .struct id fields node values, v, hc, h => by
      obtain ⟨hall, -⟩ := Bool.and_eq_true_iff.mp hc
      obtain ⟨vs, hvs, hv⟩ := bind_eq_some_iff.mp h
      cases some.inj hv
      refine settles_form (partsAll_settle values hall hvs) h fun hps => ?_
      rw [run, runAll_of_parts hvs hps]
      rfl
  | .field base i, v, hc, h => by
      obtain ⟨hbase, -⟩ := Bool.and_eq_true_iff.mp hc
      obtain ⟨a, ha, hv⟩ := bind_eq_some_iff.mp h
      refine settles_form (parts_settle base hbase ha) h fun hps => ?_
      rw [run, run_of_parts ha hps]
      exact field_runs hv
  | .len base, v, hc, h => by
      obtain ⟨hbase, -⟩ := Bool.and_eq_true_iff.mp hc
      have hv := h
      rw [eval_len] at hv
      obtain ⟨a, ha, hv⟩ := bind_eq_some_iff.mp hv
      refine settles_form (parts_settle base hbase ha) h fun hps => ?_
      rw [run, run_of_parts ha hps]
      exact (len_has hv (eval_has ops base hbase ha)).2
  | .index base index, v, hc, h => by
      obtain ⟨hc, hkind⟩ := Bool.and_eq_true_iff.mp hc
      obtain ⟨hbase, hindex⟩ := Bool.and_eq_true_iff.mp hc
      obtain ⟨a, ha, hv⟩ := bind_eq_some_iff.mp h
      obtain ⟨b, hb, hv⟩ := bind_eq_some_iff.mp hv
      refine settles_form (settles_append
          (parts_settle base hbase ha) fun _ => parts_settle index hindex hb) h fun hps => ?_
      obtain ⟨hpa, hpb⟩ := forall_mem_append.mp hps
      rw [run, run_of_parts ha hpa, run_of_parts hb hpb]
      exact element_runs hkind (eval_has ops base hbase ha) (eval_has ops index hindex hb) hv
  | .inRange value low high, v, hc, h =>
      inRange_settles hc h (fun hvalue ha => parts_settle value hvalue ha)
        (fun hlow hb => parts_settle low hlow hb) fun hhigh hc => parts_settle high hhigh hc
  | .other t, v, _, h => by cases h

theorem partsAll_settle : ∀ (es : List (Expr F)) {vs : List (Value F)},
    checkedAll es = true → semaEvalConsts ops es = some vs →
    Settles target ops (partsAll target ops es)
  | [], vs, _, _ => settles_nil
  | e :: es, vs, hc, h => by
      obtain ⟨hhead, htail⟩ := Bool.and_eq_true_iff.mp hc
      obtain ⟨v, hv, h⟩ := bind_eq_some_iff.mp h
      obtain ⟨ws, hws, h⟩ := bind_eq_some_iff.mp h
      exact settles_append (parts_settle e hhead hv) fun _ =>
        partsAll_settle es htail hws

end

/-! ## The constant and the program -/

variable {e : Expr F} {v : Value F}

/-- Floats of whole numbers, each operation exact. -/
def wholeFloats : FloatOps Int where
  trunc x := some x
  ofInt _ z := z
  toSingle x := x
  toHalf x := x
  neg x := -x
  arith op x y :=
    match op with
    | .add => x + y
    | .sub => x - y
    | .mul => x * y
    | .div => x.tdiv y
  less x y := x < y
  isNan _ := false

end AnticConst
