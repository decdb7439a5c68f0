import Antic.ConstProofs

/-! # One value on every target

    The induction over an expression, on the facts about one operation. -/

namespace AnticConst

open AnticIr MachineInt

variable {F : Type} (target : Target) (ops : FloatOps F)

/-! ## The forms of an expression -/

/-- The operators that evaluate both operands. -/
def BinaryOp.isPlain : BinaryOp → Bool
  | .andAnd | .orOr | .questionQuestion => false
  | _ => true

section Forms

variable {op : BinaryOp} {flags : Bool} {left right : Expr F}

theorem eval_binary (hop : op.isPlain = true) :
    semaEvalConst ops (.binary op flags left right) = (do
      let a ← semaEvalConst ops left
      let b ← semaEvalConst ops right
      constBinary ops op left.type flags a b) := by
  cases op <;> first | rfl | cases hop

theorem run_binary (hop : op.isPlain = true) : run target ops (.binary op flags left right) = (do
      let a ← run target ops left
      let b ← run target ops right
      runBinary target ops op left.type flags a b) := by
  cases op <;> first | rfl | cases hop

theorem parts_binary (hop : op.isPlain = true) : parts target ops (.binary op flags left right) =
      .binary op flags left right :: (parts target ops left ++ parts target ops right) := by
  cases op <;> first | rfl | cases hop

end Forms

section UnaryForms

variable {op : UnaryOp} {flags : Bool} {operand : Expr F}

/-- Whether the operand and the `-` before it are one literal. -/
def joins (op : UnaryOp) (operand : Expr F) : Bool := op = .minus && operand.isLiteral

theorem joins_cases (h : joins op operand = true) :
    op = .minus ∧ ∃ t n, operand = .int t n := by
  obtain ⟨hop, hlit⟩ := Bool.and_eq_true_iff.mp h
  refine ⟨of_decide_eq_true hop, ?_⟩
  cases operand with
  | int t n => exact ⟨t, n, rfl⟩
  | float | char | bool | none | string | name | enumValue | cast | unary | binary
  | array | arrayRepeat | struct | field | len | index | inRange | other => cases hlit

theorem run_unary (h : joins op operand = false) : run target ops (.unary op flags operand) = (do
      let a ← run target ops operand
      runUnary target ops op operand.type flags a) := by
  cases op <;> cases operand <;> first | rfl | cases h

theorem parts_unary (h : joins op operand = false) : parts target ops (.unary op flags operand) =
      .unary op flags operand :: parts target ops operand := by
  cases op <;> cases operand <;> first | rfl | cases h

theorem checked_unary (h : joins op operand = false) : checked (.unary op flags operand) =
      (checked operand && unaryFit op operand.type) := by
  cases op <;> cases operand <;> first | rfl | cases h

end UnaryForms

theorem eval_len (base : Expr F) : semaEvalConst ops (.len base) = (do
      let a ← semaEvalConst ops base
      match base.type, a with
      | .str, .text bytes => some (.int (.int .i64) bytes.length)
      | .array _ length, _ => some (.int (.int .i64) length)
      | _, _ => none) := by
  cases base <;> rfl

/-! ## The operands that the checker takes -/

section Operands

variable {op : BinaryOp} {left right : Expr F}

theorem operandsFit_comparison (hop : op.isComparison = true)
    (h : operandsFit op left right = true) :
    right.type = left.type ∧ comparesFit op left.type = true := by
  cases op with
  | eq | ne => exact ⟨(of_decide_eq_true h).1.symm, rfl⟩
  | lt | le | gt | ge =>
    obtain ⟨htype, hfit⟩ := Bool.and_eq_true_iff.mp h
    exact ⟨(of_decide_eq_true htype).symm, hfit⟩
  | plus | plusWrap | plusSat | minus | minusWrap | minusSat | star | starWrap
  | starSat | mulHigh | slash | percent | amp | pipe | caret | shl | shlWrap
  | shr | andAnd | orOr | questionQuestion => cases hop

/-- The types of the operands of an arithmetic operator; a carry is a `bool`. -/
def ArithTypes (left right : Ty) : Prop :=
  (∃ t, left = .int t ∧ (right = .int t ∨ right = .bool)) ∨ ∃ f, left = .float f ∧ right = .float f

theorem arithTypes_numeric (htype : left.type = right.type)
    (hnumeric : left.type.isNumeric = true) : ArithTypes left.type right.type := by
  rw [← htype]
  cases ht : left.type with
  | int t => exact Or.inl ⟨t, rfl, Or.inl rfl⟩
  | float f => exact Or.inr ⟨f, rfl, rfl⟩
  | bool | char | str | pointer | enum | array | struct =>
    rw [ht] at hnumeric
    cases hnumeric

theorem arithTypes_carry (h : operandsFit .plus left right = true) :
    ArithTypes left.type right.type := by
  rcases Bool.or_eq_true_iff.mp h with h | h
  · obtain ⟨htype, hnumeric⟩ := Bool.and_eq_true_iff.mp h
    exact arithTypes_numeric (of_decide_eq_true htype) hnumeric
  · cases ht : left.type with
    | int t =>
      rw [ht] at h
      cases right with
      | field base i => exact Or.inl ⟨t, rfl, Or.inr (of_decide_eq_true h)⟩
      | int | float | char | bool | none | string | name | enumValue | cast | unary
      | binary | array | arrayRepeat | struct | len | index | inRange | other => cases h
    | bool | char | float | str | pointer | enum | array | struct =>
      rw [ht] at h
      cases h

theorem arithTypes_integer (h : operandsFit .amp left right = true) :
    ∃ t, left.type = .int t ∧ right.type = .int t := by
  simp only [operandsFit] at h
  cases ht : left.type with
  | int t =>
    rw [ht] at h
    exact ⟨t, rfl, of_decide_eq_true h⟩
  | bool | char | float | str | pointer | enum | array | struct =>
    rw [ht] at h
    cases h

theorem operandsFit_arith (hop : op.isPlain = true) (hcompare : op.isComparison = false)
    (h : operandsFit op left right = true) : ArithTypes left.type right.type := by
  cases op with
  | plus | minus => exact arithTypes_carry h
  | star | slash =>
    obtain ⟨htype, hnumeric⟩ := Bool.and_eq_true_iff.mp h
    exact arithTypes_numeric (of_decide_eq_true htype) hnumeric
  | plusWrap | plusSat | minusWrap | minusSat | starWrap | starSat | mulHigh
  | percent | amp | pipe | caret | shl | shlWrap | shr =>
    obtain ⟨t, hl, hr⟩ := arithTypes_integer h
    exact Or.inl ⟨t, hl, Or.inl hr⟩
  | eq | ne | lt | le | gt | ge => cases hcompare
  | andAnd | orOr | questionQuestion => cases hop

end Operands

/-! ## One operation on values that agree -/

/-- The two operations that the evaluation computes another way than the
    program: the `-|` of `c_wchar` below zero and the comparison of places. -/
def Splits (e : Expr F) : Prop := borrows target ops e = true ∨ comparesPlaces target ops e = true

section Binary

variable {op : BinaryOp} {flags : Bool} {left right : Expr F} {a b v : Value F}

theorem operand_number {t : IntType} (hb : b.Has (.int t) ∨ b.Has .bool) :
    ∃ y, Stands t b.integer y ∧ b.read.number? = some y := by
  rcases hb with hb | hb
  · obtain ⟨m, y, rfl, hy⟩ := has_int hb
    exact ⟨y, hy, congrArg some hy.number⟩
  · obtain ⟨c, rfl⟩ := has_bool hb
    refine ⟨c.toNat, stands_nat ?_, rfl⟩
    have hle : c.toNat ≤ 1 := Bool.toNat_le c
    have hmax : 1 ≤ maxOf t := by cases t <;> decide
    exact hle.trans hmax

theorem constBinary_comparison {t : Ty} (hcompare : op.isComparison = true)
    (hv : constBinary ops op t flags a b = some v) :
    v = .bool (constCompare ops op t.isSigned a b) := by
  unfold constBinary at hv
  split at hv
  · cases hv
  split at hv
  · cases hv
  exact (Option.some.inj hv).symm

theorem constBinary_float {f : FloatType} {x y : F} (hcompare : op.isComparison = false)
    (hv : constBinary ops op (.float f) flags (.float x) (.float y) = some v) :
    v = .float (if f = .f32 then ops.toSingle (ops.arith op.float x y)
      else ops.arith op.float x y) := by
  unfold constBinary at hv
  rw [hcompare] at hv
  split at hv
  · cases hv
  split at hv
  · cases hv
  exact (Option.some.inj hv).symm

theorem givesBool_plain (hplain : op.isPlain = true) :
    op.givesBool = op.isComparison := by
  cases op <;> first | rfl | cases hplain

theorem comparesPlaces_other (hcompare : op.isComparison = false) :
    comparesPlaces target ops (.binary op flags left right) = false := by
  rw [comparesPlaces, hcompare]
  split <;> rfl

/-- The comparison of two constants agrees just where it reads no place that tells otherwise. -/
theorem comparison_agrees (hcompare : op.isComparison = true)
    (hfit : operandsFit op left right = true) (ha : a.Has left.type)
    (hb : b.Has right.type) (hleft : run target ops left = some a.read)
    (hright : run target ops right = some b.read)
    (hv : constBinary ops op left.type flags a b = some v) :
    run target ops (.binary op flags left right) = some v.read ↔
      ¬ Splits target ops (.binary op flags left right) := by
  have hplain : op.isPlain = true := by cases op <;> first | rfl | cases hcompare
  obtain ⟨htype, hfits⟩ := operandsFit_comparison hcompare hfit
  rw [htype] at hb
  cases constBinary_comparison ops hcompare hv
  have hborrows : borrows target ops (.binary op flags left right) = false := by
    cases op <;> first | rfl | cases hcompare
  have hrun : run target ops (.binary op flags left right) =
      (runCompare ops op a.read b.read).map .bool := by
    rw [run_binary target ops hplain, hleft, hright]
    exact if_pos hcompare
  rw [hrun]
  show _ = some (RunValue.bool _) ↔ _
  unfold Splits
  rw [hborrows]
  have hplaces : comparesPlaces target ops (.binary op flags left right) =
      placesMislead ops a.read b.read := by
    simp only [comparesPlaces, hleft, hright, hcompare, Bool.true_and]
  rw [hplaces]
  unfold placesMislead
  cases hi : a.read.node? with
  | none =>
    have hagrees := constCompare_runs ops ha hb hfits (fun i j h => by rw [hi] at h; cases h)
    simp [hagrees]
  | some i =>
    cases hj : b.read.node? with
    | none =>
      have hagrees := constCompare_runs ops ha hb hfits (fun i j _ h => by rw [hj] at h; cases h)
      simp [hagrees]
    | some j =>
      by_cases hplace : decide (i = j) = a.read.equal ops b.read
      · have hagrees := constCompare_runs ops ha hb hfits fun i' j' hi' hj' => by
          rw [hi] at hi'
          rw [hj] at hj'
          cases hi'
          cases hj'
          exact hplace
        simp [hagrees, hplace]
      · have hdiffers := constCompare_differs ops hfits ha hi hj hplace
        simp [hdiffers, hplace]

/-- The integer operation of two constants agrees just where it is no `-|` of
    `c_wchar` below zero. -/
theorem number_agrees {t : IntType} (hplain : op.isPlain = true)
    (hcompare : op.isComparison = false) (ht : left.type = .int t)
    (hwchar : op = .minusSat → right.type = .int t)
    (ha : a.Has (.int t)) (hb : b.Has right.type)
    (htypes : right.type = .int t ∨ right.type = .bool)
    (hleft : run target ops left = some a.read)
    (hright : run target ops right = some b.read)
    (hv : constBinary ops op left.type flags a b = some v) :
    run target ops (.binary op flags left right) = some v.read ↔
      ¬ Splits target ops (.binary op flags left right) := by
  have hgives : op.givesBool = false := (givesBool_plain hplain).trans hcompare
  have hvalue : op ≠ .questionQuestion := by
    rintro rfl
    cases hplain
  obtain ⟨n, x, rfl, hx⟩ := has_int ha
  have hb' : b.Has (.int t) ∨ b.Has .bool := by
    rcases htypes with h | h
    · exact Or.inl (h ▸ hb)
    · exact Or.inr (h ▸ hb)
  obtain ⟨y, hy, hnumber⟩ := operand_number hb'
  have hreadx : (Value.int (.int t) n : Value F).read = .int x := congrArg RunValue.int hx.number
  rw [ht] at hv
  obtain ⟨z, -, hread, hnarrow, hrun⟩ := constBinary_number ops hgives hvalue hx hy hv
  have hrunbinary : run target ops (.binary op flags left right) =
      (runInteger (t.on target) op flags x y).map .int := by
    rw [run_binary target ops hplain, hleft, hright, ht, hreadx]
    show runBinary target ops op (.int t) flags (.int x) b.read = _
    unfold runBinary
    rw [hcompare, if_neg (by simp)]
    show (b.read.number?).bind _ = _
    rw [hnumber]
    rfl
  have hplaces : comparesPlaces target ops (.binary op flags left right) = false :=
    comparesPlaces_other target ops hcompare
  have hborrows : borrows target ops (.binary op flags left right) =
      decide (op = .minusSat ∧ t = .cwchar ∧ target.wcharSigned = true ∧ x < y) := by
    by_cases hop : op = .minusSat
    · subst hop
      obtain ⟨m, y', rfl, hy'⟩ := has_int (hwchar rfl ▸ hb)
      have hready : (Value.int (.int t) m : Value F).read = .int y' :=
        congrArg RunValue.int hy'.number
      rw [hready] at hnumber hright
      cases Option.some.inj hnumber
      rw [hreadx] at hleft
      simp only [borrows, ht, hleft, hright]
      cases t <;> simp
    · have hfalse : borrows target ops (.binary op flags left right) = false := by
        cases op <;> first | rfl | exact absurd rfl hop
      simp [hfalse, hop]
  rw [hrunbinary, hread]
  unfold Splits
  rw [hplaces, hborrows]
  by_cases hborrow : op = .minusSat ∧ t = .cwchar ∧ target.wcharSigned = true ∧ x < y
  · -- The constant stops at zero, and the program goes below it.
    have hz : ¬ x - y = z := by
      obtain ⟨rfl, rfl, -, hlt⟩ := hborrow
      have hz0 : 0 ≤ z := hnarrow.1
      omega
    have hdiff : runInteger (t.on target) op flags x y = some (x - y) := by
      obtain ⟨rfl, rfl, hsigned, hlt⟩ := hborrow
      exact minusSat_negative hsigned hx.2 hy.2 hlt
    rw [hdiff, decide_eq_true hborrow]
    simp [hz]
  · simp [hrun target hborrow, hborrow]

/-- The float operation of two constants is that of the program. -/
theorem float_agrees {f : FloatType} (hplain : op.isPlain = true)
    (hcompare : op.isComparison = false) (ht : left.type = .float f)
    (ha : a.Has (.float f)) (hb : b.Has (.float f))
    (hleft : run target ops left = some a.read)
    (hright : run target ops right = some b.read)
    (hv : constBinary ops op left.type flags a b = some v) :
    run target ops (.binary op flags left right) = some v.read ∧
      ¬ Splits target ops (.binary op flags left right) := by
  obtain ⟨x, rfl⟩ := has_float ha
  obtain ⟨y, rfl⟩ := has_float hb
  have hrun : run target ops (.binary op flags left right) =
      runBinary target ops op (.float f) flags (.float x) (.float y) := by
    rw [run_binary target ops hplain, hleft, hright, ht]
    rfl
  rw [ht] at hv
  cases constBinary_float ops hcompare hv
  constructor
  · rw [hrun]
    unfold runBinary
    rw [hcompare]
    rfl
  · rintro (h | h)
    · revert h
      cases op <;> simp [borrows, ht]
    · rw [comparesPlaces_other target ops hcompare] at h
      cases h

/-- A binary operation on operands that agree agrees just where it does not split. -/
theorem binary_agrees (hplain : op.isPlain = true)
    (hfit : operandsFit op left right = true) (ha : a.Has left.type)
    (hb : b.Has right.type) (hleft : run target ops left = some a.read)
    (hright : run target ops right = some b.read)
    (hv : constBinary ops op left.type flags a b = some v) :
    run target ops (.binary op flags left right) = some v.read ↔
      ¬ Splits target ops (.binary op flags left right) := by
  cases hcompare : op.isComparison with
  | true => exact comparison_agrees target ops hcompare hfit ha hb hleft hright hv
  | false =>
    rcases operandsFit_arith hplain hcompare hfit with ⟨t, ht, htypes⟩ | ⟨f, ht, hr⟩
    · have hwchar (hop : op = .minusSat) : right.type = .int t := by
        subst hop
        obtain ⟨t', hl, hr⟩ := arithTypes_integer hfit
        rw [ht] at hl
        cases hl
        exact hr
      exact number_agrees target ops hplain hcompare ht hwchar (ht ▸ ha) hb htypes hleft hright hv
    · have h := float_agrees target ops hplain hcompare ht (ht ▸ ha) (hr ▸ hb) hleft hright hv
      exact iff_of_true h.1 h.2

omit target in
/-- The constant of a binary operation has the type of the operation. -/
theorem binary_has (hplain : op.isPlain = true)
    (hfit : operandsFit op left right = true) (ha : a.Has left.type)
    (hb : b.Has right.type)
    (hv : constBinary ops op left.type flags a b = some v) :
    v.Has (Expr.binary op flags left right).type := by
  show v.Has (if op.givesBool then .bool else left.type)
  rw [givesBool_plain hplain]
  cases hcompare : op.isComparison with
  | true =>
    cases constBinary_comparison ops hcompare hv
    rfl
  | false =>
    rw [if_neg Bool.false_ne_true]
    rcases operandsFit_arith hplain hcompare hfit with ⟨t, ht, htypes⟩ | ⟨f, ht, hr⟩
    · rw [ht] at ha hv ⊢
      obtain ⟨n, x, rfl, hx⟩ := has_int ha
      have hb' : b.Has (.int t) ∨ b.Has .bool := by
        rcases htypes with h | h
        · exact Or.inl (h ▸ hb)
        · exact Or.inr (h ▸ hb)
      obtain ⟨y, hy, -⟩ := operand_number hb'
      have hgives : op.givesBool = false := (givesBool_plain hplain).trans hcompare
      have hvalue : op ≠ .questionQuestion := by
        rintro rfl
        cases hplain
      obtain ⟨z, hhas, -⟩ := constBinary_number ops hgives hvalue hx hy hv
      exact hhas
    · rw [ht] at ha hv ⊢
      rw [hr] at hb
      obtain ⟨x, rfl⟩ := has_float ha
      obtain ⟨y, rfl⟩ := has_float hb
      cases constBinary_float ops hcompare hv
      exact ⟨f, rfl⟩

end Binary

end AnticConst
