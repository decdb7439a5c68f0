import Antic.RangeRuns

/-! # What each piece of a range loop does, and what a run of them does

    The pieces run from machines whose temporaries hold the bits of the bounds (`BoundsHeld`):
    `enter_exec` compares the bounds, `first_exec` finds the last value, `step_exec` tests
    whether there is a next value, and `advance_exec` moves to it, with every mark kept.
    From these, `inLoop_state` is the invariant of a run and `loop_ends` its end. -/

namespace AnticIr

open MachineInt List

section Exec

variable {fl : Floats} {env : Env}

-- ── One instruction ────

theorem not_terminator_of_computed {op : IrOp} (h : isComputed op = true) :
    isTerminator op = false := by
  cases op <;> first | rfl | cases h

/-- **The rule of one instruction.**  An instruction that is computed writes its value and
    nothing else, and what follows runs from there. -/
theorem exec_next {op : IrOp} {type : IrType} {t field : Nat} {x y : IrOperand}
    {rest : List IrInst} {m : Machine} {v b : Nat} {Q : Machine → Prop}
    (hop : isComputed op = true) (ht : t ≠ irNoResult)
    (hv : compute fl op type (operandType { op, type, a := x }) (operandValue fl env m x)
      (operandValue fl env m y) = some v)
    (hrest : ∀ m₁ : Machine, m₁.regs t = trimTo fl type v → (∀ u, u ≠ t → m₁.regs u = m.regs u) →
      ∃ m', execBlock fl env rest m₁ = .goto b m' ∧ Q m') :
    ∃ m', execBlock fl env ({ op, type, result := t, a := x, b := y, field } :: rest) m =
      .goto b m' ∧ Q m' := by
  have hm : execInst fl env { op, type, result := t, a := x, b := y, field } m =
      some (({ m with trace := m.trace }).write t (trimTo fl type v)) := by
    have hv' : compute fl op type
        (operandType { op, type, result := t, a := x, b := y, field })
        (operandValue fl env m x) (operandValue fl env m y) = some v := hv
    simp [execInst, execValue, hop, instValue, hv']
  rw [execBlock_cons (not_terminator_of_computed hop) hm]
  refine hrest _ ?_ ?_
  · simp [Machine.write_regs, ht]
  · intro u hu
    simp [Machine.write_regs, hu]

@[simp] theorem operandValue_temp (m : Machine) (type : IrType) (t : Nat) :
    operandValue fl env m ⟨.temp, type, t⟩ = m.regs t := rfl

theorem trimTo_fixed {type : IrType} (h : isFixedInt type = true) (v : Nat) :
    trimTo fl type v = v % 2 ^ irFoldBits type := by
  cases type <;> first | rfl | cases h

theorem operandValue_fixed {type : IrType} (h : isFixedInt type = true) (m : Machine) (v : Nat) :
    operandValue fl env m (irIntOp type v) = v % 2 ^ irFoldBits type := by
  show trimTo fl type (irFoldTrim type v) = _
  rw [trimTo_fixed h]
  exact Nat.mod_mod _ _

theorem execBlock_branch (m : Machine) (c : IrOperand) (b b' : Nat) :
    execBlock fl env [{ op := .branch, type := .void, a := c, b := irBlockOp b,
                        c := irBlockOp b' }] m =
      .goto (if operandValue fl env m c ≠ 0 then b else b') m := rfl

-- ── The pieces ────

/-- The range of a loop: the sign of its type, its bounds and its step. -/
structure Bounds where
  isUnsigned : Bool
  n : Nat
  rl : Nat
  rh : Nat
  k : Nat
  one_le : 1 ≤ n
  rl_lt : rl < 2 ^ n
  rh_lt : rh < 2 ^ n
  k_pos : 0 < k
  k_lt : k < 2 ^ n

namespace Bounds

variable (r : Bounds)

def lo : Int := reading r.isUnsigned r.n r.rl
def hi : Int := reading r.isUnsigned r.n r.rh

/-- The number of values. -/
def count : Nat := rangeCount r.lo r.hi r.k

/-- The value of turn `j`. -/
def value (down : Bool) (j : Nat) : Int := walkValue down r.lo r.hi r.k j

/-- The bits of the values, in the order of the walk. -/
def values (down : Bool) : List Nat := (walkValues down r.lo r.hi r.k).map (bits r.n)

theorem bits_lo : bits r.n r.lo = r.rl := bits_reading _ r.rl_lt

theorem bits_hi : bits r.n r.hi = r.rh := bits_reading _ r.rh_lt

theorem bits_k : bits r.n (r.k : Int) = r.k := by
  exact Nat.mod_eq_of_lt r.k_lt

theorem span_lt : r.hi - r.lo < 2 ^ r.n := reading_sub_lt r.one_le _ r.rh_lt

variable {down : Bool}

theorem values_take_succ {j : Nat} (hj : j < r.count) :
    (r.values down).take (j + 1) = (r.values down).take j ++ [bits r.n (r.value down j)] := by
  rw [values, ← map_take, walkValues_take_succ hj, map_append, map_take]
  rfl

theorem values_length (down : Bool) : (r.values down).length = r.count := by
  simp [values, count]

theorem values_take_count (down : Bool) : (r.values down).take r.count = r.values down :=
  take_of_length_le (r.values_length down).le

variable {r}

theorem value_mem {j : Nat} (hj : j < r.count) :
    r.lo ≤ r.value down j ∧ r.value down j < r.hi :=
  walkValue_mem r.k_pos hj

theorem value_succ {j : Nat} (hj : j + 1 < r.count) :
    r.value down (j + 1) = if down then r.value down j - r.k else r.value down j + r.k :=
  walkValue_succ hj

/-- What is left of the range upwards, and what is passed of it downwards. -/
def distance (r : Bounds) (down : Bool) (j : Nat) : Int :=
  if down then r.value down j - r.lo else r.hi - r.value down j

theorem distance_range {j : Nat} (hj : j < r.count) :
    0 ≤ r.distance down j ∧ r.distance down j < 2 ^ r.n := by
  have hin : r.lo ≤ r.value down j ∧ r.value down j < r.hi := value_mem hj
  have hspan := r.span_lt
  cases down with
  | true =>
    simp only [distance]
    omega
  | false =>
    simp only [distance]
    omega

theorem next_iff {j : Nat} (hj : j < r.count) : j + 1 < r.count ↔
      if down then (r.k : Int) ≤ r.distance down j else (r.k : Int) < r.distance down j := by
  have h : j + 1 < r.count ↔ if down then (r.k : Int) ≤ r.value down j - r.lo
      else (r.k : Int) < r.hi - r.value down j := next_value_iff r.k_pos hj
  cases down with
  | true => exact h
  | false => exact h

theorem signed_bounds (h : r.isUnsigned = false) :
    -2 ^ (r.n - 1) ≤ r.lo ∧ r.hi < 2 ^ (r.n - 1) := by
  have h1 := reading_range r.one_le r.isUnsigned r.rl_lt
  have h2 := reading_range r.one_le r.isUnsigned r.rh_lt
  rw [h] at h1 h2
  rw [lo, hi, h]
  exact ⟨h1.1, h2.2⟩

theorem hi_lt (r : Bounds) : r.hi < 2 ^ r.n := by
  have h := reading_range r.one_le r.isUnsigned r.rh_lt
  have hpow : (2 : Int) ^ (r.n - 1) ≤ 2 ^ r.n := pow_le_pow_right₀ (by norm_num) (Nat.sub_le _ _)
  split at h
  · exact h.2
  · exact h.2.trans_le hpow

end Bounds

/-- A machine holds the bounds of a range in the temporaries of a loop. -/
structure BoundsHeld (w : ForWalk) (r : Bounds) (m : Machine) : Prop where
  low : m.regs w.low.val = r.rl
  high : m.regs w.high.val = r.rh

/-- The loop is one over this range. -/
structure WalkOf (w : ForWalk) (r : Bounds) : Prop where
  fixed : isFixedInt w.counterType = true
  width : irFoldBits w.counterType = r.n
  isUnsigned : w.unsignedRange = r.isUnsigned
  k : w.k = r.k
  down : w.down = true → r.isUnsigned = false
  /-- `IR_NSW` is a mark of a signed range whose step reads as it is. -/
  nsw : w.wrap &&& irNsw ≠ 0 → r.isUnsigned = false ∧ r.k < 2 ^ (r.n - 1)
  /-- `IR_NUW` is a mark of a range without values below zero. -/
  nuw : w.wrap &&& irNuw ≠ 0 → 0 ≤ r.lo

theorem BoundsHeld.low_bits {w : ForWalk} {r : Bounds} {m : Machine} (h : BoundsHeld w r m) :
    m.regs w.low.val = bits r.n r.lo := by rw [h.low, r.bits_lo]

theorem BoundsHeld.high_bits {w : ForWalk} {r : Bounds} {m : Machine} (h : BoundsHeld w r m) :
    m.regs w.high.val = bits r.n r.hi := by rw [h.high, r.bits_hi]

theorem WalkOf.trim_bits {w : ForWalk} {r : Bounds} (h : WalkOf w r) (z : Int) :
    trimTo fl w.counterType (bits r.n z) = bits r.n z := by
  rw [trimTo_fixed h.fixed, h.width]
  exact Nat.mod_eq_of_lt (bits_lt _ _)

theorem WalkOf.operand_int {w : ForWalk} {r : Bounds} (h : WalkOf w r) (v : Nat) (m : Machine) :
    operandValue fl env m (irIntOp w.counterType v) = bits r.n (v : Int) := by
  rw [operandValue_fixed h.fixed, h.width, bits_natCast]

-- ── Operations on bits ────

section Operations

variable {type : IrType} {n : Nat}

theorem compute_sub (fl : Floats) (hn : irFoldBits type = n) (x y : Int) :
    compute fl .sub type type (bits n x) (bits n y) = some (bits n (x - y)) := by
  subst hn
  exact congrArg some (bits_sub_bits _ x y)

theorem compute_add (fl : Floats) (hn : irFoldBits type = n) (x y : Int) :
    compute fl .add type type (bits n x) (bits n y) = some (bits n (x + y)) := by
  subst hn
  exact congrArg some (bits_add_bits _ x y)

theorem compute_mul (fl : Floats) (hn : irFoldBits type = n) (x y : Int) :
    compute fl .mul type type (bits n x) (bits n y) = some (bits n (x * y)) := by
  subst hn
  exact congrArg some (bits_mul_bits _ x y)

theorem compute_udiv (fl : Floats) (hn : irFoldBits type = n) {z : Int} {k : Nat} (h0 : 0 ≤ z)
    (hz : z < 2 ^ n) (hpos : 0 < k) (hk : k < 2 ^ n) :
    compute fl .udiv type type (bits n z) (bits n k) = some (bits n (z / k)) := by
  subst hn
  have hbk : bits (irFoldBits type) (k : Int) ≠ 0 := by
    rw [bits_natCast, Nat.mod_eq_of_lt hk]
    exact hpos.ne'
  show (if bits (irFoldBits type) (k : Int) = 0 then none else some _) = _
  rw [if_neg hbk, bits_div_bits h0 hz hk]

end Operations

theorem boolBit_trim_i8 (p : Prop) [Decidable p] : trimTo fl .i8 (boolBit p) = boolBit p := by
  exact boolBit_mod p .i8

theorem boolBit_ne_zero (p : Prop) [Decidable p] : boolBit p ≠ 0 ↔ p := by
  unfold boolBit
  split <;> simp_all

theorem boolBit_congr {p q : Prop} [Decidable p] [Decidable q] (h : p ↔ q) :
    boolBit p = boolBit q := by
  by_cases hp : p
  · simp [hp, h.mp hp]
  · simp [hp, mt h.mpr hp]

theorem compute_less (fl : Floats) (isUnsigned : Bool) {type : IrType} {x : IrOperand}
    (hx : x.type = type) (a b : Nat) :
    compute fl (if isUnsigned then .ult else .slt) .i8
        (operandType { op := if isUnsigned then .ult else .slt, type := .i8, a := x }) a b =
      some (boolBit (reading isUnsigned (irFoldBits type) a <
        reading isUnsigned (irFoldBits type) b)) := by
  subst hx
  cases isUnsigned with
  | false => rfl
  | true =>
    show some (boolBit (a < b)) = some (boolBit ((a : Int) < (b : Int)))
    rw [boolBit_congr Int.ofNat_lt]

theorem marksHold_plain {insts : List IrInst} (h : ∀ inst ∈ insts, inst.field = 0)
    (m : Machine) : MarksHold fl env insts m := by
  induction insts generalizing m with
  | nil => trivial
  | cons inst rest ih =>
    have h0 := h inst mem_cons_self
    refine ⟨⟨fun hne => ?_, fun hne => ?_⟩,
      fun m' _ => ih (fun i hi => h i (mem_cons_of_mem _ hi)) m'⟩
    · simp [h0] at hne
    · simp [h0] at hne

section Pieces

variable {code : List (List IrInst)} {w : ForWalk} {places : RangePlaces} {advance : Nat}
  {known reads inner : Nat → Prop} {r : Bounds}

variable (hc : RangeCode code w places advance known reads inner)
include hc

theorem RangeCode.temps :
    w.low.val ≠ irNoResult ∧ w.high.val ≠ irNoResult ∧ w.counter ≠ irNoResult ∧
      w.low.val ≠ w.high.val ∧ w.counter ≠ w.low.val ∧ w.counter ≠ w.high.val := by
  have h1 := hc.counter_eq
  have h2 := hc.low_lt
  have h3 := hc.bound
  omega

theorem RangeCode.low_type :
    w.low.type = w.counterType := congrArg IrOperand.type hc.low_eq

theorem RangeCode.low_value (fl : Floats) (env : Env) (m : Machine) :
    operandValue fl env m w.low = m.regs w.low.val := by
  conv_lhs => rw [hc.low_eq]
  rfl

theorem RangeCode.high_value (fl : Floats) (env : Env) (m : Machine) :
    operandValue fl env m w.high = m.regs w.high.val := by
  conv_lhs => rw [hc.high_eq]
  rfl

variable {m m' : Machine} {j : Nat}

/-- **Entering.**  The bounds are compared by the sign of the type. -/
theorem enter_exec (hw : WalkOf w r) (hlow : m.regs w.low.val = r.rl)
    (hhigh : operandValue fl env m places.highRead % 2 ^ r.n = r.rh) :
    ∃ m', execBlock fl env (restAt code places.enterAt) m =
        .goto (if r.lo < r.hi then places.first else w.exit) m' ∧
      BoundsHeld w r m' ∧ m'.regs w.counter = r.rl := by
  obtain ⟨-, hH, hC, hLH, hCL, hCH⟩ := hc.temps
  have hbound := hc.bound
  have hP : w.counter + 1 ≠ irNoResult := by omega
  have hPL : w.low.val ≠ w.counter + 1 := by have := hc.low_lt; have := hc.counter_eq; omega
  have hPH : w.high.val ≠ w.counter + 1 := by have := hc.counter_eq; omega
  rw [hc.enter, enterInsts]
  -- the copy of the high bound
  refine exec_next rfl hH rfl fun m₁ hv₁ hf₁ => ?_
  rw [trimTo_fixed hw.fixed, hw.width, hhigh] at hv₁
  -- the counter at the low bound
  refine exec_next rfl hC rfl fun m₂ hv₂ hf₂ => ?_
  rw [trimTo_fixed hw.fixed, hw.width, hc.low_value, hf₁ _ hLH, hlow,
    Nat.mod_eq_of_lt r.rl_lt] at hv₂
  have hl₂ : m₂.regs w.low.val = r.rl := by rw [hf₂ _ hCL.symm, hf₁ _ hLH, hlow]
  have hh₂ : m₂.regs w.high.val = r.rh := by rw [hf₂ _ hCH.symm, hv₁]
  -- the test of an empty range
  have hless := compute_less fl w.unsignedRange hc.low_type r.rl r.rh
  rw [← hl₂, ← hh₂, ← hc.low_value fl env, ← hc.high_value fl env] at hless
  refine exec_next ?_ hP hless fun m₃ hv₃ hf₃ => ?_
  · cases w.unsignedRange <;> rfl
  rw [boolBit_trim_i8, hc.low_value, hc.high_value, hl₂, hh₂, hw.width, hw.isUnsigned] at hv₃
  refine ⟨m₃, ?_, ⟨?_, ?_⟩, ?_⟩
  · rw [execBlock_branch, operandValue_temp, hv₃]
    simp only [boolBit_ne_zero]
    rfl
  · rw [hf₃ _ hPL, hl₂]
  · rw [hf₃ _ hPH, hh₂]
  · rw [hf₃ _ (Nat.succ_ne_self _).symm, hv₂]

theorem enter_goes {b : Nat} (h : execBlock fl env (restAt code places.enterAt) m = .goto b m') :
    b = places.first ∨ b = w.exit := by
  rw [hc.enter] at h
  have ha : ∀ inst ∈ enterInsts w places.highRead places.first,
      Apart (fun _ => False) (fun b => b = places.first ∨ b = w.exit) inst := by
    intro inst hinst
    refine ⟨.inr id, ?_⟩
    simp only [enterInsts, mem_cons, not_mem_nil, or_false] at hinst
    rcases hinst with rfl | rfl | rfl | rfl
    · simp [irTargets]
    · simp [irTargets]
    · cases w.unsignedRange <;> simp [irTargets]
    · simp [irTargets, irBlockOp]
  exact (execBlock_apart ha h).1

/-- **The last value.**  It is the first one of a walk downwards. -/
theorem first_exec (fl : Floats) (env : Env) (hw : WalkOf w r)
    (hdown : w.down = true) (hlt : r.lo < r.hi) (hm : BoundsHeld w r m) :
    ∃ m', execBlock fl env (restAt code (places.first, 0)) m = .goto w.body m' ∧
      BoundsHeld w r m' ∧ m'.regs w.counter = bits r.n (r.value true 0) := by
  have hceq := hc.counter_eq
  have hlow := hc.low_lt
  have hbound := hc.first_bound hdown
  have hspan := r.span_lt
  rw [hc.first hdown, firstInsts]
  -- high - low, and one less
  refine exec_next rfl (by omega) (by
    rw [hc.high_value, hc.low_value, hm.high_bits, hm.low_bits]
    exact compute_sub fl hw.width _ _) fun m₁ hv₁ hf₁ => ?_
  refine exec_next rfl (by omega) (by
    rw [operandValue_temp, hv₁, hw.operand_int, hw.trim_bits]
    exact compute_sub fl hw.width _ _) fun m₂ hv₂ hf₂ => ?_
  -- the number of steps, and how far they lead
  refine exec_next rfl (by omega) (by
    rw [operandValue_temp, hv₂, hw.k, hw.operand_int, hw.trim_bits]
    exact compute_udiv fl hw.width (by omega) (by push_cast; omega) r.k_pos r.k_lt)
    fun m₃ hv₃ hf₃ => ?_
  refine exec_next rfl (by omega) (by
    rw [operandValue_temp, hv₃, hw.k, hw.operand_int, hw.trim_bits]
    exact compute_mul fl hw.width _ _) fun m₄ hv₄ hf₄ => ?_
  -- the last value, into the counter
  have hl₄ : m₄.regs w.low.val = m.regs w.low.val := by
    rw [hf₄ _ (by omega), hf₃ _ (by omega), hf₂ _ (by omega), hf₁ _ (by omega)]
  have hh₄ : m₄.regs w.high.val = m.regs w.high.val := by
    rw [hf₄ _ (by omega), hf₃ _ (by omega), hf₂ _ (by omega), hf₁ _ (by omega)]
  refine exec_next rfl (by omega) (by
    rw [operandValue_temp, hv₄, hw.trim_bits, hc.low_value, hl₄, hm.low_bits]
    exact compute_add fl hw.width _ _) fun m₅ hv₅ hf₅ => ?_
  refine exec_next rfl (by omega) rfl fun m₆ hv₆ hf₆ => ?_
  rw [hw.trim_bits] at hv₅
  rw [operandValue_temp, hv₅, hw.trim_bits] at hv₆
  refine ⟨m₆, rfl, ⟨?_, ?_⟩, ?_⟩
  · rw [hf₆ _ (by omega), hf₅ _ (by omega), hl₄, hm.low]
  · rw [hf₆ _ (by omega), hf₅ _ (by omega), hh₄, hm.high]
  · rw [hv₆, Bounds.value, walkValue_zero r.k_pos hlt, if_pos rfl]
    rfl

omit hc in
theorem WalkOf.compute_next (hw : WalkOf w r) (hj : j + 1 < r.count)
    (hcounter : m.regs w.counter = bits r.n (r.value w.down j)) :
    compute fl (if w.down then .sub else .add) w.counterType
        (operandType { op := if w.down then .sub else .add, type := w.counterType,
                       a := ⟨.temp, w.counterType, w.counter⟩ })
        (operandValue fl env m ⟨.temp, w.counterType, w.counter⟩)
        (operandValue fl env m (irIntOp w.counterType w.k)) =
      some (bits r.n (r.value w.down (j + 1))) := by
  rw [operandValue_temp, hcounter, hw.operand_int, hw.k, Bounds.value_succ hj]
  cases w.down with
  | true => exact compute_sub fl hw.width _ _
  | false => exact compute_add fl hw.width _ _

theorem WalkOf.compute_distance (hw : WalkOf w r) (hm : BoundsHeld w r m)
    (hcounter : m.regs w.counter = bits r.n (r.value w.down j)) :
    compute fl .sub w.counterType w.counterType (operandValue fl env m
          (if w.down then ⟨.temp, w.counterType, w.counter⟩ else w.high))
        (operandValue fl env m (if w.down then w.low else ⟨.temp, w.counterType, w.counter⟩)) =
      some (bits r.n (r.distance w.down j)) := by
  cases hd : w.down with
  | true =>
    rw [hd] at hcounter
    simp only [if_true]
    rw [operandValue_temp, hcounter, hc.low_value, hm.low_bits]
    exact compute_sub fl hw.width _ _
  | false =>
    rw [hd] at hcounter
    simp only [Bool.false_eq_true, if_false]
    rw [operandValue_temp, hcounter, hc.high_value, hm.high_bits]
    exact compute_sub fl hw.width _ _

omit hc in
theorem WalkOf.compute_past (hw : WalkOf w r) (hj : j < r.count) {t : Nat}
    (ht : m.regs t = bits r.n (r.distance w.down j)) :
    compute fl (if w.down then .ult else .ule) .i8
        (operandType { op := if w.down then .ult else .ule, type := .i8,
                       a := ⟨.temp, w.counterType, t⟩ })
        (operandValue fl env m ⟨.temp, w.counterType, t⟩)
        (operandValue fl env m (irIntOp w.counterType w.k)) =
      some (boolBit (¬ j + 1 < r.count)) := by
  have hnext : _ ↔ if w.down then _ else _ := Bounds.next_iff hj
  obtain ⟨h0, hd⟩ : 0 ≤ r.distance w.down j ∧ _ := Bounds.distance_range hj
  have hcast := bits_cast_of_lt h0 hd
  rw [operandValue_temp, ht, hw.operand_int, hw.k, r.bits_k]
  cases hdown : w.down with
  | true =>
    rw [hdown] at hnext hcast
    refine congrArg some (boolBit_congr ?_)
    rw [hnext, if_pos rfl]
    omega
  | false =>
    rw [hdown] at hnext hcast
    refine congrArg some (boolBit_congr ?_)
    rw [hnext, if_neg (by decide)]
    omega

/-- **The step** goes on to the next value, or to the exit after the last one. -/
theorem step_exec (fl : Floats) (env : Env) (hw : WalkOf w r)
    (hj : j < r.count) (hm : BoundsHeld w r m)
    (hcounter : m.regs w.counter = bits r.n (r.value w.down j)) :
    ∃ m', execBlock fl env (restAt code (w.step, 0)) m =
        .goto (if j + 1 < r.count then advance else w.exit) m' ∧
      BoundsHeld w r m' ∧ m'.regs w.counter = bits r.n (r.value w.down j) := by
  obtain ⟨t, ht, hlast, hstep, -⟩ := hc.step
  have hceq := hc.counter_eq
  have hlow := hc.low_lt
  rw [hstep, stepInsts]
  -- the distance to the bound that ends the walk
  refine exec_next rfl (by omega) (hw.compute_distance hc hm hcounter) fun m₁ hv₁ hf₁ => ?_
  rw [hw.trim_bits] at hv₁
  -- whether the next value is past the end
  refine exec_next ?_ (by omega) (hw.compute_past hj hv₁) fun m₂ hv₂ hf₂ => ?_
  · cases w.down <;> rfl
  rw [boolBit_trim_i8] at hv₂
  refine ⟨m₂, ?_, ⟨?_, ?_⟩, ?_⟩
  · rw [execBlock_branch, operandValue_temp, hv₂]
    simp only [boolBit_ne_zero, ite_not]
  · rw [hf₂ _ (by omega), hf₁ _ (by omega), hm.low]
  · rw [hf₂ _ (by omega), hf₁ _ (by omega), hm.high]
  · rw [hf₂ _ (by omega), hf₁ _ (by omega), hcounter]

/-- **Moving the counter.**  It comes to the next value, and the marks of the move hold. -/
theorem advance_exec (fl : Floats) (env : Env) (hw : WalkOf w r)
    (hj : j + 1 < r.count) (hm : BoundsHeld w r m)
    (hcounter : m.regs w.counter = bits r.n (r.value w.down j)) :
    ∃ m', execBlock fl env (restAt code (advance, 0)) m = .goto w.body m' ∧
      BoundsHeld w r m' ∧ m'.regs w.counter = bits r.n (r.value w.down (j + 1)) := by
  obtain ⟨t, ht, hlast, -, hadvance⟩ := hc.step
  have hceq := hc.counter_eq
  have hlow := hc.low_lt
  rw [hadvance, advanceInsts]
  refine exec_next ?_ (by omega) (hw.compute_next hj hcounter) fun m₁ hv₁ hf₁ => ?_
  · cases w.down <;> rfl
  refine exec_next rfl (by omega) rfl fun m₂ hv₂ hf₂ => ?_
  rw [hw.trim_bits] at hv₁
  rw [operandValue_temp, hv₁, hw.trim_bits] at hv₂
  refine ⟨m₂, rfl, ⟨?_, ?_⟩, hv₂⟩
  · rw [hf₂ _ (by omega), hf₁ _ (by omega), hm.low]
  · rw [hf₂ _ (by omega), hf₁ _ (by omega), hm.high]

/-- **The marks of the move hold**: the next value lies in the range, so it lies in what
    the mark promises. -/
theorem advance_marks (hw : WalkOf w r) (hj : j + 1 < r.count)
    (hcounter : m.regs w.counter = bits r.n (r.value w.down j)) :
    MarksHold fl env (restAt code (advance, 0)) m := by
  obtain ⟨t, -, -, -, hadvance⟩ := hc.step
  obtain ⟨h1, h2⟩ : r.lo ≤ r.value w.down j ∧ r.value w.down j < r.hi :=
    Bounds.value_mem (Nat.lt_of_succ_lt hj)
  obtain ⟨h3, h4⟩ : r.lo ≤ r.value w.down (j + 1) ∧ r.value w.down (j + 1) < r.hi :=
    Bounds.value_mem hj
  have hsucc : r.value w.down (j + 1) = if w.down then _ else _ := Bounds.value_succ hj
  rw [hadvance, advanceInsts]
  refine ⟨⟨fun hnsw => ?_, fun hnuw => ?_⟩, fun m₁ _ => marksHold_plain ?_ m₁⟩
  · -- with a sign, the counter and the step read as they are
    obtain ⟨hsigned, hk⟩ := hw.nsw hnsw
    obtain ⟨hlo, hhi⟩ := Bounds.signed_bounds hsigned
    have hv : signed r.n (bits r.n (r.value w.down j)) = r.value w.down j :=
      signed_bits r.one_le ⟨by omega, by omega⟩
    have hk' : signed r.n r.k = r.k := signed_of_lt r.one_le hk
    simp only [operandValue_temp, hcounter, hw.operand_int, hw.k, r.bits_k, hw.width, hv]
    cases hd : w.down with
    | true =>
      rw [hd] at h3 h4 hsucc
      rw [if_pos rfl] at hsucc
      simp only [if_true]
      omega
    | false =>
      rw [hd] at h3 h4 hsucc
      rw [if_neg (by decide)] at hsucc
      simp only [Bool.false_eq_true, if_false]
      omega
  · -- without one, they are no less than zero
    have hlo := hw.nuw hnuw
    have hhi := r.hi_lt
    have hv : (bits r.n (r.value w.down j) : Int) = r.value w.down j :=
      bits_cast_of_lt (by omega) (by omega)
    simp only [operandValue_temp, hcounter, hw.operand_int, hw.k, r.bits_k, hw.width, hv]
    cases hd : w.down with
    | true =>
      rw [hd] at h3 h4 hsucc
      rw [if_pos rfl] at hsucc
      simp only [if_true]
      omega
    | false =>
      rw [hd] at h3 h4 hsucc
      rw [if_neg (by decide)] at hsucc
      simp only [Bool.false_eq_true, if_false]
      omega
  · simp

-- ── A run ────

/-- **The invariant of a run**: the block it is in, and the turns that have begun. -/
inductive LoopState (w : ForWalk) (places : RangePlaces) (advance : Nat) (inner : Nat → Prop)
    (r : Bounds) : List Nat → Nat → Machine → Prop
  | first {m : Machine} : w.down = true → r.lo < r.hi → BoundsHeld w r m →
      LoopState w places advance inner r [] places.first m
  | turn {j b : Nat} {m : Machine} : j < r.count → BoundsHeld w r m →
      m.regs w.counter = bits r.n (r.value w.down j) → b = w.body ∨ inner b →
      LoopState w places advance inner r ((r.values w.down).take (j + 1)) b m
  | step {j : Nat} {m : Machine} : j < r.count → BoundsHeld w r m →
      m.regs w.counter = bits r.n (r.value w.down j) →
      LoopState w places advance inner r ((r.values w.down).take (j + 1)) w.step m
  | advance {j : Nat} {m : Machine} : j + 1 < r.count → BoundsHeld w r m →
      m.regs w.counter = bits r.n (r.value w.down j) →
      LoopState w places advance inner r ((r.values w.down).take (j + 1)) advance m
  | exit {visits : List Nat} {m : Machine} : visits <+: r.values w.down →
      LoopState w places advance inner r visits w.exit m

omit hc in
theorem LoopState.visits {visits : List Nat} {b : Nat}
    (h : LoopState w places advance inner r visits b m) : visits <+: r.values w.down := by
  cases h with
  | first => exact nil_prefix
  | turn => exact take_prefix _ _
  | step => exact take_prefix _ _
  | advance => exact take_prefix _ _
  | exit h => exact h

omit hc in
theorem LoopState.arrive (hj : j < r.count) (hm : BoundsHeld w r m)
    (hcounter : m.regs w.counter = bits r.n (r.value w.down j)) :
    LoopState w places advance inner r (visit w w.body m ((r.values w.down).take j)) w.body m := by
  rw [visit, if_pos rfl, hcounter, ← r.values_take_succ hj]
  exact .turn hj hm hcounter (.inl rfl)

omit hc in
theorem visit_of_ne {b : Nat} (h : b ≠ w.body) (m : Machine) (visits : List Nat) :
    visit w b m visits = visits := if_neg h

theorem body_exec {b b' : Nat}
    (hb : b = w.body ∨ inner b) (h : execBlock fl env (restAt code (b, 0)) m = .goto b' m')
    (hm : BoundsHeld w r m) :
    (inner b' ∨ b' = w.step ∨ b' = w.exit ∨ known b') ∧ BoundsHeld w r m' ∧
      m'.regs w.counter = m.regs w.counter := by
  obtain ⟨hgoes, hregs⟩ := execBlock_apart (hc.body b hb) h
  refine ⟨hgoes, ⟨?_, ?_⟩, hregs _ (.inr (.inr rfl))⟩
  · rw [hregs _ (.inl rfl), hm.low]
  · rw [hregs _ (.inr (.inl rfl)), hm.high]

theorem LoopState.next (hw : WalkOf w r) {visits : List Nat} {b b' : Nat}
    (h : LoopState w places advance inner r visits b m) (hexit : b ≠ w.exit)
    (hrun : execBlock fl env (restAt code (b, 0)) m = .goto b' m') (hknown : ¬ known b') :
    LoopState w places advance inner r (visit w b' m' visits) b' m' := by
  obtain ⟨hbs, hbe, hba, hse, hsa, hea⟩ := hc.apart
  cases h with
  | first hdown hlt hm =>
    obtain ⟨m₁, h₁, hm₁, hv⟩ := first_exec hc fl env hw hdown hlt hm
    cases hrun.symm.trans h₁
    have hpos : 0 < r.count := rangeCount_pos r.k_pos hlt
    exact .arrive hpos hm₁ (by rw [hdown]; exact hv)
  | turn hj hm hcounter hb =>
    obtain ⟨hgoes, hm', hkept⟩ := body_exec hc hb hrun hm
    rcases hgoes with hin | rfl | rfl | hkn
    · rw [visit_of_ne (hc.inner_apart b' hin).1]
      exact .turn hj hm' (hkept.trans hcounter) (.inr hin)
    · rw [visit_of_ne hbs.symm]
      exact .step hj hm' (hkept.trans hcounter)
    · rw [visit_of_ne hbe.symm]
      exact .exit (List.take_prefix _ _)
    · exact absurd hkn hknown
  | @step j _ hj hm hcounter =>
    obtain ⟨m₁, h₁, hm₁, hv⟩ := step_exec hc fl env hw hj hm hcounter
    cases hrun.symm.trans h₁
    by_cases hnext : j + 1 < r.count
    · rw [if_pos hnext, visit_of_ne hba.symm]
      exact .advance hnext hm₁ hv
    · rw [if_neg hnext, visit_of_ne hbe.symm]
      exact .exit (List.take_prefix _ _)
  | advance hj hm hcounter =>
    obtain ⟨m₁, h₁, hm₁, hv⟩ := advance_exec hc fl env hw hj hm hcounter
    cases hrun.symm.trans h₁
    exact .arrive hj hm₁ hv
  | exit => exact absurd rfl hexit

variable {m₀ : Machine} {visits : List Nat}

theorem inLoop_step {place place' : Nat × Nat} {m' : Machine}
    (ha : Along fl env code (fun b => b = w.exit ∨ known b) place m place' m')
    (hend : place' = (w.step, 0)) {b : Nat} (hplace : place = (b, 0))
    (hb : b = w.body ∨ inner b)
    (h : InLoop fl env code w places.enterAt known m₀ visits b m) :
    ∃ m₁, InLoop fl env code w places.enterAt known m₀ visits w.step m₁ := by
  obtain ⟨hbs, hbe, -, hse, -, -⟩ := hc.apart
  have hstep : b ≠ w.step := by
    rcases hb with rfl | hb
    · exact hbs
    · exact (hc.inner_apart b hb).2.1
  have hexit : b ≠ w.exit := by
    rcases hb with rfl | hb
    · exact hbe
    · exact (hc.inner_apart b hb).2.2.1
  induction ha generalizing b with
  | straight =>
    cases hplace
    exact absurd (congrArg Prod.fst hend) hstep
  | @jump place place' b₁ m m₁ m' hrun havoid _ ih =>
    subst hplace
    have hknown : ¬ known b₁ := fun hk => havoid (.inr hk)
    obtain ⟨hgoes, -⟩ := execBlock_apart (hc.body b hb) hrun
    have hnext := InLoop.next h hexit hrun hknown
    rcases hgoes with hin | rfl | rfl | hkn
    · obtain ⟨h1, h2, h3, -⟩ := hc.inner_apart b₁ hin
      rw [visit_of_ne h1] at hnext
      exact ih hend rfl (.inr hin) hnext h2 h3
    · rw [visit_of_ne hbs.symm] at hnext
      exact ⟨m₁, hnext⟩
    · exact absurd (.inl rfl) havoid
    · exact absurd hkn hknown

theorem LoopState.at_step (h : LoopState w places advance inner r visits w.step m) :
    ∃ j < r.count, visits = (r.values w.down).take (j + 1) ∧ BoundsHeld w r m ∧
      m.regs w.counter = bits r.n (r.value w.down j) := by
  obtain ⟨hbs, -, -, hse, hsa, -⟩ := hc.apart
  generalize hb : w.step = b at h
  cases h with
  | first hdown => exact absurd hb.symm (hc.first_apart hdown).2.1
  | turn _ _ _ hin =>
    rcases hin with rfl | hin
    · exact absurd hb.symm hbs
    · exact absurd hb.symm (hc.inner_apart _ hin).2.1
  | step hj hm hcounter => exact ⟨_, hj, rfl, hm, hcounter⟩
  | advance => exact absurd hb hsa
  | exit => exact absurd hb hse

section Run

variable (hw : WalkOf w r) (hlow : m₀.regs w.low.val = r.rl)
  (hhigh : operandValue fl env m₀ places.highRead % 2 ^ r.n = r.rh)
include hw hlow hhigh

theorem LoopState.enter {b : Nat}
    (hrun : execBlock fl env (restAt code places.enterAt) m₀ = .goto b m) :
    LoopState w places advance inner r (visit w b m []) b m := by
  obtain ⟨m₁, h₁, hm₁, hv⟩ := enter_exec hc hw hlow hhigh
  cases hrun.symm.trans h₁
  by_cases hlt : r.lo < r.hi
  · rw [if_pos hlt]
    cases hdown : w.down with
    | true =>
      rw [visit_of_ne (hc.first_apart hdown).1]
      exact .first hdown hlt hm₁
    | false =>
      have hpos : 0 < r.count := rangeCount_pos r.k_pos hlt
      rw [hc.first_eq (by rw [hdown]; decide)]
      refine .arrive hpos hm₁ ?_
      rw [hv, hdown, Bounds.value, walkValue_zero r.k_pos hlt, if_neg (by decide), r.bits_lo]
  · rw [if_neg hlt, visit_of_ne hc.apart.2.1.symm]
    exact .exit nil_prefix

/-- **Every run keeps the invariant.** -/
theorem inLoop_state {b : Nat} (h : InLoop fl env code w places.enterAt known m₀ visits b m) :
    LoopState w places advance inner r visits b m := by
  induction h with
  | enter hrun _ => exact .enter hc hw hlow hhigh hrun
  | next _ hexit hrun hknown ih => exact ih.next hc hw hexit hrun hknown

/-- A turn that comes to the step is the last one, or another turn follows. -/
theorem turn_next (h : InLoop fl env code w places.enterAt known m₀ visits w.step m) :
    (visits = r.values w.down ∧
        ∃ m', InLoop fl env code w places.enterAt known m₀ visits w.exit m') ∨
      visits.length < r.count ∧ ∃ v m',
        InLoop fl env code w places.enterAt known m₀ (visits ++ [v]) w.body m' := by
  obtain ⟨-, hbe, hba, hse, -, hea⟩ := hc.apart
  obtain ⟨j, hj, rfl, hm, hcounter⟩ := (inLoop_state hc hw hlow hhigh h).at_step hc
  obtain ⟨m₁, hstep, hm₁, hv₁⟩ := step_exec hc fl env hw hj hm hcounter
  by_cases hnext : j + 1 < r.count
  · refine .inr ⟨?_, ?_⟩
    · rw [length_take, r.values_length]
      omega
    · rw [if_pos hnext] at hstep
      have hadvance := h.next hse hstep (hc.new _ (by simp))
      rw [visit_of_ne hba.symm] at hadvance
      obtain ⟨m₂, hmove, -, -⟩ := advance_exec hc fl env hw hnext hm₁ hv₁
      have hbody := hadvance.next hea.symm hmove (hc.new _ (by simp))
      rw [visit, if_pos rfl] at hbody
      exact ⟨_, _, hbody⟩
  · have hlast : j + 1 = r.count := by omega
    rw [if_neg hnext] at hstep
    have hexit := h.next hse hstep (hc.new _ (by simp))
    rw [visit_of_ne hbe.symm] at hexit
    exact .inl ⟨by rw [hlast, r.values_take_count], m₁, hexit⟩

theorem first_turn :
    (r.values w.down = [] ∧ ∃ m, InLoop fl env code w places.enterAt known m₀ [] w.exit m) ∨
      (r.values w.down ≠ [] ∧
        ∃ v m, InLoop fl env code w places.enterAt known m₀ [v] w.body m) := by
  obtain ⟨m₁, hexec, hm₁, -⟩ := enter_exec hc hw hlow hhigh
  by_cases hlt : r.lo < r.hi
  · rw [if_pos hlt] at hexec
    have henter : InLoop fl env code w places.enterAt known m₀ _ _ _ :=
      .enter hexec (hc.new _ (by simp))
    refine .inr ⟨?_, ?_⟩
    · intro hnone
      have hpos : 0 < r.count := rangeCount_pos r.k_pos hlt
      have hlen := r.values_length w.down
      rw [hnone, length_nil] at hlen
      omega
    · cases hdown : w.down with
      | true =>
        obtain ⟨m₂, hfirst, -, -⟩ := first_exec hc fl env hw hdown hlt hm₁
        rw [visit_of_ne (hc.first_apart hdown).1] at henter
        have hbody := henter.next (hc.first_apart hdown).2.2.1 hfirst (hc.new _ (by simp))
        rw [visit, if_pos rfl] at hbody
        exact ⟨_, _, hbody⟩
      | false =>
        rw [hc.first_eq (by rw [hdown]; decide), visit, if_pos rfl] at henter
        exact ⟨_, _, henter⟩
  · have hzero : r.count = 0 := rangeCount_eq_zero r.k_pos (not_lt.mp hlt)
    rw [if_neg hlt] at hexec
    have henter : InLoop fl env code w places.enterAt known m₀ _ _ _ :=
      .enter hexec (hc.new _ (by simp))
    have hnone : r.values w.down = [] := length_eq_zero_iff.mp ((r.values_length _).trans hzero)
    rw [visit_of_ne hc.apart.2.1.symm] at henter
    exact .inl ⟨hnone, m₁, henter⟩

/-- **The end of a run.**  Where every turn of the body comes to the step, the run leaves
    through the exit after the last value. -/
theorem loop_ends
    (hturns : ∀ visits m, InLoop fl env code w places.enterAt known m₀ visits w.body m →
      ∃ m', Along fl env code (fun b => b = w.exit ∨ known b) (w.body, 0) m (w.step, 0) m') :
    ∃ m, InLoop fl env code w places.enterAt known m₀ (r.values w.down) w.exit m := by
  -- by the number of turns that may follow
  have hfrom : ∀ left visits m, r.count ≤ visits.length + left →
      InLoop fl env code w places.enterAt known m₀ visits w.body m →
      ∃ m, InLoop fl env code w places.enterAt known m₀ (r.values w.down) w.exit m := by
    intro left
    induction left with
    | zero =>
      intro visits m hleft h
      obtain ⟨m₁, hrun⟩ := hturns visits m h
      obtain ⟨m₂, hstep⟩ := inLoop_step hc hrun rfl rfl (.inl rfl) h
      rcases turn_next hc hw hlow hhigh hstep with ⟨rfl, hend⟩ | ⟨hlt, -⟩
      · exact hend
      · omega
    | succ left ih =>
      intro visits m hleft h
      obtain ⟨m₁, hrun⟩ := hturns visits m h
      obtain ⟨m₂, hstep⟩ := inLoop_step hc hrun rfl rfl (.inl rfl) h
      rcases turn_next hc hw hlow hhigh hstep with ⟨rfl, hend⟩ | ⟨-, v, m₃, hbody⟩
      · exact hend
      · refine ih _ m₃ ?_ hbody
        rw [length_append, length_singleton]
        omega
  rcases first_turn hc hw hlow hhigh with ⟨hnone, hend⟩ | ⟨-, v, m, hbody⟩
  · rw [hnone]
    exact hend
  · exact hfrom r.count [v] m (Nat.le_add_left _ _) hbody

/-- **The marks** of the loop's own operations hold in every run. -/
theorem loop_marks {b : Nat} (h : InLoop fl env code w places.enterAt known m₀ visits b m)
    (hb : b = w.step ∨ b = advance ∨ (w.down = true ∧ b = places.first)) :
    MarksHold fl env (restAt code (b, 0)) m := by
  obtain ⟨-, -, hba, -, hsa, hea⟩ := hc.apart
  have hstate := inLoop_state hc hw hlow hhigh h
  obtain ⟨t, -, -, hstep, -⟩ := hc.step
  rcases hb with rfl | rfl | ⟨hdown, rfl⟩
  · rw [hstep]
    exact marksHold_plain (by simp [stepInsts]) m
  · generalize hab : b = b' at hstate
    cases hstate with
    | first hdown => exact absurd hab.symm (hc.first_apart hdown).2.2.2
    | turn _ _ _ hin =>
      rcases hin with rfl | hin
      · exact absurd hab.symm hba
      · exact absurd hab.symm (hc.inner_apart _ hin).2.2.2.1
    | step => exact absurd hab.symm hsa
    | advance hj hm hcounter =>
      rw [← hab]
      exact advance_marks hc hw hj hcounter
    | exit => exact absurd hab.symm hea
  · rw [hc.first hdown]
    exact marksHold_plain (by simp [firstInsts]) m

/-- **A range loop visits exactly its values.** -/
theorem visits_exactly : VisitsExactly fl env code w places advance known m₀ (r.values w.down) where
  visits _ _ _ h := (inLoop_state hc hw hlow hhigh h).visits
  starts := first_turn hc hw hlow hhigh
  steps visits m h := by
    rcases turn_next hc hw hlow hhigh h with hlast | ⟨hlt, hnext⟩
    · exact .inl hlast
    · refine .inr ⟨?_, hnext⟩
      rintro rfl
      rw [r.values_length] at hlt
      exact lt_irrefl _ hlt
  ends := loop_ends hc hw hlow hhigh
  enterMarks := by
    rw [hc.enter]
    exact marksHold_plain (by simp [enterInsts]) m₀
  marks _ _ _ h hb := loop_marks hc hw hlow hhigh h hb

end Run

-- ── The bounds ────

theorem reads_keep {place place' : Nat × Nat}
    (ha : Along fl env code (fun b => b = places.first ∨ b = w.exit ∨ known b)
      place m place' m') (hend : place' = places.enterAt) {insts tail : List IrInst}
    (hplace : Reading code w places known reads place insts tail) :
    m'.regs w.low.val = m.regs w.low.val := by
  induction ha generalizing insts tail with
  | @straight b p ran m m' hprefix hran =>
    rcases hplace.ends with ⟨hat, -⟩ | ⟨hne, -⟩
    · -- the run has made all of the code and no more
      rw [hplace.rest] at hprefix
      have hlen : ran.length = insts.length := by
        have := congrArg Prod.snd (hend.trans hat)
        omega
      have hall : ran = insts :=
        IsPrefix.eq_of_length (prefix_of_prefix_length_le hprefix (prefix_append _ _) hlen.le) hlen
      subst hall
      exact execInsts_apart hplace.apart hran _ rfl
    · exact absurd (congrArg Prod.fst hend.symm) hne
  | @jump place place' b m m₁ m' hrun havoid _ ih =>
    rw [hplace.rest] at hrun
    rcases execBlock_append_cases hrun with hleft | ⟨m₂, hran, hafter⟩
    · obtain ⟨hgoes, hregs⟩ := execBlock_apart hplace.apart hleft
      rcases hgoes with hb | hk
      · obtain ⟨insts', tail', hnext⟩ := hc.reads b hb
        rw [ih hend hnext, hregs _ rfl]
      · exact absurd (.inr (.inr hk)) havoid
    · rcases hplace.ends with ⟨-, htail⟩ | ⟨-, htail⟩
      · -- the loop has been entered
        rw [htail, ← hc.enter] at hafter
        rcases enter_goes hc hafter with rfl | rfl
        · exact absurd (.inl rfl) havoid
        · exact absurd (.inr (.inl rfl)) havoid
      · rw [htail] at hafter
        cases hafter

/-- **The bounds are read once**: where the loop is entered, the low one is what was read
    before the code of the high one. -/
theorem low_kept (hfixed : isFixedInt w.counterType = true)
    (ha : Along fl env code (fun b => b = places.first ∨ b = w.exit ∨ known b)
      places.lowAt m places.enterAt m') :
    m'.regs w.low.val =
      operandValue fl env m places.lowRead % 2 ^ irFoldBits w.counterType := by
  obtain ⟨hL, -⟩ := hc.temps
  obtain ⟨insts, tail, hrest, hreading⟩ := hc.low
  obtain ⟨m₁, hcopy, hv⟩ : ∃ m₁, execInst fl env
      { op := .copy, type := w.counterType, result := w.low.val, a := places.lowRead } m = some m₁ ∧
      m₁.regs w.low.val = operandValue fl env m places.lowRead % 2 ^ irFoldBits w.counterType := by
    refine ⟨_, rfl, ?_⟩
    rw [Machine.write_regs, if_pos ⟨hL, rfl⟩]
    exact trimTo_fixed hfixed _
  rw [← hv]
  generalize hlow : places.lowAt = place at ha hrest hreading
  generalize hend : places.enterAt = place' at ha
  cases ha with
  | @straight b p ran _ _ hprefix hran =>
    rw [hrest] at hprefix
    cases ran with
    | nil =>
      -- the loop is not entered at the copy of the low bound
      rcases hreading.ends with ⟨hat, -⟩ | ⟨hne, -⟩
      · have := congrArg Prod.snd (hend.symm.trans hat)
        simp only [length_nil] at this
        omega
      · exact absurd (congrArg Prod.fst hend) hne
    | cons inst ran =>
      obtain ⟨hinst, htail⟩ := cons_prefix_cons.mp hprefix
      subst hinst
      rw [execInsts_cons rfl, hcopy] at hran
      refine reads_keep hc (.straight (hreading.rest ▸ htail) hran) ?_ hreading
      rw [hend, length_cons]
      exact congrArg (Prod.mk b) (by omega)
  | jump hrun havoid hafter =>
    rw [hrest, execBlock_cons rfl hcopy, ← hreading.rest] at hrun
    exact reads_keep hc (.jump hrun havoid hafter) hend.symm hreading

end Pieces

end Exec

end AnticIr
