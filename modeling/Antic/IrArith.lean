import Antic.IrFold
import Antic.MachineInt
import Mathlib.Algebra.Order.Ring.Abs

/-! # What an integer operation computes, and that the fold computes it

    `intOp` is the meaning of an integer operation on values of `n` bits, in the terms of integers:
    it has no value where C leaves the operation undefined.  `irFoldInt_correct` is the correctness
    of `ir_fold_int` for all of them, with the 128-bit products and the saturation of `arith.c`. -/

namespace AnticIr

open MachineInt

/-- The signed values of `n` bits. -/
def clampSigned (n : Nat) (z : Int) : Int := clamp (-2 ^ (n - 1)) (2 ^ (n - 1) - 1) z

/-- The unsigned values of `n` bits. -/
def clampUnsigned (n : Nat) (z : Int) : Int := clamp 0 (2 ^ n - 1) z

/-- The meaning of integer operation `op` on values of `n` bits. -/
def intOp (op : IrOp) (n a b : Nat) : Option Nat :=
  let x := signed n a
  let y := signed n b
  let undefined := y = 0 ∨ (x = -2 ^ (n - 1) ∧ y = -1)
  match op with
  | .add => some ((a + b) % 2 ^ n)
  | .sub => some (bits n (a - b))
  | .mul => some (a * b % 2 ^ n)
  | .sdiv => if undefined then none else some (bits n (x.tdiv y))
  | .srem => if undefined then none else some (bits n (x.tmod y))
  | .udiv => if b = 0 then none else some (a / b)
  | .urem => if b = 0 then none else some (a % b)
  | .and => some (a &&& b)
  | .or => some (a ||| b)
  | .xor => some (a ^^^ b)
  | .shl => if b ≥ n then none else some (a * 2 ^ b % 2 ^ n)
  | .shrS => if b ≥ n then none else some (bits n (x / 2 ^ b))
  | .shrU => if b ≥ n then none else some (a / 2 ^ b)
  | .eq => some (boolBit (a = b))
  | .ne => some (boolBit (a ≠ b))
  | .slt => some (boolBit (x < y))
  | .sle => some (boolBit (x ≤ y))
  | .sgt => some (boolBit (x > y))
  | .sge => some (boolBit (x ≥ y))
  | .ult => some (boolBit (a < b))
  | .ule => some (boolBit (a ≤ b))
  | .ugt => some (boolBit (a > b))
  | .uge => some (boolBit (a ≥ b))
  | .mulhS => some (bits n (x * y / 2 ^ n))
  | .mulhU => some (a * b / 2 ^ n)
  | .addSatS => some (bits n (clampSigned n (x + y)))
  | .addSatU => some (bits n (clampUnsigned n (a + b)))
  | .subSatS => some (bits n (clampSigned n (x - y)))
  | .subSatU => some (bits n (clampUnsigned n (a - b)))
  | .mulSatS => some (bits n (clampSigned n (x * y)))
  | .mulSatU => some (bits n (clampUnsigned n (a * b)))
  | _ => none

theorem arithSigned_eq (v n : Nat) : arithSigned v n = signed n v := rfl

theorem toBits64_eq (z : Int) : toBits64 z = bits 64 z := rfl

/-! ## Wrapping arithmetic -/

theorem irFoldBits_pos (type : IrType) : 1 ≤ irFoldBits type := by
  cases type <;> decide

theorem irFoldBits_le (type : IrType) : irFoldBits type ≤ 64 := by
  cases type <;> decide

section Width

variable {n : Nat} (h64 : n ≤ 64)

include h64 in
theorem wrap64_mod (v : Nat) : wrap64 v % 2 ^ n = v % 2 ^ n :=
  Nat.mod_mod_of_dvd v (pow_dvd_pow 2 h64)

include h64 in
theorem toBits64_mod (z : Int) : toBits64 z % 2 ^ n = bits n z := bits_mod_of_le h64 z

/-- A difference of 64-bit numbers that wraps has the bits of the difference. -/
theorem sub64_eq_bits {a b : Nat} (hb : b < 2 ^ 64) :
    sub64 a b = bits 64 (a - b) := by
  unfold sub64 bits
  omega

include h64 in
theorem sub64_mod {a b : Nat} (hb : b < 2 ^ 64) :
    sub64 a b % 2 ^ n = bits n (a - b) := by
  rw [sub64_eq_bits hb, bits_mod_of_le h64]

end Width

/-! ## The 128-bit product -/

theorem arithMultiply_eq {a b : Nat} (ha : a < 2 ^ 64) (hb : b < 2 ^ 64) :
    arithMultiply a b = (a * b / 2 ^ 64, a * b % 2 ^ 64) := by
  have hda := Nat.div_add_mod a (2 ^ 32)
  have hdb := Nat.div_add_mod b (2 ^ 32)
  have ha0 := Nat.mod_lt a (show 0 < 2 ^ 32 by norm_num)
  have hb0 := Nat.mod_lt b (show 0 < 2 ^ 32 by norm_num)
  simp only [arithMultiply, wrap64]
  generalize a / 2 ^ 32 = a1 at *
  generalize a % 2 ^ 32 = a0 at *
  generalize b / 2 ^ 32 = b1 at *
  generalize b % 2 ^ 32 = b0 at *
  subst hda hdb
  have hprod : (2 ^ 32 * a1 + a0) * (2 ^ 32 * b1 + b0) =
      2 ^ 64 * (a1 * b1) + 2 ^ 32 * (a0 * b1) + 2 ^ 32 * (a1 * b0) + a0 * b0 := by
    ring
  have h11 : a1 * b1 ≤ (2 ^ 32 - 1) * (2 ^ 32 - 1) := Nat.mul_le_mul (by omega) (by omega)
  have h01 : a0 * b1 ≤ (2 ^ 32 - 1) * (2 ^ 32 - 1) := Nat.mul_le_mul (by omega) (by omega)
  have h10 : a1 * b0 ≤ (2 ^ 32 - 1) * (2 ^ 32 - 1) := Nat.mul_le_mul (by omega) (by omega)
  have h00 : a0 * b0 ≤ (2 ^ 32 - 1) * (2 ^ 32 - 1) := Nat.mul_le_mul (by omega) (by omega)
  generalize a1 * b1 = p11 at *
  generalize a0 * b1 = p01 at *
  generalize a1 * b0 = p10 at *
  generalize a0 * b0 = p00 at *
  refine Prod.ext ?_ ?_
  · omega
  · omega

/-- The upper half of a signed product, from that of the unsigned one: each
    operand that the other's sign bit counts as `2 ^ 64` is taken off. -/
theorem signedHigh_eq {a b : Nat} (ha : a < 2 ^ 64) (hb : b < 2 ^ 64) :
    sub64 (sub64 (a * b / 2 ^ 64) (if a / 2 ^ 63 ≠ 0 then b else 0))
        (if b / 2 ^ 63 ≠ 0 then a else 0) =
      bits 64 (signed 64 a * signed 64 b / 2 ^ 64) := by
  have hx : signed 64 a = (a : Int) - (if a / 2 ^ 63 ≠ 0 then 2 ^ 64 else 0) := by
    split
    · exact signed_of_ge (by norm_num) ha (by omega)
    · rw [signed_of_lt (by norm_num) (by omega), sub_zero]
  have hy : signed 64 b = (b : Int) - (if b / 2 ^ 63 ≠ 0 then 2 ^ 64 else 0) := by
    split
    · exact signed_of_ge (by norm_num) hb (by omega)
    · rw [signed_of_lt (by norm_num) (by omega), sub_zero]
  rw [hx, hy]
  have hhigh : a * b / 2 ^ 64 < 2 ^ 64 := by
    rw [Nat.div_lt_iff_lt_mul (by norm_num)]
    exact Nat.mul_lt_mul'' ha hb
  have hprod : ((a * b : Nat) : Int) = (a : Int) * b := by push_cast; ring
  generalize hp : a * b = p at *
  unfold sub64 bits
  split <;> split
  · rw [show ((a : Int) - 2 ^ 64) * (b - 2 ^ 64) =
      (p : Int) - 2 ^ 64 * a - 2 ^ 64 * b + 2 ^ 128 by rw [hprod]; ring]
    omega
  · rw [show ((a : Int) - 2 ^ 64) * (b - 0) = (p : Int) - 2 ^ 64 * b by
      rw [hprod]; ring]
    omega
  · rw [show ((a : Int) - 0) * (b - 2 ^ 64) = (p : Int) - 2 ^ 64 * a by
      rw [hprod]; ring]
    omega
  · rw [show ((a : Int) - 0) * (b - 0) = (p : Int) by rw [hprod]; ring]
    omega

/-- The widths below 64. -/
def Narrow (n : Nat) : Prop := n = 8 ∨ n = 16 ∨ n = 32

theorem Narrow.le {n : Nat} (h : Narrow n) : n ≤ 32 := by
  rcases h with rfl | rfl | rfl <;> norm_num

theorem Narrow.pos {n : Nat} (h : Narrow n) : 1 ≤ n := by
  rcases h with rfl | rfl | rfl <;> norm_num

theorem irFoldBits_cases (type : IrType) :
    Narrow (irFoldBits type) ∨ irFoldBits type = 64 := by
  cases type <;> simp [irFoldBits, Narrow]

theorem product_range {n k : Nat} (h1 : 1 ≤ n) (hk : n ≤ k + 1) (a b : Nat) :
    -(2 ^ k * 2 ^ k) ≤ signed n a * signed n b ∧
      signed n a * signed n b ≤ 2 ^ k * 2 ^ k := by
  have hpow : (2 : Int) ^ (n - 1) ≤ 2 ^ k := pow_le_pow_right₀ (by norm_num) (by omega)
  have hx : |signed n a| ≤ 2 ^ k := by
    have := signed_range h1 a
    exact abs_le.mpr ⟨by linarith, by linarith⟩
  have hy : |signed n b| ≤ 2 ^ k := by
    have := signed_range h1 b
    exact abs_le.mpr ⟨by linarith, by linarith⟩
  have hxy : |signed n a * signed n b| ≤ 2 ^ k * 2 ^ k := by
    rw [abs_mul]
    exact mul_le_mul hx hy (abs_nonneg _) (by positivity)
  exact abs_le.mp hxy

/-- The arithmetic shift of a 64-bit value, written with complements. -/
theorem shift_eq {n : Nat} (h : Narrow n) {z : Int} (h1 : -2 ^ 63 ≤ z) (h2 : z < 2 ^ 63) :
    (if bits 64 z / 2 ^ 63 ≠ 0 then
        2 ^ 64 - 1 - (2 ^ 64 - 1 - bits 64 z) / 2 ^ n
      else bits 64 z / 2 ^ n) = bits 64 (z / 2 ^ n) := by
  unfold bits
  rcases h with rfl | rfl | rfl <;> split <;> omega

theorem extend_mod {n : Nat} (h64 : n ≤ 64) (v : Nat) (isSigned : Bool) :
    arithExtend v n isSigned % 2 ^ n = v % 2 ^ n := by
  unfold arithExtend
  split
  · rw [toBits64_mod h64, arithSigned_eq, ← signed_mod, bits_signed (Nat.mod_lt _ (by positivity))]
  · exact Nat.mod_mod _ _

theorem extend_mul (a b n : Nat) : wrap64 (arithExtend a n true * arithExtend b n true) =
      bits 64 (signed n a * signed n b) := by
  symm
  refine (bits_eq_iff (Nat.mod_lt _ (by positivity))).mpr ?_
  simp only [arithExtend, if_true, toBits64_eq]
  rw [Int.natCast_mod, Nat.cast_mul, bits_cast, bits_cast]
  refine Int.ModEq.symm ((Int.mod_modEq _ _).trans ?_)
  exact (Int.mod_modEq _ _).mul (Int.mod_modEq _ _)

/-- `arith_mul_high` gives the upper half of the signed product. -/
theorem arithMulHigh_signed {n a b : Nat} (h : Narrow n ∨ n = 64)
    (ha : a < 2 ^ n) (hb : b < 2 ^ n) :
    arithMulHigh a b n true % 2 ^ n =
      bits n (signed n a * signed n b / 2 ^ n) := by
  unfold arithMulHigh
  rcases h with h | rfl
  · have hle := h.le
    rw [if_pos (by omega)]
    simp only [true_and]
    -- Two values of at most 32 bits multiply into 64.
    obtain ⟨h1, h2⟩ := product_range h.pos (show n ≤ 31 + 1 by omega) a b
    rw [extend_mul, shift_eq h (by linarith) (by linarith),
      extend_mod (by omega), bits_mod_of_le (by omega)]
  · rw [if_neg (by omega), if_pos rfl, arithMultiply_eq ha hb]
    rw [signedHigh_eq ha hb, Nat.mod_eq_of_lt (bits_lt _ _)]

/-- `arith_mul_high` gives the upper half of the unsigned product. -/
theorem arithMulHigh_unsigned {n a b : Nat} (h : Narrow n ∨ n = 64)
    (ha : a < 2 ^ n) (hb : b < 2 ^ n) :
    arithMulHigh a b n false % 2 ^ n = a * b / 2 ^ n := by
  have hhigh : a * b / 2 ^ n < 2 ^ n := by
    rw [Nat.div_lt_iff_lt_mul (by positivity)]
    exact Nat.mul_lt_mul'' ha hb
  unfold arithMulHigh
  rcases h with h | rfl
  · have hle := h.le
    have hprod : a * b < 2 ^ 64 :=
      calc a * b < 2 ^ n * 2 ^ n := Nat.mul_lt_mul'' ha hb
        _ = 2 ^ (n + n) := (pow_add 2 n n).symm
        _ ≤ 2 ^ 64 := Nat.pow_le_pow_right (by norm_num) (by omega)
    rw [if_pos (by omega)]
    simp only [arithExtend, Bool.false_eq_true, false_and, if_false]
    rw [Nat.mod_eq_of_lt ha, Nat.mod_eq_of_lt hb, wrap64, Nat.mod_eq_of_lt hprod,
      Nat.mod_mod, Nat.mod_eq_of_lt hhigh]
  · rw [if_neg (by omega), arithMultiply_eq ha hb]
    exact Nat.mod_eq_of_lt hhigh

/-! ## Saturation -/

/-- The exact result of the operator on values of `n` bits. -/
def ArithOp.exact (op : ArithOp) (n : Nat) (isSigned : Bool) (a b : Nat) : Int :=
  if isSigned then op.onInt (signed n a) (signed n b) else op.onInt a b

/-- The least and the largest value of `n` bits. -/
def lowest (n : Nat) (isSigned : Bool) : Int :=
  if isSigned then -2 ^ (n - 1) else 0

def highest (n : Nat) (isSigned : Bool) : Int :=
  if isSigned then 2 ^ (n - 1) - 1 else 2 ^ n - 1

/-- `d` tells on which side of the range `z` lies. -/
def Sides (n : Nat) (isSigned : Bool) (d z : Int) : Prop :=
  (d > 0 ↔ z > highest n isSigned) ∧ (d < 0 ↔ z < lowest n isSigned)

theorem sides_narrow_unsigned {n a b : Nat} (h : Narrow n) (ha : a < 2 ^ n)
    (hb : b < 2 ^ n) (op : ArithOp) :
    Sides n false (arithDirection op a b n false) (op.exact n false a b) := by
  have hle := h.le
  have hprod : a * b < 2 ^ 64 :=
    calc a * b < 2 ^ n * 2 ^ n := Nat.mul_lt_mul'' ha hb
      _ = 2 ^ (n + n) := (pow_add 2 n n).symm
      _ ≤ 2 ^ 64 := Nat.pow_le_pow_right (by norm_num) (by omega)
  have hsum : a + b < 2 ^ 64 := by
    have : 2 ^ n ≤ 2 ^ 32 := Nat.pow_le_pow_right (by norm_num) hle
    omega
  have hcast : ((2 ^ n : Nat) : Int) = (2 : Int) ^ n := by push_cast; ring
  simp only [Sides, arithDirection, arithExtend, ArithOp.exact, lowest, highest,
    Nat.mod_eq_of_lt ha, Nat.mod_eq_of_lt hb]
  rw [if_pos ⟨by omega, trivial⟩]
  simp only [Bool.false_eq_true, if_false]
  cases op with
  | sub =>
    simp only [ArithOp.onInt]
    split <;> omega
  | add =>
    simp only [ArithOp.onInt, ArithOp.on64, arithLargest, wrap64, Bool.false_eq_true, if_false]
    split <;> omega
  | mul =>
    simp only [ArithOp.onInt, ArithOp.on64, arithLargest, wrap64, Bool.false_eq_true, if_false]
    split <;> omega

theorem sides_narrow_signed {n a b : Nat} (h : Narrow n) (op : ArithOp) :
    Sides n true (arithDirection op a b n true) (op.exact n true a b) := by
  have hle := h.le
  have hpos : 0 < 2 ^ (n - 1) := by positivity
  have hcast : ((2 ^ (n - 1) - 1 : Nat) : Int) = (2 : Int) ^ (n - 1) - 1 := by
    rw [Nat.cast_sub hpos]
    push_cast
    ring
  simp only [Sides, arithDirection, ArithOp.exact, lowest, highest, arithLargest,
    arithSigned_eq, if_true]
  rw [if_neg (by simp), if_pos (by omega), hcast]
  generalize op.onInt (signed n a) (signed n b) = r
  generalize (2 : Int) ^ (n - 1) = t at *
  split_ifs <;> omega

theorem sides_wide_unsigned {a b : Nat} (ha : a < 2 ^ 64) (hb : b < 2 ^ 64) (op : ArithOp) :
    Sides 64 false (arithDirection op a b 64 false) (op.exact 64 false a b) := by
  simp only [Sides, arithDirection, ArithOp.exact, lowest, highest]
  rw [if_neg (by omega), if_neg (by omega)]
  simp only [Bool.false_eq_true, if_false, if_true]
  cases op with
  | add =>
    simp only [ArithOp.onInt, wrap64]
    split_ifs <;> omega
  | sub =>
    simp only [ArithOp.onInt]
    split_ifs <;> omega
  | mul =>
    have hmul : ((a * b : Nat) : Int) = (a : Int) * b := by push_cast; ring
    simp only [ArithOp.onInt, arithMultiply_eq ha hb, ← hmul]
    generalize a * b = p
    split_ifs <;> omega

theorem top_bit {v : Nat} (h : v < 2 ^ 64) :
    v / 2 ^ 63 = 0 ↔ v.testBit 63 = false := by
  rw [Nat.testBit_eq_decide_div_mod_eq, decide_eq_false_iff_not]
  omega

theorem xor_lt_64 {v w : Nat} (hv : v < 2 ^ 64) (hw : w < 2 ^ 64) :
    v ^^^ w < 2 ^ 64 := Nat.xor_lt_two_pow hv hw

theorem testBit_top {v : Nat} (h : v < 2 ^ 64) :
    v.testBit 63 = true ↔ 2 ^ 63 ≤ v := by
  have := top_bit h
  rw [← Bool.not_eq_false, ← this]
  omega

/-- The test of `direction` for a sum: both operands differ from the result in sign. -/
theorem sign_test {a b r : Nat} (ha : a < 2 ^ 64) (hb : b < 2 ^ 64) (hr : r < 2 ^ 64) :
    ((a ^^^ r) &&& (b ^^^ r)) / 2 ^ 63 = 0 ↔
      ((2 ^ 63 ≤ a ↔ 2 ^ 63 ≤ r) ∨ (2 ^ 63 ≤ b ↔ 2 ^ 63 ≤ r)) := by
  have hand : (a ^^^ r) &&& (b ^^^ r) < 2 ^ 64 := lt_of_le_of_lt Nat.and_le_left (xor_lt_64 ha hr)
  rw [top_bit hand, Nat.testBit_and, Nat.testBit_xor, Nat.testBit_xor,
    ← testBit_top ha, ← testBit_top hb, ← testBit_top hr]
  cases a.testBit 63 <;> cases b.testBit 63 <;> cases r.testBit 63 <;> simp

/-- The test of `direction` for a product: the operands differ in sign. -/
theorem sign_xor {a b : Nat} (ha : a < 2 ^ 64) (hb : b < 2 ^ 64) :
    (a ^^^ b) / 2 ^ 63 ≠ 0 ↔ ¬ (2 ^ 63 ≤ a ↔ 2 ^ 63 ≤ b) := by
  rw [ne_eq, top_bit (xor_lt_64 ha hb), Nat.testBit_xor, ← testBit_top ha, ← testBit_top hb]
  cases a.testBit 63 <;> cases b.testBit 63 <;> simp

theorem signed64_eq {a : Nat} (ha : a < 2 ^ 64) :
    signed 64 a = if 2 ^ 63 ≤ a then (a : Int) - 2 ^ 64 else (a : Int) := by
  split
  · exact signed_of_ge (by norm_num) ha (by omega)
  · exact signed_of_lt (by norm_num) (by omega)

theorem sides_wide_add {a b : Nat} (ha : a < 2 ^ 64) (hb : b < 2 ^ 64) :
    Sides 64 true (arithDirection .add a b 64 true) (ArithOp.exact .add 64 true a b) := by
  have hr : wrap64 (a + b) < 2 ^ 64 := Nat.mod_lt _ (by norm_num)
  simp only [Sides, arithDirection, ArithOp.exact, lowest, highest, ArithOp.onInt,
    ArithOp.on64, if_true, sign_test ha hb hr, signed64_eq ha, signed64_eq hb]
  rw [if_neg (by omega), if_neg (by omega), if_neg (by simp)]
  simp only [wrap64]
  split_ifs <;> omega

theorem sides_wide_sub {a b : Nat} (ha : a < 2 ^ 64) (hb : b < 2 ^ 64) :
    Sides 64 true (arithDirection .sub a b 64 true) (ArithOp.exact .sub 64 true a b) := by
  have hr : sub64 a b < 2 ^ 64 := Nat.mod_lt _ (by norm_num)
  have hb' : 2 ^ 64 - 1 - b < 2 ^ 64 := by omega
  simp only [Sides, arithDirection, ArithOp.exact, lowest, highest, ArithOp.onInt,
    ArithOp.on64, reduceCtorEq, if_false, sign_test ha hb' hr,
    signed64_eq ha, signed64_eq hb]
  simp only [sub64]
  split_ifs <;> omega

theorem sides_wide_mul {a b : Nat} (ha : a < 2 ^ 64) (hb : b < 2 ^ 64) :
    Sides 64 true (arithDirection .mul a b 64 true) (ArithOp.exact .mul 64 true a b) := by
  have hlow : a * b % 2 ^ 64 = bits 64 (signed 64 a * signed 64 b) := by
    symm
    refine (bits_eq_iff (Nat.mod_lt _ (by norm_num))).mpr ?_
    rw [Int.natCast_mod, Nat.cast_mul]
    refine Int.ModEq.symm ((Int.mod_modEq _ _).trans ?_)
    exact ((signed_modEq 64 a).mul (signed_modEq 64 b)).symm
  have hx := signed64_eq ha
  have hy := signed64_eq hb
  have hneg : ¬ (2 ^ 63 ≤ a ↔ 2 ^ 63 ≤ b) → signed 64 a * signed 64 b ≤ 0 := by
    intro hne
    by_cases h : 2 ^ 63 ≤ a
    · exact mul_nonpos_of_nonpos_of_nonneg (by omega) (by omega)
    · exact mul_nonpos_of_nonneg_of_nonpos (by omega) (by omega)
  have hpos : (2 ^ 63 ≤ a ↔ 2 ^ 63 ≤ b) → 0 ≤ signed 64 a * signed 64 b := by
    intro heq
    by_cases h : 2 ^ 63 ≤ a
    · exact mul_nonneg_of_nonpos_of_nonpos (by omega) (by omega)
    · exact mul_nonneg (by omega) (by omega)
  obtain ⟨h1, h2⟩ := product_range (show 1 ≤ 64 by norm_num) (show 64 ≤ 63 + 1 by norm_num) a b
  simp only [Sides, arithDirection, ArithOp.exact, lowest, highest, ArithOp.onInt,
    arithMultiply_eq ha hb, hlow, signedHigh_eq ha hb, sign_xor ha hb]
  rw [if_neg (by omega), if_neg (by omega), if_neg (by simp)]
  clear hx hy hlow
  generalize signed 64 a * signed 64 b = z at *
  unfold bits uint64Max
  split_ifs <;> omega

/-- `direction` tells on which side of the range the exact result lies. -/
theorem arithDirection_sides {n a b : Nat} (h : Narrow n ∨ n = 64)
    (ha : a < 2 ^ n) (hb : b < 2 ^ n) (op : ArithOp) (isSigned : Bool) :
    Sides n isSigned (arithDirection op a b n isSigned) (op.exact n isSigned a b) := by
  rcases h with h | rfl
  · cases isSigned with
    | false => exact sides_narrow_unsigned h ha hb op
    | true => exact sides_narrow_signed h op
  · cases isSigned with
    | false => exact sides_wide_unsigned ha hb op
    | true =>
      cases op with
      | add => exact sides_wide_add ha hb
      | sub => exact sides_wide_sub ha hb
      | mul => exact sides_wide_mul ha hb

theorem on64_bits {n a b : Nat} (h64 : n ≤ 64) (hb : b < 2 ^ n) (op : ArithOp) (isSigned : Bool) :
    op.on64 a b % 2 ^ n = bits n (op.exact n isSigned a b) := by
  have hb64 : b < 2 ^ 64 := lt_of_lt_of_le hb (Nat.pow_le_pow_right (by norm_num) h64)
  have hexact : op.exact n isSigned a b ≡ op.onInt a b [ZMOD 2 ^ n] := by
    cases isSigned with
    | false => exact Int.ModEq.refl _
    | true =>
      cases op with
      | add => exact (signed_modEq n a).add (signed_modEq n b)
      | sub => exact (signed_modEq n a).sub (signed_modEq n b)
      | mul => exact (signed_modEq n a).mul (signed_modEq n b)
  rw [bits_modEq hexact]
  cases op with
  | add =>
    rw [show ArithOp.on64 .add a b = wrap64 (a + b) from rfl, wrap64_mod h64, ← bits_natCast]
    simp [ArithOp.onInt]
  | sub => exact sub64_mod h64 hb64
  | mul =>
    rw [show ArithOp.on64 .mul a b = wrap64 (a * b) from rfl, wrap64_mod h64, ← bits_natCast]
    simp [ArithOp.onInt]

theorem arithLargest_mod (n : Nat) (isSigned : Bool) :
    arithLargest n isSigned % 2 ^ n = bits n (highest n isSigned) := by
  rw [← bits_natCast]
  refine congrArg (bits n) ?_
  unfold arithLargest highest
  cases isSigned <;> simp

theorem arithSmallest_mod {n : Nat} (h1 : 1 ≤ n) (h64 : n ≤ 64) (isSigned : Bool) :
    arithSmallest n isSigned % 2 ^ n = bits n (lowest n isSigned) := by
  have hpow : 2 ^ (n - 1) ≤ 2 ^ 64 := Nat.pow_le_pow_right (by norm_num) (by omega)
  have hpos : 1 ≤ 2 ^ (n - 1) := Nat.one_le_two_pow
  cases isSigned with
  | false => simp [arithSmallest, lowest, bits]
  | true =>
    rw [show lowest n true = -2 ^ (n - 1) from rfl, ← bits_mod_of_le h64]
    refine congrArg (· % 2 ^ n) (Eq.symm ((bits_eq_iff ?_).mpr ?_))
    · show 2 ^ 64 - 1 - (2 ^ (n - 1) - 1) < 2 ^ 64
      omega
    · rw [show arithSmallest n true = 2 ^ 64 - 1 - (2 ^ (n - 1) - 1) from rfl,
        show 2 ^ 64 - 1 - (2 ^ (n - 1) - 1) = 2 ^ 64 - 2 ^ (n - 1) by omega,
        Nat.cast_sub hpow]
      refine Int.modEq_iff_dvd.mpr ⟨1, ?_⟩
      push_cast
      ring

theorem arithSaturate_eq {n a b : Nat} (h : Narrow n ∨ n = 64)
    (ha : a < 2 ^ n) (hb : b < 2 ^ n) (op : ArithOp) (isSigned : Bool) :
    arithSaturate op a b n isSigned % 2 ^ n = bits n (clamp (lowest n isSigned) (highest n isSigned)
        (op.exact n isSigned a b)) := by
  have h64 : n ≤ 64 := by
    rcases h with h | rfl
    · have := h.le
      omega
    · exact le_rfl
  have h1 : 1 ≤ n := by
    rcases h with h | rfl
    · exact h.pos
    · norm_num
  obtain ⟨hhigh, hlow⟩ := arithDirection_sides h ha hb op isSigned
  unfold arithSaturate clamp
  simp only [hhigh, hlow]
  split
  · exact arithLargest_mod n isSigned
  · split
    · exact arithSmallest_mod h1 h64 isSigned
    · rw [extend_mod h64, on64_bits h64 hb op isSigned]

/-! ## The fold -/

theorem boolBit_mod (p : Prop) [Decidable p] (type : IrType) :
    boolBit p % 2 ^ irFoldBits type = boolBit p := by
  refine Nat.mod_eq_of_lt ?_
  have h2 : 2 ^ 1 ≤ 2 ^ irFoldBits type := Nat.pow_le_pow_right (by norm_num) (irFoldBits_pos type)
  unfold boolBit
  split <;> omega

theorem signed_eq_least {n a : Nat} (h1 : 1 ≤ n) (ha : a < 2 ^ n) :
    signed n a = -2 ^ (n - 1) ↔ a = 2 ^ (n - 1) := by
  have hpow : (2 : Int) ^ n = 2 * 2 ^ (n - 1) := by
    rw [← pow_succ', Nat.sub_add_cancel h1]
  have hlt : 2 ^ (n - 1) < 2 ^ n := Nat.pow_lt_pow_right (by norm_num) (by omega)
  constructor
  · intro h
    have hb := bits_signed ha
    rw [← hb]
    refine (bits_eq_iff hlt).mpr (Int.modEq_iff_dvd.mpr ⟨1, ?_⟩)
    push_cast
    linarith
  · rintro rfl
    rw [signed_of_ge h1 ha le_rfl]
    push_cast
    linarith

theorem signed_eq_minus_one {n a : Nat} (h1 : 1 ≤ n) (ha : a < 2 ^ n) :
    signed n a = -1 ↔ a = 2 ^ n - 1 := by
  have hpos : 1 ≤ 2 ^ n := Nat.one_le_two_pow
  constructor
  · intro h
    have hb := bits_signed ha
    rw [h] at hb
    rw [← hb]
    refine (bits_eq_iff (by omega)).mpr (Int.modEq_iff_dvd.mpr ⟨1, ?_⟩)
    push_cast [Nat.cast_sub hpos]
    ring
  · rintro rfl
    have hhalf : 2 ^ (n - 1) * 2 = 2 ^ n := by
      rw [← pow_succ, Nat.sub_add_cancel h1]
    rw [signed_of_ge h1 ha (by omega)]
    push_cast [Nat.cast_sub hpos]
    ring

theorem signed_eq_zero {n a : Nat} (h1 : 1 ≤ n) (ha : a < 2 ^ n) :
    signed n a = 0 ↔ a = 0 := by
  constructor
  · intro h
    have hb := bits_signed ha
    rw [h] at hb
    rw [← hb]
    simp [bits]
  · rintro rfl
    exact signed_of_lt h1 (by positivity)

theorem irFoldInt_folded {op : IrOp} {type : IrType} {a b v : Nat}
    (h : irFoldInt op type a b = .folded v) :
    ¬ (isShift op = true ∧ b ≥ irFoldBits type) ∧
    ¬ (divides op = true ∧ irFoldTrim type b = 0) ∧
    ¬ ((op = .sdiv ∨ op = .srem) ∧ irFoldTrim type a = 2 ^ (irFoldBits type - 1) ∧
      irFoldTrim type b = 2 ^ irFoldBits type - 1) ∧
    ∃ w, foldSwitch op type (irFoldTrim type a) (irFoldTrim type b) b = some w ∧
      v = irFoldTrim type w := by
  unfold irFoldInt at h
  simp only at h
  split at h
  · exact absurd h (by simp)
  · rename_i h1
    split at h
    · exact absurd h (by simp)
    · rename_i h2
      split at h
      · exact absurd h (by simp)
      · rename_i h3
        split at h
        · rename_i w hw
          exact ⟨h1, h2, h3, w, hw, (IrFolded.folded.inj h).symm⟩
        · exact absurd h (by simp)

/-- The value of a case of the switch is that of the operation. -/
def SwitchOk (op : IrOp) (type : IrType) (a b count : Nat) : Prop :=
  ∀ w, foldSwitch op type a b count = some w →
    intOp op (irFoldBits type) a b = some (irFoldTrim type w)

section Switch

variable {type : IrType} {a b : Nat} (ha : a < 2 ^ irFoldBits type) (hb : b < 2 ^ irFoldBits type)

variable {op : IrOp}

theorem switchOk_of {count w v : Nat} (hs : foldSwitch op type a b count = some w)
    (ho : intOp op (irFoldBits type) a b = some v) (hv : irFoldTrim type w = v) :
    SwitchOk op type a b count := by
  intro w' hw'
  obtain rfl := Option.some.inj (hs.symm.trans hw')
  rw [ho, hv]

include hb in
theorem switchOk_arith (count : Nat) (h : op = .add ∨ op = .sub ∨ op = .mul) :
    SwitchOk op type a b count := by
  have h64 := irFoldBits_le type
  have hb64 : b < 2 ^ 64 := lt_of_lt_of_le hb (Nat.pow_le_pow_right (by norm_num) h64)
  rcases h with rfl | rfl | rfl
  · exact switchOk_of rfl rfl (wrap64_mod h64 _)
  · exact switchOk_of rfl rfl (sub64_mod h64 hb64)
  · exact switchOk_of rfl rfl (wrap64_mod h64 _)

include ha hb in
theorem switchOk_bitwise (count : Nat) (h : op = .and ∨ op = .or ∨ op = .xor) :
    SwitchOk op type a b count := by
  rcases h with rfl | rfl | rfl
  · exact switchOk_of rfl rfl (Nat.mod_eq_of_lt (Nat.and_lt_two_pow a hb))
  · exact switchOk_of rfl rfl (Nat.mod_eq_of_lt (Nat.or_lt_two_pow ha hb))
  · exact switchOk_of rfl rfl (Nat.mod_eq_of_lt (Nat.xor_lt_two_pow ha hb))

include ha in
theorem switchOk_divide (count : Nat) (h : op = .udiv ∨ op = .urem) (h0 : b ≠ 0) :
    SwitchOk op type a b count := by
  rcases h with rfl | rfl
  · exact switchOk_of rfl (if_neg h0) (Nat.mod_eq_of_lt (lt_of_le_of_lt (Nat.div_le_self a b) ha))
  · exact switchOk_of rfl (if_neg h0) (Nat.mod_eq_of_lt (lt_of_le_of_lt (Nat.mod_le a b) ha))

include ha hb in
theorem switchOk_signed_divide (count : Nat) (h : op = .sdiv ∨ op = .srem)
    (h0 : b ≠ 0) (hleast : ¬ (a = 2 ^ (irFoldBits type - 1) ∧
      b = 2 ^ irFoldBits type - 1)) : SwitchOk op type a b count := by
  have h1 := irFoldBits_pos type
  have h64 := irFoldBits_le type
  have hdef : ¬ (signed (irFoldBits type) b = 0 ∨
      (signed (irFoldBits type) a = -2 ^ (irFoldBits type - 1) ∧
        signed (irFoldBits type) b = -1)) := by
    rw [signed_eq_zero h1 hb, signed_eq_least h1 ha, signed_eq_minus_one h1 hb]
    tauto
  rcases h with rfl | rfl
  · exact switchOk_of rfl (if_neg hdef) (toBits64_mod h64 _)
  · exact switchOk_of rfl (if_neg hdef) (toBits64_mod h64 _)

include ha in
theorem switchOk_shift (h : op = .shl ∨ op = .shrS ∨ op = .shrU)
    (hc : b < irFoldBits type) : SwitchOk op type a b b := by
  have h64 := irFoldBits_le type
  have hn : ¬ b ≥ irFoldBits type := by omega
  rcases h with rfl | rfl | rfl
  · exact switchOk_of rfl (if_neg hn) (wrap64_mod h64 _)
  · exact switchOk_of rfl (if_neg hn) (toBits64_mod h64 _)
  · exact switchOk_of rfl (if_neg hn) (Nat.mod_eq_of_lt (lt_of_le_of_lt (Nat.div_le_self a _) ha))

theorem switchOk_compare (count : Nat)
    (h : op = .eq ∨ op = .ne ∨ op = .slt ∨ op = .sle ∨ op = .sgt ∨ op = .sge ∨
      op = .ult ∨ op = .ule ∨ op = .ugt ∨ op = .uge) : SwitchOk op type a b count := by
  rcases h with rfl | rfl | rfl | rfl | rfl | rfl | rfl | rfl | rfl | rfl <;>
    exact switchOk_of rfl rfl (boolBit_mod _ type)

include ha hb in
theorem switchOk_high (count : Nat) (h : op = .mulhS ∨ op = .mulhU) :
    SwitchOk op type a b count := by
  have hw := irFoldBits_cases type
  rcases h with rfl | rfl
  · exact switchOk_of rfl rfl (arithMulHigh_signed hw ha hb)
  · exact switchOk_of rfl rfl (arithMulHigh_unsigned hw ha hb)

include ha hb in
theorem switchOk_saturate (count : Nat)
    (h : op = .addSatS ∨ op = .addSatU ∨ op = .subSatS ∨ op = .subSatU ∨
      op = .mulSatS ∨ op = .mulSatU) : SwitchOk op type a b count := by
  have hw := irFoldBits_cases type
  rcases h with rfl | rfl | rfl | rfl | rfl | rfl
  · exact switchOk_of rfl rfl (arithSaturate_eq hw ha hb .add true)
  · exact switchOk_of rfl rfl (arithSaturate_eq hw ha hb .add false)
  · exact switchOk_of rfl rfl (arithSaturate_eq hw ha hb .sub true)
  · exact switchOk_of rfl rfl (arithSaturate_eq hw ha hb .sub false)
  · exact switchOk_of rfl rfl (arithSaturate_eq hw ha hb .mul true)
  · exact switchOk_of rfl rfl (arithSaturate_eq hw ha hb .mul false)

end Switch

/-- **THE FOLD IS THE OPERATION.**  What `ir_fold_int` folds to is the value of
    the operation on the trimmed operands. -/
theorem irFoldInt_correct {op : IrOp} {type : IrType} {a b v : Nat}
    (h : irFoldInt op type a b = .folded v) :
    intOp op (irFoldBits type) (irFoldTrim type a) (irFoldTrim type b) =
      some v := by
  obtain ⟨hshift, hzero, hleast, w, hw, rfl⟩ := irFoldInt_folded h
  have ha : irFoldTrim type a < 2 ^ irFoldBits type := Nat.mod_lt _ (by positivity)
  have hb : irFoldTrim type b < 2 ^ irFoldBits type := Nat.mod_lt _ (by positivity)
  refine (show SwitchOk op type _ _ b from ?_) w hw
  -- A shift count below the width is its own trim.
  have hcount : isShift op = true → irFoldTrim type b = b ∧ b < irFoldBits type := by
    intro hs
    have hlt : b < irFoldBits type := by
      by_contra hge
      exact hshift ⟨hs, by omega⟩
    exact ⟨Nat.mod_eq_of_lt (lt_trans hlt Nat.lt_two_pow_self), hlt⟩
  have hshifts : (op = .shl ∨ op = .shrS ∨ op = .shrU) →
      SwitchOk op type (irFoldTrim type a) (irFoldTrim type b) b := by
    intro hop
    obtain ⟨heq, hlt⟩ := hcount (by simpa [isShift] using hop)
    rw [heq]
    exact switchOk_shift ha hop hlt
  cases op with
  | add | sub | mul => exact switchOk_arith hb b (by simp)
  | and | or | xor => exact switchOk_bitwise ha hb b (by simp)
  | udiv | urem => refine switchOk_divide ha b (by simp) fun h0 => hzero ⟨by decide, h0⟩
  | sdiv | srem =>
    refine switchOk_signed_divide ha hb b (by simp) (fun h0 => hzero ⟨by decide, h0⟩)
      fun hl => hleast ⟨by simp, hl⟩
  | shl | shrS | shrU => exact hshifts (by simp)
  | eq | ne | slt | sle | sgt | sge | ult | ule | ugt | uge => exact switchOk_compare b (by simp)
  | mulhS | mulhU => exact switchOk_high ha hb b (by simp)
  | addSatS | addSatU | subSatS | subSatU | mulSatS | mulSatU =>
    exact switchOk_saturate ha hb b (by simp)
  | _ => exact absurd hw (by simp [foldSwitch])

/-! ## What the operations give is a 64-bit number -/

variable {n : Nat}

theorem arithExtend_lt (h64 : n ≤ 64) (v : Nat) (isSigned : Bool) :
    arithExtend v n isSigned < 2 ^ 64 := by
  unfold arithExtend
  split
  · exact bits_lt 64 _
  · exact lt_of_lt_of_le (Nat.mod_lt _ (by positivity)) (Nat.pow_le_pow_right (by norm_num) h64)

theorem arithLargest_lt (h64 : n ≤ 64) (isSigned : Bool) :
    arithLargest n isSigned < 2 ^ 64 := by
  have hle : (if isSigned = true then n - 1 else n) ≤ 64 := by split <;> omega
  have hpow := Nat.pow_le_pow_right (show 0 < 2 by norm_num) hle
  unfold arithLargest
  omega

theorem arithSaturate_lt (h64 : n ≤ 64) (op : ArithOp) (a b : Nat)
    (isSigned : Bool) : arithSaturate op a b n isSigned < 2 ^ 64 := by
  unfold arithSaturate
  dsimp only
  split
  · exact arithLargest_lt h64 isSigned
  · split
    · unfold arithSmallest
      split <;> omega
    · exact arithExtend_lt h64 _ _

theorem arithMulHigh_lt (h64 : n ≤ 64) (a b : Nat) (isSigned : Bool) :
    arithMulHigh a b n isSigned < 2 ^ 64 := by
  unfold arithMulHigh
  split
  · exact arithExtend_lt h64 _ _
  · split
    · exact Nat.mod_lt _ (by norm_num)
    · exact Nat.mod_lt _ (by norm_num)

end AnticIr
