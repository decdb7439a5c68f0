import Mathlib.Algebra.Order.Ring.Int
import Mathlib.Data.Int.ModEq
import Mathlib.Data.Nat.Bitwise
import Mathlib.Tactic.Linarith

/-! # Integers of C that may have no value

    A `uint64_t` is a number below `2 ^ 64` whose sums and products wrap.  An
    operation on an `int64_t` has no value where its result leaves the range, and a
    shift has none where its count reaches the width. -/

open Nat

namespace CInteger

/-- The result of an operation on `int64_t`. -/
def int64 (z : Int) : Option Int := if -2 ^ 63 ≤ z ∧ z < 2 ^ 63 then some z else none

/-- `(int64_t)v`, which the compiler chooses above the largest value. -/
def toSigned (v : Nat) : Option Int := if v < 2 ^ 63 then some v else none

/-- `v << k`. -/
def shiftLeft (v k : Nat) : Option Nat := if k < 64 then some (v * 2 ^ k % 2 ^ 64) else none

/-- `v >> k`. -/
def shiftRight (v k : Nat) : Option Nat := if k < 64 then some (v / 2 ^ k) else none

/-- `~v`. -/
def complement (v : Nat) : Nat := 2 ^ 64 - 1 - v

/-- `x / y` of two `int64_t`. -/
def divide (x y : Int) : Option Int := if y = 0 then none else int64 (x.tdiv y)

/-- `x % y` of two `int64_t`, undefined where the quotient is. -/
def remainder (x y : Int) : Option Int :=
  if y = 0 ∨ (x = -2 ^ 63 ∧ y = -1) then none else some (x.tmod y)

theorem int64_of {z : Int} (h1 : -2 ^ 63 ≤ z) (h2 : z < 2 ^ 63) : int64 z = some z :=
  if_pos ⟨h1, h2⟩

theorem toSigned_of {v : Nat} (h : v < 2 ^ 63) : toSigned v = some (v : Int) := if_pos h

theorem shiftLeft_of {v k : Nat} (h : k < 64) : shiftLeft v k = some (v * 2 ^ k % 2 ^ 64) :=
  if_pos h

theorem shiftRight_of {v k : Nat} (h : k < 64) : shiftRight v k = some (v / 2 ^ k) := if_pos h

/-- A quotient of two `int64_t` leaves the range only for the least value by -1. -/
theorem divide_of {x y : Int} (h1 : -2 ^ 63 ≤ x) (h2 : x < 2 ^ 63) (h0 : y ≠ 0)
    (hleast : ¬(x = -2 ^ 63 ∧ y = -1)) : divide x y = some (x.tdiv y) := by
  have hle := Int.natAbs_tdiv_le_natAbs x y
  have hlt : x.tdiv y < 2 ^ 63 := by
    rcases lt_or_ge (x.tdiv y) (2 ^ 63) with h | h
    · exact h
    · -- only the least value has an absolute value as large
      have hx : x = -2 ^ 63 := by omega
      have habs : (x.tdiv y).natAbs = x.natAbs / y.natAbs := Int.natAbs_tdiv x y
      have hy : y.natAbs = 1 := by
        rcases Nat.lt_or_ge 1 y.natAbs with hgt | hle1
        · have hhalf : x.natAbs / y.natAbs ≤ x.natAbs / 2 := div_le_div_left hgt (by decide)
          omega
        · omega
      rcases Int.natAbs_eq_iff.1 hy with rfl | rfl
      · rw [cast_one, Int.tdiv_one] at h
        omega
      · exact absurd ⟨hx, rfl⟩ hleast
  rw [divide, if_neg h0, int64_of (by omega) hlt]

theorem remainder_of {x y : Int} (h0 : y ≠ 0) (hleast : ¬(x = -2 ^ 63 ∧ y = -1)) :
    remainder x y = some (x.tmod y) :=
  if_neg fun h => h.elim h0 hleast

theorem xor_top {m k : Nat} (h : m < 2 ^ (k + 1)) :
    m ^^^ 2 ^ k = (2 ^ k + m) % 2 ^ (k + 1) := by
  refine eq_of_testBit_eq fun i => ?_
  rw [testBit_xor, testBit_two_pow, testBit_mod_two_pow]
  rcases Nat.lt_trichotomy i k with hlt | rfl | hgt
  · rw [testBit_two_pow_add_gt hlt, decide_eq_false hlt.ne', decide_eq_true (hlt.trans
      (lt_succ_self k)), Bool.xor_false, Bool.true_and]
  · rw [testBit_two_pow_add_eq, decide_eq_true rfl, decide_eq_true (lt_succ_self i),
      Bool.xor_true, Bool.true_and]
  · have hbit : m.testBit i = false :=
      testBit_lt_two_pow (h.trans_le (Nat.pow_le_pow_right (by decide) hgt))
    rw [hbit, decide_eq_false hgt.ne, decide_eq_false (Nat.not_lt.2 hgt)]
    rfl

theorem complement_div (a : Int) {d : Int} (hd : 0 < d) : -((-a - 1) / d) - 1 = a / d := by
  have hdiv := Int.emod_add_mul_ediv a d
  have hlo := Int.emod_nonneg a hd.ne'
  have hhi := Int.emod_lt_of_pos a hd
  have hq : (-a - 1) / d = -(a / d) - 1 := by
    refine Int.ediv_eq_iff_of_pos hd |>.2 ⟨?_, ?_⟩
    · linarith
    · linarith
  omega

end CInteger
