import Mathlib.Data.Int.ModEq
import Mathlib.Data.Nat.Bitwise
import Mathlib.Tactic.Ring
import Mathlib.Tactic.Linarith

/-! # Integers of `n` bits

    An integer of `n` bits is a number below `2 ^ n`; its signed value counts the top bit as `-2 ^
    (n - 1)`.  `bits n` takes an integer to the number of its low `n` bits.  The two are inverse to
    each other on the values of `n` bits, and both only see the value modulo `2 ^ n`. -/

namespace MachineInt

/-- The low `n` bits as a signed value. -/
def signed (n v : Nat) : Int :=
  if v % 2 ^ n < 2 ^ (n - 1) then (v % 2 ^ n : Nat)
  else ((v % 2 ^ n : Nat) : Int) - 2 ^ n

/-- The low `n` bits of an integer. -/
def bits (n : Nat) (z : Int) : Nat := (z % 2 ^ n).toNat

/-- The value of `lo .. hi` nearest to `z`. -/
def clamp (lo hi z : Int) : Int := if z > hi then hi else if z < lo then lo else z

theorem two_pow_pos (n : Nat) : (0 : Int) < 2 ^ n := by positivity

theorem bits_lt (n : Nat) (z : Int) : bits n z < 2 ^ n := by
  have h1 := Int.emod_nonneg z (two_pow_pos n).ne'
  have h2 := Int.emod_lt_of_pos z (two_pow_pos n)
  have h3 : ((z % 2 ^ n).toNat : Int) < ((2 ^ n : Nat) : Int) := by
    rw [Int.toNat_of_nonneg h1]
    push_cast
    exact h2
  exact_mod_cast h3

theorem bits_cast (n : Nat) (z : Int) : (bits n z : Int) = z % 2 ^ n :=
  Int.toNat_of_nonneg (Int.emod_nonneg z (two_pow_pos n).ne')

variable {n : Nat}

theorem bits_eq_iff {z : Int} {a : Nat} (ha : a < 2 ^ n) :
    bits n z = a ↔ z ≡ a [ZMOD 2 ^ n] := by
  have hmod : (a : Int) % 2 ^ n = a := Int.emod_eq_of_lt (by positivity) (by exact_mod_cast ha)
  constructor
  · intro h
    show z % 2 ^ n = a % 2 ^ n
    rw [hmod, ← bits_cast, h]
  · intro h
    have hz := bits_cast n z
    rw [h, hmod] at hz
    exact_mod_cast hz

theorem bits_modEq {z z' : Int} (h : z ≡ z' [ZMOD 2 ^ n]) : bits n z = bits n z' := by
  unfold bits
  rw [h]

theorem signed_modEq (n v : Nat) : signed n v ≡ v [ZMOD 2 ^ n] := by
  have hbase : (((v % 2 ^ n : Nat)) : Int) ≡ v [ZMOD 2 ^ n] := by
    push_cast
    exact Int.mod_modEq _ _
  unfold signed
  split
  · exact hbase
  · exact (Int.modEq_sub_modulus_iff.mpr hbase.symm).symm

theorem signed_range (hn : 1 ≤ n) (v : Nat) :
    -2 ^ (n - 1) ≤ signed n v ∧ signed n v < 2 ^ (n - 1) := by
  have hlt : v % 2 ^ n < 2 ^ n := Nat.mod_lt _ (by positivity)
  have hpow : (2 : Int) ^ n = 2 * 2 ^ (n - 1) := by
    rw [← pow_succ', Nat.sub_add_cancel hn]
  have hlt' : ((v % 2 ^ n : Nat) : Int) < 2 ^ n := by exact_mod_cast hlt
  unfold signed
  split
  · rename_i h
    have h' : ((v % 2 ^ n : Nat) : Int) < 2 ^ (n - 1) := by exact_mod_cast h
    constructor <;> linarith
  · rename_i h
    have h' : (2 : Int) ^ (n - 1) ≤ ((v % 2 ^ n : Nat) : Int) := by
      exact_mod_cast not_lt.mp h
    constructor <;> linarith

theorem eq_of_modEq_of_range (hn : 1 ≤ n) {x y : Int} (hx : -2 ^ (n - 1) ≤ x ∧ x < 2 ^ (n - 1))
    (hy : -2 ^ (n - 1) ≤ y ∧ y < 2 ^ (n - 1)) (h : x ≡ y [ZMOD 2 ^ n]) : x = y := by
  have hpow : (2 : Int) ^ n = 2 * 2 ^ (n - 1) := by
    rw [← pow_succ', Nat.sub_add_cancel hn]
  obtain ⟨k, hk⟩ := Int.modEq_iff_dvd.mp h
  have hk0 : k = 0 := by
    rw [hpow] at hk
    by_contra hne
    rcases lt_or_gt_of_ne hne with hneg | hgt
    · have : (2 * 2 ^ (n - 1) : Int) * k ≤ (2 * 2 ^ (n - 1)) * (-1) :=
        mul_le_mul_of_nonneg_left (by omega) (by positivity)
      linarith [hx.1, hx.2, hy.1, hy.2]
    · have : (2 * 2 ^ (n - 1) : Int) * 1 ≤ (2 * 2 ^ (n - 1)) * k :=
        mul_le_mul_of_nonneg_left (by omega) (by positivity)
      linarith [hx.1, hx.2, hy.1, hy.2]
  rw [hk0, mul_zero] at hk
  omega

theorem signed_eq (hn : 1 ≤ n) {v : Nat} {z : Int}
    (hz : -2 ^ (n - 1) ≤ z ∧ z < 2 ^ (n - 1)) (h : z ≡ v [ZMOD 2 ^ n]) :
    signed n v = z :=
  eq_of_modEq_of_range hn (signed_range hn v) hz ((signed_modEq n v).trans h.symm)

theorem bits_signed {a : Nat} (ha : a < 2 ^ n) : bits n (signed n a) = a :=
  (bits_eq_iff ha).mpr (signed_modEq n a)

theorem signed_mod (n v : Nat) : signed n (v % 2 ^ n) = signed n v := by
  unfold signed
  rw [Nat.mod_mod]

theorem signed_bits (hn : 1 ≤ n) {z : Int} (hz : -2 ^ (n - 1) ≤ z ∧ z < 2 ^ (n - 1)) :
    signed n (bits n z) = z := by
  refine signed_eq hn hz ?_
  rw [bits_cast]
  exact (Int.mod_modEq _ _).symm

theorem signed_of_lt {a : Nat} (hn : 1 ≤ n) (h : a < 2 ^ (n - 1)) : signed n a = a := by
  have h' : (a : Int) < 2 ^ (n - 1) := by exact_mod_cast h
  exact signed_eq hn ⟨by omega, h'⟩ rfl

theorem signed_of_ge {a : Nat} (hn : 1 ≤ n) (ha : a < 2 ^ n) (h : 2 ^ (n - 1) ≤ a) :
    signed n a = (a : Int) - 2 ^ n := by
  have hpow : (2 : Int) ^ n = 2 * 2 ^ (n - 1) := by
    rw [← pow_succ', Nat.sub_add_cancel hn]
  exact signed_eq hn ⟨by linarith, by linarith⟩ (Int.modEq_sub_modulus_iff.mpr rfl).symm

theorem bits_mod_of_le {k : Nat} (h : n ≤ k) (z : Int) :
    bits k z % 2 ^ n = bits n z := by
  have hdvd : (2 : Int) ^ n ∣ 2 ^ k := pow_dvd_pow 2 h
  have hcast : ((bits k z % 2 ^ n : Nat) : Int) = (bits n z : Int) := by
    push_cast
    rw [bits_cast, bits_cast]
    exact Int.emod_emod_of_dvd z hdvd
  exact_mod_cast hcast

theorem bits_natCast (n v : Nat) : bits n (v : Int) = v % 2 ^ n := by
  have hcast : ((bits n (v : Int) : Nat) : Int) = ((v % 2 ^ n : Nat) : Int) := by
    push_cast
    rfl
  exact_mod_cast hcast

end MachineInt
