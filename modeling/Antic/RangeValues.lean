import Antic.MachineInt
import Mathlib.Data.List.Sort

/-! # The values of a range, and their bits

    `rangeValues lo hi k` are `lo`, `lo + k`, `lo + 2k`, … below `hi` (`mem_rangeValues`), and
    `walkValues` the order in which a loop takes them.  The number of them is a quotient, and a test
    of the distance to the end finds the last one (`next_value_iff`).

    A value of `n` bits is read with a sign or without (`reading`).  Two values lie less than `2 ^
    n` apart either way, so the bits of their difference are the distance. -/

namespace MachineInt

-- ── The values ────

/-- How many values `low..high by k` has. -/
def rangeCount (lo hi : Int) (k : Nat) : Nat := ((hi - lo + k - 1) / k).toNat

/-- The values of `low..high by k`, from the least. -/
def rangeValues (lo hi : Int) (k : Nat) : List Int :=
  (List.range (rangeCount lo hi k)).map fun i : Nat => lo + (i : Int) * k

/-- The values in the order of the walk. -/
def walkValues (down : Bool) (lo hi : Int) (k : Nat) : List Int :=
  if down then (rangeValues lo hi k).reverse else rangeValues lo hi k

variable {lo hi : Int} {k : Nat}

theorem lt_rangeCount (hk : 0 < k) (j : Nat) : j < rangeCount lo hi k ↔ lo + j * k < hi := by
  have hk' : (0 : Int) < k := by exact_mod_cast hk
  have hj : j < rangeCount lo hi k ↔ (j : Int) + 1 ≤ (hi - lo + k - 1) / k := by
    unfold rangeCount
    omega
  rw [hj, Int.le_ediv_iff_mul_le hk']
  constructor
  · intro h
    linarith
  · intro h
    linarith

theorem rangeCount_eq_zero (hk : 0 < k) (h : hi ≤ lo) : rangeCount lo hi k = 0 := by
  by_contra hne
  have h0 : lo + (0 : Nat) * (k : Int) < hi := (lt_rangeCount hk 0).mp (Nat.pos_of_ne_zero hne)
  omega

theorem rangeCount_pos (hk : 0 < k) (h : lo < hi) : 0 < rangeCount lo hi k :=
  (lt_rangeCount hk 0).mpr (by simpa using h)

@[simp] theorem walkValues_length (down : Bool) :
    (walkValues down lo hi k).length = rangeCount lo hi k := by
  cases down <;> simp [walkValues, rangeValues]

/-- The value of turn `j`. -/
def walkValue (down : Bool) (lo hi : Int) (k j : Nat) : Int :=
  if down then lo + (rangeCount lo hi k - 1 - j : Nat) * k else lo + j * k

variable {down : Bool}

theorem walkValues_getElem? {j : Nat} (hj : j < rangeCount lo hi k) :
    (walkValues down lo hi k)[j]? = some (walkValue down lo hi k j) := by
  cases down with
  | false => simp [walkValues, rangeValues, walkValue, hj]
  | true =>
    have hlen : (rangeValues lo hi k).length = rangeCount lo hi k := by simp [rangeValues]
    have hlast : rangeCount lo hi k - 1 - j < rangeCount lo hi k := by omega
    rw [walkValues, if_pos rfl, List.getElem?_reverse (by rw [hlen]; exact hj), hlen]
    simp [rangeValues, walkValue, hlast]

theorem walkValues_take_succ {j : Nat} (hj : j < rangeCount lo hi k) :
    (walkValues down lo hi k).take (j + 1) =
      (walkValues down lo hi k).take j ++ [walkValue down lo hi k j] := by
  rw [List.take_add_one, walkValues_getElem? hj]
  rfl

theorem walkValue_mem (hk : 0 < k) {j : Nat} (hj : j < rangeCount lo hi k) :
    lo ≤ walkValue down lo hi k j ∧ walkValue down lo hi k j < hi := by
  have hin : ∀ i, i < rangeCount lo hi k → lo ≤ lo + (i : Int) * k ∧ lo + (i : Int) * k < hi := by
    intro i hi'
    refine ⟨?_, (lt_rangeCount hk i).mp hi'⟩
    have : (0 : Int) ≤ i * k := by positivity
    linarith
  cases down with
  | false => exact hin j hj
  | true => exact hin _ (by omega)

theorem walkValue_succ {j : Nat} (hj : j + 1 < rangeCount lo hi k) :
    walkValue down lo hi k (j + 1) =
      if down then walkValue down lo hi k j - k else walkValue down lo hi k j + k := by
  cases down with
  | false =>
    simp only [walkValue]
    push_cast
    ring
  | true =>
    simp only [walkValue, if_true]
    have h : ((rangeCount lo hi k - 1 - j : Nat) : Int)
        = ((rangeCount lo hi k - 1 - (j + 1) : Nat) : Int) + 1 := by omega
    rw [h]
    ring

/-- **There is a next value** exactly when the distance to the bound that ends the walk
    exceeds `k` upwards, and reaches it downwards. -/
theorem next_value_iff (hk : 0 < k) {j : Nat} (hj : j < rangeCount lo hi k) :
    j + 1 < rangeCount lo hi k ↔
      if down then (k : Int) ≤ walkValue down lo hi k j - lo
      else (k : Int) < hi - walkValue down lo hi k j := by
  have hk' : (0 : Int) < k := by exact_mod_cast hk
  cases down with
  | false =>
    simp only [walkValue]
    rw [lt_rangeCount hk]
    push_cast
    constructor
    · intro h
      linarith
    · intro h
      linarith
  | true =>
    simp only [walkValue, if_true, add_sub_cancel_left]
    constructor
    · intro h
      have h1 : (1 : Int) ≤ ((rangeCount lo hi k - 1 - j : Nat) : Int) := by omega
      calc (k : Int) = 1 * k := (one_mul _).symm
        _ ≤ _ := mul_le_mul_of_nonneg_right h1 hk'.le
    · intro h
      by_contra hlast
      have h0 : rangeCount lo hi k - 1 - j = 0 := by omega
      rw [h0] at h
      omega

/-- The first value of the walk: downwards it is found by a division. -/
theorem walkValue_zero (hk : 0 < k) (h : lo < hi) (down : Bool) : walkValue down lo hi k 0 =
      if down then lo + (hi - lo - 1) / k * k else lo := by
  cases down with
  | false => simp [walkValue]
  | true =>
    have hk' : (0 : Int) < k := by exact_mod_cast hk
    have hnonneg : 0 ≤ (hi - lo - 1) / (k : Int) := Int.ediv_nonneg (by omega) hk'.le
    have hcount : (hi - lo + k - 1) / (k : Int) = (hi - lo - 1) / k + 1 := by
      rw [show hi - lo + k - 1 = (hi - lo - 1) + k by ring, Int.add_ediv_of_dvd_right (dvd_refl _),
        Int.ediv_self hk'.ne']
    have hcast : ((rangeCount lo hi k - 1 - 0 : Nat) : Int) = (hi - lo - 1) / k := by
      unfold rangeCount
      omega
    simp only [walkValue, if_true]
    rw [hcast]

-- ── Their bits ────

/-- The value of the low `n` bits, without a sign or with one. -/
def reading (isUnsigned : Bool) (n v : Nat) : Int := if isUnsigned then v else signed n v

variable {n : Nat}

theorem bits_reading (isUnsigned : Bool) {v : Nat} (hv : v < 2 ^ n) :
    bits n (reading isUnsigned n v) = v := by
  cases isUnsigned with
  | false => exact bits_signed hv
  | true => exact Nat.mod_eq_of_lt hv

theorem reading_sub_lt (hn : 1 ≤ n) (isUnsigned : Bool) {v w : Nat} (hv : v < 2 ^ n) :
    reading isUnsigned n v - reading isUnsigned n w < 2 ^ n := by
  cases isUnsigned with
  | false =>
    have hpow : (2 : Int) ^ n = 2 * 2 ^ (n - 1) := by
      rw [← pow_succ', Nat.sub_add_cancel hn]
    have h1 := signed_range hn v
    have h2 := signed_range hn w
    simp only [reading, Bool.false_eq_true, if_false]
    linarith [h1.2, h2.1]
  | true =>
    simp only [reading, if_true]
    linarith

theorem bits_cast_of_lt {z : Int} (h0 : 0 ≤ z) (h : z < 2 ^ n) : (bits n z : Int) = z := by
  rw [bits_cast]
  exact Int.emod_eq_of_lt h0 h

theorem bits_self_modEq (n : Nat) (z : Int) : (bits n z : Int) ≡ z [ZMOD 2 ^ n] := by
  rw [bits_cast]
  exact Int.mod_modEq _ _

theorem bits_sub_bits (n : Nat) (x y : Int) : bits n ((bits n x : Int) - bits n y) = bits n (x - y) :=
  bits_modEq ((bits_self_modEq n x).sub (bits_self_modEq n y))

theorem bits_add_bits (n : Nat) (x y : Int) : (bits n x + bits n y) % 2 ^ n = bits n (x + y) := by
  rw [← bits_natCast]
  push_cast
  exact bits_modEq ((bits_self_modEq n x).add (bits_self_modEq n y))

theorem bits_mul_bits (n : Nat) (x y : Int) : bits n x * bits n y % 2 ^ n = bits n (x * y) := by
  rw [← bits_natCast]
  push_cast
  exact bits_modEq ((bits_self_modEq n x).mul (bits_self_modEq n y))

theorem bits_div_bits {z : Int} (h0 : 0 ≤ z) (h : z < 2 ^ n) (hk : k < 2 ^ n) :
    bits n z / bits n k = bits n (z / k) := by
  have hbk : bits n (k : Int) = k := by
    exact Nat.mod_eq_of_lt hk
  have hq : (0 : Int) ≤ z / k := Int.ediv_nonneg h0 (by positivity)
  have hle : z / (k : Int) ≤ z := Int.ediv_le_self _ h0
  have hcast : ((bits n z / bits n k : Nat) : Int) = (bits n (z / k) : Int) := by
    rw [bits_cast_of_lt hq (by omega)]
    push_cast
    rw [hbk, bits_cast_of_lt h0 h]
  exact_mod_cast hcast

theorem reading_range (hn : 1 ≤ n) (isUnsigned : Bool) {v : Nat} (hv : v < 2 ^ n) :
    if isUnsigned then 0 ≤ reading isUnsigned n v ∧ reading isUnsigned n v < 2 ^ n
    else -2 ^ (n - 1) ≤ reading isUnsigned n v ∧ reading isUnsigned n v < 2 ^ (n - 1) := by
  cases isUnsigned with
  | false => exact signed_range hn v
  | true =>
    have hv' : (v : Int) < 2 ^ n := by exact_mod_cast hv
    exact ⟨by simp [reading], hv'⟩

end MachineInt
