import Mathlib.Data.List.Basic
import Mathlib.Data.Nat.Bitwise
import Mathlib.Tactic.Ring

/-! # Bits of numbers and of bytes

    `lowBits n v` is a number in `n` bits, the lowest first, and `bitsOf` the bits of a
    sequence of bytes in the order in which a reader takes them. -/

namespace BitStreams

open List

/-- The number in so many bits, the lowest first. -/
def lowBits : (n v : Nat) → List Bool
  | 0, _ => []
  | n + 1, v => (v % 2 == 1) :: lowBits n (v / 2)

/-- The number in so many bits, the highest first. -/
def highBits (n v : Nat) : List Bool := (lowBits n v).reverse

/-- The bits of bytes, those of a byte from the lowest on. -/
def bitsOf (bytes : List UInt8) : List Bool := bytes.flatMap fun b => lowBits 8 b.toNat

@[simp] theorem length_lowBits (n v : Nat) : (lowBits n v).length = n := by
  induction n generalizing v with
  | zero => rfl
  | succ n ih => rw [lowBits, length_cons, ih]

@[simp] theorem length_highBits (n v : Nat) : (highBits n v).length = n := by
  rw [highBits, length_reverse, length_lowBits]

@[simp] theorem length_bitsOf (bytes : List UInt8) : (bitsOf bytes).length = 8 * bytes.length := by
  induction bytes with
  | nil => rfl
  | cons b bytes ih =>
    rw [bitsOf, flatMap_cons, length_append, length_lowBits, ← bitsOf, ih, length_cons]
    ring

theorem bitsOf_cons (b : UInt8) (bytes : List UInt8) :
    bitsOf (b :: bytes) = lowBits 8 b.toNat ++ bitsOf bytes := rfl

theorem lowBits_add (m n a b : Nat) (ha : a < 2 ^ m) :
    lowBits (m + n) (a + b * 2 ^ m) = lowBits m a ++ lowBits n b := by
  induction m generalizing a with
  | zero =>
    obtain rfl : a = 0 := Nat.lt_one_iff.mp ha
    rw [Nat.zero_add, Nat.zero_add, pow_zero, Nat.mul_one]
    rfl
  | succ m ih =>
    have hdouble : b * 2 ^ (m + 1) = 2 * (b * 2 ^ m) := by ring
    have hhalf : (a + b * 2 ^ (m + 1)) / 2 = a / 2 + b * 2 ^ m := by
      rw [hdouble, Nat.add_mul_div_left _ _ (by decide)]
    have hlow : (a + b * 2 ^ (m + 1)) % 2 = a % 2 := by
      rw [hdouble, Nat.add_mul_mod_self_left]
    have ha' : a / 2 < 2 ^ m := by
      omega
    rw [Nat.add_right_comm, lowBits, lowBits, hlow, hhalf, ih _ ha', cons_append]

theorem lowBits_split {n m : Nat} (h : n ≤ m) (v : Nat) :
    lowBits m v = lowBits n (v % 2 ^ n) ++ lowBits (m - n) (v / 2 ^ n) := by
  have hsplit := lowBits_add n (m - n) (v % 2 ^ n) (v / 2 ^ n) (Nat.mod_lt _ (Nat.two_pow_pos n))
  rw [Nat.add_sub_cancel' h, Nat.mul_comm, Nat.mod_add_div] at hsplit
  exact hsplit

theorem lowBits_inj {n a b : Nat} (ha : a < 2 ^ n) (hb : b < 2 ^ n)
    (h : lowBits n a = lowBits n b) : a = b := by
  induction n generalizing a b with
  | zero => omega
  | succ n ih =>
    rw [lowBits, lowBits, cons.injEq] at h
    have hrest : a / 2 = b / 2 := ih (by omega) (by omega) h.2
    have hlow : (a % 2 = 1) ↔ (b % 2 = 1) := by
      rw [← beq_iff_eq, h.1, beq_iff_eq]
    omega

theorem bitsOf_prefix {bytes xs : List UInt8} {rest : List Bool}
    (h : bitsOf bytes = bitsOf xs ++ rest) : ∃ ys, bytes = xs ++ ys ∧ bitsOf ys = rest := by
  induction xs generalizing bytes with
  | nil => exact ⟨bytes, rfl, h⟩
  | cons x xs ih =>
    rw [bitsOf_cons, append_assoc] at h
    cases bytes with
    | nil =>
      have hlen := congrArg List.length h
      rw [length_append, length_lowBits, length_bitsOf] at hlen
      simp only [length_nil] at hlen
      omega
    | cons b bytes =>
      have hparts := append_inj h (by rw [length_lowBits, length_lowBits])
      obtain ⟨ys, rfl, hys⟩ := ih hparts.2
      have hbyte : b = x := UInt8.toNat_inj.mp (lowBits_inj b.toNat_lt x.toNat_lt hparts.1)
      exact ⟨ys, by rw [hbyte, cons_append], hys⟩

theorem bitsOf_append (xs ys : List UInt8) : bitsOf (xs ++ ys) = bitsOf xs ++ bitsOf ys :=
  flatMap_append

theorem highBits_succ (n v : Nat) :
    highBits (n + 1) v = (v / 2 ^ n % 2 == 1) :: highBits n (v % 2 ^ n) := by
  rw [highBits, lowBits_split (Nat.le_succ n) v, reverse_append, Nat.succ_sub (Nat.le_refl n),
    Nat.sub_self]
  rfl

end BitStreams
