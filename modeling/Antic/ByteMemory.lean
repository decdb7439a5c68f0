import Mathlib.Data.BitVec
import Mathlib.Logic.Function.Basic

/-! # A memory of bytes

    A number of `n` bytes stands at an address with its lowest byte first.  The
    addresses have `w` bits, and the bytes after the last address go on at 0. -/

namespace ByteMemory

variable {w : Nat}

/-- The byte at each address. -/
abbrev Memory (w : Nat) := BitVec w → UInt8

/-- The number in the `n` bytes from `a` on. -/
def readBytes (mem : Memory w) (a : BitVec w) : Nat → Nat
  | 0 => 0
  | n + 1 => (mem a).toNat + 256 * readBytes mem (a + 1) n

/-- Write the number `v` into the `n` bytes from `a` on. -/
def writeBytes (mem : Memory w) (a : BitVec w) : Nat → Nat → Memory w
  | 0, _ => mem
  | n + 1, v => writeBytes (Function.update mem a (UInt8.ofNat v)) (a + 1) n (v / 256)

theorem writeBytes_outside {mem : Memory w} {a p : BitVec w} {n v : Nat}
    (h : ∀ k < n, p ≠ a + BitVec.ofNat w k) : writeBytes mem a n v p = mem p := by
  induction n generalizing mem a v with
  | zero => rfl
  | succ n ih =>
    have hfirst : p ≠ a := by
      have hzero := h 0 (Nat.succ_pos n)
      rwa [show a + BitVec.ofNat w 0 = a from BitVec.add_zero a] at hzero
    rw [writeBytes, ih, Function.update_of_ne hfirst]
    intro k hk
    have hnext := h (k + 1) (Nat.succ_lt_succ hk)
    rwa [BitVec.ofNat_add, BitVec.add_comm (BitVec.ofNat w k), ← BitVec.add_assoc] at hnext

/-- A write of bytes that do not reach around the memory leaves the byte before it. -/
theorem writeBytes_before {mem : Memory w} {a : BitVec w} {n v : Nat} (hn : n < 2 ^ w) :
    writeBytes mem (a + 1) n v a = mem a := by
  refine writeBytes_outside fun k hk he => ?_
  rw [BitVec.add_assoc] at he
  have hzero : BitVec.ofNat w (1 + k) = 0 := by
    rw [BitVec.ofNat_add]
    exact (BitVec.add_right_eq_self).1 he.symm
  have htoNat := congrArg BitVec.toNat hzero
  rw [BitVec.toNat_ofNat, Nat.mod_eq_of_lt (by omega)] at htoNat
  have hpos : 1 + k = 0 := htoNat
  omega

/-- **A read finds what was written.** -/
theorem readBytes_writeBytes {mem : Memory w} {a : BitVec w} {n v : Nat} (hn : n ≤ 2 ^ w) :
    readBytes (writeBytes mem a n v) a n = v % 256 ^ n := by
  induction n generalizing mem a v with
  | zero => rw [Nat.pow_zero, Nat.mod_one]; rfl
  | succ n ih =>
    rw [readBytes, writeBytes, ih (Nat.le_of_succ_le hn), writeBytes_before hn,
      Function.update_self, UInt8.toNat_ofNat', Nat.pow_succ 256, Nat.mul_comm (256 ^ n) 256,
      Nat.mod_mul]

end ByteMemory
