import Mathlib.Data.Nat.Bitwise
import Mathlib.Data.List.Basic

/-! # A bitmap in bytes that grow

    Bit `k` is bit `k % 8` of byte `k / 8`.  A byte that was allocated and not yet
    written has no value, so a bit of it is not defined.  `Shows` says that every
    byte is defined and the bits are those of a set. -/

namespace GrowingBitmap

open List

/-- The bytes, `none` for one that was never written. -/
abbrev Bytes := List (Option Nat)

/-- A reallocation: the bytes that fit are kept, the new ones are not defined. -/
def resize (bits : Bytes) (bytes : Nat) : Bytes :=
  bits.take bytes ++ List.replicate (bytes - bits.length) none

/-- Write zero into `n` bytes from `start` on. -/
def zeroBytes (bits : Bytes) (start n : Nat) : Bytes :=
  bits.mapIdx fun i b => if start ≤ i ∧ i < start + n then some 0 else b

/-- Set bit `k`. -/
def setBit (bits : Bytes) (k : Nat) : Bytes :=
  bits.modify (k / 8) (Option.map fun b => (b ||| 1 <<< (k % 8)) % 256)

/-- Bit `k`, where its byte is defined. -/
def bitAt (bits : Bytes) (k : Nat) : Option Bool :=
  (bits[k / 8]?).join.map fun b => b.testBit (k % 8)

/-- `n` bytes, all defined, whose bits are those of the set. -/
structure Shows (bits : Bytes) (n : Nat) (set : Nat → Prop) : Prop where
  length : bits.length = n
  bit : ∀ k, k < 8 * n → ∃ b, bitAt bits k = some b ∧ (b = true ↔ set k)

/-- More bytes, the new ones zero, of a set that has none of their bits. -/
theorem Shows.grow {bits : Bytes} {n bytes : Nat} {set : Nat → Prop} (h : Shows bits n set)
    (hn : n ≤ bytes) (hset : ∀ k, 8 * n ≤ k → ¬set k) :
    Shows (zeroBytes (resize bits bytes) n (bytes - n)) bytes set := by
  have hresize : resize bits bytes = bits ++ List.replicate (bytes - n) none := by
    rw [resize, h.length, take_of_length_le (h.length.trans_le hn)]
  constructor
  · rw [zeroBytes, length_mapIdx, hresize, length_append, length_replicate, h.length]
    omega
  · intro k hk
    have hget : (zeroBytes (resize bits bytes) n (bytes - n))[k / 8]? =
        if k / 8 < n then bits[k / 8]? else some (some 0) := by
      rw [zeroBytes, getElem?_mapIdx, hresize]
      by_cases hlt : k / 8 < n
      · have hlt' : k / 8 < bits.length := h.length.symm ▸ hlt
        have hskip : ¬(n ≤ k / 8 ∧ k / 8 < n + (bytes - n)) := fun hc => by omega
        rw [if_pos hlt, getElem?_append_left hlt']
        simp only [if_neg hskip, Option.map_id_fun', id_eq]
      · have hzero : n ≤ k / 8 ∧ k / 8 < n + (bytes - n) := by omega
        have hrest : k / 8 - bits.length < bytes - n := by
          rw [h.length]
          omega
        rw [if_neg hlt, getElem?_append_right (h.length.trans_le hzero.1),
          getElem?_replicate, if_pos hrest]
        exact congrArg some (if_pos hzero)
    unfold bitAt
    rw [hget]
    by_cases hlt : k / 8 < n
    · rw [if_pos hlt]
      exact h.bit k (by omega)
    · rw [if_neg hlt]
      refine ⟨false, ?_, ?_⟩
      · show some (Nat.testBit 0 (k % 8)) = _
        rw [Nat.zero_testBit]
      · refine iff_of_false Bool.false_ne_true (hset k ?_)
        omega

theorem Shows.set {bits : Bytes} {n k : Nat} {set : Nat → Prop} (h : Shows bits n set) :
    Shows (setBit bits k) n fun i => i = k ∨ set i := by
  constructor
  · rw [setBit, length_modify, h.length]
  · intro i hi
    obtain ⟨b, hb, hiff⟩ := h.bit i hi
    obtain ⟨byte, hbyte, rfl⟩ := Option.map_eq_some_iff.1 hb
    have hget : bits[i / 8]? = some (some byte) := by
      cases hg : bits[i / 8]? with
      | none =>
        rw [hg] at hbyte
        cases hbyte
      | some o =>
        rw [hg] at hbyte
        exact congrArg some hbyte
    by_cases hsame : k / 8 = i / 8
    · have hnew : (setBit bits k)[i / 8]? = some (some ((byte ||| 1 <<< (k % 8)) % 256)) := by
        rw [setBit, getElem?_modify, hget]
        exact congrArg some (if_pos hsame)
      have hlow : i % 8 < 8 := Nat.mod_lt _ (Nat.succ_pos _)
      refine ⟨((byte ||| 1 <<< (k % 8)) % 256).testBit (i % 8), ?_, ?_⟩
      · rw [bitAt, hnew]
        rfl
      · rw [show (256 : Nat) = 2 ^ 8 from rfl, Nat.testBit_mod_two_pow, Nat.testBit_or,
          Nat.shiftLeft_eq, Nat.one_mul, Nat.testBit_two_pow]
        simp only [hlow, decide_true, Bool.true_and, Bool.or_eq_true, decide_eq_true_eq]
        rw [hiff]
        -- in one byte the bits are told apart by their remainders
        constructor
        · rintro (hset | hbit)
          · exact .inr hset
          · exact .inl (by omega)
        · rintro (rfl | hset)
          · exact .inr rfl
          · exact .inl hset
    · have hnew : (setBit bits k)[i / 8]? = some (some byte) := by
        rw [setBit, getElem?_modify, hget]
        exact congrArg some (if_neg hsame)
      refine ⟨byte.testBit (i % 8), ?_, ?_⟩
      · rw [bitAt, hnew]
        rfl
      · rw [hiff]
        refine (or_iff_right fun he => hsame ?_).symm
        rw [he]

theorem Shows.congr {bits : Bytes} {n : Nat} {set set' : Nat → Prop} (h : Shows bits n set)
    (hset : ∀ k, set k ↔ set' k) : Shows bits n set' where
  length := h.length
  bit k hk := by
    obtain ⟨b, hb, hiff⟩ := h.bit k hk
    exact ⟨b, hb, hiff.trans (hset k)⟩

theorem shows_empty : Shows [] 0 fun _ => False where
  length := rfl
  bit k hk := absurd hk (by omega)

end GrowingBitmap
