import Mathlib.Data.List.Basic
import Mathlib.Data.Nat.Bitwise
import Mathlib.Tactic.Ring

/-! # Fields of little-endian numbers in a sequence of bytes

    `put16` and `put32` write a field, `get16` and `get32` read one, and give nothing where the
    field is not inside the bytes.  `Stands bytes i x` says that the bytes from place `i` on start
    with `x`; a record is taken apart with it field by field. -/

namespace ByteFields

open List

/-- A number in two bytes. -/
def put16 (value : Nat) : List UInt8 := [UInt8.ofNat value, UInt8.ofNat (value >>> 8)]

/-- A number in four bytes. -/
def put32 (value : Nat) : List UInt8 :=
  [UInt8.ofNat value, UInt8.ofNat (value >>> 8), UInt8.ofNat (value >>> 16),
    UInt8.ofNat (value >>> 24)]

/-- The number in the two bytes at a place. -/
def get16 (bytes : List UInt8) (i : Nat) : Option Nat := do
  let p0 ← bytes[i]?
  let p1 ← bytes[i + 1]?
  return p0.toNat ||| p1.toNat <<< 8

/-- The number in the four bytes at a place. -/
def get32 (bytes : List UInt8) (i : Nat) : Option Nat := do
  let p0 ← bytes[i]?
  let p1 ← bytes[i + 1]?
  let p2 ← bytes[i + 2]?
  let p3 ← bytes[i + 3]?
  return p0.toNat ||| p1.toNat <<< 8 ||| p2.toNat <<< 16 ||| p3.toNat <<< 24

/-- The bytes from the place on start with `x`. -/
def Stands (bytes : List UInt8) (i : Nat) (x : List UInt8) : Prop := x <+: bytes.drop i

@[simp] theorem length_put16 (value : Nat) : (put16 value).length = 2 := rfl

@[simp] theorem length_put32 (value : Nat) : (put32 value).length = 4 := rfl

variable {bytes : List UInt8} {i : Nat}

/-! ## What stands at a place -/

theorem Stands.left {x y : List UInt8} (h : Stands bytes i (x ++ y)) : Stands bytes i x :=
  (prefix_append x y).trans h

theorem Stands.right {x y : List UInt8} (h : Stands bytes i (x ++ y)) :
    Stands bytes (i + x.length) y := by
  obtain ⟨z, hz⟩ := h
  refine ⟨z, ?_⟩
  rw [← drop_drop, ← hz, append_assoc, drop_left]

theorem stands_middle (pre x post : List UInt8) :
    Stands (pre ++ (x ++ post)) pre.length x := by
  refine ⟨post, ?_⟩
  rw [drop_left]

theorem Stands.getElem? {x : List UInt8} (h : Stands bytes i x) {k : Nat}
    (hk : k < x.length) : bytes[i + k]? = x[k]? := by
  obtain ⟨z, hz⟩ := h
  rw [← getElem?_drop, ← hz, getElem?_append_left hk]

theorem Stands.take {x : List UInt8} (h : Stands bytes i x) : (bytes.drop i).take x.length = x := by
  obtain ⟨z, hz⟩ := h
  rw [← hz, take_left]

/-! ## Fields are read back -/

theorem or_shift (a b k : Nat) (ha : a < 2 ^ k) : a ||| b <<< k = a + b * 2 ^ k := by
  rw [Nat.or_comm, ← Nat.shiftLeft_add_eq_or_of_lt ha, Nat.shiftLeft_eq, Nat.add_comm]

theorem or_bytes (p0 p1 p2 p3 : UInt8) :
    p0.toNat ||| p1.toNat <<< 8 ||| p2.toNat <<< 16 ||| p3.toNat <<< 24 =
      p0.toNat + p1.toNat * 2 ^ 8 + p2.toNat * 2 ^ 16 + p3.toNat * 2 ^ 24 := by
  have h0 := p0.toNat_lt
  have h1 := p1.toNat_lt
  have h2 := p2.toNat_lt
  rw [or_shift p0.toNat p1.toNat 8 h0, or_shift _ p2.toNat 16 (by omega),
    or_shift _ p3.toNat 24 (by omega)]

theorem exists_byte (h : i < bytes.length) : ∃ p, bytes[i]? = some p := ⟨_, getElem?_eq_getElem h⟩

theorem get16_of_le (h : i + 2 ≤ bytes.length) : ∃ v, get16 bytes i = some v ∧ v < 2 ^ 16 := by
  obtain ⟨p0, h0⟩ := exists_byte (by omega : i < bytes.length)
  obtain ⟨p1, h1⟩ := exists_byte (by omega : i + 1 < bytes.length)
  refine ⟨p0.toNat ||| p1.toNat <<< 8, by simp [get16, h0, h1], ?_⟩
  have hp0 := p0.toNat_lt
  have hp1 := p1.toNat_lt
  rw [or_shift _ _ 8 hp0]
  omega

theorem get32_of_le (h : i + 4 ≤ bytes.length) : ∃ v, get32 bytes i = some v ∧ v < 2 ^ 32 := by
  obtain ⟨p0, h0⟩ := exists_byte (by omega : i < bytes.length)
  obtain ⟨p1, h1⟩ := exists_byte (by omega : i + 1 < bytes.length)
  obtain ⟨p2, h2⟩ := exists_byte (by omega : i + 2 < bytes.length)
  obtain ⟨p3, h3⟩ := exists_byte (by omega : i + 3 < bytes.length)
  refine ⟨p0.toNat ||| p1.toNat <<< 8 ||| p2.toNat <<< 16 ||| p3.toNat <<< 24,
    by simp [get32, h0, h1, h2, h3], ?_⟩
  have hp0 := p0.toNat_lt
  have hp1 := p1.toNat_lt
  have hp2 := p2.toNat_lt
  have hp3 := p3.toNat_lt
  rw [or_bytes]
  omega

/-- **What was written is read back**, cut to the width of the field. -/
theorem get16_put16 {value : Nat} (h : Stands bytes i (put16 value)) (hv : value < 2 ^ 16) :
    get16 bytes i = some value := by
  have h0 := h.getElem? (k := 0) (by simp)
  have h1 := h.getElem? (k := 1) (by simp)
  rw [Nat.add_zero] at h0
  simp only [get16, h0, h1, put16, getElem?_cons_zero, getElem?_cons_succ,
    Option.bind_eq_bind, Option.bind_some, Option.pure_def, Option.some.injEq]
  rw [or_shift _ _ 8 (UInt8.toNat_lt _)]
  simp only [UInt8.toNat_ofNat']
  omega

theorem get32_put32 {value : Nat} (h : Stands bytes i (put32 value)) (hv : value < 2 ^ 32) :
    get32 bytes i = some value := by
  have h0 := h.getElem? (k := 0) (by simp)
  have h1 := h.getElem? (k := 1) (by simp)
  have h2 := h.getElem? (k := 2) (by simp)
  have h3 := h.getElem? (k := 3) (by simp)
  rw [Nat.add_zero] at h0
  simp only [get32, h0, h1, h2, h3, put32, getElem?_cons_zero, getElem?_cons_succ,
    Option.bind_eq_bind, Option.bind_some, Option.pure_def, Option.some.injEq]
  rw [or_bytes]
  simp only [UInt8.toNat_ofNat']
  omega

end ByteFields
