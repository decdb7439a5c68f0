import Mathlib.Data.List.Basic

/-! # Well-formed UTF-8

    The well-formed byte sequences of the Unicode Standard, a constructor for each row of its table,
    with the scalar value that a sequence stands for; a text is sequences one behind the other. -/

namespace Utf8Table

/-- A byte behind the first one. -/
def Tail (b : UInt8) : Prop := 0x80 ≤ b.toNat ∧ b.toNat ≤ 0xBF

/-- The value of a sequence, from the bits of the first byte and the bytes behind it. -/
def value (first : Nat) (rest : List UInt8) : Nat :=
  rest.foldl (fun v b => v * 64 + (b.toNat - 0x80)) first

/-- A well-formed sequence and its scalar value. -/
inductive Sequence : List UInt8 → Nat → Prop where
  /-- `00..7F` -/
  | one {a : UInt8} : a.toNat ≤ 0x7F → Sequence [a] a.toNat
  /-- `C2..DF 80..BF` -/
  | two {a b : UInt8} : 0xC2 ≤ a.toNat → a.toNat ≤ 0xDF → Tail b →
      Sequence [a, b] (value (a.toNat - 0xC0) [b])
  /-- `E0 A0..BF 80..BF` -/
  | e0 {a b c : UInt8} : a.toNat = 0xE0 → 0xA0 ≤ b.toNat → b.toNat ≤ 0xBF → Tail c →
      Sequence [a, b, c] (value (a.toNat - 0xE0) [b, c])
  /-- `E1..EC 80..BF 80..BF` -/
  | e1 {a b c : UInt8} : 0xE1 ≤ a.toNat → a.toNat ≤ 0xEC → Tail b → Tail c →
      Sequence [a, b, c] (value (a.toNat - 0xE0) [b, c])
  /-- `ED 80..9F 80..BF` -/
  | ed {a b c : UInt8} : a.toNat = 0xED → 0x80 ≤ b.toNat → b.toNat ≤ 0x9F → Tail c →
      Sequence [a, b, c] (value (a.toNat - 0xE0) [b, c])
  /-- `EE..EF 80..BF 80..BF` -/
  | ee {a b c : UInt8} : 0xEE ≤ a.toNat → a.toNat ≤ 0xEF → Tail b → Tail c →
      Sequence [a, b, c] (value (a.toNat - 0xE0) [b, c])
  /-- `F0 90..BF 80..BF 80..BF` -/
  | f0 {a b c d : UInt8} : a.toNat = 0xF0 → 0x90 ≤ b.toNat → b.toNat ≤ 0xBF → Tail c → Tail d →
      Sequence [a, b, c, d] (value (a.toNat - 0xF0) [b, c, d])
  /-- `F1..F3 80..BF 80..BF 80..BF` -/
  | f1 {a b c d : UInt8} : 0xF1 ≤ a.toNat → a.toNat ≤ 0xF3 → Tail b → Tail c → Tail d →
      Sequence [a, b, c, d] (value (a.toNat - 0xF0) [b, c, d])
  /-- `F4 80..8F 80..BF 80..BF` -/
  | f4 {a b c d : UInt8} : a.toNat = 0xF4 → 0x80 ≤ b.toNat → b.toNat ≤ 0x8F → Tail c → Tail d →
      Sequence [a, b, c, d] (value (a.toNat - 0xF0) [b, c, d])

/-- Well-formed bytes. -/
inductive Text : List UInt8 → Prop where
  | nil : Text []
  | cons {p s : List UInt8} {v : Nat} : Sequence p v → Text s → Text (p ++ s)

end Utf8Table
