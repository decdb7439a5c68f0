import Mathlib.Data.List.Basic

/-! # UTF-8 and UTF-16 — `utf.c`

    A pointer into a text and the number of bytes or units left is the list of them.  What
    a function writes is the list that it gives, and `SIZE_MAX` is `none`. -/

namespace AnticUtf

abbrev Bytes := List UInt8

abbrev Units := List UInt16

/-- `put_scalar`. -/
def putScalar (c : Nat) : Bytes :=
  if c < 0x80 then [UInt8.ofNat c]
  else if c < 0x800 then [UInt8.ofNat (0xC0 ||| c >>> 6), UInt8.ofNat (0x80 ||| (c &&& 0x3F))]
  else if c < 0x10000 then
    [UInt8.ofNat (0xE0 ||| c >>> 12), UInt8.ofNat (0x80 ||| (c >>> 6 &&& 0x3F)),
     UInt8.ofNat (0x80 ||| (c &&& 0x3F))]
  else
    [UInt8.ofNat (0xF0 ||| c >>> 18), UInt8.ofNat (0x80 ||| (c >>> 12 &&& 0x3F)),
     UInt8.ofNat (0x80 ||| (c >>> 6 &&& 0x3F)), UInt8.ofNat (0x80 ||| (c &&& 0x3F))]

/-- `sequence_length`: the length, and the range of the second byte. -/
def sequenceLength (b : Nat) : Nat × Nat × Nat :=
  if b < 0x80 then (1, 0x80, 0xBF)
  else if b ≥ 0xC2 ∧ b ≤ 0xDF then (2, 0x80, 0xBF)
  else if b ≥ 0xE0 ∧ b ≤ 0xEF then
    (3, if b = 0xE0 then 0xA0 else 0x80, if b = 0xED then 0x9F else 0xBF)
  else if b ≥ 0xF0 ∧ b ≤ 0xF4 then
    (4, if b = 0xF0 then 0x90 else 0x80, if b = 0xF4 then 0x8F else 0xBF)
  else (0, 0x80, 0xBF)

/-- The range of the byte `i` of a sequence. -/
def within (low high i : Nat) (b : UInt8) : Bool :=
  (if i = 1 then low else 0x80) ≤ b.toNat && b.toNat ≤ (if i = 1 then high else 0xBF)

/-! ## UTF-8 -/

/-- The loop over the bytes of a sequence that are good, with `left` not looked at. -/
def goodBytes (s : Bytes) (low high : Nat) : (left good : Nat) → Nat
  | 0, good => good
  | left + 1, good =>
    match s[good]? with
    | none => good
    | some b => if within low high good b then goodBytes s low high left (good + 1) else good

/-- `anti_rt_utf8_repair`. -/
def repair : Bytes → Bytes
  | [] => []
  | b :: s =>
    let (length, low, high) := sequenceLength b.toNat
    let good := if length = 0 then 0 else goodBytes (b :: s) low high (length - 1) 1
    if length > 0 ∧ good = length then (b :: s).take length ++ repair ((b :: s).drop length)
    else putScalar 0xFFFD ++ repair ((b :: s).drop (if good = 0 then 1 else good))
  termination_by s => s.length
  decreasing_by
    · rw [List.length_drop, List.length_cons]
      omega
    · rw [List.length_drop]
      have hpos : ∀ n : Nat, 0 < if n = 0 then 1 else n := by
        intro n
        split
        · exact Nat.one_pos
        · next hn => exact Nat.pos_of_ne_zero hn
      exact Nat.sub_lt (Nat.succ_pos _) (hpos _)

/-- The loop of `anti_rt_utf8_decode` from the byte `i` on, with `left` bytes left. -/
def decodeFrom (s : Bytes) (low high : Nat) : (left i c : Nat) → Option Nat
  | 0, _, c => some c
  | left + 1, i, c =>
    match s[i]? with
    | none => none
    | some b =>
      if within low high i b then decodeFrom s low high left (i + 1) (c <<< 6 ||| (b.toNat &&& 0x3F))
      else none

/-- `anti_rt_utf8_decode`: the scalar value and the length. -/
def decode : Bytes → Nat × Nat
  | [] => (0, 0)
  | b :: s =>
    let (count, low, high) := sequenceLength b.toNat
    if count = 0 ∨ count > (b :: s).length then (0, 0)
    else
      match decodeFrom (b :: s) low high (count - 1) 1
        (if count = 1 then b.toNat else b.toNat &&& 0x7F >>> count) with
      | none => (0, 0)
      | some c => (c, count)

/-! ## UTF-16 -/

/-- A surrogate pair. -/
def isPair (c d : UInt16) : Bool :=
  0xD800 ≤ c.toNat && c.toNat ≤ 0xDBFF && 0xDC00 ≤ d.toNat && d.toNat ≤ 0xDFFF

/-- The scalar value of a surrogate pair. -/
def pairValue (c d : UInt16) : Nat := 0x10000 + (c.toNat - 0xD800) <<< 10 + (d.toNat - 0xDC00)

/-- The scalar value of a unit alone. -/
def unitScalar (c : UInt16) : Nat :=
  if 0xD800 ≤ c.toNat ∧ c.toNat ≤ 0xDFFF then 0xFFFD else c.toNat

/-- `anti_rt_utf16_to_utf8`. -/
def utf16ToUtf8 : Units → Bytes
  | [] => []
  | [c] => putScalar (unitScalar c)
  | c :: d :: u =>
    if isPair c d then putScalar (pairValue c d) ++ utf16ToUtf8 u
    else putScalar (unitScalar c) ++ utf16ToUtf8 (d :: u)

/-- The bytes of a value, in front of the bytes of the rest, where they fit. -/
def putName (room c : Nat) (rest : Nat → Option Bytes) : Option Bytes :=
  let bytes := putScalar c
  if bytes.length > room then none
  else do return bytes ++ (← rest (room - bytes.length))

/-- `anti_rt_name_bytes`, with the room that is left. -/
def nameBytes : Units → (room : Nat) → Option Bytes
  | [], _ => some []
  | [c], room => putName room c.toNat fun _ => some []
  | c :: d :: u, room =>
    if isPair c d then putName room (pairValue c d) (nameBytes u)
    else putName room c.toNat (nameBytes (d :: u))

/-- The value of a surrogate alone, which `anti_rt_name_bytes` wrote. -/
def loneSurrogate : Bytes → Option Nat
  | a :: b :: c :: _ =>
    if a.toNat = 0xED ∧ 0xA0 ≤ b.toNat ∧ b.toNat ≤ 0xBF ∧ 0x80 ≤ c.toNat ∧ c.toNat ≤ 0xBF then
      some (0xD000 ||| (b.toNat &&& 0x3F) <<< 6 ||| (c.toNat &&& 0x3F))
    else none
  | _ => none

/-- The units of a value. -/
def putUnits (c : Nat) : Units :=
  if c ≥ 0x10000 then
    [UInt16.ofNat (0xD800 + (c - 0x10000) >>> 10), UInt16.ofNat (0xDC00 + ((c - 0x10000) &&& 0x3FF))]
  else [UInt16.ofNat c]

/-- `anti_rt_name_units`. -/
def nameUnits : Bytes → Option Units
  | [] => some []
  | b :: s =>
    let (c, length) :=
      match loneSurrogate (b :: s) with
      | some c => (c, 3)
      | none => decode (b :: s)
    if length = 0 then none
    else do return putUnits c ++ (← nameUnits (s.drop (length - 1)))
  termination_by s => s.length
  decreasing_by
    rw [List.length_drop, List.length_cons]
    omega

end AnticUtf
