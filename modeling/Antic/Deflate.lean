import Antic.BitStreams
import Antic.CanonicalCodes

/-! # The deflate format

    Deflated data is a sequence of blocks of bits.  A block is bytes as they are, or literals and
    matches of text that stands before, written with two codes: the fixed ones, or codes whose
    lengths the block begins with.  Each rule relates bits to the text before and behind them.

    * `Tokens` — the literals and matches of a block, up to its end.
    * `Sizes` — the code lengths that a block begins with.
    * `Blocks` — blocks up to the last, from a place in the bits on.
    * `Deflated` — bytes that hold blocks, and the text that they stand for. -/

namespace Deflate

open BitStreams CanonicalCodes

/-! ## Codes -/

/-- The bits of a symbol. -/
inductive CodeWord (lengths : Nat → Nat) (n : Nat) : Nat → List Bool → Prop where
  | intro {i : Nat} : i < n → lengths i ≠ 0 →
      CodeWord lengths n i (highBits (lengths i) (code lengths n i))

/-- The lengths make a code: a complete one, or a part of one, such as a single code. -/
structure Lengths (lengths : Nat → Nat) (n : Nat) : Prop where
  le : ∀ i, i < n → lengths i ≤ 15
  share : kraft lengths 15 n ≤ 2 ^ 15

/-- The code lengths of the literals and match lengths of a fixed block. -/
def fixedLengths (i : Nat) : Nat :=
  if i < 144 then 8 else if i < 256 then 9 else if i < 280 then 7 else 8

/-- The code lengths of the match distances of a fixed block. -/
def fixedDistances (_ : Nat) : Nat := 5

/-! ## Literals and matches -/

/-- The extra bits of the `i`-th symbol of a match length. -/
def lengthExtra (i : Nat) : Nat := if i < 8 ∨ i = 28 then 0 else (i - 4) / 4

/-- The least match length of the `i`-th symbol. -/
def lengthBase (i : Nat) : Nat :=
  if i = 28 then 258 else if i < 8 then i + 3 else 3 + (4 + i % 4) * 2 ^ ((i - 4) / 4)

/-- The extra bits of a symbol of a match distance. -/
def distanceExtra (i : Nat) : Nat := if i < 4 then 0 else (i - 2) / 2

/-- The least match distance of a symbol. -/
def distanceBase (i : Nat) : Nat :=
  if i < 4 then i + 1 else 1 + (2 + i % 2) * 2 ^ ((i - 2) / 2)

/-- The bits of a match length. -/
inductive LengthBits (lengths : Nat → Nat) (n : Nat) : Nat → List Bool → Prop where
  | intro {i e : Nat} {w : List Bool} : i < 29 → e < 2 ^ lengthExtra i →
      CodeWord lengths n (257 + i) w →
      LengthBits lengths n (lengthBase i + e) (w ++ lowBits (lengthExtra i) e)

/-- The bits of a match distance. -/
inductive DistanceBits (lengths : Nat → Nat) (n : Nat) : Nat → List Bool → Prop where
  | intro {i e : Nat} {w : List Bool} : i < 30 → e < 2 ^ distanceExtra i → CodeWord lengths n i w →
      DistanceBits lengths n (distanceBase i + e) (w ++ lowBits (distanceExtra i) e)

/-- The text with so many bytes more, each as the one a distance before it. -/
def copyFrom (distance : Nat) : (length : Nat) → List UInt8 → List UInt8
  | 0, text => text
  | length + 1, text => copyFrom distance length (text ++ [text.getD (text.length - distance) 0])

/-- The literals and matches of a block, and the symbol of its end. -/
inductive Tokens (lengths : Nat → Nat) (n : Nat) (distances : Nat → Nat) (m : Nat) :
    List UInt8 → List Bool → List UInt8 → Prop where
  | stop {text : List UInt8} {w : List Bool} : CodeWord lengths n 256 w →
      Tokens lengths n distances m text w text
  | literal {text text' : List UInt8} {b : UInt8} {w bits : List Bool} :
      CodeWord lengths n b.toNat w → Tokens lengths n distances m (text ++ [b]) bits text' →
      Tokens lengths n distances m text (w ++ bits) text'
  | copy {text text' : List UInt8} {length distance : Nat} {w w' bits : List Bool} :
      LengthBits lengths n length w → DistanceBits distances m distance w' →
      distance ≤ text.length →
      Tokens lengths n distances m (copyFrom distance length text) bits text' →
      Tokens lengths n distances m text (w ++ (w' ++ bits)) text'

/-! ## The code lengths of a block -/

/-- The order of the lengths of the code of the code lengths. -/
def lengthOrder : List Nat := [16, 17, 18, 0, 8, 7, 9, 6, 10, 5, 11, 4, 12, 3, 13, 2, 14, 1, 15]

/-- Code lengths: one as it is, the last one three to six times again, or zeros. -/
inductive Sizes (lengths : Nat → Nat) : List Nat → List Bool → List Nat → Prop where
  | done {sizes : List Nat} : Sizes lengths sizes [] sizes
  | size {sizes sizes' : List Nat} {s : Nat} {w bits : List Bool} : s < 16 →
      CodeWord lengths 19 s w → Sizes lengths (sizes ++ [s]) bits sizes' →
      Sizes lengths sizes (w ++ bits) sizes'
  | again {sizes sizes' : List Nat} {s k : Nat} {w bits : List Bool} :
      sizes.getLast? = some s → k < 4 → CodeWord lengths 19 16 w →
      Sizes lengths (sizes ++ List.replicate (k + 3) s) bits sizes' →
      Sizes lengths sizes (w ++ (lowBits 2 k ++ bits)) sizes'
  | zeros {sizes sizes' : List Nat} {k : Nat} {w bits : List Bool} : k < 8 →
      CodeWord lengths 19 17 w → Sizes lengths (sizes ++ List.replicate (k + 3) 0) bits sizes' →
      Sizes lengths sizes (w ++ (lowBits 3 k ++ bits)) sizes'
  | manyZeros {sizes sizes' : List Nat} {k : Nat} {w bits : List Bool} : k < 128 →
      CodeWord lengths 19 18 w → Sizes lengths (sizes ++ List.replicate (k + 11) 0) bits sizes' →
      Sizes lengths sizes (w ++ (lowBits 7 k ++ bits)) sizes'

/-! ## Blocks -/

/-- A block of a type behind its first three bits, which end at a place; a dynamic block
    has at most `most` distance codes. -/
inductive Block (most : Nat) : (type place : Nat) → List UInt8 → List Bool → List UInt8 → Prop where
  | stored {place : Nat} {text data : List UInt8} {pad : List Bool} :
      pad.length = (8 - place % 8) % 8 → data.length < 65536 →
      Block most 0 place text
        (pad ++ (lowBits 16 data.length ++ (lowBits 16 (65535 - data.length) ++ bitsOf data)))
        (text ++ data)
  | fixed {place : Nat} {text text' : List UInt8} {bits : List Bool} :
      Tokens fixedLengths 288 fixedDistances 30 text bits text' → Block most 1 place text bits text'
  | dynamic {place n m k : Nat} {text text' : List UInt8} {codeLengths : Nat → Nat}
      {sizes : List Nat} {sizeBits bits : List Bool} : n < 30 → m < most → k < 16 →
      (∀ i, codeLengths i < 8) → (∀ i, i ∉ lengthOrder.take (k + 4) → codeLengths i = 0) →
      Lengths codeLengths 19 → Sizes codeLengths [] sizeBits sizes →
      sizes.length = n + 257 + (m + 1) → Lengths (fun i => sizes.getD i 0) (n + 257) →
      Lengths (fun i => sizes.getD (n + 257 + i) 0) (m + 1) →
      Tokens (fun i => sizes.getD i 0) (n + 257) (fun i => sizes.getD (n + 257 + i) 0) (m + 1)
        text bits text' →
      Block most 2 place text (lowBits 5 n ++ (lowBits 5 m ++ (lowBits 4 k ++
        (((lengthOrder.take (k + 4)).flatMap fun i => lowBits 3 (codeLengths i)) ++
          (sizeBits ++ bits))))) text'

/-- Blocks up to the last. -/
inductive Blocks (most : Nat) : (place : Nat) → List UInt8 → List Bool → List UInt8 → Prop where
  | last {place type : Nat} {text text' : List UInt8} {bits : List Bool} :
      Block most type (place + 3) text bits text' →
      Blocks most place text (true :: (lowBits 2 type ++ bits)) text'
  | cons {place type : Nat} {text text' text'' : List UInt8} {bits rest : List Bool} :
      Block most type (place + 3) text bits text' →
      Blocks most (place + 3 + bits.length) text' rest text'' →
      Blocks most place text (false :: (lowBits 2 type ++ (bits ++ rest))) text''

/-- Bytes whose bits begin with blocks, and the text of the blocks. -/
def Deflated (most : Nat) (bytes text : List UInt8) : Prop :=
  ∃ bits rest, bitsOf bytes = bits ++ rest ∧ Blocks most 0 [] bits text

end Deflate
