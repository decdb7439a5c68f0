import Antic.Ascii
import Mathlib.Data.List.Basic

/-! # The grammar of JSON over bytes

    A JSON text is its bytes, and a byte from `0x80` on stands for itself in a string.
    The rules of strings, values and their lists relate the bytes where they begin to the
    bytes that are left behind them.

    * `Chars`, `Str` — a string and the bytes that it decodes to.
    * `NumberText`, `IntegerText` — a number, and the value of one without a fraction and
      an exponent.
    * `Value` — a value in which objects and arrays nest at most so deep.
    * `JsonText` — one value with white space around it. -/

namespace AnticJson

export Ascii (isDigit comma openBracket closeBracket openBrace closeBrace)

/-- The bytes of a text. -/
abbrev Bytes := List UInt8

/-! ## Bytes -/

def quote : UInt8 := 34
def plusSign : UInt8 := 43
def minusSign : UInt8 := 45
def point : UInt8 := 46
def slash : UInt8 := 47
def zero : UInt8 := 48
def colon : UInt8 := 58
def backslash : UInt8 := 92

/-- White space: a blank, a tab, a line feed, a carriage return. -/
def isWs (c : UInt8) : Bool := c == 32 || c == 9 || c == 10 || c == 13

/-- The exponent of a number begins here. -/
def isExp (c : UInt8) : Bool := c == 101 || c == 69

/-- The value of a hexadecimal digit. -/
def hexValue (c : UInt8) : Option Nat :=
  if isDigit c then some (c.toNat - 48)
  else if 97 ≤ c && c ≤ 102 then some (c.toNat - 97 + 10)
  else if 65 ≤ c && c ≤ 70 then some (c.toNat - 65 + 10)
  else none

/-! ## Numbers -/

structure Digits (t : Bytes) : Prop where
  some : t ≠ []
  digits : ∀ c ∈ t, isDigit c = true

/-- `[ minus ]`. -/
inductive Minus : Bytes → Prop where
  | no : Minus []
  | yes : Minus [minusSign]

/-- `int`: a zero alone, or digits that begin with another. -/
inductive IntPart : Bytes → Prop where
  | zero : IntPart [zero]
  | digits {t : Bytes} : Digits t → t.head? ≠ some zero → IntPart t

/-- `[ frac ]`. -/
inductive FracPart : Bytes → Prop where
  | no : FracPart []
  | yes {t : Bytes} : Digits t → FracPart (point :: t)

/-- `[ exp ]`. -/
inductive ExpPart : Bytes → Prop where
  | no : ExpPart []
  | unsigned {c : UInt8} {t : Bytes} : isExp c = true → Digits t → ExpPart (c :: t)
  | signed {c s : UInt8} {t : Bytes} : isExp c = true → s = plusSign ∨ s = minusSign →
      Digits t → ExpPart (c :: s :: t)

/-- `number`. -/
def NumberText (t : Bytes) : Prop :=
  ∃ m i f e, Minus m ∧ IntPart i ∧ FracPart f ∧ ExpPart e ∧ t = m ++ (i ++ (f ++ e))

/-- The value of digits. -/
def digitsValue (t : Bytes) : Nat := t.foldl (fun v c => v * 10 + (c.toNat - 48)) 0

/-- A number without a fraction and an exponent, and its value. -/
def IntegerText (t : Bytes) (v : Int) : Prop :=
  ∃ m i, Minus m ∧ IntPart i ∧ t = m ++ i ∧
    v = if m = [] then (digitsValue i : Int) else -(digitsValue i : Int)

/-! ## Strings -/

/-- The byte after a backslash, and the byte that the two stand for. -/
inductive Escape : UInt8 → UInt8 → Prop where
  | quote : Escape quote quote
  | backslash : Escape backslash backslash
  | slash : Escape slash slash
  | backspace : Escape 98 8
  | formFeed : Escape 102 12
  | lineFeed : Escape 110 10
  | carriageReturn : Escape 114 13
  | tab : Escape 116 9

/-- Four hexadecimal digits, and the code that they write. -/
inductive Hex4 : Bytes → Nat → Prop where
  | intro {a b c d : UInt8} {w x y z : Nat} : hexValue a = some w → hexValue b = some x →
      hexValue c = some y → hexValue d = some z →
      Hex4 [a, b, c, d] (((w * 16 + x) * 16 + y) * 16 + z)

/-- A code that is half of a surrogate pair. -/
def isSurrogate (code : Nat) : Bool := 0xD800 ≤ code && code ≤ 0xDFFF

/-- The characters of a string up to its closing quote: where they begin, the bytes they
    decode to, and what comes after the quote. -/
inductive Chars : Bytes → Bytes → Bytes → Prop where
  | close {t : Bytes} : Chars (quote :: t) [] t
  | plain {c : UInt8} {s d t : Bytes} : 0x20 ≤ c → c ≠ quote → c ≠ backslash → Chars s d t →
      Chars (c :: s) (c :: d) t
  | escape {c e : UInt8} {s d t : Bytes} : Escape c e → Chars s d t →
      Chars (backslash :: c :: s) (e :: d) t
  | unicode {h s d t : Bytes} {code : Nat} : Hex4 h code → isSurrogate code = false → Chars s d t →
      Chars (backslash :: 117 :: (h ++ s)) (String.utf8EncodeChar (Char.ofNat code) ++ d) t

/-- `string`. -/
inductive Str : Bytes → Bytes → Bytes → Prop where
  | intro {s d t : Bytes} : Chars s d t → Str (quote :: s) d t

/-! ## Values -/

/-- `ws`. -/
inductive Ws : Bytes → Bytes → Prop where
  | nil {t : Bytes} : Ws t t
  | cons {c : UInt8} {s t : Bytes} : isWs c = true → Ws s t → Ws (c :: s) t

/-- `true`, `false` and `null`. -/
def words : List Bytes := [[116, 114, 117, 101], [102, 97, 108, 115, 101], [110, 117, 108, 108]]

/-- A member of an object: its decoded key, and the bytes from its value on and those
    behind the value. -/
structure Member where
  key : Bytes
  value : Bytes
  behind : Bytes

mutual

/-- `value`, in which objects and arrays nest at most `n` deep. -/
inductive Value : Nat → Bytes → Bytes → Prop where
  | string {n : Nat} {s d t : Bytes} : Str s d t → Value n s t
  | word {n : Nat} {w t : Bytes} : w ∈ words → Value n (w ++ t) t
  | number {n : Nat} {p t : Bytes} : NumberText p → Value n (p ++ t) t
  | emptyObject {n : Nat} {s t : Bytes} : Ws s (closeBrace :: t) → Value n (openBrace :: s) t
  | object {n : Nat} {s t : Bytes} {ms : List Member} : Members n s ms (closeBrace :: t) →
      Value (n + 1) (openBrace :: s) t
  | emptyArray {n : Nat} {s t : Bytes} : Ws s (closeBracket :: t) → Value n (openBracket :: s) t
  | array {n : Nat} {s t : Bytes} : Elements n s (closeBracket :: t) →
      Value (n + 1) (openBracket :: s) t

/-- `member *( value-separator member )`, with white space around each. -/
inductive Members : Nat → Bytes → List Member → Bytes → Prop where
  | last {n : Nat} {s s₁ s₂ s₃ s₄ s₅ k t : Bytes} : Ws s s₁ → Str s₁ k s₂ →
      Ws s₂ (colon :: s₃) → Ws s₃ s₄ → Value n s₄ s₅ → Ws s₅ t →
      Members n s [⟨k, s₄, s₅⟩] t
  | cons {n : Nat} {s s₁ s₂ s₃ s₄ s₅ s₆ k t : Bytes} {ms : List Member} : Ws s s₁ →
      Str s₁ k s₂ → Ws s₂ (colon :: s₃) → Ws s₃ s₄ → Value n s₄ s₅ → Ws s₅ (comma :: s₆) →
      Members n s₆ ms t → Members n s (⟨k, s₄, s₅⟩ :: ms) t

/-- `value *( value-separator value )`, with white space around each. -/
inductive Elements : Nat → Bytes → Bytes → Prop where
  | last {n : Nat} {s s₁ s₂ t : Bytes} : Ws s s₁ → Value n s₁ s₂ → Ws s₂ t → Elements n s t
  | cons {n : Nat} {s s₁ s₂ s₃ t : Bytes} : Ws s s₁ → Value n s₁ s₂ → Ws s₂ (comma :: s₃) →
      Elements n s₃ t → Elements n s t

end

/-- `JSON-text`, whose objects and arrays nest at most `n` deep below the first. -/
def JsonText (n : Nat) (t : Bytes) : Prop := ∃ s₁ s₂, Ws t s₁ ∧ Value n s₁ s₂ ∧ Ws s₂ []

/-- A text that is one object, and its members. -/
inductive ObjectText (n : Nat) : Bytes → List Member → Prop where
  | empty {t s₁ s₂ : Bytes} : Ws t (openBrace :: s₁) → Ws s₁ (closeBrace :: s₂) → Ws s₂ [] →
      ObjectText n t []
  | members {t s₁ s₂ : Bytes} {ms : List Member} {m : Nat} : Ws t (openBrace :: s₁) →
      n = m + 1 → Members m s₁ ms (closeBrace :: s₂) → Ws s₂ [] → ObjectText n t ms

end AnticJson
