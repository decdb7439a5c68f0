import Antic.Ascii
import Mathlib.Data.List.Basic

/-! # Names, versions and constraints — `manifest.c`, `deps.c`

    A text is its bytes, without the NUL at its end. -/

namespace AnticDeps

open List

export Ascii (isDigit)

/-- The bytes of a C string. -/
abbrev Text := List UInt8

/-- The bytes of a literal of the source. -/
def bytesOf (s : String) : Text := s.toList.map fun c => UInt8.ofNat c.toNat

def isLower (c : UInt8) : Bool := 97 ≤ c && c ≤ 122

/-- The byte `.`. -/
def dot : UInt8 := 46

/-- The byte `_`. -/
def underscore : UInt8 := 95

/-! ## The grammar of names, versions and digests -/

/-- `manifest_name_valid`, at the start of a segment or in it. -/
def nameFrom : (start : Bool) → Text → Bool
  | true, [] => false
  | true, c :: rest => if isLower c || c == underscore then nameFrom false rest else false
  | false, [] => true
  | false, c :: rest =>
    if isLower c || isDigit c || c == underscore then nameFrom false rest
    else if c == dot then nameFrom true rest
    else false

/-- `manifest_name_valid`. -/
def nameValid (name : Text) : Bool := nameFrom true name

/-- `MANIFEST_VERSION_DIGITS`. -/
def versionDigits : Nat := 9

/-- `manifest_version_valid`, after `parts` whole parts and `digits` digits. -/
def versionFrom : (parts digits : Nat) → Text → Bool
  | _, digits, [] => !(digits == 0 || versionDigits < digits)
  | parts, digits, c :: rest =>
    if isDigit c then versionFrom parts (digits + 1) rest
    else if digits == 0 || versionDigits < digits then false
    else if c != dot || parts + 1 == 3 then false
    else versionFrom (parts + 1) 0 rest

/-- `manifest_version_valid`. -/
def versionValid (version : Text) : Bool := versionFrom 0 0 version

/-- `manifest_digest_valid`. -/
def digestValid (digest : Text) : Bool :=
  digest.length == 64 && digest.all fun c => isDigit c || 97 ≤ c && c ≤ 102

/-! ## Versions -/

/-- `DEPS_VERSION_PART_MAX`. -/
def versionPartMax : Nat := 999999999

/-- The loop of `version_part`. -/
def partDigits : Nat → Text → Nat × Text
  | value, [] => (value, [])
  | value, c :: rest =>
    if isDigit c then
      partDigits (if value ≤ versionPartMax then value * 10 + (c.toNat - 48) else value) rest
    else (value, c :: rest)

/-- `version_part`: one part, and where the next part starts. -/
def versionPart (p : Text) : Nat × Text :=
  let (value, rest) := partDigits 0 p
  (if versionPartMax < value then versionPartMax + 1 else value,
    match rest with
    | [] => []
    | c :: rest => if c == dot then rest else c :: rest)

/-- The loop of `deps_version_compare`, with `n` parts left. -/
def compareParts : Nat → Text → Text → Int
  | 0, _, _ => 0
  | n + 1, a, b =>
    if (versionPart a).1 ≠ (versionPart b).1 then
      if (versionPart a).1 < (versionPart b).1 then -1 else 1
    else compareParts n (versionPart a).2 (versionPart b).2

/-- `deps_version_compare`. -/
def versionCompare (a b : Text) : Int := compareParts 3 a b

/-- The digits of a number. -/
def decimal (n : Nat) : Text := (Nat.toDigits 10 n).map fun c => UInt8.ofNat c.toNat

/-- `next_major`. -/
def nextMajor (version : Text) : Text := decimal ((versionPart version).1 + 1) ++ [dot, 48, dot, 48]

/-- The three forms of a constraint, told apart by their first bytes. -/
inductive Form where
  | exact (version : Text)
  | atLeast (version : Text)
  | bare (version : Text)

def formOf : Text → Form
  | 61 :: rest => .exact rest
  | 62 :: 61 :: rest => .atLeast rest
  | constraint => .bare constraint

/-- `deps_constraint_valid`. -/
def constraintValid (constraint : Text) : Bool :=
  match formOf constraint with
  | .exact version | .atLeast version | .bare version => versionValid version

/-- `deps_satisfies`. -/
def satisfies (constraint version : Text) : Bool :=
  if !versionValid version then false
  else if constraint.isEmpty then true
  else if !constraintValid constraint then false
  else
    match formOf constraint with
    | .exact bound => versionCompare version bound == 0
    | .atLeast bound => 0 ≤ versionCompare version bound
    | .bare bound =>
      0 ≤ versionCompare version bound && versionCompare version (nextMajor bound) < 0

/-! ## The digits of a number -/

theorem digitByte {d : Nat} (h : d < 10) :
    UInt8.ofNat (Nat.digitChar d).toNat = UInt8.ofNat (48 + d) := by
  rw [Nat.toNat_digitChar_of_lt_ten h]

theorem decimal_of_lt {n : Nat} (h : n < 10) : decimal n = [UInt8.ofNat (48 + n)] := by
  rw [decimal, Nat.toDigits_of_lt_base h, map_singleton, digitByte h]

theorem decimal_of_le {n : Nat} (h : 10 ≤ n) :
    decimal n = decimal (n / 10) ++ [UInt8.ofNat (48 + n % 10)] := by
  rw [decimal, Nat.toDigits_of_base_le (by omega) h, map_append, map_singleton,
    digitByte (Nat.mod_lt n (by omega))]
  rfl
theorem toNat_digit {d : Nat} (h : d < 10) : (UInt8.ofNat (48 + d)).toNat = 48 + d := by
  rw [UInt8.toNat_ofNat']
  omega

theorem isDigit_digit {d : Nat} (h : d < 10) : isDigit (UInt8.ofNat (48 + d)) = true := by
  simp only [isDigit, Bool.and_eq_true, decide_eq_true_eq, UInt8.le_iff_toNat_le, toNat_digit h]
  constructor
  · exact Nat.le_add_right 48 d
  · change 48 + d ≤ 57
    omega

theorem decimal_ne_nil (n : Nat) : decimal n ≠ [] := by
  simp [decimal]

theorem isDigit_of_mem_decimal (n : Nat) : ∀ c ∈ decimal n, isDigit c = true := by
  induction n using Nat.strongRecOn with
  | ind n ih =>
    intro c hc
    rcases Nat.lt_or_ge n 10 with h | h
    · rw [decimal_of_lt h] at hc
      rw [mem_singleton.mp hc]
      exact isDigit_digit h
    · rw [decimal_of_le h] at hc
      rcases mem_append.mp hc with hc | hc
      · exact ih (n / 10) (by omega) c hc
      · rw [mem_singleton.mp hc]
        exact isDigit_digit (Nat.mod_lt n (by omega))

/-- **The digits of a number give it back.** -/
theorem decimal_value (n : Nat) :
    (decimal n).foldl (fun value c => value * 10 + (c.toNat - 48)) 0 = n := by
  induction n using Nat.strongRecOn with
  | ind n ih =>
    rcases Nat.lt_or_ge n 10 with h | h
    · rw [decimal_of_lt h, foldl_cons, foldl_nil, toNat_digit h]
      omega
    · rw [decimal_of_le h, foldl_append, ih (n / 10) (by omega), foldl_cons,
        foldl_nil, toNat_digit (Nat.mod_lt n (by omega))]
      omega

/-! ## The order of versions -/

theorem compareParts_self (n : Nat) (a : Text) : compareParts n a a = 0 := by
  induction n generalizing a with
  | zero => rfl
  | succ n ih =>
    rw [compareParts, if_neg (by simp)]
    exact ih _

theorem compareParts_trans : ∀ (n : Nat) {a b c : Text},
    compareParts n a b ≤ 0 → compareParts n b c ≤ 0 → compareParts n a c ≤ 0 := by
  intro n
  induction n with
  | zero => exact fun _ _ => Int.le_refl 0
  | succ n ih =>
    intro a b c hab hbc
    simp only [compareParts] at hab hbc ⊢
    by_cases h1 : (versionPart a).1 = (versionPart b).1
    · rw [if_neg (not_not.2 h1)] at hab
      by_cases h2 : (versionPart b).1 = (versionPart c).1
      · rw [if_neg (not_not.2 h2)] at hbc
        rw [if_neg (not_not.2 (h1.trans h2))]
        exact ih hab hbc
      · rw [if_pos h2] at hbc
        rw [h1, if_pos h2]
        exact hbc
    · omega

theorem versionCompare_self (a : Text) : versionCompare a a = 0 := compareParts_self 3 a

theorem versionCompare_trans {a b c : Text} (hab : versionCompare a b ≤ 0)
    (hbc : versionCompare b c ≤ 0) : versionCompare a c ≤ 0 :=
  compareParts_trans 3 hab hbc

theorem compareParts_swap : ∀ (n : Nat) {a b : Text}, 0 < compareParts n a b →
    compareParts n b a ≤ 0 := by
  intro n
  induction n with
  | zero => exact fun h => absurd h (Int.lt_irrefl 0)
  | succ n ih =>
    intro a b h
    simp only [compareParts] at h ⊢
    by_cases heq : (versionPart a).1 = (versionPart b).1
    · rw [if_neg (not_not.2 heq)] at h
      rw [if_neg (not_not.2 heq.symm)]
      exact ih h
    · by_cases hlt : (versionPart a).1 < (versionPart b).1
      · omega
      · omega

end AnticDeps
