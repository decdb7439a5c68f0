import Antic.ConstWidths

/-! # The integer operations of a constant

    Two facts carry the operations.  Computed on the bits, an operation gives the number that its
    meaning gives at the width the constant is computed at (`constInteger_wide`).  And a result that
    fits the narrowest width is the result at every width (`runInteger_on`), but for the `-|` of
    `c_wchar` that stops at zero while `wchar_t` is signed. -/

namespace AnticConst

open AnticIr MachineInt

/-! ## The arithmetic reads the low bits -/

section Low

variable {n a b : Nat}

theorem arithExtend_low (v n : Nat) (isSigned : Bool) :
    arithExtend (v % 2 ^ n) n isSigned = arithExtend v n isSigned := by
  unfold arithExtend arithSigned
  rw [Nat.mod_mod]

theorem arithDirection_low (h : Narrow n ∨ n = 64) (ha : a < 2 ^ 64)
    (hb : b < 2 ^ 64) (op : ArithOp) (isSigned : Bool) :
    arithDirection op (a % 2 ^ n) (b % 2 ^ n) n isSigned =
      arithDirection op a b n isSigned := by
  rcases h with h | rfl
  · have hle := h.le
    have hn : n < 64 := by omega
    have hsigned (v : Nat) : arithSigned (v % 2 ^ n) n = arithSigned v n := signed_mod n v
    unfold arithDirection
    simp only [arithExtend_low, hsigned, if_pos hn]
  · rw [Nat.mod_eq_of_lt ha, Nat.mod_eq_of_lt hb]

theorem arithMulHigh_low (h : Narrow n ∨ n = 64) (ha : a < 2 ^ 64)
    (hb : b < 2 ^ 64) (isSigned : Bool) :
    arithMulHigh (a % 2 ^ n) (b % 2 ^ n) n isSigned =
      arithMulHigh a b n isSigned := by
  rcases h with h | rfl
  · have hle := h.le
    have hn : n < 64 := by omega
    unfold arithMulHigh
    simp only [arithExtend_low, if_pos hn]
  · rw [Nat.mod_eq_of_lt ha, Nat.mod_eq_of_lt hb]

theorem on64_modEq (hb : b < 2 ^ 64) (op : ArithOp) :
    (op.on64 a b : Int) ≡ op.onInt a b [ZMOD 2 ^ 64] := by
  cases op with
  | add =>
    show ((wrap64 (a + b) : Nat) : Int) ≡ (a : Int) + b [ZMOD 2 ^ 64]
    rw [wrap64, Int.natCast_mod, Nat.cast_add]
    exact Int.mod_modEq _ _
  | sub =>
    show ((sub64 a b : Nat) : Int) ≡ (a : Int) - b [ZMOD 2 ^ 64]
    rw [sub64_eq_bits hb, bits_cast]
    exact Int.mod_modEq _ _
  | mul =>
    show ((wrap64 (a * b) : Nat) : Int) ≡ (a : Int) * b [ZMOD 2 ^ 64]
    rw [wrap64, Int.natCast_mod, Nat.cast_mul]
    exact Int.mod_modEq _ _

theorem onInt_modEq {k : Nat} {x y x' y' : Int} (hx : x ≡ x' [ZMOD 2 ^ k])
    (hy : y ≡ y' [ZMOD 2 ^ k]) (op : ArithOp) :
    op.onInt x y ≡ op.onInt x' y' [ZMOD 2 ^ k] := by
  cases op with
  | add => exact hx.add hy
  | sub => exact hx.sub hy
  | mul => exact hx.mul hy

theorem constInteger_lt {op : BinaryOp} {t : IntType} (ha : a < 2 ^ 64)
    (hb : b < 2 ^ 64) : constInteger op t a b < 2 ^ 64 := by
  have hmod (v : Nat) : wrap64 v < 2 ^ 64 := Nat.mod_lt _ (by norm_num)
  have hbits : typesBits t ≤ 64 := by
    cases t <;> simp [typesBits]
  have hconst : constBits t ≤ 64 := constBits_le t
  have hdiv (v k : Nat) (hv : v < 2 ^ 64) : v / k < 2 ^ 64 :=
    lt_of_le_of_lt (Nat.div_le_self _ _) hv
  cases op with
  | plus | plusWrap | star | starWrap | shl => exact hmod _
  | minus | minusWrap => exact Nat.mod_lt _ (by norm_num)
  | plusSat | minusSat | starSat => exact arithSaturate_lt hconst _ _ _ _
  | mulHigh => exact arithMulHigh_lt hbits _ _ _
  | amp => exact lt_of_le_of_lt Nat.and_le_left ha
  | pipe => exact Nat.or_lt_two_pow ha hb
  | caret => exact Nat.xor_lt_two_pow ha hb
  | shlWrap =>
    unfold constInteger
    dsimp only
    split
    · norm_num
    · exact hmod _
  | slash =>
    unfold constInteger
    dsimp only
    split
    · exact bits_lt 64 _
    · exact hdiv _ _ ha
  | percent =>
    unfold constInteger
    dsimp only
    split
    · exact bits_lt 64 _
    · exact lt_of_le_of_lt (Nat.mod_le _ _) ha
  | shr =>
    unfold constInteger
    dsimp only
    split
    · split
      · exact lt_of_le_of_lt (Nat.sub_le _ _) (by norm_num)
      · exact hdiv _ _ ha
    · exact hdiv _ _ (lt_of_le_of_lt (Nat.mod_le _ _) ha)
  | eq | ne | lt | le | gt | ge | andAnd | orOr | questionQuestion => exact Nat.two_pow_pos 64

end Low

/-! ## Overflow and saturation of the bits of two numbers -/

section Bits

variable {t : IntType} {a b : Nat} {x y : Int}
variable (ha : Stands t a x) (hb : Stands t b y)

theorem wrap_of_mod {w : Width} {v : Nat} {z : Int}
    (h : v % 2 ^ w.bits = bits w.bits z) : w.wrap v = w.wrap z := by
  unfold Width.wrap
  rw [bits_natCast, h]

include ha in
/-- The low bits of the bits of a number, read at the width of its type. -/
theorem low_number : (if typesIsSigned t then signed (constBits t) (a % 2 ^ constBits t)
      else ((a % 2 ^ constBits t : Nat) : Int)) = x := by
  rw [ha.low (constBits_le t)]
  exact Width.wrap_of_holds (w := t.wide) (constBits_pos t) (narrow_wide ha.2)

include ha hb in
theorem exact_low (op : ArithOp) : op.exact (constBits t) (typesIsSigned t) (a % 2 ^ constBits t)
      (b % 2 ^ constBits t) = op.onInt x y := by
  have hx := low_number ha
  have hy := low_number hb
  unfold ArithOp.exact
  split
  · rename_i hs
    rw [if_pos hs] at hx hy
    rw [hx, hy]
  · rename_i hs
    rw [if_neg hs] at hx hy
    rw [hx, hy]

include ha hb in
/-- `arith_overflows` is clear where the range holds the exact result. -/
theorem arithDirection_zero (op : ArithOp) :
    arithDirection op a b (constBits t) (typesIsSigned t) = 0 ↔
      t.wide.Holds (op.onInt x y) := by
  have hlt (v : Nat) : v % 2 ^ constBits t < 2 ^ constBits t := Nat.mod_lt _ (by positivity)
  obtain ⟨hhigh, hlow⟩ := arithDirection_sides (constBits_cases t) (hlt a) (hlt b)
    op (typesIsSigned t)
  rw [arithDirection_low (constBits_cases t) ha.lt hb.lt, exact_low ha hb]
    at hhigh hlow
  show _ ↔ lowest (constBits t) (typesIsSigned t) ≤ _ ∧ _ ≤ highest (constBits t) (typesIsSigned t)
  omega

include ha hb in
/-- The operation where C wraps gives the bits of the exact result. -/
theorem wrap_on64 (op : ArithOp) :
    t.wide.wrap (op.on64 a b) = t.wide.wrap (op.onInt x y) :=
  Width.wrap_congr (modEq_of_le (constBits_le t)
    ((on64_modEq hb.lt op).trans (onInt_modEq ha.modEq hb.modEq op)))

include ha hb in
/-- `arith_saturate` gives the bits of the nearest number of the range. -/
theorem wrap_saturate (op : ArithOp) :
    t.wide.wrap (arithSaturate op a b (constBits t) (typesIsSigned t)) =
      t.wide.clamp (op.onInt x y) := by
  have hlt (v : Nat) : v % 2 ^ constBits t < 2 ^ constBits t := Nat.mod_lt _ (by positivity)
  have hd := arithDirection_low (constBits_cases t) ha.lt hb.lt op (typesIsSigned t)
  have hsat := arithSaturate_eq (constBits_cases t) (hlt a) (hlt b) op (typesIsSigned t)
  rw [exact_low ha hb] at hsat
  have hsame : arithSaturate op a b (constBits t) (typesIsSigned t) % 2 ^ constBits t =
        arithSaturate op (a % 2 ^ constBits t) (b % 2 ^ constBits t) (constBits t)
          (typesIsSigned t) % 2 ^ constBits t := by
    unfold arithSaturate
    rw [hd]
    dsimp only
    split
    · rfl
    · split
      · rfl
      · rw [extend_mod (constBits_le t), extend_mod (constBits_le t),
          on64_bits (constBits_le t) (hlt b) op (typesIsSigned t), exact_low ha hb,
          ← bits_natCast]
        exact bits_modEq (modEq_of_le (constBits_le t)
          ((on64_modEq hb.lt op).trans (onInt_modEq ha.modEq hb.modEq op)))
  rw [wrap_of_mod (w := t.wide) (hsame.trans hsat)]
  exact Width.wrap_of_holds (constBits_pos t) (Width.clamp_holds (constBits_pos t) _)

end Bits

/-! ## Operations that have a value -/

/-- What `reports_undefined` leaves through, on numbers. -/
structure Defined (op : BinaryOp) (t : IntType) (flags : Bool) (x y : Int) :
    Prop where
  divides : op = .slash ∨ op = .percent → y ≠ 0 ∧ t.narrow.Holds (x.tdiv y)
  shifts : op = .shl ∨ op = .shr → 0 ≤ y ∧ y < typesBits t
  count : op = .shlWrap → 0 ≤ y
  exact : ∀ sign, op.sign = some sign → flags = true ∨ t.wide.Holds (sign.onInt x y)

/-- The quotient of two numbers of a width lies in its range, but for the least one by -1. -/
theorem tdiv_holds {w : Width} (hw : 1 ≤ w.bits) {x y : Int} (hx : w.Holds x) (hy : w.Holds y)
    (hleast : ¬ (w.isSigned = true ∧ x = lowest w.bits true ∧ y = -1)) :
    w.Holds (x.tdiv y) := by
  obtain ⟨bits, isSigned⟩ := w
  have hmod : (x.tdiv y).natAbs = x.natAbs / y.natAbs := Int.natAbs_tdiv x y
  cases isSigned with
  | false =>
    have hx0 : 0 ≤ x := hx.1
    have hy0 : 0 ≤ y := hy.1
    have hle : x.tdiv y ≤ x := Int.tdiv_le_self y hx0
    exact ⟨Int.tdiv_nonneg hx0 hy0, hle.trans hx.2⟩
  | true =>
    have hlow : -2 ^ (bits - 1) ≤ x := hx.1
    have hhigh : x ≤ 2 ^ (bits - 1) - 1 := hx.2
    have hone : ¬ (x = -2 ^ (bits - 1) ∧ y = -1) := fun h => hleast ⟨rfl, h⟩
    show -2 ^ (bits - 1) ≤ x.tdiv y ∧ x.tdiv y ≤ 2 ^ (bits - 1) - 1
    generalize (2 : Int) ^ (bits - 1) = p at *
    rcases Nat.lt_or_ge 1 y.natAbs with hy | hy
    · -- A divisor past one halves the distance from zero.
      have hhalf : x.natAbs / y.natAbs ≤ x.natAbs / 2 := Nat.div_le_div_left hy (by norm_num)
      omega
    · have hy' : y = 0 ∨ y = 1 ∨ y = -1 := by omega
      rcases hy' with rfl | rfl | rfl
      · simp only [Int.tdiv_zero]
        omega
      · simp only [Int.tdiv_one]
        omega
      · have : x.tdiv (-1) = -x := by rw [Int.tdiv_neg, Int.tdiv_one]
        omega

theorem tmod_holds {w : Width} (hw : 1 ≤ w.bits) {x : Int} (y : Int)
    (hx : w.Holds x) : w.Holds (x.tmod y) := by
  have hzero := Width.holds_zero hw
  have habs : (x.tmod y).natAbs = x.natAbs % y.natAbs := Int.natAbs_tmod x y
  have hle := Nat.mod_le x.natAbs y.natAbs
  obtain ⟨h1, h2⟩ := hx
  obtain ⟨h3, h4⟩ := hzero
  rcases Int.le_total 0 x with h0 | h0
  · have := Int.tmod_nonneg y h0
    constructor <;> omega
  · have hneg : x.tmod y = -((-x).tmod y) := by rw [Int.neg_tmod, neg_neg]
    have := Int.tmod_nonneg y (show 0 ≤ -x by omega)
    constructor <;> omega

section Operations

variable {F : Type} {t : IntType} {a b : Nat} {x y : Int} {flags : Bool}
variable (ha : Stands t a x) (hb : Stands t b y)

include ha in
/-- The least value of the narrowest width, as `reports_undefined` finds it. -/
theorem least_iff (hs : typesIsSigned t = true) : a % 2 ^ typesBits t = 2 ^ (typesBits t - 1) ↔
      x = lowest (typesBits t) true := by
  have hlow := ha.low ((typesBits_le t).trans (constBits_le t))
  have hx : signed (typesBits t) (bits (typesBits t) x) = x := by
    have := Width.wrap_of_holds (w := t.narrow) (typesBits_pos t) ha.2
    simpa [Width.wrap, IntType.narrow, hs] using this
  rw [hlow, ← signed_eq_least (typesBits_pos t) (bits_lt _ _), hx]
  exact Iff.rfl

include ha in
theorem sign_iff (hs : typesIsSigned t = true) (z : Int) :
    arithSigned a 64 = z ↔ x = z := by
  rw [ha.signed hs]

include ha in
theorem zero_iff : a = 0 ↔ x = 0 := by
  constructor
  · rintro rfl
    have := ha.number
    unfold IntType.number at this
    rw [← this]
    split <;> rfl
  · rintro rfl
    exact ha.1

include ha hb in
/-- An operation that is not reported has a value at the narrowest width. -/
theorem defined_of {op : BinaryOp} {u v : Value F} (hu : u.integer = a) (hv : v.integer = b)
    (h : binaryUndefined op (.int t) flags u v = false) :
    Defined op t flags x y := by
  have hnarrow : ¬ (typesIsSigned t = true ∧ y < 0) → 0 ≤ y := by
    intro hneg
    cases hs : typesIsSigned t with
    | true =>
      by_contra hlt
      exact hneg ⟨hs, by omega⟩
    | false => exact (hb.unsigned hs) ▸ Int.natCast_nonneg b
  have hbelow : (typesIsSigned t = true ∧ arithSigned b 64 < 0) ↔
      (typesIsSigned t = true ∧ y < 0) := by
    constructor
    · rintro ⟨hs, hlt⟩
      exact ⟨hs, by rwa [hb.signed hs] at hlt⟩
    · rintro ⟨hs, hlt⟩
      exact ⟨hs, by rwa [hb.signed hs]⟩
  unfold binaryUndefined at h
  rw [hu, hv] at h
  simp only [hbelow] at h
  -- The tests in the order of the source.
  split at h
  · cases h
  rename_i hzero
  split at h
  · cases h
  rename_i hleast
  split at h
  · cases h
  rename_i hshift
  split at h
  · cases h
  rename_i hcount
  refine ⟨?_, ?_, ?_, ?_⟩
  · intro hop
    have hy : y ≠ 0 := fun hy => hzero ⟨hop, (zero_iff hb).mpr hy⟩
    refine ⟨hy, tdiv_holds (typesBits_pos t) ha.2 hb.2 ?_⟩
    rintro ⟨hs, hx, hy1⟩
    exact hleast ⟨hop, hs, (least_iff ha hs).mpr hx, (sign_iff hb hs _).mpr hy1⟩
  · intro hop
    have hnot := not_and.mp hshift hop
    have hlt : b < typesBits t := by
      by_contra hge
      exact hnot (Or.inr (by omega))
    have hy : 0 ≤ y := hnarrow fun hneg => hnot (Or.inl hneg)
    have := hb.nonneg hy
    exact ⟨hy, by omega⟩
  · intro hop
    exact hnarrow fun hneg => hcount ⟨hop, hneg⟩
  · intro sign hsign
    rw [hsign] at h
    cases flags with
    | true => exact Or.inl rfl
    | false =>
      refine Or.inr ((arithDirection_zero ha hb sign).mp ?_)
      simpa using h

theorem wrap_toBits64 {z : Int} (h : t.wide.Holds z) :
    t.wide.wrap (toBits64 z) = z := by
  rw [wrap_of_mod (w := t.wide) (toBits64_mod (constBits_le t) z)]
  exact Width.wrap_of_holds (constBits_pos t) h

include ha hb in
theorem wrap_bitwise {f : Nat → Nat → Nat}
    (hf : ∀ n a b : Nat, f a b % 2 ^ n = f (a % 2 ^ n) (b % 2 ^ n)) :
    t.wide.wrap (f a b) = t.wide.bitwise f x y := by
  have hn := constBits_le t
  unfold Width.bitwise
  refine Width.wrap_congr ?_
  show (f a b : Int) ≡ (f (bits (constBits t) x) (bits (constBits t) y) : Nat)
    [ZMOD 2 ^ constBits t]
  rw [← ha.low hn, ← hb.low hn, ← hf]
  push_cast
  exact (Int.mod_modEq _ _).symm

include ha hb in
theorem wrap_shift (hy : 0 ≤ y) :
    t.wide.wrap (wrap64 (a * 2 ^ b)) = t.wide.wrap (x * 2 ^ y.toNat) := by
  have hb' : y.toNat = b := by
    have := hb.nonneg hy
    omega
  rw [hb']
  refine Width.wrap_congr (modEq_of_le (constBits_le t) ?_)
  rw [wrap64, Int.natCast_mod, Nat.cast_mul, Nat.cast_pow]
  exact (Int.mod_modEq _ _).trans (ha.modEq.mul_right _)

/-- The complement of a shifted complement is the arithmetic shift. -/
theorem shift_complement {x : Int} (h1 : -2 ^ 63 ≤ x) (h2 : x < 2 ^ 63) (b : Nat) :
    (if bits 64 x / 2 ^ 63 ≠ 0 then
        2 ^ 64 - 1 - (2 ^ 64 - 1 - bits 64 x) / 2 ^ b
      else bits 64 x / 2 ^ b) = bits 64 (x / 2 ^ b) := by
  have hcast := bits_cast 64 x
  rcases lt_or_ge x 0 with hx | hx
  · have hne : bits 64 x / 2 ^ 63 ≠ 0 := by omega
    rw [if_pos hne]
    -- The complement is `-x - 1`, which shifts as a natural number.
    obtain ⟨m, hm⟩ : ∃ m : Nat, (m : Int) = -x - 1 := ⟨(-x - 1).toNat, by omega⟩
    have hcompl : 2 ^ 64 - 1 - bits 64 x = m := by omega
    have hle : m / 2 ^ b ≤ m := Nat.div_le_self _ _
    have hdiv : x / 2 ^ b = -((m / 2 ^ b : Nat) : Int) - 1 := by
      push_cast
      have hpos' : (0 : Int) < 2 ^ b := by positivity
      have hdm := Int.mul_ediv_add_emod (m : Int) (2 ^ b)
      have h0 := Int.emod_nonneg (m : Int) hpos'.ne'
      have hl := Int.emod_lt_of_pos (m : Int) hpos'
      rw [Int.ediv_eq_iff_of_pos hpos']
      constructor <;> nlinarith
    rw [hcompl, hdiv]
    symm
    have hlt : 2 ^ 64 - 1 - m / 2 ^ b < 2 ^ 64 := lt_of_le_of_lt (Nat.sub_le _ _) (by norm_num)
    have hm : m / 2 ^ b ≤ 2 ^ 64 - 1 := by omega
    refine (bits_eq_iff hlt).mpr ?_
    rw [Nat.cast_sub hm]
    refine Int.modEq_iff_dvd.mpr ⟨1, ?_⟩
    push_cast
    ring
  · have hbits : (bits 64 x : Int) = x := by
      omega
    have hzero : ¬ bits 64 x / 2 ^ 63 ≠ 0 := by omega
    rw [if_neg hzero]
    have hx' : x = ((bits 64 x : Nat) : Int) := hbits.symm
    have hcast' : x / 2 ^ b = ((bits 64 x / 2 ^ b : Nat) : Int) := by
      conv_lhs => rw [hx']
      push_cast
      rfl
    rw [hcast', bits_natCast, Nat.mod_eq_of_lt]
    exact lt_of_le_of_lt (Nat.div_le_self _ _) (bits_lt 64 x)

include ha hb in
theorem wrap_mulHigh (hfixed : typesIsTargetSized t = false) :
    t.wide.wrap (arithMulHigh a b (typesBits t) (typesIsSigned t)) =
      x * y / 2 ^ constBits t := by
  have hn : typesBits t = constBits t := by simp [constBits, hfixed]
  have hlt (v : Nat) : v % 2 ^ constBits t < 2 ^ constBits t := Nat.mod_lt _ (by positivity)
  have hpos := two_pow_pos (constBits t)
  have hpos' := two_pow_pos (constBits t - 1)
  have hx := low_number ha
  have hy := low_number hb
  rw [hn, ← arithMulHigh_low (constBits_cases t) ha.lt hb.lt]
  cases hs : typesIsSigned t with
  | true =>
    rw [hs, if_pos rfl] at hx hy
    have hhigh := arithMulHigh_signed (constBits_cases t) (hlt a) (hlt b)
    have hrange := product_range (k := constBits t - 1) (constBits_pos t) (by omega)
      (a % 2 ^ constBits t) (b % 2 ^ constBits t)
    rw [hx, hy] at hhigh hrange
    rw [wrap_of_mod (w := t.wide) hhigh]
    refine Width.wrap_of_holds (constBits_pos t) ?_
    -- The product is at most a quarter of the square of the width.
    have hpow : (2 : Int) ^ constBits t = 2 * 2 ^ (constBits t - 1) := by
      rw [← pow_succ', Nat.sub_add_cancel (constBits_pos t)]
    have hlow : -2 ^ (constBits t - 1) ≤ x * y / 2 ^ constBits t := by
      rw [Int.le_ediv_iff_mul_le hpos]
      nlinarith
    have htop : x * y / 2 ^ constBits t < 2 ^ (constBits t - 1) := by
      rw [Int.ediv_lt_iff_lt_mul hpos]
      nlinarith
    have hw : t.wide = ⟨constBits t, true⟩ := by rw [IntType.wide, hs]
    rw [hw]
    exact ⟨hlow, Int.le_sub_one_of_lt htop⟩
  | false =>
    rw [hs, if_neg (by simp)] at hx hy
    have hhigh := arithMulHigh_unsigned (constBits_cases t) (hlt a) (hlt b)
    have hcast : x * y / 2 ^ constBits t =
        (((a % 2 ^ constBits t) * (b % 2 ^ constBits t) / 2 ^ constBits t : Nat) : Int) := by
      rw [Int.natCast_div, Nat.cast_mul, hx, hy]
      push_cast
      rfl
    have htop := Nat.mod_lt (arithMulHigh (a % 2 ^ constBits t)
      (b % 2 ^ constBits t) (constBits t) false) (show 0 < 2 ^ constBits t by positivity)
    rw [hhigh] at htop
    have hmod := (bits_natCast (constBits t) _).trans (Nat.mod_eq_of_lt htop)
    rw [wrap_of_mod (w := t.wide) (hhigh.trans hmod.symm), ← hcast]
    refine Width.wrap_of_holds (constBits_pos t) ?_
    have hw : t.wide = ⟨constBits t, false⟩ := by rw [IntType.wide, hs]
    rw [hw, hcast]
    refine ⟨Int.natCast_nonneg _, Int.le_sub_one_of_lt ?_⟩
    exact_mod_cast htop

include ha hb in
theorem wrap_divide (hq : t.wide.Holds (x.tdiv y)) (hr : t.wide.Holds (x.tmod y)) :
    t.wide.wrap (constInteger .slash t a b) = x.tdiv y ∧
      t.wide.wrap (constInteger .percent t a b) = x.tmod y := by
  have hw := constBits_pos t
  unfold constInteger
  cases hs : typesIsSigned t with
  | true =>
    simp only [if_true]
    rw [ha.signed hs, hb.signed hs]
    exact ⟨wrap_toBits64 hq, wrap_toBits64 hr⟩
  | false =>
    simp only [Bool.false_eq_true, if_false]
    have hx := ha.unsigned hs
    have hy := hb.unsigned hs
    have hquot : x.tdiv y = ((a / b : Nat) : Int) := by
      rw [← hx, ← hy]
      exact Int.ofNat_tdiv a b |>.symm
    have hrem : x.tmod y = ((a % b : Nat) : Int) := by
      rw [← hx, ← hy]
      exact Int.ofNat_tmod a b |>.symm
    rw [← hquot, ← hrem]
    exact ⟨Width.wrap_of_holds hw hq, Width.wrap_of_holds hw hr⟩

theorem shift_holds {w : Width} (hw : 1 ≤ w.bits) (hx : w.Holds x) (k : Nat) :
    w.Holds (x / 2 ^ k) := by
  have hzero := Width.holds_zero hw
  have hpos : (0 : Int) < 2 ^ k := by positivity
  obtain ⟨h1, h2⟩ := hx
  obtain ⟨h3, h4⟩ := hzero
  rcases Int.le_total 0 x with h0 | h0
  · have hle := Int.ediv_le_self (2 ^ k) h0
    have hge := Int.ediv_nonneg h0 hpos.le
    constructor <;> omega
  · have hge : x ≤ x / 2 ^ k := by
      rw [Int.le_ediv_iff_mul_le hpos]
      nlinarith
    have hle : x / 2 ^ k ≤ 0 := Int.ediv_le_of_le_mul hpos (by omega)
    constructor <;> omega

include ha hb in
/-- The shift to the right, which copies the sign of a signed number. -/
theorem wrap_shiftRight (hy : 0 ≤ y) :
    t.wide.wrap (constInteger .shr t a b) = x / 2 ^ y.toNat := by
  have hb' : y.toNat = b := by
    have := hb.nonneg hy
    omega
  have hholds := shift_holds (constBits_pos t) (narrow_wide ha.2) b
  rw [hb']
  unfold constInteger
  cases hs : typesIsSigned t with
  | true =>
    have hrange := wide_range (narrow_wide ha.2)
    rw [if_pos hs] at hrange
    simp only [if_true]
    rw [ha.1, shift_complement hrange.1 hrange.2]
    exact wrap_toBits64 hholds
  | false =>
    simp only [Bool.false_eq_true, if_false]
    have hx := ha.unsigned hs
    have hlt : a < 2 ^ typesBits t := by
      have h2 : x ≤ highest (typesBits t) (typesIsSigned t) := ha.2.2
      rw [hs, ← hx] at h2
      simp only [highest, Bool.false_eq_true, if_false] at h2
      have h2' : (a : Int) < 2 ^ typesBits t := by omega
      exact_mod_cast h2'
    have hcast : ((a % 2 ^ typesBits t / 2 ^ b : Nat) : Int) = x / 2 ^ b := by
      rw [Nat.mod_eq_of_lt hlt, Int.natCast_div, hx]
      push_cast
      rfl
    rw [hcast]
    exact Width.wrap_of_holds (constBits_pos t) hholds

include ha hb in
/-- An operation on the bits gives the number of its meaning at the width the
    constant is computed at. -/
theorem constInteger_wide {op : BinaryOp} (hop : op.givesBool = false)
    (hvalue : op ≠ .questionQuestion)
    (hhigh : op = .mulHigh → typesIsTargetSized t = false)
    (hd : Defined op t flags x y) :
    runInteger t.wide op flags x y =
      some (t.wide.wrap (constInteger op t a b)) := by
  have hpos := constBits_pos t
  have hplain (sign : ArithOp) (hs : op.sign = some sign) : t.wide.plain flags (sign.onInt x y) =
        some (t.wide.wrap (sign.on64 a b)) := by
    rw [Width.plain_eq hpos (hd.exact sign hs), wrap_on64 ha hb]
  cases op with
  | plus => exact hplain .add rfl
  | minus => exact hplain .sub rfl
  | star => exact hplain .mul rfl
  | plusWrap => exact congrArg some (wrap_on64 ha hb .add).symm
  | minusWrap => exact congrArg some (wrap_on64 ha hb .sub).symm
  | starWrap => exact congrArg some (wrap_on64 ha hb .mul).symm
  | plusSat => exact congrArg some (wrap_saturate ha hb .add).symm
  | minusSat => exact congrArg some (wrap_saturate ha hb .sub).symm
  | starSat => exact congrArg some (wrap_saturate ha hb .mul).symm
  | mulHigh => exact congrArg some (wrap_mulHigh ha hb (hhigh rfl)).symm
  | slash =>
    obtain ⟨hy, hq⟩ := hd.divides (Or.inl rfl)
    have hr := tmod_holds hpos y (narrow_wide ha.2)
    rw [(wrap_divide ha hb (narrow_wide hq) hr).1]
    exact if_neg (by simp [hy, narrow_wide hq])
  | percent =>
    obtain ⟨hy, hq⟩ := hd.divides (Or.inr rfl)
    have hr := tmod_holds hpos y (narrow_wide ha.2)
    rw [(wrap_divide ha hb (narrow_wide hq) hr).2]
    exact if_neg (by simp [hy, narrow_wide hq])
  | amp => exact congrArg some (wrap_bitwise ha hb fun n a b => Nat.and_mod_two_pow).symm
  | pipe => exact congrArg some (wrap_bitwise ha hb fun n a b => Nat.or_mod_two_pow).symm
  | caret => exact congrArg some (wrap_bitwise ha hb fun n a b => Nat.xor_mod_two_pow).symm
  | shl =>
    obtain ⟨hy, hlt⟩ := hd.shifts (Or.inl rfl)
    have hle : (typesBits t : Int) ≤ constBits t := by exact_mod_cast typesBits_le t
    show (if 0 ≤ y ∧ y < constBits t then _ else _) = _
    rw [if_pos ⟨hy, by omega⟩]
    exact congrArg some (wrap_shift ha hb hy).symm
  | shlWrap =>
    have hy := hd.count rfl
    have hb' := hb.nonneg hy
    show (if y < 0 then none else if y < constBits t then _ else _) = _
    rw [if_neg (by omega)]
    unfold constInteger
    by_cases hlt : y < constBits t
    · rw [if_pos hlt, if_neg (by omega), wrap_shift ha hb hy]
    · rw [if_neg hlt, if_pos (by omega)]
      exact congrArg some (Width.wrap_of_holds hpos (Width.holds_zero hpos)).symm
  | shr =>
    obtain ⟨hy, hlt⟩ := hd.shifts (Or.inr rfl)
    have hle : (typesBits t : Int) ≤ constBits t := by exact_mod_cast typesBits_le t
    show (if 0 ≤ y ∧ y < constBits t then _ else _) = _
    rw [if_pos ⟨hy, by omega⟩]
    exact congrArg some (wrap_shiftRight ha hb hy).symm
  | eq | ne | lt | le | gt | ge | andAnd | orOr => cases hop
  | questionQuestion => exact absurd rfl hvalue

end Operations

/-! ## One value on every target -/

section Targets

variable {t : IntType} {x y z e : Int} {flags : Bool} {target : Target}

/-- A remainder that fits the narrowest width is the remainder at every width. -/
theorem wrap_on (hz : t.wide.wrap e = z) (hfits : t.narrow.Holds z) : (t.on target).wrap e = z := by
  refine Width.wrap_eq (on_pos t target) (narrow_on hfits target) ?_
  have := Width.wrap_modEq t.wide e
  rw [hz] at this
  exact (modEq_of_le (on_bits t target).2 this).symm

theorem plain_on (hz : t.wide.plain flags e = some z) (hfits : t.narrow.Holds z) :
    (t.on target).plain flags e = some z := by
  unfold Width.plain at hz
  split at hz
  · rename_i he
    have hez : e = z := Option.some.inj hz
    subst hez
    exact if_pos (narrow_on hfits target)
  · rename_i he
    split at hz
    · rename_i hflags
      have hwrap : (t.on target).wrap e = z := wrap_on (Option.some.inj hz) hfits
      rw [Width.plain_eq (on_pos t target) (Or.inl hflags), hwrap]
    · cases hz

/-- A clamped result inside the narrowest range is clamped alike at every
    width, but below zero where `c_wchar` is signed. -/
theorem clamp_on (hz : t.wide.clamp e = z) (hfits : t.narrow.Holds z)
    (hbelow : ¬ (t = .cwchar ∧ target.wcharSigned = true ∧ e < 0)) :
    (t.on target).clamp e = z := by
  by_cases he : t.wide.Holds e
  · rw [Width.clamp_of_holds he] at hz
    subst hz
    exact Width.clamp_of_holds (narrow_on hfits target)
  have hend : (z = highest (constBits t) (typesIsSigned t) ∧ z < e) ∨
      (z = lowest (constBits t) (typesIsSigned t) ∧ e < z) := by
    have hends := Width.clamp_ends he
    rw [hz] at hends
    exact hends.imp (fun h => ⟨h.1, by rw [h.1]; exact h.2⟩)
      (fun h => ⟨h.1, by rw [h.1]; exact h.2⟩)
  rcases on_signed t target with hs | ⟨rfl, hsigned, hon⟩
  · -- The ends of the ranges from the narrow to the wide one are at `z`.
    have hbits := on_bits t target
    have hlow := lowest_anti hbits.1 (typesIsSigned t)
    have hlow' := lowest_anti hbits.2 (typesIsSigned t)
    have hhigh := highest_mono hbits.1 (typesIsSigned t)
    have hhigh' := highest_mono hbits.2 (typesIsSigned t)
    obtain ⟨h1, h2⟩ := hfits
    simp only [IntType.narrow] at h1 h2
    simp only [Width.clamp, MachineInt.clamp, hs]
    split
    · omega
    · split <;> omega
  · obtain ⟨h1, h2⟩ := hfits
    norm_num [IntType.narrow, lowest, highest, typesBits, typesIsSigned] at h1 h2
    rcases hend with ⟨hz, -⟩ | ⟨hz, hlt⟩
    · norm_num [highest, constBits, typesIsSigned, typesIsTargetSized] at hz
      omega
    · norm_num [lowest, constBits, typesIsSigned, typesIsTargetSized] at hz
      exact absurd ⟨rfl, hsigned, by omega⟩ hbelow

theorem shift_on {k : Nat} (hz : t.wide.wrap (x * 2 ^ k) = z)
    (hfits : t.narrow.Holds z) (hk : (t.on target).bits ≤ k) : z = 0 := by
  have hzero : (t.on target).wrap (x * 2 ^ k) = 0 := by
    refine Width.wrap_eq (on_pos t target) (Width.holds_zero (on_pos t target)) ?_
    exact Int.modEq_zero_iff_dvd.mpr (Dvd.dvd.mul_left (pow_dvd_pow 2 hk) x)
  have hwrap : (t.on target).wrap (x * 2 ^ k) = z := wrap_on hz hfits
  rw [← hwrap, hzero]

/-- A result that fits the narrowest width is the result on every target. -/
theorem runInteger_on {op : BinaryOp} (hd : Defined op t flags x y)
    (hx : t.narrow.Holds x) (hy : t.narrow.Holds y)
    (hhigh : op = .mulHigh → typesIsTargetSized t = false)
    (hborrow : ¬ (op = .minusSat ∧ t = .cwchar ∧ target.wcharSigned = true ∧ x < y))
    (hz : runInteger t.wide op flags x y = some z) (hfits : t.narrow.Holds z) :
    runInteger (t.on target) op flags x y = some z := by
  have hbits := on_bits t target
  have hwrap {e : Int} (he : some (t.wide.wrap e) = some z) :
      some ((t.on target).wrap e) = some z :=
    congrArg some (wrap_on (Option.some.inj he) hfits)
  have hbitwise {f : Nat → Nat → Nat}
      (hf : ∀ n a b : Nat, f a b % 2 ^ n = f (a % 2 ^ n) (b % 2 ^ n))
      (he : some (t.wide.bitwise f x y) = some z) :
      some ((t.on target).bitwise f x y) = some z := by
    rw [← hwrap he]
    refine congrArg some (Width.wrap_congr ?_)
    rw [← bits_mod_of_le (z := x) hbits.2, ← bits_mod_of_le (z := y) hbits.2, ← hf]
    push_cast
    exact Int.mod_modEq _ _
  have hdivide (he : t.narrow.Holds (x.tdiv y) ∧ y ≠ 0) {v : Int}
      (hv : (if y = 0 ∨ ¬ t.wide.Holds (x.tdiv y) then none else some v) = some z) :
      (if y = 0 ∨ ¬ (t.on target).Holds (x.tdiv y) then none else some v) = some z := by
    rw [if_neg (by simp [he.2, narrow_wide he.1])] at hv
    rw [if_neg (by simp [he.2, narrow_on he.1 target]), hv]
  cases op with
  | plus | minus | star => exact plain_on hz hfits
  | plusWrap | minusWrap | starWrap => exact hwrap hz
  | plusSat | starSat =>
    refine congrArg some (clamp_on (Option.some.inj hz) hfits ?_)
    -- The numbers of `c_wchar` are not negative, so neither is the result.
    rintro ⟨rfl, -, hlt⟩
    have hx0 : 0 ≤ x := hx.1
    have hy0 : 0 ≤ y := hy.1
    first
      | exact absurd hlt (by omega)
      | exact absurd hlt (by have := Int.mul_nonneg hx0 hy0; omega)
  | minusSat =>
    refine congrArg some (clamp_on (Option.some.inj hz) hfits ?_)
    rintro ⟨rfl, hsigned, hlt⟩
    exact hborrow ⟨rfl, rfl, hsigned, by omega⟩
  | mulHigh =>
    rw [on_fixed (hhigh rfl)]
    exact hz
  | slash =>
    obtain ⟨hne, hq⟩ := hd.divides (Or.inl rfl)
    exact hdivide ⟨hq, hne⟩ hz
  | percent =>
    obtain ⟨hne, hq⟩ := hd.divides (Or.inr rfl)
    exact hdivide ⟨hq, hne⟩ hz
  | amp => exact hbitwise (fun n a b => Nat.and_mod_two_pow) hz
  | pipe => exact hbitwise (fun n a b => Nat.or_mod_two_pow) hz
  | caret => exact hbitwise (fun n a b => Nat.xor_mod_two_pow) hz
  | shl =>
    obtain ⟨hy0, hlt⟩ := hd.shifts (Or.inl rfl)
    change (if 0 ≤ y ∧ y < constBits t then _ else none) = some z at hz
    change (if 0 ≤ y ∧ y < (t.on target).bits then _ else none) = some z
    rw [if_pos ⟨hy0, by omega⟩] at hz ⊢
    exact hwrap hz
  | shlWrap =>
    have hy0 := hd.count rfl
    change (if y < 0 then none else if y < constBits t then _ else some 0) = some z at hz
    change (if y < 0 then none else if y < (t.on target).bits then _ else some 0) = some z
    rw [if_neg (by omega)] at hz ⊢
    split at hz
    · rename_i hlt
      by_cases hon : y < (t.on target).bits
      · rw [if_pos hon]
        exact hwrap hz
      · -- Past the width of the target the bits that are left are none.
        have hpast : (t.on target).bits ≤ y.toNat := by omega
        rw [if_neg hon, shift_on (Option.some.inj hz) hfits hpast]
    · rename_i hge
      have hge' : ¬ y < (t.on target).bits := by
        omega
      rw [if_neg hge']
      exact hz
  | shr =>
    obtain ⟨hy0, hlt⟩ := hd.shifts (Or.inr rfl)
    change (if 0 ≤ y ∧ y < constBits t then _ else none) = some z at hz
    change (if 0 ≤ y ∧ y < (t.on target).bits then _ else none) = some z
    rw [if_pos ⟨hy0, by omega⟩] at hz ⊢
    exact hz
  | eq | ne | lt | le | gt | ge | andAnd | orOr | questionQuestion => cases hz

end Targets

end AnticConst
