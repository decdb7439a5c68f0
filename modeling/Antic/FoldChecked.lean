import Antic.CIntegers
import Antic.IrArith

/-! # The fold with the undefined operations of C — `arith.c` and `ir_fold.c`

    The functions of `IrFold` once more, each operation as C defines it: `none` is a
    signed result that overflows, a conversion that the compiler chooses, a shift by
    the width or more or a division by 0.  None of these is reached, and the values
    are those of `IrFold` (`irFoldIntChecked_eq`). -/

namespace AnticIr

open MachineInt CInteger Option

/-! ## The functions -/

/-- `extend`. -/
def extendChecked (v n : Nat) (isSigned : Bool) : Option Nat :=
  if n = 64 then some v
  else
    (shiftLeft 1 n).bind fun bit =>
      (shiftLeft 1 (n - 1)).map fun sign =>
        let v := v &&& (bit - 1)
        if isSigned then sub64 (v ^^^ sign) sign else v

/-- `arith_signed`. -/
def arithSignedChecked (v n : Nat) : Option Int :=
  (extendChecked v n true).bind fun x =>
    if x ≤ 2 ^ 63 - 1 then toSigned x
    else
      (toSigned (complement x)).bind fun y => (int64 (-y)).bind fun z => int64 (z - 1)

/-- `arith_shift_right`. -/
def arithShiftRightChecked (a : Int) (k : Nat) : Option Int :=
  if a < 0 then
    (shiftRight (complement (toBits64 a)) k).bind fun q =>
      (toSigned q).bind fun y => (int64 (-y)).bind fun z => int64 (z - 1)
  else (shiftRight (toBits64 a) k).bind toSigned

/-- `arith_mul_high`.  At 64 bits every operation is unsigned. -/
def arithMulHighChecked (a b n : Nat) (isSigned : Bool) : Option Nat :=
  if n < 64 then
    (extendChecked a n isSigned).bind fun x => (extendChecked b n isSigned).bind fun y =>
      let product := wrap64 (x * y)
      let high :=
        if isSigned ∧ product / 2 ^ 63 ≠ 0 then
          (shiftRight (complement product) n).map complement
        else shiftRight product n
      high.bind fun high => extendChecked high n isSigned
  else some (arithMulHigh a b n isSigned)

/-- `largest`. -/
def arithLargestChecked (n : Nat) (isSigned : Bool) : Option Nat :=
  let k := if isSigned then n - 1 else n
  if k = 64 then some uint64Max else (shiftLeft 1 k).map (· - 1)

/-- `smallest`. -/
def arithSmallestChecked (n : Nat) (isSigned : Bool) : Option Nat :=
  if isSigned then (arithLargestChecked n true).map complement else some 0

/-- `direction`.  At 64 bits every operation is unsigned. -/
def arithDirectionChecked (op : ArithOp) (a b n : Nat) (isSigned : Bool) : Option Int :=
  if n < 64 ∧ isSigned = false then
    (extendChecked a n false).bind fun a => (extendChecked b n false).bind fun b =>
      match op with
      | .sub => some (if a < b then -1 else 0)
      | op => (arithLargestChecked n false).map fun top => if op.on64 a b > top then 1 else 0
  else if n < 64 then
    (arithSignedChecked a n).bind fun x => (arithSignedChecked b n).bind fun y =>
      (int64 (op.onInt x y)).bind fun r =>
        ((arithLargestChecked n true).bind toSigned).bind fun top =>
          (int64 (-top)).bind fun low => (int64 (low - 1)).map fun low =>
            if r > top then 1 else if r < low then -1 else 0
  else some (arithDirection op a b n isSigned)

/-- `arith_overflows`. -/
def arithOverflowsChecked (op : ArithOp) (a b n : Nat) (isSigned : Bool) : Option Bool :=
  (arithDirectionChecked op a b n isSigned).map (· ≠ 0)

/-- `arith_saturate`. -/
def arithSaturateChecked (op : ArithOp) (a b n : Nat) (isSigned : Bool) : Option Nat :=
  (arithDirectionChecked op a b n isSigned).bind fun d =>
    if d > 0 then arithLargestChecked n isSigned
    else if d < 0 then arithSmallestChecked n isSigned
    else extendChecked (op.on64 a b) n isSigned

/-- `ir_fold_trim`. -/
def irFoldTrimChecked (type : IrType) (v : Nat) : Option Nat :=
  let n := irFoldBits type
  if n = 64 then some v else (shiftLeft 1 n).map fun bit => v &&& (bit - 1)

/-- The switch of `ir_fold_int`.  The cases that are left out are unsigned or compare. -/
def foldSwitchChecked (op : IrOp) (type : IrType) (a b : Nat) (x y : Int) (count : Nat) :
    Option (Option Nat) :=
  let n := irFoldBits type
  match op with
  | .sdiv => (divide x y).map fun z => some (toBits64 z)
  | .srem => (remainder x y).map fun z => some (toBits64 z)
  | .udiv => if b = 0 then none else some (some (a / b))
  | .urem => if b = 0 then none else some (some (a % b))
  | .shl => (shiftLeft a count).map some
  | .shrS => (arithShiftRightChecked x count).map fun z => some (toBits64 z)
  | .shrU => (shiftRight a count).map some
  | .mulhS => (arithMulHighChecked a b n true).map some
  | .mulhU => (arithMulHighChecked a b n false).map some
  | .addSatS => (arithSaturateChecked .add a b n true).map some
  | .addSatU => (arithSaturateChecked .add a b n false).map some
  | .subSatS => (arithSaturateChecked .sub a b n true).map some
  | .subSatU => (arithSaturateChecked .sub a b n false).map some
  | .mulSatS => (arithSaturateChecked .mul a b n true).map some
  | .mulSatU => (arithSaturateChecked .mul a b n false).map some
  | op => some (foldSwitch op type a b count)

/-- `ir_fold_int`. -/
def irFoldIntChecked (op : IrOp) (type : IrType) (a b : Nat) : Option IrFolded :=
  let n := irFoldBits type
  let count := b
  (irFoldTrimChecked type a).bind fun a => (irFoldTrimChecked type b).bind fun b =>
    (arithSignedChecked a n).bind fun x => (arithSignedChecked b n).bind fun y =>
      if isShift op ∧ count ≥ n then some .shiftRange
      else
        (shiftLeft 1 (n - 1)).bind fun least => (irFoldTrimChecked type uint64Max).bind fun ones =>
          if divides op ∧ b = 0 then some .byZero
          else if (op = .sdiv ∨ op = .srem) ∧ a = least ∧ b = ones then some .leastByMinusOne
          else
            (foldSwitchChecked op type a b x y count).bind fun out =>
              match out with
              | none => some .notBinary
              | some v => (irFoldTrimChecked type v).map .folded

/-! ## They agree with the ones that cannot fail -/

theorem shiftLeft_one {k : Nat} (h : k < 64) : shiftLeft 1 k = some (2 ^ k) := by
  rw [shiftLeft_of h, Nat.one_mul, Nat.mod_eq_of_lt (Nat.pow_lt_pow_right (by norm_num) h)]

section Checked

variable {n a b : Nat} (h : Narrow n ∨ n = 64)

theorem signed_int64 (h1 : 1 ≤ n) (h64 : n ≤ 64) (v : Nat) :
    -2 ^ 63 ≤ signed n v ∧ signed n v < 2 ^ 63 := by
  have hrange := signed_range h1 v
  have hpow : (2 : Int) ^ (n - 1) ≤ 2 ^ 63 := pow_le_pow_right₀ (by norm_num) (by omega)
  exact ⟨by linarith, by linarith⟩

theorem arithExtend_signed (v n : Nat) : arithExtend v n true = bits 64 (signed n v) := rfl

theorem arithExtend_unsigned (v n : Nat) : arithExtend v n false = v % 2 ^ n := rfl

theorem sub64_xor_top (h : Narrow n) (v : Nat) :
    sub64 (v % 2 ^ n ^^^ 2 ^ (n - 1)) (2 ^ (n - 1)) = bits 64 (signed n v) := by
  have hlt : v % 2 ^ n < 2 ^ n := Nat.mod_lt _ (by positivity)
  have hflip : v % 2 ^ n ^^^ 2 ^ (n - 1) = (2 ^ (n - 1) + v % 2 ^ n) % 2 ^ n := by
    have htop := @xor_top (v % 2 ^ n) (n - 1)
    rw [Nat.sub_add_cancel h.pos] at htop
    exact htop hlt
  rw [hflip, ← signed_mod]
  generalize v % 2 ^ n = m at *
  unfold sub64 bits signed
  rcases h with rfl | rfl | rfl
  · split <;> omega
  · split <;> omega
  · split <;> omega

include h in
theorem extendChecked_eq (v : Nat) (hv : v < 2 ^ 64) (isSigned : Bool) :
    extendChecked v n isSigned = some (arithExtend v n isSigned) := by
  unfold extendChecked
  rcases h with h | rfl
  · have hle := h.le
    have hpos := h.pos
    rw [if_neg (by omega), shiftLeft_one (by omega), shiftLeft_one (by omega), bind_some, map_some]
    dsimp only
    rw [Nat.and_two_pow_sub_one_eq_mod]
    cases isSigned with
    | false => rw [if_neg Bool.false_ne_true, arithExtend_unsigned]
    | true => rw [if_pos rfl, sub64_xor_top h, arithExtend_signed]
  · rw [if_pos rfl]
    cases isSigned with
    | false => rw [arithExtend_unsigned, Nat.mod_eq_of_lt hv]
    | true => rw [arithExtend_signed, bits_signed hv]

/-- The steps from the complement of a negative value back to the value. -/
theorem negative_back {z : Int} (h1 : -2 ^ 63 ≤ z) (h2 : z < 0) :
    ((toSigned (-z - 1).toNat).bind fun y => (int64 (-y)).bind fun z => int64 (z - 1)) =
      some z := by
  rw [toSigned_of (by omega), bind_some, int64_of (by omega) (by omega), bind_some,
    int64_of (by omega) (by omega)]
  congr 1
  omega

include h in
theorem arithSignedChecked_eq (v : Nat) (hv : v < 2 ^ 64) :
    arithSignedChecked v n = some (arithSigned v n) := by
  have h64 : n ≤ 64 := h.elim (fun h => h.le.trans (by norm_num)) Nat.le_of_eq
  have h1 : 1 ≤ n := h.elim (fun h => h.pos) fun h => by omega
  unfold arithSignedChecked
  rw [extendChecked_eq h v hv, bind_some, arithExtend_signed, arithSigned_eq]
  obtain ⟨hlo, hhi⟩ := signed_int64 h1 h64 v
  generalize signed n v = z at *
  rcases lt_or_ge z 0 with hneg | hpos
  · have hbits : bits 64 z = (z + 2 ^ 64).toNat := by
      unfold bits
      omega
    rw [hbits, if_neg (by omega)]
    have hcomplement : complement (z + 2 ^ 64).toNat = (-z - 1).toNat := by
      unfold complement
      omega
    rw [hcomplement]
    exact negative_back hlo hneg
  · have hbits : bits 64 z = z.toNat := by
      unfold bits
      omega
    rw [hbits, if_pos (by omega), toSigned_of (by omega), Int.toNat_of_nonneg hpos]

theorem arithShiftRightChecked_eq {x : Int} (h1 : -2 ^ 63 ≤ x) (h2 : x < 2 ^ 63) {k : Nat}
    (hk : k < 64) : arithShiftRightChecked x k = some (arithShiftRight x k) := by
  have hd : (0 : Int) < 2 ^ k := two_pow_pos k
  unfold arithShiftRightChecked arithShiftRight
  rw [toBits64_eq]
  by_cases hneg : x < 0
  · have hcomplement : complement (bits 64 x) = (-x - 1).toNat := by
      unfold complement bits
      omega
    rw [if_pos hneg, hcomplement, shiftRight_of hk, bind_some]
    have hq : (-x - 1).toNat / 2 ^ k = (-(x / 2 ^ k) - 1).toNat := by
      have hcast : (((-x - 1).toNat / 2 ^ k : Nat) : Int) = (-x - 1) / 2 ^ k := by
        rw [Int.natCast_div, Int.toNat_of_nonneg (by omega)]
        push_cast
        rfl
      have hback := complement_div x hd
      generalize (-x - 1).toNat / 2 ^ k = q at *
      generalize (-x - 1) / 2 ^ k = r at *
      generalize x / 2 ^ k = s at *
      omega
    rw [hq]
    refine negative_back ?_ (Int.ediv_neg_of_neg_of_pos hneg hd)
    have hge : x ≤ x / 2 ^ k := by
      refine (Int.le_ediv_iff_mul_le hd).2 ?_
      nlinarith
    omega
  · have hbits : bits 64 x = x.toNat := by
      unfold bits
      omega
    rw [if_neg hneg, hbits, shiftRight_of hk, bind_some]
    have hle : x.toNat / 2 ^ k ≤ x.toNat := Nat.div_le_self _ _
    rw [toSigned_of (by omega), Int.natCast_div, Int.toNat_of_nonneg (by omega)]
    push_cast
    rfl

include h in
theorem arithMulHighChecked_eq (ha : a < 2 ^ n) (hb : b < 2 ^ n) (isSigned : Bool) :
    arithMulHighChecked a b n isSigned = some (arithMulHigh a b n isSigned) := by
  unfold arithMulHighChecked
  by_cases hlt : n < 64
  · have hpow : 2 ^ n ≤ 2 ^ 64 := Nat.pow_le_pow_right (by norm_num) hlt.le
    rw [if_pos hlt, extendChecked_eq h a (ha.trans_le hpow), bind_some,
      extendChecked_eq h b (hb.trans_le hpow), bind_some]
    unfold arithMulHigh
    rw [if_pos hlt]
    dsimp only
    have hproduct : wrap64 (arithExtend a n isSigned * arithExtend b n isSigned) < 2 ^ 64 :=
      Nat.mod_lt _ (by norm_num)
    generalize wrap64 (arithExtend a n isSigned * arithExtend b n isSigned) = product at *
    rw [shiftRight_of hlt, shiftRight_of hlt]
    by_cases hneg : isSigned = true ∧ product / 2 ^ 63 ≠ 0
    · rw [if_pos hneg, if_pos hneg]
      exact extendChecked_eq h _ ((Nat.sub_le _ _).trans_lt (by norm_num)) isSigned
    · rw [if_neg hneg, if_neg hneg]
      exact extendChecked_eq h _ ((Nat.div_le_self _ _).trans_lt hproduct) isSigned
  · rw [if_neg hlt]

include h in
theorem arithLargestChecked_eq (isSigned : Bool) :
    arithLargestChecked n isSigned = some (arithLargest n isSigned) := by
  have h64 : n ≤ 64 := h.elim (fun h => h.le.trans (by norm_num)) Nat.le_of_eq
  unfold arithLargestChecked arithLargest
  dsimp only
  have hk : (if isSigned = true then n - 1 else n) ≤ 64 := by
    split <;> omega
  generalize (if isSigned = true then n - 1 else n) = k at *
  by_cases htop : k = 64
  · rw [if_pos htop, htop]
    rfl
  · rw [if_neg htop, shiftLeft_one (by omega)]
    rfl

include h in
theorem arithSmallestChecked_eq (isSigned : Bool) :
    arithSmallestChecked n isSigned = some (arithSmallest n isSigned) := by
  unfold arithSmallestChecked arithSmallest
  cases isSigned with
  | false => rfl
  | true =>
    rw [if_pos rfl, if_pos rfl, arithLargestChecked_eq h]
    rfl

/-- An operator on signed values of at most 32 bits stays an `int64_t`. -/
theorem onInt_int64 (hn : Narrow n) (op : ArithOp) (a b : Nat) :
    -2 ^ 63 ≤ op.onInt (signed n a) (signed n b) ∧
      op.onInt (signed n a) (signed n b) < 2 ^ 63 := by
  have hle := hn.le
  have hpow : (2 : Int) ^ (n - 1) ≤ 2 ^ 31 := pow_le_pow_right₀ (by norm_num) (by omega)
  have ha := signed_range hn.pos a
  have hb := signed_range hn.pos b
  obtain ⟨h1, h2⟩ := product_range hn.pos (show n ≤ 31 + 1 by omega) a b
  cases op with
  | add | sub | mul =>
    exact ⟨by simp only [ArithOp.onInt]; omega, by simp only [ArithOp.onInt]; omega⟩

include h in
theorem arithDirectionChecked_eq (ha : a < 2 ^ 64) (hb : b < 2 ^ 64) (op : ArithOp)
    (isSigned : Bool) :
    arithDirectionChecked op a b n isSigned = some (arithDirection op a b n isSigned) := by
  unfold arithDirectionChecked
  by_cases hunsigned : n < 64 ∧ isSigned = false
  · rw [if_pos hunsigned, extendChecked_eq h a ha, bind_some, extendChecked_eq h b hb, bind_some]
    unfold arithDirection
    rw [if_pos hunsigned]
    cases op with
    | sub => rfl
    | add | mul =>
      dsimp only
      rw [arithLargestChecked_eq h]
      rfl
  · rw [if_neg hunsigned]
    by_cases hlt : n < 64
    · have hn : Narrow n := h.resolve_right hlt.ne
      obtain ⟨h1, h2⟩ := onInt_int64 hn op a b
      have hhalf : 2 ^ (n - 1) ≤ 2 ^ 31 := by
        have := hn.le
        exact Nat.pow_le_pow_right (by norm_num) (by omega)
      have htop : arithLargest n true < 2 ^ 31 := by
        have : 0 < 2 ^ (n - 1) := by positivity
        show 2 ^ (n - 1) - 1 < _
        omega
      rw [if_pos hlt, arithSignedChecked_eq h a ha, bind_some, arithSignedChecked_eq h b hb,
        bind_some, arithSigned_eq, arithSigned_eq, int64_of h1 h2, bind_some,
        arithLargestChecked_eq h, bind_some, toSigned_of (by omega), bind_some,
        int64_of (by omega) (by omega), bind_some, int64_of (by omega) (by omega),
        map_some]
      unfold arithDirection
      rw [if_neg hunsigned, if_pos hlt]
      rfl
    · rw [if_neg hlt]

include h in
theorem arithSaturateChecked_eq (ha : a < 2 ^ n) (hb : b < 2 ^ n) (op : ArithOp) (isSigned : Bool) :
    arithSaturateChecked op a b n isSigned = some (arithSaturate op a b n isSigned) := by
  have h64 : n ≤ 64 := h.elim (fun h => h.le.trans (by norm_num)) Nat.le_of_eq
  have hpow : 2 ^ n ≤ 2 ^ 64 := Nat.pow_le_pow_right (by norm_num) h64
  have hon : op.on64 a b < 2 ^ 64 := by
    cases op with
    | add => exact Nat.mod_lt _ (by norm_num)
    | sub => exact Nat.mod_lt _ (by norm_num)
    | mul => exact Nat.mod_lt _ (by norm_num)
  unfold arithSaturateChecked arithSaturate
  rw [arithDirectionChecked_eq h (ha.trans_le hpow) (hb.trans_le hpow), bind_some,
    arithLargestChecked_eq h, arithSmallestChecked_eq h, extendChecked_eq h _ hon]
  dsimp only
  split
  · rfl
  · split
    · rfl
    · rfl

end Checked

theorem irFoldTrimChecked_eq (type : IrType) {v : Nat} (hv : v < 2 ^ 64) :
    irFoldTrimChecked type v = some (irFoldTrim type v) := by
  have hle := irFoldBits_le type
  unfold irFoldTrimChecked irFoldTrim
  generalize irFoldBits type = n at *
  by_cases h64 : n = 64
  · rw [if_pos h64, h64, Nat.mod_eq_of_lt hv]
  · rw [if_neg h64, shiftLeft_one (by omega), map_some, Nat.and_two_pow_sub_one_eq_mod]

section Fold

variable {type : IrType} {a b : Nat} (ha : a < 2 ^ irFoldBits type) (hb : b < 2 ^ irFoldBits type)

include ha hb in
/-- No case of the switch meets an operation without a value, after the checks. -/
theorem foldSwitchChecked_eq {op : IrOp} {count : Nat}
    (hshift : isShift op = true → count < irFoldBits type)
    (hzero : divides op = true → b ≠ 0)
    (hleast : ¬((op = .sdiv ∨ op = .srem) ∧ a = 2 ^ (irFoldBits type - 1) ∧
      b = 2 ^ irFoldBits type - 1)) :
    foldSwitchChecked op type a b (irFoldSigned type a) (irFoldSigned type b) count =
      some (foldSwitch op type a b count) := by
  have h := irFoldBits_cases type
  have h1 := irFoldBits_pos type
  have h64 := irFoldBits_le type
  obtain ⟨hlo, hhi⟩ : -2 ^ 63 ≤ irFoldSigned type a ∧ irFoldSigned type a < 2 ^ 63 :=
    signed_int64 h1 h64 a
  have hy (hne : b ≠ 0) : irFoldSigned type b ≠ 0 := fun h0 => hne ((signed_eq_zero h1 hb).1 h0)
  -- a divisor of -1 meets the least value of 64 bits only where the check stops it
  have hmin (hop : op = .sdiv ∨ op = .srem) :
      ¬(irFoldSigned type a = -2 ^ 63 ∧ irFoldSigned type b = -1) := by
    rintro ⟨hx, hy1⟩
    refine hleast ⟨hop, (signed_eq_least h1 ha).1 ?_, (signed_eq_minus_one h1 hb).1 hy1⟩
    have hrange := signed_range h1 a
    have hpow : (2 : Int) ^ (irFoldBits type - 1) ≤ 2 ^ 63 :=
      pow_le_pow_right₀ (by norm_num) (by omega)
    have hx' : signed (irFoldBits type) a = -2 ^ 63 := hx
    omega
  cases op with
  | sdiv =>
    show (divide _ _).map _ = some _
    rw [divide_of hlo hhi (hy (hzero rfl)) (hmin (.inl rfl))]
    rfl
  | srem =>
    show (remainder _ _).map _ = some _
    rw [remainder_of (hy (hzero rfl)) (hmin (.inr rfl))]
    rfl
  | udiv | urem => exact if_neg (hzero rfl)
  | shl =>
    have hcount := hshift rfl
    show (shiftLeft a count).map some = _
    rw [shiftLeft_of (by omega)]
    rfl
  | shrS =>
    have hcount := hshift rfl
    show (arithShiftRightChecked _ count).map _ = _
    rw [arithShiftRightChecked_eq hlo hhi (by omega)]
    rfl
  | shrU =>
    have hcount := hshift rfl
    show (shiftRight a count).map some = _
    rw [shiftRight_of (by omega)]
    rfl
  | mulhS | mulhU =>
    show (arithMulHighChecked a b _ _).map some = _
    rw [arithMulHighChecked_eq h ha hb]
    rfl
  | addSatS | addSatU | subSatS | subSatU | mulSatS | mulSatU =>
    show (arithSaturateChecked _ a b _ _).map some = _
    rw [arithSaturateChecked_eq h ha hb]
    rfl
  | _ => rfl

end Fold

/-! ## What the switch gives is a 64-bit number -/

theorem sub64_lt (a b : Nat) : sub64 a b < 2 ^ 64 := Nat.mod_lt _ (by norm_num)

theorem wrap64_lt (v : Nat) : wrap64 v < 2 ^ 64 := Nat.mod_lt _ (by norm_num)

theorem foldSwitch_lt {op : IrOp} {type : IrType} {a b count w : Nat} (ha : a < 2 ^ 64)
    (hb : b < 2 ^ 64) (h : foldSwitch op type a b count = some w) : w < 2 ^ 64 := by
  have h64 := irFoldBits_le type
  have hbit (p : Prop) [Decidable p] : boolBit p < 2 ^ 64 := by
    unfold boolBit
    split <;> norm_num
  cases op with
  | add | mul | shl =>
    obtain rfl := some.inj h
    exact wrap64_lt _
  | sub =>
    obtain rfl := some.inj h
    exact sub64_lt _ _
  | sdiv | srem | shrS =>
    obtain rfl := some.inj h
    exact bits_lt 64 _
  | udiv | shrU =>
    obtain rfl := some.inj h
    exact (Nat.div_le_self _ _).trans_lt ha
  | urem =>
    obtain rfl := some.inj h
    exact (Nat.mod_le _ _).trans_lt ha
  | and =>
    obtain rfl := some.inj h
    exact Nat.and_lt_two_pow _ hb
  | or =>
    obtain rfl := some.inj h
    exact Nat.or_lt_two_pow ha hb
  | xor =>
    obtain rfl := some.inj h
    exact Nat.xor_lt_two_pow ha hb
  | eq | ne | slt | sle | sgt | sge | ult | ule | ugt | uge =>
    obtain rfl := some.inj h
    exact hbit _
  | mulhS | mulhU =>
    obtain rfl := some.inj h
    exact arithMulHigh_lt h64 _ _ _
  | addSatS | addSatU | subSatS | subSatU | mulSatS | mulSatU =>
    obtain rfl := some.inj h
    exact arithSaturate_lt h64 _ _ _ _
  | _ => cases h

/-- **NOTHING UNDEFINED**: for any two numbers of 64 bits `ir_fold_int` meets no
    operation that C leaves undefined, and gives what `irFoldInt` gives. -/
theorem irFoldIntChecked_eq (op : IrOp) (type : IrType) {a b : Nat} (ha : a < 2 ^ 64)
    (hb : b < 2 ^ 64) : irFoldIntChecked op type a b = some (irFoldInt op type a b) := by
  have h := irFoldBits_cases type
  have h64 := irFoldBits_le type
  have hpow : 2 ^ irFoldBits type ≤ 2 ^ 64 := Nat.pow_le_pow_right (by norm_num) h64
  have hta : irFoldTrim type a < 2 ^ irFoldBits type := Nat.mod_lt _ (by positivity)
  have htb : irFoldTrim type b < 2 ^ irFoldBits type := Nat.mod_lt _ (by positivity)
  have hones : irFoldTrim type uint64Max = 2 ^ irFoldBits type - 1 := by
    show (2 ^ 64 - 1) % 2 ^ irFoldBits type = _
    rcases h with (h | h | h) | h <;> rw [h] <;> norm_num
  unfold irFoldIntChecked irFoldInt
  rw [irFoldTrimChecked_eq type ha, bind_some, irFoldTrimChecked_eq type hb,
    bind_some, arithSignedChecked_eq h _ (hta.trans_le hpow), bind_some,
    arithSignedChecked_eq h _ (htb.trans_le hpow), bind_some,
    irFoldTrimChecked_eq type (show uint64Max < 2 ^ 64 by decide), hones]
  by_cases hshift : isShift op = true ∧ b ≥ irFoldBits type
  · rw [if_pos hshift, if_pos hshift]
  rw [if_neg hshift, if_neg hshift, shiftLeft_one (by omega), bind_some, bind_some]
  by_cases hzero : divides op = true ∧ irFoldTrim type b = 0
  · rw [if_pos hzero, if_pos hzero]
  rw [if_neg hzero, if_neg hzero]
  by_cases hleast : (op = .sdiv ∨ op = .srem) ∧ irFoldTrim type a = 2 ^ (irFoldBits type - 1) ∧
      irFoldTrim type b = 2 ^ irFoldBits type - 1
  · rw [if_pos hleast, if_pos hleast]
  rw [if_neg hleast, if_neg hleast]
  have hswitch := foldSwitchChecked_eq hta htb (fun hs => Nat.lt_of_not_le fun hge =>
    hshift ⟨hs, hge⟩) (fun hd h0 => hzero ⟨hd, h0⟩) hleast
  show (foldSwitchChecked op type _ _ (irFoldSigned type _) (irFoldSigned type _) b).bind _ = _
  rw [hswitch, bind_some]
  cases hout : foldSwitch op type (irFoldTrim type a) (irFoldTrim type b) b with
  | none => rfl
  | some v =>
    have hv := foldSwitch_lt (hta.trans_le hpow) (htb.trans_le hpow) hout
    dsimp only
    rw [irFoldTrimChecked_eq type hv]
    rfl

end AnticIr
