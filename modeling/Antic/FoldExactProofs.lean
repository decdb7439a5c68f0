import Antic.FoldChecked

/-! # The fold is exact at every width

    `exactOp` is the operation over the integers, on the low bits of two numbers of 64 bits.  The
    fold has a value exactly where it has one, and the value is its low bits (`fold_exact`). -/

namespace AnticIr

open MachineInt CInteger Option Nat

/-- The integer that an operation of `n` bits stands for.  A shift reads its whole count. -/
def exactOp (op : IrOp) (n a b : Nat) : Option Int :=
  let u : Nat := a % 2 ^ n
  let w : Nat := b % 2 ^ n
  let x := signed n a
  let y := signed n b
  let undefined := y = 0 ∨ (x = -2 ^ (n - 1) ∧ y = -1)
  let holds (p : Prop) [Decidable p] : Int := if p then 1 else 0
  match op with
  | .add => some (u + w)
  | .sub => some (u - w)
  | .mul => some (u * w)
  | .sdiv => if undefined then none else some (x.tdiv y)
  | .srem => if undefined then none else some (x.tmod y)
  | .udiv => if w = 0 then none else some (u / w : Nat)
  | .urem => if w = 0 then none else some (u % w : Nat)
  | .and => some (u &&& w : Nat)
  | .or => some (u ||| w : Nat)
  | .xor => some (u ^^^ w : Nat)
  | .shl => if n ≤ b then none else some (u * 2 ^ b)
  | .shrS => if n ≤ b then none else some (x / 2 ^ b)
  | .shrU => if n ≤ b then none else some (u / 2 ^ b : Nat)
  | .eq => some (holds (u = w))
  | .ne => some (holds (u ≠ w))
  | .slt => some (holds (x < y))
  | .sle => some (holds (x ≤ y))
  | .sgt => some (holds (x > y))
  | .sge => some (holds (x ≥ y))
  | .ult => some (holds (u < w))
  | .ule => some (holds (u ≤ w))
  | .ugt => some (holds (u > w))
  | .uge => some (holds (u ≥ w))
  | .mulhS => some (x * y / 2 ^ n)
  | .mulhU => some (u * w / 2 ^ n : Nat)
  | .addSatS => some (clampSigned n (x + y))
  | .addSatU => some (clampUnsigned n (u + w))
  | .subSatS => some (clampSigned n (x - y))
  | .subSatU => some (clampUnsigned n (u - w))
  | .mulSatS => some (clampSigned n (x * y))
  | .mulSatU => some (clampUnsigned n (u * w))
  | _ => none

section Exact

variable {n : Nat}

theorem bits_of_lt {v : Nat} (h : v < 2 ^ n) : bits n (v : Int) = v := by
  rw [bits_natCast, mod_eq_of_lt h]

theorem bits_holds (hn : 1 ≤ n) (p : Prop) [Decidable p] :
    bits n (if p then 1 else 0) = boolBit p := by
  have h2 : 2 ^ 1 ≤ 2 ^ n := Nat.pow_le_pow_right (by norm_num) hn
  unfold boolBit
  split
  · exact bits_of_lt (v := 1) (by omega)
  · exact bits_of_lt (v := 0) (by omega)

/-- The value of an operation on `n` bits is the low bits of the integer. -/
theorem intOp_bits (hn : 1 ≤ n) (op : IrOp) (a b : Nat) (hshift : isShift op = true → b < n) :
    intOp op n (a % 2 ^ n) (b % 2 ^ n) = (exactOp op n a b).map (bits n) := by
  have hu : a % 2 ^ n < 2 ^ n := mod_lt _ (by positivity)
  have hw : b % 2 ^ n < 2 ^ n := mod_lt _ (by positivity)
  have hcount (hs : isShift op = true) : b % 2 ^ n = b ∧ ¬n ≤ b :=
    ⟨mod_eq_of_lt ((hshift hs).trans Nat.lt_two_pow_self), Nat.not_le.2 (hshift hs)⟩
  have hsmall {v : Nat} (hv : v < 2 ^ n) : some v = (some (v : Int)).map (bits n) :=
    congrArg some (bits_of_lt hv).symm
  unfold intOp exactOp
  simp only [signed_mod]
  generalize hu' : a % 2 ^ n = u at *
  generalize hw' : b % 2 ^ n = w at *
  cases op with
  | add => exact congrArg some (bits_natCast n (u + w)).symm
  | sub => rfl
  | mul => exact congrArg some ((congrArg (bits n) (cast_mul u w)).symm.trans
      (bits_natCast n (u * w))).symm
  | sdiv | srem =>
    dsimp only
    split
    · rfl
    · rfl
  | udiv =>
    dsimp only
    split
    · rfl
    · exact hsmall ((Nat.div_le_self u w).trans_lt hu)
  | urem =>
    dsimp only
    split
    · rfl
    · exact hsmall ((mod_le u w).trans_lt hu)
  | and => exact hsmall (and_lt_two_pow u hw)
  | or => exact hsmall (or_lt_two_pow hu hw)
  | xor => exact hsmall (xor_lt_two_pow hu hw)
  | shl =>
    obtain ⟨heq, hlt⟩ := hcount rfl
    dsimp only
    rw [heq, if_neg hlt, if_neg hlt, map_some, ← bits_natCast]
    push_cast
    rfl
  | shrS =>
    obtain ⟨heq, hlt⟩ := hcount rfl
    dsimp only
    rw [heq, if_neg hlt, if_neg hlt]
    rfl
  | shrU =>
    obtain ⟨heq, hlt⟩ := hcount rfl
    dsimp only
    rw [heq, if_neg hlt, if_neg hlt]
    exact hsmall ((Nat.div_le_self u _).trans_lt hu)
  | eq | ne | slt | sle | sgt | sge | ult | ule | ugt | uge =>
    exact congrArg some (bits_holds hn _).symm
  | mulhU =>
    refine hsmall ((Nat.div_lt_iff_lt_mul (by positivity)).2 ?_)
    exact Nat.mul_lt_mul'' hu hw
  | _ => rfl

theorem exactOp_checks {op : IrOp} {type : IrType} {a b : Nat} {z : Int}
    (h : exactOp op (irFoldBits type) a b = some z) :
    ¬(isShift op = true ∧ b ≥ irFoldBits type) ∧
    ¬(divides op = true ∧ irFoldTrim type b = 0) ∧
    ¬((op = .sdiv ∨ op = .srem) ∧ irFoldTrim type a = 2 ^ (irFoldBits type - 1) ∧
      irFoldTrim type b = 2 ^ irFoldBits type - 1) ∧
    ∃ w, foldSwitch op type (irFoldTrim type a) (irFoldTrim type b) b = some w := by
  have h1 := irFoldBits_pos type
  have hta : irFoldTrim type a < 2 ^ irFoldBits type := mod_lt _ (by positivity)
  have htb : irFoldTrim type b < 2 ^ irFoldBits type := mod_lt _ (by positivity)
  have hx := signed_eq_least h1 hta
  have hy := signed_eq_minus_one h1 htb
  have hzero := signed_eq_zero h1 htb
  rw [irFoldTrim, signed_mod] at hx hy hzero
  cases op with
  | sdiv | srem =>
    have hdef := ite_none_left_eq_some.1 h |>.1
    refine ⟨fun hs => Bool.false_ne_true hs.1, fun hd => hdef (.inl (hzero.2 hd.2)),
      fun hl => hdef (.inr ⟨hx.2 hl.2.1, hy.2 hl.2.2⟩), _, rfl⟩
  | udiv | urem =>
    have hdef := ite_none_left_eq_some.1 h |>.1
    exact ⟨fun hs => Bool.false_ne_true hs.1, fun hd => hdef hd.2,
      fun hl => absurd hl.1 (by decide), _, rfl⟩
  | shl | shrS | shrU =>
    have hdef := ite_none_left_eq_some.1 h |>.1
    exact ⟨fun hs => hdef hs.2, fun hd => Bool.false_ne_true hd.1,
      fun hl => absurd hl.1 (by decide), _, rfl⟩
  | add | sub | mul | and | or | xor | eq | ne | slt | sle | sgt | sge | ult | ule | ugt | uge
  | mulhS | mulhU | addSatS | addSatU | subSatS | subSatU | mulSatS | mulSatU =>
    exact ⟨fun hs => Bool.false_ne_true hs.1, fun hd => Bool.false_ne_true hd.1,
      fun hl => absurd hl.1 (by decide), _, rfl⟩
  | _ => cases h

/-- The fold has the value of the integer, and only where there is one. -/
theorem irFoldInt_exact (op : IrOp) (type : IrType) (a b v : Nat) :
    irFoldInt op type a b = .folded v ↔
      ∃ z, exactOp op (irFoldBits type) a b = some z ∧ v = bits (irFoldBits type) z := by
  have hforward {v : Nat} (h : irFoldInt op type a b = .folded v) :
      ∃ z, exactOp op (irFoldBits type) a b = some z ∧ v = bits (irFoldBits type) z := by
    have hshift := (irFoldInt_folded h).1
    have hvalue := irFoldInt_correct h
    rw [irFoldTrim, irFoldTrim, intOp_bits (irFoldBits_pos type) op a b fun hs =>
      Nat.lt_of_not_le fun hge => hshift ⟨hs, hge⟩] at hvalue
    obtain ⟨z, hz, hv⟩ := map_eq_some_iff.1 hvalue
    exact ⟨z, hz, hv.symm⟩
  constructor
  · exact hforward
  · rintro ⟨z, hz, rfl⟩
    obtain ⟨hshift, hzero, hleast, w, hw⟩ := exactOp_checks hz
    have hfolded : irFoldInt op type a b = .folded (irFoldTrim type w) := by
      unfold irFoldInt
      rw [if_neg hshift, if_neg hzero, if_neg hleast, hw]
    obtain ⟨z', hz', hv⟩ := hforward hfolded
    rw [hfolded, hv, some.inj (hz.symm.trans hz')]

end Exact

/-! ## Overflow -/

theorem arithDirection_mod {n : Nat} (h : Narrow n ∨ n = 64) {a b : Nat} (ha : a < 2 ^ 64)
    (hb : b < 2 ^ 64) (op : ArithOp) (isSigned : Bool) :
    arithDirection op a b n isSigned =
      arithDirection op (a % 2 ^ n) (b % 2 ^ n) n isSigned := by
  rcases h with h | rfl
  · have hlt : n < 64 := h.le.trans_lt (by norm_num)
    have hextend (v : Nat) : arithExtend (v % 2 ^ n) n false = arithExtend v n false := by
      rw [arithExtend_unsigned, arithExtend_unsigned, mod_mod]
    have hsigned (v : Nat) : arithSigned (v % 2 ^ n) n = arithSigned v n := signed_mod n v
    unfold arithDirection
    cases isSigned with
    | false => rw [if_pos ⟨hlt, rfl⟩, if_pos ⟨hlt, rfl⟩, hextend, hextend]
    | true =>
      have hneg : ¬(n < 64 ∧ true = false) := fun hc => Bool.false_ne_true hc.2.symm
      rw [if_neg hneg, if_neg hneg, if_pos hlt, if_pos hlt, hsigned, hsigned]
  · rw [mod_eq_of_lt ha, mod_eq_of_lt hb]

/-- `arith_overflows` tells whether the exact result leaves the range. -/
theorem arithOverflowsChecked_eq {n : Nat} (h : Narrow n ∨ n = 64) {a b : Nat}
    (ha : a < 2 ^ 64) (hb : b < 2 ^ 64) (op : ArithOp) (isSigned : Bool) :
    arithOverflowsChecked op a b n isSigned =
      some (decide ¬(lowest n isSigned ≤ op.exact n isSigned (a % 2 ^ n) (b % 2 ^ n) ∧
        op.exact n isSigned (a % 2 ^ n) (b % 2 ^ n) ≤ highest n isSigned)) := by
  have hsides := arithDirection_sides h (mod_lt a (Nat.two_pow_pos n))
    (mod_lt b (Nat.two_pow_pos n)) op isSigned
  unfold arithOverflowsChecked
  rw [arithDirectionChecked_eq h ha hb, map_some, arithDirection_mod h ha hb]
  obtain ⟨hhigh, hlow⟩ := hsides
  generalize arithDirection op (a % 2 ^ n) (b % 2 ^ n) n isSigned = d at *
  generalize op.exact n isSigned (a % 2 ^ n) (b % 2 ^ n) = z at *
  refine congrArg some (decide_eq_decide.2 ?_)
  constructor
  · rintro hd ⟨h1, h2⟩
    omega
  · rintro hout rfl
    refine hout ⟨not_lt.1 fun hc => ?_, not_lt.1 fun hc => ?_⟩
    · exact absurd (hlow.2 hc) (lt_irrefl 0)
    · exact absurd (hhigh.2 hc) (lt_irrefl 0)

/-- **THE FOLD IS EXACT**: on any two numbers of 64 bits `ir_fold_int` meets nothing that C leaves
    undefined.  It has a value exactly where the operation has one, and stores its low bits;
    `arith_overflows` compares the same exact result with the range of the type. -/
theorem fold_exact (a b : Nat) (ha : a < 2 ^ 64) (hb : b < 2 ^ 64) :
    (∀ op type, ∃ r, irFoldIntChecked op type a b = some r ∧ ∀ v, r = .folded v ↔
        ∃ z, exactOp op (irFoldBits type) a b = some z ∧ v = bits (irFoldBits type) z) ∧
    ∀ (op : ArithOp) (type : IrType) (isSigned : Bool),
      arithOverflowsChecked op a b (irFoldBits type) isSigned =
        some (decide ¬(lowest (irFoldBits type) isSigned ≤
            op.exact (irFoldBits type) isSigned (irFoldTrim type a) (irFoldTrim type b) ∧
          op.exact (irFoldBits type) isSigned (irFoldTrim type a) (irFoldTrim type b) ≤
            highest (irFoldBits type) isSigned)) := by
  constructor
  · intro op type
    exact ⟨_, irFoldIntChecked_eq op type ha hb, irFoldInt_exact op type a b⟩
  · intro op type isSigned
    exact arithOverflowsChecked_eq (irFoldBits_cases type) ha hb op isSigned

/-- The least value times itself, whose upper half is `2 ^ 62`. -/
theorem fold_exact_least :
    irFoldIntChecked .mulhS .i64 (2 ^ 63) (2 ^ 63) = some (.folded (2 ^ 62)) := by
  obtain ⟨r, hr, hv⟩ := (fold_exact (2 ^ 63) (2 ^ 63) (by norm_num) (by norm_num)).1 .mulhS .i64
  rw [hr, (hv (2 ^ 62)).2 ⟨2 ^ 62, by decide +kernel, by decide +kernel⟩]

end AnticIr
