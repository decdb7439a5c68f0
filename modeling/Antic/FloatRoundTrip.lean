import Antic.FloatWritingProofs

/-! # Floats survive their text — `text.c`

    What `anti_rt_builder_float` writes of a finite float without a precision is a number that
    `anti_rt_read_float` takes.  The decimal that is written rounds back to the float, and its
    exponent is far from six digits, so the reader gives the same bits, the sign of a zero too. -/

namespace AnticFloat

open Decimal BinaryFormats Format List

variable {f : Format} {v : Decimal} {n t : ℕ} {p : Parts}

-- ── The text as a number ────

theorem digitsFrom_length (v : Decimal) (a : ℤ) (n : ℕ) : (digitsFrom v a n).length = n := by
  rw [digitsFrom, length_map, length_range]

/-- A point stands in the text only where there are digits behind it. -/
theorem exists_places (v : Decimal) (a : ℤ) (n : ℕ) :
    ∃ places : Option (List Digit), places.getD [] = digitsFrom v a n ∧
      ∀ sign whole exponent h, Numeral.body ⟨sign, whole, places, exponent, h⟩ =
        whole.map digitByte ++ ((if n > 0 then 46 :: (digitsFrom v a n).map digitByte else []) ++
          (exponent.map Exponent.bytes).getD []) := by
  cases n with
  | zero => exact ⟨none, rfl, fun _ _ exponent _ => by cases exponent <;> rfl⟩
  | succ n => exact ⟨some _, rfl, fun _ _ exponent _ => by cases exponent <;> rfl⟩

theorem value_of_digits {t : Numeral} {ds : List Digit} {k : ℕ} {power : ℤ} (hdigits : t.digits = ds)
    (hplaces : (t.places.getD []).length = k)
    (hpower : (if t.shrinks then -(t.scale : ℤ) else t.scale) = power) :
    t.value = number ds * 10 ^ (power - k) := by
  rw [Numeral.value, Numeral.valueAt, hdigits, hplaces, hpower]

theorem exists_fixed (hv : v.Normal) (sign : Sign) :
    ∃ t : Numeral, t.sign = sign ∧ t.body = putFixed v (v.d.length - v.point).toNat ∧
      t.scale = 0 ∧ t.value = v.value := by
  have hsome : (if v.point ≤ 0 then [0] else digitsFrom v 0 v.point.toNat) ≠ [] := by
    split
    · exact cons_ne_nil _ _
    · refine ne_nil_of_length_pos ?_
      rw [digitsFrom_length]
      omega
  obtain ⟨places, hplaces, hbody⟩ := exists_places v v.point (v.d.length - v.point).toNat
  refine ⟨⟨sign, _, places, none, .inl hsome⟩, rfl, ?_, rfl, ?_⟩
  · rw [hbody, putFixed_digits hv]
    exact congrArg _ (append_nil _)
  · have hdigits : Numeral.digits ⟨sign, _, places, none, .inl hsome⟩ = _ :=
      (congrArg (_ ++ ·) hplaces).trans (fixed_digits hv)
    have hlength : (places.getD []).length = _ := (congrArg _ hplaces).trans (digitsFrom_length ..)
    refine (value_of_digits hdigits hlength rfl).trans ?_
    rw [number_append, number_append, number_replicate_zero, number_replicate_zero, Nat.zero_mul,
      Nat.zero_add, Nat.add_zero, length_replicate, Nat.cast_mul, Nat.cast_pow, mul_assoc,
      Nat.cast_ofNat, ← zpow_natCast, ← zpow_add₀ (by norm_num), Decimal.value]
    congr 2
    show _ + ((0 : ℕ) - _ : ℤ) = _
    omega

theorem powerDigits_digits (n size : ℕ) (out : List Digit) :
    ∃ ds, powerDigits n size (out.map digitByte) = (ds ++ out).map digitByte ∧
      number ds = size ∧ (n < 2 → ds ≠ []) := by
  induction hk : size + (2 - n) using Nat.strong_induction_on generalizing n size out with
  | _ k ih =>
    rw [powerDigits]
    split
    · next hmore =>
        obtain ⟨ds, heq, hnumber, -⟩ :=
          ih (size / 10 + (2 - (n + 1))) (by omega) (n + 1) (size / 10) (digit size :: out) rfl
        refine ⟨ds ++ [digit size], ?_, ?_, fun _ => by simp⟩
        · rw [append_assoc]
          exact heq
        · have hdigit : (digit size).val = size % 10 := rfl
          rw [number_append, hnumber, number_singleton, hdigit]
          show size / 10 * 10 ^ 1 + size % 10 = size
          omega
    · next hno =>
        refine ⟨[], rfl, ?_, fun hn => absurd (Or.inr hn) hno⟩
        by_contra hne
        exact hno (Or.inl fun h => hne h.symm)

theorem putPower_bytes (power : ℤ) : ∃ e : Exponent, e.bytes = putPower power ∧
    number e.digits = power.natAbs ∧ (e.sign = .minus ↔ power < 0) := by
  obtain ⟨ds, heq, hnumber, hsome⟩ := powerDigits_digits 0 power.natAbs []
  rw [append_nil] at heq
  refine ⟨⟨false, if power < 0 then .minus else .plus, ds, hsome (by decide)⟩, ?_, hnumber, ?_⟩
  · rw [Exponent.bytes, putPower, show powerDigits 0 power.natAbs [] = _ from heq]
    by_cases hneg : power < 0
    · rw [if_pos hneg, if_pos hneg]
      rfl
    · rw [if_neg hneg, if_neg hneg]
      rfl
  · by_cases hneg : power < 0 <;> simp [hneg]

theorem exists_scientific (hv : v.Normal) (sign : Sign) :
    ∃ t : Numeral, t.sign = sign ∧ t.body = putScientific v (v.d.length - 1) ∧
      t.scale = (v.point - 1).natAbs ∧ t.value = v.value := by
  obtain ⟨e, hbytes, hnumber, hminus⟩ := putPower_bytes (v.point - 1)
  have hlen : 0 < v.d.length := length_pos_iff.mpr hv.ne_nil
  have hpower : (if decide (e.sign = .minus) = true then -(number e.digits : ℤ)
      else number e.digits) = v.point - 1 := by
    rw [hnumber]
    by_cases hneg : v.point - 1 < 0
    · rw [if_pos (decide_eq_true (hminus.mpr hneg))]
      omega
    · rw [if_neg fun h => hneg (hminus.mp (of_decide_eq_true h))]
      omega
  obtain ⟨places, hplaces, hbody⟩ := exists_places v 1 (v.d.length - 1)
  refine ⟨⟨sign, [v.digitAt 0], places, some e, .inl (cons_ne_nil _ _)⟩, rfl, ?_, hnumber, ?_⟩
  · rw [hbody, putScientific_digits hv, ← hbytes]
    rfl
  · have hdigits : Numeral.digits ⟨sign, [v.digitAt 0], places, some e, .inl (cons_ne_nil _ _)⟩ =
        v.d := (congrArg ([v.digitAt 0] ++ ·) hplaces).trans (scientific_digits hv)
    have hlength : (places.getD []).length = _ := (congrArg _ hplaces).trans (digitsFrom_length ..)
    refine (value_of_digits hdigits hlength hpower).trans ?_
    rw [Decimal.value]
    congr 2
    omega

/-- **The text of `put_shortest`** is a number with the value of the decimal. -/
theorem exists_shortest (hv : v.Normal) (sign : Sign) (exponent : Bool) :
    ∃ t : Numeral, t.sign = sign ∧ t.body = putShortest v exponent ∧
      t.scale ≤ (v.point - 1).natAbs ∧ t.value = v.value := by
  rw [putShortest, if_neg hv.ne_nil]
  split
  · obtain ⟨t, hsign, hbody, hscale, hvalue⟩ := exists_fixed hv sign
    refine ⟨t, hsign, ?_, hscale ▸ Nat.zero_le _, hvalue⟩
    rw [hbody]
    congr 1
    split
    · rfl
    · omega
  · obtain ⟨t, hsign, hbody, hscale, hvalue⟩ := exists_scientific hv sign
    refine ⟨t, hsign, ?_, hscale.le, hvalue⟩
    rw [hbody]
    congr 1
    split
    · rfl
    · omega

-- ── What is read ────

theorem signBit_or (t : Numeral) {k : ℕ} (hk : k < 2 ^ (f.mantissa + f.exponent)) :
    t.signBit f ||| k = (if t.sign = .minus then 2 ^ (f.mantissa + f.exponent) else 0) + k := by
  rw [Numeral.signBit]
  split
  · have hor := Nat.two_pow_add_eq_or_of_lt hk 1
    rw [Nat.mul_one] at hor
    exact hor.symm
  · rw [Nat.zero_or, Nat.zero_add]

/-- The reader gives the bits that a number of a short exponent rounds to. -/
theorem readFloat_rounds (hf : Supported f) {t : Numeral} (hscale : t.scale < 1000000)
    (hround : f.Rounds t.value n) (hn : n < f.infinite) :
    readFloat t.bytes f.mantissa f.exponent =
      some (some ((if t.sign = .minus then 2 ^ (f.mantissa + f.exponent) else 0) + n)) := by
  obtain ⟨k, hread, hk⟩ := readFloat_numeral hf t
  rw [cut_of_lt hscale] at hk
  rw [hread, Rounds.unique hk hround, signBit_or t (hn.trans (infinite_lt f))]

/-- A decimal that rounds to a finite float other than zero has its point near. -/
theorem point_near (hf : Supported f) (hv : v.Normal) (hround : f.Rounds v.value n) (hn : n ≠ 0)
    (hfin : n < f.infinite) : (v.point - 1).natAbs < 1000000 := by
  have hlarge : v.value < 10 ^ (310 : ℤ) := by
    by_contra hge
    have hinf := rounds_infinite_iff.mpr (tooLarge_of_le hf (not_lt.mp hge))
    exact hfin.ne (hround.unique hinf)
  have hsmall : 10 ^ (-331 : ℤ) ≤ v.value := by
    by_contra hlt
    have hzero := (rounds_zero_iff hv.value_pos.le).mpr (tooSmall_of_lt hf (not_le.mp hlt))
    exact hn (hround.unique hzero)
  have hhigh : ¬ 310 ≤ v.point - 1 := fun h =>
    absurd hlarge (not_lt.mpr ((ten_le_ten.mpr h).trans hv.le_value))
  have hlow : ¬ v.point ≤ -331 := fun h =>
    absurd (lt_of_le_of_lt hsmall v.value_lt) (not_lt.mpr (ten_le_ten.mpr h))
  omega

theorem readFloat_shortest (hf : Supported f) (h : Window f n p t) (hn : n ≠ 0)
    (hfin : n < f.infinite) (negative exponent : Bool) :
    readFloat ((if negative then [45] else []) ++ putShortest (shortest p) exponent)
        f.mantissa f.exponent =
      some (some ((if negative then 2 ^ (f.mantissa + f.exponent) else 0) + n)) := by
  obtain ⟨j, hc⟩ := shortest_spec hf h hn hfin
  have hv := hc.rounded.normal
  obtain ⟨t, hsign, hbody, hscale, hvalue⟩ :=
    exists_shortest hv (if negative then .minus else .none) exponent
  have hread := readFloat_rounds hf
    (hscale.trans_lt (point_near hf hv hc.reads hn hfin)) (hvalue ▸ hc.reads) hfin
  rw [Numeral.bytes, hsign, hbody] at hread
  cases negative <;> exact hread

theorem readFloat_zero (hf : Supported f) (negative exponent : Bool) :
    readFloat ((if negative then [45] else []) ++ putShortest ⟨[], 0⟩ exponent)
        f.mantissa f.exponent =
      some (some (if negative then 2 ^ (f.mantissa + f.exponent) else 0)) := by
  obtain ⟨e, hbytes, hnumber, -⟩ := putPower_bytes 0
  have hzero : ∀ t : Numeral, t.digits = [0] → t.scale = 0 → readFloat t.bytes f.mantissa
      f.exponent = some (some (if t.sign = .minus then 2 ^ (f.mantissa + f.exponent) else 0)) := by
    intro t hdigits hscale
    have hvalue : t.value = 0 := by
      rw [Numeral.value, Numeral.valueAt, hdigits, number_singleton, Fin.val_zero, Nat.cast_zero,
        zero_mul]
    have hround : f.Rounds t.value 0 := by
      rw [hvalue, rounds_zero_iff le_rfl]
      exact value_half_zero
    exact readFloat_rounds hf (hscale ▸ by decide) hround f.infinite_pos
  cases exponent with
  | false =>
    have hread := hzero ⟨if negative then .minus else .none, [0], none, none,
      .inl (cons_ne_nil _ _)⟩ rfl rfl
    cases negative <;> exact hread
  | true =>
    have hread := hzero ⟨if negative then .minus else .none, [0], none, some e,
      .inl (cons_ne_nil _ _)⟩ rfl hnumber
    rw [Numeral.bytes, Numeral.body] at hread
    dsimp only at hread
    rw [hbytes] at hread
    cases negative <;> exact hread

-- ── The round trip ────

theorem builderFloat_zero {value : Given} {precision : ℤ} (hp : precision < 0) (exponent : Bool)
    (hnan : value.isNan = false) (hinf : value.isInf = false) (hm : (partsOf value).m = 0) :
    builderFloat value precision exponent =
      (if (partsOf value).negative then [45] else []) ++ putShortest ⟨[], 0⟩ exponent := by
  rw [builderFloat, hnan, hinf, if_neg Bool.false_ne_true, if_neg Bool.false_ne_true, if_pos hp,
    if_pos hm]

theorem exists_sign_magnitude {bits k : ℕ} (h : bits < 2 * k) :
    ∃ negative : Bool, bits = (if negative then k else 0) + bits % k := by
  by_cases hlow : bits < k
  · exact ⟨false, by rw [Nat.mod_eq_of_lt hlow]; exact (Nat.zero_add _).symm⟩
  · refine ⟨true, ?_⟩
    rw [Nat.mod_eq_sub_mod (Nat.not_lt.mp hlow), Nat.mod_eq_of_lt (by omega)]
    exact (Nat.add_sub_cancel' (Nat.not_lt.mp hlow)).symm

/-- What a writer of floats gives reads back, where it writes a sign and the shortest text. -/
theorem round_trip (hf : Supported f) (exponent : Bool) (write : ℕ → List UInt8)
    (hzero : ∀ negative : Bool, write (if negative then 2 ^ (f.mantissa + f.exponent) else 0) =
      (if negative then [45] else []) ++ putShortest ⟨[], 0⟩ exponent)
    (hwrite : ∀ b : FiniteBits f, ∃ p t, Window f b.magnitude p t ∧
      write b.bits = (if b.negative then [45] else []) ++ putShortest (shortest p) exponent)
    {bits : ℕ} (hbits : bits < 2 * 2 ^ (f.mantissa + f.exponent))
    (hfin : bits % 2 ^ (f.mantissa + f.exponent) < f.infinite) :
    readFloat (write bits) f.mantissa f.exponent = some (some bits) := by
  obtain ⟨negative, hsplit⟩ := exists_sign_magnitude hbits
  rw [hsplit]
  generalize bits % 2 ^ (f.mantissa + f.exponent) = n at hfin
  by_cases hn : n = 0
  · rw [hn, Nat.add_zero, hzero]
    exact readFloat_zero hf negative exponent
  · obtain ⟨p, t, hwindow, htext⟩ := hwrite ⟨negative, n, hn, hfin⟩
    rw [show write (_ + n) = _ from htext]
    exact readFloat_shortest hf hwindow hn hfin negative exponent

/-- **A float survives its text**: what is written of a finite float without a precision, in
    either form, reads back as the same bits. -/
theorem float_survives_text (precision : ℤ) (hp : precision < 0) (exponent : Bool) :
    (∀ bits < 2 ^ 64, bits % 2 ^ 63 < 2047 * 2 ^ 52 →
      readFloat (builderFloat (.f64 bits) precision exponent) 52 11 = some (some bits)) ∧
    ∀ bits < 2 ^ 32, bits % 2 ^ 31 < 255 * 2 ^ 23 →
      readFloat (builderFloat (.f32 bits) precision exponent) 23 8 = some (some bits) := by
  constructor
  · intro bits hbits hfin
    refine round_trip supported_double exponent (fun bits => builderFloat (.f64 bits) precision exponent)
      (fun negative => ?_) (builderFloat_double · hp exponent) hbits hfin
    cases negative <;> exact builderFloat_zero hp exponent rfl rfl rfl
  · intro bits hbits hfin
    refine round_trip supported_single exponent (fun bits => builderFloat (.f32 bits) precision exponent)
      (fun negative => ?_) (builderFloat_single · hp exponent) hbits hfin
    cases negative <;> exact builderFloat_zero hp exponent rfl rfl rfl

/-- The least double above zero. -/
theorem least_double_survives :
    readFloat (builderFloat (.f64 1) (-1) true) 52 11 = some (some 1) :=
  (float_survives_text (-1) (by decide) true).1 1 (by decide) (by decide)

end AnticFloat
