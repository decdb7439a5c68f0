import Antic.ConstMeaning

/-! # The integers of a width, and the bits of a constant

    A number of a constant lies in the narrowest range of its type, so every target holds it.
    `Stands t v z` says that the bits `v` are those of such a number `z`.  What the evaluation
    computes wraps to the width the constant is computed at, and a result that fits every target is
    the number of it. -/

namespace AnticConst

open AnticIr MachineInt

/-! ## Wrapping -/

namespace Width

variable {w : Width} {x y z : Int}

theorem wrap_modEq (w : Width) (z : Int) : w.wrap z ≡ z [ZMOD 2 ^ w.bits] := by
  unfold wrap
  have hbits : (MachineInt.bits w.bits z : Int) ≡ z [ZMOD 2 ^ w.bits] := by
    rw [bits_cast]
    exact Int.mod_modEq _ _
  split
  · exact (signed_modEq _ _).trans hbits
  · exact hbits

theorem wrap_congr (h : x ≡ y [ZMOD 2 ^ w.bits]) : w.wrap x = w.wrap y := by
  unfold wrap
  rw [bits_modEq h]

theorem wrap_of_holds (hw : 1 ≤ w.bits) (h : w.Holds z) : w.wrap z = z := by
  obtain ⟨bits, isSigned⟩ := w
  cases isSigned with
  | true =>
    have hlow : -2 ^ (bits - 1) ≤ z := h.1
    have hhigh : z ≤ 2 ^ (bits - 1) - 1 := h.2
    exact signed_bits (n := bits) hw ⟨hlow, by omega⟩
  | false =>
    have hlow : 0 ≤ z := h.1
    have hhigh : z ≤ 2 ^ bits - 1 := h.2
    show ((MachineInt.bits bits z : Nat) : Int) = z
    rw [bits_cast]
    exact Int.emod_eq_of_lt hlow (by omega)

theorem wrap_holds (hw : 1 ≤ w.bits) (z : Int) : w.Holds (w.wrap z) := by
  obtain ⟨bits, isSigned⟩ := w
  cases isSigned with
  | true =>
    have := signed_range (n := bits) hw (MachineInt.bits bits z)
    simp only [Holds, lowest, highest, wrap, if_true]
    omega
  | false =>
    have hlt := bits_lt bits z
    have hlt' : ((MachineInt.bits bits z : Nat) : Int) < 2 ^ bits := by
      exact_mod_cast hlt
    simp only [Holds, lowest, highest, wrap, Bool.false_eq_true, if_false]
    omega

theorem holds_zero (hw : 1 ≤ w.bits) : w.Holds 0 := by
  have hzero : w.wrap 0 = 0 := by simp [wrap, MachineInt.bits, signed]
  have := wrap_holds hw 0
  rwa [hzero] at this

/-- The number of the range that is congruent to `x` is what `x` wraps to. -/
theorem wrap_eq (hw : 1 ≤ w.bits) (h : w.Holds z) (hz : x ≡ z [ZMOD 2 ^ w.bits]) :
    w.wrap x = z := by
  rw [wrap_congr hz, wrap_of_holds hw h]

/-- An exact result or one that wraps is the remainder of the exact one. -/
theorem plain_eq (hw : 1 ≤ w.bits) {flags : Bool} (h : flags ∨ w.Holds z) :
    w.plain flags z = some (w.wrap z) := by
  unfold plain
  split
  · rename_i hz
    rw [wrap_of_holds hw hz]
  · rename_i hz
    rw [if_pos (h.resolve_right hz)]

theorem clamp_of_holds (h : w.Holds z) : w.clamp z = z := by
  unfold clamp MachineInt.clamp
  obtain ⟨h1, h2⟩ := h
  split
  · omega
  · split <;> omega

/-- A number outside the range is clamped to the end it is beyond. -/
theorem clamp_ends (h : ¬ w.Holds z) :
    (w.clamp z = highest w.bits w.isSigned ∧ highest w.bits w.isSigned < z) ∨
      (w.clamp z = lowest w.bits w.isSigned ∧ z < lowest w.bits w.isSigned) := by
  unfold clamp MachineInt.clamp
  unfold Holds at h
  split
  · exact Or.inl ⟨rfl, by omega⟩
  · exact Or.inr ⟨if_pos (by omega), by omega⟩

theorem lowest_le_highest (hw : 1 ≤ w.bits) :
    lowest w.bits w.isSigned ≤ highest w.bits w.isSigned :=
  (wrap_holds hw 0).1.trans (wrap_holds hw 0).2

theorem clamp_holds (hw : 1 ≤ w.bits) (z : Int) : w.Holds (w.clamp z) := by
  have := lowest_le_highest hw
  unfold clamp MachineInt.clamp Holds
  split
  · exact ⟨this, le_rfl⟩
  · split
    · exact ⟨le_rfl, this⟩
    · constructor <;> omega

end Width

/-! ## The widths of a type -/

/-- The width that a constant of the type is held to. -/
def IntType.narrow (t : IntType) : Width := ⟨typesBits t, typesIsSigned t⟩

/-- The width that a constant of the type is computed at. -/
def IntType.wide (t : IntType) : Width := ⟨constBits t, typesIsSigned t⟩

theorem constBits_cases (t : IntType) :
    Narrow (constBits t) ∨ constBits t = 64 := by
  cases t <;> simp [constBits, typesIsTargetSized, typesBits, Narrow]

theorem typesBits_pos (t : IntType) : 1 ≤ typesBits t := by
  cases t <;> simp [typesBits]

theorem typesBits_le (t : IntType) : typesBits t ≤ constBits t := by
  cases t <;> simp [constBits, typesIsTargetSized, typesBits]

theorem constBits_pos (t : IntType) : 1 ≤ constBits t := (typesBits_pos t).trans (typesBits_le t)

theorem constBits_le (t : IntType) : constBits t ≤ 64 := by
  cases t <;> simp [constBits, typesIsTargetSized, typesBits]

/-- The target gives the type a width from the narrowest to the one its
    constants are computed at. -/
theorem on_bits (t : IntType) (target : Target) :
    typesBits t ≤ (t.on target).bits ∧ (t.on target).bits ≤ constBits t := by
  cases t <;> cases target <;> decide

theorem on_pos (t : IntType) (target : Target) : 1 ≤ (t.on target).bits :=
  (typesBits_pos t).trans (on_bits t target).1

variable {t : IntType} {v : Nat}

theorem on_fixed (h : typesIsTargetSized t = false) (target : Target) :
    t.on target = t.wide := by
  revert h
  cases t <;> cases target <;> decide

/-- The signedness is that of the type, but for `c_wchar` where `wchar_t` is
    signed, which is wider there than its constants. -/
theorem on_signed (t : IntType) (target : Target) : (t.on target).isSigned = typesIsSigned t ∨
      (t = .cwchar ∧ target.wcharSigned = true ∧
        t.on target = ⟨32, true⟩) := by
  cases t <;> cases target <;> decide

theorem lowest_anti {n k : Nat} (h : n ≤ k) (isSigned : Bool) :
    lowest k isSigned ≤ lowest n isSigned := by
  cases isSigned with
  | false => exact le_rfl
  | true =>
    have : (2 : Int) ^ (n - 1) ≤ 2 ^ (k - 1) := pow_le_pow_right₀ (by norm_num) (by omega)
    simp only [lowest, if_true]
    omega

theorem highest_mono {n k : Nat} (h : n ≤ k) (isSigned : Bool) :
    highest n isSigned ≤ highest k isSigned := by
  have hn : (2 : Int) ^ n ≤ 2 ^ k := pow_le_pow_right₀ (by norm_num) h
  have hn' : (2 : Int) ^ (n - 1) ≤ 2 ^ (k - 1) := pow_le_pow_right₀ (by norm_num) (by omega)
  cases isSigned <;> simp [highest, hn, hn']

theorem holds_mono {n k : Nat} (h : n ≤ k) {isSigned : Bool} {z : Int}
    (hz : Width.Holds ⟨n, isSigned⟩ z) : Width.Holds ⟨k, isSigned⟩ z :=
  ⟨(lowest_anti h isSigned).trans hz.1, hz.2.trans (highest_mono h isSigned)⟩

theorem narrow_wide {z : Int} (h : t.narrow.Holds z) :
    t.wide.Holds z := holds_mono (typesBits_le t) h

theorem narrow_on {z : Int} (h : t.narrow.Holds z) (target : Target) : (t.on target).Holds z := by
  rcases on_signed t target with hs | ⟨rfl, -, hon⟩
  · have := holds_mono (on_bits t target).1 h
    rwa [← hs] at this
  · rw [hon]
    simp only [IntType.narrow, Width.Holds, lowest, highest, typesBits] at h ⊢
    norm_num at h ⊢
    omega

/-! ## The bits of a number -/

/-- `v` are the bits of the number `z`, which every target holds. -/
def Stands (t : IntType) (v : Nat) (z : Int) : Prop := v = bits 64 z ∧ t.narrow.Holds z

theorem Stands.lt {z : Int} (h : Stands t v z) : v < 2 ^ 64 := by
  rw [h.1]
  exact bits_lt 64 z

theorem wide_range {z : Int} (h : t.wide.Holds z) :
    if typesIsSigned t then -2 ^ 63 ≤ z ∧ z < 2 ^ 63 else 0 ≤ z ∧ z < 2 ^ 64 := by
  have := holds_mono (constBits_le t) h
  unfold Width.Holds lowest highest at this
  split at this
  · rename_i hs
    rw [if_pos hs]
    norm_num at this ⊢
    omega
  · rename_i hs
    rw [if_neg hs]
    norm_num at this ⊢
    omega

theorem number_bits {z : Int} (h : t.wide.Holds z) : t.number (bits 64 z) = z := by
  have hz := wide_range h
  unfold IntType.number
  split at hz
  · rename_i hs
    rw [if_pos hs]
    exact signed_bits (by norm_num) hz
  · rename_i hs
    rw [if_neg hs, bits_cast]
    exact Int.emod_eq_of_lt hz.1 hz.2

theorem Stands.number {z : Int} (h : Stands t v z) : t.number v = z := by
  rw [h.1]
  exact number_bits (narrow_wide h.2)

theorem Stands.modEq {z : Int} (h : Stands t v z) : (v : Int) ≡ z [ZMOD 2 ^ 64] := by
  rw [h.1, bits_cast]
  exact Int.mod_modEq _ _

theorem modEq_of_le {n k : Nat} (h : n ≤ k) {x y : Int}
    (hxy : x ≡ y [ZMOD 2 ^ k]) : x ≡ y [ZMOD 2 ^ n] :=
  hxy.of_dvd (pow_dvd_pow 2 h)

theorem Stands.low {z : Int} (h : Stands t v z) {n : Nat} (hn : n ≤ 64) :
    v % 2 ^ n = bits n z := by
  rw [h.1]
  exact bits_mod_of_le hn z

theorem Stands.unsigned {z : Int} (h : Stands t v z) (hs : typesIsSigned t = false) :
    (v : Int) = z := by
  have := h.number
  unfold IntType.number at this
  rwa [if_neg (by simp [hs])] at this

theorem Stands.nonneg {z : Int} (h : Stands t v z) (hz : 0 ≤ z) : (v : Int) = z := by
  have hrange := wide_range (narrow_wide h.2)
  have hlt : z < 2 ^ 64 := by
    split at hrange
    · omega
    · exact hrange.2
  rw [h.1, bits_cast]
  exact Int.emod_eq_of_lt hz hlt

theorem Stands.signed {z : Int} (h : Stands t v z) (hs : typesIsSigned t = true) :
    arithSigned v 64 = z := by
  have := h.number
  unfold IntType.number at this
  rwa [if_pos hs] at this

end AnticConst
