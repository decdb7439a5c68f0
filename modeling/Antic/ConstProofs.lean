import Antic.ConstIntegers

/-! # A constant is the value that the program computes

    One induction over an expression carries both facts: a constant has the type of its expression,
    and it is the value of the expression on every target, unless a part of it is one of the two
    operations that the evaluation computes another way.  `constants_agree` says that these two are
    all. -/

namespace AnticConst

open AnticIr MachineInt Option Nat

/-! ## Values of a type -/

/- The value is one of the type, and its numbers are held by every target. -/
mutual

def Value.Has {F : Type} : Value F → Ty → Prop
  | .int type n, t =>
    type = t ∧ ((∃ i, t = .int i) ∨ ∃ id i, t = .enum id i) ∧ ∃ z, Stands t.base n z
  | .bool _, t => t = .bool
  | .char c, t => t = .char ∧ isScalarValue c = true
  | .float _, t => ∃ f, t = .float f
  | .null, t => ∃ id, t = .pointer id
  | .text bytes, t => t = .str ∧ bytes.length ≤ maxOf .i64
  | .array _ items, t =>
    ∃ e, t = .array e items.length ∧ items.length ≤ maxOf .i64 ∧ Value.HasAll items e
  | .struct _ items, t => ∃ id fields, t = .struct id fields ∧
      Value.HasFields items fields

def Value.HasAll {F : Type} : List (Value F) → Ty → Prop
  | [], _ => True
  | v :: vs, t => v.Has t ∧ Value.HasAll vs t

def Value.HasFields {F : Type} : List (Value F) → Fields → Prop
  | [], .nil => True
  | v :: vs, .cons t ts => v.Has t ∧ Value.HasFields vs ts
  | _, _ => False

end

section Values

variable {F : Type} {v : Value F}

attribute [local simp] Value.Has

theorem has_int {t : IntType} (h : v.Has (.int t)) : ∃ n z, v = .int (.int t) n ∧ Stands t n z := by
  cases v with
  | int type n =>
    obtain ⟨rfl, -, z, hz⟩ := h
    exact ⟨n, z, rfl, hz⟩
  | bool | char | float | null | text | array | struct => simp at h

theorem has_enum {id : Nat} {t : IntType} (h : v.Has (.enum id t)) :
    ∃ n z, v = .int (.enum id t) n ∧ Stands t n z := by
  cases v with
  | int type n =>
    obtain ⟨rfl, -, z, hz⟩ := h
    exact ⟨n, z, rfl, hz⟩
  | bool | char | float | null | text | array | struct => simp at h

theorem has_bool (h : v.Has .bool) : ∃ b, v = .bool b := by
  cases v with
  | bool b => exact ⟨b, rfl⟩
  | int | char | float | null | text | array | struct => simp at h

theorem has_char (h : v.Has .char) : ∃ c, v = .char c ∧ isScalarValue c = true := by
  cases v with
  | char c => exact ⟨c, rfl, h.2⟩
  | int | bool | float | null | text | array | struct => simp at h

theorem has_float {t : FloatType} (h : v.Has (.float t)) : ∃ x, v = .float x := by
  cases v with
  | float x => exact ⟨x, rfl⟩
  | int | bool | char | null | text | array | struct => simp at h

theorem has_str (h : v.Has .str) : ∃ bytes, v = .text bytes ∧ bytes.length ≤ maxOf .i64 := by
  cases v with
  | text bytes => exact ⟨bytes, rfl, h.2⟩
  | int | bool | char | float | null | array | struct => simp at h

theorem has_pointer {id : Nat} (h : v.Has (.pointer id)) : v = .null := by
  cases v with
  | null => rfl
  | int | bool | char | float | text | array | struct => simp at h

theorem has_array {e : Ty} {n : Nat} (h : v.Has (.array e n)) :
    ∃ node items, v = .array node items ∧ items.length = n ∧ n ≤ maxOf .i64 ∧
      Value.HasAll items e := by
  cases v with
  | array node items =>
    obtain ⟨e', he, hlen, hall⟩ := h
    cases he
    exact ⟨node, items, rfl, rfl, hlen, hall⟩
  | int | bool | char | float | null | text | struct => simp at h

theorem has_struct {id : Nat} {fields : Fields} (h : v.Has (.struct id fields)) :
    ∃ node items, v = .struct node items ∧ Value.HasFields items fields := by
  cases v with
  | struct node items =>
    obtain ⟨id', fields', he, hall⟩ := h
    cases he
    exact ⟨node, items, rfl, hall⟩
  | int | bool | char | float | null | text | array => simp at h

theorem hasAll_get {items : List (Value F)} {t : Ty} (h : Value.HasAll items t)
    {i : Nat} (hi : items[i]? = some v) : v.Has t := by
  induction items generalizing i with
  | nil => simp at hi
  | cons w ws ih =>
    cases i with
    | zero =>
      cases some.inj hi
      exact h.1
    | succ i => exact ih h.2 hi

theorem hasFields_get {items : List (Value F)} {fields : Fields}
    (h : Value.HasFields items fields) {i : Nat} (hi : items[i]? = some v) {t : Ty}
    (ht : fields.get? i = some t) : v.Has t := by
  induction items generalizing i fields with
  | nil => simp at hi
  | cons w ws ih =>
    cases fields with
    | nil => cases h
    | cons u us =>
      cases i with
      | zero =>
        cases some.inj hi
        cases some.inj ht
        exact h.1
      | succ i => exact ih h.2 hi ht

theorem hasAll_replicate {t : Ty} (h : v.Has t) (n : Nat) :
    Value.HasAll (List.replicate n v) t := by
  induction n with
  | zero => trivial
  | succ n ih => exact ⟨h, ih⟩

theorem readAll_eq_map (items : List (Value F)) :
    Value.readAll items = items.map Value.read := by
  induction items with
  | nil => rfl
  | cons v vs ih =>
    show v.read :: Value.readAll vs = _
    rw [ih]
    rfl

theorem readAll_length (items : List (Value F)) : (Value.readAll items).length = items.length := by
  rw [readAll_eq_map, List.length_map]

theorem readAll_get (items : List (Value F)) (i : Nat) :
    (Value.readAll items)[i]? = (items[i]?).map Value.read := by
  rw [readAll_eq_map, List.getElem?_map]

end Values

/-! ## Numbers that wrap and fit -/

section Fits

variable {F : Type} {t : IntType} {u : Nat}

theorem or_eq_add {n m : Nat} (hn : n ≤ 64) (hm : m < 2 ^ n) :
    m ||| (2 ^ 64 - 2 ^ n) = m + (2 ^ 64 - 2 ^ n) := by
  have hhigh : 2 ^ 64 - 2 ^ n = (2 ^ (64 - n) - 1) <<< n := by
    rw [shiftLeft_eq, Nat.sub_mul, one_mul, ← pow_add, Nat.sub_add_cancel hn]
  rw [hhigh, Nat.or_comm, ← shiftLeft_add_eq_or_of_lt hm, Nat.add_comm]

theorem bits_sub_pow {n m : Nat} (hn : n ≤ 64) (hm : m < 2 ^ n) :
    bits 64 ((m : Int) - 2 ^ n) = m + (2 ^ 64 - 2 ^ n) := by
  have hpow : 2 ^ n ≤ 2 ^ 64 := Nat.pow_le_pow_right (by norm_num) hn
  have hlt : m + (2 ^ 64 - 2 ^ n) < 2 ^ 64 := by
    generalize 2 ^ n = k at *
    omega
  refine (bits_eq_iff hlt).mpr ?_
  rw [cast_add, cast_sub hpow]
  refine Int.modEq_iff_dvd.mpr ⟨1, ?_⟩
  push_cast
  ring

/-- `wrap` keeps the bits of the number at the width the constant is computed at. -/
theorem wrap_bits (hu : u < 2 ^ 64) : wrap t u = bits 64 (t.wide.wrap u) := by
  have h64 := constBits_le t
  have hpos := constBits_pos t
  have hlow : u % 2 ^ constBits t < 2 ^ constBits t := mod_lt _ (by positivity)
  have hbits : bits (constBits t) (u : Int) = u % 2 ^ constBits t := bits_natCast _ _
  have hpow : 2 ^ constBits t ≤ 2 ^ 64 := Nat.pow_le_pow_right (by norm_num) h64
  have hself (m : Nat) (hm : m < 2 ^ 64) : bits 64 (m : Int) = m := by
    rw [bits_natCast, mod_eq_of_lt hm]
  unfold wrap Width.wrap
  simp only [IntType.wide, hbits]
  by_cases hn : constBits t < 64
  · rw [if_pos hn]
    by_cases hs : typesIsSigned t
    · have htop : u % 2 ^ constBits t / 2 ^ (constBits t - 1) ≠ 0 ↔
          2 ^ (constBits t - 1) ≤ u % 2 ^ constBits t := by
        have hne : 2 ^ (constBits t - 1) ≠ 0 := by positivity
        rw [Nat.div_ne_zero_iff]
        exact ⟨fun h => h.2, fun h => ⟨hne, h⟩⟩
      by_cases hge : 2 ^ (constBits t - 1) ≤ u % 2 ^ constBits t
      · rw [if_pos ⟨hs, htop.mpr hge⟩, if_pos hs, or_eq_add h64 hlow,
          signed_of_ge hpos hlow hge, bits_sub_pow h64 hlow]
      · rw [if_neg (fun h => hge (htop.mp h.2)), if_pos hs, signed_of_lt hpos (by omega)]
        exact (hself _ (by omega)).symm
    · rw [if_neg (fun h => hs h.1), if_neg hs]
      exact (hself _ (by omega)).symm
  · have h64' : constBits t = 64 := by omega
    rw [if_neg hn, h64', mod_eq_of_lt hu]
    split
    · rw [bits_signed hu]
    · exact (hself u hu).symm

/-- A number that fits every target is the one computed, and every target holds it. -/
theorem fits_stands {v : Value F} (hu : u < 2 ^ 64) (h : fitsEveryTarget t (wrap t u) = some v) :
    v = .int (.int t) (wrap t u) ∧ Stands t (wrap t u) (t.wide.wrap u) := by
  unfold fitsEveryTarget at h
  split at h
  swap
  · cases h
  rename_i hone
  have hwide : t.wide.Holds (t.wide.wrap u) := Width.wrap_holds (constBits_pos t) _
  refine ⟨(some.inj h).symm, wrap_bits hu, ?_⟩
  rw [wrap_bits hu] at hone
  have hnumber := number_bits hwide
  unfold oneValue at hone
  unfold IntType.number at hnumber
  by_cases hsized : typesIsTargetSized t = true
  · rw [if_pos hsized] at hone
    by_cases hs : typesIsSigned t = true
    · rw [if_pos hs] at hone hnumber
      rw [hnumber] at hone
      have hone := of_decide_eq_true hone
      have hw : t.narrow = ⟨typesBits t, true⟩ := by rw [IntType.narrow, hs]
      rw [hw]
      exact ⟨hone.1, Int.le_sub_one_of_lt hone.2⟩
    · rw [if_neg hs] at hone hnumber
      have hone := of_decide_eq_true hone
      have hw : t.narrow = ⟨typesBits t, false⟩ := by
        rw [IntType.narrow, Bool.eq_false_of_not_eq_true hs]
      rw [hw, ← hnumber]
      refine ⟨Int.natCast_nonneg _, Int.le_sub_one_of_lt ?_⟩
      exact_mod_cast hone
  · have hfixed : t.narrow = t.wide := by
      simp [IntType.narrow, IntType.wide, constBits, hsized]
    rw [hfixed]
    exact hwide

theorem fits_has {v : Value F} (hu : u < 2 ^ 64) (h : fitsEveryTarget t (wrap t u) = some v) :
    v.Has (.int t) ∧ v.read = .int (t.wide.wrap u) ∧
      t.narrow.Holds (t.wide.wrap u) := by
  obtain ⟨rfl, hstands⟩ := fits_stands hu h
  refine ⟨⟨rfl, Or.inl ⟨t, rfl⟩, _, hstands⟩, ?_, hstands.2⟩
  exact congrArg RunValue.int hstands.number

end Fits

/-! ## One operation -/

section Operators

variable {F : Type} (ops : FloatOps F)

/-- A number that `integer_fits` lets through lies in the range its constant is computed in. -/
theorem integerFits_holds {s t : IntType} {v : Nat} {z : Int} (hv : Stands s v z)
    (h : integerFits s v t = true) : t.wide.Holds z := by
  have hle := constBits_le t
  have hrange := wide_range (narrow_wide hv.2)
  unfold integerFits at h
  by_cases hneg : typesIsSigned s = true ∧ arithSigned v 64 < 0
  · rw [if_pos hneg, hv.signed hneg.1] at h
    obtain ⟨hs, hlow⟩ := of_decide_eq_true h
    rw [if_pos hneg.1] at hrange
    rw [if_pos hs] at hlow
    have hz := hneg.2
    rw [hv.signed hneg.1] at hz
    have hw : t.wide = ⟨constBits t, true⟩ := by rw [IntType.wide, hs]
    rw [hw]
    show -2 ^ (constBits t - 1) ≤ z ∧ z ≤ 2 ^ (constBits t - 1) - 1
    rcases hlow with h64 | hlow
    · rw [h64]
      norm_num
      omega
    · omega
  · rw [if_neg hneg] at h
    have hhigh := of_decide_eq_true h
    have hz : 0 ≤ z := by
      split at hrange
      · rename_i hs
        by_contra hlt
        exact hneg ⟨hs, by rw [hv.signed hs]; omega⟩
      · exact hrange.1
    have hvz := hv.nonneg hz
    have hlt : v < 2 ^ 64 := hv.lt
    by_cases hs : typesIsSigned t = true
    · rw [if_pos hs] at hhigh
      have hw : t.wide = ⟨constBits t, true⟩ := by rw [IntType.wide, hs]
      have hlt' : v < 2 ^ (constBits t - 1) := hhigh.resolve_left (by omega)
      have hlt'' : (v : Int) < 2 ^ (constBits t - 1) := by exact_mod_cast hlt'
      rw [hw]
      show -2 ^ (constBits t - 1) ≤ z ∧ z ≤ 2 ^ (constBits t - 1) - 1
      omega
    · rw [if_neg hs] at hhigh
      have hw : t.wide = ⟨constBits t, false⟩ := by
        rw [IntType.wide, Bool.eq_false_of_not_eq_true hs]
      have hlt' : v < 2 ^ constBits t := by
        rcases hhigh with h64 | h
        · rw [h64]
          exact hlt
        · exact h
      have hlt'' : (v : Int) < 2 ^ constBits t := by exact_mod_cast hlt'
      rw [hw]
      show 0 ≤ z ∧ z ≤ 2 ^ constBits t - 1
      omega

/-- A number that converts and fits every target converts on each of them. -/
theorem held_of_fits {t : IntType} {u : Nat} {z : Int} {v : Value F}
    (hu : u < 2 ^ 64) (hz : (u : Int) ≡ z [ZMOD 2 ^ 64]) (hwide : t.wide.Holds z)
    (h : fitsEveryTarget t (wrap t u) = some v) :
    v.Has (.int t) ∧ ∀ target : Target, (t.on target).Holds z ∧ v.read = .int z := by
  obtain ⟨hhas, hread, hnarrow⟩ := fits_has hu h
  have hsame : t.wide.wrap u = z :=
    Width.wrap_eq (constBits_pos t) hwide (modEq_of_le (constBits_le t) hz)
  rw [hsame] at hread hnarrow
  exact ⟨hhas, fun target => ⟨narrow_on hnarrow target, hread⟩⟩

theorem small_holds {t : IntType} {n : Nat} (h : n ≤ 1) : t.wide.Holds n := by
  unfold Width.Holds lowest highest IntType.wide
  cases t <;> norm_num [constBits, typesBits, typesIsSigned, typesIsTargetSized] <;>
    omega

/-- A float that `float_fits` lets through has a number every target holds. -/
theorem floatFits_holds {x : F} {t : IntType} (h : floatFits ops x t = true) :
    ∃ z, ops.trunc x = some z ∧ t.narrow.Holds z := by
  unfold floatFits at h
  cases htrunc : ops.trunc x with
  | none =>
    rw [htrunc] at h
    cases h
  | some z =>
    rw [htrunc] at h
    have hrange := of_decide_eq_true h
    refine ⟨z, rfl, ?_⟩
    unfold Width.Holds lowest highest IntType.narrow
    split at hrange
    · rename_i hs
      rw [if_pos hs, if_pos hs]
      exact ⟨hrange.1, Int.le_sub_one_of_lt hrange.2⟩
    · rename_i hs
      rw [if_neg hs, if_neg hs]
      exact ⟨hrange.1, Int.le_sub_one_of_lt hrange.2⟩

/-- The conversion of a constant is the conversion of the program. -/
theorem constAs_runs {source result : Ty} {a v : Value F} (ha : a.Has source)
    (hconv : canConvert source result = true)
    (h : constAs ops result a = some v) :
    v.Has result ∧ ∀ target, runAs target ops result a.read = some v.read := by
  unfold constAs at h
  split at h
  · cases h
  rename_i hdefined
  cases a with
  | int type n =>
    obtain ⟨rfl, hkind, z, hz⟩ := ha
    have hread : (Value.int type n : Value F).read = .int z := congrArg RunValue.int hz.number
    have hnumber : (if typesIsSigned type.base then arithSigned n 64 else (n : Int)) = z :=
      hz.number
    cases result with
    | float f =>
      have hv : v = .float (ops.ofInt (decide (f = .f32)) z) := by
        cases f <;> simp only [hnumber] at h <;> exact (some.inj h).symm
      subst hv
      refine ⟨⟨f, rfl⟩, fun target => ?_⟩
      rw [hread]
      cases f <;> rfl
    | int t =>
      have hfits : integerFits type.base n t = true := by
        simpa [castUndefined] using hdefined
      obtain ⟨hhas, hall⟩ := held_of_fits hz.lt hz.modEq (integerFits_holds hz hfits) h
      refine ⟨hhas, fun target => ?_⟩
      rw [hread, (hall target).2]
      exact if_pos (hall target).1
    | char =>
      have hscalar : isScalarValue n = true := by
        simpa [castUndefined] using hdefined
      have hsmall : n ≤ 0x10FFFF := (of_decide_eq_true hscalar).1
      have hzn : z = n := by
        have hs : arithSigned n 64 = n := signed_of_lt (n := 64) (by norm_num) (by norm_num; omega)
        rw [← hnumber]
        split
        · exact hs
        · rfl
      have hv : v = .char n := by
        rw [← some.inj h, mod_eq_of_lt (by omega)]
      subst hv
      refine ⟨⟨rfl, hscalar⟩, fun target => ?_⟩
      rw [hread, hzn]
      exact if_pos ⟨Int.natCast_nonneg n, hscalar⟩
    | bool | str | pointer | enum | array | struct => cases h
  | bool b =>
    cases result with
    | int t =>
      have hle : b.toNat ≤ 1 := Bool.toNat_le b
      obtain ⟨hhas, hall⟩ := held_of_fits (z := (b.toNat : Int)) (by omega)
        (Int.ModEq.refl _) (small_holds hle) h
      refine ⟨hhas, fun target => ?_⟩
      rw [(hall target).2]
      exact if_pos (hall target).1
    | float f => cases f <;> cases h
    | bool | char | str | pointer | enum | array | struct => cases h
  | char c =>
    obtain ⟨rfl, hscalar⟩ := ha
    have hsmall : c ≤ 0x10FFFF := (of_decide_eq_true hscalar).1
    cases result with
    | int t =>
      -- A `char` converts to a `u32` alone.
      have ht : t = .u32 := by
        cases t <;> first | rfl | cases hconv
      subst ht
      have hwide : IntType.u32.wide.Holds (c : Int) := by
        show (0 : Int) ≤ c ∧ (c : Int) ≤ 2 ^ 32 - 1
        norm_num
        omega
      obtain ⟨hhas, hall⟩ := held_of_fits (by omega) (Int.ModEq.refl _) hwide h
      refine ⟨hhas, fun target => ?_⟩
      rw [(hall target).2]
      exact if_pos (hall target).1
    | float f => cases f <;> cases h
    | bool | char | str | pointer | enum | array | struct => cases h
  | float x =>
    cases result with
    | float f => cases f <;> cases some.inj h <;> exact ⟨⟨_, rfl⟩, fun _ => rfl⟩
    | int t =>
      have hfits : floatFits ops x t = true := by
        simpa [castUndefined] using hdefined
      obtain ⟨z, htrunc, hnarrow⟩ := floatFits_holds ops hfits
      have h' : fitsEveryTarget t (wrap t (toBits64 z)) = some v := by
        have h0 := h
        simp only [htrunc] at h0
        exact h0
      have hmod : ((toBits64 z : Nat) : Int) ≡ z [ZMOD 2 ^ 64] := by
        rw [toBits64_eq, bits_cast]
        exact Int.mod_modEq _ _
      obtain ⟨hhas, hall⟩ := held_of_fits (bits_lt 64 z) hmod (narrow_wide hnarrow) h'
      refine ⟨hhas, fun target => ?_⟩
      show (ops.trunc x).bind _ = _
      rw [htrunc, (hall target).2]
      exact if_pos (hall target).1
    | bool | char | str | pointer | enum | array | struct => cases h
  | null | text | array | struct =>
    cases result with
    | float f => cases f <;> cases h
    | int | bool | char | str | pointer | enum | array | struct => cases h

end Operators

section Unary

variable {F : Type} (ops : FloatOps F)

/-- A number modulo `2 ^ 64` wraps and fits on every target alike. -/
theorem wrap_of_fits {t : IntType} {u : Nat} {e : Int} {v : Value F}
    (hu : u < 2 ^ 64) (he : (u : Int) ≡ e [ZMOD 2 ^ constBits t])
    (h : fitsEveryTarget t (wrap t u) = some v) :
    v.Has (.int t) ∧ v.read = .int (t.wide.wrap e) ∧
      t.narrow.Holds (t.wide.wrap e) := by
  obtain ⟨hhas, hread, hnarrow⟩ := fits_has hu h
  have hsame : t.wide.wrap u = t.wide.wrap e := Width.wrap_congr he
  rw [hsame] at hread hnarrow
  exact ⟨hhas, hread, hnarrow⟩

theorem sub64_modEq {v : Nat} {z : Int} (hv : v < 2 ^ 64) {n : Nat} (hn : n ≤ 64)
    (hz : (v : Int) ≡ z [ZMOD 2 ^ n]) : (sub64 0 v : Int) ≡ -z [ZMOD 2 ^ n] := by
  have hsub : (sub64 0 v : Int) ≡ 0 - v [ZMOD 2 ^ 64] := by
    rw [sub64_eq_bits hv, bits_cast]
    exact Int.mod_modEq _ _
  refine (modEq_of_le hn hsub).trans ?_
  rw [Int.zero_sub]
  exact hz.neg

/-- The operand types a unary operator takes. -/
def unaryFit (op : UnaryOp) (t : Ty) : Bool :=
  match op, t with
  | .minus, .int t => typesIsSigned t
  | .minus, .float t => t ≠ .f16
  | .bang, .bool => true
  | .tilde, .int _ => true
  | _, _ => false

/-- A unary operator on a constant is the operator of the program. -/
theorem constUnary_runs {op : UnaryOp} {t : Ty} {flags : Bool} {a v : Value F}
    (ha : a.Has t) (hfit : unaryFit op t = true)
    (h : constUnary ops op t flags false a = some v) :
    v.Has (if op = .bang then .bool else t) ∧
      ∀ target, runUnary target ops op t flags a.read = some v.read := by
  unfold constUnary at h
  split at h
  · cases h
  rename_i hdefined
  cases op with
  | bang =>
    cases t with
    | bool =>
      obtain ⟨b, rfl⟩ := has_bool ha
      cases some.inj h
      exact ⟨rfl, fun _ => rfl⟩
    | char | int | float | str | pointer | enum | array | struct => cases hfit
  | tilde =>
    cases t with
    | int t =>
      obtain ⟨n, z, rfl, hz⟩ := has_int ha
      have hread : (Value.int (.int t) n : Value F).read = .int z := congrArg RunValue.int hz.number
      have hlt := hz.lt
      -- The complement is the number below the negated one.
      have hmod : ((2 ^ 64 - 1 - n : Nat) : Int) ≡ -z - 1 [ZMOD 2 ^ 64] := by
        have hcast : ((2 ^ 64 - 1 - n : Nat) : Int) = 2 ^ 64 + (-(n : Int) - 1) := by
          omega
        rw [hcast]
        have hneg : -(n : Int) - 1 ≡ -z - 1 [ZMOD 2 ^ 64] := (hz.modEq.neg).sub_right 1
        exact (Int.add_modEq_left).trans hneg
      obtain ⟨hhas, hv, hnarrow⟩ := wrap_of_fits (by omega) (modEq_of_le (constBits_le t) hmod) h
      refine ⟨hhas, fun target => ?_⟩
      rw [hread, hv]
      exact congrArg (fun z => some (RunValue.int z)) (wrap_on rfl hnarrow)
    | bool | char | float | str | pointer | enum | array | struct => cases hfit
  | minus =>
    cases t with
    | float f =>
      obtain ⟨x, rfl⟩ := has_float ha
      cases some.inj h
      exact ⟨⟨f, rfl⟩, fun _ => rfl⟩
    | int t =>
      obtain ⟨n, z, rfl, hz⟩ := has_int ha
      have hread : (Value.int (.int t) n : Value F).read = .int z := congrArg RunValue.int hz.number
      have hsigned : typesIsSigned t = true := hfit
      have hmod := sub64_modEq hz.lt (constBits_le t) (modEq_of_le (constBits_le t) hz.modEq)
      obtain ⟨hhas, hv, hnarrow⟩ := wrap_of_fits (mod_lt _ (by norm_num)) hmod h
      refine ⟨hhas, fun target => ?_⟩
      -- The test is that of a subtraction from zero.
      have hzero : Stands t 0 0 := ⟨rfl, Width.holds_zero (typesBits_pos t)⟩
      have hexact : flags = true ∨ t.wide.Holds (-z) := by
        by_cases hflags : flags = true
        · exact Or.inl hflags
        · have hd := arithDirection_zero hzero hz .sub
          rw [hsigned] at hd
          have hneg : ArithOp.onInt .sub 0 z = -z := Int.zero_sub z
          rw [hneg] at hd
          refine Or.inr (hd.mp ?_)
          by_contra hne
          exact hdefined ⟨rfl, by simp [minusUndefined, hsigned, hflags, hne]⟩
      have hplain := Width.plain_eq (w := t.wide) (constBits_pos t) hexact
      rw [hread, hv]
      show ((t.on target).plain flags (-z)).map RunValue.int = _
      rw [plain_on hplain hnarrow]
      rfl
    | bool | char | str | pointer | enum | array | struct => cases hfit

theorem wrap_lt {t : IntType} {n : Nat} (hn : n < 2 ^ 64) : wrap t n < 2 ^ 64 := by
  rw [wrap_bits hn]
  exact bits_lt 64 _

theorem constMinus_literal {t : IntType} {n : Nat} {flags : Bool} {v : Value F} (hn : n < 2 ^ 64)
    (h : constUnary ops .minus (.int t) flags true (.int (.int t) (wrap t n)) = some v) :
    v.Has (.int t) ∧ ∀ target : Target, v.read = .int ((t.on target).wrap (-n)) := by
  have h' : fitsEveryTarget t (wrap t (sub64 0 (wrap t n))) = some v := by
    unfold constUnary at h
    split at h
    · cases h
    · exact h
  have hmod : (wrap t n : Int) ≡ n [ZMOD 2 ^ constBits t] := by
    rw [wrap_bits hn, bits_cast]
    refine (modEq_of_le (constBits_le t) (Int.mod_modEq _ _)).trans ?_
    exact Width.wrap_modEq t.wide n
  obtain ⟨hhas, hv, hnarrow⟩ := wrap_of_fits (mod_lt _ (by norm_num))
    (sub64_modEq (wrap_lt hn) (constBits_le t) hmod) h'
  refine ⟨hhas, fun target => ?_⟩
  have hwrap : (t.on target).wrap (-n) = t.wide.wrap (-n) := wrap_on rfl hnarrow
  rw [hv, hwrap]

theorem maxOf_holds {t : IntType} {n : Nat} (hn : n ≤ maxOf t) :
    t.narrow.Holds (n : Int) := by
  have hpow : 1 ≤ 2 ^ (typesBits t - 1) := Nat.one_le_two_pow
  have hpow' : 1 ≤ 2 ^ typesBits t := Nat.one_le_two_pow
  unfold maxOf at hn
  cases hs : typesIsSigned t with
  | true =>
    rw [if_pos hs] at hn
    have hlt : n < 2 ^ (typesBits t - 1) := by omega
    have hlt' : (n : Int) < 2 ^ (typesBits t - 1) := by exact_mod_cast hlt
    have hw : t.narrow = ⟨typesBits t, true⟩ := by rw [IntType.narrow, hs]
    rw [hw]
    show -2 ^ (typesBits t - 1) ≤ (n : Int) ∧ (n : Int) ≤ 2 ^ (typesBits t - 1) - 1
    omega
  | false =>
    rw [if_neg (by simp [hs])] at hn
    have hlt : n < 2 ^ typesBits t := by omega
    have hlt' : (n : Int) < 2 ^ typesBits t := by exact_mod_cast hlt
    have hw : t.narrow = ⟨typesBits t, false⟩ := by rw [IntType.narrow, hs]
    rw [hw]
    show (0 : Int) ≤ n ∧ (n : Int) ≤ 2 ^ typesBits t - 1
    omega

theorem const_literal {t : IntType} {n : Nat} (hn : n ≤ maxOf t) :
    (Value.int (.int t) (wrap t n) : Value F).Has (.int t) ∧ ∀ target : Target,
        (Value.int (.int t) (wrap t n) : Value F).read =
          .int ((t.on target).wrap n) := by
  have hnarrow := maxOf_holds hn
  have hrange := wide_range (narrow_wide hnarrow)
  have hlt : n < 2 ^ 64 := by
    have hlt' : (n : Int) < 2 ^ 64 := by
      split at hrange
      · omega
      · exact hrange.2
    exact_mod_cast hlt'
  have hwrap : t.wide.wrap n = n := Width.wrap_of_holds (constBits_pos t) (narrow_wide hnarrow)
  have hstands : Stands t (wrap t n) n := by
    refine ⟨?_, hnarrow⟩
    rw [wrap_bits hlt, hwrap]
  refine ⟨⟨rfl, Or.inl ⟨t, rfl⟩, n, hstands⟩, fun target => ?_⟩
  show RunValue.int (t.number (wrap t n)) = _
  rw [hstands.number, Width.wrap_of_holds (on_pos t target) (narrow_on hnarrow target)]

end Unary

section Binary

variable {F : Type} (ops : FloatOps F)

theorem stands_nat {t : IntType} {n : Nat} (hn : n ≤ maxOf t) : Stands t n n := by
  have hnarrow := maxOf_holds hn
  refine ⟨?_, hnarrow⟩
  have hrange := wide_range (narrow_wide hnarrow)
  have hlt : (n : Int) < 2 ^ 64 := by
    split at hrange
    · omega
    · exact hrange.2
  rw [bits_natCast, mod_eq_of_lt (by exact_mod_cast hlt)]

theorem compare_cast (n m : Nat) : compare (n : Int) (m : Int) = compare n m := by
  simp only [compare, compareOfLessAndEq, cast_lt, Nat.cast_inj]

theorem answer_eq {α : Type} [LinearOrder α] (x y : α) :
    BinaryOp.answer .eq (compare x y) = decide (x = y) := by
  simp [BinaryOp.answer]

theorem answer_ne {α : Type} [LinearOrder α] (x y : α) :
    BinaryOp.answer .ne (compare x y) = !decide (x = y) := by
  simp [BinaryOp.answer]

/-- The bits of two numbers of a type are the same where the numbers are. -/
theorem stands_inj {t : IntType} {n m : Nat} {z w : Int} (hz : Stands t n z)
    (hw : Stands t m w) : n = m ↔ z = w := by
  constructor
  · rintro rfl
    rw [← hz.number, hw.number]
  · rintro rfl
    rw [hz.1, hw.1]

/-- The operators that the checker takes on two operands of type `t`. -/
def comparesFit (op : BinaryOp) (t : Ty) : Bool :=
  match op with
  | .eq | .ne => true
  | .lt | .le | .gt | .ge => t.isNumeric || t = .char || t = .str
  | _ => false

variable {op : BinaryOp} {a : Value F}

theorem comparesFit_places {t : Ty} (hfit : comparesFit op t = true)
    (ht : (t.isNumeric || t = .char || t = .str) = false) : op = .eq ∨ op = .ne := by
  cases op with
  | eq => exact Or.inl rfl
  | ne => exact Or.inr rfl
  | lt | le | gt | ge => exact absurd hfit (by rw [comparesFit, ht]; simp)
  | plus | plusWrap | plusSat | minus | minusWrap | minusSat | star | starWrap
  | starSat | mulHigh | slash | percent | amp | pipe | caret | shl | shlWrap
  | shr | andAnd | orOr | questionQuestion => cases hfit

theorem node_cases {i : Nat} (h : a.read.node? = some i) :
    ∃ items, a = .array i items ∨ a = .struct i items := by
  cases a with
  | array node items =>
    cases some.inj h
    exact ⟨items, Or.inl rfl⟩
  | struct node items =>
    cases some.inj h
    exact ⟨items, Or.inr rfl⟩
  | int | bool | char | float | null | text => cases h

theorem compare_places {b : Value F} {i j : Nat} (hop : op = .eq ∨ op = .ne)
    (hi : a.read.node? = some i) (hj : b.read.node? = some j) :
    runCompare ops op a.read b.read = some (constCompare ops op false a b) ↔
      decide (i = j) = a.read.equal ops b.read := by
  have hconst : constCompare ops op false a b = op.answer (compare i j) := by
    obtain ⟨as, rfl | rfl⟩ := node_cases hi <;>
      obtain ⟨bs, rfl | rfl⟩ := node_cases hj <;> rfl
  have hrun : runCompare ops op a.read b.read = some (if op = .eq then a.read.equal ops b.read
        else !a.read.equal ops b.read) := by
    obtain ⟨as, rfl | rfl⟩ := node_cases hi <;>
      obtain ⟨bs, rfl | rfl⟩ := node_cases hj <;>
      rcases hop with rfl | rfl <;> rfl
  rw [hconst, hrun]
  rcases hop with rfl | rfl
  · rw [answer_eq, if_pos rfl, some.injEq]
    exact eq_comm
  · rw [answer_ne, if_neg (by simp), some.injEq]
    cases a.read.equal ops b.read <;> cases decide (i = j) <;> simp

/-- A comparison of constants is the comparison of the program, where the places
    of two arrays or structs tell whether they are equal. -/
theorem constCompare_runs {t : Ty} {b : Value F} (ha : a.Has t) (hb : b.Has t)
    (hfit : comparesFit op t = true)
    (hplaces : ∀ i j, a.read.node? = some i → b.read.node? = some j →
      decide (i = j) = a.read.equal ops b.read) :
    runCompare ops op a.read b.read =
      some (constCompare ops op t.isSigned a b) := by
  cases t with
  | bool =>
    obtain ⟨x, rfl⟩ := has_bool ha
    obtain ⟨y, rfl⟩ := has_bool hb
    rfl
  | char =>
    obtain ⟨x, rfl, -⟩ := has_char ha
    obtain ⟨y, rfl, -⟩ := has_char hb
    rfl
  | int t =>
    obtain ⟨n, z, rfl, hz⟩ := has_int ha
    obtain ⟨m, w, rfl, hw⟩ := has_int hb
    have hreadz : (Value.int (.int t) n : Value F).read = .int z := congrArg RunValue.int hz.number
    have hreadw : (Value.int (.int t) m : Value F).read = .int w := congrArg RunValue.int hw.number
    rw [hreadz, hreadw]
    show some (op.answer (compare z w)) = some (if typesIsSigned t then _ else _)
    cases hs : typesIsSigned t with
    | true =>
      show _ = some (op.answer (compare (arithSigned n 64) (arithSigned m 64)))
      rw [hz.signed hs, hw.signed hs]
    | false =>
      show _ = some (op.answer (compare n m))
      rw [← compare_cast, hz.unsigned hs, hw.unsigned hs]
  | float f =>
    obtain ⟨x, rfl⟩ := has_float ha
    obtain ⟨y, rfl⟩ := has_float hb
    rfl
  | str =>
    obtain ⟨x, rfl, -⟩ := has_str ha
    obtain ⟨y, rfl, -⟩ := has_str hb
    rfl
  | pointer id =>
    rw [has_pointer ha, has_pointer hb]
    rfl
  | enum id base =>
    obtain ⟨n, z, rfl, hz⟩ := has_enum ha
    obtain ⟨m, w, rfl, hw⟩ := has_enum hb
    have hreadz : (Value.int (.enum id base) n : Value F).read = .int z :=
      congrArg RunValue.int hz.number
    have hreadw : (Value.int (.enum id base) m : Value F).read = .int w :=
      congrArg RunValue.int hw.number
    have hsame := stands_inj hz hw
    rw [hreadz, hreadw]
    show some (op.answer (compare z w)) = some (op.answer (compare n m))
    -- An enum has no order, and its values are equal where the bits are.
    cases op with
    | eq => rw [answer_eq, answer_eq, decide_eq_decide.mpr hsame]
    | ne => rw [answer_ne, answer_ne, decide_eq_decide.mpr hsame]
    | lt | le | gt | ge => cases hfit
    | plus | plusWrap | plusSat | minus | minusWrap | minusSat | star | starWrap
    | starSat | mulHigh | slash | percent | amp | pipe | caret | shl | shlWrap
    | shr | andAnd | orOr | questionQuestion => cases hfit
  | array e n =>
    obtain ⟨i, as, rfl, -, -, -⟩ := has_array ha
    obtain ⟨j, bs, rfl, -, -, -⟩ := has_array hb
    exact (compare_places ops (comparesFit_places hfit rfl) rfl rfl).mpr (hplaces i j rfl rfl)
  | struct id fields =>
    obtain ⟨i, as, rfl, -⟩ := has_struct ha
    obtain ⟨j, bs, rfl, -⟩ := has_struct hb
    exact (compare_places ops (comparesFit_places hfit rfl) rfl rfl).mpr (hplaces i j rfl rfl)

/-- Where the places of two arrays or structs tell otherwise, the comparisons differ. -/
theorem constCompare_differs {t : Ty} {b : Value F} {i j : Nat}
    (hfit : comparesFit op t = true) (ha : a.Has t) (hi : a.read.node? = some i)
    (hj : b.read.node? = some j) (hplace : decide (i = j) ≠ a.read.equal ops b.read) :
    runCompare ops op a.read b.read ≠
      some (constCompare ops op t.isSigned a b) := by
  cases t with
  | array e n | struct id fields =>
    exact fun h => hplace ((compare_places ops (comparesFit_places hfit rfl) hi hj).mp h)
  | bool =>
    obtain ⟨x, rfl⟩ := has_bool ha
    cases hi
  | char =>
    obtain ⟨x, rfl, -⟩ := has_char ha
    cases hi
  | int t =>
    obtain ⟨n, z, rfl, -⟩ := has_int ha
    cases hi
  | float f =>
    obtain ⟨x, rfl⟩ := has_float ha
    cases hi
  | str =>
    obtain ⟨x, rfl, -⟩ := has_str ha
    cases hi
  | pointer id =>
    rw [has_pointer ha] at hi
    cases hi
  | enum id base =>
    obtain ⟨n, z, rfl, -⟩ := has_enum ha
    cases hi

end Binary

section Numbers

variable {F : Type} (ops : FloatOps F)

/-- The constant of an integer operation is the number that every target
    computes, unless it is a `-|` that `c_wchar` takes below zero. -/
theorem constBinary_number {op : BinaryOp} {t : IntType} {flags : Bool} {n : Nat}
    {x y : Int} {b v : Value F} (hop : op.givesBool = false)
    (hvalue : op ≠ .questionQuestion) (hx : Stands t n x)
    (hy : Stands t b.integer y)
    (h : constBinary ops op (.int t) flags (.int (.int t) n) b = some v) :
    ∃ z, v.Has (.int t) ∧ v.read = .int z ∧ t.narrow.Holds z ∧ ∀ target : Target,
        ¬ (op = .minusSat ∧ t = .cwchar ∧ target.wcharSigned = true ∧ x < y) →
          runInteger (t.on target) op flags x y = some z := by
  have hcompare : op.isComparison = false := by
    unfold BinaryOp.givesBool at hop
    cases hc : op.isComparison with
    | false => rfl
    | true =>
      rw [hc] at hop
      cases hop
  unfold constBinary at h
  split at h
  · cases h
  rename_i hdefined
  split at h
  · cases h
  rename_i hhigh
  rw [hcompare] at h
  have hd : Defined op t flags x y :=
    defined_of hx hy rfl rfl (Bool.eq_false_of_not_eq_true hdefined)
  have hfixed : op = .mulHigh → typesIsTargetSized t = false := fun he =>
    Bool.eq_false_of_not_eq_true fun hs => hhigh ⟨he, hs⟩
  have hrun := constInteger_wide hx hy hop hvalue hfixed hd
  have hlt : constInteger op t n b.integer < 2 ^ 64 := constInteger_lt hx.lt hy.lt
  obtain ⟨hhas, hread, hnarrow⟩ := fits_has hlt h
  exact ⟨_, hhas, hread, hnarrow, fun target hborrow =>
    runInteger_on hd hx.2 hy.2 hfixed hborrow hrun hnarrow⟩

/-- Where `c_wchar` is signed the program takes the difference below zero. -/
theorem minusSat_negative {target : Target} {flags : Bool} {x y : Int}
    (hsigned : target.wcharSigned = true) (hx : IntType.cwchar.narrow.Holds x)
    (hy : IntType.cwchar.narrow.Holds y) (hlt : x < y) :
    runInteger (IntType.cwchar.on target) .minusSat flags x y = some (x - y) := by
  have hon : IntType.cwchar.on target = ⟨32, true⟩ := by
    revert hsigned
    cases target <;> decide
  have hx0 : 0 ≤ x := hx.1
  have hy1 : y ≤ 2 ^ 16 - 1 := hy.2
  have hholds : (⟨32, true⟩ : Width).Holds (x - y) := by
    show -2 ^ 31 ≤ x - y ∧ x - y ≤ 2 ^ 31 - 1
    norm_num at hy1 ⊢
    omega
  rw [hon]
  exact congrArg some (Width.clamp_of_holds hholds)

end Numbers

end AnticConst
