import Antic.PeepholeProofs

/-! # Folding and simplifying an instruction keeps its value

    `foldInst` computes what an instruction computes, and `simplify` finds an instruction that
    computes the same, both on every target.  Two of the rules look at a constant before the target
    is known, and what they need of the machine stands in `Simplifies`. -/

namespace AnticIr

open MachineInt Option Nat

/-! ## Values and their types -/

section Trim

variable {fl : Floats} {type : IrType}

theorem trimTo_lt (fl : Floats) (type : IrType) (v : Nat) :
    trimTo fl type v < 2 ^ 64 := by
  unfold trimTo
  split
  · exact fl.round_lt v
  · calc irFoldTrim type v < 2 ^ irFoldBits type := mod_lt _ (by positivity)
      _ ≤ 2 ^ 64 := Nat.pow_le_pow_right (by norm_num) (irFoldBits_le type)

theorem trimTo_congr {v w : Nat}
    (h : v % 2 ^ irFoldBits type = w % 2 ^ irFoldBits type) (hv : v < 2 ^ 64)
    (hw : w < 2 ^ 64) : trimTo fl type v = trimTo fl type w := by
  unfold trimTo
  split
  · next hf =>
    subst hf
    have heq : v % 2 ^ 64 = w % 2 ^ 64 := h
    rw [mod_eq_of_lt hv, mod_eq_of_lt hw] at heq
    rw [heq]
  · exact h

theorem trimTo_irFoldTrim {v : Nat} (hv : v < 2 ^ 64) :
    trimTo fl type (irFoldTrim type v) = trimTo fl type v := by
  refine trimTo_congr (mod_mod _ _) ?_ hv
  exact lt_of_le_of_lt (mod_le _ _) hv

end Trim

/-- A constant as `ir_int_op` and the float literals make it: it has no bits beyond its type. -/
def Normal (fl : Floats) (o : IrOperand) : Prop :=
  (o.kind = .int → o.type ≠ .f32 ∧ irFoldTrim o.type o.val = o.val) ∧
  (o.kind = .float → trimTo fl o.type o.val = o.val)

/-- A temporary carries its type. -/
def OperandOk (temps : List IrType) (o : IrOperand) : Prop :=
  o.kind = .temp → temps[o.val]? = some o.type

section Values

variable {fl : Floats} {env : Env} {t : Target} {syms : Nat → Nat}
  {temps : List IrType} {m : Machine}

theorem type_of_not_targetSized {type : IrType} (h : isTargetSized type = false) :
    t.type type = type := by
  cases type with
  | clong => cases h
  | cwchar => cases h
  | lock => cases h
  | _ => rfl

theorem operandValue_lt {o : IrOperand} (ho : OperandOk temps o) (hm : m.Typed fl t temps) :
    operandValue fl env m (resolveOperand t syms o) < 2 ^ 64 := by
  cases hk : o.kind with
  | temp =>
    rw [resolveOperand_temp hk]
    simp only [operandValue, hk]
    rw [← hm _ _ (ho hk)]
    exact trimTo_lt fl _ _
  | none => simp [resolveOperand, operandValue, hk]
  | int | sym => simpa [resolveOperand, operandValue, hk, irIntOp] using trimTo_lt fl _ _
  | float => simpa [resolveOperand, operandValue, hk] using trimTo_lt fl _ _
  | global | func | block => simpa [resolveOperand, operandValue, hk] using mod_lt _ (by norm_num)

theorem operandValue_int {o : IrOperand} (hk : o.kind = .int) (hf : t.type o.type ≠ .f32) :
    operandValue fl env m (resolveOperand t syms o) =
      o.val % 2 ^ irFoldBits (t.type o.type) := by
  simp only [resolveOperand, hk, operandValue, irIntOp, trimTo, if_neg hf, irFoldTrim, mod_mod]

theorem operandValue_irIntOp (type : IrType) (v : Nat) (hs : isTargetSized type = false) :
    operandValue fl env m (resolveOperand t syms (irIntOp type v)) =
      trimTo fl type (irFoldTrim type v) := by
  simp only [resolveOperand, irIntOp, operandValue, type_of_not_targetSized hs, irFoldTrim, mod_mod]

theorem operandValue_irFloatOp (type : IrType) (v : Nat) (hs : isTargetSized type = false) :
    operandValue fl env m (resolveOperand t syms (irFloatOp type v)) =
      trimTo fl type v := by
  simp only [resolveOperand, irFloatOp, operandValue, type_of_not_targetSized hs]

theorem operandValue_constant {o : IrOperand} (hk : isConstant o = true)
    (hn : Normal fl o) (hs : isTargetSized o.type = false) :
    operandValue fl env m (resolveOperand t syms o) = o.val ∧ o.val < 2 ^ 64 := by
  have hkind : o.kind = .int ∨ o.kind = .float := by simpa [isConstant] using hk
  rcases hkind with hk | hk
  · obtain ⟨hf, htrim⟩ := hn.1 hk
    have htype : t.type o.type = o.type := type_of_not_targetSized hs
    refine ⟨?_, ?_⟩
    · rw [operandValue_int hk (by rwa [htype]), htype]
      exact htrim
    · rw [← htrim]
      exact lt_of_lt_of_le (mod_lt _ (by positivity))
        (Nat.pow_le_pow_right (by norm_num) (irFoldBits_le _))
  · have htrim := hn.2 hk
    refine ⟨?_, ?_⟩
    · simp only [resolveOperand, hk, operandValue, type_of_not_targetSized hs, htrim]
    · rw [← htrim]
      exact trimTo_lt fl _ _

end Values

/-! ## What the verifier says of the types -/

/-- The operations of two operands of their own type that are computed. -/
def isBinary : IrOp → Bool
  | .add | .sub | .mul | .sdiv | .udiv | .srem | .urem | .and | .or | .xor
  | .shl | .shrS | .shrU | .fadd | .fsub | .fmul | .fdiv | .mulhS | .mulhU
  | .addSatS | .addSatU | .subSatS | .subSatU | .mulSatS | .mulSatU => true
  | _ => false

/-- The operations of one operand of their own type that are computed. -/
def isUnary : IrOp → Bool
  | .neg | .not | .fneg | .copy => true
  | _ => false

/-- The arithmetic on floating-point numbers. -/
def isFloatArith : IrOp → Bool
  | .fadd | .fsub | .fmul | .fdiv => true
  | _ => false

/-- The comparisons of floating-point numbers. -/
def isFloatCompare : IrOp → Bool
  | .feq | .fne | .flt | .fle | .fgt | .fge => true
  | _ => false

/-- What the verifier checks of the types of an instruction, where folding or
    simplifying relies on it. -/
structure InstTyped (temps : List IrType) (i : IrInst) : Prop where
  operand : ∀ o ∈ i.operands, OperandOk temps o
  binary : isBinary i.op = true →
    (i.a.kind = .none ∨ i.a.type = i.type) ∧ (i.b.kind = .none ∨ i.b.type = i.type)
  unary : isUnary i.op = true → i.a.kind = .none ∨ i.a.type = i.type
  compare : isCompare i.op = true ∨ isFloatCompare i.op = true → i.a.type = i.b.type ∧ i.type = .i8
  htrunc : i.op = .htrunc → i.type = .i16
  branch : i.op = .branch → i.a.kind = .none ∨ i.a.type = .i8

/-! ## Constant folding -/

/-- The value that an instruction computes is that of an operand. -/
def Gives (fl : Floats) (env : Env) (t : Target) (syms : Nat → Nat) (m : Machine)
    (i : IrInst) (o : IrOperand) : Prop :=
  isComputed (resolveInst t syms i).op = true ∧
  instValue fl env m (resolveInst t syms i) =
    some (trimTo fl (t.type i.type) (operandValue fl env m (resolveOperand t syms o)))

section Fold

variable {fl : Floats} {env : Env} {t : Target} {syms : Nat → Nat}
  {temps : List IrType} {m : Machine} {i : IrInst}

theorem resolveOperand_type (o : IrOperand) : (resolveOperand t syms o).type = t.type o.type := by
  unfold resolveOperand
  split <;> rfl

theorem resolveInst_op_fixed (hs : isTargetSized i.type = false)
    (hsa : isTargetSized i.a.type = false) :
    (resolveInst t syms i).op =
      if isConversion i.op = true ∧ i.a.type = i.type then .copy else i.op := by
  have hw : wcharSignedness t i = i.op := by
    unfold wcharSignedness
    rw [if_neg]
    rintro ⟨h | h, -⟩
    · rw [h] at hs
      cases hs
    · rw [h] at hsa
      cases hsa
  simp only [resolveInst, hw, resolveOperand_type, type_of_not_targetSized hs,
    type_of_not_targetSized hsa]

theorem fold_int_gives {v : Nat} (hty : InstTyped temps i)
    (hs : isTargetSized i.type = false) (hsa : isTargetSized i.a.type = false)
    (hop : isFoldable i.op = true) (hka : i.a.kind = .int) (hkb : i.b.kind = .int)
    (hna : Normal fl i.a) (h : irFoldInt i.op i.a.type i.a.val i.b.val = .folded v) :
    Gives fl env t syms m i (irIntOp i.type v) := by
  have hconv : isConversion i.op = false := by
    cases hcase : i.op <;> simp [hcase, isFoldable] at hop <;> rfl
  have hrop : (resolveInst t syms i).op = i.op := by
    rw [resolveInst_op_fixed hs hsa, if_neg (by simp [hconv])]
  -- Both operands have one type, at which the operation works.
  have htypes : i.b.type = i.a.type ∧
      operandType (resolveInst t syms i) = i.a.type := by
    by_cases hc : isCompare i.op = true
    · refine ⟨(hty.compare (.inl hc)).1.symm, ?_⟩
      unfold operandType
      rw [hrop, if_pos hc, resolveInst_a, resolveOperand_type, type_of_not_targetSized hsa]
    · have hbin : isBinary i.op = true := by
        cases hcase : i.op <;> simp_all [isFoldable, isBinary, isCompare]
      have ha := (hty.binary hbin).1.resolve_left (by simp [hka])
      have hb := (hty.binary hbin).2.resolve_left (by simp [hkb])
      refine ⟨hb.trans ha.symm, ?_⟩
      unfold operandType
      rw [hrop, if_neg hc, resolveInst_type, type_of_not_targetSized hs]
      cases hcase : i.op <;> simp_all [isBinary]
  have hf := (hna.1 hka).1
  have hta : t.type i.a.type = i.a.type := type_of_not_targetSized hsa
  have hva : operandValue fl env m (resolveOperand t syms i.a) =
      i.a.val % 2 ^ irFoldBits i.a.type := by
    rw [operandValue_int hka (by rwa [hta]), hta]
  have hvb : operandValue fl env m (resolveOperand t syms i.b) =
      i.b.val % 2 ^ irFoldBits i.a.type := by
    rw [operandValue_int hkb (by rwa [htypes.1, hta]), htypes.1, hta]
  have hfold := irFoldInt_correct h
  have hlt : v < 2 ^ 64 := by
    obtain ⟨-, -, -, w, -, rfl⟩ := irFoldInt_folded h
    exact lt_of_lt_of_le (mod_lt _ (by positivity))
      (Nat.pow_le_pow_right (by norm_num) (irFoldBits_le _))
  have hcompute : ∀ type a b, compute fl i.op type i.a.type a b =
      intOp i.op (irFoldBits i.a.type) a b := by
    intro type a b
    cases hcase : i.op <;> simp [hcase, isFoldable] at hop <;> rfl
  refine ⟨?_, ?_⟩
  · rw [hrop]
    cases hcase : i.op <;> simp [hcase, isFoldable] at hop <;> rfl
  · unfold instValue
    rw [hrop, htypes.2, hcompute, resolveInst_a, resolveInst_b, hva, hvb]
    simp only [irFoldTrim] at hfold
    rw [hfold, map_some, resolveInst_type, type_of_not_targetSized hs,
      operandValue_irIntOp _ _ hs, trimTo_trimTo, trimTo_irFoldTrim hlt]

/-- The value of an instruction of one or two constants of a fixed width. -/
theorem instValue_constants (hs : isTargetSized i.type = false)
    (hrop : (resolveInst t syms i).op = i.op)
    {a b : Nat} (ha : operandValue fl env m (resolveOperand t syms i.a) = a)
    (hb : operandValue fl env m (resolveOperand t syms i.b) = b) :
    instValue fl env m (resolveInst t syms i) =
      (compute fl i.op i.type (operandType (resolveInst t syms i)) a b).map (trimTo fl i.type) := by
  unfold instValue
  rw [hrop, resolveInst_a, resolveInst_b, ha, hb, resolveInst_type, type_of_not_targetSized hs]

variable {value : IrOperand}

theorem foldFloat_cases {op : IrOp} {type : IrType} {a b : Nat}
    (h : foldFloat fl op type a b = some value) :
    (isFloatArith op = true ∧ value = irFloatOp type
      (if type = .f32 then fl.single op (fl.round a) (fl.round b)
        else fl.double op a b)) ∨
    (isFloatCompare op = true ∧ value = irIntOp .i8 (boolBit (fl.compare op a b))) := by
  unfold foldFloat at h
  cases op <;> simp only [some.injEq, reduceCtorEq] at h <;>
    first
    | exact .inl ⟨rfl, h.symm⟩
    | exact .inr ⟨rfl, h.symm⟩

theorem fold_float_gives (hty : InstTyped temps i) (hs : isTargetSized i.type = false)
    (hsa : isTargetSized i.a.type = false) (hsb : isTargetSized i.b.type = false)
    (hka : i.a.kind = .float) (hkb : i.b.kind = .float) (hna : Normal fl i.a)
    (hnb : Normal fl i.b)
    (h : foldFloat fl i.op i.a.type i.a.val i.b.val = some value) :
    Gives fl env t syms m i value := by
  have ha : operandValue fl env m (resolveOperand t syms i.a) = i.a.val :=
    (operandValue_constant (by simp [isConstant, hka]) hna hsa).1
  have hb : operandValue fl env m (resolveOperand t syms i.b) = i.b.val :=
    (operandValue_constant (by simp [isConstant, hkb]) hnb hsb).1
  have hrop : isConversion i.op = false → (resolveInst t syms i).op = i.op := by
    intro hconv
    rw [resolveInst_op_fixed hs hsa, if_neg (by simp [hconv])]
  rcases foldFloat_cases h with ⟨hop, rfl⟩ | ⟨hop, rfl⟩
  · have hbin : isBinary i.op = true := by
      cases hcase : i.op <;> simp [hcase, isFloatArith] at hop <;> rfl
    have hta := (hty.binary hbin).1.resolve_left (by simp [hka])
    have htb := (hty.binary hbin).2.resolve_left (by simp [hkb])
    have hconv : isConversion i.op = false := by
      cases hcase : i.op <;> simp [hcase, isFloatArith] at hop <;> rfl
    have hot : operandType (resolveInst t syms i) = i.type := by
      unfold operandType
      rw [hrop hconv, resolveInst_type, type_of_not_targetSized hs]
      cases hcase : i.op <;> simp [hcase, isFloatArith] at hop <;> rfl
    have hra : i.type = .f32 → fl.round i.a.val = i.a.val := by
      intro hf
      have := hna.2 hka
      rwa [hta, trimTo, if_pos hf] at this
    have hrb : i.type = .f32 → fl.round i.b.val = i.b.val := by
      intro hf
      have := hnb.2 hkb
      rwa [htb, trimTo, if_pos hf] at this
    have hcompute : compute fl i.op i.type i.type i.a.val i.b.val =
        some (if i.type = .f32 then fl.single i.op i.a.val i.b.val
          else fl.double i.op i.a.val i.b.val) := by
      cases hcase : i.op <;> simp [hcase, isFloatArith] at hop <;> rfl
    refine ⟨?_, ?_⟩
    · rw [hrop hconv]
      cases hcase : i.op <;> simp [hcase, isFloatArith] at hop <;> rfl
    · rw [instValue_constants hs (hrop hconv) ha hb, hot, hcompute, map_some,
        operandValue_irFloatOp _ _ hsa, hta, type_of_not_targetSized hs, trimTo_trimTo]
      congr 2
      split
      · next hf => rw [hra hf, hrb hf]
      · rfl
  · have hconv : isConversion i.op = false := by
      cases hcase : i.op <;> simp [hcase, isFloatCompare] at hop <;> rfl
    have htype := (hty.compare (.inr hop)).2
    have hcompute : ∀ operand, compute fl i.op i.type operand i.a.val i.b.val =
        some (boolBit (fl.compare i.op i.a.val i.b.val)) := by
      intro operand
      cases hcase : i.op <;> simp [hcase, isFloatCompare] at hop <;> rfl
    refine ⟨?_, ?_⟩
    · rw [hrop hconv]
      cases hcase : i.op <;> simp [hcase, isFloatCompare] at hop <;> rfl
    · rw [instValue_constants hs (hrop hconv) ha hb, hcompute, map_some,
        type_of_not_targetSized hs, htype, operandValue_irIntOp _ _ rfl,
        trimTo_trimTo, trimTo_irFoldTrim]
      unfold boolBit
      split <;> norm_num

theorem fold_unary_gives (hty : InstTyped temps i) (hs : isTargetSized i.type = false)
    (hsa : isTargetSized i.a.type = false) (hna : Normal fl i.a)
    (h : (i.op = .neg ∧ i.a.kind = .int ∧ value = irIntOp i.type (sub64 0 i.a.val)) ∨
      (i.op = .not ∧ i.a.kind = .int ∧ value = irIntOp i.type (2 ^ 64 - 1 - i.a.val)) ∨
      (i.op = .fneg ∧ i.a.kind = .float ∧ value = irFloatOp i.type (fl.neg i.a.val))) :
    Gives fl env t syms m i value := by
  have hconst : isConstant i.a = true := by
    rcases h with ⟨-, hk, -⟩ | ⟨-, hk, -⟩ | ⟨-, hk, -⟩ <;> simp [isConstant, hk]
  obtain ⟨ha, hlt⟩ : operandValue fl env m (resolveOperand t syms i.a) = i.a.val ∧
      i.a.val < 2 ^ 64 := operandValue_constant hconst hna hsa
  have hconv : isConversion i.op = false := by
    rcases h with ⟨hop, -⟩ | ⟨hop, -⟩ | ⟨hop, -⟩ <;> rw [hop] <;> rfl
  have hrop : (resolveInst t syms i).op = i.op := by
    rw [resolveInst_op_fixed hs hsa, if_neg (by simp [hconv])]
  have hkind : i.a.kind ≠ .none := by
    rcases h with ⟨-, hk, -⟩ | ⟨-, hk, -⟩ | ⟨-, hk, -⟩ <;> simp [hk]
  have hta : i.a.type = i.type := by
    refine (hty.unary ?_).resolve_left hkind
    rcases h with ⟨hop, -⟩ | ⟨hop, -⟩ | ⟨hop, -⟩ <;> rw [hop] <;> rfl
  have h64 := irFoldBits_le i.type
  have hcomputed : isComputed (resolveInst t syms i).op = true := by
    rw [hrop]
    rcases h with ⟨hop, -⟩ | ⟨hop, -⟩ | ⟨hop, -⟩ <;> rw [hop] <;> rfl
  refine ⟨hcomputed, ?_⟩
  rw [instValue_constants hs hrop ha rfl, type_of_not_targetSized hs]
  rcases h with ⟨hop, hk, rfl⟩ | ⟨hop, hk, rfl⟩ | ⟨hop, hk, rfl⟩
  · rw [hop, operandValue_irIntOp _ _ hs, trimTo_trimTo]
    simp only [compute, map_some, some.injEq]
    refine trimTo_congr ?_ ?_ ?_
    · rw [irFoldTrim, mod_mod, sub64_mod h64 hlt, mod_eq_of_lt (bits_lt _ _)]
      simp
    · exact lt_of_lt_of_le (bits_lt _ _) (Nat.pow_le_pow_right (by norm_num) h64)
    · exact lt_of_le_of_lt (mod_le _ _) (mod_lt _ (by norm_num))
  · obtain ⟨hf, htrim⟩ := hna.1 hk
    rw [hta] at htrim
    have hle : i.a.val < 2 ^ irFoldBits i.type := by
      rw [← htrim]
      exact mod_lt _ (by positivity)
    have hpow : 2 ^ irFoldBits i.type ≤ 2 ^ 64 := Nat.pow_le_pow_right (by norm_num) h64
    rw [hop, operandValue_irIntOp _ _ hs, trimTo_trimTo]
    simp only [compute, map_some, some.injEq]
    refine trimTo_congr ?_ (by omega) (lt_of_le_of_lt (mod_le _ _) (by omega))
    rw [irFoldTrim, mod_mod]
    -- The complement in 64 bits has the complement as its low bits.
    have hdvd : 2 ^ 64 - 2 ^ irFoldBits i.type =
        2 ^ irFoldBits i.type * (2 ^ (64 - irFoldBits i.type) - 1) := by
      rw [Nat.mul_sub, ← pow_add, Nat.add_sub_cancel' h64, mul_one]
    have hsplit : 2 ^ 64 - 1 - i.a.val = (2 ^ irFoldBits i.type - 1 - i.a.val) +
        2 ^ irFoldBits i.type * (2 ^ (64 - irFoldBits i.type) - 1) := by
      omega
    rw [hsplit, add_mul_mod_self_left]
  · rw [hop, operandValue_irFloatOp _ _ hs, trimTo_trimTo]
    rfl

theorem toBits64_lt (z : Int) : toBits64 z < 2 ^ 64 := bits_lt 64 z

/-- An integer constant of the bits of `z` has the value of those bits. -/
theorem trimTo_toBits64 (type : IrType) (z : Int) : trimTo fl type (irFoldTrim type (toBits64 z)) =
      trimTo fl type (bits (irFoldBits type) z) := by
  have h64 := irFoldBits_le type
  refine trimTo_congr ?_ ?_ ?_
  · rw [irFoldTrim, mod_mod, toBits64_mod h64, mod_eq_of_lt (bits_lt _ _)]
  · exact lt_of_le_of_lt (mod_le _ _) (toBits64_lt z)
  · exact lt_of_lt_of_le (bits_lt _ _) (Nat.pow_le_pow_right (by norm_num) h64)

/-- Folding a conversion between integers, which may be none on the target. -/
theorem fold_extend_gives (hs : isTargetSized i.type = false)
    (hsa : isTargetSized i.a.type = false) (hk : isConstant i.a = true)
    (hna : Normal fl i.a)
    (h : ((i.op = .trunc ∨ i.op = .zext) ∧ value = irIntOp i.type i.a.val) ∨ (i.op = .sext ∧
        value = irIntOp i.type (toBits64 (irFoldSigned i.a.type i.a.val)))) :
    Gives fl env t syms m i value := by
  obtain ⟨ha, hlt⟩ : operandValue fl env m (resolveOperand t syms i.a) = i.a.val ∧
      i.a.val < 2 ^ 64 := operandValue_constant hk hna hsa
  have hrop : (resolveInst t syms i).op = _ := resolveInst_op_fixed hs hsa
  by_cases hsame : isConversion i.op = true ∧ i.a.type = i.type
  · -- The conversion is a copy on the target.
    rw [if_pos hsame] at hrop
    have hvalue : operandValue fl env m (resolveOperand t syms value) =
        trimTo fl i.type i.a.val := by
      rcases h with ⟨-, rfl⟩ | ⟨-, rfl⟩
      · rw [operandValue_irIntOp _ _ hs, trimTo_irFoldTrim hlt]
      · rw [operandValue_irIntOp _ _ hs, trimTo_toBits64, hsame.2]
        refine trimTo_congr ?_ ?_ hlt
        · rw [mod_eq_of_lt (bits_lt _ _), irFoldSigned, arithSigned_eq, ← signed_mod,
            bits_signed (mod_lt _ (by positivity))]
        · exact lt_of_lt_of_le (bits_lt _ _) (Nat.pow_le_pow_right (by norm_num) (irFoldBits_le _))
    refine ⟨by rw [hrop]; rfl, ?_⟩
    rw [hvalue, type_of_not_targetSized hs, trimTo_trimTo]
    simp only [instValue, hrop, compute, resolveInst_a, ha, map_some,
      resolveInst_type, type_of_not_targetSized hs]
  · rw [if_neg hsame] at hrop
    have hot : operandType (resolveInst t syms i) = i.a.type := by
      unfold operandType
      rw [hrop, resolveInst_a, resolveOperand_type, type_of_not_targetSized hsa]
      rcases h with ⟨hop | hop, -⟩ | ⟨hop, -⟩ <;> rw [hop] <;> rfl
    refine ⟨?_, ?_⟩
    · rw [hrop]
      rcases h with ⟨hop | hop, -⟩ | ⟨hop, -⟩ <;> rw [hop] <;> rfl
    · rw [instValue_constants hs hrop ha rfl, hot, type_of_not_targetSized hs]
      rcases h with ⟨hop | hop, rfl⟩ | ⟨hop, rfl⟩
      · rw [hop, operandValue_irIntOp _ _ hs, trimTo_trimTo, trimTo_irFoldTrim hlt]
        rfl
      · rw [hop, operandValue_irIntOp _ _ hs, trimTo_trimTo, trimTo_irFoldTrim hlt]
        rfl
      · rw [hop, operandValue_irIntOp _ _ hs, trimTo_trimTo, trimTo_toBits64]
        rfl

/-- An operation that stays gives an operand with the value it computes. -/
theorem gives_of_compute {a w : Nat} (hs : isTargetSized i.type = false)
    (hrop : (resolveInst t syms i).op = i.op) (hcomputed : isComputed i.op = true)
    (ha : operandValue fl env m (resolveOperand t syms i.a) = a)
    (hcompute : compute fl i.op i.type (operandType (resolveInst t syms i)) a
      (operandValue fl env m (resolveOperand t syms i.b)) = some w)
    (hvalue : trimTo fl i.type (operandValue fl env m (resolveOperand t syms value)) =
      trimTo fl i.type w) : Gives fl env t syms m i value := by
  refine ⟨by rw [hrop]; exact hcomputed, ?_⟩
  rw [instValue_constants hs hrop ha rfl, hcompute, map_some, type_of_not_targetSized hs, hvalue]

theorem fold_conversion_gives (hty : InstTyped temps i)
    (hs : isTargetSized i.type = false) (hsa : isTargetSized i.a.type = false)
    (hk : isConstant i.a = true) (hna : Normal fl i.a)
    (h : foldConversion fl i = some value) : Gives fl env t syms m i value := by
  obtain ⟨ha, hlt⟩ : operandValue fl env m (resolveOperand t syms i.a) = i.a.val ∧
      i.a.val < 2 ^ 64 := operandValue_constant hk hna hsa
  -- A conversion that is not between integers stays the operation it is.
  have hstays : isConversion i.op = false → (resolveInst t syms i).op = i.op := by
    intro hconv
    rw [resolveInst_op_fixed hs hsa, if_neg (by simp [hconv])]
  have hfloat : ∀ v, trimTo fl i.type
      (operandValue fl env m (resolveOperand t syms (irFloatOp i.type v))) =
      trimTo fl i.type v := by
    intro v
    rw [operandValue_irFloatOp _ _ hs, trimTo_trimTo]
  have hint : ∀ z, trimTo fl i.type
      (operandValue fl env m (resolveOperand t syms (irIntOp i.type (toBits64 z)))) =
      trimTo fl i.type (bits (irFoldBits i.type) z) := by
    intro z
    rw [operandValue_irIntOp _ _ hs, trimTo_trimTo, trimTo_toBits64]
  unfold foldConversion at h
  cases hop : i.op with
  | trunc =>
    simp only [hop, some.injEq] at h
    exact fold_extend_gives hs hsa hk hna (.inl ⟨.inl hop, h.symm⟩)
  | zext =>
    simp only [hop, some.injEq] at h
    exact fold_extend_gives hs hsa hk hna (.inl ⟨.inr hop, h.symm⟩)
  | sext =>
    simp only [hop, some.injEq] at h
    exact fold_extend_gives hs hsa hk hna (.inr ⟨hop, h.symm⟩)
  | sitof =>
    simp only [hop, some.injEq] at h
    have hrop := hstays (by rw [hop]; rfl)
    have hot : operandType (resolveInst t syms i) = i.a.type := by
      unfold operandType
      rw [hrop, hop, resolveInst_a, resolveOperand_type, type_of_not_targetSized hsa]
      rfl
    subst h
    exact gives_of_compute hs hrop (by rw [hop]; rfl) ha (by rw [hop, hot]; rfl) (hfloat _)
  | uitof | hext =>
    simp only [hop, some.injEq] at h
    subst h
    exact gives_of_compute hs (hstays (by rw [hop]; rfl)) (by rw [hop]; rfl) ha
      (by rw [hop]; rfl) (hfloat _)
  | ftosi =>
    simp only [hop] at h
    split at h
    · next hrange =>
      obtain ⟨z, hz, hlo, hhi⟩ := fl.toInt_signed _ _ hrange.1 hrange.2
      rw [hz, map_some, some.injEq] at h
      subst h
      refine gives_of_compute hs (hstays (by rw [hop]; rfl)) (by rw [hop]; rfl) ha ?_ (hint z)
      simp only [compute, hop, hz, bind_some, if_pos (And.intro hlo hhi)]
    · cases h
  | ftoui =>
    simp only [hop] at h
    split at h
    · next hrange =>
      obtain ⟨z, hz, hlo, hhi⟩ := fl.toInt_unsigned _ _ hrange.1 hrange.2
      rw [hz, map_some, some.injEq] at h
      subst h
      refine gives_of_compute hs (hstays (by rw [hop]; rfl)) (by rw [hop]; rfl) ha ?_ (hint z)
      simp only [compute, hop, hz, bind_some, if_pos (And.intro hlo hhi)]
    · cases h
  | htrunc =>
    simp only [hop, some.injEq] at h
    subst h
    refine gives_of_compute hs (hstays (by rw [hop]; rfl)) (by rw [hop]; rfl) ha
      (by rw [hop]; rfl) ?_
    rw [operandValue_irIntOp _ _ hs, trimTo_trimTo, hty.htrunc hop]
    simp [trimTo, irFoldTrim]
  | fext | ftrunc =>
    simp only [hop, some.injEq] at h
    subst h
    refine gives_of_compute hs (hstays (by rw [hop]; rfl)) (by rw [hop]; rfl) ha
      (by rw [hop]; rfl) ?_
    rw [hfloat]
    by_cases hf : i.type = .f32 <;> simp [trimTo, hf, fl.round_round]
  | _ => simp [hop] at h

/-- **Folding computes what the instruction does**, on every target. -/
theorem foldInst_gives (hty : InstTyped temps i) (hna : Normal fl i.a)
    (hnb : Normal fl i.b) (h : foldInst fl i = some value) :
    Gives fl env t syms m i value := by
  unfold foldInst at h
  split at h
  · cases h
  next hsized =>
  simp only [not_or, Bool.not_eq_true] at hsized
  obtain ⟨hs, hsa, hsb⟩ := hsized
  split at h
  · next hop =>
    split at h
    · cases h
    next hkinds =>
    simp only [not_or, not_not] at hkinds
    split at h
    · next v hfold =>
      obtain rfl := some.inj h
      exact fold_int_gives hty hs hsa hop hkinds.1 hkinds.2 hna hfold
    · cases h
  · cases hop : i.op with
    | fadd | fsub | fmul | fdiv | feq | fne | flt | fle | fgt | fge =>
      simp only [hop] at h
      split at h
      · next hkinds =>
        exact fold_float_gives hty hs hsa hsb hkinds.1 hkinds.2 hna hnb (by rw [hop]; exact h)
      · cases h
    | neg =>
      simp only [hop] at h
      split at h
      · cases h
      · next hk =>
        exact fold_unary_gives hty hs hsa hna (.inl ⟨hop, not_not.mp hk, (some.inj h).symm⟩)
    | not =>
      simp only [hop] at h
      split at h
      · cases h
      · next hk =>
        exact fold_unary_gives hty hs hsa hna (.inr (.inl ⟨hop, not_not.mp hk, (some.inj h).symm⟩))
    | fneg =>
      simp only [hop] at h
      split at h
      · cases h
      · next hk =>
        exact fold_unary_gives hty hs hsa hna (.inr (.inr ⟨hop, not_not.mp hk, (some.inj h).symm⟩))
    | trunc | sext | zext | sitof | uitof | ftosi | ftoui | fext | ftrunc | hext
    | htrunc =>
      simp only [hop] at h
      split at h
      · next hk => exact fold_conversion_gives hty hs hsa hk hna h
      · cases h
    | _ => simp [hop] at h

end Fold

/-! ## The arithmetic of the rules -/

theorem powerOfTwo_spec {o : IrOperand} (h : 0 < powerOfTwo o) :
    o.kind = .int ∧ o.val = 2 ^ powerOfTwo o := by
  unfold powerOfTwo at h ⊢
  split at h
  · omega
  · next hcond =>
    simp only [not_or, not_not] at hcond
    obtain ⟨hk, hge, hand⟩ := hcond
    refine ⟨hk, ?_⟩
    rw [if_neg]
    swap
    · rintro (hne | hlt | hne)
      · exact hne hk
      · omega
      · exact hne hand
    obtain ⟨k, hpow⟩ := (and_sub_one_eq_zero_iff_isPowerOfTwo (by omega)).mp hand
    rw [hpow, log2_two_pow]

theorem isInt_spec {o : IrOperand} {v : Nat} (h : isInt o v = true) :
    o.kind = .int ∧ o.val = irFoldTrim o.type v := by
  simpa [isInt] using h

section Rules

variable {n a : Nat}

attribute [local simp] intOp

/-- The operations that leave their operand when the other is 0. -/
def keepsAtZero : IrOp → Bool
  | .add | .sub | .or | .xor | .shl | .shrS | .shrU => true
  | _ => false

theorem bits_signed_self (n a : Nat) : bits n (signed n a) = a % 2 ^ n := by
  rw [← signed_mod, bits_signed (mod_lt _ (by positivity))]

theorem intOp_zero {op : IrOp} (hop : keepsAtZero op = true) (hn : 1 ≤ n)
    (ha : a < 2 ^ 64) (h64 : n ≤ 64) :
    ∃ w, intOp op n a 0 = some w ∧ w % 2 ^ n = a % 2 ^ n ∧ w < 2 ^ 64 := by
  have hmod : a % 2 ^ n < 2 ^ 64 := lt_of_le_of_lt (mod_le _ _) ha
  cases op with
  | add => exact ⟨a % 2 ^ n, by simp, mod_mod _ _, hmod⟩
  | sub => exact ⟨a % 2 ^ n, by simp [bits_natCast], mod_mod _ _, hmod⟩
  | or => exact ⟨a, by simp, rfl, ha⟩
  | xor => exact ⟨a, by simp, rfl, ha⟩
  | shl => exact ⟨a % 2 ^ n, by simp; omega, mod_mod _ _, hmod⟩
  | shrS => exact ⟨a % 2 ^ n, by simp [bits_signed_self]; omega, mod_mod _ _, hmod⟩
  | shrU => exact ⟨a, by simp; omega, rfl, ha⟩
  | _ => cases hop

theorem signed_one (hn : 2 ≤ n) : signed n 1 = 1 := by
  have hlt : 1 < 2 ^ (n - 1) := Nat.one_lt_two_pow (by omega)
  simpa using signed_of_lt (by omega) hlt

theorem intOp_div_one {op : IrOp} (hop : op = .sdiv ∨ op = .udiv) (hn : 2 ≤ n) (ha : a < 2 ^ 64) :
    ∃ w, intOp op n a 1 = some w ∧ w % 2 ^ n = a % 2 ^ n ∧ w < 2 ^ 64 := by
  have hmod : a % 2 ^ n < 2 ^ 64 := lt_of_le_of_lt (mod_le _ _) ha
  rcases hop with rfl | rfl
  · refine ⟨a % 2 ^ n, ?_, mod_mod _ _, hmod⟩
    simp [signed_one hn, bits_signed_self]
  · exact ⟨a, by simp, rfl, ha⟩

variable {k : Nat}

theorem intOp_mul_two_pow (hk : k < n) : intOp .mul n a (2 ^ k) = intOp .shl n a k := by
  simp [hk]

theorem intOp_udiv_two_pow (hk : k < n) :
    intOp .udiv n a (2 ^ k) = intOp .shrU n a k := by
  simp [hk]

theorem intOp_urem_two_pow (n a k : Nat) :
    intOp .urem n a (2 ^ k) = intOp .and n a (2 ^ k - 1) := by
  simp []

/-- A power of two as a signed value: the top one is the least value. -/
theorem signed_two_pow (hk : k < n) :
    signed n (2 ^ k) = if k < n - 1 then 2 ^ k else -2 ^ k := by
  split
  · next h =>
    rw [signed_of_lt (by omega) (Nat.pow_lt_pow_right (by norm_num) h)]
    norm_cast
  · next h =>
    obtain rfl : k = n - 1 := by omega
    rw [signed_of_ge (by omega) (Nat.pow_lt_pow_right (by norm_num) hk) le_rfl]
    have hsplit : (2 : Int) ^ n = 2 ^ (n - 1) * 2 := by
      rw [← pow_succ]
      congr 1
      omega
    rw [hsplit]
    push_cast
    ring

/-- A power of two is neither 0 nor -1, so division by it has a value. -/
theorem signed_two_pow_defined (hk1 : 1 ≤ k) (hk : k < n) : ¬ (signed n (2 ^ k) = 0 ∨
      (signed n a = -2 ^ (n - 1) ∧ signed n (2 ^ k) = -1)) := by
  have hpos : (2 : Int) ≤ 2 ^ k := by
    calc (2 : Int) = 2 ^ 1 := by norm_num
      _ ≤ 2 ^ k := pow_le_pow_right₀ (by norm_num) hk1
  rw [signed_two_pow hk]
  split <;> omega

/-- Signed division by a power of two is the shift that copies the sign, for a
    dividend that is not negative or that the power divides. -/
theorem intOp_sdiv_two_pow (hk1 : 1 ≤ k) (hk : k < n)
    (h : 0 ≤ signed n a ∨ (2 ^ k ∣ signed n a ∧ k < n - 1)) :
    intOp .sdiv n a (2 ^ k) = intOp .shrS n a k := by
  have hrange := signed_range (by omega : 1 ≤ n) a
  have hdiv : (signed n a).tdiv (signed n (2 ^ k)) = signed n a / 2 ^ k := by
    rw [signed_two_pow hk]
    split
    · rcases h with h | ⟨h, -⟩
      · exact Int.tdiv_eq_ediv_of_nonneg h
      · exact Int.tdiv_eq_ediv_of_dvd h
    · next htop =>
      have hx : 0 ≤ signed n a := h.resolve_right fun h => htop h.2
      obtain rfl : k = n - 1 := by omega
      rw [Int.tdiv_neg, Int.tdiv_eq_ediv_of_nonneg hx, Int.ediv_eq_zero_of_lt hx hrange.2, neg_zero]
  simp only [intOp, if_neg (signed_two_pow_defined hk1 hk), if_neg (not_le.mpr hk), hdiv]

/-- The signed remainder by a power of two is the mask of the low bits, for a
    dividend that is not negative or that the power divides. -/
theorem intOp_srem_two_pow (hk1 : 1 ≤ k) (hk : k < n) (h : 0 ≤ signed n a ∨ 2 ^ k ∣ signed n a) :
    intOp .srem n a (2 ^ k) = intOp .and n a (2 ^ k - 1) := by
  -- The low bits of the signed value are those of the number.
  have hlow : signed n a % 2 ^ k = ((a % 2 ^ k : Nat) : Int) := by
    have hmod : signed n a ≡ a [ZMOD 2 ^ k] := (signed_modEq n a).of_dvd (pow_dvd_pow 2 hk.le)
    rw [hmod]
    push_cast
    rfl
  have hrem : (signed n a).tmod (signed n (2 ^ k)) = ((a % 2 ^ k : Nat) : Int) := by
    have hpow : (signed n a).tmod (signed n (2 ^ k)) = (signed n a).tmod (2 ^ k) := by
      rw [signed_two_pow hk]
      split
      · rfl
      · exact Int.tmod_neg _ _
    rw [hpow, ← hlow]
    rcases h with h | h
    · exact Int.tmod_eq_emod_of_nonneg h
    · rw [Int.tmod_eq_zero_of_dvd h, Int.emod_eq_zero_of_dvd h]
  have hlt : a % 2 ^ k < 2 ^ n :=
    lt_trans (mod_lt _ (by positivity)) (Nat.pow_lt_pow_right (by norm_num) hk)
  simp only [intOp, if_neg (signed_two_pow_defined hk1 hk), hrem, bits_natCast,
    mod_eq_of_lt hlt, and_two_pow_sub_one_eq_mod]

theorem intOp_and_ones (n a : Nat) :
    intOp .and n a (2 ^ n - 1) = some (a % 2 ^ n) := by
  simp []

end Rules

/-! ## Simplifying -/

/-- `wchar_signedness` takes the signed form. -/
def onSignedWchar (t : Target) (i : IrInst) : Bool :=
  (i.type = .cwchar ∨ i.a.type = .cwchar) ∧ t.wcharSigned

/-- What the rules for a power of two need of the target and of the dividend. -/
structure Simplifies (fl : Floats) (env : Env) (t : Target) (syms : Nat → Nat)
    (m : Machine) (i : IrInst) : Prop where
  /-- A multiplication by `2 ^ k` is a shift by less than the width. -/
  mul : i.op = .mul → 0 < powerOfTwo i.b → powerOfTwo i.b < irFoldBits (t.type i.type)
  /-- Where `wchar_t` is signed the quotient rounds toward zero and the shift down. -/
  udiv : i.op = .udiv → 0 < powerOfTwo i.b → onSignedWchar t i = true →
    0 ≤ signed (irFoldBits (t.type i.type)) (operandValue fl env m (resolveOperand t syms i.a)) ∨
      (2 ^ powerOfTwo i.b ∣ signed (irFoldBits (t.type i.type))
        (operandValue fl env m (resolveOperand t syms i.a)) ∧
        powerOfTwo i.b < irFoldBits (t.type i.type) - 1)
  /-- The remainder has the sign of the dividend, and the mask none. -/
  urem : i.op = .urem → 0 < powerOfTwo i.b → onSignedWchar t i = true →
    0 ≤ signed (irFoldBits (t.type i.type)) (operandValue fl env m (resolveOperand t syms i.a)) ∨
      2 ^ powerOfTwo i.b ∣ signed (irFoldBits (t.type i.type))
        (operandValue fl env m (resolveOperand t syms i.a))

section Simplify

variable {fl : Floats} {env : Env} {t : Target} {syms : Nat → Nat}
  {temps : List IrType} {m : Machine} {i : IrInst}

theorem wcharSignedness_eq (t : Target) (i : IrInst) :
    wcharSignedness t i = if onSignedWchar t i then signedOp i.op else i.op := by
  unfold wcharSignedness onSignedWchar
  simp

/-- A copy of the operand that an instruction gives has its value. -/
theorem Gives.copy {o : IrOperand} (h : Gives fl env t syms m i o) :
    execValue fl env (resolveInst t syms (makeCopy i o)) m =
      execValue fl env (resolveInst t syms i) m := by
  obtain ⟨hcomputed, hvalue⟩ := h
  have hop : (resolveInst t syms (makeCopy i o)).op = .copy :=
    resolveInst_op (show signedOp (makeCopy i o).op = (makeCopy i o).op from rfl) rfl
  have hcomputed' : isComputed (resolveInst t syms (makeCopy i o)).op = true := by
    rw [hop]
    rfl
  have hcopy : instValue fl env m (resolveInst t syms (makeCopy i o)) =
      some (trimTo fl (t.type i.type) (operandValue fl env m (resolveOperand t syms o))) := by
    simp only [instValue, hop]
    rfl
  rw [execValue_computed fl env hcomputed, execValue_computed fl env hcomputed', hcopy, hvalue]

variable (fl env t syms m) in
theorem execValue_binary (hbin : isBinary i.op = true) :
    isComputed (resolveInst t syms i).op = true ∧
    instValue fl env m (resolveInst t syms i) =
      (compute fl (wcharSignedness t i) (t.type i.type) (t.type i.type)
        (operandValue fl env m (resolveOperand t syms i.a))
        (operandValue fl env m (resolveOperand t syms i.b))).map
        (trimTo fl (t.type i.type)) := by
  have hbin' : isBinary (wcharSignedness t i) = true := by
    rw [wcharSignedness_eq]
    split
    · cases hop : i.op <;> simp [hop, isBinary] at hbin <;> rfl
    · exact hbin
  have hop : (resolveInst t syms i).op = wcharSignedness t i := by
    simp only [resolveInst]
    rw [if_neg]
    rintro ⟨hconv, -⟩
    cases hop : wcharSignedness t i <;> simp [hop, isConversion] at hconv <;>
      simp [hop, isBinary] at hbin'
  have hot : operandType (resolveInst t syms i) = t.type i.type := by
    unfold operandType
    rw [hop]
    cases hop : wcharSignedness t i <;> simp [hop, isBinary] at hbin' <;> rfl
  refine ⟨?_, ?_⟩
  · rw [hop]
    cases hop : wcharSignedness t i <;> simp [hop, isBinary] at hbin' <;> rfl
  · unfold instValue
    rw [hot, hop]
    rfl

theorem execValue_binary_eq {i' : IrInst} (hbin : isBinary i.op = true)
    (hbin' : isBinary i'.op = true) (htype : i'.type = i.type)
    (h : compute fl (wcharSignedness t i') (t.type i.type) (t.type i.type)
        (operandValue fl env m (resolveOperand t syms i'.a))
        (operandValue fl env m (resolveOperand t syms i'.b)) =
      compute fl (wcharSignedness t i) (t.type i.type) (t.type i.type)
        (operandValue fl env m (resolveOperand t syms i.a))
        (operandValue fl env m (resolveOperand t syms i.b))) :
    execValue fl env (resolveInst t syms i') m =
      execValue fl env (resolveInst t syms i) m := by
  obtain ⟨hc, hv⟩ := execValue_binary fl env t syms m hbin
  obtain ⟨hc', hv'⟩ := execValue_binary fl env t syms m hbin'
  rw [execValue_computed fl env hc, execValue_computed fl env hc', hv, hv', htype, h]

theorem gives_a (hty : InstTyped temps i) (hm : m.Typed fl t temps) (hbin : isBinary i.op = true)
    (h : ∃ w, compute fl (wcharSignedness t i) (t.type i.type) (t.type i.type)
        (operandValue fl env m (resolveOperand t syms i.a))
        (operandValue fl env m (resolveOperand t syms i.b)) = some w ∧
      w % 2 ^ irFoldBits (t.type i.type) = operandValue fl env m (resolveOperand t syms i.a) %
          2 ^ irFoldBits (t.type i.type) ∧ w < 2 ^ 64) :
    Gives fl env t syms m i i.a := by
  obtain ⟨w, hw, hmod, hlt⟩ := h
  obtain ⟨hc, hv⟩ := execValue_binary fl env t syms m hbin
  refine ⟨hc, ?_⟩
  rw [hv, hw, map_some, trimTo_congr hmod hlt]
  exact operandValue_lt (hty.operand _ (by simp [IrInst.operands])) hm

variable (env t syms m) in
theorem operandValue_b (hty : InstTyped temps i) (hbin : isBinary i.op = true)
    (hk : i.b.kind = .int) (hn : Normal fl i.b) :
    i.b.type = i.type ∧ t.type i.type ≠ .f32 ∧
    operandValue fl env m (resolveOperand t syms i.b) =
      i.b.val % 2 ^ irFoldBits (t.type i.type) := by
  have htype := (hty.binary hbin).2.resolve_left (by simp [hk])
  have hf : t.type i.type ≠ .f32 := by
    have hne := (hn.1 hk).1
    rw [htype] at hne
    cases hcase : i.type <;> simp_all [Target.type] <;> split <;> simp
  refine ⟨htype, hf, ?_⟩
  rw [operandValue_int hk (by rwa [htype]), htype]

theorem simplify_zero (hty : InstTyped temps i) (hm : m.Typed fl t temps)
    (hn : Normal fl i.b) (hop : keepsAtZero i.op = true)
    (hb : isInt i.b 0 = true) : Gives fl env t syms m i i.a := by
  obtain ⟨hk, hval⟩ := isInt_spec hb
  have hbin : isBinary i.op = true := by
    cases hcase : i.op <;> simp [hcase, keepsAtZero] at hop <;> rfl
  obtain ⟨-, -, hvb⟩ := operandValue_b env t syms m hty hbin hk hn
  have hzero : operandValue fl env m (resolveOperand t syms i.b) = 0 := by
    rw [hvb, hval]
    simp [irFoldTrim]
  have hop' : keepsAtZero (wcharSignedness t i) = true := by
    rw [wcharSignedness_eq]
    split
    · cases hcase : i.op <;> simp [hcase, keepsAtZero] at hop <;> rfl
    · exact hop
  refine gives_a hty hm hbin ?_
  rw [hzero]
  have hcompute : ∀ a, compute fl (wcharSignedness t i) (t.type i.type)
      (t.type i.type) a 0 = intOp (wcharSignedness t i) (irFoldBits (t.type i.type)) a 0 := by
    intro a
    cases hcase : wcharSignedness t i <;> simp [hcase, keepsAtZero] at hop' <;> rfl
  rw [hcompute]
  exact intOp_zero hop' (irFoldBits_pos _)
    (operandValue_lt (hty.operand _ (by simp [IrInst.operands])) hm) (irFoldBits_le _)

theorem irFoldBits_target_le (t : Target) (type : IrType) :
    irFoldBits (t.type type) ≤ irFoldBits type := by
  cases type <;> simp only [Target.type] <;> first | split | skip
  all_goals decide

theorem simplify_absorb (hty : InstTyped temps i) (hn : Normal fl i.b)
    (hop : i.op = .mul ∨ i.op = .and) (hb : isInt i.b 0 = true) :
    Gives fl env t syms m i i.b := by
  obtain ⟨hk, hval⟩ := isInt_spec hb
  have hbin : isBinary i.op = true := by rcases hop with h | h <;> rw [h] <;> rfl
  obtain ⟨-, -, hvb⟩ := operandValue_b env t syms m hty hbin hk hn
  have hzero : operandValue fl env m (resolveOperand t syms i.b) = 0 := by
    rw [hvb, hval]
    simp [irFoldTrim]
  obtain ⟨hc, hv⟩ := execValue_binary fl env t syms m hbin
  refine ⟨hc, ?_⟩
  have hop' : wcharSignedness t i = i.op := by
    rw [wcharSignedness_eq]
    rcases hop with h | h <;> simp [h, signedOp]
  rw [hv, hop', hzero]
  rcases hop with h | h <;> rw [h] <;> simp [compute, intOp]

theorem simplify_one (hty : InstTyped temps i) (hm : m.Typed fl t temps)
    (hn : Normal fl i.b) (hop : i.op = .mul ∨ i.op = .sdiv ∨ i.op = .udiv)
    (hb : isInt i.b 1 = true) : Gives fl env t syms m i i.a := by
  obtain ⟨hk, hval⟩ := isInt_spec hb
  have hbin : isBinary i.op = true := by rcases hop with h | h | h <;> rw [h] <;> rfl
  obtain ⟨-, -, hvb⟩ := operandValue_b env t syms m hty hbin hk hn
  have hone : ∀ type, 1 % 2 ^ irFoldBits type = 1 := by
    intro type
    exact mod_eq_of_lt (Nat.one_lt_two_pow (by have := irFoldBits_pos type; omega))
  rw [hval, irFoldTrim, hone, hone] at hvb
  have hlt : operandValue fl env m (resolveOperand t syms i.a) < 2 ^ 64 :=
    operandValue_lt (hty.operand i.a (by simp [IrInst.operands])) hm
  have hwide : 2 ≤ irFoldBits (t.type i.type) := by
    rcases irFoldBits_cases (t.type i.type) with h | h
    · rcases h with h | h | h <;> omega
    · omega
  refine gives_a hty hm hbin ?_
  rw [hvb]
  have hcases : (i.op = .mul ∧ wcharSignedness t i = .mul) ∨
      (wcharSignedness t i = .sdiv ∨ wcharSignedness t i = .udiv) := by
    rw [wcharSignedness_eq]
    rcases hop with h | h | h <;> rw [h] <;> cases onSignedWchar t i <;> simp [signedOp]
  rcases hcases with ⟨-, h⟩ | h
  · rw [h]
    refine ⟨_, rfl, by rw [mul_one, mod_mod], ?_⟩
    exact lt_of_le_of_lt (mod_le _ _) (by simpa using hlt)
  · have hcompute : compute fl (wcharSignedness t i) (t.type i.type) (t.type i.type)
        (operandValue fl env m (resolveOperand t syms i.a)) 1 =
        intOp (wcharSignedness t i) (irFoldBits (t.type i.type))
          (operandValue fl env m (resolveOperand t syms i.a)) 1 := by
      rcases h with h | h <;> rw [h] <;> rfl
    rw [hcompute]
    exact intOp_div_one h hwide hlt

/-- The mask of all bits of the type has all bits of its type on the target. -/
theorem simplify_ones (hty : InstTyped temps i) (hm : m.Typed fl t temps)
    (hn : Normal fl i.b) (hop : i.op = .and) (hb : isInt i.b (2 ^ 64 - 1) = true) :
    Gives fl env t syms m i i.a := by
  obtain ⟨hk, hval⟩ := isInt_spec hb
  have hbin : isBinary i.op = true := by rw [hop]; rfl
  obtain ⟨htype, -, hvb⟩ := operandValue_b env t syms m hty hbin hk hn
  have hle := irFoldBits_target_le t i.type
  have hones : operandValue fl env m (resolveOperand t syms i.b) =
      2 ^ irFoldBits (t.type i.type) - 1 := by
    rw [hvb, hval, htype, irFoldTrim, mod_mod_of_dvd _ (pow_dvd_pow 2 hle)]
    cases t.type i.type <;> rfl
  have hop' : wcharSignedness t i = .and := by
    rw [wcharSignedness_eq, hop]
    simp [signedOp]
  have hlt : operandValue fl env m (resolveOperand t syms i.a) < 2 ^ 64 :=
    operandValue_lt (hty.operand i.a (by simp [IrInst.operands])) hm
  refine gives_a hty hm hbin ?_
  rw [hop', hones]
  refine ⟨_, intOp_and_ones _ _, mod_mod _ _, ?_⟩
  exact lt_of_le_of_lt (mod_le _ _) hlt

theorem operandValue_small {v : Nat} (hf : t.type i.type ≠ .f32)
    (hv : v < 2 ^ irFoldBits (t.type i.type)) :
    operandValue fl env m (resolveOperand t syms (irIntOp i.type v)) = v := by
  have hv' : v < 2 ^ irFoldBits i.type :=
    lt_of_lt_of_le hv (Nat.pow_le_pow_right (by norm_num) (irFoldBits_target_le t _))
  rw [operandValue_int rfl hf]
  show irFoldTrim i.type v % 2 ^ irFoldBits (t.type i.type) = v
  rw [irFoldTrim, mod_eq_of_lt hv', mod_eq_of_lt hv]

section TwoPow

variable (hty : InstTyped temps i) (hn : Normal fl i.b) (hk : 0 < powerOfTwo i.b)

include hty hn hk

variable (env t syms m) in
/-- A divisor `2 ^ k` with a value on the target is below its width. -/
theorem operandValue_two_pow (hbin : isBinary i.op = true) : t.type i.type ≠ .f32 ∧
    operandValue fl env m (resolveOperand t syms i.b) =
      2 ^ powerOfTwo i.b % 2 ^ irFoldBits (t.type i.type) := by
  obtain ⟨hkind, hval⟩ := powerOfTwo_spec hk
  obtain ⟨-, hf, hvb⟩ := operandValue_b env t syms m hty hbin hkind hn
  rw [hval] at hvb
  exact ⟨hf, hvb⟩

theorem simplify_mul (hop : i.op = .mul) (hlt : powerOfTwo i.b < irFoldBits (t.type i.type)) :
    execValue fl env (resolveInst t syms
        { i with op := .shl, b := irIntOp i.type (powerOfTwo i.b), field := 0 }) m =
      execValue fl env (resolveInst t syms i) m := by
  have hbin : isBinary i.op = true := by rw [hop]; rfl
  obtain ⟨hf, hvb⟩ := operandValue_two_pow env t syms m hty hn hk hbin
  rw [mod_eq_of_lt (Nat.pow_lt_pow_right (by norm_num) hlt)] at hvb
  refine execValue_binary_eq hbin rfl rfl ?_
  have h1 : wcharSignedness t i = .mul := by
    rw [wcharSignedness_eq, hop]
    simp [signedOp]
  have h2 : ∀ b, wcharSignedness t { i with op := .shl, b := b, field := 0 } = .shl := by
    intro b
    rw [wcharSignedness_eq]
    simp [signedOp]
  rw [h1, h2, hvb, operandValue_small hf (lt_trans hlt Nat.lt_two_pow_self)]
  exact (intOp_mul_two_pow hlt).symm

/-- A division or a remainder with a value has a divisor below the width. -/
theorem powerOfTwo_lt (hop : i.op = .udiv ∨ i.op = .urem)
    (hdef : execValue fl env (resolveInst t syms i) m ≠ none) :
    powerOfTwo i.b < irFoldBits (t.type i.type) := by
  by_contra hge
  have hbin : isBinary i.op = true := by rcases hop with h | h <;> rw [h] <;> rfl
  obtain ⟨-, hvb⟩ := operandValue_two_pow env t syms m hty hn hk hbin
  rw [mod_eq_zero_of_dvd (pow_dvd_pow 2 (not_lt.mp hge))] at hvb
  obtain ⟨hc, hv⟩ := execValue_binary fl env t syms m hbin
  refine hdef ?_
  rw [execValue_computed fl env hc, hv, hvb]
  have hzero : ∀ n, signed n 0 = 0 := by
    intro n
    simp [signed]
  have hcases : wcharSignedness t i = .udiv ∨ wcharSignedness t i = .urem ∨
      wcharSignedness t i = .sdiv ∨ wcharSignedness t i = .srem := by
    rw [wcharSignedness_eq]
    rcases hop with h | h <;> rw [h] <;> cases onSignedWchar t i <;> simp [signedOp]
  rcases hcases with h | h | h | h <;> rw [h] <;> simp [compute, intOp, hzero]

theorem simplify_udiv (hop : i.op = .udiv) (hsimp : Simplifies fl env t syms m i)
    (hdef : execValue fl env (resolveInst t syms i) m ≠ none) :
    execValue fl env (resolveInst t syms
        { i with op := .shrU, b := irIntOp i.type (powerOfTwo i.b) }) m =
      execValue fl env (resolveInst t syms i) m := by
  have hbin : isBinary i.op = true := by rw [hop]; rfl
  have hlt := powerOfTwo_lt hty hn hk (.inl hop) hdef
  obtain ⟨hf, hvb⟩ := operandValue_two_pow env t syms m hty hn hk hbin
  rw [mod_eq_of_lt (Nat.pow_lt_pow_right (by norm_num) hlt)] at hvb
  refine execValue_binary_eq hbin rfl rfl ?_
  have hwchar : ∀ b, onSignedWchar t { i with op := .shrU, b := b } =
      onSignedWchar t i := fun _ => rfl
  rw [wcharSignedness_eq, wcharSignedness_eq, hwchar, hop, hvb,
    operandValue_small hf (lt_trans hlt Nat.lt_two_pow_self)]
  cases hw : onSignedWchar t i with
  | true => exact (intOp_sdiv_two_pow hk hlt (hsimp.udiv hop hk hw)).symm
  | false => exact (intOp_udiv_two_pow hlt).symm

theorem simplify_urem (hop : i.op = .urem) (hsimp : Simplifies fl env t syms m i)
    (hdef : execValue fl env (resolveInst t syms i) m ≠ none) :
    execValue fl env (resolveInst t syms
        { i with op := .and, b := irIntOp i.type (i.b.val - 1) }) m =
      execValue fl env (resolveInst t syms i) m := by
  have hbin : isBinary i.op = true := by rw [hop]; rfl
  have hlt := powerOfTwo_lt hty hn hk (.inr hop) hdef
  have hpow : 2 ^ powerOfTwo i.b < 2 ^ irFoldBits (t.type i.type) :=
    Nat.pow_lt_pow_right (by norm_num) hlt
  obtain ⟨hf, hvb⟩ := operandValue_two_pow env t syms m hty hn hk hbin
  rw [mod_eq_of_lt hpow] at hvb
  refine execValue_binary_eq hbin rfl rfl ?_
  have hwchar : ∀ b, onSignedWchar t { i with op := .and, b := b } =
      onSignedWchar t i := fun _ => rfl
  rw [wcharSignedness_eq, wcharSignedness_eq, hwchar, hop, hvb, (powerOfTwo_spec hk).2,
    operandValue_small hf (by omega)]
  cases hw : onSignedWchar t i with
  | true => exact (intOp_srem_two_pow hk hlt (hsimp.urem hop hk hw)).symm
  | false => exact (intOp_urem_two_pow (irFoldBits (t.type i.type)) _ _).symm

end TwoPow

theorem simplify_swap (hty : InstTyped temps i) (hop : isCommutative i.op = true) :
    execValue fl env (resolveInst t syms { i with a := i.b, b := i.a }) m =
      execValue fl env (resolveInst t syms i) m := by
  have hsigned : signedOp i.op = i.op := by
    cases hcase : i.op <;> simp [hcase, isCommutative] at hop <;> rfl
  have hconv : isConversion i.op = false := by
    cases hcase : i.op <;> simp [hcase, isCommutative] at hop <;> rfl
  have hcomputed : isComputed i.op = true := by
    cases hcase : i.op <;> simp [hcase, isCommutative] at hop <;> rfl
  have h1 : (resolveInst t syms i).op = i.op := resolveInst_op hsigned hconv
  have h2 : (resolveInst t syms { i with a := i.b, b := i.a }).op = i.op :=
    resolveInst_op hsigned hconv
  rw [execValue_computed fl env (by rw [h2]; exact hcomputed),
    execValue_computed fl env (by rw [h1]; exact hcomputed)]
  -- A comparison has one type for both operands.
  have hot : operandType (resolveInst t syms { i with a := i.b, b := i.a }) =
      operandType (resolveInst t syms i) := by
    unfold operandType
    rw [h1, h2]
    simp only [resolveInst_a, resolveInst_type, resolveOperand_type]
    cases hcase : i.op with
    | eq | ne => rw [(hty.compare (.inl (by rw [hcase]; rfl))).1]
    | feq | fne => rw [(hty.compare (.inr (by rw [hcase]; rfl))).1]
    | _ => simp [hcase, isCommutative] at hop <;> rfl
  have hcomm : ∀ type operand a b, compute fl i.op type operand a b =
      compute fl i.op type operand b a := by
    intro type operand a b
    cases hcase : i.op with
    | add => simp [compute, intOp, Nat.add_comm]
    | mul => simp [compute, intOp, Nat.mul_comm]
    | and => simp [compute, intOp, Nat.and_comm]
    | or => simp [compute, intOp, Nat.or_comm]
    | xor => simp [compute, intOp, Nat.xor_comm]
    | eq => simp [compute, intOp, eq_comm]
    | ne => simp [compute, intOp, ne_comm]
    | fadd => simp [compute, fl.add_comm a b, fl.single_add_comm a b]
    | fmul => simp [compute, fl.mul_comm a b, fl.single_mul_comm a b]
    | feq => simp [compute, fl.eq_comm a b]
    | fne => simp [compute, fl.ne_comm a b]
    | _ => simp [hcase, isCommutative] at hop
  simp only [instValue, h1, h2, hot, resolveInst_a, resolveInst_b, resolveInst_type]
  rw [hcomm]

/-- **Simplifying keeps the value of an instruction** that has one. -/
theorem simplify_execValue (hty : InstTyped temps i) (hm : m.Typed fl t temps)
    (hn : Normal fl i.b) (hsimp : Simplifies fl env t syms m i)
    (hdef : execValue fl env (resolveInst t syms i) m ≠ none)
    (hterm : isTerminator i.op = false) :
    execValue fl env (resolveInst t syms (simplify i)) m =
      execValue fl env (resolveInst t syms i) m := by
  unfold simplify
  split
  · next hswap => exact simplify_swap hty hswap.1
  cases hop : i.op with
  | add | sub | or | xor | shl | shrS | shrU =>
    simp only
    split
    · next hb => exact (simplify_zero hty hm hn (by rw [hop]; rfl) hb).copy
    · rfl
  | mul =>
    simp only
    split
    · next hb => exact (simplify_absorb hty hn (.inl hop) hb).copy
    split
    · next hb => exact (simplify_one hty hm hn (.inl hop) hb).copy
    split
    · next hk => exact simplify_mul hty hn hk hop (hsimp.mul hop hk)
    · rfl
  | sdiv =>
    simp only
    split
    · next hb => exact (simplify_one hty hm hn (.inr (.inl hop)) hb).copy
    · rfl
  | udiv =>
    simp only
    split
    · next hb => exact (simplify_one hty hm hn (.inr (.inr hop)) hb).copy
    split
    · next hk => exact simplify_udiv hty hn hk hop hsimp hdef
    · rfl
  | urem =>
    simp only
    split
    · next hk => exact simplify_urem hty hn hk hop hsimp hdef
    · rfl
  | and =>
    simp only
    split
    · next hb => exact (simplify_absorb hty hn (.inr hop) hb).copy
    split
    · next hb => exact (simplify_ones hty hm hn hop hb).copy
    · rfl
  | branch => rw [hop] at hterm; cases hterm
  | _ => rfl

end Simplify

end AnticIr
