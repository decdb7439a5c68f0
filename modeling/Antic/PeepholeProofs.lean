import Antic.IrSimulation
import Antic.LayoutResolve
import Mathlib.Logic.Relation

/-! # The peephole rules keep what a function shows

    Besides `simplify`, `apply_peephole_rules` makes three kinds of change: it deletes a copy of a
    temporary to itself, it fuses an operation with the copy after it, and it moves a jump past
    blocks that only jump.  Each is a step of `Rewrite`, on the function as it stands with the
    instructions it has not come to yet simplified.  One step keeps what the function shows on every
    target, and the pass is a sequence of steps. -/

namespace AnticIr

open List Option

/-! ## What the rules rely on -/

/-- What the verifier checks and `ir.c` promises of an instruction: its result has the type of its
    temporary, a copy that of its operand, and it goes to blocks. -/
structure InstOk (temps : List IrType) (i : IrInst) : Prop where
  result : i.result ≠ irNoResult → temps[i.result]? = some i.tempType
  copy : i.op = .copy → i.a.kind = .temp → temps[i.a.val]? = some i.type
  jump : i.op = .jump → i.a.kind = .block
  branch : i.op = .branch ∨ i.op = .branchOv → i.b.kind = .block ∧ i.c.kind = .block

/-- Each register holds a value of its type on the target. -/
def Machine.Typed (fl : Floats) (t : Target) (temps : List IrType) (m : Machine) : Prop :=
  ∀ (x : Nat) (type : IrType), temps[x]? = some type → trimTo fl (t.type type) (m.regs x) = m.regs x

/-- The uses of temporary `x` in a list of instructions. -/
def usesIn (insts : List IrInst) (x : Nat) : Nat :=
  (insts.flatMap IrInst.operands).countP (isTemp · x)

theorem usesIn_append (insts insts' : List IrInst) (x : Nat) :
    usesIn (insts ++ insts') x = usesIn insts x + usesIn insts' x := by
  simp [usesIn]

theorem usesIn_cons (inst : IrInst) (insts : List IrInst) (x : Nat) : usesIn (inst :: insts) x =
      inst.operands.countP (isTemp · x) + usesIn insts x := by
  simp [usesIn]

/-- No operand of an instruction is temporary `x`. -/
def Unused (x : Nat) (inst : IrInst) : Prop := ∀ o ∈ inst.operands, isTemp o x = false

theorem unused_of_count {x : Nat} {inst : IrInst}
    (h : inst.operands.countP (isTemp · x) = 0) : Unused x inst := by
  intro o ho
  exact Bool.eq_false_iff.mpr (countP_eq_zero.mp h o ho)

theorem unused_of_usesIn {x : Nat} {insts : List IrInst}
    (h : usesIn insts x = 0) : ∀ inst ∈ insts, Unused x inst := by
  intro inst hinst o ho
  exact Bool.eq_false_iff.mpr (countP_eq_zero.mp h o (mem_flatMap.mpr ⟨inst, hinst, ho⟩))

/-- The instructions of a code are in order, and no temporary has more uses than `bound` says. -/
structure CodeOk (temps : List IrType) (bound : Nat → Nat)
    (code : List (List IrInst)) : Prop where
  insts : ∀ i ∈ code.flatten, InstOk temps i
  uses : ∀ x, usesIn code.flatten x ≤ bound x

/-! ## Resolving for a target -/

/-- The code of a function with the types of the target. -/
def resolveCode (t : Target) (syms : Nat → Nat) (code : List (List IrInst)) :
    List (List IrInst) :=
  code.map (List.map (resolveInst t syms))

theorem resolveFunction_code (t : Target) (syms : Nat → Nat) (f : IrFunction) :
    (resolveFunction t syms f).code = resolveCode t syms f.code := by
  simp [resolveFunction, IrFunction.code, resolveCode]

section Resolve

variable {t : Target} {syms : Nat → Nat}

@[simp] theorem resolveInst_result (i : IrInst) : (resolveInst t syms i).result = i.result := rfl

@[simp] theorem resolveInst_type (i : IrInst) : (resolveInst t syms i).type = t.type i.type := rfl

@[simp] theorem resolveInst_a (i : IrInst) :
    (resolveInst t syms i).a = resolveOperand t syms i.a := rfl

@[simp] theorem resolveInst_b (i : IrInst) :
    (resolveInst t syms i).b = resolveOperand t syms i.b := rfl

theorem resolveInst_operands (i : IrInst) :
    (resolveInst t syms i).operands = i.operands.map (resolveOperand t syms) := rfl

/-- An operation without a signed form that is no conversion stays. -/
theorem resolveInst_op {i : IrInst} (hs : signedOp i.op = i.op)
    (hc : isConversion i.op = false) : (resolveInst t syms i).op = i.op := by
  have hw : wcharSignedness t i = i.op := by
    unfold wcharSignedness
    split <;> simp [hs]
  simp [resolveInst, hw, hc]

theorem resolveInst_terminator (i : IrInst) :
    isTerminator (resolveInst t syms i).op = isTerminator i.op := by
  have hsigned : ∀ op, isTerminator (signedOp op) = isTerminator op := by
    intro op
    cases op <;> rfl
  have hw : isTerminator (wcharSignedness t i) = isTerminator i.op := by
    unfold wcharSignedness
    split
    · exact hsigned i.op
    · rfl
  simp only [resolveInst]
  split
  · next h =>
    rw [← hw]
    have hconv := h.1
    simp only [isConversion, Bool.decide_or, Bool.or_eq_true, decide_eq_true_eq] at hconv
    rcases hconv with hop | hop | hop <;> rw [hop] <;> rfl
  · exact hw

theorem resolveOperand_temp {o : IrOperand} (h : o.kind = .temp) :
    resolveOperand t syms o = { o with type := t.type o.type } := by
  simp [resolveOperand, h]

theorem resolveOperand_block {o : IrOperand} (h : o.kind = .block) :
    resolveOperand t syms o = { o with type := t.type o.type } := by
  simp [resolveOperand, h]

theorem resolveOperand_isTemp (o : IrOperand) (x : Nat) :
    isTemp (resolveOperand t syms o) x = isTemp o x := by
  unfold resolveOperand
  split
  · next h => simp [isTemp, irIntOp, h]
  · next h => simp [isTemp, irIntOp, h]
  · rfl

theorem resolveInst_unused {x : Nat} {i : IrInst} (h : Unused x i) :
    Unused x (resolveInst t syms i) := by
  intro o ho
  rw [resolveInst_operands] at ho
  obtain ⟨o', ho', rfl⟩ := List.mem_map.mp ho
  rw [resolveOperand_isTemp]
  exact h o' ho'

end Resolve

/-! ## One instruction -/

section Steps

variable {fl : Floats} {env : Env} {code : List (List IrInst)}
  {S : Machine → Machine → Prop} {m m' : Machine}

theorem execTerminator_sim {inst : IrInst} (hS : S m m') (htrace : m.trace = m'.trace)
    (ha : operandValue fl env m inst.a = operandValue fl env m' inst.a) :
    Exit.Sim code S (execTerminator fl env inst m) (execTerminator fl env inst m') := by
  unfold execTerminator
  rw [ha, htrace]
  split
  · exact .goto (.refl _) hS
  · exact .goto (.refl _) hS
  · exact .goto (.refl _) hS
  · exact .ret _ _
  · exact .unreachable _

section Leave

variable {t : Target} {syms : Nat → Nat} {i : IrInst}

theorem execTerminator_jump (ha : i.a.kind = .block) (hop : i.op = .jump) (m : Machine) :
    execTerminator fl env (resolveInst t syms i) m = .goto i.a.val m := by
  have hop' : (resolveInst t syms i).op = .jump := by
    rw [resolveInst_op (by simp [hop, signedOp]) (by simp [hop, isConversion]), hop]
  simp only [execTerminator, hop', resolveInst_a, resolveOperand_block ha]

theorem execTerminator_branch (hk : i.b.kind = .block ∧ i.c.kind = .block)
    (hop : i.op = .branch) (m : Machine) :
    execTerminator fl env (resolveInst t syms i) m =
      .goto (if operandValue fl env m (resolveOperand t syms i.a) ≠ 0 then i.b.val
        else i.c.val) m := by
  have hop' : (resolveInst t syms i).op = .branch := by
    rw [resolveInst_op (by simp [hop, signedOp]) (by simp [hop, isConversion]), hop]
  have hc' : (resolveInst t syms i).c = resolveOperand t syms i.c := rfl
  simp only [execTerminator, hop', resolveInst_a, resolveInst_b, hc',
    resolveOperand_block hk.1, resolveOperand_block hk.2]

theorem execTerminator_branchOv (hk : i.b.kind = .block ∧ i.c.kind = .block)
    (hop : i.op = .branchOv) (m : Machine) :
    execTerminator fl env (resolveInst t syms i) m =
      .goto (if env.overflow m.trace then i.b.val else i.c.val) m := by
  have hop' : (resolveInst t syms i).op = .branchOv := by
    rw [resolveInst_op (by simp [hop, signedOp]) (by simp [hop, isConversion]), hop]
  have hc' : (resolveInst t syms i).c = resolveOperand t syms i.c := rfl
  simp only [execTerminator, hop', resolveInst_b, hc', resolveOperand_block hk.1,
    resolveOperand_block hk.2]

end Leave

/-- An instruction computes from its operands and the events alone. -/
theorem execValue_congr {inst : IrInst} (htrace : m.trace = m'.trace) (h : ∀ o ∈ inst.operands,
      operandValue fl env m o = operandValue fl env m' o) :
    execValue fl env inst m = execValue fl env inst m' := by
  have harg : ∀ o ∈ inst.operands, operandArg fl env m o = operandArg fl env m' o := by
    intro o ho
    unfold operandArg
    rw [h o ho]
  have hargs : inst.args.map (operandArg fl env m) =
      inst.args.map (operandArg fl env m') :=
    map_congr_left fun o ho => harg o (by simp [IrInst.operands, ho])
  have ha := h inst.a (by simp [IrInst.operands])
  have hb := h inst.b (by simp [IrInst.operands])
  have haa := harg inst.a (by simp [IrInst.operands])
  have hba := harg inst.b (by simp [IrInst.operands])
  have hca := harg inst.c (by simp [IrInst.operands])
  have hevent : instEvent fl env m inst = instEvent fl env m' inst := by
    simp only [instEvent, haa, hba, hca, hargs]
  simp only [execValue, instValue, ha, hb, htrace, hevent]

theorem execValue_trim {inst : IrInst} {v : Nat} {trace : List Event}
    (h : execValue fl env inst m = some (v, trace)) :
    trimTo fl inst.type v = v := by
  unfold execValue at h
  split at h
  · simp only [instValue, Option.map_map, map_eq_some_iff] at h
    obtain ⟨w, -, hw⟩ := h
    rw [← (Prod.mk.inj hw).1]
    exact trimTo_trimTo fl _ _
  · rw [← (Prod.mk.inj (some.inj h)).1]
    exact trimTo_trimTo fl _ _

/-- The register of a result keeps its value: an address has all 64 bits. -/
theorem trimTo_tempType (fl : Floats) (t : Target) (i : IrInst) (v : Nat) :
    trimTo fl (t.type i.tempType) v = trimTo fl (t.type i.type) v := by
  by_cases h : i.op = .call ∧ i.type = .agg
  · rw [IrInst.tempType, if_pos h, h.2]
    cases t <;> rfl
  · rw [IrInst.tempType, if_neg h]

theorem execInst_typed {t : Target} {temps : List IrType} {syms : Nat → Nat}
    {i : IrInst} (hi : InstOk temps i) (hm : m.Typed fl t temps)
    (h : execInst fl env (resolveInst t syms i) m = some m') :
    m'.Typed fl t temps := by
  obtain ⟨⟨v, trace⟩, hv, rfl⟩ := map_eq_some_iff.mp h
  intro x type hx
  rw [Machine.write_regs, resolveInst_result]
  split
  · next hr =>
    rw [hr.2, hi.result hr.1] at hx
    obtain rfl := some.inj hx
    rw [trimTo_tempType, ← @resolveInst_type _ syms]
    exact execValue_trim hv
  · exact hm x type hx

theorem stepSim_typed {t : Target} {temps : List IrType} {syms : Nat → Nat}
    {i : IrInst} (hi : InstOk temps i) :
    StepSim fl env code (fun m m' => m = m' ∧ m.Typed fl t temps)
      (resolveInst t syms i) (resolveInst t syms i) := by
  refine ⟨rfl, ?_⟩
  rintro m _ ⟨rfl, hm⟩
  refine ⟨fun _ => execTerminator_sim ⟨rfl, hm⟩ rfl rfl, fun _ => ?_⟩
  cases h : execInst fl env (resolveInst t syms i) m with
  | none => exact .none
  | some m' => exact .some ⟨rfl, execInst_typed hi hm h⟩

/-- Machines that differ in register `x` at most. -/
def AgreeOff (x : Nat) (m m' : Machine) : Prop :=
  m.trace = m'.trace ∧ ∀ y, y ≠ x → m.regs y = m'.regs y

theorem AgreeOff.operandValue {x : Nat} (h : AgreeOff x m m') {o : IrOperand}
    (ho : isTemp o x = false) :
    operandValue fl env m o = operandValue fl env m' o := by
  unfold AnticIr.operandValue
  split
  · next hk =>
    refine h.2 _ fun hx => ?_
    simp [isTemp, hk, hx] at ho
  · rfl
  · rfl
  · rfl
  · rfl

theorem AgreeOff.write {x : Nat} (h : AgreeOff x m m') (trace : List Event) (r v : Nat) :
    AgreeOff x (({ m with trace := trace }).write r v)
      (({ m' with trace := trace }).write r v) := by
  refine ⟨by simp, fun y hy => ?_⟩
  rw [Machine.write_regs, Machine.write_regs]
  split
  · rfl
  · exact h.2 y hy

theorem stepSim_unused {x : Nat} {i : IrInst} (hi : Unused x i) :
    StepSim fl env code (AgreeOff x) i i := by
  refine ⟨rfl, fun m m' h => ⟨fun _ => ?_, fun _ => ?_⟩⟩
  · exact execTerminator_sim h h.1 (h.operandValue (hi i.a (by simp [IrInst.operands])))
  · unfold execInst
    rw [execValue_congr h.1 fun o ho => h.operandValue (hi o ho)]
    cases execValue fl env i m' with
    | none => exact .none
    | some r => exact .some (h.write r.2 i.result r.1)

end Steps

/-! ## One change of the code -/

/-- `inst'` is `inst` with its targets moved past blocks that only jump. -/
inductive Retargets (code : List (List IrInst)) : IrInst → IrInst → Prop
  | jump {inst : IrInst} {v : Nat} : inst.op = .jump → Chain code inst.a.val v →
      Retargets code inst { inst with a := { inst.a with val := v } }
  | branch {inst : IrInst} {v w : Nat} : inst.op = .branch ∨ inst.op = .branchOv →
      Chain code inst.b.val v → Chain code inst.c.val w →
      Retargets code inst { inst with b := { inst.b with val := v }, c := { inst.c with val := w } }

/-- One change that `apply_peephole_rules` makes of a block, besides those of `simplify`. -/
inductive Rewrite (code : List (List IrInst)) :
    List IrInst → List IrInst → Prop
  | selfCopy (pre post : List IrInst) {inst : IrInst} : inst.op = .copy →
      isTemp inst.a inst.result = true →
      Rewrite code (pre ++ inst :: post) (pre ++ post)
  | fuse (pre post : List IrInst) {inst next : IrInst} : next.op = .copy →
      inst.result ≠ irNoResult → isTemp next.a inst.result = true →
      usesIn code.flatten inst.result ≤ 1 →
      Rewrite code (pre ++ inst :: next :: post)
        (pre ++ { inst with result := next.result } :: post)
  | retarget (pre post : List IrInst) {inst inst' : IrInst} : Retargets code inst inst' →
      Rewrite code (pre ++ inst :: post) (pre ++ inst' :: post)

theorem Retargets.ok {temps : List IrType} {code : List (List IrInst)}
    {inst inst' : IrInst} (h : Retargets code inst inst')
    (hi : InstOk temps inst) : InstOk temps inst' := by
  cases h with
  | jump hop _ => exact ⟨hi.result, fun h => by simp [hop] at h, hi.jump, hi.branch⟩
  | branch hop _ _ => exact ⟨hi.result, hi.copy, hi.jump, hi.branch⟩

theorem Retargets.uses {code : List (List IrInst)} {inst inst' : IrInst}
    {temps : List IrType} (h : Retargets code inst inst')
    (hi : InstOk temps inst) (x : Nat) :
    inst'.operands.countP (isTemp · x) = inst.operands.countP (isTemp · x) := by
  cases h with
  | jump hop _ =>
    have ha := hi.jump hop
    simp [IrInst.operands, isTemp, ha]
  | branch hop _ _ =>
    obtain ⟨hb, hc⟩ := hi.branch hop
    simp [IrInst.operands, isTemp, countP_cons, hb, hc]

section Rewrites

variable {temps : List IrType} {bound : Nat → Nat}
  {before after : List (List IrInst)} {insts insts' : List IrInst}

theorem Rewrite.ok (h : Rewrite (before ++ insts :: after) insts insts')
    (hok : CodeOk temps bound (before ++ insts :: after)) :
    CodeOk temps bound (before ++ insts' :: after) := by
  -- The instructions of the block are in order and have no more uses.
  have key : (∀ i ∈ insts', InstOk temps i) ∧ ∀ x, usesIn insts' x ≤ usesIn insts x := by
    have hinsts : ∀ i ∈ insts, InstOk temps i := fun i hi => hok.insts i (by simp [hi])
    cases h with
    | selfCopy pre post hop ha =>
      refine ⟨fun i hi => hinsts i ?_, fun x => ?_⟩
      · simp only [mem_append] at hi ⊢
        tauto
      · simp only [usesIn_append, usesIn_cons]
        omega
    | @fuse pre post inst next hop hr ha huses =>
      refine ⟨fun i hi => ?_, fun x => ?_⟩
      · simp only [mem_append, mem_cons] at hi
        rcases hi with hi | rfl | hi
        · exact hinsts i (by simp [hi])
        · have h1 := hinsts inst (by simp)
          have h2 := hinsts next (by simp)
          have hval : next.a.kind = .temp ∧ next.a.val = inst.result := by
            simpa [isTemp] using ha
          -- The temporary between them has the type of both.
          have htype : inst.tempType = next.tempType := by
            have hcopy := h2.copy hop hval.1
            rw [hval.2, h1.result hr] at hcopy
            refine (some.inj hcopy).trans (IrInst.tempType_of_ne ?_).symm
            rw [hop]
            exact IrOp.noConfusion
          refine ⟨fun hne => ?_, h1.copy, h1.jump, h1.branch⟩
          exact (h2.result hne).trans (congrArg some htype.symm)
        · exact hinsts i (by simp [hi])
      · simp only [usesIn_append, usesIn_cons, IrInst.operands]
        omega
    | retarget pre post hinst =>
      refine ⟨fun i hi => ?_, fun x => ?_⟩
      · simp only [mem_append, mem_cons] at hi
        rcases hi with hi | rfl | hi
        · exact hinsts i (by simp [hi])
        · exact hinst.ok (hinsts _ (by simp))
        · exact hinsts i (by simp [hi])
      · simp only [usesIn_append, usesIn_cons]
        rw [hinst.uses (hinsts _ (by simp)) x]
  refine ⟨fun i hi => ?_, fun x => ?_⟩
  · simp only [flatten_append, flatten_cons, mem_append] at hi
    rcases hi with hi | hi | hi
    · exact hok.insts i (by simp [hi])
    · exact key.1 i hi
    · exact hok.insts i (by simp [hi])
  · have hle := hok.uses x
    have hless := key.2 x
    simp only [flatten_append, flatten_cons, usesIn_append] at hle ⊢
    omega

variable {fl : Floats} {env : Env} {t : Target} {syms : Nat → Nat}

theorem resolveCode_append (before after : List (List IrInst)) (insts : List IrInst) :
    resolveCode t syms (before ++ insts :: after) = resolveCode t syms before ++
        insts.map (resolveInst t syms) :: resolveCode t syms after := by
  simp [resolveCode]

theorem mem_resolveCode {code : List (List IrInst)} {block : List IrInst}
    (h : block ∈ resolveCode t syms code) {i : IrInst} (hi : i ∈ block) :
    ∃ j ∈ code.flatten, i = resolveInst t syms j := by
  obtain ⟨insts, hinsts, rfl⟩ := List.mem_map.mp h
  obtain ⟨j, hj, rfl⟩ := List.mem_map.mp hi
  exact ⟨j, mem_flatten.mpr ⟨insts, hinsts, hj⟩, rfl⟩

theorem mem_others {block : List IrInst}
    (h : block ∈ resolveCode t syms before ++ resolveCode t syms after)
    {i : IrInst} (hi : i ∈ block) :
    ∃ j, (j ∈ before.flatten ∨ j ∈ after.flatten) ∧ i = resolveInst t syms j := by
  rcases mem_append.mp h with h | h
  · obtain ⟨j, hj, rfl⟩ := mem_resolveCode h hi
    exact ⟨j, .inl hj, rfl⟩
  · obtain ⟨j, hj, rfl⟩ := mem_resolveCode h hi
    exact ⟨j, .inr hj, rfl⟩

theorem execInst_selfCopy {i : IrInst} {m : Machine} (hi : InstOk temps i)
    (hm : m.Typed fl t temps) (hop : i.op = .copy)
    (ha : isTemp i.a i.result = true) :
    execInst fl env (resolveInst t syms i) m = some m := by
  obtain ⟨hk, hv⟩ : i.a.kind = .temp ∧ i.a.val = i.result := by
    simpa [isTemp] using ha
  have hop' : (resolveInst t syms i).op = .copy := by
    rw [resolveInst_op (by simp [hop, signedOp]) (by simp [hop, isConversion]), hop]
  have htype : trimTo fl (t.type i.type) (m.regs i.result) = m.regs i.result := by
    rw [← hv]
    exact hm _ _ (hi.copy hop hk)
  simp only [execInst, execValue, hop', isComputed, instValue, compute,
    resolveInst_a, resolveOperand_temp hk, operandValue, hk, hv, map_some,
    resolveInst_type, htype]
  cases m with
  | mk regs trace =>
    unfold Machine.write
    split
    · rfl
    · simp

variable {pre post : List IrInst} {inst : IrInst}

theorem selfCopy_sim (hok : CodeOk temps bound (before ++ (pre ++ inst :: post) :: after))
    (hop : inst.op = .copy) (ha : isTemp inst.a inst.result = true) :
    BlockSim fl env (resolveCode t syms (before ++ (pre ++ inst :: post) :: after))
      (resolveCode t syms (before ++ (pre ++ post) :: after))
      (fun m m' => m = m' ∧ m.Typed fl t temps) := by
  rw [resolveCode_append, resolveCode_append, map_append, map_append, map_cons]
  refine BlockSim.of_block fl env (fun _ _ h => by rw [h.1]) ?_ ?_
  · intro block hblock i hi
    obtain ⟨j, hj, rfl⟩ := mem_others hblock hi
    refine stepSim_typed (hok.insts j ?_)
    rcases hj with hj | hj <;> simp [hj]
  · refine InstsSim.append fl env ?_ ?_
    · intro i hi
      obtain ⟨j, hj, rfl⟩ := List.mem_map.mp hi
      exact stepSim_typed (hok.insts j (by simp [hj]))
    · rintro m _ ⟨rfl, hm⟩
      have hinst := hok.insts inst (by simp)
      have hterm : isTerminator (resolveInst t syms inst).op = false := by
        rw [resolveInst_terminator, hop]
        rfl
      rw [execBlock]
      simp only [hterm, execInst_selfCopy hinst hm hop ha]
      refine InstsSim.same fl env ?_ m m ⟨rfl, hm⟩
      intro i hi
      obtain ⟨j, hj, rfl⟩ := List.mem_map.mp hi
      exact stepSim_typed (hok.insts j (by simp [hj]))

theorem unused_of_fuse {next : IrInst} {x : Nat} (ha : isTemp next.a x = true)
    (h : usesIn (before ++ (pre ++ inst :: next :: post) :: after).flatten x ≤ 1) :
    (∀ i ∈ before.flatten, Unused x i) ∧ (∀ i ∈ pre, Unused x i) ∧
      Unused x inst ∧ (∀ i ∈ post, Unused x i) ∧
      ∀ i ∈ after.flatten, Unused x i := by
  simp only [flatten_append, flatten_cons, usesIn_append, usesIn_cons] at h
  have hnext : 1 ≤ next.operands.countP (isTemp · x) :=
    countP_pos_iff.mpr ⟨next.a, by simp [IrInst.operands], ha⟩
  exact ⟨unused_of_usesIn (by omega), unused_of_usesIn (by omega),
    unused_of_count (by omega), unused_of_usesIn (by omega),
    unused_of_usesIn (by omega)⟩

/-- An operation and the copy of its result do what the operation with the
    result of the copy does. -/
theorem fuse_insts_sim {code : List (List IrInst)} {next : IrInst}
    (hinst : InstOk temps inst) (hnext : InstOk temps next) (hop : next.op = .copy)
    (hr : inst.result ≠ irNoResult) (ha : isTemp next.a inst.result = true)
    (hunused : Unused inst.result inst)
    (hpost : InstsSim fl env code (AgreeOff inst.result) post post) :
    InstsSim fl env code (AgreeOff inst.result)
      (resolveInst t syms inst :: resolveInst t syms next :: post)
      (resolveInst t syms { inst with result := next.result } :: post) := by
  intro m m' hS
  obtain ⟨hk, hv⟩ : next.a.kind = .temp ∧ next.a.val = inst.result := by
    simpa [isTemp] using ha
  have htype : inst.tempType = next.type := by
    have hcopy := hnext.copy hop hk
    rw [hv, hinst.result hr] at hcopy
    exact some.inj hcopy
  have hcongr : ∀ o ∈ (resolveInst t syms inst).operands,
      operandValue fl env m o = operandValue fl env m' o := fun o ho =>
    hS.operandValue (resolveInst_unused hunused o ho)
  -- The result of an instruction has no part in what it computes.
  have hterm : isTerminator (resolveInst t syms { inst with result := next.result }).op =
      isTerminator (resolveInst t syms inst).op := rfl
  have hvalue : execValue fl env (resolveInst t syms { inst with result := next.result }) m' =
      execValue fl env (resolveInst t syms inst) m :=
    (execValue_congr hS.1 hcongr).symm
  cases ht : isTerminator (resolveInst t syms inst).op with
  | true =>
    rw [execBlock, execBlock, hterm, ht, if_pos rfl, if_pos rfl]
    show Exit.Sim code _ (execTerminator fl env (resolveInst t syms inst) m)
      (execTerminator fl env (resolveInst t syms inst) m')
    exact execTerminator_sim hS hS.1 (hcongr _ (by simp [IrInst.operands]))
  | false =>
    rw [execBlock, execBlock, hterm, ht, if_neg (by simp), if_neg (by simp)]
    unfold execInst
    rw [hvalue]
    cases hexec : execValue fl env (resolveInst t syms inst) m with
    | none => exact .undefined
    | some r =>
      obtain ⟨v, trace⟩ := r
      have hop' : (resolveInst t syms next).op = .copy := by
        rw [resolveInst_op (by simp [hop, signedOp]) (by simp [hop, isConversion]), hop]
      have hread : (({ m with trace := trace }).write inst.result v).regs
          inst.result = v := by
        rw [Machine.write_regs, if_pos ⟨hr, rfl⟩]
      have htrim : trimTo fl (t.type next.type) v = v := by
        rw [← htype, trimTo_tempType, ← @resolveInst_type _ syms]
        exact execValue_trim hexec
      simp only [map_some]
      rw [execBlock, resolveInst_terminator, hop]
      simp only [execInst, execValue, hop', instValue, compute, resolveInst_a,
        resolveOperand_temp hk, operandValue, hk, hv, hread, map_some,
        resolveInst_type, htrim, resolveInst_result]
      refine hpost _ _ ⟨by simp, fun y hy => ?_⟩
      simp only [Machine.write_regs, hy, and_false, if_false]
      rw [hS.2 y hy]

theorem fuse_sim {next : IrInst}
    (hok : CodeOk temps bound (before ++ (pre ++ inst :: next :: post) :: after))
    (hop : next.op = .copy) (hr : inst.result ≠ irNoResult)
    (ha : isTemp next.a inst.result = true)
    (huses : usesIn (before ++ (pre ++ inst :: next :: post) :: after).flatten inst.result ≤ 1) :
    BlockSim fl env (resolveCode t syms (before ++ (pre ++ inst :: next :: post) :: after))
      (resolveCode t syms (before ++ (pre ++ { inst with result := next.result } :: post) :: after))
      (AgreeOff inst.result) := by
  obtain ⟨hbefore, hpre, hinst, hpost, hafter⟩ := unused_of_fuse ha huses
  rw [resolveCode_append, resolveCode_append, map_append, map_append, map_cons, map_cons, map_cons]
  refine BlockSim.of_block fl env (fun _ _ h => h.1) ?_ ?_
  · intro block hblock i hi
    obtain ⟨j, hj, rfl⟩ := mem_others hblock hi
    refine stepSim_unused (resolveInst_unused ?_)
    rcases hj with hj | hj
    · exact hbefore j hj
    · exact hafter j hj
  · refine InstsSim.append fl env ?_ ?_
    · intro i hi
      obtain ⟨j, hj, rfl⟩ := List.mem_map.mp hi
      exact stepSim_unused (resolveInst_unused (hpre j hj))
    · refine fuse_insts_sim (hok.insts inst (by simp)) (hok.insts next (by simp))
        hop hr ha hinst (InstsSim.same fl env ?_)
      intro i hi
      obtain ⟨j, hj, rfl⟩ := List.mem_map.mp hi
      exact stepSim_unused (resolveInst_unused (hpost j hj))

theorem resolve_chain {code : List (List IrInst)}
    (hok : ∀ i ∈ code.flatten, InstOk temps i) {b target : Nat}
    (h : Chain code b target) : Chain (resolveCode t syms code) b target := by
  refine h.mono fun b inst hb hop => ⟨resolveInst t syms inst, ?_, ?_, ?_⟩
  · simp [resolveCode, hb]
  · rw [resolveInst_op (by simp [hop, signedOp]) (by simp [hop, isConversion]), hop]
  · have hk := (hok inst (mem_flatten.mpr
      ⟨[inst], mem_of_getElem? hb, mem_singleton_self inst⟩)).jump hop
    rw [resolveInst_a, resolveOperand_block hk]

theorem Retargets.stepSim {code : List (List IrInst)} {inst' : IrInst}
    (h : Retargets code inst inst') (hok : ∀ i ∈ code.flatten, InstOk temps i)
    (hinst : InstOk temps inst) :
    StepSim fl env (resolveCode t syms code) Eq (resolveInst t syms inst)
      (resolveInst t syms inst') := by
  refine ⟨?_, ?_⟩
  · rw [resolveInst_terminator, resolveInst_terminator]
    cases h <;> rfl
  rintro m _ rfl
  have hinst' := h.ok hinst
  cases h with
  | jump hop hchain =>
    refine ⟨fun _ => ?_, fun hterm => ?_⟩
    · rw [execTerminator_jump (hinst.jump hop) hop, execTerminator_jump (hinst'.jump hop) hop]
      exact .goto (resolve_chain hok hchain) rfl
    · rw [resolveInst_terminator, hop] at hterm
      exact Bool.noConfusion hterm
  | branch hop hv hw =>
    have hk := hinst.branch hop
    have hk' := hinst'.branch hop
    refine ⟨fun _ => ?_, fun hterm => ?_⟩
    · rcases hop with hop | hop
      · rw [execTerminator_branch hk hop, execTerminator_branch hk' hop]
        refine .goto ?_ rfl
        split
        · exact resolve_chain hok hv
        · exact resolve_chain hok hw
      · rw [execTerminator_branchOv hk hop, execTerminator_branchOv hk' hop]
        refine .goto ?_ rfl
        split
        · exact resolve_chain hok hv
        · exact resolve_chain hok hw
    · rw [resolveInst_terminator] at hterm
      rcases hop with hop | hop <;> rw [hop] at hterm <;> exact Bool.noConfusion hterm

theorem retarget_sim {inst' : IrInst}
    (hok : CodeOk temps bound (before ++ (pre ++ inst :: post) :: after))
    (h : Retargets (before ++ (pre ++ inst :: post) :: after) inst inst') :
    BlockSim fl env (resolveCode t syms (before ++ (pre ++ inst :: post) :: after))
      (resolveCode t syms (before ++ (pre ++ inst' :: post) :: after)) Eq := by
  have hstep : StepSim fl env (resolveCode t syms (before ++ (pre ++ inst :: post) :: after)) Eq
      (resolveInst t syms inst) (resolveInst t syms inst') :=
    h.stepSim hok.insts (hok.insts inst (by simp))
  rw [resolveCode_append] at hstep ⊢
  rw [resolveCode_append, map_append, map_append, map_cons, map_cons]
  rw [map_append, map_cons] at hstep
  -- Equal machines run an instruction alike.
  have hsame : ∀ i code, StepSim fl env code Eq i i := by
    intro i code
    refine ⟨rfl, ?_⟩
    rintro m _ rfl
    refine ⟨fun _ => execTerminator_sim rfl rfl rfl, fun _ => ?_⟩
    cases execInst fl env i m with
    | none => exact .none
    | some m' => exact .some rfl
  refine BlockSim.of_block fl env (fun _ _ h => by rw [h]) (fun _ _ i _ => hsame i _) ?_
  exact InstsSim.append fl env (fun i _ => hsame i _)
    (.cons fl env hstep (InstsSim.same fl env fun i _ => hsame i _))

/-- **One change of a block keeps what the code shows.** -/
theorem Rewrite.seenOf_eq (h : Rewrite (before ++ insts :: after) insts insts')
    (hok : CodeOk temps bound (before ++ insts :: after)) {m : Machine}
    (hm : m.Typed fl t temps) :
    seenOf fl env (resolveCode t syms (before ++ insts :: after)) m =
      seenOf fl env (resolveCode t syms (before ++ insts' :: after)) m := by
  cases h with
  | selfCopy pre post hop ha => exact (selfCopy_sim hok hop ha).seenOf_eq fl env ⟨rfl, hm⟩
  | fuse pre post hop hr ha huses =>
    exact (fuse_sim hok hop hr ha huses).seenOf_eq fl env ⟨rfl, fun _ _ => rfl⟩
  | retarget pre post hinst => exact (retarget_sim hok hinst).seenOf_eq fl env rfl

end Rewrites

/-! ## The pass -/

/-- One change of one block of a code. -/
inductive Change : List (List IrInst) → List (List IrInst) → Prop
  | mk (before after : List (List IrInst)) {insts insts' : List IrInst} :
      Rewrite (before ++ insts :: after) insts insts' →
      Change (before ++ insts :: after) (before ++ insts' :: after)

/-- Any number of changes. -/
abbrev Changes : List (List IrInst) → List (List IrInst) → Prop := Relation.ReflTransGen Change

section Pass

variable {temps : List IrType} {bound : Nat → Nat} {code code' : List (List IrInst)}

theorem Changes.ok (h : Changes code code') (hok : CodeOk temps bound code) :
    CodeOk temps bound code' := by
  induction h with
  | refl => exact hok
  | tail _ hchange ih =>
    obtain ⟨before, after, hrewrite⟩ := hchange
    exact hrewrite.ok ih

/-- **Changes keep what a code shows**, on every target. -/
theorem Changes.seenOf_eq {fl : Floats} {env : Env} {t : Target}
    {syms : Nat → Nat} {m : Machine} (h : Changes code code')
    (hok : CodeOk temps bound code) (hm : m.Typed fl t temps) :
    seenOf fl env (resolveCode t syms code) m =
      seenOf fl env (resolveCode t syms code') m := by
  induction h with
  | refl => rfl
  | tail hchanges hchange ih =>
    obtain ⟨before, after, hrewrite⟩ := hchange
    exact ih.trans (hrewrite.seenOf_eq (Changes.ok hchanges hok) hm)

theorem Chain.trans {b b' b'' : Nat} (h : Chain code b b')
    (h' : Chain code b' b'') : Chain code b b'' := by
  induction h with
  | refl b => exact h'
  | jump hb hop _ ih => exact .jump hb hop (ih h')

theorem finalTargetFrom_chain {b target : Nat} (steps : Nat)
    (h : Chain code b target) : Chain code b (finalTargetFrom code b steps target) := by
  induction steps generalizing target with
  | zero => exact .refl b
  | succ steps ih =>
    unfold finalTargetFrom
    split
    · next inst hb =>
      split
      · next hop => exact ih (h.trans (.jump hb hop (.refl _)))
      · exact h
    · exact h

theorem finalTarget_chain (code : List (List IrInst)) (b : Nat) :
    Chain code b (finalTarget code b) :=
  finalTargetFrom_chain _ (.refl b)

/-- The targets move along chains of the blocks that were looked at. -/
theorem retargetInst_cases {look : List (List IrInst)} (inst : IrInst)
    (hlook : ∀ (b : Nat) (i : IrInst), look[b]? = some [i] → i.op = .jump → code[b]? = some [i]) :
    retargetInst look inst = inst ∨ Retargets code inst (retargetInst look inst) := by
  have hchain : ∀ b, Chain code b (finalTarget look b) := fun b =>
    (finalTarget_chain look b).mono fun b i hb hop => ⟨i, hlook b i hb hop, hop, rfl⟩
  unfold retargetInst
  split
  · next hop => exact .inr (.jump hop (hchain _))
  · split
    · next hop => exact .inr (.branch hop (hchain _) (hchain _))
    · exact .inl rfl

theorem simplify_jump {i : IrInst} (h : i.op = .jump) : simplify i = i := by
  simp [simplify, h, isCommutative]

theorem simplify_copy {i : IrInst} (h : i.op = .copy) : simplify i = i := by
  simp [simplify, h, isCommutative]

theorem simplify_look {before after : List (List IrInst)}
    {done rest : List IrInst} {inst : IrInst} {b : Nat} {i : IrInst}
    (hb : (before ++ (done ++ inst :: rest) :: after)[b]? = some [i])
    (hop : i.op = .jump) :
    (before ++ (done ++ inst :: rest.map simplify) ::
      after.map (List.map simplify))[b]? = some [i] := by
  rcases lt_trichotomy b before.length with hlt | heq | hgt
  · rw [getElem?_append_left hlt] at hb ⊢
    exact hb
  · rw [getElem?_append_right heq.ge, heq, Nat.sub_self, getElem?_cons_zero] at hb ⊢
    -- The block holds `inst`, so it holds nothing else.
    have hone : done ++ inst :: rest = [i] := some.inj hb
    obtain ⟨rfl, rfl⟩ : done = [] ∧ rest = [] := by
      have hlen := congrArg List.length hone
      simp only [length_append, length_cons, length_nil] at hlen
      exact ⟨eq_nil_of_length_eq_zero (by omega), eq_nil_of_length_eq_zero (by omega)⟩
    simpa using hone
  · obtain ⟨k, hk⟩ : ∃ k, b - before.length = k + 1 :=
      ⟨b - before.length - 1, by omega⟩
    rw [getElem?_append_right hgt.le, hk, getElem?_cons_succ] at hb ⊢
    simp [hb, simplify_jump hop]

/-- The turns over the rest of a block are changes of the code whose other
    instructions are simplified. -/
theorem peepholeInsts_changes {c : Counts} {paramCount : Nat}
    {before after : List (List IrInst)} (done rest : List IrInst)
    (hok : CodeOk temps c.uses
      (before ++ (done ++ rest.map simplify) :: after.map (List.map simplify))) :
    Changes (before ++ (done ++ rest.map simplify) :: after.map (List.map simplify))
      (before ++ (done ++ peepholeInsts c paramCount
        (fun insts => before ++ insts :: after) done rest) ::
        after.map (List.map simplify)) := by
  have hretarget : ∀ (done rest : List IrInst) (inst : IrInst),
      Changes (before ++ (done ++ inst :: rest.map simplify) :: after.map (List.map simplify))
        (before ++ (done ++ retargetInst
          (before ++ (done ++ inst :: rest) :: after) inst :: rest.map simplify) ::
          after.map (List.map simplify)) := by
    intro done rest inst
    rcases retargetInst_cases inst fun b i hb hop => simplify_look hb hop with h | h
    · rw [h]
    · exact .single (.mk before _ (.retarget done _ h))
  fun_induction peepholeInsts c paramCount (fun insts => before ++ insts :: after)
    done rest with
  | case1 done => simpa using Relation.ReflTransGen.refl
  | case2 done inst s hself =>
    simpa using Relation.ReflTransGen.single (Change.mk before (after.map (List.map simplify))
        (.selfCopy done [] hself.1 hself.2))
  | case3 done inst s hself => exact hretarget done [] s
  | case4 done inst next rest s hself ih =>
    have hstep := Change.mk before (after.map (List.map simplify))
      (.selfCopy done ((next :: rest).map simplify) hself.1 hself.2)
    exact .head hstep (ih (Changes.ok (.single hstep) hok))
  | case5 done inst next rest s hself hfuse s' ih =>
    obtain ⟨hop, hr, ha, -, huses, -⟩ :
        next.op = .copy ∧ s.result ≠ irNoResult ∧ isTemp next.a s.result = true ∧
          c.defs s.result = 1 ∧ c.uses s.result = 1 ∧ s.result ≥ paramCount := by
      simpa [fuses] using hfuse
    have hstep : Change (before ++ (done ++ (inst :: next :: rest).map simplify) ::
          after.map (List.map simplify))
        (before ++ (done ++ s' :: rest.map simplify) ::
          after.map (List.map simplify)) := by
      rw [map_cons, map_cons, simplify_copy hop] at hok ⊢
      exact .mk before _ (.fuse done _ hop hr ha (huses ▸ hok.uses s.result))
    have hih := ih (by simpa using Changes.ok (.single hstep) hok)
    exact .head hstep (by simpa using hih)
  | case6 done inst next rest s hself hfuse s' ih =>
    have hstep := hretarget done (next :: rest) s
    have hih := ih (by simpa using Changes.ok hstep hok)
    exact hstep.trans (by simpa using hih)

theorem peepholeBlocks_length (c : Counts) (paramCount n b : Nat) (blocks : List (List IrInst)) :
    (peepholeBlocks c paramCount n b blocks).length = blocks.length := by
  induction n generalizing b blocks with
  | zero => rfl
  | succ n ih =>
    unfold peepholeBlocks
    split
    · rfl
    · rw [ih, length_set]

theorem peepholeBlocks_changes {c : Counts} {paramCount : Nat} (n b : Nat)
    (blocks : List (List IrInst)) (hn : n + b = blocks.length)
    (hok : CodeOk temps c.uses (blocks.take b ++ (blocks.drop b).map (List.map simplify))) :
    Changes (blocks.take b ++ (blocks.drop b).map (List.map simplify))
      (peepholeBlocks c paramCount n b blocks) := by
  induction n generalizing b blocks with
  | zero =>
    rw [take_of_length_le (by omega), drop_of_length_le (by omega)]
    simpa [peepholeBlocks] using Relation.ReflTransGen.refl
  | succ n ih =>
    have hb : b < blocks.length := by omega
    have hset : ∀ insts, blocks.set b insts =
        blocks.take b ++ insts :: blocks.drop (b + 1) := fun insts => by
      rw [set_eq_take_append_cons_drop, if_pos hb]
    rw [drop_eq_getElem_cons hb, map_cons] at hok ⊢
    have hstep : Changes _ (_ ++ (_ ++ peepholeInsts c paramCount _ [] blocks[b]) :: _) :=
      peepholeInsts_changes [] blocks[b] hok
    unfold peepholeBlocks
    rw [getElem?_eq_getElem hb]
    simp only [funext hset]
    refine hstep.trans ?_
    have hok' := Changes.ok hstep hok
    generalize peepholeInsts c paramCount
      (fun insts => blocks.take b ++ insts :: blocks.drop (b + 1)) [] blocks[b] =
      insts at hok' ⊢
    -- The block that is done now counts to those before the next one.
    have hlen : (blocks.take b).length = b := length_take_of_le hb.le
    have htake : (blocks.take b ++ insts :: blocks.drop (b + 1)).take (b + 1) =
        blocks.take b ++ [insts] := by
      rw [take_append, hlen, take_of_length_le (by omega)]
      simp
    have hdrop : (blocks.take b ++ insts :: blocks.drop (b + 1)).drop (b + 1) =
        blocks.drop (b + 1) := by
      rw [drop_append, hlen, drop_of_length_le (by omega)]
      simp
    have hih := ih (b + 1) (blocks.take b ++ insts :: blocks.drop (b + 1))
      (by simp; omega) (by rw [htake, hdrop]; simpa using hok')
    rw [htake, hdrop] at hih
    simpa using hih

theorem applyPeepholeRules_code (f : IrFunction) : (applyPeepholeRules f).code =
      peepholeBlocks (count f) f.params.length f.blocks.length 0 f.code := by
  have hlen : (peepholeBlocks (count f) f.params.length f.blocks.length 0
      f.code).length = f.blocks.length := by
    rw [peepholeBlocks_length]
    simp [IrFunction.code]
  simp only [applyPeepholeRules, IrFunction.code] at hlen ⊢
  refine ext_getElem ?_ fun i h1 h2 => ?_
  · simp [hlen]
  · simp

/-- **The pass is a sequence of changes** of the function whose instructions are simplified. -/
theorem applyPeepholeRules_changes {f : IrFunction}
    (hok : CodeOk temps (count f).uses (f.code.map (List.map simplify))) :
    Changes (f.code.map (List.map simplify)) (applyPeepholeRules f).code := by
  rw [applyPeepholeRules_code]
  exact peepholeBlocks_changes _ 0 f.code (by simp [IrFunction.code]) hok

end Pass

end AnticIr
