import Antic.CopyPropagation
import Antic.DefiniteAssignment
import Antic.ForwardStoresProofs

/-! # Replacing operands keeps a run

    A replacement of operands by operands of their types (`Fits`) leaves each instruction as it is
    in a state where the values are the same.  `Passed` is what holds of the code between the parts
    of copy propagation, and `Passed.map` is one replacement: where each replaced operand has the
    same value in every state that a run reaches, the run stays the same. -/

namespace AnticIr

variable {M : Meaning} {m m' : MemMachine} {temps : List IrType}

/-! ## Replacing operands -/

/-- What the verifier and `ir.c` promise of an instruction. -/
structure InstBuilt (temps : List IrType) (inst : IrInst) : Prop where
  operand : ∀ o ∈ inst.operands, OperandOk temps o
  result : inst.result ≠ irNoResult → temps[inst.result]? = some inst.tempType
  copy : inst.op = .copy → inst.a.kind ≠ .block ∧ (inst.a.kind = .none ∨ inst.a.type = inst.type)
  ptradd : inst.op = .ptradd → inst.type = .ptr
  jump : inst.op = .jump → inst.a.kind = .block
  branch : inst.op = .branch ∨ inst.op = .branchOv → inst.b.kind = .block ∧ inst.c.kind = .block

/-- A replacement of temporaries by operands of their types that have a value. -/
structure Fits (temps : List IrType) (g : IrOperand → IrOperand) : Prop where
  operand : ∀ o, OperandOk temps o → OperandOk temps (g o)
  type : ∀ o, OperandOk temps o → (g o).type = o.type
  fixed : ∀ o, o.kind ≠ .temp → g o = o
  kind : ∀ o, o.kind = .temp → (g o).kind ≠ .none ∧ (g o).kind ≠ .block

theorem mapOperands_operands (g : IrOperand → IrOperand) (inst : IrInst) :
    (inst.mapOperands g).operands = inst.operands.map g := rfl

theorem InstBuilt.map {g : IrOperand → IrOperand} (hg : Fits temps g) {inst : IrInst}
    (h : InstBuilt temps inst) : InstBuilt temps (inst.mapOperands g) := by
  have hblock (o : IrOperand) (hk : o.kind = .block) : (g o).kind = .block := by
    rw [hg.fixed o (by rw [hk]; exact IrOperandKind.noConfusion), hk]
  refine ⟨fun o ho => ?_, h.result, fun hop => ?_, h.ptradd, fun hop => hblock _ (h.jump hop),
    fun hop => ⟨hblock _ (h.branch hop).1, hblock _ (h.branch hop).2⟩⟩
  · rw [mapOperands_operands] at ho
    obtain ⟨o₀, ho₀, rfl⟩ := List.mem_map.1 ho
    exact hg.operand o₀ (h.operand o₀ ho₀)
  · show (g inst.a).kind ≠ .block ∧ ((g inst.a).kind = .none ∨ (g inst.a).type = inst.type)
    have ha := h.copy hop
    by_cases hk : inst.a.kind = .temp
    · refine ⟨(hg.kind _ hk).2, .inr ?_⟩
      rw [hg.type _ (h.operand _ List.mem_cons_self)]
      exact ha.2.resolve_left (by rw [hk]; exact IrOperandKind.noConfusion)
    · rw [hg.fixed _ hk]
      exact ha

section Alike

variable {g : IrOperand → IrOperand} {inst : IrInst}

theorem shownArg_of_valueOf {o o' : IrOperand} (htype : o'.type = o.type)
    (hk : o.kind ≠ .none ∧ o.kind ≠ .block) (hk' : o'.kind ≠ .none ∧ o'.kind ≠ .block)
    (hv : valueOf M m o' = valueOf M m o) : shownArg M m o' = shownArg M m o := by
  have hshown (o : IrOperand) (hk : o.kind ≠ .none ∧ o.kind ≠ .block) :
      shownArg M m o = .value o.type (valueOf M m o).toNat := by
    unfold shownArg
    split
    · next he => exact absurd he hk.1
    · next he => exact absurd he hk.2
    · rfl
  rw [hshown o hk, hshown o' hk', htype, hv]

theorem shownEvent_map (hg : Fits temps g) (h : InstBuilt temps inst)
    (hv : ∀ o ∈ inst.operands, o.kind = .temp → valueOf M m (g o) = valueOf M m o) :
    shownEvent M m (inst.mapOperands g) = shownEvent M m inst := by
  have hargs : (inst.mapOperands g).operands.map (shownArg M m) =
      inst.operands.map (shownArg M m) := by
    rw [mapOperands_operands, List.map_map]
    refine List.map_congr_left fun o ho => ?_
    by_cases hk : o.kind = .temp
    · refine shownArg_of_valueOf (hg.type o (h.operand o ho)) ?_ (hg.kind o hk) (hv o ho hk)
      rw [hk]
      exact ⟨IrOperandKind.noConfusion, IrOperandKind.noConfusion⟩
    · show shownArg M m (g o) = _
      rw [hg.fixed o hk]
  unfold shownEvent
  rw [hargs]
  rfl

theorem valueOf_map (hg : Fits temps g)
    (hv : ∀ o ∈ inst.operands, o.kind = .temp → valueOf M m (g o) = valueOf M m o)
    {o : IrOperand} (ho : o ∈ inst.operands) : valueOf M m (g o) = valueOf M m o := by
  by_cases hk : o.kind = .temp
  · exact hv o ho hk
  · rw [hg.fixed o hk]

theorem stepInst_map (hg : Fits temps g) (h : InstBuilt temps inst)
    (hv : ∀ o ∈ inst.operands, o.kind = .temp → valueOf M m (g o) = valueOf M m o) :
    stepInst M (inst.mapOperands g) m = stepInst M inst m := by
  have ha : valueOf M m (inst.mapOperands g).a = valueOf M m inst.a :=
    valueOf_map hg hv List.mem_cons_self
  have hb : valueOf M m (inst.mapOperands g).b = valueOf M m inst.b :=
    valueOf_map hg hv (List.mem_cons_of_mem _ List.mem_cons_self)
  have hevent := shownEvent_map hg h hv
  have hop : (inst.mapOperands g).op = inst.op := rfl
  have hres : (inst.mapOperands g).result = inst.result := rfl
  have htype : (inst.mapOperands g).type = inst.type := rfl
  unfold stepInst
  rw [ha, hb, hevent, hop, hres, htype]

theorem leave_map (hg : Fits temps g) (h : InstBuilt temps inst)
    (hv : ∀ o ∈ inst.operands, o.kind = .temp → valueOf M m (g o) = valueOf M m o) :
    leave M (inst.mapOperands g) m = leave M inst m := by
  have ha : valueOf M m (inst.mapOperands g).a = valueOf M m inst.a :=
    valueOf_map hg hv List.mem_cons_self
  have hfixed (o : IrOperand) (hk : o.kind = .block) : g o = o :=
    hg.fixed o (by rw [hk]; exact IrOperandKind.noConfusion)
  have hop : (inst.mapOperands g).op = inst.op := rfl
  have htype : (inst.mapOperands g).type = inst.type := rfl
  unfold leave
  rw [hop, ha, htype]
  split
  · next hjump =>
      show Reached.at_ ⟨(g inst.a).val, 0, m⟩ = _
      rw [hfixed _ (h.jump hjump)]
  · next hbranch =>
      show Reached.at_ ⟨if valueOf M m inst.a ≠ 0 then (g inst.b).val else (g inst.c).val, 0, m⟩ = _
      rw [hfixed _ (h.branch (.inl hbranch)).1, hfixed _ (h.branch (.inl hbranch)).2]
  · next hbranch =>
      show Reached.at_ ⟨if M.overflow m.events then (g inst.b).val else (g inst.c).val, 0, m⟩ = _
      rw [hfixed _ (h.branch (.inr hbranch)).1, hfixed _ (h.branch (.inr hbranch)).2]
  · rfl
  · rfl

end Alike

/-! ## Registers of their types -/

/-- Each register holds a value of the type of its temporary. -/
def Typed (M : Meaning) (temps : List IrType) (m : MemMachine) : Prop :=
  ∀ x type, temps[x]? = some type → M.trim type (m.regs x) = m.regs x

theorem typed_write (h : Typed M temps m) {result : Nat} {type : IrType} {v : Word}
    (hresult : result ≠ irNoResult → temps[result]? = some type) (hv : M.trim type v = v)
    {m₁ : MemMachine} (hregs : m₁.regs = m.regs) : Typed M temps (m₁.write result v) := by
  intro x t ht
  rw [write_regs, hregs]
  split
  · next hx =>
      have heq := hresult hx.1
      rw [hx.2, heq] at ht
      cases ht
      exact hv
  · exact h x t ht

theorem trim_tempType (M : Meaning) (inst : IrInst) (v : Word) :
    M.trim inst.tempType (M.trim inst.type v) = M.trim inst.type v := by
  unfold IrInst.tempType
  split
  · exact M.trim_ptr _
  · exact M.trim_trim _ _

theorem typed_step {inst : IrInst} (hok : InstBuilt temps inst) (h : Typed M temps m)
    (hstep : stepInst M inst m = some m') : Typed M temps m' := by
  unfold stepInst at hstep
  split at hstep
  · cases hstep
    exact typed_write h hok.result (trim_tempType ..) rfl
  · next hop =>
      cases hstep
      refine typed_write h hok.result ?_ rfl
      rw [IrInst.tempType_of_ne (by rw [hop]; exact IrOp.noConfusion), hok.ptradd hop]
      exact M.trim_ptr _
  · cases hstep
    exact typed_write h hok.result (trim_tempType ..) rfl
  · cases hstep
    exact h
  · split at hstep
    · obtain ⟨v, -, rfl⟩ := Option.map_eq_some_iff.1 hstep
      exact typed_write h hok.result (trim_tempType ..) rfl
    · cases hstep
      exact typed_write h hok.result (trim_tempType ..) rfl

/-- A copy of a value of its type leaves the value in its register, where the operand
    does not name the register. -/
theorem copy_writes {inst : IrInst} (hok : InstBuilt temps inst) (h : Typed M temps m)
    (hop : inst.op = .copy) (hk : inst.a.kind ≠ .none) (hres : inst.result ≠ irNoResult)
    (hother : isTemp inst.a inst.result = false) (hstep : stepInst M inst m = some m') :
    valueOf M m' inst.a = m'.regs inst.result := by
  have htype := (hok.copy hop).2.resolve_left hk
  have hv : M.trim inst.type (valueOf M m inst.a) = valueOf M m inst.a := by
    unfold valueOf
    split
    · next hkind =>
        refine h _ _ ?_
        rw [← htype]
        exact hok.operand _ List.mem_cons_self hkind
    · next hkind => exact absurd hkind hk
    · rw [← htype]
      exact M.trim_trim _ _
  have hkeep : valueOf M m' inst.a = valueOf M m inst.a := by
    refine valueOf_of_not_names hstep (.inl ?_)
    exact hother
  rw [stepInst, hop] at hstep
  cases hstep
  rw [hkeep, write_regs, if_pos ⟨hres, rfl⟩, hv]

/-! ## What holds of the code between the parts of the pass -/

/-- The code with the operands of the instruction at `p` replaced by `g p`. -/
structure Mapped (code code' : List (List IrInst)) (g : Nat × Nat → IrOperand → IrOperand) :
    Prop where
  length : code'.length = code.length
  inst : ∀ p, instAt code' p = (instAt code p).map (IrInst.mapOperands (g p))

/-- Two codes whose runs cannot be told apart. -/
def Exact (M : Meaning) (s₀ : At) (code code' : List (List IrInst)) : Prop :=
  ∀ pts s, Reaches M code s₀ pts s →
    stepAt M code' s = stepAt M code s ∧ shownAt M code' s = shownAt M code s

theorem Exact.reaches {s₀ s : At} {code code' : List (List IrInst)}
    (h : Exact M s₀ code code') {pts : List (Nat × Nat)} :
    Reaches M code' s₀ pts s ↔ Reaches M code s₀ pts s := by
  constructor
  · intro hreach
    induction hreach with
    | start => exact .start
    | step _ hstep ih => exact ih.step ((h _ _ ih).1 ▸ hstep)
  · intro hreach
    induction hreach with
    | start => exact .start
    | step hreach hstep ih => exact ih.step ((h _ _ hreach).1.trans hstep)

theorem Exact.trans {s₀ : At} {code code' code'' : List (List IrInst)}
    (h : Exact M s₀ code code') (h' : Exact M s₀ code' code'') : Exact M s₀ code code'' := by
  intro pts s hreach
  have h₁ := h pts s hreach
  have h₂ := h' pts s (h.reaches.2 hreach)
  exact ⟨h₂.1.trans h₁.1, h₂.2.trans h₁.2⟩

/-- The operation and the result of an instruction, which the pass leaves alone. -/
def IrInst.shape (inst : IrInst) : IrOp × Nat := (inst.op, inst.result)

/-- What holds of the code while the pass runs on `f` with the registers `m` at the start. -/
structure Passed (M : Meaning) (f : IrFunction) (m : MemMachine) (code : List (List IrInst)) :
    Prop where
  length : code.length = f.code.length
  shape : ∀ p, (instAt code p).map IrInst.shape = (instAt f.code p).map IrInst.shape
  built : ∀ p inst, instAt code p = some inst → InstBuilt f.temps inst
  typed : ∀ pts s, Reaches M code (startAt m) pts s → Typed M f.temps s.m
  assigned : ∀ pts s inst, Reaches M code (startAt m) pts s →
    instAt code (s.block, s.pos) = some inst → ∀ o ∈ inst.operands, o.kind = .temp →
      Assigned f code pts o.val
  exact : Exact M (startAt m) f.code code

section Passed

variable {f : IrFunction} {code code' : List (List IrInst)}

theorem Mapped.shape {g : Nat × Nat → IrOperand → IrOperand} (h : Mapped code code' g)
    (p : Nat × Nat) : (instAt code' p).map IrInst.shape = (instAt code p).map IrInst.shape := by
  rw [h.inst, Option.map_map]
  rfl

theorem assigned_of_shape
    (h : ∀ p, (instAt code' p).map IrInst.shape = (instAt code p).map IrInst.shape)
    {pts : List (Nat × Nat)} {x : Nat} (hx : Assigned f code pts x) :
    Assigned f code' pts x := by
  refine hx.imp_right fun ⟨p, hp, inst, hinst, hres⟩ => ?_
  have hshape := h p
  rw [hinst] at hshape
  obtain ⟨inst', hinst', he⟩ := Option.map_eq_some_iff.1 hshape
  exact ⟨p, hp, inst', hinst', (congrArg Prod.snd he).trans hres⟩

/-- **One replacement.**  Where it fits, and in every reached state each operand that
    it replaces has the value of what replaces it, the run stays the same. -/
theorem Passed.map {g : Nat × Nat → IrOperand → IrOperand} (h : Passed M f m code)
    (hmapped : Mapped code code' g) (hfits : ∀ p, Fits f.temps (g p))
    (hvalue : ∀ pts s inst, Reaches M code (startAt m) pts s →
      instAt code (s.block, s.pos) = some inst → ∀ o ∈ inst.operands, o.kind = .temp →
        valueOf M s.m (g (s.block, s.pos) o) = valueOf M s.m o ∧
          ((g (s.block, s.pos) o).kind = .temp → Assigned f code pts (g (s.block, s.pos) o).val)) :
    Passed M f m code' := by
  have hexact : Exact M (startAt m) code code' := by
    intro pts s hreach
    have hmap := hmapped.inst (s.block, s.pos)
    cases hinst : instAt code (s.block, s.pos) with
    | none =>
      rw [hinst] at hmap
      refine ⟨stepAt_of_none hmapped.length hinst hmap, ?_⟩
      show (instAt code' (s.block, s.pos)).map _ = (instAt code (s.block, s.pos)).map _
      rw [hinst, hmap]
      rfl
    | some inst =>
      rw [hinst] at hmap
      have hok := h.built _ _ hinst
      have hv : ∀ o ∈ inst.operands, o.kind = .temp →
          valueOf M s.m (g (s.block, s.pos) o) = valueOf M s.m o :=
        fun o ho hk => (hvalue pts s inst hreach hinst o ho hk).1
      constructor
      · rw [stepAt_of_instAt hinst, stepAt_of_instAt hmap, stepInst_map (hfits _) hok hv,
          leave_map (hfits _) hok hv]
        rfl
      · show (instAt code' (s.block, s.pos)).map _ = (instAt code (s.block, s.pos)).map _
        rw [hinst, hmap]
        exact congrArg some (shownEvent_map (hfits _) hok hv)
  refine ⟨hmapped.length.trans h.length, fun p => (hmapped.shape p).trans (h.shape p),
    fun p inst hinst => ?_,
    fun pts s hreach => h.typed pts s (hexact.reaches.1 hreach),
    fun pts s inst hreach hinst o ho hk => ?_, h.exact.trans hexact⟩
  · rw [hmapped.inst] at hinst
    obtain ⟨inst₀, hinst₀, rfl⟩ := Option.map_eq_some_iff.1 hinst
    exact (h.built p inst₀ hinst₀).map (hfits p)
  · have hreach := hexact.reaches.1 hreach
    rw [hmapped.inst] at hinst
    obtain ⟨inst₀, hinst₀, rfl⟩ := Option.map_eq_some_iff.1 hinst
    rw [mapOperands_operands] at ho
    obtain ⟨o₀, ho₀, rfl⟩ := List.mem_map.1 ho
    refine assigned_of_shape hmapped.shape ?_
    by_cases hk₀ : o₀.kind = .temp
    · exact (hvalue pts s inst₀ hreach hinst₀ o₀ ho₀ hk₀).2 hk
    · rw [(hfits _).fixed o₀ hk₀] at hk
      exact absurd hk hk₀

end Passed

end AnticIr
