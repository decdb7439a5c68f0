import Antic.CopyReplaceProofs

/-! # Copy propagation is exact

    Both parts of the pass replace operands and nothing else (`Mapped`).

    * Inside a block, what is known of a temporary has its value (`KnownHolds`).
    * Across blocks, a temporary with one definition `x = copy v` that was assigned has the value of
      `v`, except in the block of the copy before it (`CopyHolds`).  There `x` is not used: at the
      first visit `x` was not yet assigned. -/

namespace AnticIr

open List Option

variable {M : Meaning} {m m' : MemMachine} {temps : List IrType}

/-! ## Inside a block -/

/-- What is known of each temporary fits its type. -/
def KnownFits (temps : List IrType) (known : Known) : Prop :=
  ∀ t, (known t).kind ≠ .none → (known t).kind ≠ .block ∧ OperandOk temps (known t) ∧
    temps[t]? = some (known t).type

/-- What is known of each temporary has its value. -/
def KnownHolds (M : Meaning) (m : MemMachine) (known : Known) : Prop :=
  ∀ t, (known t).kind ≠ .none → valueOf M m (known t) = m.regs t

section Known

variable {known : Known}

theorem look_temp (known : Known) {o : IrOperand} (hk : o.kind = .temp) :
    ((known o.val).kind ≠ .none ∧ known.look o = known o.val) ∨
      ((known o.val).kind = .none ∧ known.look o = o) := by
  by_cases hn : (known o.val).kind = .none
  · exact .inr ⟨hn, if_neg fun h => h.2 hn⟩
  · exact .inl ⟨hn, if_pos ⟨hk, hn⟩⟩

theorem look_holds (h : KnownHolds M m known) {o : IrOperand} (hk : o.kind = .temp) :
    valueOf M m (known.look o) = valueOf M m o := by
  rcases look_temp known hk with ⟨hn, he⟩ | ⟨-, he⟩
  · rw [he, h _ hn, valueOf_temp hk]
  · rw [he]

theorem look_fits (h : KnownFits temps known) : Fits temps known.look where
  operand o ho := by
    by_cases hk : o.kind = .temp
    · rcases look_temp known hk with ⟨hn, he⟩ | ⟨-, he⟩
      · rw [he]
        exact (h _ hn).2.1
      · rwa [he]
    · rwa [Known.look, if_neg fun hc => hk hc.1]
  type o ho := by
    by_cases hk : o.kind = .temp
    · rcases look_temp known hk with ⟨hn, he⟩ | ⟨-, he⟩
      · rw [he]
        exact some.inj ((h _ hn).2.2.symm.trans (ho hk))
      · rw [he]
    · rw [Known.look, if_neg fun hc => hk hc.1]
  fixed o hk := if_neg fun hc => hk hc.1
  kind o hk := by
    rcases look_temp known hk with ⟨hn, he⟩ | ⟨-, he⟩
    · rw [he]
      exact ⟨hn, (h _ hn).1⟩
    · rw [he, hk]
      exact ⟨IrOperandKind.noConfusion, IrOperandKind.noConfusion⟩

/-- What is known after an instruction was known before it and does not name its
    result, or is the operand of a copy. -/
theorem turn_cases (known : Known) (inst : IrInst) (t : Nat)
    (ht : (known.turn inst t).kind ≠ .none) :
    (known.turn inst t = known t ∧ (inst.result = irNoResult ∨
        (t ≠ inst.result ∧ isTemp (known t) inst.result = false))) ∨
      (known.turn inst t = inst.a ∧ t = inst.result ∧ inst.op = .copy ∧
        inst.result ≠ irNoResult ∧ isTemp inst.a inst.result = false) := by
  have hkill (hne : (known.kill inst.result t).kind ≠ .none) : known.kill inst.result t = known t ∧
        (t ≠ inst.result ∧ isTemp (known t) inst.result = false) := by
    unfold Known.kill at hne ⊢
    split at hne
    · exact absurd rfl hne
    · next hc =>
        rw [not_or, Bool.not_eq_true] at hc
        exact ⟨if_neg (by rw [not_or, Bool.not_eq_true]; exact hc), hc⟩
  unfold Known.turn at ht ⊢
  by_cases hr : inst.result = irNoResult
  · rw [if_pos hr] at ht ⊢
    exact .inl ⟨rfl, .inl hr⟩
  · rw [if_neg hr] at ht ⊢
    by_cases hc : inst.op = .copy ∧ isTemp inst.a inst.result = false
    · rw [if_pos hc] at ht ⊢
      by_cases he : t = inst.result
      · subst he
        exact .inr ⟨Function.update_self .., rfl, hc.1, hr, hc.2⟩
      · rw [Function.update_of_ne he] at ht ⊢
        exact .inl ((hkill ht).imp_right .inr)
    · rw [if_neg hc] at ht ⊢
      exact .inl ((hkill ht).imp_right .inr)

theorem turn_fits (h : KnownFits temps known) {inst : IrInst} (hok : InstBuilt temps inst) :
    KnownFits temps (known.turn inst) := by
  intro t ht
  rcases turn_cases known inst t ht with ⟨he, -⟩ | ⟨he, rfl, hop, hr, -⟩
  · rw [he] at ht ⊢
    exact h t ht
  · rw [he] at ht ⊢
    obtain ⟨hblock, htype⟩ := hok.copy hop
    refine ⟨hblock, hok.operand _ mem_cons_self, ?_⟩
    rw [hok.result hr, IrInst.tempType_of_ne (by rw [hop]; exact IrOp.noConfusion),
      htype.resolve_left ht]

/-- One instruction.  A definition of `t`, or of what `t` is a copy of, ends what is
    known of `t`. -/
theorem turn_holds (h : KnownHolds M m known) {inst : IrInst} (hok : InstBuilt temps inst)
    (htyped : Typed M temps m) (hstep : stepInst M inst m = some m') :
    KnownHolds M m' (known.turn inst) := by
  intro t ht
  rcases turn_cases known inst t ht with ⟨he, hkeep⟩ | ⟨he, rfl, hop, hr, hother⟩
  · rw [he] at ht ⊢
    rw [valueOf_of_not_names hstep (hkeep.symm.imp_left And.right), h t ht]
    exact (stepInst_regs hstep (hkeep.symm.imp_left And.left)).symm
  · rw [he] at ht ⊢
    exact copy_writes hok htyped hop ht hr hother hstep

end Known

/-- What is known after a list of instructions of a block. -/
def knownAfter (insts : List IrInst) : Known :=
  insts.foldl (fun known inst => known.turn (inst.mapOperands known.look)) fun _ => .absent

theorem knownAfter_snoc (insts : List IrInst) (inst : IrInst) : knownAfter (insts ++ [inst]) =
      (knownAfter insts).turn (inst.mapOperands (knownAfter insts).look) := by
  rw [knownAfter, foldl_append]
  rfl

theorem propagateInBlock_getElem? (insts : List IrInst) (i : Nat) : (propagateInBlock insts)[i]? =
      (insts[i]?).map (IrInst.mapOperands (knownAfter (insts.take i)).look) := by
  have hfrom (known : Known) (insts : List IrInst) (i : Nat) :
      (propagateFrom known insts)[i]? = (insts[i]?).map (IrInst.mapOperands
        ((insts.take i).foldl (fun known inst => known.turn (inst.mapOperands known.look))
          known).look) := by
    induction insts generalizing known i with
    | nil => rfl
    | cons inst rest ih =>
      cases i with
      | zero => rfl
      | succ i => exact ih _ i
  exact hfrom _ insts i

/-- What is known before the instruction at a place. -/
def knownAt (code : List (List IrInst)) (p : Nat × Nat) : Known :=
  knownAfter ((code.getD p.1 []).take p.2)

theorem mapped_in_block (code : List (List IrInst)) :
    Mapped code (code.map propagateInBlock) fun p => (knownAt code p).look where
  length := length_map _
  inst := fun ⟨b, i⟩ => by
    unfold instAt knownAt
    rw [getElem?_map, getD_eq_getElem?_getD]
    cases code[b]? with
    | none => rfl
    | some insts => exact propagateInBlock_getElem? insts i

section InBlock

variable {f : IrFunction} {code : List (List IrInst)}

theorem knownAt_step {b i : Nat} {inst : IrInst} (h : instAt code (b, i) = some inst) :
    knownAt code (b, i + 1) =
      (knownAt code (b, i)).turn (inst.mapOperands (knownAt code (b, i)).look) := by
  obtain ⟨insts, hget, hpos⟩ := bind_eq_some_iff.1 h
  unfold knownAt
  rw [getD_eq_getElem?_getD, hget, getD_some, take_add_one, hpos]
  exact knownAfter_snoc _ _

theorem knownAt_fits (hbuilt : ∀ p inst, instAt code p = some inst → InstBuilt temps inst)
    (b i : Nat) : KnownFits temps (knownAt code (b, i)) := by
  induction i with
  | zero =>
    intro t ht
    exact absurd rfl ht
  | succ i ih =>
    cases hinst : instAt code (b, i) with
    | none =>
      have hsame : knownAt code (b, i + 1) = knownAt code (b, i) := by
        unfold knownAt
        unfold instAt at hinst
        rw [getD_eq_getElem?_getD]
        cases hget : code[b]? with
        | none => rw [getD_none, take_nil, take_nil]
        | some insts =>
          rw [hget] at hinst
          dsimp only [bind_some] at hinst
          rw [getD_some, take_add_one, hinst]
          exact congrArg knownAfter (append_nil _)
      rw [hsame]
      exact ih
    | some inst =>
      rw [knownAt_step hinst]
      exact turn_fits ih ((hbuilt _ _ hinst).map (look_fits ih))

/-- What is known where a run stands: it has the value, and where it is a temporary,
    that was assigned. -/
structure KnownReached (M : Meaning) (f : IrFunction) (code : List (List IrInst))
    (pts : List (Nat × Nat)) (s : At) : Prop where
  holds : KnownHolds M s.m (knownAt code (s.block, s.pos))
  assigned : ∀ t, (knownAt code (s.block, s.pos) t).kind = .temp →
    Assigned f code pts (knownAt code (s.block, s.pos) t).val

theorem KnownReached.look (h : Passed M f m code) {pts : List (Nat × Nat)} {s : At}
    (hreach : Reaches M code (startAt m) pts s) (hknown : KnownReached M f code pts s)
    {inst : IrInst} (hinst : instAt code (s.block, s.pos) = some inst) {o : IrOperand}
    (ho : o ∈ inst.operands) (hk : o.kind = .temp)
    (htemp : ((knownAt code (s.block, s.pos)).look o).kind = .temp) :
    Assigned f code pts ((knownAt code (s.block, s.pos)).look o).val := by
  rcases look_temp (knownAt code (s.block, s.pos)) hk with ⟨-, he⟩ | ⟨-, he⟩
  · rw [he] at htemp ⊢
    exact hknown.assigned _ htemp
  · rw [he]
    exact h.assigned pts s inst hreach hinst o ho hk

/-- By induction on the run.  A block starts with nothing known. -/
theorem known_of_reaches (h : Passed M f m code) {pts : List (Nat × Nat)} {s : At}
    (hreach : Reaches M code (startAt m) pts s) : KnownReached M f code pts s := by
  induction hreach with
  | start => exact ⟨fun t ht => absurd rfl ht, fun t ht => nomatch ht⟩
  | @step pts s s' hreach hstep ih =>
    obtain ⟨inst, hinst, ⟨-, -, hpos, -⟩ | ⟨-, hm, hblock, hpos⟩⟩ := stepAt_at hstep
    · refine ⟨fun t ht => ?_, fun t ht => ?_⟩
      · rw [hpos] at ht
        exact absurd rfl ht
      · rw [hpos] at ht
        exact nomatch ht
    · have hfits := look_fits (knownAt_fits h.built s.block s.pos)
      have hok := h.built _ _ hinst
      rw [← stepInst_map hfits hok fun o _ hk => look_holds ih.holds hk] at hm
      have hknown := knownAt_step hinst
      constructor
      · rw [hblock, hpos, hknown]
        exact turn_holds ih.holds (hok.map hfits) (h.typed _ _ hreach) hm
      · intro t ht
        rw [hblock, hpos, hknown] at ht ⊢
        have hne : ((knownAt code (s.block, s.pos)).turn
            (inst.mapOperands (knownAt code (s.block, s.pos)).look) t).kind ≠ .none := by
          rw [ht]
          exact IrOperandKind.noConfusion
        rcases turn_cases _ _ t hne with ⟨he, -⟩ | ⟨he, -⟩
        · rw [he] at ht ⊢
          exact (ih.assigned t ht).mono (subset_cons_self _ _)
        · rw [he] at ht ⊢
          have hk : inst.a.kind = .temp := by
            by_contra hk
            exact hk (hfits.fixed _ hk ▸ ht)
          exact (ih.look h hreach hinst mem_cons_self hk ht).mono (subset_cons_self _ _)

/-- **The propagation inside the blocks is exact.** -/
theorem passed_in_block (h : Passed M f m code) : Passed M f m (code.map propagateInBlock) :=
  h.map (mapped_in_block code) (fun p => look_fits (knownAt_fits h.built p.1 p.2))
    fun _ _ _ hreach hinst _ ho hk =>
      have hknown := known_of_reaches h hreach
      ⟨look_holds hknown.holds hk, hknown.look h hreach hinst ho hk⟩

end InBlock

/-! ## Across blocks -/

/-- A temporary with one definition, the copy at `p`, and a value that only changes
    earlier in the block of the copy. -/
structure Replaces (f : IrFunction) (code : List (List IrInst)) (p : Nat × Nat)
    (inst : IrInst) : Prop where
  at_ : instAt code p = some inst
  copy : inst.op = .copy
  result : inst.result ≠ irNoResult
  param : ∀ q ∈ f.params, q.temp ≠ inst.result
  only : ∀ q i, instAt code q = some i → i.result = inst.result → q = p
  other : isTemp inst.a inst.result = false
  kind : isConstant inst.a = true ∨ inst.a.kind = .temp
  value : ∀ q i, instAt code q = some i → i.result ≠ irNoResult →
    isTemp inst.a i.result = true → q.1 = p.1 ∧ q.2 < p.2

section Replaces

variable {f : IrFunction} {code : List (List IrInst)} {p : Nat × Nat} {inst : IrInst}

theorem Replaces.kinds (hr : Replaces f code p inst) :
    inst.a.kind ≠ .none ∧ inst.a.kind ≠ .block := by
  rcases hr.kind with hk | hk
  · rcases of_decide_eq_true hk with hk | hk <;> rw [hk] <;>
      exact ⟨IrOperandKind.noConfusion, IrOperandKind.noConfusion⟩
  · rw [hk]
    exact ⟨IrOperandKind.noConfusion, IrOperandKind.noConfusion⟩

variable {pts : List (Nat × Nat)}

theorem Replaces.executed (hr : Replaces f code p inst)
    (h : Assigned f code pts inst.result) : p ∈ pts := by
  rcases h with ⟨q, hq, he⟩ | ⟨q, hq, i, hi, he⟩
  · exact absurd he (hr.param q hq)
  · exact hr.only q i hi he ▸ hq

/-- The run stands in the block of the copy, not after it. -/
def BeforeCopy (p : Nat × Nat) (s : At) : Prop := s.block = p.1 ∧ s.pos ≤ p.2

/-- An assigned copy has its value, except before it in its block. -/
def CopyHolds (M : Meaning) (p : Nat × Nat) (inst : IrInst) (pts : List (Nat × Nat))
    (s : At) : Prop :=
  p ∈ pts → BeforeCopy p s ∨ valueOf M s.m inst.a = s.m.regs inst.result

/-- One step.  The copy gives its temporary the value.  Another instruction does not define the
    temporary; where it defines the value, it stands before the copy, and so does the next one. -/
theorem copyHolds_step (h : Passed M f m code)
    (hinner : ∀ b i j first, instAt code (b, i) = some first → i < j →
      (instAt code (b, j)).isSome → isTerminator first.op = false)
    (hr : Replaces f code p inst) {s s' : At} (hreach : Reaches M code (startAt m) pts s)
    (hholds : CopyHolds M p inst pts s) (hstep : stepAt M code s = .at_ s') :
    CopyHolds M p inst ((s.block, s.pos) :: pts) s' := by
  intro hmem
  obtain ⟨first, hfirst, hcase⟩ := stepAt_at hstep
  have hbefore (hp : (s.block, s.pos) ≠ p) (hb : BeforeCopy p s) : BeforeCopy p s' := by
    have hlt : s.pos < p.2 := Nat.lt_of_le_of_ne hb.2 fun he => hp (Prod.ext hb.1 he)
    have hsome : (instAt code (s.block, p.2)).isSome := by
      rw [show (s.block, p.2) = p from Prod.ext hb.1 rfl, hr.at_]
      rfl
    have hnot := hinner s.block s.pos p.2 first hfirst hlt hsome
    rcases hcase with ⟨ht, -⟩ | ⟨-, -, hblock, hpos⟩
    · rw [hnot] at ht
      cases ht
    · exact ⟨hblock.trans hb.1, hpos ▸ hlt⟩
  by_cases hp : (s.block, s.pos) = p
  · -- the copy itself
    rw [hp, hr.at_] at hfirst
    cases hfirst
    right
    rcases hcase with ⟨ht, -⟩ | ⟨-, hm, -, -⟩
    · simp [hr.copy, isTerminator] at ht
    · exact copy_writes (h.built p inst hr.at_) (h.typed _ _ hreach) hr.copy hr.kinds.1
        hr.result hr.other hm
  · have hmem' : p ∈ pts := (mem_cons.1 hmem).resolve_left fun he => hp he.symm
    rcases hholds hmem' with hb | heq
    · exact .inl (hbefore hp hb)
    · have hother : first.result ≠ inst.result := fun he => hp (hr.only _ first hfirst he)
      by_cases hnames : first.result ≠ irNoResult ∧ isTemp inst.a first.result = true
      · obtain ⟨hblock, hlt⟩ := hr.value _ first hfirst hnames.1 hnames.2
        exact .inl (hbefore hp ⟨hblock, Nat.le_of_lt hlt⟩)
      · right
        rw [not_and_or, not_not, Bool.not_eq_true] at hnames
        rcases hcase with ⟨-, -, -, hm⟩ | ⟨-, hm, -, -⟩
        · rw [hm]
          exact heq
        · rw [valueOf_of_not_names hm hnames.symm, stepInst_regs hm (.inl hother.symm)]
          exact heq

/-- Before the copy in its block, its temporary is not used.  At the first visit of
    the block the copy had not been executed. -/
theorem Replaces.not_before (h : Passed M f m code) (hr : Replaces f code p inst) {s : At}
    {use : IrInst} (hreach : Reaches M code (startAt m) pts s)
    (huse : instAt code (s.block, s.pos) = some use) {o : IrOperand} (ho : o ∈ use.operands)
    (hk : isTemp o inst.result = true) : ¬BeforeCopy p s := by
  rintro ⟨hblock, hpos⟩
  obtain ⟨hkind, hval⟩ := of_decide_eq_true hk
  have hassigned (pts : List (Nat × Nat)) (s₁ : At) (hreach : Reaches M code (startAt m) pts s₁)
      (hb : s₁.block = s.block) (hp : s₁.pos = s.pos) : p ∈ pts :=
    hr.executed (hval ▸ h.assigned pts s₁ use hreach (by rw [hb, hp]; exact huse) o ho hkind)
  obtain ⟨pts₁, s₁, hreach₁, hat, hnot, -⟩ := hreach.first (hassigned pts s hreach rfl rfl)
  obtain ⟨pts₂, s₂, hreach₂, hb, hp, hsub⟩ :=
    hreach₁.back rfl (hpos.trans_eq (congrArg Prod.snd hat).symm)
  exact hnot (hsub (hassigned pts₂ s₂ hreach₂
    (hb.trans ((congrArg Prod.fst hat).trans hblock.symm)) hp))

theorem replaceUse_fits (hbuilt : InstBuilt temps inst) (hop : inst.op = .copy)
    (hres : inst.result ≠ irNoResult)
    (hkinds : inst.a.kind ≠ .none ∧ inst.a.kind ≠ .block) :
    Fits temps (replaceUse inst.result inst.a) := by
  have htype : temps[inst.result]? = some inst.a.type := by
    rw [hbuilt.result hres, IrInst.tempType_of_ne (by rw [hop]; exact IrOp.noConfusion),
      (hbuilt.copy hop).2.resolve_left hkinds.1]
  have hcase (o : IrOperand) :
      (isTemp o inst.result = true ∧ replaceUse inst.result inst.a o = inst.a) ∨
        (replaceUse inst.result inst.a o = o) := by
    unfold replaceUse
    split
    · next hk => exact .inl ⟨hk, rfl⟩
    · exact .inr rfl
  constructor
  · intro o ho
    rcases hcase o with ⟨-, he⟩ | he <;> rw [he]
    · exact hbuilt.operand _ mem_cons_self
    · exact ho
  · intro o ho
    rcases hcase o with ⟨hk, he⟩ | he <;> rw [he]
    have hk := of_decide_eq_true hk
    have ho := ho hk.1
    rw [hk.2, htype] at ho
    exact some.inj ho
  · intro o hk
    rcases hcase o with ⟨ht, -⟩ | he
    · exact absurd (of_decide_eq_true ht).1 hk
    · exact he
  · intro o hk
    rcases hcase o with ⟨-, he⟩ | he <;> rw [he]
    · exact hkinds
    · rw [hk]
      exact ⟨IrOperandKind.noConfusion, IrOperandKind.noConfusion⟩

theorem mapped_replaceUses (code : List (List IrInst)) (x : Nat) (v : IrOperand) :
    Mapped code (replaceUses code x v) fun _ => replaceUse x v where
  length := length_map _
  inst := fun ⟨b, i⟩ => by
    unfold instAt replaceUses
    rw [getElem?_map]
    cases code[b]? with
    | none => rfl
    | some insts => exact getElem?_map

/-- **One replacement across blocks is exact.** -/
theorem passed_replaceUses (h : Passed M f m code)
    (hinner : ∀ b i j first, instAt code (b, i) = some first → i < j →
      (instAt code (b, j)).isSome → isTerminator first.op = false)
    (hr : Replaces f code p inst) : Passed M f m (replaceUses code inst.result inst.a) := by
  have hbuilt := h.built p inst hr.at_
  have hholds (pts : List (Nat × Nat)) (s : At) (hreach : Reaches M code (startAt m) pts s) :
      CopyHolds M p inst pts s := by
    induction hreach with
    | start => exact fun hp => nomatch hp
    | step hreach hstep ih => exact copyHolds_step h hinner hr hreach ih hstep
  refine h.map (mapped_replaceUses code _ _)
    (fun _ => replaceUse_fits hbuilt hr.copy hr.result hr.kinds)
    fun pts s use hreach huse o ho hk => ?_
  have huses := h.assigned pts s use hreach huse o ho hk
  unfold replaceUse
  split
  · next hx =>
      have hp := hr.executed ((of_decide_eq_true hx).2 ▸ huses)
      constructor
      · rw [valueOf_temp hk, (of_decide_eq_true hx).2]
        exact (hholds pts s hreach hp).resolve_left (hr.not_before h hreach huse ho hx)
      · intro hka
        obtain ⟨pts₁, s₁, hreach₁, hat, -, hsub⟩ := hreach.first hp
        exact (h.assigned pts₁ s₁ inst hreach₁ (hat ▸ hr.at_) _ mem_cons_self hka).mono hsub
  · exact ⟨rfl, fun _ => huses⟩

end Replaces

/-! ## The counts -/

section Counts

variable {code : List (List IrInst)}

theorem mem_places {p : Nat × Nat} {inst : IrInst} (h : instAt code p = some inst) :
    p ∈ places code := by
  obtain ⟨insts, hget, hpos⟩ := bind_eq_some_iff.1 h
  refine mem_flatMap.2 ⟨p.1, ?_, List.mem_map.2 ⟨p.2, ?_, rfl⟩⟩
  · exact mem_range.2 (List.getElem?_eq_some_iff.1 hget).1
  · rw [getD_eq_getElem?_getD, hget]
    exact mem_range.2 (List.getElem?_eq_some_iff.1 hpos).1

/-- The instructions of a code, in order, are those at its places. -/
theorem flatten_eq_places (code : List (List IrInst)) :
    code.flatten = (places code).filterMap (instAt code) := by
  have hblock (b : Nat) (hb : b ∈ List.range code.length) :
      ((List.range (code.getD b []).length).map fun i => (b, i)).filterMap (instAt code) =
        code.getD b [] := by
    have hget := getElem?_eq_getElem (mem_range.1 hb)
    have hinst : (fun i => instAt code (b, i)) = fun i => (code.getD b [])[i]? := by
      funext i
      unfold instAt
      rw [getD_eq_getElem?_getD, hget]
      rfl
    rw [filterMap_map]
    show List.filterMap (fun i => instAt code (b, i)) _ = _
    rw [hinst]
    generalize code.getD b [] = insts
    induction insts using List.reverseRecOn with
    | nil => rfl
    | append_singleton insts inst ih =>
      rw [length_append, length_singleton, range_succ, filterMap_append]
      have hlast : (insts ++ [inst])[insts.length]? = some inst := getElem?_concat_length
      have hinit : (List.range insts.length).filterMap (fun i => (insts ++ [inst])[i]?) =
          (List.range insts.length).filterMap fun i => insts[i]? :=
        filterMap_congr fun i hi => getElem?_append_left (mem_range.1 hi)
      rw [hinit, ih, filterMap_cons, hlast]
      rfl
  have hcode : (List.range code.length).map (code.getD · []) = code := by
    refine ext_getElem (by rw [length_map, length_range]) fun i h₁ h₂ => ?_
    rw [getElem_map, getElem_range, getD_eq_getElem _ _ h₂]
  rw [places, filterMap_flatMap, flatMap_congr hblock, flatMap_def, hcode]

theorem definesAt_iff {t : Nat} {p : Nat × Nat} : definesAt code t p = true ↔
      ∃ inst, instAt code p = some inst ∧ inst.result ≠ irNoResult ∧ inst.result = t := by
  unfold definesAt
  cases instAt code p <;> simp

/-- A place that defines a temporary with one definition is the only one. -/
theorem place_unique {t : Nat}
    (h : code.flatten.countP (fun i => i.result ≠ irNoResult ∧ i.result = t) ≤ 1)
    {p q : Nat × Nat} (hp : definesAt code t p = true) (hq : definesAt code t q = true) :
    p = q := by
  have hcount : code.flatten.countP (fun i => i.result ≠ irNoResult ∧ i.result = t) =
      (places code).countP (definesAt code t) := by
    rw [flatten_eq_places, countP_filterMap]
    refine countP_congr fun p _ => ?_
    unfold definesAt
    cases instAt code p <;> rfl
  rw [hcount, countP_eq_length_filter] at h
  have hmem {p : Nat × Nat} (hp : definesAt code t p = true) :
      p ∈ (places code).filter (definesAt code t) := by
    obtain ⟨inst, hinst, -⟩ := definesAt_iff.1 hp
    exact mem_filter.2 ⟨mem_places hinst, hp⟩
  have hp := hmem hp
  have hq := hmem hq
  generalize (places code).filter (definesAt code t) = found at h hp hq
  match found, h with
  | [], _ => cases hp
  | [only], _ => exact (mem_singleton.1 hp).trans (mem_singleton.1 hq).symm

theorem countPlace_defines {t : Nat} {p : Nat × Nat} (hp : definesAt code t p = true) :
    definesAt code t (countPlace code t) = true := by
  have hfold (l : List (Nat × Nat)) (last : Nat × Nat)
      (h : definesAt code t last = true ∨ ∃ q ∈ l, definesAt code t q = true) :
      definesAt code t
        (l.foldl (fun last p => if definesAt code t p then p else last) last) = true := by
    induction l generalizing last with
    | nil => exact h.resolve_right fun ⟨q, hq, _⟩ => nomatch hq
    | cons first rest ih =>
      refine ih _ ?_
      dsimp only
      by_cases hf : definesAt code t first = true
      · rw [if_pos hf]
        exact .inl hf
      · rw [if_neg hf]
        refine h.imp_right fun ⟨q, hq, hd⟩ => ?_
        rcases mem_cons.1 hq with rfl | hq
        · exact absurd hd hf
        · exact ⟨q, hq, hd⟩
  obtain ⟨inst, hinst, -⟩ := definesAt_iff.1 hp
  exact hfold _ _ (.inr ⟨p, mem_places hinst, hp⟩)

end Counts

section Defs

variable {f : IrFunction} {t : Nat}

theorem defs_unique (hdefs : (count f).defs t = 1) {p q : Nat × Nat}
    (hp : definesAt f.code t p = true) (hq : definesAt f.code t q = true) : p = q := by
  refine place_unique ?_ hp hq
  exact Nat.le_trans (Nat.le_add_left _ _) (Nat.le_of_eq hdefs)

/-- A temporary that an instruction defines is no parameter, and the other way round,
    where there is one definition. -/
theorem defs_param (hdefs : (count f).defs t = 1) {p : Nat × Nat}
    (hp : definesAt f.code t p = true) : ∀ q ∈ f.params, q.temp ≠ t := by
  obtain ⟨inst, hinst, hres⟩ := definesAt_iff.1 hp
  have hpos : 0 < f.insts.countP fun i => i.result ≠ irNoResult ∧ i.result = t := by
    rw [insts_eq_flatten]
    exact countP_pos_iff.2 ⟨inst, instAt_mem hinst, decide_eq_true hres⟩
  have hsum : f.params.countP (fun q => q.temp = t) +
      f.insts.countP (fun i => i.result ≠ irNoResult ∧ i.result = t) = 1 := hdefs
  have hzero : f.params.countP (fun q => q.temp = t) = 0 := by omega
  intro q hq he
  exact countP_eq_zero.1 hzero q hq (decide_eq_true he)

theorem definesAt_shape {code code' : List (List IrInst)}
    (h : ∀ p, (instAt code' p).map IrInst.shape = (instAt code p).map IrInst.shape)
    (p : Nat × Nat) : definesAt code' t p = definesAt code t p := by
  have hresult (code : List (List IrInst)) : definesAt code t p =
      match (instAt code p).map IrInst.shape with
      | none => false
      | some shape => shape.2 ≠ irNoResult ∧ shape.2 = t := by
    unfold definesAt
    cases instAt code p <;> rfl
  rw [hresult, hresult, h p]

end Defs

/-! ## The pass -/

/-- What `ir.c` promises of a function it builds: `ir_temp` numbers the temporaries below
    `IR_NO_RESULT`, `ir_param_add` gives a function with a body its first temporaries, `ir_ptradd`
    is of type `ptr`, and a block is only the target of a terminator. -/
structure CopiesBuilt (f : IrFunction) : Prop extends Built f where
  temps : f.temps.length ≤ uint32Max
  params : f.params.map IrParam.temp = List.range f.params.length
  ptradd : ∀ i ∈ f.code.flatten, i.op = .ptradd → i.type = .ptr
  copy : ∀ i ∈ f.code.flatten, i.op = .copy → i.a.kind ≠ .block

section Pass

variable {mod : IrModule} {f : IrFunction} {code : List (List IrInst)}

theorem instBuilt_of_verified (hverify : verifyFunction mod f = true)
    (hbody : f.isExtern = false) (hmade : CopiesBuilt f) {inst : IrInst}
    (hinst : inst ∈ f.code.flatten) : InstBuilt f.temps inst := by
  obtain ⟨hindices, hcheck⟩ := verifyFunction_mem hverify hbody hinst
  have hops := hmade.operand inst hinst
  simp only [indicesOk, Bool.and_eq_true, List.all_eq_true] at hindices
  refine ⟨hops, hmade.result inst hinst, fun hop => ⟨hmade.copy inst hinst hop, ?_⟩,
    hmade.ptradd inst hinst, fun hop => ?_, fun hop => ?_⟩
  · rw [checkInst, hop] at hcheck
    exact sameType_spec (hindices.2 _ mem_cons_self) (hops _ mem_cons_self) hcheck
  · rw [checkInst, hop] at hcheck
    exact of_decide_eq_true hcheck
  · rcases hop with hop | hop
    · rw [checkInst, hop] at hcheck
      simp only [Bool.and_eq_true] at hcheck
      exact ⟨of_decide_eq_true hcheck.1.2, of_decide_eq_true hcheck.2⟩
    · rw [checkInst, hop] at hcheck
      simp only [Bool.and_eq_true] at hcheck
      exact ⟨of_decide_eq_true hcheck.1.2, of_decide_eq_true hcheck.2⟩

theorem passed_start (hverify : verifyFunction mod f = true) (hbody : f.isExtern = false)
    (hmade : CopiesBuilt f) (hm : Typed M f.temps m) : Passed M f m f.code where
  length := rfl
  shape _ := rfl
  built p inst hinst := instBuilt_of_verified hverify hbody hmade (instAt_mem hinst)
  typed pts s hreach := by
    induction hreach with
    | start => exact hm
    | step _ hstep ih =>
      obtain ⟨inst, hinst, ⟨-, -, -, he⟩ | ⟨-, hstep, -, -⟩⟩ := stepAt_at hstep
      · rw [he]
        exact ih
      · exact typed_step (instBuilt_of_verified hverify hbody hmade (instAt_mem hinst)) ih hstep
  assigned _ _ _ hreach hinst _ ho hk := assigned_of_verified hverify hbody hreach hinst ho hk
  exact _ _ _ := ⟨rfl, rfl⟩

theorem Passed.inner (hverify : verifyFunction mod f = true) (hbody : f.isExtern = false)
    (h : Passed M f m code) {b i j : Nat} {first : IrInst}
    (hfirst : instAt code (b, i) = some first) (hlt : i < j)
    (hsome : (instAt code (b, j)).isSome) : isTerminator first.op = false := by
  have hshape := h.shape (b, i)
  have hshape' := h.shape (b, j)
  rw [hfirst] at hshape
  obtain ⟨inst, hinst, he⟩ := map_eq_some_iff.1 hshape.symm
  obtain ⟨second, hsecond⟩ := isSome_iff_exists.1 hsome
  rw [hsecond] at hshape'
  obtain ⟨inst', hinst', -⟩ := map_eq_some_iff.1 hshape'.symm
  obtain ⟨block, hblock, hpos⟩ := instAt_code.1 hinst
  obtain ⟨block', hblock', hpos'⟩ := instAt_code.1 hinst'
  rw [hblock] at hblock'
  cases hblock'
  have hop : first.op = inst.op := (congrArg Prod.fst he).symm
  rw [hop]
  by_contra ht
  rw [Bool.not_eq_false] at ht
  have hlast := congrArg List.length (terminator_last hverify hbody hblock hpos ht)
  have hj := (List.getElem?_eq_some_iff.1 hpos').1
  rw [length_append, length_take, length_singleton] at hlast
  omega

/-- **One turn of the second loop is exact.**  The counts are those of the code after
    the propagation inside the blocks, which has the definitions of `f`. -/
theorem passed_turn (hverify : verifyFunction mod f = true) (hbody : f.isExtern = false)
    (hmade : CopiesBuilt f) {counted : List (List IrInst)} (hcounted : Passed M f m counted)
    (h : Passed M f m code) (p : Nat × Nat) :
    Passed M f m (propagateTurn (count f).defs (countPlace counted) f.params.length code p) := by
  unfold propagateTurn
  cases hinst : instAt code p with
  | none => exact h
  | some inst =>
    dsimp only
    split
    · exact h
    · next hcopy =>
      split
      · next hexact =>
        rw [not_or, not_or, not_not, not_not, Bool.not_eq_true] at hcopy
        obtain ⟨hop, hdefs, hother⟩ := hcopy
        have hdefines (t : Nat) (q : Nat × Nat) : definesAt code t q = definesAt f.code t q :=
          definesAt_shape h.shape q
        have hdefinesCounted (t : Nat) (q : Nat × Nat) :
            definesAt counted t q = definesAt f.code t q := definesAt_shape hcounted.shape q
        have hbound (x : Nat) (hx : x < f.temps.length) : x ≠ irNoResult :=
          Nat.ne_of_lt (Nat.lt_of_lt_of_le hx hmade.temps)
        have hparamsTemps : f.params.all (fun q => q.temp < f.temps.length) = true := by
          simp only [verifyFunction, hbody, Bool.false_or, Bool.and_eq_true] at hverify
          exact hverify.2.1.1
        have hresult : inst.result ≠ irNoResult := by
          intro he
          have hzero : (count f).defs inst.result = 0 := by
            show f.params.countP _ + f.insts.countP _ = 0
            rw [countP_eq_zero.2, countP_eq_zero.2]
            · intro i _ hi
              exact (of_decide_eq_true hi).1 ((of_decide_eq_true hi).2.trans he)
            · intro q hq hi
              exact hbound q.temp (of_decide_eq_true (List.all_eq_true.1 hparamsTemps q hq))
                ((of_decide_eq_true hi).trans he)
          rw [hzero] at hdefs
          cases hdefs
        have hdefined {q : Nat × Nat} {i : IrInst} (hi : instAt code q = some i)
            (hres : i.result ≠ irNoResult) : definesAt f.code i.result q = true :=
          hdefines _ q ▸ definesAt_iff.2 ⟨i, hi, hres, rfl⟩
        refine passed_replaceUses h (fun b i j first => h.inner hverify hbody)
          ⟨hinst, hop, hresult, defs_param hdefs (hdefined hinst hresult), ?_, hother, ?_, ?_⟩
        · intro q i hi he
          exact defs_unique hdefs (he ▸ hdefined hi (he ▸ hresult)) (hdefined hinst hresult)
        · exact hexact.imp_right And.left
        · intro q i hi hres hnames
          obtain ⟨hk, hval⟩ := of_decide_eq_true hnames
          obtain ⟨-, hdefsValue, hplace⟩ := hexact.resolve_left fun hc => by
            rcases of_decide_eq_true hc with hc | hc <;> rw [hk] at hc <;> cases hc
          have hq : definesAt f.code inst.a.val q = true := hval ▸ hdefined hi hres
          rcases hplace with hlt | hplace
          · -- a parameter that an instruction assigns has two definitions
            have hmem : inst.a.val ∈ f.params.map IrParam.temp := hmade.params ▸ mem_range.2 hlt
            obtain ⟨param, hparam, he⟩ := List.mem_map.1 hmem
            exact absurd he (defs_param hdefsValue hq param hparam)
          · have hat := countPlace_defines ((hdefinesCounted _ q).trans hq)
            rw [hdefinesCounted] at hat
            rw [defs_unique hdefsValue hq hat]
            exact hplace
      · exact h

theorem passed_propagateCode (hverify : verifyFunction mod f = true)
    (hbody : f.isExtern = false) (hmade : CopiesBuilt f) (hm : Typed M f.temps m) :
    Passed M f m (propagateCode f) := by
  have hblocks := passed_in_block (passed_start hverify hbody hmade hm)
  have hturns (ps : List (Nat × Nat)) (code : List (List IrInst)) (h : Passed M f m code) :
      Passed M f m (ps.foldl (propagateTurn (count f).defs
        (countPlace (f.code.map propagateInBlock)) f.params.length) code) := by
    induction ps generalizing code with
    | nil => exact h
    | cons p ps ih => exact ih _ (passed_turn hverify hbody hmade hblocks h p)
  exact hturns _ _ hblocks

theorem propagateCopies_code (hlen : (propagateCode f).length = f.code.length) :
    (propagateCopies f).code = propagateCode f := by
  rw [IrFunction.code, propagateCopies, map_zipWith]
  refine ext_getElem ?_ fun i h₁ h₂ => ?_
  · rw [length_zipWith, hlen, IrFunction.code, length_map, Nat.min_self]
  · rw [getElem_zipWith]

end Pass

/-- A function that copies its second parameter, and uses the copy in two blocks. -/
def copyTwice : IrFunction :=
  { module := none, name := [], params := [⟨.ptr, .none, irNoAgg, 0, false, false, irNoIndex⟩,
      ⟨.i64, .none, irNoAgg, 1, false, false, irNoIndex⟩], result := .i64,
    blocks := [⟨[{ op := .copy, type := .i64, result := 2, a := ⟨.temp, .i64, 1⟩ },
      { op := .ptradd, type := .ptr, result := 3, a := ⟨.temp, .ptr, 0⟩,
        b := ⟨.temp, .i64, 2⟩ },
      { op := .jump, type := .void, a := ⟨.block, .void, 1⟩ }], .none⟩,
      ⟨[{ op := .store, type := .i64, a := ⟨.temp, .i64, 2⟩, b := ⟨.temp, .ptr, 3⟩ },
      { op := .ret, type := .i64, a := ⟨.temp, .i64, 2⟩ }], .none⟩],
    temps := [.ptr, .i64, .i64, .ptr] }

/-- Each use becomes a use of the parameter. -/
example : (propagateCopies copyTwice).code =
    [[{ op := .copy, type := .i64, result := 2, a := ⟨.temp, .i64, 1⟩ },
      { op := .ptradd, type := .ptr, result := 3, a := ⟨.temp, .ptr, 0⟩,
        b := ⟨.temp, .i64, 1⟩ },
      { op := .jump, type := .void, a := ⟨.block, .void, 1⟩ }],
      [{ op := .store, type := .i64, a := ⟨.temp, .i64, 1⟩, b := ⟨.temp, .ptr, 3⟩ },
      { op := .ret, type := .i64, a := ⟨.temp, .i64, 1⟩ }]] := by decide

theorem copyTwice_built : CopiesBuilt copyTwice where
  operand := by
    show ∀ i ∈ copyTwice.code.flatten, ∀ o ∈ i.operands, o.kind = .temp →
      copyTwice.temps[o.val]? = some o.type
    decide
  result := by decide
  temps := by decide
  params := by decide
  ptradd := by decide
  copy := by decide

theorem copyTwice_typed :
    Typed plainMachine copyTwice.temps ⟨fun x => BitVec.ofNat 64 x, fun _ => 0, []⟩ := by
  intro x type htype
  have hmem := mem_of_getElem? htype
  simp only [copyTwice, mem_cons, not_mem_nil, or_false] at hmem
  rcases hmem with rfl | rfl | rfl | rfl
  · exact plainMachine.trim_ptr _
  · exact plainMachine.trim_i64 _
  · exact plainMachine.trim_i64 _
  · exact plainMachine.trim_ptr _

end AnticIr
