import Antic.DefiniteAssignment
import Antic.DropFailures

/-! # Dropping the failure arms changes only the runs that fail

    A run that never enters a failure block of the kind runs alike without the arms
    (`drop_run`): its branches take the arm that is left, and a plain operation gives
    the wrapped value of the overflow operation it was.

    The result passes the verifier (`drop_verified`): it has fewer edges, so more
    temporaries are assigned at the start of a block. -/

namespace AnticIr

open ByteMemory List Option

variable {kind : IrFail} {m : IrModule} {f : IrFunction}

/-! ## Runs -/

/-- The run is in a failure block of the kind. -/
def InFailure (kind : IrFail) (m : IrModule) (s : ModuleState) : Prop :=
  ∃ f block, m.functions[s.frame.place.fn]? = some f ∧
    f.blocks[s.frame.place.block]? = some block ∧ block.fail = kind

/-- A sum, a difference or a product. -/
def isArith (op : IrOp) : Bool := isOverflow op || op = .add || op = .sub || op = .mul

section Runs

variable {M : Meaning} {L : Linkage} {s : ModuleState}

theorem failsAt_goto {o : IrOperand} (hf : m.functions[s.frame.place.fn]? = some f)
    (h : failsAt kind f o = true) : InFailure kind m (s.goto o.val) := by
  unfold failsAt at h
  split at h
  · exact absurd h Bool.false_ne_true
  · rename_i block hblock
    exact ⟨f, block, hf, hblock, of_decide_eq_true h⟩

variable {inst inst' : IrInst}

theorem drops_call (h : Drops kind f inst inst') :
    inst'.result = inst.result ∧ inst'.type = inst.type := by
  cases h with
  | same => exact ⟨rfl, rfl⟩
  | plain => exact ⟨rfl, rfl⟩
  | second => exact ⟨rfl, rfl⟩
  | first => exact ⟨rfl, rfl⟩

theorem stepReturn_drop (inst : IrInst) :
    stepReturn M (optimizeDropFailures kind m) inst s = stepReturn M m inst s := by
  unfold stepReturn
  cases s.callers with
  | nil => rfl
  | cons caller rest =>
    dsimp only
    cases hcall : m.instIn caller.place with
    | none => rw [drop_instIn_none hcall]
    | some call =>
      obtain ⟨g, call', -, hcall', hdrops⟩ := @drop_instIn kind m _ _ hcall
      obtain ⟨hresult, htype⟩ := drops_call hdrops
      rw [hcall']
      simp only [leaveCall, hresult, htype]

theorem calleeOf_drop (inst : IrInst) :
    calleeOf M L (optimizeDropFailures kind m) s inst = calleeOf M L m s inst := by
  unfold calleeOf
  simp only [drop_entryOf]

theorem runInst_same (inst : IrInst) :
    runInst M L (optimizeDropFailures kind m) inst s = runInst M L m inst s := by
  simp only [runInst, stepReturn_drop, calleeOf_drop]

theorem runInst_plain (h : inst.op = .add ∨ inst.op = .sub ∨ inst.op = .mul) :
    runInst M L m inst s = stepArith M L false inst s := by
  rcases h with h | h | h
  · simp only [runInst, h]
  · simp only [runInst, h]
  · simp only [runInst, h]

theorem isOverflow_cases {op : IrOp} (h : isOverflow op = true) :
    op = .addOv ∨ op = .subOv ∨ op = .mulOv := by
  simpa [isOverflow] using h

theorem runInst_overflow (h : isOverflow inst.op = true) :
    runInst M L m inst s = stepArith M L true inst s := by
  rcases isOverflow_cases h with h | h | h
  · simp only [runInst, h]
  · simp only [runInst, h]
  · simp only [runInst, h]

/-- A plain operation without facts gives the value of the overflow operation. -/
theorem stepArith_plain (h : isOverflow inst.op = true) :
    stepArith M L false { inst with op := withoutOverflow inst.op, field := 0 } s =
      stepArith M L true inst s := by
  have hfact (inst' : IrInst) (h0 : inst'.field = 0) :
      breaksFact M L s.machine inst' = false := by
    unfold breaksFact
    rw [h0, Nat.zero_testBit, Nat.zero_testBit]
    rfl
  unfold stepArith
  rw [hfact _ rfl]
  rcases isOverflow_cases h with hop | hop | hop
  · simp [hop, withoutOverflow, wrapped, leavesSigned, exactValue]
  · simp [hop, withoutOverflow, wrapped, leavesSigned, exactValue]
  · simp [hop, withoutOverflow, wrapped, leavesSigned, exactValue]

/-- **One step.**  Where the original goes on outside the failure blocks, the
    instruction that is left does the same. -/
theorem runInst_drops (h : Drops kind f inst inst') (hf : m.functions[s.frame.place.fn]? = some f)
    (havoid : ∀ s', runInst M L m inst s = .at_ s' → ¬ InFailure kind m s') :
    runInst M L (optimizeDropFailures kind m) inst' s = runInst M L m inst s := by
  cases h with
  | same => exact runInst_same inst
  | plain _ hover =>
    rw [runInst_overflow hover, runInst_plain (withoutOverflow_cases inst.op)]
    exact stepArith_plain hover
  | second hop hfail =>
    -- The second arm fails, so the branch takes the first.
    have hbad := failsAt_goto (s := s) hf hfail
    rcases hop with hop | hop
    · simp only [runInst, hop, jumpTo] at havoid ⊢
      split at havoid
      · rename_i hcond
        rw [if_pos hcond]
      · exact absurd hbad (havoid _ rfl)
    · simp only [runInst, hop, jumpTo] at havoid ⊢
      split at havoid
      · rename_i hcond
        rw [if_pos hcond]
      · exact absurd hbad (havoid _ rfl)
  | first hop hfail =>
    have hbad := failsAt_goto (s := s) hf hfail
    rcases hop with hop | hop
    · simp only [runInst, hop, jumpTo] at havoid ⊢
      split at havoid
      · exact absurd hbad (havoid _ rfl)
      · rename_i hcond
        rw [if_neg hcond]
    · simp only [runInst, hop, jumpTo] at havoid ⊢
      split at havoid
      · exact absurd hbad (havoid _ rfl)
      · rename_i hcond
        rw [if_neg hcond]

theorem stepModule_drop (havoid : ∀ s', stepModule M L m s = .at_ s' → ¬ InFailure kind m s') :
    stepModule M L (optimizeDropFailures kind m) s = stepModule M L m s := by
  cases hinst : m.instIn s.frame.place with
  | none => rw [stepModule, stepModule, hinst, drop_instIn_none hinst]
  | some inst =>
    obtain ⟨f, inst', hf, hinst', hdrops⟩ := @drop_instIn kind m _ _ hinst
    refine stepModule_eq hinst hinst' (runInst_drops hdrops hf fun s' hstep => ?_)
    refine havoid s' ?_
    rw [stepModule, hinst]
    exact hstep

/-- **A run that never enters a failure block of the kind is a run of the result**,
    step for step. -/
theorem drop_run (n : Nat) (s : ModuleState)
    (havoid : ∀ k ≤ n, ∀ s', runModule M L m k s = .at_ s' → ¬ InFailure kind m s') :
    runModule M L (optimizeDropFailures kind m) n s = runModule M L m n s := by
  refine runModule_eq n s fun k hk s₁ hrun => stepModule_drop fun s' hstep => ?_
  refine havoid (k + 1) hk s' ?_
  rw [runModule_succ k s s₁ hrun]
  exact hstep

/-- An operation of the result whose wrap fact fails is the one of the original. -/
theorem drop_fact {p : Place} {mm : MemMachine}
    (hinst' : (optimizeDropFailures kind m).instIn p = some inst')
    (harith : isArith inst'.op = true) (hbreak : breaksFact M L mm inst' = true) :
    m.instIn p = some inst' := by
  cases hinst : m.instIn p with
  | none =>
    rw [drop_instIn_none hinst] at hinst'
    exact absurd hinst' (by simp)
  | some inst =>
    obtain ⟨f, inst'', -, hinst'', hdrops⟩ := @drop_instIn kind m _ _ hinst
    obtain rfl := some.inj (hinst''.symm.trans hinst')
    cases hdrops with
    | same => rfl
    | plain =>
      unfold breaksFact at hbreak
      rw [Nat.zero_testBit, Nat.zero_testBit] at hbreak
      exact absurd hbreak Bool.false_ne_true
    | second => exact absurd harith Bool.false_ne_true
    | first => exact absurd harith Bool.false_ne_true

end Runs

/-! ## The verifier: instructions -/

section Instructions

variable {inst inst' : IrInst}

theorem drops_terminator (h : Drops kind f inst inst') :
    isTerminator inst'.op = isTerminator inst.op := by
  cases h with
  | same => rfl
  | plain _ hover =>
    rcases isOverflow_cases hover with hop | hop | hop
    · simp [hop, withoutOverflow, isTerminator]
    · simp [hop, withoutOverflow, isTerminator]
    · simp [hop, withoutOverflow, isTerminator]
  | second hop | first hop => rcases hop with hop | hop <;> simp [hop, jumpTo, isTerminator]

theorem drops_operands (h : Drops kind f inst inst') :
    ∀ o ∈ inst'.operands, o = .absent ∨ o ∈ inst.operands := by
  intro o ho
  cases h with
  | same => exact .inr ho
  | plain => exact .inr ho
  | second =>
    simp only [IrInst.operands, mem_cons] at ho ⊢
    rcases ho with rfl | rfl | rfl | ho
    · exact .inr (.inr (.inl rfl))
    · exact .inl rfl
    · exact .inl rfl
    · exact .inr (.inr (.inr (.inr ho)))
  | first =>
    simp only [IrInst.operands, mem_cons] at ho ⊢
    rcases ho with rfl | rfl | rfl | ho
    · exact .inr (.inr (.inr (.inl rfl)))
    · exact .inl rfl
    · exact .inl rfl
    · exact .inr (.inr (.inr (.inr ho)))

theorem drops_goesTo (h : Drops kind f inst inst') {b : Nat} (hgo : goesTo inst' b = true) :
    goesTo inst b = true := by
  cases h with
  | same => exact hgo
  | plain _ hover =>
    rcases withoutOverflow_cases inst.op with hop | hop | hop
    · simp [goesTo, hop] at hgo
    · simp [goesTo, hop] at hgo
    · simp [goesTo, hop] at hgo
  | second hop | first hop =>
    simp only [goesTo, jumpTo, reduceCtorEq, decide_true, decide_false, Bool.false_and, Bool.or_false] at hgo
    have hb := of_decide_eq_true hgo
    rcases hop with hop | hop <;> simp [goesTo, hop, hb]

theorem operandOk_drop (o : IrOperand) :
    operandOk (optimizeDropFailures kind m) (dropFunction kind f) o = operandOk m f o := by
  unfold operandOk
  rw [drop_globals_length]
  simp only [optimizeDropFailures, dropFunction, length_map]
  rfl

theorem sameType_drop (o : IrOperand) (type : IrType) :
    sameType (optimizeDropFailures kind m) (dropFunction kind f) o type = sameType m f o type := by
  unfold sameType
  rw [operandOk_drop]
  rfl

theorem vectorOk_drop (inst : IrInst) :
    vectorOk (optimizeDropFailures kind m) (dropFunction kind f) inst = vectorOk m f inst := by
  unfold vectorOk
  simp only [sameType_drop]
  rfl

theorem callOk_drop (inst : IrInst) :
    callOk (optimizeDropFailures kind m) (dropFunction kind f) inst = callOk m f inst := by
  unfold callOk
  simp only [sameType_drop, operandOk_drop, drop_function]
  cases m.functions[(if inst.b.kind = .func then inst.b else inst.a).val]? with
  | none => rfl
  | some callee => rfl

theorem checkInst_drop (inst : IrInst) :
    checkInst (optimizeDropFailures kind m) (dropFunction kind f) inst = checkInst m f inst := by
  unfold checkInst
  simp only [sameType_drop, operandOk_drop, vectorOk_drop, callOk_drop]
  rfl

theorem drops_check (h : Drops kind f inst inst') (hindices : indicesOk m f inst = true)
    (hcheck : checkInst m f inst = true) :
    indicesOk (optimizeDropFailures kind m) (dropFunction kind f) inst' = true ∧
      checkInst (optimizeDropFailures kind m) (dropFunction kind f) inst' = true := by
  simp only [indicesOk, Bool.and_eq_true, List.all_eq_true] at hindices ⊢
  refine ⟨⟨?_, fun o ho => ?_⟩, ?_⟩
  · rw [(drops_call h).1]
    exact hindices.1
  · rw [operandOk_drop]
    rcases drops_operands h o ho with rfl | ho
    · rfl
    · exact hindices.2 o ho
  · rw [checkInst_drop]
    cases h with
    | same => exact hcheck
    | plain _ hover =>
      rcases isOverflow_cases hover with hop | hop | hop
      · simp only [checkInst, hop] at hcheck ⊢
        exact hcheck
      · simp only [checkInst, hop] at hcheck ⊢
        exact hcheck
      · simp only [checkInst, hop] at hcheck ⊢
        exact hcheck
    | second hop =>
      rcases hop with hop | hop
      · simp only [checkInst, hop, Bool.and_eq_true] at hcheck
        exact hcheck.1.2
      · simp only [checkInst, hop, Bool.and_eq_true] at hcheck
        exact hcheck.1.2
    | first hop =>
      rcases hop with hop | hop
      · simp only [checkInst, hop, Bool.and_eq_true] at hcheck
        exact hcheck.2
      · simp only [checkInst, hop, Bool.and_eq_true] at hcheck
        exact hcheck.2

end Instructions

/-! ## The verifier: blocks -/

section Blocks

theorem dropInsts_forall (insts : List IrInst) :
    List.Forall₂ (Drops kind f) insts (dropInsts kind f insts) := by
  induction insts with
  | nil => exact .nil
  | cons inst rest ih =>
    cases rest with
    | nil => exact .cons (dropBranch_dropOverflow inst) .nil
    | cons next rest => exact .cons (dropOverflow_drops inst) ih

/-- An instruction that is never rewritten keeps its place at the front. -/
theorem dropInsts_head {next : IrInst} {rest : List IrInst} (h : next.op = .unreachable) :
    ∃ rest', dropInsts kind f (next :: rest) = next :: rest' := by
  have hkeep : dropOverflow kind next = next := by
    refine dropOverflow_op ?_
    rw [h]
    rfl
  cases rest with
  | nil =>
    refine ⟨[], ?_⟩
    rw [dropInsts_single, hkeep, dropBranch, if_pos]
    rw [h]
    decide
  | cons other rest =>
    refine ⟨dropInsts kind f (other :: rest), ?_⟩
    rw [dropInsts_cons, hkeep]

variable {before : List IrInst} {inst inst' : IrInst}

theorem placeOk_iff {after : List IrInst} : placeOk m before inst after = true ↔
      (inst.op = .branchOv → ∃ last, before.head? = some last ∧
        isOverflow last.op = true ∧ last.result = inst.a.val) ∧
      (inst.op = .flag → ∃ source, flagSource before = some source ∧
        isFlagOperation source.op = true ∧ source.result = inst.a.val) ∧
      (inst.op = .call → inst.a.kind = .func →
        ∀ callee, m.functions[inst.a.val]? = some callee → callee.neverReturns = true →
          ∃ next, after.head? = some next ∧ next.op = .unreachable) ∧
      (isTerminator inst.op = true → after = []) := by
  unfold placeOk
  rw [Bool.and_eq_true, Bool.and_eq_true, Bool.and_eq_true, and_assoc, and_assoc]
  refine and_congr ?_ (and_congr ?_ (and_congr ?_ ?_))
  · by_cases hop : inst.op = .branchOv
    · cases before <;> simp [hop]
    · simp [hop]
  · by_cases hop : inst.op = .flag
    · cases flagSource before <;> simp [hop]
    · simp [hop]
  · by_cases hop : inst.op = .call
    · by_cases hk : inst.a.kind = .func
      · cases m.functions[inst.a.val]? with
        | none => simp [hop, hk]
        | some callee => cases hn : callee.neverReturns <;> cases after <;> simp [hop, hk, hn]
      · simp [hop, hk]
    · simp [hop]
  · cases isTerminator inst.op <;> simp

/-- Past the reads of its flags, a flag operation is found where it was. -/
theorem flagSource_drop {source : IrInst} (h : flagSource before = some source)
    (hflag : isFlagOperation source.op = true) :
    flagSource (before.map (dropOverflow kind)) = some source := by
  have hkeep : dropOverflow kind source = source := by
    refine dropOverflow_op ?_
    by_contra hover
    rw [Bool.not_eq_false] at hover
    rcases isOverflow_cases hover with hop | hop | hop
    · rw [hop] at hflag
      exact Bool.false_ne_true hflag
    · rw [hop] at hflag
      exact Bool.false_ne_true hflag
    · rw [hop] at hflag
      exact Bool.false_ne_true hflag
  unfold flagSource at h ⊢
  have hpast : ((fun inst : IrInst => decide (inst.op = .flag)) ∘ dropOverflow kind) =
      fun inst => decide (inst.op = .flag) := by
    funext inst
    exact decide_eq_decide.mpr (dropOverflow_iff .flag rfl nofun nofun nofun)
  rw [dropWhile_map, hpast, head?_map, h, map_some, hkeep]

/-- Each `IR_BRANCH_OV` has an arm that is a failure block of the checks. -/
def BranchesChecked (f : IrFunction) (insts : List IrInst) : Prop :=
  ∀ inst ∈ insts, inst.op = .branchOv →
    failsAt .check f inst.b = true ∨ failsAt .check f inst.c = true

theorem drops_place {after after' : List IrInst} (h : Drops kind f inst inst')
    (hplace : placeOk m before inst after = true)
    (hbranch : inst'.op = .branchOv → kind ≠ .check) (hempty : after = [] → after' = [])
    (hhead : ∀ next, after.head? = some next → next.op = .unreachable →
      ∃ next', after'.head? = some next' ∧ next'.op = .unreachable) :
    placeOk (optimizeDropFailures kind m) (before.map (dropOverflow kind)) inst' after' =
      true := by
  rw [placeOk_iff] at hplace ⊢
  obtain ⟨hov, hflag, hcall, hterm⟩ := hplace
  have hsame : ∀ op : IrOp, op ≠ .add → op ≠ .sub → op ≠ .mul → op ≠ .jump →
      inst'.op = op → inst' = inst := by
    intro op h1 h2 h3 h4 he
    cases h with
    | same => rfl
    | plain =>
      rcases withoutOverflow_cases inst.op with hop | hop | hop
      · exact absurd (he.symm.trans hop) h1
      · exact absurd (he.symm.trans hop) h2
      · exact absurd (he.symm.trans hop) h3
    | second => exact absurd he.symm h4
    | first => exact absurd he.symm h4
  refine ⟨fun hop => ?_, fun hop => ?_, fun hop hk callee hcallee hnever => ?_, fun hop => ?_⟩
  · have hkind := hbranch hop
    obtain rfl := hsame .branchOv (by decide) (by decide) (by decide) (by decide) hop
    obtain ⟨last, hlast, hover, hresult⟩ := hov hop
    refine ⟨last, ?_, hover, hresult⟩
    rw [head?_map, hlast, map_some, dropOverflow, if_neg fun h => hkind h.1]
  · obtain rfl := hsame .flag (by decide) (by decide) (by decide) (by decide) hop
    obtain ⟨source, hsource, hfl, hresult⟩ := hflag hop
    exact ⟨source, flagSource_drop hsource hfl, hfl, hresult⟩
  · obtain rfl := hsame .call (by decide) (by decide) (by decide) (by decide) hop
    rw [drop_function] at hcallee
    obtain ⟨g, hg, rfl⟩ := map_eq_some_iff.mp hcallee
    obtain ⟨next, hnext, hunreach⟩ := hcall hop hk g hg hnever
    exact hhead next hnext hunreach
  · rw [drops_terminator h] at hop
    exact hempty (hterm hop)

theorem drops_facts (h : Drops kind f inst inst') {slots : Nat → Bool}
    (hfacts : arithFactsOk f slots inst = true) :
    arithFactsOk (dropFunction kind f) slots inst' = true := by
  cases h with
  | same => exact hfacts
  | plain =>
    rcases withoutOverflow_cases inst.op with hop | hop | hop
    · simp [arithFactsOk, hop]
    · simp [arithFactsOk, hop]
    · simp [arithFactsOk, hop]
  | second => rfl
  | first => rfl

theorem drops_slot (h : Drops kind f inst inst') : inst'.op = .slot ↔ inst.op = .slot := by
  cases h with
  | same => exact Iff.rfl
  | plain _ hover =>
    rcases isOverflow_cases hover with hop | hop | hop
    · simp [hop, withoutOverflow]
    · simp [hop, withoutOverflow]
    · simp [hop, withoutOverflow]
  | second hop => rcases hop with hop | hop <;> simp [hop, jumpTo]
  | first hop => rcases hop with hop | hop <;> simp [hop, jumpTo]

theorem slotTemps_drop : slotTemps (dropFunction kind f) = slotTemps f := by
  have hinsts : ∀ (t : Nat) (insts insts' : List IrInst), List.Forall₂ (Drops kind f) insts insts' →
      (insts'.any fun inst => inst.op = .slot && inst.result = t) =
        insts.any fun inst => inst.op = .slot && inst.result = t := by
    intro t insts insts' h
    induction h with
    | nil => rfl
    | cons hdrops _ ih =>
      rw [any_cons, any_cons, ih, (drops_call hdrops).1]
      simp only [drops_slot hdrops]
  funext t
  unfold slotTemps IrFunction.insts
  rw [any_flatMap, any_flatMap]
  show (f.blocks.map _).any _ = _
  rw [List.any_map]
  refine congrArg f.blocks.any (funext fun block => ?_)
  exact hinsts t block.insts _ (dropInsts_forall block.insts)

/-- Without the checks no `IR_BRANCH_OV` is left, where each has an arm that is a
    failure block of them. -/
theorem dropBranch_branchOv (hchecked : inst.op = .branchOv →
      failsAt .check f inst.b = true ∨ failsAt .check f inst.c = true)
    (h : (dropBranch kind f (dropOverflow kind inst)).op = .branchOv) : kind ≠ .check := by
  rintro rfl
  have hop : inst.op = .branchOv := by
    unfold dropBranch at h
    split at h
    · rwa [dropOverflow_iff .branchOv rfl (by decide) (by decide) (by decide)] at h
    · split at h
      · cases h
      · split at h
        · cases h
        · rwa [dropOverflow_iff .branchOv rfl (by decide) (by decide) (by decide)] at h
  rw [dropOverflow_op (isOverflow_branch (.inr hop)), dropBranch, if_neg fun hne => hne.2 hop] at h
  split at h
  · cases h
  · rename_i hc
    rw [if_pos ((hchecked hop).resolve_right hc)] at h
    cases h

/-- **The instructions of a block pass the verifier.** -/
theorem checkInsts_drop : ∀ (insts before : List IrInst), BranchesChecked f insts →
      checkInsts m f before insts = true →
      checkInsts (optimizeDropFailures kind m) (dropFunction kind f)
        (before.map (dropOverflow kind)) (dropInsts kind f insts) = true := by
  intro insts
  induction insts with
  | nil =>
    intro before _ _
    rfl
  | cons inst rest ih =>
    intro before hchecked h
    simp only [checkInsts, Bool.and_eq_true] at h
    obtain ⟨⟨⟨⟨hindices, hcheck⟩, hfacts⟩, hplace⟩, hrest⟩ := h
    cases rest with
    | nil =>
      have hdrops := @dropBranch_dropOverflow kind f inst
      obtain ⟨hindices', hcheck'⟩ := drops_check hdrops hindices hcheck
      rw [dropInsts_single]
      simp only [checkInsts, Bool.and_eq_true, slotTemps_drop]
      refine ⟨⟨⟨⟨hindices', hcheck'⟩, drops_facts hdrops hfacts⟩, ?_⟩, trivial⟩
      exact drops_place hdrops hplace
        (dropBranch_branchOv (hchecked inst mem_cons_self)) (fun _ => rfl)
        fun next hnext => absurd hnext (by simp)
    | cons next rest =>
      have hdrops := @dropOverflow_drops kind f inst
      obtain ⟨hindices', hcheck'⟩ := drops_check hdrops hindices hcheck
      rw [dropInsts_cons]
      simp only [checkInsts, Bool.and_eq_true, slotTemps_drop]
      refine ⟨⟨⟨⟨hindices', hcheck'⟩, drops_facts hdrops hfacts⟩, ?_⟩, ?_⟩
      · refine drops_place hdrops hplace (fun hop => ?_) (fun h => absurd h (by simp)) ?_
        · -- A branch is the last instruction of its block.
          have hterm : isTerminator inst.op = true := by
            rw [← drops_terminator hdrops, hop]
            rfl
          exact absurd ((placeOk_iff.mp hplace).2.2.2 hterm) (by simp)
        · intro first hfirst hop
          obtain rfl : next = first := some.inj hfirst
          obtain ⟨rest', hrest'⟩ := @dropInsts_head kind f next rest hop
          exact ⟨next, by rw [hrest']; rfl, hop⟩
      · exact ih (inst :: before) (fun i hi => hchecked i (mem_cons_of_mem _ hi)) hrest

end Blocks

/-! ## The verifier: definite assignment -/

section Definitions

theorem drop_block {b : Nat} : (dropFunction kind f).blocks[b]? =
      (f.blocks[b]?).map fun block => { block with insts := dropInsts kind f block.insts } :=
  getElem?_map

theorem drop_edge {b k : Nat} {block : IrBlock} {last : IrInst}
    (hblock : (dropFunction kind f).blocks[k]? = some block)
    (hlast : block.insts.getLast? = some last) (hgo : goesTo last b = true) :
    ∃ block' last', f.blocks[k]? = some block' ∧ block'.insts.getLast? = some last' ∧
      goesTo last' b = true := by
  rw [drop_block] at hblock
  obtain ⟨block', hblock', rfl⟩ := map_eq_some_iff.mp hblock
  rw [getLast?_eq_getElem?, dropInsts_length] at hlast
  cases hget : block'.insts[block'.insts.length - 1]? with
  | none =>
    rw [List.getElem?_eq_none_iff, ← @dropInsts_length kind f,
      ← List.getElem?_eq_none_iff, dropInsts_length] at hget
    rw [hget] at hlast
    exact absurd hlast (by simp)
  | some last' =>
    obtain ⟨last'', hlast'', hdrops⟩ := @dropInsts_get kind f _ _ _ hget
    obtain rfl := some.inj (hlast''.symm.trans hlast)
    exact ⟨block', last', hblock', by rw [getLast?_eq_getElem?, hget], drops_goesTo hdrops hgo⟩

theorem entrySet_drop {out out' : List (Finset Nat)} (h : DataFlow.Within out out') (b : Nat) :
    entrySet f out b ⊆ entrySet (dropFunction kind f) out' b := by
  intro x hx
  rw [mem_entrySet] at hx ⊢
  refine ⟨hx.1, fun k block last hblock hk hlast hgo => ?_⟩
  obtain ⟨block', last', hblock', hlast', hgo'⟩ := drop_edge hblock hlast hgo
  exact DataFlow.within_getD h k (hx.2 k block' last' hblock' (h.length_eq ▸ hk) hlast' hgo')

theorem defining_drop {set set' : Finset Nat} {insts insts' : List IrInst}
    (h : List.Forall₂ (Drops kind f) insts insts') (hset : set ⊆ set') :
    defining f set insts ⊆ defining (dropFunction kind f) set' insts' := by
  induction h generalizing set set' with
  | nil => exact hset
  | @cons inst inst' _ _ hdrops _ ih =>
    refine ih ?_
    show (if inst.result < f.temps.length then insert inst.result set else set) ⊆
      if inst'.result < f.temps.length then insert inst'.result set' else set'
    rw [(drops_call hdrops).1]
    by_cases hlt : inst.result < f.temps.length
    · rw [if_pos hlt, if_pos hlt]
      exact Finset.insert_subset_insert _ hset
    · rw [if_neg hlt, if_neg hlt]
      exact hset

/-- **The sets of the verifier grow.** -/
theorem definitions_drop (hparams : paramsOk f = true) :
    DataFlow.Within (definitions f) (definitions (dropFunction kind f)) := by
  obtain ⟨hfixed, hlen⟩ := definitions_fixed hparams
  have hkept : ∀ b, b < (definitions f).length →
      (definitions f).getD b ∅ ⊆ definitionsAt (dropFunction kind f) (definitions f) b := by
    intro b hb
    rw [← hfixed b hb]
    unfold definitionsAt
    rw [drop_block]
    cases f.blocks[b]? with
    | none => exact Finset.Subset.refl _
    | some block =>
      exact defining_drop (dropInsts_forall block.insts) (entrySet_drop (DataFlow.within_refl _) b)
  have hstart : DataFlow.Within (definitions f) ((dropFunction kind f).blocks.map fun _ =>
        Finset.range (dropFunction kind f).temps.length) := by
    have hsame : ((dropFunction kind f).blocks.map fun _ =>
        Finset.range (dropFunction kind f).temps.length) =
        f.blocks.map fun _ => Finset.range f.temps.length := List.map_map
    rw [hsame, definitions, definitionsLoop_eq]
    exact DataFlow.settle_within definitionsAt_mono _ _ (definitions_start hparams)
  show DataFlow.Within _ (definitionsLoop (dropFunction kind f) _ _)
  rw [definitionsLoop_eq]
  exact DataFlow.within_settle definitionsAt_mono hkept _ _ hstart

theorem usesOk_drop {set set' : Finset Nat} {insts insts' : List IrInst}
    (h : List.Forall₂ (Drops kind f) insts insts') (hset : set ⊆ set')
    (huses : usesOk f set insts = true) :
    usesOk (dropFunction kind f) set' insts' = true := by
  induction h generalizing set set' with
  | nil => rfl
  | cons hdrops _ ih =>
    rw [usesOk, Bool.and_eq_true, List.all_eq_true] at huses ⊢
    refine ⟨fun o ho => ?_, ih (defining_drop (.cons hdrops .nil) hset) huses.2⟩
    rcases drops_operands hdrops o ho with rfl | ho
    · rfl
    · have huse := huses.1 o ho
      simp only [Bool.or_eq_true, decide_eq_true_eq] at huse ⊢
      exact huse.imp_right fun hmem => hset hmem

/-- **The uses of the result are assigned.** -/
theorem checkDefinitions_drop (hparams : paramsOk f = true)
    (h : checkDefinitions f = true) : checkDefinitions (dropFunction kind f) = true := by
  unfold checkDefinitions at h ⊢
  rw [List.all_eq_true] at h ⊢
  intro x hx
  obtain ⟨block, b⟩ := x
  have hblock := mem_zipIdx_iff_getElem?.mp hx
  dsimp only at hblock ⊢
  rw [drop_block] at hblock
  obtain ⟨block', hblock', rfl⟩ := map_eq_some_iff.mp hblock
  exact usesOk_drop (dropInsts_forall block'.insts) (entrySet_drop (definitions_drop hparams) b)
    (h (block', b) (mem_zipIdx_iff_getElem?.mpr hblock'))

end Definitions

/-! ## The module -/

section Module

/-- **A function of the result passes the verifier.** -/
theorem verifyFunction_drop (hchecked : ∀ block ∈ f.blocks, BranchesChecked f block.insts)
    (h : verifyFunction m f = true) :
    verifyFunction (optimizeDropFailures kind m) (dropFunction kind f) = true := by
  unfold verifyFunction at h ⊢
  rw [Bool.and_eq_true] at h ⊢
  refine ⟨h.1, ?_⟩
  cases hbody : f.isExtern with
  | true => rw [show (dropFunction kind f).isExtern = true from hbody, Bool.true_or]
  | false =>
    rw [hbody, Bool.false_or, Bool.and_eq_true, Bool.and_eq_true] at h
    obtain ⟨-, ⟨hparams, hblocks⟩, hdefs⟩ := h
    rw [show (dropFunction kind f).isExtern = false from hbody, Bool.false_or,
      Bool.and_eq_true, Bool.and_eq_true]
    refine ⟨⟨hparams, ?_⟩, checkDefinitions_drop hparams hdefs⟩
    rw [List.all_eq_true] at hblocks ⊢
    intro block hblock
    obtain ⟨block', hblock', rfl⟩ := List.mem_map.mp hblock
    have hok := hblocks block' hblock'
    rw [Bool.and_eq_true] at hok ⊢
    refine ⟨checkInsts_drop block'.insts [] (hchecked block' hblock') hok.1, ?_⟩
    have hends := hok.2
    unfold endsOk at hends ⊢
    rw [getLast?_eq_getElem?] at hends ⊢
    rw [dropInsts_length]
    split at hends
    · exact absurd hends Bool.false_ne_true
    · rename_i last hlast
      obtain ⟨last', hlast', hdrops⟩ := @dropInsts_get kind f _ _ _ hlast
      rw [hlast']
      dsimp only
      rw [drops_terminator hdrops]
      exact hends

/-- **The result passes the verifier.** -/
theorem drop_verified (kind : IrFail)
    (hchecked : ∀ f ∈ m.functions, ∀ block ∈ f.blocks, BranchesChecked f block.insts)
    (h : irVerify m = true) : irVerify (optimizeDropFailures kind m) = true := by
  unfold irVerify at h ⊢
  rw [Bool.and_eq_true, List.all_eq_true, List.all_eq_true] at h ⊢
  refine ⟨fun c hc => ?_, fun g hg => ?_⟩
  · have hclass := h.1 c hc
    unfold checkClass globalOk at hclass ⊢
    rw [drop_globals_length]
    simp only [optimizeDropFailures, length_map]
    exact hclass
  · obtain ⟨f, hf, rfl⟩ := List.mem_map.mp hg
    exact verifyFunction_drop (hchecked f hf) (h.2 f hf)

theorem drop_overflow {p : Place} {inst inst' : IrInst} (hinst : m.instIn p = some inst)
    (hinst' : (optimizeDropFailures kind m).instIn p = some inst')
    (hover : isOverflow inst.op = true) :
    inst' =
      if kind = .check then { inst with op := withoutOverflow inst.op, field := 0 }
      else inst := by
  obtain ⟨f, inst'', -, hinst'', hdrops⟩ := @drop_instIn kind m _ _ hinst
  obtain rfl := some.inj (hinst''.symm.trans hinst')
  cases hdrops with
  | same hkept =>
    rw [if_neg]
    intro hkind
    rw [hkept hkind] at hover
    exact Bool.false_ne_true hover
  | plain hkind => rw [if_pos hkind]
  | second hop | first hop =>
    rw [isOverflow_branch hop] at hover
    exact absurd hover Bool.false_ne_true

end Module

/-- **Dropping the failure arms changes only the runs that fail.**  For a module that passes the
    verifier and whose every `IR_BRANCH_OV` has an arm that is a failure block of the checks:

    * the result passes the verifier;
    * an overflow operation is kept, or without the checks is the plain one with no wrap fact;
    * a run that never enters a failure block of the kind is step for step a run of the result;
    * an operation of the result that breaks a wrap fact it carries in such a run is one of the
      original, with that fact. -/
theorem drop_failures : ∀ (m : IrModule) (kind : IrFail), irVerify m = true →
      (∀ f ∈ m.functions, ∀ block ∈ f.blocks, BranchesChecked f block.insts) →
      irVerify (optimizeDropFailures kind m) = true ∧
      (∀ p inst inst', m.instIn p = some inst →
        (optimizeDropFailures kind m).instIn p = some inst' → isOverflow inst.op = true →
        inst' =
          if kind = .check then { inst with op := withoutOverflow inst.op, field := 0 }
          else inst) ∧
      ∀ (M : Meaning) (L : Linkage) (n : Nat) (s : ModuleState),
        (∀ k ≤ n, ∀ s', runModule M L m k s = .at_ s' → ¬ InFailure kind m s') →
        ∀ k ≤ n, runModule M L (optimizeDropFailures kind m) k s = runModule M L m k s ∧
          ∀ s' inst', runModule M L (optimizeDropFailures kind m) k s = .at_ s' →
            (optimizeDropFailures kind m).instIn s'.frame.place = some inst' →
            isArith inst'.op = true → breaksFact M L s'.machine inst' = true →
            m.instIn s'.frame.place = some inst' := by
  intro m kind h hchecked
  refine ⟨drop_verified kind hchecked h, ?_, ?_⟩
  · intro p inst inst' hinst hinst' hover
    exact drop_overflow hinst hinst' hover
  · intro M L n s havoid k hk
    refine ⟨drop_run k s fun j hj => havoid j (Nat.le_trans hj hk), ?_⟩
    intro s' inst' _ hinst' harith hbreak
    exact drop_fact hinst' harith hbreak

/-- A sum with its check: the failure block is the arm of the overflow. -/
def checkedSum : IrModule where
  functions :=
    [{ module := some [109], name := [102], result := .i32, temps := [.i32, .i32],
       params := [{ type := .i32, temp := 0 }],
       blocks :=
         [⟨[{ op := .addOv, type := .i32, result := 1, a := ⟨.temp, .i32, 0⟩,
              b := ⟨.int, .i32, 2⟩, field := 1 },
            { op := .branchOv, type := .void, a := ⟨.temp, .i32, 1⟩,
              b := ⟨.block, .void, 1⟩, c := ⟨.block, .void, 2⟩ }], .none⟩,
          ⟨[{ op := .unreachable, type := .void }], .check⟩,
          ⟨[{ op := .ret, type := .i32, a := ⟨.temp, .i32, 1⟩ }], .none⟩] }]

/-- A target of 32 bits whose calls leave the memory alone. -/
def plainLinkage : Linkage where
  width _ := 32
  callee _ := none
  enter _ mem := mem
  fresh _ _ _ := 0

/-- A call of `checkedSum` with 5. -/
def sumStart : ModuleState where
  frame := ⟨⟨0, 0, 0⟩, fun _ => 5⟩
  callers := []
  mem := fun _ => 0
  events := []
  overflowed := false

/-- The run is not at the failure block of `checkedSum`. -/
def missesFailure : Ran → Bool
  | .at_ s => s.frame.place.fn = 0 ∧ s.frame.place.block ≠ 1
  | _ => true

/-- The sum does not overflow, and the build without checks returns it as well. -/
theorem drop_failures_checkedSum : irVerify (optimizeDropFailures .check checkedSum) = true ∧
      runModule plainMachine plainLinkage (optimizeDropFailures .check checkedSum) 3 sumStart =
        runModule plainMachine plainLinkage checkedSum 3 sumStart := by
  have hchecked : ∀ f ∈ checkedSum.functions, ∀ block ∈ f.blocks,
      BranchesChecked f block.insts := by
    unfold BranchesChecked
    decide
  obtain ⟨hverify, -, hruns⟩ := drop_failures checkedSum .check (by decide +kernel) hchecked
  refine ⟨hverify, (hruns plainMachine plainLinkage 3 sumStart ?_ 3 (Nat.le_refl 3)).1⟩
  have hblocks : ∀ k ≤ 3,
      missesFailure (runModule plainMachine plainLinkage checkedSum k sumStart) = true := by
    decide +kernel
  rintro k hk s' hrun ⟨f, block, hf, hblock, hfail⟩
  have hat := hblocks k hk
  rw [hrun] at hat
  obtain ⟨hfn, hb⟩ := of_decide_eq_true hat
  rw [hfn] at hf
  obtain rfl := some.inj hf
  -- Block 1 is the only failure block.
  rcases hpos : s'.frame.place.block with _ | _ | _ | b
  · rw [hpos] at hblock
    obtain rfl := some.inj hblock
    cases hfail
  · exact hb hpos
  · rw [hpos] at hblock
    obtain rfl := some.inj hblock
    cases hfail
  · rw [hpos] at hblock
    cases hblock

end AnticIr
