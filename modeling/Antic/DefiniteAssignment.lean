import Antic.CommuteProofs
import Antic.DataFlow
import Antic.IrMemory

/-! # Definite assignment — what `check_definitions` gives a run

    `Reaches` is a run with the places it has executed.  The sets of `definitions` are fixed
    (`definitions_fixed`), so at every state of a run each temporary of the set before an
    instruction was assigned (`Settled`): it is a parameter, or an executed instruction writes it.
    So every temporary that an instruction uses was assigned. -/

namespace AnticIr

open List

variable {M : Meaning} {code : List (List IrInst)} {s₀ : At}

/-! ## A run and the places it has executed -/

/-- A run from `s₀` that has executed the places `pts`, the newest first. -/
inductive Reaches (M : Meaning) (code : List (List IrInst)) (s₀ : At) :
    List (Nat × Nat) → At → Prop
  | start : Reaches M code s₀ [] s₀
  | step {pts : List (Nat × Nat)} {s s' : At} : Reaches M code s₀ pts s →
      stepAt M code s = .at_ s' → Reaches M code s₀ ((s.block, s.pos) :: pts) s'

theorem stepAt_of_instAt {s : At} {inst : IrInst}
    (hinst : instAt code (s.block, s.pos) = some inst) :
    stepAt M code s =
      if isTerminator inst.op then leave M inst s.m
      else
        match stepInst M inst s.m with
        | none => .undefined
        | some m => .at_ ⟨s.block, s.pos + 1, m⟩ := by
  obtain ⟨insts, hget, hpos⟩ := Option.bind_eq_some_iff.1 hinst
  unfold stepAt
  split
  · next hnone => cases hnone.symm.trans hget
  · next insts' hsome =>
      obtain rfl := Option.some.inj (hsome.symm.trans hget)
      split
      · next hnone => cases hnone.symm.trans hpos
      · next inst' hsome =>
          obtain rfl := Option.some.inj (hsome.symm.trans hpos)
          rfl

theorem stepAt_of_none {s : At} {code' : List (List IrInst)}
    (hlen : code'.length = code.length) (hinst : instAt code (s.block, s.pos) = none)
    (hinst' : instAt code' (s.block, s.pos) = none) : stepAt M code' s = stepAt M code s := by
  unfold instAt at hinst hinst'
  rw [stepAt, stepAt]
  cases hget : code[s.block]? with
  | none => rw [getElem?_eq_none (hlen ▸ List.getElem?_eq_none_iff.1 hget)]
  | some insts =>
    have hlt := hlen ▸ (List.getElem?_eq_some_iff.1 hget).1
    rw [hget] at hinst
    rw [getElem?_eq_getElem hlt] at hinst' ⊢
    dsimp only [Option.bind_some] at hinst hinst' ⊢
    rw [hinst, hinst']

theorem leave_at {inst : IrInst} {m : MemMachine} {s' : At} (h : leave M inst m = .at_ s') :
    goesTo inst s'.block = true ∧ s'.pos = 0 ∧ s'.m = m := by
  unfold leave at h
  unfold goesTo
  split at h
  · next hop =>
      cases h
      simp [hop]
  · next hop =>
      cases h
      rw [hop]
      split <;> simp
  · next hop =>
      cases h
      rw [hop]
      split <;> simp
  · cases h
  · cases h

theorem stepAt_at {s s' : At} (h : stepAt M code s = .at_ s') :
    ∃ inst, instAt code (s.block, s.pos) = some inst ∧
      ((isTerminator inst.op = true ∧ goesTo inst s'.block = true ∧ s'.pos = 0 ∧ s'.m = s.m) ∨
        (isTerminator inst.op = false ∧ stepInst M inst s.m = some s'.m ∧
          s'.block = s.block ∧ s'.pos = s.pos + 1)) := by
  cases hinst : instAt code (s.block, s.pos) with
  | none =>
    unfold instAt at hinst
    rw [stepAt] at h
    cases hget : code[s.block]? with
    | none =>
      rw [hget] at h
      cases h
    | some insts =>
      rw [hget] at h hinst
      dsimp only [Option.bind_some] at h hinst
      rw [hinst] at h
      cases h
  | some inst =>
    rw [stepAt_of_instAt hinst] at h
    refine ⟨inst, rfl, ?_⟩
    cases ht : isTerminator inst.op with
    | true =>
      rw [ht, if_pos rfl] at h
      exact .inl ⟨rfl, leave_at h⟩
    | false =>
      rw [ht, if_neg Bool.false_ne_true] at h
      cases hstep : stepInst M inst s.m with
      | none =>
        rw [hstep] at h
        cases h
      | some m =>
        rw [hstep] at h
        cases h
        exact .inr ⟨rfl, rfl, rfl, rfl⟩

variable {pts : List (Nat × Nat)}

theorem Reaches.back {s : At} (hstart : s₀.pos = 0) (h : Reaches M code s₀ pts s) {k : Nat}
    (hk : k ≤ s.pos) :
    ∃ pts' s', Reaches M code s₀ pts' s' ∧ s'.block = s.block ∧ s'.pos = k ∧ pts' ⊆ pts := by
  induction h with
  | start => exact ⟨[], s₀, .start, rfl, by omega, List.Subset.refl _⟩
  | @step pts s s' hreach hstep ih =>
    by_cases he : k = s'.pos
    · exact ⟨_, s', hreach.step hstep, rfl, he.symm, List.Subset.refl _⟩
    · obtain ⟨inst, -, ⟨-, -, hpos, -⟩ | ⟨-, -, hblock, hpos⟩⟩ := stepAt_at hstep
      · omega
      · obtain ⟨pts', s₁, hreach', hb, hp, hsub⟩ := ih (by omega)
        exact ⟨pts', s₁, hreach', hb.trans hblock.symm, hp,
          List.Subset.trans hsub (subset_cons_self _ _)⟩

theorem Reaches.first {s : At} (h : Reaches M code s₀ pts s) {p : Nat × Nat} (hp : p ∈ pts) :
    ∃ pts' s', Reaches M code s₀ pts' s' ∧ (s'.block, s'.pos) = p ∧ p ∉ pts' ∧
      pts' ⊆ pts := by
  induction h with
  | start => cases hp
  | @step pts s s' hreach hstep ih =>
    by_cases hmem : p ∈ pts
    · obtain ⟨pts', s₁, hreach', hat, hnot, hsub⟩ := ih hmem
      exact ⟨pts', s₁, hreach', hat, hnot, subset_cons_of_subset _ hsub⟩
    · rcases mem_cons.1 hp with rfl | hp
      · exact ⟨pts, s, hreach, rfl, hmem, subset_cons_self _ _⟩
      · exact absurd hp hmem

/-- The temporary is a parameter, or an executed instruction writes it. -/
def Assigned (f : IrFunction) (code : List (List IrInst)) (pts : List (Nat × Nat))
    (x : Nat) : Prop :=
  (∃ p ∈ f.params, p.temp = x) ∨ ∃ p ∈ pts, ∃ inst, instAt code p = some inst ∧ inst.result = x

theorem Assigned.mono {f : IrFunction} {pts' : List (Nat × Nat)} {x : Nat}
    (h : Assigned f code pts x) (hsub : pts ⊆ pts') : Assigned f code pts' x :=
  h.imp_right fun ⟨p, hp, hinst⟩ => ⟨p, hsub hp, hinst⟩

/-! ## The sets of the verifier -/

section Sets

variable {f : IrFunction}

theorem mem_defining {set : Finset Nat} {insts : List IrInst} {x : Nat} : x ∈ defining f set insts ↔
      x ∈ set ∨ (x < f.temps.length ∧ ∃ inst ∈ insts, inst.result = x) := by
  unfold defining
  induction insts generalizing set with
  | nil => simp
  | cons inst rest ih =>
    rw [foldl_cons, ih]
    by_cases hlt : inst.result < f.temps.length
    · rw [if_pos hlt, Finset.mem_insert]
      constructor
      · rintro ((rfl | hx) | ⟨hx, i, hi, rfl⟩)
        · exact .inr ⟨hlt, inst, mem_cons_self, rfl⟩
        · exact .inl hx
        · exact .inr ⟨hx, i, mem_cons_of_mem _ hi, rfl⟩
      · rintro (hx | ⟨hx, i, hi, rfl⟩)
        · exact .inl (.inr hx)
        · rcases mem_cons.1 hi with rfl | hi
          · exact .inl (.inl rfl)
          · exact .inr ⟨hx, i, hi, rfl⟩
    · rw [if_neg hlt]
      refine or_congr_right (and_congr_right fun hx => ?_)
      rw [exists_mem_cons_iff]
      exact (or_iff_right fun (he : inst.result = x) => hlt (he ▸ hx)).symm

/-- The set that `entry_set` starts from. -/
def entryStart (f : IrFunction) (b : Nat) : Finset Nat :=
  if b = 0 then (f.params.map IrParam.temp).toFinset else Finset.range f.temps.length

/-- What `entry_set` does with one block. -/
def meetPred (b : Nat) (set : Finset Nat) (pred : IrBlock × Finset Nat) : Finset Nat :=
  match pred.1.insts.getLast? with
  | none => set
  | some last => if goesTo last b then set ∩ pred.2 else set

theorem mem_entrySet {out : List (Finset Nat)} {b x : Nat} :
    x ∈ entrySet f out b ↔ x ∈ entryStart f b ∧
      ∀ k block last, f.blocks[k]? = some block → k < out.length →
        block.insts.getLast? = some last → goesTo last b = true → x ∈ out.getD k ∅ := by
  have hfold (l : List (IrBlock × Finset Nat)) (set : Finset Nat) : x ∈ l.foldl (meetPred b) set ↔
        x ∈ set ∧ ∀ p ∈ l, ∀ last, p.1.insts.getLast? = some last →
          goesTo last b = true → x ∈ p.2 := by
    induction l generalizing set with
    | nil => simp
    | cons p rest ih =>
      rw [foldl_cons, ih, forall_mem_cons, ← and_assoc, meetPred]
      refine and_congr_left fun _ => ?_
      cases hlast : p.1.insts.getLast? with
      | none => simp
      | some last =>
        cases hgo : goesTo last b with
        | false => simp [hgo]
        | true => simp [hgo]
  refine (hfold (f.blocks.zip out) _).trans (and_congr_right fun _ => ?_)
  constructor
  · intro h k block last hblock hk hlast hgo
    rw [getD_eq_getElem _ _ hk]
    refine h (block, out[k]) (mem_iff_getElem?.2 ⟨k, ?_⟩) last hlast hgo
    exact getElem?_zip_eq_some.2 ⟨hblock, getElem?_eq_getElem hk⟩
  · intro h p hp last hlast hgo
    obtain ⟨k, hget⟩ := mem_iff_getElem?.1 hp
    obtain ⟨hblock, hout⟩ := getElem?_zip_eq_some.1 hget
    obtain ⟨hk, hout⟩ := List.getElem?_eq_some_iff.1 hout
    have hx := h k p.1 last hblock hk hlast hgo
    rwa [getD_eq_getElem _ _ hk, hout] at hx

/-- The set that a turn gives block `b`. -/
def definitionsAt (f : IrFunction) (out : List (Finset Nat)) (b : Nat) : Finset Nat :=
  match f.blocks[b]? with
  | none => ∅
  | some block => defining f (entrySet f out b) block.insts

theorem definitionsAt_mono {out out' : List (Finset Nat)} (h : DataFlow.Within out out')
    (b : Nat) : definitionsAt f out b ⊆ definitionsAt f out' b := by
  intro x hx
  unfold definitionsAt at hx ⊢
  split at hx
  · cases hx
  · rw [mem_defining, mem_entrySet] at hx ⊢
    refine hx.imp_left (And.imp_right fun hall k block last hblock hk hlast hgo => ?_)
    exact DataFlow.within_getD h k (hall k block last hblock (h.length_eq ▸ hk) hlast hgo)

theorem definitionsTurn_eq (out : List (Finset Nat)) :
    definitionsTurn f out = DataFlow.round (definitionsAt f) f.blocks.length out := by
  refine foldl_ext _ _ _ fun out b hb => ?_
  obtain ⟨block, hblock⟩ : ∃ block, f.blocks[b]? = some block :=
    ⟨_, getElem?_eq_getElem (mem_range.1 hb)⟩
  rw [definitionsAt, hblock]

theorem definitionsLoop_eq (turns : Nat) (out : List (Finset Nat)) : definitionsLoop f turns out =
      DataFlow.settle (definitionsAt f) f.blocks.length turns out := by
  induction turns generalizing out with
  | zero => rfl
  | succ turns ih => rw [definitionsLoop, DataFlow.settle, definitionsTurn_eq, ih]

theorem definitions_start (hparams : paramsOk f = true) : DataFlow.PostFixed (definitionsAt f)
      (f.blocks.map fun _ => Finset.range f.temps.length) := by
  intro b hb x hx
  rw [getD_eq_getElem _ _ hb, getElem_map, Finset.mem_range]
  unfold definitionsAt at hx
  split at hx
  · cases hx
  · rw [mem_defining, mem_entrySet] at hx
    rcases hx with ⟨hx, -⟩ | ⟨hx, -⟩
    · unfold entryStart at hx
      split at hx
      · obtain ⟨p, hp, rfl⟩ := List.mem_map.1 (List.mem_toFinset.1 hx)
        exact of_decide_eq_true (List.all_eq_true.1 hparams p hp)
      · exact Finset.mem_range.1 hx
    · exact hx

/-- **The turns of `check_definitions` are enough**: the sets they end at are fixed. -/
theorem definitions_fixed (hparams : paramsOk f = true) :
    DataFlow.Fixed (definitionsAt f) (definitions f) ∧
      (definitions f).length = f.blocks.length := by
  have hlen : (f.blocks.map fun _ => Finset.range f.temps.length).length = f.blocks.length :=
    length_map _
  have hweight : DataFlow.weight (f.blocks.map fun _ => Finset.range f.temps.length) <
      f.blocks.length * f.temps.length + 1 := by
    have hsum : DataFlow.weight (f.blocks.map fun _ => Finset.range f.temps.length) =
        f.blocks.length * f.temps.length := by
      rw [DataFlow.weight, List.map_map]
      show (f.blocks.map fun _ => (Finset.range f.temps.length).card).sum = _
      rw [Finset.card_range, map_const', sum_replicate_nat]
    exact Nat.lt_succ_of_le (Nat.le_of_eq hsum)
  have hfixed := DataFlow.settle_fixed definitionsAt_mono _ (definitions_start hparams) hweight
  rw [hlen] at hfixed
  rw [definitions, definitionsLoop_eq]
  exact hfixed

end Sets

/-! ## What a verified run has assigned -/

section Runs

variable {mod : IrModule} {f : IrFunction} {m : MemMachine}

variable {inst : IrInst} {pts : List (Nat × Nat)}

theorem checkInsts_place {before insts : List IrInst}
    (h : checkInsts mod f before insts = true) {i : Nat} (hinst : insts[i]? = some inst)
    (ht : isTerminator inst.op = true) : insts = insts.take i ++ [inst] := by
  induction insts generalizing before i with
  | nil => cases hinst
  | cons first rest ih =>
    simp only [checkInsts, Bool.and_eq_true] at h
    cases i with
    | zero =>
      cases hinst
      have hplace := h.1.2
      simp only [placeOk, ht, Bool.and_eq_true, Bool.not_true, Bool.false_or,
        List.isEmpty_iff] at hplace
      rw [hplace.2]
      rfl
    | succ i => exact congrArg (first :: ·) (ih h.2 hinst)

theorem terminator_last (hverify : verifyFunction mod f = true) (hbody : f.isExtern = false)
    {b i : Nat} {block : IrBlock} (hblock : f.blocks[b]? = some block)
    (hinst : block.insts[i]? = some inst) (ht : isTerminator inst.op = true) :
    block.insts = block.insts.take i ++ [inst] := by
  simp only [verifyFunction, hbody, Bool.false_or, Bool.and_eq_true, List.all_eq_true]
    at hverify
  exact checkInsts_place (hverify.2.1.2 block (mem_of_getElem? hblock)).1 hinst ht

theorem code_getElem? (f : IrFunction) (b : Nat) :
    f.code[b]? = (f.blocks[b]?).map IrBlock.insts := getElem?_map

theorem instAt_code {b i : Nat} : instAt f.code (b, i) = some inst ↔
      ∃ block, f.blocks[b]? = some block ∧ block.insts[i]? = some inst := by
  unfold instAt
  rw [code_getElem?]
  cases f.blocks[b]? <;> simp

theorem instAt_mem {p : Nat × Nat} (h : instAt code p = some inst) : inst ∈ code.flatten := by
  obtain ⟨insts, hget, hpos⟩ := Option.bind_eq_some_iff.1 h
  exact mem_flatten.2 ⟨insts, mem_of_getElem? hget, mem_of_getElem? hpos⟩

/-- Every temporary of the set before the instruction at `s` was assigned. -/
def Settled (f : IrFunction) (pts : List (Nat × Nat)) (s : At) : Prop :=
  ∀ block, f.blocks[s.block]? = some block →
    ∀ x ∈ defining f (entrySet f (definitions f) s.block) (block.insts.take s.pos),
      Assigned f f.code pts x

theorem settled_start : Settled f [] (startAt m) := by
  intro block _ x hx
  rw [mem_defining, mem_entrySet, startAt, entryStart, if_pos rfl] at hx
  rcases hx with ⟨hx, -⟩ | ⟨-, inst, hinst, -⟩
  · exact .inl (List.mem_map.1 (List.mem_toFinset.1 hx))
  · cases hinst

theorem assigned_cons {p : Nat × Nat} (hinst : instAt code p = some inst) :
    Assigned f code (p :: pts) inst.result :=
  .inr ⟨p, mem_cons_self, inst, hinst, rfl⟩

/-- One step.  Inside a block the set grows by the result; along an edge the set of
    the next block is part of the set at the end of this one. -/
theorem settled_step (hverify : verifyFunction mod f = true) (hbody : f.isExtern = false)
    {s s' : At} (h : Settled f pts s) (hstep : stepAt M f.code s = .at_ s') :
    Settled f ((s.block, s.pos) :: pts) s' := by
  intro block' hblock' x hx
  obtain ⟨inst, hinst, hcase⟩ := stepAt_at hstep
  obtain ⟨block, hblock, hpos⟩ := instAt_code.1 hinst
  have hold (x : Nat) (hx : x ∈ defining f (entrySet f (definitions f) s.block)
      (block.insts.take s.pos ++ [inst])) : Assigned f f.code ((s.block, s.pos) :: pts) x := by
    rw [mem_defining] at hx
    rcases hx with hx | ⟨hlt, i, hi, rfl⟩
    · exact (h block hblock x (mem_defining.2 (.inl hx))).mono (subset_cons_self _ _)
    · rcases mem_append.1 hi with hi | hi
      · exact (h block hblock _ (mem_defining.2 (.inr ⟨hlt, i, hi, rfl⟩))).mono
          (subset_cons_self _ _)
      · rw [mem_singleton.1 hi]
        exact assigned_cons hinst
  rcases hcase with ⟨ht, hgo, hpos', -⟩ | ⟨-, -, hblockEq, hposEq⟩
  · have hlast := terminator_last hverify hbody hblock hpos ht
    simp only [verifyFunction, hbody, Bool.false_or, Bool.and_eq_true] at hverify
    obtain ⟨hfixed, hlen⟩ := definitions_fixed hverify.2.1.1
    have hlt : s.block < (definitions f).length := hlen ▸ (List.getElem?_eq_some_iff.1 hblock).1
    rw [hpos', take_zero, mem_defining] at hx
    rcases hx with hx | ⟨-, i, hi, -⟩
    · have hout := (mem_entrySet.1 hx).2 s.block block inst hblock hlt
        (by rw [hlast, getLast?_concat]) hgo
      rw [← hfixed s.block hlt, definitionsAt, hblock] at hout
      dsimp only at hout
      rw [hlast] at hout
      exact hold x hout
    · cases hi
  · rw [hblockEq] at hblock' hx
    rw [hblock] at hblock'
    cases hblock'
    rw [hposEq, take_add_one, hpos] at hx
    exact hold x hx

theorem settled_of_reaches (hverify : verifyFunction mod f = true)
    (hbody : f.isExtern = false) {s : At} (h : Reaches M f.code (startAt m) pts s) :
    Settled f pts s := by
  induction h with
  | start => exact settled_start
  | step _ hstep ih => exact settled_step hverify hbody ih hstep

theorem usesOk_at {set : Finset Nat} {insts : List IrInst} (h : usesOk f set insts = true)
    {i : Nat} (hinst : insts[i]? = some inst) {o : IrOperand} (ho : o ∈ inst.operands)
    (hk : o.kind = .temp) (hlt : o.val < f.temps.length) :
    o.val ∈ defining f set (insts.take i) := by
  induction insts generalizing set i with
  | nil => cases hinst
  | cons first rest ih =>
    rw [usesOk, Bool.and_eq_true] at h
    cases i with
    | zero =>
      cases hinst
      have huse := List.all_eq_true.1 h.1 o ho
      simp only [hk, ne_eq, not_true_eq_false, decide_false, Bool.false_or, Bool.or_eq_true,
        decide_eq_true_eq] at huse
      exact huse.resolve_left (Nat.not_le.2 hlt)
    | succ i => exact ih h.2 hinst

/-- **Every use of a temporary was assigned.** -/
theorem assigned_of_verified (hverify : verifyFunction mod f = true)
    (hbody : f.isExtern = false) {s : At} (h : Reaches M f.code (startAt m) pts s)
    (hinst : instAt f.code (s.block, s.pos) = some inst) {o : IrOperand}
    (ho : o ∈ inst.operands) (hk : o.kind = .temp) : Assigned f f.code pts o.val := by
  obtain ⟨block, hblock, hpos⟩ := instAt_code.1 hinst
  have hindices := (verifyFunction_mem hverify hbody (instAt_mem hinst)).1
  have hsettled := settled_of_reaches hverify hbody h
  simp only [indicesOk, Bool.and_eq_true, List.all_eq_true] at hindices
  have hlt : o.val < f.temps.length := by
    have hok := hindices.2 o ho
    rw [operandOk, hk] at hok
    exact of_decide_eq_true hok
  simp only [verifyFunction, hbody, Bool.false_or, Bool.and_eq_true, checkDefinitions,
    List.all_eq_true] at hverify
  have huses := hverify.2.2 (block, s.block) (mem_zipIdx_iff_getElem?.2 hblock)
  exact hsettled block hblock o.val (usesOk_at huses hpos ho hk hlt)

end Runs

end AnticIr
