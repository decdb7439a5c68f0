import Antic.DefiniteAssignment

/-! # What `check_definitions` accepts — `ir_verify.c`

    The rounds over the sets of the blocks end at the greatest fixed sets, and these are
    the temporaries that every path from the entry assigns.  So `check_definitions` refuses
    a function exactly where some path leads to a use of a temporary that it has not
    assigned.  A block that no path leads to is not refused. -/

namespace AnticIr

open List

/-- The terminators lead from the entry through the blocks `bs`, the latest first, to block `b`. -/
inductive BlockPath (f : IrFunction) : List Nat → Nat → Prop where
  | start : BlockPath f [] 0
  | step {bs : List Nat} {b b' : Nat} {block : IrBlock} {last : IrInst} :
      BlockPath f bs b → f.blocks[b]? = some block → block.insts.getLast? = some last →
      goesTo last b' = true → BlockPath f (b :: bs) b'

/-- The temporary is a parameter, or a block of the path writes it. -/
def AssignedOn (f : IrFunction) (bs : List Nat) (x : Nat) : Prop :=
  (∃ p ∈ f.params, p.temp = x) ∨
    ∃ b ∈ bs, ∃ block, f.blocks[b]? = some block ∧ ∃ inst ∈ block.insts, inst.result = x

/-- Every path to the end of block `b` assigns the temporary. -/
def AssignedBehind (f : IrFunction) (b x : Nat) : Prop :=
  ∀ bs, BlockPath f bs b → AssignedOn f (b :: bs) x

section Paths

variable {f : IrFunction} {bs : List Nat} {b x : Nat} {block : IrBlock}

theorem assignedOn_cons_iff (hblock : f.blocks[b]? = some block) : AssignedOn f (b :: bs) x ↔
      AssignedOn f bs x ∨ ∃ inst ∈ block.insts, inst.result = x := by
  unfold AssignedOn
  rw [exists_mem_cons_iff, hblock]
  constructor
  · rintro (h | ⟨_, hb, h⟩ | h)
    · exact .inl (.inl h)
    · exact .inr (Option.some.inj hb ▸ h)
    · exact .inl (.inr h)
  · rintro ((h | h) | h)
    · exact .inl h
    · exact .inr (.inr h)
    · exact .inr (.inl ⟨block, rfl, h⟩)

-- ── The sets hold what every path assigns ────

/-- What every path to block `b` assigns is in its set, where the sets of the other blocks
    hold what every path to their ends assigns. -/
theorem mem_entrySet_of_paths {out : List (Finset Nat)} (hx : x < f.temps.length)
    (hout : ∀ k, k < out.length → AssignedBehind f k x → x ∈ out.getD k ∅)
    (hpaths : ∀ bs, BlockPath f bs b → AssignedOn f bs x) : x ∈ entrySet f out b := by
  rw [mem_entrySet]
  refine ⟨?_, fun k block last hblock hk hlast hgo => hout k hk fun bs hpath => ?_⟩
  · unfold entryStart
    split
    · next hb =>
        subst hb
        rcases hpaths [] .start with ⟨p, hp, rfl⟩ | ⟨_, hnil, _⟩
        · exact List.mem_toFinset.2 (List.mem_map_of_mem hp)
        · cases hnil
    · exact Finset.mem_range.2 hx
  · exact hpaths (k :: bs) (hpath.step hblock hlast hgo)

open Classical in
/-- The sets of the temporaries that every path to the end of a block assigns. -/
noncomputable def behindSets (f : IrFunction) : List (Finset Nat) :=
  (List.range f.blocks.length).map fun b =>
    (Finset.range f.temps.length).filter (AssignedBehind f b)

theorem mem_behindSets (hb : b < f.blocks.length) :
    x ∈ (behindSets f).getD b ∅ ↔ x < f.temps.length ∧ AssignedBehind f b x := by
  have hlt : b < (behindSets f).length := by rwa [behindSets, length_map, length_range]
  rw [getD_eq_getElem _ _ hlt]
  simp [behindSets]

theorem behindSets_kept (b : Nat) (hb : b < (behindSets f).length) :
    (behindSets f).getD b ∅ ⊆ definitionsAt f (behindSets f) b := by
  intro x hx
  have hlen : (behindSets f).length = f.blocks.length := by simp [behindSets]
  rw [hlen] at hb
  obtain ⟨hlt, hbehind⟩ := (mem_behindSets hb).1 hx
  have hblock := getElem?_eq_getElem hb
  rw [definitionsAt, hblock]
  dsimp only
  rw [mem_defining]
  by_cases hhere : ∃ inst ∈ f.blocks[b].insts, inst.result = x
  · exact .inr ⟨hlt, hhere⟩
  · refine .inl (mem_entrySet_of_paths hlt (fun k hk hk' => ?_) fun bs hpath => ?_)
    · exact (mem_behindSets (hlen ▸ hk)).2 ⟨hlt, hk'⟩
    · exact ((assignedOn_cons_iff hblock).1 (hbehind bs hpath)).resolve_right hhere

theorem mem_definitions (hb : b < f.blocks.length) (hx : x < f.temps.length)
    (h : AssignedBehind f b x) : x ∈ (definitions f).getD b ∅ := by
  have hstart : DataFlow.Within (behindSets f)
      (f.blocks.map fun _ => Finset.range f.temps.length) := by
    refine forall₂_iff_get.2 ⟨by simp [behindSets], fun i _ _ => ?_⟩
    simp [behindSets]
  have hkept := DataFlow.within_settle definitionsAt_mono behindSets_kept f.blocks.length
    (f.blocks.length * f.temps.length + 1) hstart
  rw [← definitionsLoop_eq] at hkept
  exact DataFlow.within_getD hkept b ((mem_behindSets hb).2 ⟨hx, h⟩)

-- ── Every path assigns what the sets hold ────

theorem assignedOn_of_mem (hparams : paramsOk f = true) (hpath : BlockPath f bs b)
    (hx : x ∈ entrySet f (definitions f) b) : AssignedOn f bs x := by
  obtain ⟨hfixed, hlen⟩ := definitions_fixed hparams
  induction hpath with
  | start =>
    have hparam := (mem_entrySet.1 hx).1
    rw [entryStart, if_pos rfl, List.mem_toFinset] at hparam
    exact .inl (List.mem_map.1 hparam)
  | @step bs b b' block last _ hblock hlast hgo ih =>
    have hlt : b < (definitions f).length := hlen ▸ (List.getElem?_eq_some_iff.1 hblock).1
    have hout := (mem_entrySet.1 hx).2 b block last hblock hlt hlast hgo
    rw [← hfixed b hlt, definitionsAt, hblock] at hout
    rw [assignedOn_cons_iff hblock]
    exact (mem_defining.1 hout).imp ih And.right

-- ── The uses ────

theorem usesOk_iff {set : Finset Nat} {insts : List IrInst} :
    usesOk f set insts = true ↔ ∀ (i : Nat) inst, insts[i]? = some inst → ∀ o ∈ inst.operands,
      o.kind = .temp → o.val < f.temps.length → o.val ∈ defining f set (insts.take i) := by
  constructor
  · intro h i inst hinst o ho hk hlt
    exact usesOk_at h hinst ho hk hlt
  · intro h
    induction insts generalizing set with
    | nil => rfl
    | cons inst rest ih =>
      rw [usesOk, Bool.and_eq_true]
      refine ⟨List.all_eq_true.2 fun o ho => ?_, ih fun i => h (i + 1)⟩
      by_cases hk : o.kind = .temp
      · by_cases hlt : o.val < f.temps.length
        · have hmem : o.val ∈ set := h 0 inst rfl o ho hk hlt
          simp [hmem]
        · simp [Nat.not_lt.1 hlt]
      · simp [hk]

/-- **`check_definitions` is exact**: it accepts a function exactly where every path to a
    use of a temporary assigns it before. -/
theorem checkDefinitions_iff (hparams : paramsOk f = true) :
    checkDefinitions f = true ↔ ∀ bs b block (i : Nat) inst, BlockPath f bs b →
      f.blocks[b]? = some block → block.insts[i]? = some inst → ∀ o ∈ inst.operands,
        o.kind = .temp → o.val < f.temps.length →
          AssignedOn f bs o.val ∨ ∃ other ∈ block.insts.take i, other.result = o.val := by
  unfold checkDefinitions
  simp only [List.all_eq_true, usesOk_iff, mem_defining]
  constructor
  · intro h bs b block i inst hpath hblock hinst o ho hk hlt
    refine (h (block, b) (mem_zipIdx_iff_getElem?.2 hblock) i inst hinst o ho hk hlt).imp
      (assignedOn_of_mem hparams hpath) And.right
  · rintro h ⟨block, b⟩ hmem i inst hinst o ho hk hlt
    have hblock := mem_zipIdx_iff_getElem?.1 hmem
    by_cases hhere : ∃ other ∈ block.insts.take i, other.result = o.val
    · exact .inr ⟨hlt, hhere⟩
    · refine .inl (mem_entrySet_of_paths hlt (fun k hk' hbehind => ?_) fun bs hpath => ?_)
      · exact mem_definitions ((definitions_fixed hparams).2 ▸ hk') hlt hbehind
      · exact (h bs b block i inst hpath hblock hinst o ho hk hlt).resolve_right hhere

/-- Two arms assign what the block behind both of them returns. -/
def twoArms : IrFunction where
  module := none
  name := [97]
  params := [{ type := .i8, temp := 0 }]
  result := .i64
  blocks := [
    { insts := [
      { op := .branch, type := .void, a := ⟨.temp, .i8, 0⟩, b := ⟨.block, .void, 1⟩,
        c := ⟨.block, .void, 2⟩ }] },
    { insts := [
      { op := .copy, type := .i64, result := 1, a := ⟨.int, .i64, 5⟩ },
      { op := .jump, type := .void, a := ⟨.block, .void, 3⟩ }] },
    { insts := [
      { op := .copy, type := .i64, result := 1, a := ⟨.int, .i64, 6⟩ },
      { op := .jump, type := .void, a := ⟨.block, .void, 3⟩ }] },
    { insts := [{ op := .ret, type := .i64, a := ⟨.temp, .i64, 1⟩ }] }]
  temps := [.i8, .i64]

theorem twoArms_assigned : checkDefinitions twoArms = true ∧
    ∀ bs b block (i : Nat) inst, BlockPath twoArms bs b →
      twoArms.blocks[b]? = some block → block.insts[i]? = some inst → ∀ o ∈ inst.operands,
        o.kind = .temp → o.val < twoArms.temps.length →
          AssignedOn twoArms bs o.val ∨ ∃ other ∈ block.insts.take i, other.result = o.val := by
  have haccepts : checkDefinitions twoArms = true := by decide
  exact ⟨haccepts, (checkDefinitions_iff (by decide)).1 haccepts⟩

end Paths

end AnticIr
