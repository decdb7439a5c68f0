import Antic.IrVerify
import Antic.ModuleRuns

/-! # A build without assertions or checks — `optimize_drop_failures`

    An assertion and a check both stand as a branch to a block that lowering marked with its kind.
    A build without them turns every such branch into a jump to the other arm.  Without the checks
    an overflow operation is the plain one, which wraps and carries no wrap fact. -/

namespace AnticIr

open List Option

/-! ## The literals of the dropped blocks -/

/-- The condition of `drop_literal`: a constant that is named by a number alone. -/
def isLiteral (g : IrGlobal) : Bool :=
  g.bytes ≠ [] && !g.exported && !g.mutable && g.relocs.isEmpty &&
    match g.name with
    | [] => false
    | c :: _ => 48 ≤ c && c ≤ 57

/-- `drop_literal`. -/
def dropLiteral (globals : List IrGlobal) (o : IrOperand) : List IrGlobal :=
  if o.kind ≠ .global then globals
  else globals.modify o.val fun g => if isLiteral g then { g with dropped := true } else g

/-- `drop_literals`. -/
def dropLiterals (globals : List IrGlobal) (block : IrBlock) : List IrGlobal :=
  (block.insts.flatMap IrInst.operands).foldl dropLiteral globals

/-! ## The instructions -/

/-- `without_overflow`. -/
def withoutOverflow (op : IrOp) : IrOp :=
  if op = .addOv then .add else if op = .subOv then .sub else .mul

section Drop

variable (kind : IrFail)

/-- The turn over one instruction: without the checks an overflow operation is plain. -/
def dropOverflow (inst : IrInst) : IrInst :=
  if kind = .check ∧ isOverflow inst.op = true then
    { inst with op := withoutOverflow inst.op, field := 0 }
  else inst

/-- The block that operand `o` of `f` names is a failure block of the kind. -/
def failsAt (f : IrFunction) (o : IrOperand) : Bool :=
  match f.blocks[o.val]? with
  | none => false
  | some block => block.fail = kind

/-- A jump to `target` in place of a branch. -/
def jumpTo (last : IrInst) (target : IrOperand) : IrInst :=
  { last with op := .jump, a := target, b := .absent, c := .absent }

/-- The turn over the last instruction of a block. -/
def dropBranch (f : IrFunction) (last : IrInst) : IrInst :=
  if last.op ≠ .branch ∧ last.op ≠ .branchOv then last
  else if failsAt kind f last.c then jumpTo last last.b
  else if failsAt kind f last.b then jumpTo last last.c
  else last

/-- The instructions of a block. -/
def dropInsts (f : IrFunction) (insts : List IrInst) : List IrInst :=
  (insts.map (dropOverflow kind)).modify (insts.length - 1) (dropBranch kind f)

/-- The loop over the blocks of a function. -/
def dropFunction (f : IrFunction) : IrFunction :=
  { f with blocks := f.blocks.map fun b => { b with insts := dropInsts kind f b.insts } }

/-- The blocks whose literals are dropped. -/
def failureBlocks (m : IrModule) : List IrBlock :=
  (m.functions.flatMap IrFunction.blocks).filter fun b => b.fail = kind

/-- `optimize_drop_failures`. -/
def optimizeDropFailures (m : IrModule) : IrModule :=
  { m with
    functions := m.functions.map (dropFunction kind)
    globals := (failureBlocks kind m).foldl dropLiterals m.globals }

end Drop

/-! ## What one instruction becomes -/

/-- What the pass makes of an instruction: the same, the plain form of an overflow
    operation where the checks go, or a jump past a failure block. -/
inductive Drops (kind : IrFail) (f : IrFunction) : IrInst → IrInst → Prop
  | same {inst : IrInst} : (kind = .check → isOverflow inst.op = false) → Drops kind f inst inst
  | plain {inst : IrInst} : kind = .check → isOverflow inst.op = true →
      Drops kind f inst { inst with op := withoutOverflow inst.op, field := 0 }
  | second {inst : IrInst} : (inst.op = .branch ∨ inst.op = .branchOv) →
      failsAt kind f inst.c = true → Drops kind f inst (jumpTo inst inst.b)
  | first {inst : IrInst} : (inst.op = .branch ∨ inst.op = .branchOv) →
      failsAt kind f inst.b = true → Drops kind f inst (jumpTo inst inst.c)

section Insts

variable {kind : IrFail} {f : IrFunction}

theorem dropOverflow_op {inst : IrInst} (h : isOverflow inst.op = false) :
    dropOverflow kind inst = inst := by
  rw [dropOverflow, if_neg]
  rw [h]
  exact fun h => Bool.false_ne_true h.2

theorem withoutOverflow_cases (op : IrOp) :
    withoutOverflow op = .add ∨ withoutOverflow op = .sub ∨ withoutOverflow op = .mul := by
  unfold withoutOverflow
  split
  · exact .inl rfl
  · split
    · exact .inr (.inl rfl)
    · exact .inr (.inr rfl)

/-- Of the operations that an instruction keeps, none is plain arithmetic or an
    overflow operation. -/
theorem dropOverflow_iff {inst : IrInst} (op : IrOp) (h : isOverflow op = false)
    (hadd : op ≠ .add) (hsub : op ≠ .sub) (hmul : op ≠ .mul) :
    (dropOverflow kind inst).op = op ↔ inst.op = op := by
  unfold dropOverflow
  split
  · rename_i hover
    constructor
    · intro he
      rcases withoutOverflow_cases inst.op with hop | hop | hop
      · exact absurd (he.symm.trans hop) hadd
      · exact absurd (he.symm.trans hop) hsub
      · exact absurd (he.symm.trans hop) hmul
    · intro he
      rw [he, h] at hover
      exact absurd hover.2 Bool.false_ne_true
  · exact Iff.rfl

theorem dropBranch_drops {inst : IrInst} (h : isOverflow inst.op = false) :
    Drops kind f inst (dropBranch kind f inst) := by
  unfold dropBranch
  split
  · exact .same fun _ => h
  · rename_i hop
    have hop : inst.op = .branch ∨ inst.op = .branchOv := by
      by_contra hnot
      rw [not_or] at hnot
      exact hop hnot
    split
    · exact .second hop ‹_›
    · split
      · exact .first hop ‹_›
      · exact .same fun _ => h

theorem dropOverflow_drops (inst : IrInst) : Drops kind f inst (dropOverflow kind inst) := by
  unfold dropOverflow
  split
  · rename_i h
    exact .plain h.1 h.2
  · rename_i h
    refine .same fun hkind => ?_
    rw [not_and, Bool.not_eq_true] at h
    exact h hkind

theorem isOverflow_branch {inst : IrInst} (h : inst.op = .branch ∨ inst.op = .branchOv) :
    isOverflow inst.op = false := by
  rcases h with h | h
  · rw [h]
    rfl
  · rw [h]
    rfl

theorem dropBranch_dropOverflow (inst : IrInst) :
    Drops kind f inst (dropBranch kind f (dropOverflow kind inst)) := by
  by_cases h : isOverflow inst.op = true
  · have hop : (dropOverflow kind inst).op ≠ .branch ∧ (dropOverflow kind inst).op ≠ .branchOv := by
      refine ⟨fun he => ?_, fun he => ?_⟩
      · rw [dropOverflow_iff .branch rfl nofun nofun nofun] at he
        rw [isOverflow_branch (.inl he)] at h
        exact Bool.false_ne_true h
      · rw [dropOverflow_iff .branchOv rfl nofun nofun nofun] at he
        rw [isOverflow_branch (.inr he)] at h
        exact Bool.false_ne_true h
    rw [dropBranch, if_pos hop]
    exact dropOverflow_drops inst
  · rw [Bool.not_eq_true] at h
    rw [dropOverflow_op h]
    exact dropBranch_drops h

@[simp] theorem dropInsts_length (insts : List IrInst) :
    (dropInsts kind f insts).length = insts.length := by
  rw [dropInsts, length_modify, length_map]

theorem dropInsts_single (inst : IrInst) :
    dropInsts kind f [inst] = [dropBranch kind f (dropOverflow kind inst)] := rfl

theorem dropInsts_cons (inst next : IrInst) (rest : List IrInst) :
    dropInsts kind f (inst :: next :: rest) =
      dropOverflow kind inst :: dropInsts kind f (next :: rest) := rfl

theorem dropInsts_get : ∀ (insts : List IrInst) (i : Nat) (inst : IrInst), insts[i]? = some inst →
      ∃ inst', (dropInsts kind f insts)[i]? = some inst' ∧ Drops kind f inst inst' := by
  intro insts
  induction insts with
  | nil =>
    intro i inst h
    exact absurd h (by simp)
  | cons first rest ih =>
    intro i inst h
    cases rest with
    | nil =>
      cases i with
      | zero =>
        obtain rfl := some.inj h
        exact ⟨_, rfl, dropBranch_dropOverflow _⟩
      | succ i => exact absurd h (by simp)
    | cons next rest =>
      cases i with
      | zero =>
        obtain rfl := some.inj h
        exact ⟨_, rfl, dropOverflow_drops _⟩
      | succ i => exact ih i inst h

end Insts

/-! ## What the module keeps -/

section Module

variable {kind : IrFail} {m : IrModule}

theorem dropLiteral_length (globals : List IrGlobal) (o : IrOperand) :
    (dropLiteral globals o).length = globals.length := by
  unfold dropLiteral
  split
  · rfl
  · exact length_modify _ _ _

theorem dropLiterals_length (globals : List IrGlobal) (block : IrBlock) :
    (dropLiterals globals block).length = globals.length := by
  unfold dropLiterals
  generalize block.insts.flatMap IrInst.operands = operands
  induction operands generalizing globals with
  | nil => rfl
  | cons o operands ih => rw [foldl_cons, ih, dropLiteral_length]

theorem drop_globals_length (kind : IrFail) (m : IrModule) :
    (optimizeDropFailures kind m).globals.length = m.globals.length := by
  unfold optimizeDropFailures
  generalize failureBlocks kind m = blocks
  generalize m.globals = globals
  induction blocks generalizing globals with
  | nil => rfl
  | cons block blocks ih => rw [foldl_cons, ih, dropLiterals_length]

theorem drop_function (j : Nat) : (optimizeDropFailures kind m).functions[j]? =
      (m.functions[j]?).map (dropFunction kind) := getElem?_map

theorem drop_instIn {p : Place} {inst : IrInst} (h : m.instIn p = some inst) :
    ∃ f inst', m.functions[p.fn]? = some f ∧
      (optimizeDropFailures kind m).instIn p = some inst' ∧ Drops kind f inst inst' := by
  obtain ⟨f, hf, h⟩ := bind_eq_some_iff.mp h
  obtain ⟨block, hblock, h⟩ := bind_eq_some_iff.mp h
  obtain ⟨inst', hinst', hdrops⟩ := @dropInsts_get kind f block.insts p.pos inst h
  refine ⟨f, inst', hf, ?_, hdrops⟩
  unfold IrModule.instIn
  rw [drop_function, hf, map_some, bind_some]
  show ((f.blocks.map _)[p.block]?).bind _ = _
  rw [getElem?_map, hblock]
  exact hinst'

/-- There is an instruction where there was one, and nowhere else. -/
theorem drop_instIn_none {p : Place} (h : m.instIn p = none) :
    (optimizeDropFailures kind m).instIn p = none := by
  unfold IrModule.instIn at h ⊢
  rw [drop_function]
  cases hf : m.functions[p.fn]? with
  | none => rfl
  | some f =>
    rw [hf] at h
    show ((f.blocks.map _)[p.block]?).bind _ = _
    rw [getElem?_map]
    cases hblock : f.blocks[p.block]? with
    | none => rfl
    | some block =>
      rw [bind_some, hblock, bind_some, List.getElem?_eq_none_iff] at h
      show (dropInsts kind f block.insts)[p.pos]? = none
      rw [List.getElem?_eq_none_iff, dropInsts_length]
      exact h

theorem drop_entryOf (j : Nat) : (optimizeDropFailures kind m).entryOf j = m.entryOf j := by
  unfold IrModule.entryOf
  rw [drop_function]
  cases m.functions[j]? with
  | none => rfl
  | some f =>
    show (if f.isExtern = true ∨ (f.blocks.map _).length = 0 then none else some f.params) = _
    rw [length_map]
    rfl

end Module

end AnticIr
