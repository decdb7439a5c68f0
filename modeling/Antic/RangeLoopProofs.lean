import Antic.CommuteProofs
import Antic.RangeLowering

/-! # A lowered range loop visits its values

    The code that `lower_for` leaves has the form of `RangeCode` (`lowerFor_code`), whatever the
    bounds and the body are lowered to.  With the runs of such code that is the result: every run
    visits the values of the range in order, and all of them where every turn comes to the step. -/

namespace AnticIr

open MachineInt List

-- ── What other code leaves ────

section Foreign

variable {l l' : Lowerer} {b : Nat}

theorem Lowers.block_kept (h : Lowers l l') (hb : b < l.blocks.length) (hne : b ≠ l.b) :
    l'.block b = l.block b := by
  simp only [Lowerer.block, getD_eq_getElem?_getD, h.kept b hb hne]

theorem Lowers.block_here (h : Lowers l l') :
    ∃ more, l'.block l.b = l.block l.b ++ more ∧ ∀ inst ∈ more, Foreign l l' inst := by
  obtain ⟨more, hmore, hforeign⟩ := h.current
  refine ⟨more, ?_, hforeign⟩
  simp only [Lowerer.block, getD_eq_getElem?_getD, hmore, Option.getD_some]

theorem Lowers.block_fresh (h : Lowers l l') (hb : l.blocks.length ≤ b) :
    ∀ inst ∈ l'.block b, Foreign l l' inst := by
  intro inst hinst
  cases hget : l'.blocks[b]? with
  | none => simp [Lowerer.block, hget] at hinst
  | some insts =>
    simp only [Lowerer.block, getD_eq_getElem?_getD, hget] at hinst
    exact h.fresh b hb insts hget inst hinst

theorem Lowers.wellFormed (h : Lowers l l') (hl : l.WellFormed) : l'.WellFormed := by
  refine ⟨h.here.1, ?_, ?_⟩
  · intro t ht
    rcases h.symbols t ht with hold | ⟨-, hnew⟩
    · exact (hl.symbols t hold).trans_le h.temps.length_le
    · exact hnew
  · intro b hb
    rw [h.known] at hb
    exact (hl.known b hb).trans_le h.length

theorem Lowers.not_symbol (h : Lowers l l') {t : Nat} (ht : t < l.temps.length)
    (hno : l.symbols t = false) : l'.symbols t = false := by
  by_contra hsym
  rcases h.symbols t (by simpa using hsym) with hold | ⟨hge, -⟩
  · rw [hno] at hold
    cases hold
  · omega

/-- Other code leaves the temporaries alone that are no variables. -/
theorem Foreign.apart {inst : IrInst} (h : Foreign l l' inst) {kept : Nat → Prop}
    (hkept : ∀ t, kept t → t < l.temps.length ∧ l.symbols t = false) :
    Apart kept (fun b => (l.blocks.length ≤ b ∧ b < l'.blocks.length) ∨ b ∈ l.known) inst := by
  refine ⟨?_, h.jumps⟩
  rcases h.writes with hno | hnew | hsym
  · exact .inl hno
  · refine .inr fun hk => ?_
    exact absurd (hkept _ hk).1 (by omega)
  · refine .inr fun hk => ?_
    rw [(hkept _ hk).2] at hsym
    cases hsym

end Foreign

theorem Lowerer.WellFormed.newBlock {l : Lowerer} (h : l.WellFormed) : l.newBlock.WellFormed := by
  refine ⟨?_, h.symbols, fun b hb => ?_⟩
  · rw [newBlock_length]
    exact Nat.lt_succ_of_lt h.here
  · rw [newBlock_length]
    exact Nat.lt_succ_of_lt (h.known b hb)

theorem Lowerer.WellFormed.emit {l : Lowerer} (h : l.WellFormed) (types : List IrType)
    (insts : List IrInst) : (l.emit types insts).WellFormed := by
  refine ⟨?_, fun t ht => ?_, fun b hb => ?_⟩
  · rw [emit_length]
    exact h.here
  · rw [emit_temps, length_append]
    exact (h.symbols t ht).trans_le (Nat.le_add_right _ _)
  · rw [emit_length]
    exact h.known b hb

-- ── The start ────

/-- What the start leaves: the code of the bounds, the comparison behind it, and for a
    walk downwards the block that finds the first value. -/
structure Start (s : RangeFor) (w : ForWalk) (l₁ l₂ l₃ l₄ : Lowerer) (lowRead highRead : IrOperand)
    (first : Nat) : Prop where
  low : Lowers l₁ l₂
  lowType : lowRead.type = s.type
  high : Lowers (l₂.emit [s.type] [lowCopy s.type lowRead l₂.temps.length]) l₃
  block : ∀ b, l₄.block b = l₃.block b ++
    (if b = l₃.b then enterInsts (w.started s.type lowRead l₂.temps.length l₃.temps.length)
        highRead first
      else if w.down ∧ b = first then
        firstInsts (w.started s.type lowRead l₂.temps.length l₃.temps.length) (l₃.temps.length + 3)
      else [])
  length : l₄.blocks.length = l₃.blocks.length
  temps : ∃ more, l₄.temps = l₃.temps ++ s.type :: s.type :: .i8 :: more ∧
    (w.down → more.length = 5)
  symbols : l₄.symbols = l₃.symbols
  known : l₄.known = l₁.known

/-- The part before the loop lowers both bounds once. -/
theorem start_exists {s : RangeFor} (hs : s.Promises) (w : ForWalk) {l : Lowerer}
    (hl : l.WellFormed) :
    ∃ l₂ l₃ l₄ lowRead highRead,
      let first := if w.down then l.blocks.length else w.body
      rangeStart s w l = ((w.started s.type lowRead l₂.temps.length l₃.temps.length,
        ⟨lowRead, (l₂.b, (l₂.block l₂.b).length), highRead, (l₃.b, (l₃.block l₃.b).length),
          first⟩), l₄) ∧
      Start s w (if w.down then l.newBlock else l) l₂ l₃ l₄ lowRead highRead first := by
  -- where the bounds are lowered
  obtain ⟨l₁, hl₁, hopen⟩ : ∃ l₁ : Lowerer, l₁.WellFormed ∧
      l₁ = if w.down then l.newBlock else l := by
    refine ⟨_, ?_, rfl⟩
    split
    · exact hl.newBlock
    · exact hl
  obtain ⟨lowRead, l₂, hlowRun⟩ : ∃ a l', s.low l₁ = (a, l') := ⟨_, _, rfl⟩
  obtain ⟨highRead, l₃, hhighRun⟩ :
      ∃ a l', s.high (l₂.emit [s.type] [lowCopy s.type lowRead l₂.temps.length]) = (a, l') :=
    ⟨_, _, rfl⟩
  have hlow : Lowers l₁ l₂ := by
    have h := hs.low l₁ hl₁
    rwa [hlowRun] at h
  have htype : lowRead.type = s.type := by
    have h := hs.lowType l₁ hl₁
    rwa [hlowRun] at h
  have hhigh : Lowers (l₂.emit [s.type] [lowCopy s.type lowRead l₂.temps.length]) l₃ := by
    have h := hs.high _ ((hlow.wellFormed hl₁).emit [s.type]
      [lowCopy s.type lowRead l₂.temps.length])
    rwa [hhighRun] at h
  have hknown : l₃.known = l₁.known := hhigh.known.trans hlow.known
  have hin := hhigh.here.1
  cases hdown : w.down with
  | false =>
    rw [hdown, if_neg (by decide)] at hopen
    subst hopen
    refine ⟨_, _, _, _, _, rangeStart_up hdown hlowRun hhighRun, hlow, htype, hhigh,
      fun b => ?_, emit_length _ _ _, ⟨[], rfl, fun h => ?_⟩, rfl, hknown⟩
    · rw [emit_block _ _ _ _ hin, hdown]
      split <;> simp_all
    · cases hdown.symm.trans h
  | true =>
    rw [hdown, if_pos rfl] at hopen
    subst hopen
    have hlen := hlow.length
    have hlen' := hhigh.length
    have hne : l.blocks.length ≠ l₃.b := by
      have h₁ := hl.here
      have h₂ := hlow.here.2
      have h₃ := hhigh.here.2
      rw [newBlock_length] at hlen h₂
      rw [newBlock_b] at h₂
      rw [emit_b, emit_length] at h₃
      omega
    rw [newBlock_length] at hlen
    rw [emit_length] at hlen'
    refine ⟨_, _, _, _, _, rangeStart_down hdown hlowRun hhighRun, hlow, htype, hhigh,
      fun b => ?_, ?_, ⟨List.replicate 5 s.type, ?_, fun _ => length_replicate⟩, rfl,
      hknown⟩
    · have hat : ∀ types insts, ((l₃.emit types insts).at l.blocks.length).b <
          ((l₃.emit types insts).at l.blocks.length).blocks.length := by
        intro types insts
        rw [at_b, at_length, emit_length]
        omega
      rw [emit_block _ _ _ _ (hat _ _), at_b, at_block, emit_block _ _ _ _ hin]
      by_cases hb : b = l.blocks.length
      · subst hb
        simp [hne, hdown, ForWalk.started]
      · have hno : ¬ (w.down = true ∧ b = l.blocks.length) := fun h => hb h.2
        simp only [if_neg hb, if_true]
        split <;> simp
    · rw [emit_length, at_length, emit_length]
    · rw [emit_temps, at_temps, emit_temps, append_assoc]
      rfl

-- ── The body ────

/-- An instruction that goes nowhere and writes at most temporary `t`. -/
def Binds (t : Nat) (inst : IrInst) : Prop :=
  irTargets inst = [] ∧ (inst.result = irNoResult ∨ inst.result = t)

theorem named_exists {l : Lowerer} (hl : l.b < l.blocks.length) (name : Option LoopName)
    (type : IrType) (counter : Nat) :
    ∃ binds, (∀ inst ∈ binds, Binds l.temps.length inst) ∧
      (∀ b, (l.named name type counter).block b = l.block b ++ (if b = l.b then binds else [])) ∧
      (l.named name type counter).b = l.b ∧
      (l.named name type counter).blocks.length = l.blocks.length ∧
      (l.named name type counter).known = l.known ∧
      l.temps <+: (l.named name type counter).temps ∧
      ∀ t, (l.named name type counter).symbols t = true → l.symbols t = true ∨
        (t = l.temps.length ∧ t < (l.named name type counter).temps.length) := by
  have hblock : ∀ types insts b, (l.emit types insts).block b =
      l.block b ++ (if b = l.b then insts else []) := by
    intro types insts b
    rw [emit_block _ _ _ _ hl]
    split <;> simp
  rcases name with _ | ⟨taken, slot⟩
  · exact ⟨[], by simp, fun b => by simp [Lowerer.named], rfl, rfl, rfl, prefix_rfl,
      fun t ht => .inl ht⟩
  · cases taken with
    | true =>
      refine ⟨_, ?_, hblock [] _, rfl, emit_length l [] _, rfl, prefix_append _ _,
        fun t ht => .inl ht⟩
      simp [Binds, irTargets]
    | false =>
      refine ⟨_, ?_, hblock [type] _, rfl, emit_length l [type] _, rfl, prefix_append _ _,
        fun t ht => ?_⟩
      · simp [Binds, irTargets]
      · simp only [Lowerer.named, Bool.false_eq_true, if_false, Function.update_apply] at ht ⊢
        split at ht
        · rename_i heq
          exact .inr ⟨heq, by simp [heq]⟩
        · exact .inl ht

/-- **What the lowering of a range leaves**, piece by piece.  `l₁` is where the low bound is
    lowered, `l₂` what comes of it, `l₃` what comes of the high bound, `l₄` of the start, `l₅`
    of the name, `l₆` of the body, and `l'` of the step. -/
structure RangeBuilt (s : RangeFor) (l : Lowerer) (r : LoweredFor) (l' l₁ l₂ l₃ l₄ l₅ l₆ : Lowerer)
    (lowRead highRead : IrOperand) (first : Nat) (goesOn : Bool) (binds : List IrInst)
    (w₀ : ForWalk) : Prop where
  walk₀ : w₀ = startWalk s l.blocks.length (l.blocks.length + 1) (l.blocks.length + 2)
  first_eq : first = if w₀.down then l.blocks.length + 3 else l.blocks.length
  walk : r.walk = w₀.started s.type lowRead l₂.temps.length l₃.temps.length
  places : r.places = ⟨lowRead, (l₂.b, (l₂.block l₂.b).length), highRead,
    (l₃.b, (l₃.block l₃.b).length), first⟩
  advance : r.advance = l₆.blocks.length
  start : Start s w₀ l₁ l₂ l₃ l₄ lowRead highRead first
  formed : l₁.WellFormed
  here₁ : l₁.b = l.b
  length₁ : l₁.blocks.length = if w₀.down then l.blocks.length + 4 else l.blocks.length + 3
  known₁ : l₁.known = l.known
  empty₁ : ∀ b, l.blocks.length ≤ b → l₁.block b = []
  name_binds : ∀ inst ∈ binds, Binds l₄.temps.length inst
  block₅ : ∀ b, l₅.block b = l₄.block b ++ (if b = l.blocks.length then binds else [])
  here₅ : l₅.b = l.blocks.length
  length₅ : l₅.blocks.length = l₄.blocks.length
  known₅ : l₅.known = (l.blocks.length + 1) :: (l.blocks.length + 2) :: l.known
  temps₅ : l₄.temps <+: l₅.temps
  symbols₅ : ∀ t, l₅.symbols t = true → l₄.symbols t = true ∨
    (t = l₄.temps.length ∧ t < l₅.temps.length)
  body : Lowers l₅ l₆
  block : ∀ b, l'.block b = l₆.block b ++ (if b = l₆.b ∧ goesOn then
      [{ op := .jump, type := .void, a := irBlockOp (l.blocks.length + 1) }] else []) ++
    (if b = l.blocks.length + 1 then
      stepInsts r.walk l₆.temps.length l₆.blocks.length
    else if b = l₆.blocks.length then advanceInsts r.walk (l₆.temps.length + 2) else [])
  length : l'.blocks.length = l₆.blocks.length + 1
  temps : l'.temps.length = l₆.temps.length + 3

/-- Where the low bound is lowered: behind the blocks of the loop. -/
theorem opened_eq (down : Bool) {l l₁ : Lowerer} (hl : l.WellFormed)
    (hl₁ : l₁ = if down then l.newBlock.newBlock.newBlock.newBlock
      else l.newBlock.newBlock.newBlock) :
    l₁.WellFormed ∧ l₁.b = l.b ∧ l₁.known = l.known ∧
      l₁.blocks.length = (if down then l.blocks.length + 4 else l.blocks.length + 3) ∧
      ∀ b, l.blocks.length ≤ b → l₁.block b = [] := by
  have hl₀ := hl.newBlock.newBlock.newBlock
  rw [hl₁]
  refine ⟨?_, ?_, ?_, ?_, fun b hb => ?_⟩
  · split
    · exact hl₀.newBlock
    · exact hl₀
  · split <;> rfl
  · split <;> rfl
  · split <;> simp
  · have hnone : l.block b = [] := by
      simp [Lowerer.block, getElem?_eq_none hb]
    split <;> simp [hnone]

/-- The code behind the body: a jump to the step, where the body goes on. -/
theorem closed_eq {l : Lowerer} (hin : l.b < l.blocks.length) (goesOn : Bool) (target : Nat)
    (known : List Nat) : let l' := ((l.closed goesOn target).knows known).at target
    l'.temps = l.temps ∧ l'.blocks.length = l.blocks.length ∧
      ∀ b, l'.block b = l.block b ++ (if b = l.b ∧ goesOn then
        [{ op := .jump, type := .void, a := irBlockOp target }] else []) := by
  refine ⟨?_, ?_, fun b => ?_⟩
  · cases goesOn <;> simp [Lowerer.closed, Lowerer.knows]
  · cases goesOn <;> simp [Lowerer.closed, Lowerer.knows]
  · rw [at_block]
    cases goesOn with
    | false => simp [Lowerer.closed, Lowerer.knows, Lowerer.block]
    | true =>
      show (l.emit [] _).block b = _
      rw [emit_block _ _ _ _ hin]
      split <;> simp_all

/-- What `lower_for` builds is there for every range: the states between its parts, each
    from the promises of what the parts lower. -/
theorem rangeBuilt_exists {s : RangeFor} (hs : s.Promises) {l : Lowerer} (hl : l.WellFormed) :
    ∃ l₁ l₂ l₃ l₄ l₅ l₆ lowRead highRead first goesOn binds w₀,
      RangeBuilt s l (lowerFor s l).1 (lowerFor s l).2 l₁ l₂ l₃ l₄ l₅ l₆ lowRead highRead first goesOn
        binds w₀ := by
  have hl₀ := hl.newBlock.newBlock.newBlock
  obtain ⟨w₀, hw₀⟩ : ∃ w, w = startWalk s l.blocks.length (l.blocks.length + 1)
    (l.blocks.length + 1 + 1) := ⟨_, rfl⟩
  obtain ⟨l₂, l₃, l₄, lowRead, highRead, hrun, hstart⟩ := start_exists hs w₀ hl₀
  obtain ⟨first, hfirst⟩ : ∃ first, first = if w₀.down then
    l.newBlock.newBlock.newBlock.blocks.length else w₀.body := ⟨_, rfl⟩
  rw [← hfirst] at hrun hstart
  obtain ⟨more, hmore, -⟩ := hstart.temps
  have hcounter : ∀ temps, l₄.temps <+: temps →
      temps.getD (l₃.temps.length + 1) .void = s.type ∧ l₃.temps.length + 1 < temps.length := by
    intro temps htemps
    obtain ⟨rest, rfl⟩ := htemps
    rw [hmore]
    constructor
    · simp
    · simp
  -- where the low bound is lowered
  obtain ⟨l₁, hl₁⟩ : ∃ l₁ : Lowerer, l₁ = if w₀.down then
    l.newBlock.newBlock.newBlock.newBlock else l.newBlock.newBlock.newBlock := ⟨_, rfl⟩
  rw [← hl₁] at hstart
  obtain ⟨hformed₁, hhere₁, hknown₁, hlen₁, hempty⟩ := opened_eq w₀.down hl hl₁
  have hformed₃ := hstart.high.wellFormed ((hstart.low.wellFormed hformed₁).emit _ _)
  have hlen₄ : l.blocks.length + 3 ≤ l₄.blocks.length := by
    have h₂ := hstart.low.length
    have h₃ := hstart.high.length
    have h₄ := hstart.length
    rw [emit_length] at h₃
    split at hlen₁ <;> omega
  -- the body is lowered behind the name
  obtain ⟨l₅, hl₅⟩ : ∃ l₅, l₅ = ((l₄.knows ((l.blocks.length + 1) :: (l.blocks.length + 1 + 1) ::
    l₄.known)).at l.blocks.length).named s.name s.type (l₃.temps.length + 1) := ⟨_, rfl⟩
  have hhere : ((l₄.knows ((l.blocks.length + 1) :: (l.blocks.length + 1 + 1) ::
      l₄.known)).at l.blocks.length).b < l₄.blocks.length := by
    rw [at_b]
    omega
  obtain ⟨binds, hbinds, hblock₅, hb₅, hlen₅, hknown₅, htemps₅, hsymbols₅⟩ :=
    named_exists hhere s.name s.type (l₃.temps.length + 1)
  rw [← hl₅] at hblock₅ hb₅ hlen₅ hknown₅ htemps₅ hsymbols₅
  rw [at_known, show (l₄.knows _).known = _ from rfl, hstart.known, hknown₁] at hknown₅
  have hformed₅ : l₅.WellFormed := by
    refine ⟨?_, fun t ht => ?_, fun b hb => ?_⟩
    · rw [hb₅, hlen₅]
      exact hhere
    · rcases hsymbols₅ t ht with hold | ⟨-, hnew⟩
      · have hold' : l₃.symbols t = true := by
          rw [← hstart.symbols]
          exact hold
        have h₃ := hformed₃.symbols t hold'
        have h₅ : l₄.temps.length ≤ l₅.temps.length := htemps₅.length_le
        rw [hmore, length_append] at h₅
        omega
      · exact hnew
    · rw [hknown₅] at hb
      rw [hlen₅]
      show b < l₄.blocks.length
      rcases mem_cons.mp hb with rfl | hb
      · omega
      · rcases mem_cons.mp hb with rfl | hb
        · omega
        · have := hl.known b hb
          omega
  obtain ⟨goesOn, l₆, hbodyRun⟩ : ∃ a l', s.body l₅ = (a, l') := ⟨_, _, rfl⟩
  have hbody : Lowers l₅ l₆ := by
    have h := hs.body l₅ hformed₅
    rwa [hbodyRun] at h
  -- the step
  obtain ⟨w, hw⟩ : ∃ w, w = w₀.started s.type lowRead l₂.temps.length l₃.temps.length := ⟨_, rfl⟩
  have hwcounter : w.counter = l₃.temps.length + 1 := by rw [hw]; rfl
  have hwtype : w.counterType = s.type := by rw [hw]; rfl
  obtain ⟨l₈, hl₈⟩ : ∃ l₈, l₈ = ((l₆.closed goesOn (l.blocks.length + 1)).knows l₄.known).at
    (l.blocks.length + 1) := ⟨_, rfl⟩
  obtain ⟨htemps₈, hlen₈, hblock₈⟩ := closed_eq hbody.here.1 goesOn (l.blocks.length + 1) l₄.known
  rw [← hl₈] at htemps₈ hlen₈ hblock₈
  have hb₈ : l₈.b = l.blocks.length + 1 := by rw [hl₈]; rfl
  have hlen₆ := hbody.length
  rw [hlen₅] at hlen₆
  have hlen₆' : l₄.blocks.length ≤ l₆.blocks.length := hlen₆
  obtain ⟨hget, hin⟩ := hcounter l₆.temps (htemps₅.trans hbody.temps)
  obtain ⟨l₉, hl₉⟩ : ∃ l₉, l₉ = ((l₈.newBlock.emit [w.counterType, .i8]
      (stepInsts w l₈.temps.length l₈.blocks.length)).at l₈.blocks.length).emit
        [w.counterType] (advanceInsts w (l₈.temps.length + 2)) := ⟨_, rfl⟩
  have hstep : rangeStep (w₀.started s.type lowRead l₂.temps.length l₃.temps.length)
      (((l₆.closed goesOn (l.blocks.length + 1)).knows l₄.known).at (l.blocks.length + 1)) =
      (l₈.blocks.length, l₉) := by
    rw [← hw, ← hl₈, hl₉]
    exact rangeStep_eq (by rw [htemps₈, hwcounter, hget, hwtype])
      (by rw [htemps₈, hwcounter]; exact hin)
  have hfor := lowerFor_eq rfl (by rw [← hw₀]; exact hrun) (hcounter l₄.temps prefix_rfl).1
    (by rw [← hbodyRun, hl₅]; rfl) hstep
  have hnew : l₈.blocks.length < ((l₈.newBlock.emit [w.counterType, .i8]
      (stepInsts w l₈.temps.length l₈.blocks.length)).at l₈.blocks.length).blocks.length := by
    rw [at_length, emit_length, newBlock_length]
    omega
  refine ⟨l₁, l₂, l₃, l₄, l₅, l₆, lowRead, highRead, first, goesOn, binds, w₀, ?_⟩
  rw [hfor]
  refine { walk₀ := hw₀, first_eq := ?_, walk := rfl, places := rfl, advance := hlen₈,
           start := hstart, formed := hformed₁, here₁ := hhere₁, length₁ := hlen₁,
           known₁ := hknown₁, empty₁ := hempty, name_binds := hbinds, block₅ := hblock₅,
           here₅ := hb₅, length₅ := hlen₅, known₅ := hknown₅, temps₅ := htemps₅,
           symbols₅ := hsymbols₅, body := hbody, block := ?_, length := ?_, temps := ?_ }
  · rw [hfirst, hw₀]
    simp [startWalk]
  · intro b
    rw [at_block, hl₉, emit_block _ _ _ _ hnew, at_b, at_block,
      emit_block _ _ _ _ (by rw [newBlock_b, newBlock_length, hb₈, hlen₈]; omega), newBlock_b,
      newBlock_block, hblock₈, hb₈, hlen₈, htemps₈, ← hw]
    by_cases hstepBlock : b = l.blocks.length + 1
    · have hne : b ≠ l₆.blocks.length := by omega
      rw [if_neg hne, if_pos hstepBlock, if_pos hstepBlock]
    · split <;> simp
  · rw [at_length, hl₉, emit_length, at_length, emit_length, newBlock_length, hlen₈]
  · rw [at_temps, hl₉, emit_temps, at_temps, emit_temps, newBlock_temps, htemps₈]
    simp

-- ── The blocks ────

theorem block_of_length_le {l : Lowerer} {b : Nat} (h : l.blocks.length ≤ b) : l.block b = [] := by
  simp [Lowerer.block, getElem?_eq_none h]

theorem restAt_place {l : Lowerer} (h : l.blocks ≠ []) (p : Nat × Nat) :
    restAt l.code (l.place p) = (l.block p.1).drop p.2 := by
  obtain ⟨b, p⟩ := p
  obtain ⟨entry, rest, hblocks⟩ := exists_cons_of_ne_nil h
  cases b with
  | zero | succ b => simp [restAt, Lowerer.place, Lowerer.code, Lowerer.block, hblocks]

namespace RangeBuilt

variable {s : RangeFor} {l l' l₁ l₂ l₃ l₄ l₅ l₆ final : Lowerer} {r : LoweredFor}
  {lowRead highRead : IrOperand} {first : Nat} {goesOn : Bool} {binds : List IrInst}
  {w₀ : ForWalk}
  (h : RangeBuilt s l r l' l₁ l₂ l₃ l₄ l₅ l₆ lowRead highRead first goesOn binds w₀)

include h

theorem order :
    (l₁.blocks.length = l.blocks.length + 3 ∧ w₀.down = false ∧ first = l.blocks.length ∨
      l₁.blocks.length = l.blocks.length + 4 ∧ w₀.down = true ∧ first = l.blocks.length + 3) ∧
    l₁.blocks.length ≤ l₂.blocks.length ∧ l₂.blocks.length ≤ l₃.blocks.length ∧
    l₃.blocks.length = l₅.blocks.length ∧ l₃.blocks.length ≤ l₆.blocks.length ∧
    (l₂.b = l.b ∨ l₁.blocks.length ≤ l₂.b) ∧ l₂.b < l₂.blocks.length ∧
    (l₃.b = l₂.b ∨ l₂.blocks.length ≤ l₃.b) ∧ l₃.b < l₃.blocks.length ∧
    (l₆.b = l.blocks.length ∨ l₃.blocks.length ≤ l₆.b) ∧ l₆.b < l₆.blocks.length := by
  have h₁ := h.length₁
  have hfirst := h.first_eq
  have hlow := h.start.low
  have hhigh := h.start.high
  have hbody := h.body
  have e₂ := hlow.length
  have e₃ := hhigh.length
  have e₆ := hbody.length
  have b₂ := hlow.here
  have b₃ := hhigh.here
  have b₆ := hbody.here
  have e₄ := h.start.length
  have e₅ := h.length₅
  rw [emit_length] at e₃ b₃
  rw [h.here₁] at b₂
  rw [h.here₅] at b₆
  refine ⟨?_, e₂, e₃, by omega, by omega, b₂.2, b₂.1, b₃.2, b₃.1, by omega, b₆.1⟩
  cases hdown : w₀.down with
  | false =>
    rw [hdown, if_neg (by decide)] at h₁ hfirst
    exact .inl ⟨h₁, rfl, hfirst⟩
  | true =>
    rw [hdown, if_pos rfl] at h₁ hfirst
    exact .inr ⟨h₁, rfl, hfirst⟩

theorem block_empty (hl : l.WellFormed) {b : Nat} (hb : l.blocks.length ≤ b)
    (hb' : b < l₁.blocks.length) : l₃.block b = [] := by
  obtain ⟨-, e₂, e₃, -, -, b₂, -, b₃, -, -, -⟩ := h.order
  have hhere := hl.here
  have hne₁ : b ≠ l₁.b := by rw [h.here₁]; omega
  have hne₂ : b ≠ l₂.b := by omega
  rw [h.start.high.block_kept (by rw [emit_length]; omega) (by exact hne₂),
    emit_block _ _ _ _ h.start.low.here.1, if_neg hne₂, h.start.low.block_kept hb' hne₁,
    h.empty₁ b hb]

theorem block_before {b : Nat} (hb : b < l₃.blocks.length) (hbody : b ≠ l.blocks.length)
    (hstep : b ≠ l.blocks.length + 1) :
    l'.block b = l₃.block b ++ (if b = l₃.b then enterInsts r.walk highRead first
        else if w₀.down ∧ b = first then firstInsts r.walk (l₃.temps.length + 3) else []) := by
  obtain ⟨-, -, -, e₅, e₆, -, -, -, -, b₆, -⟩ := h.order
  have hne₅ : b ≠ l₅.b := by rw [h.here₅]; exact hbody
  have hne₆ : ¬ (b = l₆.b ∧ goesOn = true) := by omega
  have hlast : b ≠ l₆.blocks.length := by omega
  rw [h.block, if_neg hne₆, if_neg hstep, if_neg hlast, append_nil, append_nil,
    h.body.block_kept (by omega) hne₅, h.block₅, if_neg hbody, append_nil, h.start.block,
    h.walk]

theorem block_body (hl : l.WellFormed) :
    ∃ more, (∀ inst ∈ more, Foreign l₅ l₆ inst) ∧ l'.block l.blocks.length = binds ++ more ++
      (if l.blocks.length = l₆.b ∧ goesOn then
        [{ op := .jump, type := .void, a := irBlockOp (l.blocks.length + 1) }] else []) := by
  obtain ⟨hdown, e₂, e₃, -, e₆, b₂, -, b₃, -, -, -⟩ := h.order
  have hhere := hl.here
  obtain ⟨more, hmore, hforeign⟩ := h.body.block_here
  rw [h.here₅] at hmore
  refine ⟨more, hforeign, ?_⟩
  have hne₃ : l.blocks.length ≠ l₃.b := by omega
  have hnofirst : ¬ (w₀.down = true ∧ l.blocks.length = first) := by
    rintro ⟨hd, hf⟩
    rcases hdown with ⟨-, hno, -⟩ | ⟨-, -, hyes⟩
    · rw [hd] at hno
      cases hno
    · omega
  rw [h.block, if_neg (by omega : l.blocks.length ≠ l.blocks.length + 1),
    if_neg (by omega : l.blocks.length ≠ l₆.blocks.length), append_nil, hmore, h.block₅,
    if_pos rfl, h.start.block, if_neg hne₃, if_neg hnofirst, append_nil,
    h.block_empty hl le_rfl (by omega), nil_append]

theorem block_inner {b : Nat} (hb : l₃.blocks.length ≤ b) (hb' : b < l₆.blocks.length) :
    (∀ inst ∈ l₆.block b, Foreign l₅ l₆ inst) ∧ l'.block b = l₆.block b ++
      (if b = l₆.b ∧ goesOn then
        [{ op := .jump, type := .void, a := irBlockOp (l.blocks.length + 1) }] else []) := by
  obtain ⟨hdown, e₂, e₃, e₅, -⟩ := h.order
  refine ⟨h.body.block_fresh (by omega), ?_⟩
  rw [h.block, if_neg (by omega : b ≠ l.blocks.length + 1),
    if_neg (by omega : b ≠ l₆.blocks.length), append_nil]

theorem block_step (hl : l.WellFormed) :
    l'.block (l.blocks.length + 1) = stepInsts r.walk l₆.temps.length l₆.blocks.length := by
  obtain ⟨hdown, e₂, e₃, e₅, e₆, b₂, -, b₃, -, b₆, -⟩ := h.order
  have hhere := hl.here
  have hne₃ : l.blocks.length + 1 ≠ l₃.b := by omega
  have hnofirst : ¬ (w₀.down = true ∧ l.blocks.length + 1 = first) := by
    rintro ⟨-, hf⟩
    omega
  have hne₆ : ¬ (l.blocks.length + 1 = l₆.b ∧ goesOn = true) := by omega
  rw [h.block, if_neg hne₆, if_pos rfl, append_nil,
    h.body.block_kept (by omega) (by rw [h.here₅]; omega), h.block₅, if_neg (by omega),
    h.start.block, if_neg hne₃, if_neg hnofirst, h.block_empty hl (by omega) (by omega)]
  rfl

theorem block_advance : l'.block l₆.blocks.length = advanceInsts r.walk (l₆.temps.length + 2) := by
  obtain ⟨hdown, e₂, e₃, e₅, e₆, -, -, -, -, -, b₆⟩ := h.order
  have hne₆ : ¬ (l₆.blocks.length = l₆.b ∧ goesOn = true) := by omega
  rw [h.block, if_neg hne₆, if_neg (by omega), if_pos rfl, block_of_length_le le_rfl]
  rfl

/-- The temporaries of the bounds and of the counter are no variables. -/
theorem not_symbols : (l₂.symbols l₂.temps.length = false) ∧ l₂.temps.length < l₃.temps.length ∧
    l₃.temps.length + 2 < l₄.temps.length ∧ l₄.temps.length ≤ l₅.temps.length ∧
    l₅.temps.length ≤ l₆.temps.length ∧
    ∀ t, r.walk.keeps t → t < l₅.temps.length ∧ l₅.symbols t = false := by
  have hformed₂ := h.start.low.wellFormed h.formed
  have hformed₃ := h.start.high.wellFormed (hformed₂.emit _ _)
  obtain ⟨more, hmore, -⟩ := h.start.temps
  have htemps₃ := h.start.high.temps.length_le
  have htemps₅ := h.temps₅.length_le
  have hlen₄ := congrArg List.length hmore
  rw [emit_temps, length_append, length_singleton] at htemps₃
  simp only [length_append, length_cons] at hlen₄
  have hsym₂ : l₂.symbols l₂.temps.length = false := by
    by_contra hsym
    exact absurd (hformed₂.symbols _ (by simpa using hsym)) (lt_irrefl _)
  -- a temporary that is no variable behind the high bound stays none until the body
  have hkept : ∀ t, t < l₄.temps.length → l₃.symbols t = false → l₅.symbols t = false := by
    intro t ht hno
    by_contra hsym
    rcases h.symbols₅ t (by simpa using hsym) with hold | ⟨heq, -⟩
    · rw [h.start.symbols, hno] at hold
      cases hold
    · omega
  have hnone : ∀ t, l₃.temps.length ≤ t → l₃.symbols t = false := by
    intro t ht
    by_contra hsym
    have := hformed₃.symbols t (by simpa using hsym)
    omega
  refine ⟨hsym₂, by omega, by omega, htemps₅, h.body.temps.length_le, ?_⟩
  intro t ht
  rw [h.walk] at ht
  rcases ht with rfl | rfl | rfl
  · refine ⟨?_, hkept _ ?_ ?_⟩
    · show l₂.temps.length < _
      omega
    · show l₂.temps.length < _
      omega
    · refine h.start.high.not_symbol ?_ hsym₂
      rw [emit_temps, length_append, length_singleton]
      exact Nat.lt_succ_self _
  · refine ⟨?_, hkept _ ?_ (hnone _ ?_)⟩
    · show l₃.temps.length < _
      omega
    · show l₃.temps.length < _
      omega
    · exact le_rfl
  · refine ⟨?_, hkept _ ?_ (hnone _ ?_)⟩
    · show l₃.temps.length + 1 < _
      omega
    · show l₃.temps.length + 1 < _
      omega
    · exact Nat.le_succ _

theorem walk_facts : r.walk.body = l.blocks.length ∧ r.walk.step = l.blocks.length + 1 ∧
    r.walk.exit = l.blocks.length + 2 ∧ r.walk.low = ⟨.temp, s.type, l₂.temps.length⟩ ∧
    r.walk.high = ⟨.temp, s.type, l₃.temps.length⟩ ∧ r.walk.counter = l₃.temps.length + 1 ∧
    r.walk.counterType = s.type ∧ r.walk.down = w₀.down := by
  rw [h.walk, h.walk₀]
  exact ⟨rfl, rfl, rfl, rfl, rfl, rfl, rfl, rfl⟩

section Code

variable (hfinal : Finished l l' final (l.blocks.length + 2))

include hfinal

theorem final_block {b : Nat} (hb : b ≤ l₆.blocks.length)
    (hown : b = l.b ∨ l.blocks.length ≤ b) (hexit : b ≠ l.blocks.length + 2) :
    final.block b = l'.block b := by
  have hkept := hfinal.kept b (by rw [h.length]; omega) hown hexit
  simp only [Lowerer.block, getD_eq_getElem?_getD, hkept]

variable (hl : l.WellFormed)

include hl

theorem rest_block {b : Nat} (hb : b ≤ l₆.blocks.length) (hown : l.blocks.length ≤ b)
    (hexit : b ≠ l.blocks.length + 2) : restAt final.code (b, 0) = l'.block b := by
  have hpos := hl.here
  have hplace : final.place (b, 0) = (b, 0) := by
    simp [Lowerer.place]
    omega
  rw [← hplace, restAt_place hfinal.some, h.final_block hfinal hb (.inr hown) hexit]
  rfl

theorem rest_enter : restAt final.code (final.place (l₃.b, (l₃.block l₃.b).length)) =
    enterInsts r.walk highRead first := by
  obtain ⟨hdown, e₂, e₃, -, e₆, b₂, -, b₃, b₃', -, -⟩ := h.order
  have hhere := hl.here
  rw [restAt_place hfinal.some, h.final_block hfinal (by omega) (by omega) (by omega),
    h.block_before b₃' (by omega) (by omega), if_pos rfl]
  exact drop_left

/-- The code of the high bound in the current block, and in its own blocks. -/
theorem reading {b p : Nat} {before insts : List IrInst}
    (hb : b = l₂.b ∨ (l₂.blocks.length ≤ b ∧ b < l₃.blocks.length))
    (hblock : l₃.block b = before ++ insts) (hp : p = before.length)
    (hforeign : ∀ inst ∈ insts,
      Foreign (l₂.emit [s.type] [lowCopy s.type lowRead l₂.temps.length]) l₃ inst) :
    Reading final.code r.walk (r.places.placed final) (· ∈ l.known)
      (fun b => l₂.blocks.length ≤ b ∧ b < l₃.blocks.length) (final.place (b, p)) insts
      (if b = l₃.b then enterInsts r.walk highRead first else []) := by
  obtain ⟨hdown, e₂, e₃, -, e₆, b₂, b₂', b₃, b₃', -, -⟩ := h.order
  obtain ⟨-, -, -, hlowEq, -⟩ := h.walk_facts
  obtain ⟨hsym, -⟩ := h.not_symbols
  have hhere := hl.here
  have hnofirst : ¬ (w₀.down = true ∧ b = first) := by
    rintro ⟨-, hf⟩
    omega
  refine ⟨?_, fun inst hinst => ?_, ?_⟩
  · rw [restAt_place hfinal.some, h.final_block hfinal (by omega) (by omega) (by omega),
      h.block_before (by omega) (by omega) (by omega), if_neg hnofirst, hblock, hp,
      append_assoc, drop_left]
  · have hkept : ∀ t, t = r.walk.low.val →
        t < (l₂.emit [s.type] [lowCopy s.type lowRead l₂.temps.length]).temps.length ∧
          l₂.symbols t = false := by
      rintro t rfl
      rw [hlowEq, emit_temps, length_append, length_singleton]
      exact ⟨Nat.lt_succ_self _, hsym⟩
    have hapart : Apart (· = r.walk.low.val) _ inst := (hforeign inst hinst).apart hkept
    rw [emit_length, emit_known, h.start.low.known, h.known₁] at hapart
    exact hapart
  · rw [h.places]
    by_cases heq : b = l₃.b
    · refine .inl ⟨?_, if_pos heq⟩
      subst heq
      rw [hblock, hp]
      simp only [RangePlaces.placed, Lowerer.place, length_append]
      split
      · rw [Nat.add_assoc]
      · rfl
    · exact .inr ⟨fun he => heq he.symm, if_neg heq⟩

/-- The body writes no temporary of the loop, and comes back through the step. -/
theorem body_apart {b : Nat}
    (hb : b = r.walk.body ∨ (l₃.blocks.length ≤ b ∧ b < l₆.blocks.length)) :
    ∀ inst ∈ restAt final.code (b, 0), Apart r.walk.keeps
      (fun b => (l₃.blocks.length ≤ b ∧ b < l₆.blocks.length) ∨ b = r.walk.step ∨
        b = r.walk.exit ∨ b ∈ l.known) inst := by
  obtain ⟨hdown, e₂, e₃, e₅, e₆, b₂, b₂', b₃, b₃', -, -⟩ := h.order
  obtain ⟨hbodyEq, hstepEq, hexitEq, -⟩ := h.walk_facts
  obtain ⟨-, h₃, h₄, -, -, hkeeps⟩ := h.not_symbols
  have hforeign : ∀ inst, Foreign l₅ l₆ inst → Apart r.walk.keeps
      (fun b => (l₃.blocks.length ≤ b ∧ b < l₆.blocks.length) ∨ b = r.walk.step ∨
        b = r.walk.exit ∨ b ∈ l.known) inst := by
    intro inst hinst
    obtain ⟨hwrites, hjumps⟩ := hinst.apart hkeeps
    refine ⟨hwrites, fun b hb => ?_⟩
    rcases hjumps b hb with hin | hknown
    · exact .inl (by rw [e₅]; exact hin)
    · rw [h.known₅] at hknown
      rw [hstepEq, hexitEq]
      simpa using Or.inr hknown
  have hjump : ∀ inst, inst ∈ (if b = l₆.b ∧ goesOn then
      [({ op := .jump, type := .void, a := irBlockOp (l.blocks.length + 1) } : IrInst)] else []) →
      Apart r.walk.keeps (fun b => (l₃.blocks.length ≤ b ∧ b < l₆.blocks.length) ∨
        b = r.walk.step ∨ b = r.walk.exit ∨ b ∈ l.known) inst := by
    intro inst hinst
    split at hinst
    · rw [mem_singleton.mp hinst]
      refine ⟨.inl rfl, fun b hb => .inr (.inl ?_)⟩
      rw [hstepEq]
      exact mem_singleton.mp hb
    · cases hinst
  intro inst hinst
  rcases hb with rfl | ⟨hb, hb'⟩
  · rw [hbodyEq] at hinst hjump
    rw [h.rest_block hfinal hl (by omega) le_rfl (by omega)] at hinst
    obtain ⟨more, hmore, hblock⟩ := h.block_body hl
    rw [hblock, append_assoc, mem_append, mem_append] at hinst
    rcases hinst with hinst | hinst | hinst
    · obtain ⟨htargets, hresult⟩ := h.name_binds inst hinst
      refine ⟨?_, by rw [htargets]; simp⟩
      rcases hresult with hno | heq
      · exact .inl hno
      · refine .inr fun hk => ?_
        rw [heq, h.walk] at hk
        rcases hk with hk | hk | hk
        · have hlow : l₄.temps.length = l₂.temps.length := hk
          omega
        · have hhigh : l₄.temps.length = l₃.temps.length := hk
          omega
        · have hcounter : l₄.temps.length = l₃.temps.length + 1 := hk
          omega
    · exact hforeign inst (hmore inst hinst)
    · exact hjump inst hinst
  · rw [h.rest_block hfinal hl (by omega) (by omega) (by omega)] at hinst
    obtain ⟨hmore, hblock⟩ := h.block_inner hb hb'
    rw [hblock, mem_append] at hinst
    rcases hinst with hinst | hinst
    · exact hforeign inst (hmore inst hinst)
    · exact hjump inst hinst

/-- **The code of a lowered range** is that of a range loop. -/
theorem code (htemps : l'.temps.length < irNoResult) :
    RangeCode final.code r.walk (r.places.placed final) r.advance (· ∈ l.known)
      (fun b => l₂.blocks.length ≤ b ∧ b < l₃.blocks.length)
      (fun b => l₃.blocks.length ≤ b ∧ b < l₆.blocks.length) := by
  obtain ⟨hdown, e₂, e₃, e₅, e₆, b₂, b₂', b₃, b₃', -, -⟩ := h.order
  obtain ⟨hbodyEq, hstepEq, hexitEq, hlowEq, hhighEq, hcounterEq, htypeEq, hdownEq⟩ := h.walk_facts
  obtain ⟨-, h₃, h₄, h₅, h₆, -⟩ := h.not_symbols
  obtain ⟨more, hmore, hmoreDown⟩ := h.start.temps
  have hlen₄ := congrArg List.length hmore
  simp only [length_append, length_cons] at hlen₄
  have hhere := hl.here
  have hlast := h.temps
  have hknown := hl.known
  have hadvance := h.advance
  have hfirst : w₀.down = true →
      first = l.blocks.length + 3 ∧ l₁.blocks.length = l.blocks.length + 4 := by
    intro hyes
    rcases hdown with ⟨-, hno, -⟩ | ⟨hlen, -, hfirst⟩
    · exact absurd (hyes.symm.trans hno) (by decide)
    · exact ⟨hfirst, hlen⟩
  refine { low_eq := ?_, high_eq := ?_, counter_eq := ?_, low_lt := ?_, first_eq := ?_,
           low := ?_, reads := ?_, enter := ?_, first := ?_,
           body := fun b => h.body_apart hfinal hl, step := ?_, bound := ?_,
           first_bound := ?_, apart := ?_, first_apart := ?_, inner_apart := ?_, new := ?_ }
  · rw [hlowEq, htypeEq]
  · rw [hhighEq, htypeEq]
  · rw [hcounterEq, hhighEq]
  · rw [hlowEq, hhighEq]
    exact h₃
  · intro hno
    rw [hdownEq] at hno
    rw [h.places, hbodyEq]
    rcases hdown with ⟨-, -, hfirst⟩ | ⟨-, hyes, -⟩
    · exact hfirst
    · exact absurd hyes hno
  · -- the copy of the low bound, and what follows it
    obtain ⟨insts, hinsts, hforeign⟩ := h.start.high.block_here
    rw [emit_b, emit_block _ _ _ _ b₂', if_pos rfl] at hinsts
    have hreading := h.reading hfinal hl (.inl rfl) hinsts rfl hforeign
    have hnofirst : ¬ (w₀.down = true ∧ l₂.b = first) := by
      rintro ⟨-, hf⟩
      omega
    have hnext : final.place (l₂.b, (l₂.block l₂.b ++
        [lowCopy s.type lowRead l₂.temps.length]).length) =
        ((r.places.placed final).lowAt.1, (r.places.placed final).lowAt.2 + 1) := by
      rw [h.places]
      simp only [RangePlaces.placed, Lowerer.place, length_append, length_singleton]
      split
      · rw [Nat.add_assoc]
      · rfl
    rw [hnext] at hreading
    refine ⟨_, _, ?_, hreading⟩
    rw [h.places, htypeEq, hlowEq]
    show restAt final.code (final.place (l₂.b, (l₂.block l₂.b).length)) = _
    rw [restAt_place hfinal.some, h.final_block hfinal (by omega) (by omega) (by omega),
      h.block_before (by omega) (by omega) (by omega), if_neg hnofirst, hinsts,
      append_assoc, append_assoc, drop_left]
    rfl
  · rintro b ⟨hb, hb'⟩
    have hreading := h.reading hfinal hl (.inr ⟨hb, hb'⟩) (nil_append _).symm rfl
      (h.start.high.block_fresh (by rw [emit_length]; exact hb))
    have hplace : final.place (b, ([] : List IrInst).length) = (b, 0) := by
      simp [Lowerer.place]
      omega
    rw [hplace] at hreading
    exact ⟨_, _, hreading⟩
  · rw [h.places]
    exact h.rest_enter hfinal hl
  · intro hyes
    rw [hdownEq] at hyes
    rw [h.places, hcounterEq]
    have hfirst := hfirst hyes
    show restAt final.code (first, 0) = _
    rw [h.rest_block hfinal hl (by omega) (by omega) (by omega),
      h.block_before (by omega) (by omega) (by omega), if_neg (by omega), if_pos ⟨hyes, rfl⟩,
      h.block_empty hl (by omega) (by omega)]
    rfl
  · refine ⟨l₆.temps.length, ?_, ?_, ?_, ?_⟩
    · omega
    · omega
    · rw [hstepEq, h.rest_block hfinal hl (by omega) (by omega) (by omega), h.block_step hl,
        h.advance]
    · rw [h.advance, h.rest_block hfinal hl le_rfl (by omega) (by omega), h.block_advance]
  · omega
  · intro hyes
    rw [hdownEq] at hyes
    have := hmoreDown hyes
    omega
  · omega
  · intro hyes
    rw [hdownEq] at hyes
    have hfirst := hfirst hyes
    rw [hbodyEq, hstepEq, hexitEq, h.advance, h.places]
    show first ≠ _ ∧ first ≠ _ ∧ first ≠ _ ∧ first ≠ _
    omega
  · rintro b ⟨hb, hb'⟩
    rw [hbodyEq, hstepEq, hexitEq, h.advance, h.places, hdownEq]
    refine ⟨by omega, by omega, by omega, by omega, fun hyes => ?_⟩
    show b ≠ first
    omega
  · intro b hb hin
    rw [hbodyEq, hstepEq, hexitEq, h.advance, h.places] at hb
    have hb' : b = l.blocks.length ∨ b = l.blocks.length + 1 ∨ b = l.blocks.length + 2 ∨
      b = l₆.blocks.length ∨ b = first := hb
    have := hknown b hin
    omega

end Code

end RangeBuilt

-- ── The walk ────

section Walk

variable {s : RangeFor}

theorem toBits64_natAbs {z : Int} (h0 : 0 ≤ z) (h : z < 2 ^ 64) : toBits64 z = z.natAbs := by
  have hz : z % 2 ^ 64 = z := Int.emod_eq_of_lt h0 h
  rw [toBits64, hz]
  omega

/-- The direction of the walk is the sign of the step, and `k` its magnitude. -/
theorem startWalk_step (hs : s.StepFits) (body step exit : Nat) :
    (startWalk s body step exit).down = decide (s.step < 0) ∧
      (startWalk s body step exit).k = s.step.natAbs ∧
      s.step.natAbs < 2 ^ irFoldBits s.type := by
  obtain ⟨-, -, hfits⟩ := hs
  have hpos : 1 ≤ irFoldBits s.type := irFoldBits_pos _
  have h64 : irFoldBits s.type ≤ 64 := irFoldBits_le _
  have hpow : (2 : Int) ^ (irFoldBits s.type - 1) ≤ 2 ^ 63 :=
    pow_le_pow_right₀ (by norm_num) (by omega)
  have hhalf : (2 : Int) ^ irFoldBits s.type = 2 * 2 ^ (irFoldBits s.type - 1) := by
    rw [← pow_succ', Nat.sub_add_cancel hpos]
  have hcast : (s.step.natAbs : Int) < 2 ^ irFoldBits s.type →
      s.step.natAbs < 2 ^ irFoldBits s.type := fun h => by exact_mod_cast h
  cases hsigned : s.isSigned with
  | true =>
    have hstep : s.step = s.stepValue := by rw [RangeFor.step, hsigned, if_pos rfl]
    rw [hsigned, if_pos rfl, hstep] at hfits
    rw [hstep] at hcast ⊢
    by_cases hneg : s.stepValue < 0
    · refine ⟨by simp [startWalk, hsigned], ?_, hcast (by omega)⟩
      simp only [startWalk, hsigned, hneg, decide_true, Bool.not_true, Bool.not_false,
        Bool.and_true, if_true]
      rw [toBits64_natAbs (by omega) (by omega), Int.natAbs_neg]
    · refine ⟨by simp [startWalk, hsigned], ?_, hcast (by omega)⟩
      simp only [startWalk, hneg]
      exact toBits64_natAbs (by omega) (by omega)
  | false =>
    have hstep : s.step = (toBits64 s.stepValue : Nat) := by
      rw [RangeFor.step, hsigned, if_neg (by decide)]
    rw [hsigned, if_neg (by decide)] at hfits
    refine ⟨?_, ?_, hcast (by rw [hstep] at hfits ⊢; exact hfits)⟩
    · rw [hstep]
      simp [startWalk, hsigned]
    · rw [hstep]
      simp [startWalk, hsigned]

/-- What the marks of the step promise about the low bound and the step. -/
theorem rangeWrap_marks {type : IrType} (hfixed : isFixedInt type = true) (isUnsigned : Bool)
    (k : Nat) (read : IrOperand) :
    (rangeWrap type isUnsigned k read &&& irNsw ≠ 0 →
      isUnsigned = false ∧ k < 2 ^ (irFoldBits type - 1)) ∧
    (rangeWrap type isUnsigned k read &&& irNuw ≠ 0 → isUnsigned = true ∨
      read.kind = .int ∧ 0 ≤ arithSigned read.val (irFoldBits type)) := by
  cases isUnsigned with
  | true =>
    have hno : rangeWrap type true k read &&& irNsw = 0 := by simp [rangeWrap, irNuw, irNsw]
    exact ⟨fun h => absurd hno h, fun _ => .inl rfl⟩
  | false =>
    simp only [rangeWrap, Bool.false_eq_true, hfixed, true_and, false_or]
    by_cases hk : k < 2 ^ (irFoldBits type - 1)
    · by_cases hread : read.kind = .int ∧ 0 ≤ arithSigned read.val (irFoldBits type)
      · exact ⟨fun _ => hk, fun _ => hread⟩
      · simp [hk, hread, irNsw, irNuw]
    · by_cases hread : read.kind = .int ∧ 0 ≤ arithSigned read.val (irFoldBits type)
      · simp [hk, hread, irNsw, irNuw]
      · simp [hk, hread]

/-- The value of a bound, as a value of the type of the range. -/
def RangeFor.boundValue (s : RangeFor) (fl : Floats) (env : Env) (m : Machine)
    (read : IrOperand) : Int :=
  reading (!s.isSigned) (irFoldBits s.type) (irFoldTrim s.type (operandValue fl env m read))

theorem RangeFor.boundValue_const (s : RangeFor) (hfixed : isFixedInt s.type = true)
    {fl : Floats} {env : Env} {m : Machine} {read : IrOperand} (hint : read.kind = .int)
    (htype : read.type = s.type) (h : 0 ≤ arithSigned read.val (irFoldBits s.type)) :
    0 ≤ s.boundValue fl env m read := by
  cases hsigned : s.isSigned with
  | false =>
    rw [boundValue, hsigned]
    exact Int.natCast_nonneg _
  | true =>
    have hvalue : operandValue fl env m read = read.val % 2 ^ irFoldBits s.type := by
      simp only [operandValue, hint]
      rw [htype]
      exact trimTo_fixed hfixed _
    rw [boundValue, hsigned, irFoldTrim, hvalue, Nat.mod_mod]
    show 0 ≤ signed (irFoldBits s.type) (read.val % 2 ^ irFoldBits s.type)
    rw [signed_mod]
    exact h

end Walk

-- ── The result ────

/-- **A lowered range loop visits exactly its values**, in every function that it is part of:
    `low`, `low + k`, … below `high` upwards, and the same values from the last one for a
    negative step, with what the bounds held where they were read. -/
theorem range_loop_visits {fl : Floats} {env : Env} {s : RangeFor} {l l' final : Lowerer}
    {r : LoweredFor} (hs : s.Promises) (hstep : s.StepFits) (hl : l.WellFormed)
    (hrun : lowerFor s l = (r, l')) (hfinal : Finished l l' final r.walk.exit)
    (htemps : l'.temps.length < irNoResult) {m m₀ : Machine}
    (hread : Along fl env final.code (fun b => b = r.places.first ∨ b = r.walk.exit ∨ b ∈ l.known)
      (final.place r.places.lowAt) m (final.place r.places.enterAt) m₀) :
    VisitsExactly fl env final.code r.walk (r.places.placed final) r.advance (· ∈ l.known) m₀
      ((walkValues (decide (s.step < 0)) (s.boundValue fl env m r.places.lowRead)
        (s.boundValue fl env m₀ r.places.highRead) s.step.natAbs).map
          (bits (irFoldBits s.type))) := by
  obtain ⟨l₁, l₂, l₃, l₄, l₅, l₆, lowRead, highRead, first, goesOn, binds, w₀, hbuilt⟩ :=
    rangeBuilt_exists hs hl
  rw [hrun] at hbuilt
  obtain ⟨-, -, hexit, -, -, -, htype, hdown⟩ := hbuilt.walk_facts
  rw [hexit] at hfinal
  have hcode := hbuilt.code hfinal hl htemps
  obtain ⟨hdownEq, hk, hkLt⟩ := startWalk_step hstep l.blocks.length (l.blocks.length + 1)
    (l.blocks.length + 2)
  rw [← hbuilt.walk₀] at hdownEq hk
  have hkPos : 0 < s.step.natAbs := Int.natAbs_pos.mpr hstep.nonzero
  have hpow : 0 < 2 ^ irFoldBits s.type := Nat.two_pow_pos _
  -- the range, with what the bounds held
  let bounds : Bounds :=
    { isUnsigned := !s.isSigned, n := irFoldBits s.type,
      rl := irFoldTrim s.type (operandValue fl env m r.places.lowRead),
      rh := irFoldTrim s.type (operandValue fl env m₀ r.places.highRead),
      k := s.step.natAbs, one_le := irFoldBits_pos _, rl_lt := Nat.mod_lt _ hpow,
      rh_lt := Nat.mod_lt _ hpow, k_pos := hkPos, k_lt := hkLt }
  have hfixed : isFixedInt r.walk.counterType = true := by rw [htype]; exact hstep.fixed
  have hlow : m₀.regs r.walk.low.val = bounds.rl := by
    have h := low_kept hcode hfixed hread
    rw [htype] at h
    exact h
  have hwrap : r.walk.wrap = rangeWrap s.type (!s.isSigned) s.step.natAbs lowRead := by
    rw [hbuilt.walk, ← hk, hbuilt.walk₀]
    rfl
  obtain ⟨hnsw, hnuw⟩ := rangeWrap_marks hstep.fixed (!s.isSigned) s.step.natAbs lowRead
  rw [← hwrap] at hnsw hnuw
  have hplaces : r.places.lowRead = lowRead := by rw [hbuilt.places]
  have hw : WalkOf r.walk bounds := by
    refine ⟨hfixed, by rw [htype], ?_, ?_, fun hd => ?_, hnsw, fun hmark => ?_⟩
    · rw [hbuilt.walk, hbuilt.walk₀]
      rfl
    · rw [hbuilt.walk]
      exact hk
    · rw [hdown, hdownEq, decide_eq_true_iff] at hd
      show (!s.isSigned) = false
      cases hsigned : s.isSigned with
      | true => rfl
      | false =>
        rw [RangeFor.step, hsigned, if_neg (by decide)] at hd
        omega
    · show 0 ≤ s.boundValue fl env m r.places.lowRead
      rw [hplaces]
      rcases hnuw hmark with hunsigned | ⟨hint, hnonneg⟩
      · rw [RangeFor.boundValue, hunsigned]
        exact Int.natCast_nonneg _
      · exact s.boundValue_const hstep.fixed hint hbuilt.start.lowType hnonneg
  have hvisits := visits_exactly hcode hw hlow rfl
  rw [hdown, hdownEq] at hvisits
  exact hvisits

-- ── A range up to the greatest value ────

/-- `for _ in 250 as u8..255 by 2 {}`. -/
def toGreatest : RangeFor where
  type := .i8
  isSigned := false
  stepValue := 2
  low := pure (irIntOp .i8 250)
  high := pure (irIntOp .i8 255)
  name := none
  body := pure true

/-- A function that begins. -/
def beginning : Lowerer where
  slots := []
  blocks := [[]]
  temps := []
  b := 0
  symbols _ := false
  known := []

theorem Lowers.refl {l : Lowerer} (hl : l.WellFormed) : Lowers l l := by
  refine ⟨le_rfl, fun _ _ _ => rfl, ⟨[], ?_, by simp⟩, fun i hi insts hget => ?_,
    prefix_rfl, prefix_rfl, fun t ht => .inl ht, rfl, hl.here, .inl rfl⟩
  · rw [append_nil, getD_eq_getElem?_getD, getElem?_eq_getElem hl.here]
    rfl
  · rw [getElem?_eq_none hi] at hget
    cases hget

theorem toGreatest_visits : VisitsExactly noFloats noEvents (lowerFor toGreatest beginning).2.code
      (lowerFor toGreatest beginning).1.walk
      ((lowerFor toGreatest beginning).1.places.placed (lowerFor toGreatest beginning).2)
      (lowerFor toGreatest beginning).1.advance (· ∈ []) ⟨Function.update (fun _ => 0) 0 250, []⟩
      [250, 252, 254] := by
  have hpromises : toGreatest.Promises :=
    ⟨fun _ hl => .refl hl, fun _ hl => .refl hl, fun _ hl => .refl hl, fun _ _ => rfl⟩
  have hread : Along noFloats noEvents (lowerFor toGreatest beginning).2.code
      (fun b => b = (lowerFor toGreatest beginning).1.places.first ∨
        b = (lowerFor toGreatest beginning).1.walk.exit ∨ b ∈ beginning.known)
      (0, 0) ⟨fun _ => 0, []⟩ (0, 1) ⟨Function.update (fun _ => 0) 0 250, []⟩ := by
    have hcopy : execInsts noFloats noEvents [lowCopy .i8 (irIntOp .i8 250) 0]
        ⟨fun _ => 0, []⟩ = some ⟨Function.update (fun _ => 0) 0 250, []⟩ := rfl
    exact .straight ⟨_, rfl⟩ hcopy
  exact range_loop_visits hpromises ⟨rfl, by decide, by decide⟩
    ⟨by decide, fun _ h => (by cases h), fun _ h => (by cases h)⟩ rfl
    ⟨by decide, fun _ _ _ _ => rfl⟩ (by decide) hread

end AnticIr
