import Antic.IrExec

/-! # Parts of a block, and code that leaves some temporaries alone

    Code that is made in pieces runs in pieces: `execInsts` runs instructions up to a place inside a
    block, and `execBlock_append_cases` puts the pieces together.  What a piece does not do is a
    property of each of its instructions: `Apart` says which temporaries it leaves alone and where
    it may go, and `execBlock_apart` says the same of a run of them. -/

namespace AnticIr

/-- The blocks to which a terminator may go. -/
def irTargets (inst : IrInst) : List Nat :=
  match inst.op with
  | .jump => [inst.a.val]
  | .branch | .branchOv => [inst.b.val, inst.c.val]
  | _ => []

/-- The instructions from a place on. -/
def restAt (code : List (List IrInst)) (place : Nat × Nat) : List IrInst :=
  (code.getD place.1 []).drop place.2

/-- An instruction that writes no temporary of `kept`, and goes to blocks of `to` only. -/
structure Apart (kept goes : Nat → Prop) (inst : IrInst) : Prop where
  writes : inst.result = irNoResult ∨ ¬ kept inst.result
  jumps : ∀ b ∈ irTargets inst, goes b

section Exec

variable (fl : Floats) (env : Env)

/-- Run instructions that stay in their block. -/
def execInsts : List IrInst → Machine → Option Machine
  | [], m => some m
  | inst :: rest, m =>
    if isTerminator inst.op then none else (execInst fl env inst m).bind (execInsts rest)

/-- A run from one place to another that goes to no block of `avoid`. -/
inductive Along (code : List (List IrInst)) (avoid : Nat → Prop) :
    Nat × Nat → Machine → Nat × Nat → Machine → Prop
  | straight {b p : Nat} {insts : List IrInst} {m m' : Machine} :
      insts <+: restAt code (b, p) → execInsts fl env insts m = some m' →
      Along code avoid (b, p) m (b, p + insts.length) m'
  | jump {place place' : Nat × Nat} {b : Nat} {m m₁ m' : Machine} :
      execBlock fl env (restAt code place) m = .goto b m₁ → ¬ avoid b →
      Along code avoid (b, 0) m₁ place' m' → Along code avoid place m place' m'

variable {fl env}

@[simp] theorem execInsts_nil (m : Machine) : execInsts fl env [] m = some m := rfl

variable {inst : IrInst} {m m' : Machine}

theorem execInsts_cons (h : isTerminator inst.op = false) (rest : List IrInst) (m : Machine) :
    execInsts fl env (inst :: rest) m = (execInst fl env inst m).bind (execInsts fl env rest) := by
  simp [execInsts, h]

theorem execBlock_cons (h : isTerminator inst.op = false) (hm : execInst fl env inst m = some m')
    (rest : List IrInst) : execBlock fl env (inst :: rest) m = execBlock fl env rest m' := by
  simp [execBlock, h, hm]

/-- Where a block is left, its first instructions leave it or the others do. -/
theorem execBlock_append_cases {before after : List IrInst} {b : Nat}
    (h : execBlock fl env (before ++ after) m = .goto b m') :
    execBlock fl env before m = .goto b m' ∨ ∃ m₁, execInsts fl env before m = some m₁ ∧
        execBlock fl env after m₁ = .goto b m' := by
  induction before generalizing m with
  | nil => exact .inr ⟨m, rfl, h⟩
  | cons inst rest ih =>
    cases hop : isTerminator inst.op with
    | true =>
      refine .inl ?_
      simp only [List.cons_append, execBlock, hop] at h ⊢
      exact h
    | false =>
      cases hm : execInst fl env inst m with
      | none => simp [execBlock, hop, hm] at h
      | some m₁ =>
        rw [List.cons_append, execBlock_cons hop hm] at h
        rcases ih h with hleft | ⟨m₂, h₂, hafter⟩
        · exact .inl (by rw [execBlock_cons hop hm]; exact hleft)
        · refine .inr ⟨m₂, ?_, hafter⟩
          rw [execInsts_cons hop, hm]
          exact h₂

/-- A terminator goes to one of its blocks, and changes nothing. -/
theorem execTerminator_goto {b : Nat} (h : execTerminator fl env inst m = .goto b m') :
    b ∈ irTargets inst ∧ m' = m := by
  cases hop : inst.op with
  | jump =>
    simp only [execTerminator, hop, Exit.goto.injEq] at h
    simp [irTargets, hop, h.1, h.2]
  | branch | branchOv =>
    simp only [execTerminator, hop] at h
    obtain ⟨rfl, rfl⟩ := h
    refine ⟨?_, rfl⟩
    split <;> simp [irTargets, hop]
  | _ => simp [execTerminator, hop] at h

variable {kept goes : Nat → Prop}

/-- An instruction leaves the temporaries alone that it does not write. -/
theorem execInst_apart (ha : Apart kept goes inst) (h : execInst fl env inst m = some m') :
    ∀ t, kept t → m'.regs t = m.regs t := by
  intro t ht
  obtain ⟨⟨v, trace⟩, -, rfl⟩ := Option.map_eq_some_iff.mp h
  rw [Machine.write_regs]
  refine if_neg ?_
  rintro ⟨hno, rfl⟩
  rcases ha.writes with hw | hw
  · exact hno hw
  · exact hw ht

/-- Instructions leave the temporaries alone that none of them writes. -/
theorem execInsts_apart {insts : List IrInst} (ha : ∀ inst ∈ insts, Apart kept goes inst)
    (h : execInsts fl env insts m = some m') : ∀ t, kept t → m'.regs t = m.regs t := by
  induction insts generalizing m with
  | nil =>
    intro t _
    cases h
    rfl
  | cons inst rest ih =>
    intro t ht
    cases hop : isTerminator inst.op with
    | true => simp [execInsts, hop] at h
    | false =>
      rw [execInsts_cons hop] at h
      obtain ⟨m₁, h₁, hrest⟩ := Option.bind_eq_some_iff.mp h
      rw [ih (fun i hi => ha i (List.mem_cons_of_mem _ hi)) hrest t ht]
      exact execInst_apart (ha inst List.mem_cons_self) h₁ t ht

/-- **A block of such instructions** goes to the allowed blocks, and leaves the
    temporaries alone. -/
theorem execBlock_apart {insts : List IrInst} (ha : ∀ inst ∈ insts, Apart kept goes inst)
    {b : Nat} (h : execBlock fl env insts m = .goto b m') :
    goes b ∧ ∀ t, kept t → m'.regs t = m.regs t := by
  induction insts generalizing m with
  | nil => cases h
  | cons inst rest ih =>
    have hfirst := ha inst List.mem_cons_self
    cases hop : isTerminator inst.op with
    | true =>
      simp only [execBlock, hop] at h
      obtain ⟨hb, rfl⟩ := execTerminator_goto h
      exact ⟨hfirst.jumps b hb, fun _ _ => rfl⟩
    | false =>
      cases hm : execInst fl env inst m with
      | none => simp [execBlock, hop, hm] at h
      | some m₁ =>
        rw [execBlock_cons hop hm] at h
        obtain ⟨hb, hregs⟩ := ih (fun i hi => ha i (List.mem_cons_of_mem _ hi)) h
        exact ⟨hb, fun t ht => (hregs t ht).trans (execInst_apart hfirst hm t ht)⟩

end Exec

end AnticIr
