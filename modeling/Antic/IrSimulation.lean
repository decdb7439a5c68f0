import Antic.IrExec

/-! # Comparing two runs block by block

    Two codes with the same number of blocks show the same when each block, from machines that are
    related, leaves to related machines.  The second code may leave past blocks that only jump. -/

namespace AnticIr

open List

/-- Blocks that only jump lead from `b` to `target`. -/
inductive Chain (code : List (List IrInst)) : Nat → Nat → Prop
  | refl (b : Nat) : Chain code b b
  | jump {b target : Nat} {inst : IrInst} : code[b]? = some [inst] →
      inst.op = .jump → Chain code inst.a.val target → Chain code b target

/-- A code that keeps the blocks that only jump keeps the chains. -/
theorem Chain.mono {code code' : List (List IrInst)}
    (h : ∀ (b : Nat) (inst : IrInst), code[b]? = some [inst] → inst.op = .jump →
      ∃ inst' : IrInst, code'[b]? = some [inst'] ∧ inst'.op = .jump ∧ inst'.a.val = inst.a.val)
    {b target : Nat} (hc : Chain code b target) : Chain code' b target := by
  induction hc with
  | refl b => exact .refl b
  | jump hb hop _ ih =>
    obtain ⟨inst', hb', hop', ha⟩ := h _ _ hb hop
    exact .jump hb' hop' (ha ▸ ih)

section Runs

variable (fl : Floats) (env : Env)

theorem execBlock_jump {inst : IrInst} (h : inst.op = .jump) (m : Machine) :
    execBlock fl env [inst] m = .goto inst.a.val m := by
  simp [execBlock, execTerminator, isTerminator, h]

variable {code code' : List (List IrInst)}

variable {b : Nat} {insts insts' : List IrInst}

theorem runBlocks_goto {b' : Nat} {m m' : Machine} (hb : code[b]? = some insts)
    (hexit : execBlock fl env insts m = .goto b' m') (n : Nat) :
    runBlocks fl env code (n + 1) b m = runBlocks fl env code n b' m' := by
  simp only [runBlocks, hb, hexit]

theorem runBlocks_ended {m : Machine} (hb : code[b]? = some insts)
    (hexit : ∀ b' m', execBlock fl env insts m ≠ .goto b' m') (n : Nat) :
    runBlocks fl env code (n + 1) b m = .ended (execBlock fl env insts m) := by
  simp only [runBlocks, hb]

theorem runBlocks_lost (hb : code[b]? = none) (n : Nat) (m : Machine) :
    runBlocks fl env code (n + 1) b m = .lost := by
  simp only [runBlocks, hb]

theorem runBlocks_jump {inst : IrInst} (hb : code[b]? = some [inst])
    (hop : inst.op = .jump) (n : Nat) (m : Machine) :
    runBlocks fl env code (n + 1) b m = runBlocks fl env code n inst.a.val m :=
  runBlocks_goto fl env hb (execBlock_jump fl env hop m) n

theorem Chain.run_start {target : Nat} (h : Chain code b target) (n : Nat) (m : Machine) :
    ∃ k, runBlocks fl env code k b m = runBlocks fl env code n target m := by
  induction h with
  | refl b => exact ⟨n, rfl⟩
  | jump hb hop _ ih =>
    obtain ⟨k, hk⟩ := ih
    exact ⟨k + 1, by rw [runBlocks_jump fl env hb hop, hk]⟩

/-- A run from the start of a chain is still in it, or a run from its end. -/
theorem Chain.run_end {target : Nat} (h : Chain code b target) (n : Nat) (m : Machine) :
    (runBlocks fl env code n b m).seen = .running m.trace ∨
      ∃ k ≤ n, runBlocks fl env code n b m = runBlocks fl env code k target m := by
  induction h generalizing n with
  | refl b => exact .inr ⟨n, le_rfl, rfl⟩
  | jump hb hop _ ih =>
    cases n with
    | zero => exact .inl rfl
    | succ n =>
      rw [runBlocks_jump fl env hb hop]
      rcases ih n with hrun | ⟨k, hk, hrun⟩
      · exact .inl hrun
      · exact .inr ⟨k, Nat.le_succ_of_le hk, hrun⟩

/-- Two ways to leave a block that show the same. -/
inductive Exit.Sim (code : List (List IrInst)) (S : Machine → Machine → Prop) :
    Exit → Exit → Prop
  | goto {b b' : Nat} {m m' : Machine} : Chain code b b' → S m m' →
      Exit.Sim code S (.goto b m) (.goto b' m')
  | ret (v : Nat) (trace : List Event) : Exit.Sim code S (.ret v trace) (.ret v trace)
  | unreachable (trace : List Event) : Exit.Sim code S (.unreachable trace) (.unreachable trace)
  | undefined : Exit.Sim code S .undefined .undefined
  | fell : Exit.Sim code S .fell .fell

/-- Two related exits both go on, or are one exit that ends the run. -/
theorem Exit.Sim.cases {S : Machine → Machine → Prop} {e e' : Exit} (h : Exit.Sim code S e e') :
    (∃ b b' m m', e = .goto b m ∧ e' = .goto b' m' ∧ Chain code b b' ∧ S m m') ∨
      (e = e' ∧ ∀ b m, e ≠ .goto b m) := by
  cases h with
  | goto hchain hS => exact .inl ⟨_, _, _, _, rfl, rfl, hchain, hS⟩
  | ret v trace => exact .inr ⟨rfl, fun _ _ => nofun⟩
  | unreachable trace => exact .inr ⟨rfl, fun _ _ => nofun⟩
  | undefined => exact .inr ⟨rfl, fun _ _ => nofun⟩
  | fell => exact .inr ⟨rfl, fun _ _ => nofun⟩

/-- The blocks of `code'` leave as those of `code` do, from related machines. -/
structure BlockSim (code code' : List (List IrInst))
    (S : Machine → Machine → Prop) : Prop where
  trace : ∀ m m', S m m' → m.trace = m'.trace
  length : code.length = code'.length
  block : ∀ (b : Nat) (insts insts' : List IrInst), code[b]? = some insts →
    code'[b]? = some insts' → ∀ m m', S m m' →
      Exit.Sim code S (execBlock fl env insts m) (execBlock fl env insts' m')

variable {S : Machine → Machine → Prop}

theorem BlockSim.lookup (h : BlockSim fl env code code' S) (b : Nat) :
    (code[b]? = none ∧ code'[b]? = none) ∨
      ∃ insts insts', code[b]? = some insts ∧ code'[b]? = some insts' := by
  by_cases hb : b < code.length
  · exact .inr ⟨_, _, getElem?_eq_getElem hb, getElem?_eq_getElem (h.length ▸ hb)⟩
  · have hb' : ¬ b < code'.length := h.length ▸ hb
    exact .inl ⟨getElem?_eq_none (by omega), getElem?_eq_none (by omega)⟩

theorem BlockSim.seen_right (h : BlockSim fl env code code' S) (n : Nat) : ∀ b m m', S m m' → ∃ k,
      (runBlocks fl env code n b m).seen = (runBlocks fl env code' k b m').seen := by
  -- Strong induction: past a chain, fewer blocks of `code` are left to run.
  induction n using Nat.strong_induction_on with
  | _ n ih =>
    intro b m m' hS
    cases n with
    | zero => exact ⟨0, by simp only [runBlocks, Run.seen, h.trace m m' hS]⟩
    | succ n =>
      rcases h.lookup fl env b with ⟨hb, hb'⟩ | ⟨insts, insts', hb, hb'⟩
      · exact ⟨1, by rw [runBlocks_lost fl env hb, runBlocks_lost fl env hb']⟩
      rcases (h.block b insts insts' hb hb' m m' hS).cases with
        ⟨b₁, b₂, m₁, m₂, he, he', hchain, hS₁⟩ | ⟨he, hend⟩
      · rw [runBlocks_goto fl env hb he]
        rcases hchain.run_end fl env n m₁ with hrun | ⟨k, hk, hrun⟩
        · refine ⟨1, ?_⟩
          rw [runBlocks_goto fl env hb' he', hrun, h.trace m₁ m₂ hS₁]
          rfl
        · obtain ⟨j, hj⟩ := ih k (by omega) b₂ m₁ m₂ hS₁
          exact ⟨j + 1, by rw [runBlocks_goto fl env hb' he', hrun, hj]⟩
      · refine ⟨1, ?_⟩
        rw [runBlocks_ended fl env hb hend, runBlocks_ended fl env hb' (he ▸ hend), he]

theorem BlockSim.seen_left (h : BlockSim fl env code code' S) (n : Nat) : ∀ b m m', S m m' → ∃ k,
      (runBlocks fl env code' n b m').seen = (runBlocks fl env code k b m).seen := by
  induction n with
  | zero =>
    intro b m m' hS
    exact ⟨0, by simp only [runBlocks, Run.seen, h.trace m m' hS]⟩
  | succ n ih =>
    intro b m m' hS
    rcases h.lookup fl env b with ⟨hb, hb'⟩ | ⟨insts, insts', hb, hb'⟩
    · exact ⟨1, by rw [runBlocks_lost fl env hb, runBlocks_lost fl env hb']⟩
    rcases (h.block b insts insts' hb hb' m m' hS).cases with
      ⟨b₁, b₂, m₁, m₂, he, he', hchain, hS₁⟩ | ⟨he, hend⟩
    · obtain ⟨j, hj⟩ := ih b₂ m₁ m₂ hS₁
      obtain ⟨k, hk⟩ := hchain.run_start fl env j m₁
      refine ⟨k + 1, ?_⟩
      rw [runBlocks_goto fl env hb' he', runBlocks_goto fl env hb he, hj, hk]
    · refine ⟨1, ?_⟩
      rw [runBlocks_ended fl env hb hend, runBlocks_ended fl env hb' (he ▸ hend), he]

/-- All that is seen of a code from block 0 on. -/
def seenOf (code : List (List IrInst)) (m : Machine) : Set Seen :=
  Set.range fun n => (runBlocks fl env code n 0 m).seen

/-- **Simulation.**  Codes whose blocks leave alike show the same. -/
theorem BlockSim.seenOf_eq (h : BlockSim fl env code code' S) {m m' : Machine}
    (hS : S m m') : seenOf fl env code m = seenOf fl env code' m' := by
  apply Set.Subset.antisymm
  · rintro _ ⟨n, rfl⟩
    obtain ⟨k, hk⟩ := h.seen_right fl env n 0 m m' hS
    exact ⟨k, hk.symm⟩
  · rintro _ ⟨n, rfl⟩
    obtain ⟨k, hk⟩ := h.seen_left fl env n 0 m m' hS
    exact ⟨k, hk.symm⟩

/-! ## Blocks that share instructions -/

/-- An instruction takes related machines to related machines. -/
def StepSim (code : List (List IrInst)) (S : Machine → Machine → Prop)
    (inst inst' : IrInst) : Prop :=
  isTerminator inst.op = isTerminator inst'.op ∧ ∀ m m', S m m' →
    (isTerminator inst.op = true → Exit.Sim code S
      (execTerminator fl env inst m) (execTerminator fl env inst' m')) ∧
    (isTerminator inst.op = false →
      Option.Rel S (execInst fl env inst m) (execInst fl env inst' m'))

/-- Two blocks that leave alike, from related machines. -/
def InstsSim (code : List (List IrInst)) (S : Machine → Machine → Prop)
    (insts insts' : List IrInst) : Prop :=
  ∀ m m', S m m' → Exit.Sim code S (execBlock fl env insts m) (execBlock fl env insts' m')

theorem InstsSim.nil : InstsSim fl env code S [] [] := fun _ _ _ => .fell

theorem InstsSim.cons {inst inst' : IrInst} (hstep : StepSim fl env code S inst inst')
    (h : InstsSim fl env code S insts insts') :
    InstsSim fl env code S (inst :: insts) (inst' :: insts') := by
  intro m m' hS
  obtain ⟨hterm, hstep⟩ := hstep
  obtain ⟨hleave, hexec⟩ := hstep m m' hS
  cases ht : isTerminator inst.op with
  | true =>
    simp only [execBlock, ht, ← hterm]
    exact hleave ht
  | false =>
    simp only [execBlock, ht, ← hterm]
    have hrel := hexec ht
    generalize execInst fl env inst m = r, execInst fl env inst' m' = r' at hrel
    cases hrel with
    | none => exact .undefined
    | some hS' => exact h _ _ hS'

theorem InstsSim.append {pre : List IrInst} (hpre : ∀ i ∈ pre, StepSim fl env code S i i)
    (h : InstsSim fl env code S insts insts') :
    InstsSim fl env code S (pre ++ insts) (pre ++ insts') := by
  induction pre with
  | nil => exact h
  | cons i pre ih =>
    exact .cons fl env (hpre i mem_cons_self) (ih fun j hj => hpre j (mem_cons_of_mem i hj))

theorem InstsSim.same (h : ∀ i ∈ insts, StepSim fl env code S i i) :
    InstsSim fl env code S insts insts := by
  simpa using InstsSim.append fl env h (InstsSim.nil fl env)

theorem BlockSim.of_block {before after : List (List IrInst)}
    (htrace : ∀ m m', S m m' → m.trace = m'.trace)
    (hsame : ∀ block ∈ before ++ after, ∀ i ∈ block,
      StepSim fl env (before ++ insts :: after) S i i)
    (h : InstsSim fl env (before ++ insts :: after) S insts insts') :
    BlockSim fl env (before ++ insts :: after) (before ++ insts' :: after) S where
  trace := htrace
  length := by simp
  block := by
    intro b block block' hb hb'
    rcases lt_trichotomy b before.length with hlt | heq | hgt
    · rw [getElem?_append_left hlt] at hb hb'
      obtain rfl : block = block' := Option.some.inj (hb.symm.trans hb')
      exact InstsSim.same fl env (hsame block (mem_append_left _ (mem_of_getElem? hb)))
    · rw [getElem?_append_right heq.ge, heq, Nat.sub_self, getElem?_cons_zero] at hb hb'
      obtain rfl := Option.some.inj hb
      obtain rfl := Option.some.inj hb'
      exact h
    · obtain ⟨k, hk⟩ : ∃ k, b - before.length = k + 1 :=
        ⟨b - before.length - 1, by omega⟩
      rw [getElem?_append_right hgt.le, hk, getElem?_cons_succ] at hb hb'
      obtain rfl : block = block' := Option.some.inj (hb.symm.trans hb')
      exact InstsSim.same fl env (hsame block (mem_append_right _ (mem_of_getElem? hb)))

end Runs

end AnticIr
