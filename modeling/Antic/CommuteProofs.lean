import Antic.SimplifyProofs

/-! # Simplifying before the target is known

    `fold_constants` and `apply_peephole_rules` run on types whose width and signedness
    `layout_resolve` decides later.  A function that is rewritten and then resolved shows what it
    shows resolved alone, in every run whose steps meet `StepOk`.

    * In the blocks, an instruction and its rewritten form have one value (`step_execBlock`), so the
      runs are in lockstep.
    * Over the blocks, `applyPeepholeRules_changes` leads from the simplified function to the result
      of the pass. -/

namespace AnticIr

open MachineInt List Option

/-! ## What is known of a function -/

/-- What `ir.c` promises of a function it builds: `ir_temp_op` gives an operand the type of
    its temporary, and an instruction writes a temporary of the type that it was made with,
    a call that gives an aggregate one of its address. -/
structure Built (f : IrFunction) : Prop where
  operand : ∀ i ∈ f.code.flatten, ∀ o ∈ i.operands, OperandOk f.temps o
  result : ∀ i ∈ f.code.flatten, i.result ≠ irNoResult → f.temps[i.result]? = some i.tempType

theorem insts_eq_flatten (f : IrFunction) : f.insts = f.code.flatten := by
  simp [IrFunction.insts, IrFunction.code, flatMap_def]

section Verified

variable {mod : IrModule} {f : IrFunction}

theorem checkInsts_mem {before insts : List IrInst}
    (h : checkInsts mod f before insts = true) {i : IrInst} (hi : i ∈ insts) :
    indicesOk mod f i = true ∧ checkInst mod f i = true := by
  induction insts generalizing before with
  | nil => cases hi
  | cons j rest ih =>
    simp only [checkInsts, Bool.and_eq_true] at h
    rcases mem_cons.mp hi with rfl | hi
    · exact ⟨h.1.1.1.1, h.1.1.1.2⟩
    · exact ih h.2 hi

/-- The verifier has checked every instruction of a function with a body. -/
theorem verifyFunction_mem (h : verifyFunction mod f = true)
    (hbody : f.isExtern = false) {i : IrInst} (hi : i ∈ f.code.flatten) :
    indicesOk mod f i = true ∧ checkInst mod f i = true := by
  obtain ⟨insts, hinsts, hmem⟩ := mem_flatten.mp hi
  obtain ⟨block, hblock, rfl⟩ := List.mem_map.mp hinsts
  simp only [verifyFunction, hbody, Bool.false_or, Bool.and_eq_true, List.all_eq_true] at h
  exact checkInsts_mem (h.2.1.2 block hblock).1 hmem

theorem sameType_spec {o : IrOperand} {type : IrType}
    (hok : operandOk mod f o = true) (ho : OperandOk f.temps o)
    (h : sameType mod f o type = true) : o.kind = .none ∨ o.type = type := by
  simp only [sameType, hok, Bool.not_true, Bool.or_false, Bool.or_eq_true,
    decide_eq_true_eq] at h
  refine h.imp_right fun h => ?_
  unfold typeOf at h
  split at h
  · next hk =>
    have := ho hk
    rw [getD_eq_getElem?_getD, this] at h
    exact h
  · exact h

theorem typeOf_spec {o : IrOperand} (ho : OperandOk f.temps o) :
    typeOf f o = o.type := by
  unfold typeOf
  split
  · next hk =>
    rw [getD_eq_getElem?_getD, ho hk]
    rfl
  · rfl

theorem instTyped_of_verified {i : IrInst} (hindices : indicesOk mod f i = true)
    (hcheck : checkInst mod f i = true)
    (hops : ∀ o ∈ i.operands, OperandOk f.temps o) : InstTyped f.temps i := by
  have hall : ∀ o ∈ i.operands, operandOk mod f o = true := by
    simp only [indicesOk, Bool.and_eq_true, List.all_eq_true] at hindices
    exact hindices.2
  have ha : i.a ∈ i.operands := by simp [IrInst.operands]
  have hb : i.b ∈ i.operands := by simp [IrInst.operands]
  have hsa : ∀ type, sameType mod f i.a type = true →
      i.a.kind = .none ∨ i.a.type = type := fun type =>
    sameType_spec (hall _ ha) (hops _ ha)
  have hsb : ∀ type, sameType mod f i.b type = true →
      i.b.kind = .none ∨ i.b.type = type := fun type =>
    sameType_spec (hall _ hb) (hops _ hb)
  refine ⟨hops, fun hop => ?_, fun hop => ?_, fun hop => ?_, fun hop => ?_, fun hop => ?_⟩
  · have hcheck' : (sameType mod f i.a i.type && sameType mod f i.b i.type) = true := by
      unfold checkInst at hcheck
      cases hcase : i.op <;> simp [hcase, isBinary] at hop <;>
        simpa only [hcase] using hcheck
    rw [Bool.and_eq_true] at hcheck'
    exact ⟨hsa _ hcheck'.1, hsb _ hcheck'.2⟩
  · have hcheck' : sameType mod f i.a i.type = true := by
      unfold checkInst at hcheck
      cases hcase : i.op <;> simp [hcase, isUnary] at hop <;>
        simpa only [hcase] using hcheck
    exact hsa _ hcheck'
  · have hcheck' : ((!operandOk mod f i.a || !operandOk mod f i.b ||
        typeOf f i.a = typeOf f i.b) && i.type = .i8) = true := by
      unfold checkInst at hcheck
      cases hcase : i.op <;> simp [hcase, isCompare, isFloatCompare] at hop <;>
        simpa only [hcase] using hcheck
    rw [hall _ ha, hall _ hb, typeOf_spec (hops _ ha), typeOf_spec (hops _ hb)] at hcheck'
    simpa using hcheck'
  · simp only [checkInst, hop, Bool.and_eq_true, decide_eq_true_eq] at hcheck
    exact hcheck.2
  · simp only [checkInst, hop, Bool.and_eq_true] at hcheck
    exact hsa _ hcheck.1.1

theorem targets_of_verified {i : IrInst} (hcheck : checkInst mod f i = true) :
    (i.op = .jump → i.a.kind = .block) ∧
    (i.op = .branch ∨ i.op = .branchOv → i.b.kind = .block ∧ i.c.kind = .block) := by
  refine ⟨fun hop => ?_, fun hop => ?_⟩
  · simpa [checkInst, hop, targetOk] using hcheck
  · rcases hop with hop | hop
    · simp only [checkInst, hop, targetOk, Bool.and_eq_true, decide_eq_true_eq] at hcheck
      exact ⟨hcheck.1.2, hcheck.2⟩
    · simp only [checkInst, hop, targetOk, Bool.and_eq_true, decide_eq_true_eq] at hcheck
      exact ⟨hcheck.1.2, hcheck.2⟩

end Verified

/-! ## The forms an instruction takes -/

/-- The forms that `simplify` gives an instruction. -/
inductive Simplified (i : IrInst) : IrInst → Prop
  | same : Simplified i i
  | swap : isCommutative i.op = true → Simplified i { i with a := i.b, b := i.a }
  | copyA : isBinary i.op = true → Simplified i (makeCopy i i.a)
  | copyB : isBinary i.op = true → i.b.kind = .int → Simplified i (makeCopy i i.b)
  | constant {op : IrOp} {b : IrOperand} {field : Nat} : isBinary i.op = true →
      isBinary op = true → b.kind = .int →
      Simplified i { i with op := op, b := b, field := field }
  | jump : i.op = .branch → i.b.val = i.c.val →
      Simplified i { i with op := .jump, a := i.b, b := .absent, c := .absent }

theorem simplify_form (i : IrInst) : Simplified i (simplify i) := by
  unfold simplify
  split
  · next hswap => exact .swap hswap.1
  cases hop : i.op with
  | add | sub | or | xor | shl | shrS | shrU | sdiv =>
    simp only
    split
    · exact .copyA (by rw [hop]; rfl)
    · exact .same
  | mul =>
    simp only
    split
    · next hb => exact .copyB (by rw [hop]; rfl) (isInt_spec hb).1
    split
    · exact .copyA (by rw [hop]; rfl)
    split
    · exact .constant (by rw [hop]; rfl) rfl rfl
    · exact .same
  | udiv =>
    simp only
    split
    · exact .copyA (by rw [hop]; rfl)
    split
    · exact .constant (by rw [hop]; rfl) rfl rfl
    · exact .same
  | urem =>
    simp only
    split
    · exact .constant (by rw [hop]; rfl) rfl rfl
    · exact .same
  | and =>
    simp only
    split
    · next hb => exact .copyB (by rw [hop]; rfl) (isInt_spec hb).1
    split
    · exact .copyA (by rw [hop]; rfl)
    · exact .same
  | branch =>
    simp only
    split
    · next hval => exact .jump hop hval
    · exact .same
  | _ => exact .same

theorem foldInst_constant {fl : Floats} {i : IrInst} {value : IrOperand}
    (h : foldInst fl i = some value) :
    isConstant value = true ∧ isComputed i.op = true := by
  have hfloat : ∀ {op type a b}, foldFloat fl op type a b = some value →
      isConstant value = true := by
    intro op type a b hf
    rcases foldFloat_cases hf with ⟨-, rfl⟩ | ⟨-, rfl⟩ <;> rfl
  unfold foldInst at h
  split at h
  · cases h
  split at h
  · next hop =>
    refine ⟨?_, ?_⟩
    · split at h
      · cases h
      · split at h
        · obtain rfl := some.inj h
          rfl
        · cases h
    · cases hcase : i.op <;> simp [hcase, isFoldable] at hop <;> rfl
  · cases hop : i.op with
    | fadd | fsub | fmul | fdiv | feq | fne | flt | fle | fgt | fge =>
      simp only [hop] at h
      split at h
      · exact ⟨hfloat h, rfl⟩
      · cases h
    | neg | not | fneg =>
      simp only [hop] at h
      split at h
      · cases h
      · obtain rfl := some.inj h
        exact ⟨rfl, rfl⟩
    | trunc | sext | zext | sitof | uitof | fext | ftrunc | hext | htrunc =>
      simp only [hop, foldConversion] at h
      split at h
      · obtain rfl := some.inj h
        exact ⟨rfl, rfl⟩
      · cases h
    | ftosi | ftoui =>
      simp only [hop, foldConversion] at h
      split at h
      · split at h
        · obtain ⟨z, -, rfl⟩ := map_eq_some_iff.mp h
          exact ⟨rfl, rfl⟩
        · cases h
      · cases h
    | _ => simp [hop] at h

theorem foldOne_form (fl : Floats) (i : IrInst) : (i.op = .branch ∧ i.a.kind = .int ∧ foldOne fl i =
      { i with a := if i.a.val ≠ 0 then i.b else i.c, op := .jump,
               b := .absent, c := .absent }) ∨
    (∃ value, foldInst fl i = some value ∧ foldOne fl i = makeCopy i value) ∨
    foldOne fl i = i := by
  unfold foldOne
  split
  · next h => exact .inl ⟨h.1, h.2, rfl⟩
  · cases h : foldInst fl i with
    | some value => exact .inr (.inl ⟨value, rfl, rfl⟩)
    | none => exact .inr (.inr rfl)

/-- The form that both passes give an instruction. -/
def rewritten (fl : Floats) (i : IrInst) : IrInst := simplify (foldOne fl i)

theorem rewritten_form (fl : Floats) (i : IrInst) :
    (i.op = .branch ∧ i.a.kind = .int ∧ rewritten fl i =
      { i with a := if i.a.val ≠ 0 then i.b else i.c, op := .jump,
               b := .absent, c := .absent }) ∨
    (∃ value, foldInst fl i = some value ∧ rewritten fl i = makeCopy i value) ∨
    rewritten fl i = simplify i := by
  unfold rewritten
  rcases foldOne_form fl i with ⟨hop, hk, h⟩ | ⟨value, hv, h⟩ | h
  · exact .inl ⟨hop, hk, by rw [h, simplify_jump rfl]⟩
  · exact .inr (.inl ⟨value, hv, by rw [h, simplify_copy rfl]⟩)
  · exact .inr (.inr (by rw [h]))

section Forms

variable {temps : List IrType} {fl : Floats} {i : IrInst}

theorem simplify_terminator (i : IrInst) : isTerminator (simplify i).op = isTerminator i.op ∧
      (simplify i).result = i.result ∧ (simplify i).type = i.type := by
  have hbinary : ∀ {op}, isBinary op = true → isTerminator op = false := by
    intro op h
    cases op <;> simp [isBinary] at h <;> rfl
  have hform := simplify_form i
  generalize simplify i = j at hform ⊢
  cases hform with
  | same => exact ⟨rfl, rfl, rfl⟩
  | swap h => exact ⟨rfl, rfl, rfl⟩
  | copyA h => exact ⟨(hbinary h).symm, rfl, rfl⟩
  | copyB h => exact ⟨(hbinary h).symm, rfl, rfl⟩
  | constant h h' => exact ⟨(hbinary h').trans (hbinary h).symm, rfl, rfl⟩
  | jump h => exact ⟨by rw [h]; rfl, rfl, rfl⟩

theorem rewritten_same (fl : Floats) (i : IrInst) :
    isTerminator (rewritten fl i).op = isTerminator i.op ∧
      (rewritten fl i).result = i.result ∧ (rewritten fl i).type = i.type := by
  rcases rewritten_form fl i with ⟨hop, -, h⟩ | ⟨value, hv, h⟩ | h
  · rw [h]
    exact ⟨by rw [hop]; rfl, rfl, rfl⟩
  · rw [h]
    have hcomputed := (foldInst_constant hv).2
    refine ⟨?_, rfl, rfl⟩
    show false = _
    cases hcase : i.op <;> simp [hcase, isComputed] at hcomputed <;> rfl
  · rw [h]
    exact simplify_terminator i

/-- Only what is computed or branches changes its operation, so a call stays one. -/
theorem rewritten_tempType (fl : Floats) (i : IrInst) : (rewritten fl i).tempType = i.tempType := by
  have hkeep : ∀ {j : IrInst}, i.op ≠ .call → j.op ≠ .call → j.type = i.type →
      j.tempType = i.tempType := by
    intro j hi hj htype
    rw [IrInst.tempType_of_ne hi, IrInst.tempType_of_ne hj, htype]
  have hbinary : ∀ {op}, isBinary op = true → op ≠ .call := by
    rintro op h rfl
    cases h
  have hbranch : i.op = .branch → i.op ≠ .call := fun hop => by
    rw [hop]
    exact IrOp.noConfusion
  rcases rewritten_form fl i with ⟨hop, -, h⟩ | ⟨value, hv, h⟩ | h
  · rw [h]
    exact hkeep (hbranch hop) IrOp.noConfusion rfl
  · rw [h]
    refine hkeep (fun hc => ?_) IrOp.noConfusion rfl
    have hcomputed := (foldInst_constant hv).2
    rw [hc] at hcomputed
    cases hcomputed
  · rw [h]
    have hform := simplify_form i
    generalize simplify i = j at hform ⊢
    cases hform with
    | same => rfl
    | swap => rfl
    | copyA hop => exact hkeep (hbinary hop) IrOp.noConfusion rfl
    | copyB hop => exact hkeep (hbinary hop) IrOp.noConfusion rfl
    | constant hop hop' => exact hkeep (hbinary hop) (hbinary hop') rfl
    | jump hop => exact hkeep (hbranch hop) IrOp.noConfusion rfl

theorem rewritten_ok (hty : InstTyped temps i)
    (hresult : i.result ≠ irNoResult → temps[i.result]? = some i.tempType)
    (hjump : i.op = .jump → i.a.kind = .block)
    (hbranch : i.op = .branch ∨ i.op = .branchOv → i.b.kind = .block ∧ i.c.kind = .block) :
    InstOk temps (rewritten fl i) := by
  have hsame := rewritten_same fl i
  have hresult' : (rewritten fl i).result ≠ irNoResult →
      temps[(rewritten fl i).result]? = some (rewritten fl i).tempType := by
    rw [hsame.2.1, rewritten_tempType]
    exact hresult
  -- A copy of an operand of the instruction's type.
  have hcopy : ∀ o, (o.kind = .temp → temps[o.val]? = some i.type) →
      rewritten fl i = makeCopy i o → InstOk temps (rewritten fl i) := by
    intro o ho h
    refine ⟨hresult', fun _ hk => ?_, fun hop => ?_, fun hop => ?_⟩
    · rw [h] at hk ⊢
      exact ho hk
    · rw [h] at hop
      cases hop
    · rw [h] at hop
      rcases hop with hop | hop <;> cases hop
  rcases rewritten_form fl i with ⟨hop, -, h⟩ | ⟨value, hv, h⟩ | h
  · refine ⟨hresult', fun hop' => ?_, fun _ => ?_, fun hop' => ?_⟩
    · rw [h] at hop'
      cases hop'
    · rw [h]
      show (if i.a.val ≠ 0 then i.b else i.c).kind = .block
      split
      · exact (hbranch (.inl hop)).1
      · exact (hbranch (.inl hop)).2
    · rw [h] at hop'
      rcases hop' with hop' | hop' <;> cases hop'
  · refine hcopy value (fun hk => ?_) h
    have hconst := (foldInst_constant hv).1
    simp [isConstant, hk] at hconst
  · have hform := simplify_form i
    rw [← h] at hform
    have hbinary : ∀ {op}, isBinary op = true → op ≠ .copy ∧ op ≠ .jump ∧
        op ≠ .branch ∧ op ≠ .branchOv := by
      intro op hop
      cases op <;> simp [isBinary] at hop <;> simp
    generalize rewritten fl i = j at *
    cases hform with
    | same => exact ⟨hresult', fun hop hk => by
        rw [← (hty.unary (by rw [hop]; rfl)).resolve_left (by simp [hk])]
        exact hty.operand _ (by simp [IrInst.operands]) hk, hjump, hbranch⟩
    | swap hop =>
      refine ⟨hresult', fun hop' => ?_, fun hop' => ?_, fun hop' => ?_⟩
      · rw [show i.op = .copy from hop'] at hop
        cases hop
      · rw [show i.op = .jump from hop'] at hop
        cases hop
      · rcases hop' with hop' | hop'
        · rw [show i.op = .branch from hop'] at hop
          cases hop
        · rw [show i.op = .branchOv from hop'] at hop
          cases hop
    | copyA hop =>
      refine hcopy i.a (fun hk => ?_) rfl
      rw [← (hty.binary hop).1.resolve_left (by simp [hk])]
      exact hty.operand _ (by simp [IrInst.operands]) hk
    | copyB hop hk => exact hcopy i.b (fun hk' => by simp [hk] at hk') rfl
    | constant hop hop' hk =>
      obtain ⟨h1, h2, h3, h4⟩ := hbinary hop'
      exact ⟨hresult', fun h => absurd h h1, fun h => absurd h h2, fun h =>
        h.elim (absurd · h3) (absurd · h4)⟩
    | jump hop hval =>
      refine ⟨hresult', ?_, fun _ => (hbranch (.inl hop)).1, fun h => ?_⟩
      · intro h
        cases h
      · rcases h with h | h <;> cases h

theorem simplify_uses (i : IrInst) (x : Nat) :
    (simplify i).operands.countP (isTemp · x) ≤ i.operands.countP (isTemp · x) := by
  have hform := simplify_form i
  generalize simplify i = j at hform ⊢
  have habsent : isTemp .absent x = false := by simp [isTemp, IrOperand.absent]
  cases hform with
  | same => exact le_rfl
  | swap _ =>
    simp only [IrInst.operands, countP_cons]
    omega
  | copyA _ =>
    simp only [IrInst.operands, countP_cons, makeCopy, habsent]
    simp
  | copyB _ hk =>
    have hb : isTemp i.b x = false := by simp [isTemp, hk]
    simp [IrInst.operands, makeCopy, habsent, hb]
  | @constant op b field _ _ hk =>
    have hb : isTemp b x = false := by simp [isTemp, hk]
    simp only [IrInst.operands, countP_cons, hb]
    split <;> simp
  | jump _ _ =>
    simp only [IrInst.operands, countP_cons, habsent]
    simp only [Bool.false_eq_true, if_false]
    omega

theorem simplify_usesIn (insts : List IrInst) (x : Nat) :
    usesIn (insts.map simplify) x ≤ usesIn insts x := by
  induction insts with
  | nil => exact le_rfl
  | cons i rest ih =>
    rw [map_cons, usesIn_cons, usesIn_cons]
    exact Nat.add_le_add (simplify_uses i x) ih

/-- The symbolic values of an instruction all have property `P`. -/
def SymsOk (P : Nat → Prop) (i : IrInst) : Prop := ∀ o ∈ i.operands, o.kind = .sym → P o.val

variable {P : Nat → Prop}

theorem SymsOk.parts (h : SymsOk P i) :
    (i.a.kind = .sym → P i.a.val) ∧ (i.b.kind = .sym → P i.b.val) ∧
      (i.c.kind = .sym → P i.c.val) ∧ ∀ o ∈ i.args, o.kind = .sym → P o.val :=
  ⟨h i.a (by simp [IrInst.operands]), h i.b (by simp [IrInst.operands]),
    h i.c (by simp [IrInst.operands]), fun o ho => h o (by simp [IrInst.operands, ho])⟩

theorem symsOk_of_parts (ha : i.a.kind = .sym → P i.a.val)
    (hb : i.b.kind = .sym → P i.b.val) (hc : i.c.kind = .sym → P i.c.val)
    (hargs : ∀ o ∈ i.args, o.kind = .sym → P o.val) : SymsOk P i := by
  intro o ho hk
  simp only [IrInst.operands, mem_cons] at ho
  rcases ho with rfl | rfl | rfl | ho
  · exact ha hk
  · exact hb hk
  · exact hc hk
  · exact hargs o ho hk

theorem absent_syms : IrOperand.absent.kind = .sym → P IrOperand.absent.val := by
  rintro ⟨⟩

theorem symsOk_copy {value : IrOperand} (h : value.kind = .sym → P value.val) :
    SymsOk P (makeCopy i value) := by
  refine symsOk_of_parts h absent_syms absent_syms ?_
  rintro o ⟨⟩

theorem rewritten_syms (h : SymsOk P i) : SymsOk P (rewritten fl i) := by
  obtain ⟨ha, hb, hc, hargs⟩ := h.parts
  rcases rewritten_form fl i with ⟨-, -, hform⟩ | ⟨value, hv, hform⟩ | hform
  · rw [hform]
    refine symsOk_of_parts ?_ absent_syms absent_syms hargs
    show (if i.a.val ≠ 0 then i.b else i.c).kind = .sym → _
    split
    · exact hb
    · exact hc
  · rw [hform]
    refine symsOk_copy fun hk => ?_
    have hkind : value.kind = .sym := hk
    have hconst := (foldInst_constant hv).1
    simp [isConstant, hkind] at hconst
  · have hs := simplify_form i
    rw [hform]
    generalize simplify i = j at hs ⊢
    cases hs with
    | same => exact h
    | swap _ => exact symsOk_of_parts hb ha hc hargs
    | copyA _ => exact symsOk_copy ha
    | copyB _ _ => exact symsOk_copy hb
    | constant _ _ hk => exact symsOk_of_parts ha (fun hk' => by simp [hk] at hk') hc hargs
    | jump _ _ => exact symsOk_of_parts hb absent_syms absent_syms hargs

theorem Changes.syms {bound : Nat → Nat} {code code' : List (List IrInst)}
    (h : Changes code code') (hok : CodeOk temps bound code)
    (hs : ∀ i ∈ code.flatten, SymsOk P i) : ∀ i ∈ code'.flatten, SymsOk P i := by
  induction h with
  | refl => exact hs
  | tail hchanges hchange ih =>
    have hok' := Changes.ok hchanges hok
    obtain ⟨before, after, hrewrite⟩ := hchange
    intro i hi
    simp only [flatten_append, flatten_cons, mem_append] at hi
    rcases hi with hi | hi | hi
    · exact ih i (by simp [hi])
    · cases hrewrite with
      | selfCopy pre post _ _ =>
        refine ih i ?_
        simp only [mem_append] at hi
        rcases hi with hi | hi <;> simp [hi]
      | @fuse pre post inst next _ _ _ _ =>
        simp only [mem_append, mem_cons] at hi
        rcases hi with hi | rfl | hi
        · exact ih i (by simp [hi])
        · exact ih inst (by simp)
        · exact ih i (by simp [hi])
      | @retarget pre post inst inst' hinst =>
        simp only [mem_append, mem_cons] at hi
        rcases hi with hi | rfl | hi
        · exact ih i (by simp [hi])
        · -- A target is a block before and after.
          obtain ⟨ha, hb, hc, hargs⟩ := (ih inst (by simp)).parts
          have hinstOk := hok'.insts inst (by simp)
          cases hinst with
          | jump hop _ =>
            have hk := hinstOk.jump hop
            exact symsOk_of_parts (fun h => by simp [hk] at h) hb hc hargs
          | branch hop _ _ =>
            obtain ⟨hkb, hkc⟩ := hinstOk.branch hop
            exact symsOk_of_parts ha (fun h => by simp [hkb] at h)
              (fun h => by simp [hkc] at h) hargs
        · exact ih i (by simp [hi])
    · exact ih i (by simp [hi])

end Forms

/-! ## The steps of a run -/

/-- What a step of the resolved function has to meet, in the machine before it:  it has a value, its
    constants have no bits beyond their types, and the rules for a power of two fit the target. -/
structure StepOk (fl : Floats) (env : Env) (t : Target) (syms : Nat → Nat)
    (i : IrInst) (m : Machine) : Prop where
  value : isTerminator i.op = false → execValue fl env (resolveInst t syms i) m ≠ none
  constants : Normal fl i.a ∧ Normal fl i.b
  simplifies : Simplifies fl env t syms m i

/-- Every instruction that a block runs from machine `m` on meets `StepOk`. -/
def BlockOk (fl : Floats) (env : Env) (t : Target) (syms : Nat → Nat) : List IrInst → Machine → Prop
  | [], _ => True
  | i :: rest, m => StepOk fl env t syms i m ∧
      (isTerminator i.op = false → ∀ m', execInst fl env (resolveInst t syms i) m = some m' →
        BlockOk fl env t syms rest m')

/-- Every step of the run of a code from block `b` and machine `m` on meets `StepOk`. -/
def RunOk (fl : Floats) (env : Env) (t : Target) (syms : Nat → Nat)
    (code : List (List IrInst)) (b : Nat) (m : Machine) : Prop :=
  ∀ (n b' : Nat) (m' : Machine), runBlocks fl env (resolveCode t syms code) n b m = .running b' m' →
    ∀ insts, code[b']? = some insts → BlockOk fl env t syms insts m'

section Runs

variable {fl : Floats} {env : Env} {t : Target} {syms : Nat → Nat}
  {temps : List IrType} {m : Machine}

/-- What the passes rely on of an instruction. -/
structure InstGood (temps : List IrType) (i : IrInst) : Prop where
  typed : InstTyped temps i
  ok : InstOk temps i

theorem rewritten_execInst {i : IrInst} (hi : InstGood temps i)
    (hm : m.Typed fl t temps) (hstep : StepOk fl env t syms i m)
    (hterm : isTerminator i.op = false) :
    execInst fl env (resolveInst t syms (rewritten fl i)) m =
      execInst fl env (resolveInst t syms i) m := by
  have hresult : (resolveInst t syms (rewritten fl i)).result =
      (resolveInst t syms i).result := (rewritten_same fl i).2.1
  have hvalue : execValue fl env (resolveInst t syms (rewritten fl i)) m =
      execValue fl env (resolveInst t syms i) m := by
    rcases rewritten_form fl i with ⟨hop, -, -⟩ | ⟨value, hv, h⟩ | h
    · rw [hop] at hterm
      cases hterm
    · rw [h]
      exact (foldInst_gives hi.typed hstep.constants.1 hstep.constants.2 hv).copy
    · rw [h]
      exact simplify_execValue hi.typed hm hstep.constants.2 hstep.simplifies
        (hstep.value hterm) hterm
  unfold execInst
  rw [hvalue, hresult]

theorem rewritten_execTerminator {i : IrInst} (hi : InstGood temps i)
    (hstep : StepOk fl env t syms i m) (hterm : isTerminator i.op = true) :
    execTerminator fl env (resolveInst t syms (rewritten fl i)) m =
      execTerminator fl env (resolveInst t syms i) m := by
  rcases rewritten_form fl i with ⟨hop, hk, h⟩ | ⟨value, hv, h⟩ | h
  · -- A branch on a constant.
    have hblocks := hi.ok.branch (.inl hop)
    have htype := (hi.typed.branch hop).resolve_left (by simp [hk])
    obtain ⟨hvalue, -⟩ : operandValue fl env m (resolveOperand t syms i.a) = i.a.val ∧
        i.a.val < 2 ^ 64 :=
      operandValue_constant (by simp [isConstant, hk]) hstep.constants.1 (by rw [htype]; rfl)
    rw [h, execTerminator_branch hblocks hop, hvalue]
    split
    · exact execTerminator_jump hblocks.1 rfl m
    · exact execTerminator_jump hblocks.2 rfl m
  · have hcomputed := (foldInst_constant hv).2
    cases hop : i.op <;> simp [hop, isComputed] at hcomputed <;>
      rw [hop] at hterm <;> cases hterm
  · rw [h]
    have hform := simplify_form i
    generalize simplify i = j at hform ⊢
    have hbinary : isBinary i.op = true → False := by
      intro hop
      cases hcase : i.op <;> simp [hcase, isBinary] at hop <;>
        rw [hcase] at hterm <;> cases hterm
    cases hform with
    | same => rfl
    | swap hop =>
      cases hcase : i.op <;> simp [hcase, isCommutative] at hop <;>
        rw [hcase] at hterm <;> cases hterm
    | copyA hop => exact (hbinary hop).elim
    | copyB hop _ => exact (hbinary hop).elim
    | constant hop _ _ => exact (hbinary hop).elim
    | jump hop hval =>
      -- Both ways of the branch lead to one block.
      have hblocks := hi.ok.branch (.inl hop)
      rw [execTerminator_branch hblocks hop, hval, ite_self, ← hval]
      exact execTerminator_jump hblocks.1 rfl m

/-- A block of rewritten instructions leaves as the block does, and to typed registers. -/
theorem rewritten_execBlock {insts : List IrInst}
    (hgood : ∀ i ∈ insts, InstGood temps i) (hm : m.Typed fl t temps)
    (hok : BlockOk fl env t syms insts m) :
    execBlock fl env ((insts.map (rewritten fl)).map (resolveInst t syms)) m =
        execBlock fl env (insts.map (resolveInst t syms)) m ∧
      ∀ b m', execBlock fl env (insts.map (resolveInst t syms)) m = .goto b m' →
        m'.Typed fl t temps := by
  induction insts generalizing m with
  | nil =>
    refine ⟨rfl, ?_⟩
    rintro b m' ⟨⟩
  | cons i rest ih =>
    have hi := hgood i mem_cons_self
    have hrest : ∀ j ∈ rest, InstGood temps j := fun j hj => hgood j (mem_cons_of_mem i hj)
    obtain ⟨hstep, hnext⟩ := hok
    have hterm : isTerminator (resolveInst t syms (rewritten fl i)).op =
        isTerminator (resolveInst t syms i).op := by
      rw [resolveInst_terminator, resolveInst_terminator, (rewritten_same fl i).1]
    simp only [map_cons, execBlock, hterm]
    cases ht : isTerminator (resolveInst t syms i).op with
    | true =>
      simp only [if_true]
      refine ⟨rewritten_execTerminator hi hstep
        (by rwa [resolveInst_terminator] at ht), fun b m' h => ?_⟩
      -- A terminator leaves the machine as it is.
      have hsame : m' = m := by
        unfold execTerminator at h
        split at h <;> cases h <;> rfl
      rw [hsame]
      exact hm
    | false =>
      rw [resolveInst_terminator] at ht
      simp only [Bool.false_eq_true, if_false]
      rw [rewritten_execInst hi hm hstep ht]
      cases hexec : execInst fl env (resolveInst t syms i) m with
      | none =>
        refine ⟨rfl, ?_⟩
        rintro b m' ⟨⟩
      | some m' => exact ih hrest (execInst_typed hi.ok hm hexec) (hnext ht m' hexec)

/-- **Lockstep.**  The rewritten code runs as the code does. -/
theorem rewritten_runBlocks {code : List (List IrInst)}
    (hgood : ∀ i ∈ code.flatten, InstGood temps i) (n : Nat) :
    ∀ b m, m.Typed fl t temps → RunOk fl env t syms code b m →
      runBlocks fl env (resolveCode t syms (code.map (List.map (rewritten fl)))) n b m =
        runBlocks fl env (resolveCode t syms code) n b m := by
  induction n with
  | zero => exact fun _ _ _ _ => rfl
  | succ n ih =>
    intro b m hm hrun
    cases hb : code[b]? with
    | none =>
      have h1 : (resolveCode t syms code)[b]? = none := by simp [resolveCode, hb]
      have h2 : (resolveCode t syms (code.map (List.map (rewritten fl))))[b]? =
          none := by simp [resolveCode, hb]
      rw [runBlocks_lost fl env h1, runBlocks_lost fl env h2]
    | some insts =>
      have h1 : (resolveCode t syms code)[b]? =
          some (insts.map (resolveInst t syms)) := by simp [resolveCode, hb]
      have h2 : (resolveCode t syms (code.map (List.map (rewritten fl))))[b]? =
          some ((insts.map (rewritten fl)).map (resolveInst t syms)) := by
        simp [resolveCode, hb]
      obtain ⟨heq, htyped⟩ := rewritten_execBlock (fun i hi => hgood i (mem_flatten.mpr
          ⟨insts, mem_of_getElem? hb, hi⟩)) hm (hrun 0 b m rfl insts hb)
      cases hexit : execBlock fl env (insts.map (resolveInst t syms)) m with
      | goto b' m' =>
        rw [runBlocks_goto fl env h1 hexit, runBlocks_goto fl env h2 (heq.trans hexit)]
        refine ih b' m' (htyped b' m' hexit) fun k b'' m'' h => ?_
        exact hrun (k + 1) b'' m'' (by rw [runBlocks_goto fl env h1 hexit, h])
      | _ =>
        rw [runBlocks_ended fl env h1 (by rw [hexit]; rintro _ _ ⟨⟩),
          runBlocks_ended fl env h2 (by rw [heq, hexit]; rintro _ _ ⟨⟩), heq]

end Runs

/-! ## The theorem -/

theorem foldConstants_code (fl : Floats) (f : IrFunction) :
    (foldConstants fl f).code = f.code.map (List.map (foldOne fl)) := by
  simp [foldConstants, IrFunction.code]

theorem simplified_foldConstants (fl : Floats) (f : IrFunction) :
    (foldConstants fl f).code.map (List.map simplify) =
      f.code.map (List.map (rewritten fl)) := by
  rw [foldConstants_code, List.map_map]
  refine map_congr_left fun insts _ => ?_
  simp [rewritten]

theorem symsOf_spec {P : Nat → Prop} {f : IrFunction} :
    (∀ s ∈ symsOf f, P s) ↔ ∀ i ∈ f.code.flatten, SymsOk P i := by
  simp only [symsOf, List.mem_map, mem_filter, mem_flatMap,
    decide_eq_true_eq]
  constructor
  · intro h i hi o ho hk
    exact h o.val ⟨o, ⟨⟨i, hi, ho⟩, hk⟩, rfl⟩
  · rintro h _ ⟨o, ⟨⟨i, hi, ho⟩, hk⟩, rfl⟩
    exact h i hi o ho hk

theorem behaviour_resolve (fl : Floats) (env : Env) (t : Target)
    (syms : Nat → Nat) (f : IrFunction) (m : Machine) :
    behaviour fl env (resolveFunction t syms f) m =
      seenOf fl env (resolveCode t syms f.code) m := by
  unfold behaviour seenOf
  rw [resolveFunction_code]

/-- **Simplifying commutes with resolving for a target**, in every run whose steps meet `StepOk`:
    the function that is folded, simplified and then resolved returns the same value and makes the
    same calls and stores in the same order. -/
theorem simplification_commutes (fl : Floats) (env : Env) (t : Target)
    (fold : Nat → Option Nat) (mod : IrModule) (f g : IrFunction) (start : Machine)
    (hverify : verifyFunction mod f = true) (hbody : f.isExtern = false)
    (hbuilt : Built f) (hstart : start.Typed fl t f.temps)
    (hresolve : layoutResolve t fold f = some g)
    (hrun : RunOk fl env t (fun s => (fold s).getD 0) f.code 0 start) :
    ∃ g', layoutResolve t fold (applyPeepholeRules (foldConstants fl f)) = some g' ∧
      behaviour fl env g' start = behaviour fl env g start := by
  have hgood : ∀ i ∈ f.code.flatten, InstGood f.temps i ∧
      InstOk f.temps (rewritten fl i) := by
    intro i hi
    obtain ⟨hindices, hcheck⟩ := verifyFunction_mem hverify hbody hi
    have htyped := instTyped_of_verified hindices hcheck (hbuilt.operand i hi)
    obtain ⟨hjump, hbranch⟩ := targets_of_verified hcheck
    have hresult := hbuilt.result i hi
    refine ⟨⟨htyped, hresult, fun hop hk => ?_, hjump, hbranch⟩,
      rewritten_ok htyped hresult hjump hbranch⟩
    rw [← (htyped.unary (by rw [hop]; rfl)).resolve_left (by simp [hk])]
    exact htyped.operand _ (by simp [IrInst.operands]) hk
  have hok : CodeOk f.temps (count (foldConstants fl f)).uses
      ((foldConstants fl f).code.map (List.map simplify)) := by
    refine ⟨?_, fun x => ?_⟩
    · rw [simplified_foldConstants]
      intro i hi
      rw [← map_flatten] at hi
      obtain ⟨j, hj, rfl⟩ := List.mem_map.mp hi
      exact (hgood j hj).2
    · have hcount : (count (foldConstants fl f)).uses x =
          usesIn (foldConstants fl f).code.flatten x := by
        rfl
      rw [hcount, ← map_flatten]
      exact simplify_usesIn _ x
  have hchanges := applyPeepholeRules_changes hok
  unfold layoutResolve at hresolve
  split at hresolve
  · next hsyms =>
    obtain rfl := some.inj hresolve
    refine ⟨resolveFunction t (fun s => (fold s).getD 0)
      (applyPeepholeRules (foldConstants fl f)), ?_, ?_⟩
    · unfold layoutResolve
      rw [if_pos]
      rw [symsOf_spec] at hsyms ⊢
      refine Changes.syms hchanges hok fun i hi => ?_
      rw [simplified_foldConstants, ← map_flatten] at hi
      obtain ⟨j, hj, rfl⟩ := List.mem_map.mp hi
      exact rewritten_syms (hsyms j hj)
    · rw [behaviour_resolve, behaviour_resolve,
        ← Changes.seenOf_eq hchanges hok hstart, simplified_foldConstants]
      refine congrArg Set.range (funext fun n => ?_)
      rw [rewritten_runBlocks (fun i hi => (hgood i hi).1) n 0 start hstart hrun]
  · cases hresolve

/-! ## A division that rounds -/

/-- A function that returns from its first block shows two things. -/
theorem behaviour_ret {fl : Floats} {env : Env} {f : IrFunction} {m : Machine}
    {insts : List IrInst} {v : Nat} {trace : List Event}
    (hcode : f.code[0]? = some insts)
    (hexec : execBlock fl env insts m = .ret v trace) :
    behaviour fl env f m = {.running m.trace, .returned v trace} := by
  have hnext : ∀ n, runBlocks fl env f.code (n + 1) 0 m = .ended (.ret v trace) := by
    intro n
    rw [runBlocks_ended fl env hcode fun _ _ => by rw [hexec]; nofun, hexec]
  ext seen
  constructor
  · rintro ⟨n, rfl⟩
    cases n with
    | zero => exact .inl rfl
    | succ n => exact .inr (congrArg Run.seen (hnext n))
  · rintro (rfl | rfl)
    · exact ⟨0, rfl⟩
    · exact ⟨1, congrArg Run.seen (hnext 0)⟩

/-- A machine without floating-point numbers: every comparison is false. -/
def noFloats : Floats where
  double _ _ _ := 0
  single _ _ _ := 0
  compare _ _ _ := false
  neg d := d
  round d := d % 2 ^ 64
  ofInt _ := 0
  ofIntSingle _ := 0
  toInt _ := none
  widen _ := 0
  narrow _ := 0
  round_round _ := Nat.mod_mod _ _
  round_lt _ := Nat.mod_lt _ (by norm_num)
  add_comm _ _ := rfl
  mul_comm _ _ := rfl
  single_add_comm _ _ := rfl
  single_mul_comm _ _ := rfl
  eq_comm _ _ := rfl
  ne_comm _ _ := rfl
  toInt_signed _ _ h := by cases h
  toInt_unsigned _ _ h := by cases h

def noEvents : Env := ⟨fun _ => 0, fun _ => false, fun _ _ => 0⟩

/-- `fn half(x: c_wchar) -> c_wchar { return x / 2 }`, as lowering writes it. -/
def halfWchar : IrFunction where
  module := some [109]
  name := [104]
  params := [{ type := .cwchar, temp := 0 }]
  result := .cwchar
  blocks := [{ insts := [
    { op := .udiv, type := .cwchar, result := 1, a := ⟨.temp, .cwchar, 0⟩,
      b := ⟨.int, .cwchar, 2⟩ },
    { op := .ret, type := .cwchar, a := ⟨.temp, .cwchar, 1⟩ }] }]
  temps := [.cwchar, .cwchar]

/-- The machine that has `x` in the first parameter. -/
def passing (x : Nat) : Machine := ⟨fun r => if r = 0 then x else 0, []⟩

theorem halfWchar_built : Built halfWchar where
  operand := by
    intro i hi o ho
    simp only [halfWchar, IrFunction.code, map_cons, map_nil,
      flatten_cons, flatten_nil, append_nil, mem_cons,
      not_mem_nil, or_false] at hi
    rcases hi with rfl | rfl <;>
      simp only [IrInst.operands, mem_cons, not_mem_nil, or_false] at ho <;>
      rcases ho with rfl | rfl | rfl <;> first | exact fun _ => rfl | rintro ⟨⟩
  result := by
    intro i hi
    simp only [halfWchar, IrFunction.code, map_cons, map_nil,
      flatten_cons, flatten_nil, append_nil, mem_cons,
      not_mem_nil, or_false] at hi
    rcases hi with rfl | rfl
    · exact fun _ => rfl
    · exact fun h => absurd rfl h

theorem passing_typed {x : Nat} (hx : x < 2 ^ 32) :
    (passing x).Typed noFloats .linuxX8664 halfWchar.temps := by
  intro r type hr
  have hzero : trimTo noFloats (Target.linuxX8664.type .cwchar) 0 = 0 := rfl
  have hkeep : trimTo noFloats (Target.linuxX8664.type .cwchar) x = x := Nat.mod_eq_of_lt hx
  obtain rfl : type = .cwchar := by
    match r, hr with
    | 0, hr => exact (some.inj hr).symm
    | 1, hr => exact (some.inj hr).symm
  simp only [passing]
  split
  · exact hkeep
  · exact hzero

/-- Half of -3 is -1, and on Linux x86_64 the optimized function returns -2. -/
theorem halfWchar_rounds_down : verifyFunction {} halfWchar = true ∧ halfWchar.isExtern = false ∧
      Built halfWchar ∧
      (passing (2 ^ 32 - 3)).Typed noFloats .linuxX8664 halfWchar.temps ∧
      ∃ g g', layoutResolve .linuxX8664 (fun _ => none) halfWchar = some g ∧
        layoutResolve .linuxX8664 (fun _ => none)
          (applyPeepholeRules (foldConstants noFloats halfWchar)) = some g' ∧
        behaviour noFloats noEvents g (passing (2 ^ 32 - 3)) =
          {.running [], .returned (2 ^ 32 - 1) []} ∧
        behaviour noFloats noEvents g' (passing (2 ^ 32 - 3)) =
          {.running [], .returned (2 ^ 32 - 2) []} ∧
        behaviour noFloats noEvents g' (passing (2 ^ 32 - 3)) ≠
          behaviour noFloats noEvents g (passing (2 ^ 32 - 3)) := by
  have hg : behaviour noFloats noEvents
      (resolveFunction .linuxX8664 (fun _ => 0) halfWchar) (passing (2 ^ 32 - 3)) =
      {.running [], .returned (2 ^ 32 - 1) []} := behaviour_ret rfl rfl
  have hg' : behaviour noFloats noEvents (resolveFunction .linuxX8664 (fun _ => 0)
      (applyPeepholeRules (foldConstants noFloats halfWchar))) (passing (2 ^ 32 - 3)) =
      {.running [], .returned (2 ^ 32 - 2) []} := behaviour_ret rfl rfl
  refine ⟨by decide, rfl, halfWchar_built, passing_typed (by norm_num), _, _, rfl, rfl,
    hg, hg', fun h => ?_⟩
  have hmem : Seen.returned (2 ^ 32 - 2) [] ∈ behaviour noFloats noEvents
      (resolveFunction .linuxX8664 (fun _ => 0) halfWchar) (passing (2 ^ 32 - 3)) :=
    (hg'.symm.trans h) ▸ .inr rfl
  rw [hg] at hmem
  rcases hmem with hmem | hmem <;> cases hmem

theorem runOk_ret {fl : Floats} {env : Env} {t : Target} {syms : Nat → Nat}
    {code : List (List IrInst)} {m : Machine} {insts : List IrInst} {v : Nat}
    {trace : List Event} (hcode : code[0]? = some insts)
    (hexec : execBlock fl env (insts.map (resolveInst t syms)) m = .ret v trace)
    (hok : BlockOk fl env t syms insts m) : RunOk fl env t syms code 0 m := by
  intro n b' m' hrun insts' hinsts'
  cases n with
  | zero =>
    cases hrun
    rw [hcode] at hinsts'
    obtain rfl := some.inj hinsts'
    exact hok
  | succ n =>
    have hres : (resolveCode t syms code)[0]? =
        some (insts.map (resolveInst t syms)) := by simp [resolveCode, hcode]
    rw [runBlocks_ended fl env hres (by rw [hexec]; rintro _ _ ⟨⟩)] at hrun
    cases hrun

/-- Half of 6, on Linux x86_64. -/
theorem halfWchar_of_six : ∃ g', layoutResolve .linuxX8664 (fun _ => none)
        (applyPeepholeRules (foldConstants noFloats halfWchar)) = some g' ∧
      behaviour noFloats noEvents g' (passing 6) = behaviour noFloats noEvents
        (resolveFunction .linuxX8664 (fun _ => 0) halfWchar) (passing 6) := by
  refine simplification_commutes noFloats noEvents .linuxX8664 (fun _ => none) {}
    halfWchar _ (passing 6) (by decide) rfl halfWchar_built
    (passing_typed (by norm_num)) rfl (runOk_ret rfl rfl ?_)
  refine ⟨⟨fun _ => nofun, ⟨⟨nofun, nofun⟩, fun _ => ⟨by decide, rfl⟩, nofun⟩, ?_⟩, ?_⟩
  · exact ⟨nofun, fun _ _ _ => .inl (by decide), nofun⟩
  · intro _ m' _
    exact ⟨⟨nofun, ⟨⟨nofun, nofun⟩, nofun, nofun⟩, nofun, nofun, nofun⟩, nofun⟩

end AnticIr
