import Antic.DefiniteAssignment
import Antic.LayoutProofs
import Antic.Memcheck

/-! # `--memory-checks` misses no foreign access

    The turns of `frame_addresses` end at a set that every instruction respects
    (`frameAddresses_respects`).  So along a run each temporary of the set holds an
    address of the frame or of a global, or what one of them held at the entry
    (`tracked_frame`).  Every other address takes a check (`covers_of_touch`), which
    stands right before the access (`checkedInsts_at`). -/

namespace AnticMemcheck

open AnticIr AnticLayout List

/-! ## The loop of `frame_addresses` -/

section Frame

variable {f : IrFunction}

theorem dropForeign_subset (frame : Finset Nat) (inst : IrInst) :
    dropForeign frame inst ⊆ frame := by
  unfold dropForeign
  split
  · exact Finset.erase_subset _ _
  · exact Finset.Subset.refl _

theorem foldl_dropForeign_subset (insts : List IrInst) :
    ∀ frame, insts.foldl dropForeign frame ⊆ frame := by
  induction insts with
  | nil =>
    intro frame
    exact Finset.Subset.refl _
  | cons inst rest ih =>
    intro frame
    exact Finset.Subset.trans (ih _) (dropForeign_subset frame inst)

/-- Every instruction that writes a temporary of the set gives an address in the
    frame or in a global. -/
def Respects (f : IrFunction) (frame : Finset Nat) : Prop :=
  ∀ inst ∈ f.insts, inst.result ≠ irNoResult → inst.result ∈ frame → fromFrame frame inst = true

theorem respects_of_fold (frame : Finset Nat) :
    ∀ insts : List IrInst, insts.foldl dropForeign frame = frame →
      ∀ inst ∈ insts, inst.result ≠ irNoResult → inst.result ∈ frame →
        fromFrame frame inst = true := by
  intro insts
  induction insts with
  | nil =>
    intro _ inst hi
    exact absurd hi not_mem_nil
  | cons first rest ih =>
    intro h inst hi hres hmem
    -- The rest only shrinks the set, so the first instruction kept it.
    have hfirst : dropForeign frame first = frame := by
      refine Finset.Subset.antisymm (dropForeign_subset frame first) ?_
      have hrest := foldl_dropForeign_subset rest (dropForeign frame first)
      rw [foldl_cons] at h
      rwa [h] at hrest
    rw [foldl_cons, hfirst] at h
    rcases mem_cons.mp hi with rfl | hi
    · by_contra hfrom
      rw [dropForeign, if_pos ⟨hres, hmem, Bool.not_eq_true _ ▸ hfrom⟩] at hfirst
      exact absurd hmem (hfirst ▸ Finset.notMem_erase _ _)
    · exact ih h inst hi hres hmem

theorem frameLoop_respects (turns : Nat) : ∀ frame : Finset Nat, frame.card < turns →
      Respects f (frameLoop f turns frame) := by
  induction turns with
  | zero =>
    intro frame h
    exact absurd h (Nat.not_lt_zero _)
  | succ turns ih =>
    intro frame h
    have hsub : frameTurn f frame ⊆ frame := foldl_dropForeign_subset _ _
    unfold frameLoop
    by_cases hsame : frameTurn f frame = frame
    · rw [if_pos hsame]
      exact respects_of_fold frame f.insts hsame
    · rw [if_neg hsame]
      have hlt : (frameTurn f frame).card < frame.card :=
        Finset.card_lt_card (Finset.ssubset_iff_subset_ne.mpr ⟨hsub, hsame⟩)
      exact ih (frameTurn f frame) (by omega)

/-- **The turns of `frame_addresses` are enough**: the set they end at is respected
    by every instruction. -/
theorem frameAddresses_respects (f : IrFunction) : Respects f (frameAddresses f) :=
  frameLoop_respects _ _ (Nat.lt_succ_self _)

end Frame

/-! ## The checks of an instruction -/

section Insert

variable {m : IrModule} {l : Layouts} {entry : Checks} {frame : Finset Nat}

/-- A call that `check` puts in. -/
def IsCheck (entry : Checks) (c : IrInst) : Prop :=
  ∃ store address size line, c = checkCall entry store address size line

theorem isCheck_of_check {store : Bool} {address : IrOperand} {size line : Nat}
    {c : IrInst} (h : c ∈ check entry frame store address size line) :
    IsCheck entry c := by
  unfold check at h
  split at h
  · exact absurd h not_mem_nil
  · exact ⟨store, address, size, line, mem_singleton.mp h⟩

theorem isCheck_of_checkInst {inst c : IrInst}
    (h : c ∈ checkInst m l entry frame inst) : IsCheck entry c := by
  unfold checkInst at h
  split at h <;> simp only [mem_append, or_assoc] at h
  all_goals
    first
    | exact absurd h not_mem_nil
    | rcases h with h | h | h | h <;> exact isCheck_of_check h
    | rcases h with h | h | h <;> exact isCheck_of_check h
    | rcases h with h | h <;> exact isCheck_of_check h
    | exact isCheck_of_check h

theorem touches_check {c : IrInst} (h : IsCheck entry c) : touches m l c = [] := by
  obtain ⟨store, address, size, line, rfl⟩ := h
  rfl

/-- The instructions of a block with checks put in before them. -/
inductive Woven (entry : Checks) : List IrInst → List IrInst → Prop
  | nil : Woven entry [] []
  | check {c : IrInst} {xs ys : List IrInst} :
      IsCheck entry c → Woven entry xs ys → Woven entry xs (c :: ys)
  | keep {inst : IrInst} {xs ys : List IrInst} :
      Woven entry xs ys → Woven entry (inst :: xs) (inst :: ys)

theorem Woven.checks {xs ys : List IrInst} (h : Woven entry xs ys) :
    ∀ cs : List IrInst, (∀ c ∈ cs, IsCheck entry c) → Woven entry xs (cs ++ ys) := by
  intro cs
  induction cs with
  | nil =>
    intro _
    exact h
  | cons c cs ih =>
    intro hcs
    exact .check (hcs c mem_cons_self) (ih fun c hc => hcs c (mem_cons_of_mem _ hc))

theorem checkedInsts_woven (insts : List IrInst) :
    Woven entry insts (checkedInsts m l entry frame insts) := by
  induction insts with
  | nil => exact .nil
  | cons inst rest ih =>
    rw [checkedInsts, flatMap_cons, append_assoc]
    exact (Woven.keep ih).checks _ fun c hc => isCheck_of_checkInst hc

/-- What stands at a position of a block: a check, or an instruction of the block
    with its checks right before it. -/
theorem checkedInsts_at {y : IrInst} : ∀ (insts : List IrInst) (p : Nat),
      (checkedInsts m l entry frame insts)[p]? = some y →
      IsCheck entry y ∨ (y ∈ insts ∧ ∃ k, p = k + (checkInst m l entry frame y).length ∧
        ∀ j, j < (checkInst m l entry frame y).length →
          (checkedInsts m l entry frame insts)[k + j]? = (checkInst m l entry frame y)[j]?) := by
  intro insts
  induction insts with
  | nil =>
    intro p h
    exact absurd h (by simp [checkedInsts])
  | cons inst rest ih =>
    intro p h
    have hcons : checkedInsts m l entry frame (inst :: rest) =
        checkInst m l entry frame inst ++ inst :: checkedInsts m l entry frame rest := by
      rw [checkedInsts, flatMap_cons, append_assoc]
      rfl
    rw [hcons] at h ⊢
    rcases Nat.lt_trichotomy p (checkInst m l entry frame inst).length with hp | hp | hp
    · rw [getElem?_append_left hp] at h
      exact .inl (isCheck_of_checkInst (mem_of_getElem? h))
    · -- The instruction itself, after its own checks.
      subst hp
      rw [getElem?_append_right (Nat.le_refl _), Nat.sub_self] at h
      obtain rfl := Option.some.inj h
      refine .inr ⟨mem_cons_self, 0, (Nat.zero_add _).symm, ?_⟩
      intro j hj
      rw [Nat.zero_add, getElem?_append_left hj]
    · obtain ⟨q, rfl⟩ := Nat.exists_eq_add_of_lt hp
      have hshift : ∀ i, (checkInst m l entry frame inst ++
          inst :: checkedInsts m l entry frame rest)[
            (checkInst m l entry frame inst).length + 1 + i]? =
          (checkedInsts m l entry frame rest)[i]? := by
        intro i
        rw [getElem?_append_right (by omega),
          show (checkInst m l entry frame inst).length + 1 + i -
            (checkInst m l entry frame inst).length = i + 1 by omega,
          getElem?_cons_succ]
      rw [show (checkInst m l entry frame inst).length + q + 1 =
        (checkInst m l entry frame inst).length + 1 + q by omega, hshift] at h
      rcases ih q h with hc | ⟨hy, k, hk, hbefore⟩
      · exact .inl hc
      · refine .inr ⟨mem_cons_of_mem _ hy,
          (checkInst m l entry frame inst).length + 1 + k, by omega, ?_⟩
        intro j hj
        rw [Nat.add_assoc, hshift]
        exact hbefore j hj

end Insert

/-! ## The checks cover what is touched -/

section Cover

variable {m : IrModule} {l : Layouts} {entry : Checks} {frame : Finset Nat}

/-- No check is put before an access of this operand. -/
def Exempt (frame : Finset Nat) (o : IrOperand) : Prop :=
  o.kind = .global ∨ (o.kind = .temp ∧ o.val ∈ frame)

/-- The check has the operand of the touched bytes and a size that reaches their end. -/
def Covers (entry : Checks) (c : IrInst) (t : Touch) : Prop :=
  ∃ size line, t.last ≤ size ∧ size < 2 ^ 64 ∧ c = checkCall entry t.store t.address size line

theorem mem_check {t : Touch} {size line : Nat} (hlt : t.first < t.last)
    (hle : t.last ≤ size) (hmax : size < 2 ^ 64) (hout : ¬ Exempt frame t.address) :
    ∃ c ∈ check entry frame t.store t.address size line, Covers entry c t := by
  refine ⟨checkCall entry t.store t.address size line, ?_, size, line, hle, hmax, rfl⟩
  rw [check, if_neg (by
    rintro (h | h)
    · omega
    · exact hout h)]
  exact mem_singleton.mpr rfl

variable {type : IrType} {inst : IrInst}

theorem sizeOf_scalar (h : type ≠ .agg) :
    sizeOf l (irScalar type) = scalarSize l.target type := if_neg h

theorem valueBytes_le : valueBytes l type ≤ sizeOf l (irScalar type) := by
  unfold valueBytes
  by_cases h : type = .agg
  · rw [if_pos h]
    exact Nat.zero_le _
  · rw [if_neg h, sizeOf_scalar h]

theorem sizeOf_lt (h : 0 < valueBytes l type) : sizeOf l (irScalar type) ≤ 8 := by
  unfold valueBytes at h
  split at h
  · exact absurd h (Nat.lt_irrefl _)
  · rename_i htype
    rw [sizeOf_scalar htype]
    exact (scalarSize_pos l.target type).2

theorem scalarSize_lane (t : Target) (h : irLaneBytes type ≠ 0) :
    type ≠ .agg ∧ scalarSize t type = irLaneBytes type := by
  cases type <;> first | exact absurd rfl h | exact ⟨by decide, rfl⟩

theorem vectorOk_lanes {f : IrFunction} (hok : ∀ agg ∈ m.aggs, aggOk agg = true)
    (h : vectorOk m f inst = true) :
    ∃ agg, m.aggs[inst.of.agg]? = some agg ∧ irLaneBytes inst.type ≠ 0 ∧
      irLaneBytes inst.type * agg.fields.length ≤ 256 ∧
      laneOpOk inst.op inst.field inst.type = true := by
  unfold vectorOk at h
  split at h
  · exact absurd h (by simp)
  · rename_i agg hagg
    simp only [Bool.and_eq_true, decide_eq_true_eq] at h
    obtain ⟨⟨⟨⟨⟨hsimd, hcap⟩, htype⟩, hop⟩, -⟩, -⟩ := h
    have hget : m.aggs[inst.of.agg]? = some agg := by
      split at hagg
      · exact hagg
      · exact absurd hagg (by simp)
    have hverify : verifySimdAgg agg = true := by
      have h := hok agg (mem_of_getElem? hget)
      simp only [aggOk, Bool.and_eq_true, hsimd] at h
      exact h.1.1.2
    rw [← htype] at hcap hop
    refine ⟨agg, hget, ?_, hcap, hop⟩
    -- A simd struct has lanes of a type that has lanes.
    unfold verifySimdAgg at hverify
    cases hfields : agg.fields with
    | nil =>
      rw [hfields] at hverify
      exact absurd hverify (by simp)
    | cons first rest =>
      rw [hfields] at hverify htype
      simp only [Bool.and_eq_true, simdShape, decide_eq_true_eq] at hverify
      rw [htype]
      exact hverify.2.1.1.1

theorem lanes_cover {f : IrFunction} (hok : ∀ agg ∈ m.aggs, aggOk agg = true)
    (h : vectorOk m f inst = true) :
    vectorBytes m inst (valueBytes l inst.type) ≤ lanes m l inst false ∧
      lanes m l inst false < 2 ^ 64 ∧
      vectorBytes m inst 1 ≤ lanes m l inst true ∧ lanes m l inst true < 2 ^ 64 := by
  obtain ⟨agg, hagg, hlane, hcap, -⟩ := vectorOk_lanes hok h
  obtain ⟨htype, hbytes⟩ := scalarSize_lane l.target hlane
  have hsize : sizeOf l (irScalar inst.type) = irLaneBytes inst.type :=
    (sizeOf_scalar htype).trans hbytes
  have hcount : agg.fields.length ≤ 256 :=
    Nat.le_trans (Nat.le_mul_of_pos_left _ (Nat.pos_of_ne_zero hlane)) hcap
  rw [Nat.mul_comm] at hcap
  unfold vectorBytes lanes
  rw [hagg]
  simp only [Bool.false_eq_true, if_false, if_true, hsize]
  refine ⟨?_, by omega, by omega, by omega⟩
  rw [← hsize]
  exact Nat.mul_le_mul_left _ valueBytes_le

theorem fold_cover {f : IrFunction} (hok : ∀ agg ∈ m.aggs, aggOk agg = true)
    (h : vectorOk m f inst = true) (hop : inst.op = .vreduce)
    (hfold : inst.field = IrOp.or.num ∨ inst.field = IrOp.and.num) :
    vectorBytes m inst (valueBytes l inst.type) = vectorBytes m inst 1 := by
  obtain ⟨agg, hagg, -, -, hlane⟩ := vectorOk_lanes hok h
  have htype : inst.type = .i8 := by
    rw [hop, laneOpOk] at hlane
    rcases hfold with hfold | hfold <;>
    · rw [hfold] at hlane
      simpa using hlane
  rw [htype]
  rfl

theorem unit_cover {i field : Nat} {agg : IrAggtype} {g : IrField}
    (hlaid : Laid l agg (l.aggs i)) (hg : agg.fields[field]? = some g)
    (hbits : g.bits ≠ 0) {bits : LayoutBits}
    (hget : (l.aggs i).bits.getD field {} = bits) (hpos : 0 < valueBytes l bits.unitType) :
    bits.unitOffset + sizeOf l (irScalar bits.unitType) < 2 ^ 64 := by
  have hsize := sizeOf_lt hpos
  by_cases hk : agg.kind = .array
  · -- An array has no bitfields, and its entry is the empty one.
    obtain ⟨p, hshape, hleads⟩ := hlaid.computed
    obtain ⟨n, -, hp⟩ := hleads.array hk g (mem_of_getElem? hg)
    have hzero : bits = {} := by
      rw [← hget, hshape.bits, if_pos hk, hp, arrayPlace, getD_eq_getElem?_getD, getElem?_map, hg]
      rfl
    rw [hzero] at hsize ⊢
    exact Nat.lt_of_le_of_lt (Nat.le_of_eq (Nat.zero_add _)) (by omega)
  · have hlt : field < (l.aggs i).bits.length := by
      rw [hlaid.bits]
      exact (List.getElem?_eq_some_iff.mp hg).1
    have hunit := hlaid.units hk (g, bits) (mem_iff_getElem?.mpr ⟨field,
      getElem?_zip_eq_some.mpr ⟨hg, by
        rw [← hget, getD_eq_getElem _ _ hlt]
        exact getElem?_eq_getElem hlt⟩⟩) hbits
    have hin : bits.unitOffset + scalarSize l.target bits.unitType ≤ (l.aggs i).size := hunit.inside
    have hmax := hlaid.sizeMax
    unfold uint64Max at hmax
    omega

/-- A check that has to be put in for the touched bytes. -/
def Checked (entry : Checks) (frame : Finset Nat) (t : Touch) (size line : Nat) :
    Prop :=
  t.first < t.last → ¬ Exempt frame t.address →
    ∃ c ∈ check entry frame t.store t.address size line, Covers entry c t

theorem checked_scalar (store : Bool) (o : IrOperand) (type : IrType) (line : Nat) :
    Checked entry frame ⟨store, o, 0, valueBytes l type⟩ (sizeOf l (irScalar type))
      line := by
  intro hlt hout
  have hsize := sizeOf_lt hlt
  exact mem_check hlt valueBytes_le (by omega) hout

theorem checked_unit {g : IrField} (hlaid : ∀ i agg, m.aggs[i]? = some agg → Laid l agg (l.aggs i))
    (hg : ((m.aggs[inst.of.agg]?).bind fun t => t.fields[inst.field]?) = some g)
    (hbits : g.bits ≠ 0) (store : Bool) (o : IrOperand) (line : Nat) :
    Checked entry frame (unitTouch l store o inst) (bitUnitEnd l inst) line := by
  intro hlt hout
  obtain ⟨agg, hagg, hg⟩ := Option.bind_eq_some_iff.mp hg
  have hpos : 0 < valueBytes l ((l.aggs inst.of.agg).bits.getD inst.field {}).unitType :=
    Nat.pos_of_lt_add_right hlt
  exact mem_check hlt (Nat.add_le_add_left valueBytes_le _)
    (unit_cover (hlaid _ _ hagg) hg hbits rfl hpos) hout

theorem checked_whole {f : IrFunction} (hok : ∀ agg ∈ m.aggs, aggOk agg = true)
    (h : vectorOk m f inst = true) (store : Bool) (o : IrOperand) (line : Nat) :
    Checked entry frame ⟨store, o, 0, vectorBytes m inst (valueBytes l inst.type)⟩
      (lanes m l inst false) line := by
  intro hlt hout
  obtain ⟨hle, hmax, -, -⟩ := @lanes_cover m l _ _ hok h
  exact mem_check hlt hle hmax hout

theorem checked_mask {f : IrFunction} (hok : ∀ agg ∈ m.aggs, aggOk agg = true)
    (h : vectorOk m f inst = true) (store : Bool) (o : IrOperand) (line : Nat) :
    Checked entry frame ⟨store, o, 0, vectorBytes m inst 1⟩ (lanes m l inst true)
      line := by
  intro hlt hout
  obtain ⟨-, -, hle, hmax⟩ := @lanes_cover m l _ _ hok h
  exact mem_check hlt hle hmax hout

theorem checked_copy (hlaid : ∀ i agg, m.aggs[i]? = some agg → Laid l agg (l.aggs i))
    (h : vtypeOk m inst = true) (store : Bool) (o : IrOperand) (line : Nat) :
    Checked entry frame ⟨store, o, 0, sizeOf l inst.of⟩ (sizeOf l inst.of) line := by
  intro hlt hout
  refine mem_check hlt (Nat.le_refl _) ?_ hout
  simp only [vtypeOk, Bool.and_eq_true, Bool.or_eq_true, decide_eq_true_eq] at h
  unfold AnticLayout.sizeOf
  split
  · rename_i hagg
    have hi := h.2.resolve_left fun hne => hne hagg
    have hmax := (hlaid _ _ (getElem?_eq_getElem hi)).sizeMax
    unfold uint64Max at hmax
    omega
  · have := (scalarSize_pos l.target inst.of.type).2
    omega

theorem bitfield_of_check
    (h : (match (m.aggs[inst.of.agg]?).bind fun t => t.fields[inst.field]? with
      | none => false
      | some field => decide (field.bits ≠ 0)) = true) :
    ∃ g, ((m.aggs[inst.of.agg]?).bind fun t => t.fields[inst.field]?) = some g ∧
      g.bits ≠ 0 := by
  split at h
  · exact absurd h Bool.false_ne_true
  · rename_i g hg
    exact ⟨g, hg, of_decide_eq_true h⟩

/-- **Every byte that is touched outside the frame is covered** by a check of the same operand. -/
theorem covers_of_touch {f : IrFunction} (hok : ∀ agg ∈ m.aggs, aggOk agg = true)
    (hlaid : ∀ i agg, m.aggs[i]? = some agg → Laid l agg (l.aggs i))
    (hinst : AnticIr.checkInst m f inst = true) :
    ∀ t ∈ touches m l inst, t.first < t.last → ¬ Exempt frame t.address →
      ∃ c ∈ checkInst m l entry frame inst, Covers entry c t := by
  intro t ht hlt hout
  have done : ∀ {u size line}, Checked entry frame u size line → t = u →
      (∀ c ∈ check entry frame u.store u.address size line, c ∈ checkInst m l entry frame inst) →
      ∃ c ∈ checkInst m l entry frame inst, Covers entry c t := by
    rintro u size line h rfl hmem
    obtain ⟨c, hc, hcover⟩ := h hlt hout
    exact ⟨c, hmem c hc, hcover⟩
  have hvec : inst.op ∈ [.vbinary, .vunary, .vsplat, .vselect, .vshuffle, .vreduce] →
      vectorOk m f inst = true := by
    intro hop
    simp only [mem_cons, not_mem_nil, or_false] at hop
    rcases hop with hop | hop | hop | hop | hop | hop <;>
      simpa only [AnticIr.checkInst, hop] using hinst
  unfold touches at ht
  split at ht <;> rename_i hop <;>
    simp only [mem_cons, not_mem_nil, or_false] at ht
  · -- A load.
    exact done (checked_scalar false inst.a inst.type inst.line) ht (by simp [checkInst, hop])
  · -- A store.
    exact done (checked_scalar true inst.b inst.type inst.line) ht (by simp [checkInst, hop])
  · -- A bitfield is read.
    simp only [AnticIr.checkInst, hop, Bool.and_eq_true] at hinst
    obtain ⟨g, hg, hbits⟩ := bitfield_of_check hinst.2
    exact done (checked_unit hlaid hg hbits false inst.a inst.line) ht
      (by simp [checkInst, hop, unitTouch])
  · -- A bitfield is written.
    simp only [AnticIr.checkInst, hop, Bool.and_eq_true] at hinst
    obtain ⟨g, hg, hbits⟩ := bitfield_of_check hinst.2
    exact done (checked_unit hlaid hg hbits true inst.b inst.line) ht
      (by simp [checkInst, hop, unitTouch])
  · -- A copy reads `b` and writes `a`.
    simp only [AnticIr.checkInst, hop, Bool.and_eq_true] at hinst
    rcases ht with ht | ht
    · exact done (checked_copy hlaid hinst.2 false inst.b inst.line) ht
        (by simp +contextual [checkInst, hop])
    · exact done (checked_copy hlaid hinst.2 true inst.a inst.line) ht
        (by simp +contextual [checkInst, hop])
  · -- A lane operation; a comparison writes a mask.
    have hvec := hvec (by simp [hop])
    rcases ht with ht | ht | ht
    · exact done (checked_whole hok hvec false inst.b inst.line) ht
        (by simp +contextual [checkInst, hop])
    · exact done (checked_whole hok hvec false inst.c inst.line) ht
        (by simp +contextual [checkInst, hop])
    · by_cases hcmp : isComparison inst.field = true
      · rw [if_pos hcmp] at ht
        exact done (checked_mask (l := l) hok hvec true inst.a inst.line) ht
          (by simp +contextual [checkInst, hop, hcmp])
      · rw [if_neg hcmp] at ht
        exact done (checked_whole hok hvec true inst.a inst.line) ht
          (by simp +contextual [checkInst, hop, hcmp])
  · -- One operand.
    have hvec := hvec (by simp [hop])
    rcases ht with ht | ht
    · exact done (checked_whole hok hvec false inst.b inst.line) ht
        (by simp +contextual [checkInst, hop])
    · exact done (checked_whole hok hvec true inst.a inst.line) ht
        (by simp +contextual [checkInst, hop])
  · -- A shuffle.
    have hvec := hvec (by simp [hop])
    rcases ht with ht | ht
    · exact done (checked_whole hok hvec false inst.b inst.line) ht
        (by simp +contextual [checkInst, hop])
    · exact done (checked_whole hok hvec true inst.a inst.line) ht
        (by simp +contextual [checkInst, hop])
  · -- A scalar goes into every lane.
    exact done (checked_whole hok (hvec (by simp [hop])) true inst.a inst.line) ht
      (by simp [checkInst, hop])
  · -- A select reads a mask and two vectors.
    have hvec := hvec (by simp [hop])
    rcases ht with ht | ht | ht | ht
    · exact done (checked_mask (l := l) hok hvec false inst.b inst.line) ht
        (by simp +contextual [checkInst, hop])
    · exact done (checked_whole hok hvec false inst.c inst.line) ht
        (by simp +contextual [checkInst, hop])
    · exact done (checked_whole hok hvec false (inst.args.getD 0 .absent) inst.line) ht
        (by simp +contextual [checkInst, hop])
    · exact done (checked_whole hok hvec true inst.a inst.line) ht
        (by simp +contextual [checkInst, hop])
  · -- A fold by `or` or `and` reads a mask.
    have hvec := hvec (by simp [hop])
    by_cases hfold : inst.field = IrOp.or.num ∨ inst.field = IrOp.and.num
    · rw [fold_cover hok hvec hop hfold] at ht
      exact done (checked_mask (l := l) hok hvec false inst.a inst.line) ht
        (by simp [checkInst, hop, hfold])
    · exact done (checked_whole hok hvec false inst.a inst.line) ht
        (by simp [checkInst, hop, hfold])

end Cover

/-! ## Where the addresses of a run came from -/

section Runs

variable {m : IrModule} {l : Layouts} {entry : Checks} {f : IrFunction}

/-- An instruction of the checked code is a check, or one of the function with its
    checks right before it. -/
theorem memcheck_instAt {p : Nat × Nat} {inst : IrInst}
    (h : instAt (memcheckFunction m l entry f).code p = some inst) :
    IsCheck entry inst ∨ (inst ∈ f.code.flatten ∧ ∃ k,
      p.2 = k + (checkInst m l entry (frameAddresses f) inst).length ∧
      ∀ j, j < (checkInst m l entry (frameAddresses f) inst).length →
        instAt (memcheckFunction m l entry f).code (p.1, k + j) =
          (checkInst m l entry (frameAddresses f) inst)[j]?) := by
  obtain ⟨insts, hget, hpos⟩ := Option.bind_eq_some_iff.mp h
  have hblocks : ∀ b : Nat, (memcheckFunction m l entry f).code[b]? =
      (f.blocks[b]?).map fun block : IrBlock =>
        checkedInsts m l entry (frameAddresses f) block.insts := by
    intro b
    rw [code_getElem?]
    show ((f.blocks.map _)[b]?).map IrBlock.insts = _
    rw [getElem?_map, Option.map_map]
    rfl
  have hb := hget
  rw [hblocks] at hget
  obtain ⟨block, hblock, rfl⟩ := Option.map_eq_some_iff.mp hget
  rcases checkedInsts_at block.insts p.2 hpos with hc | ⟨hmem, k, hk, hbefore⟩
  · exact .inl hc
  · refine .inr ⟨?_, k, hk, ?_⟩
    · exact mem_flatten.mpr ⟨block.insts, List.mem_map_of_mem (mem_of_getElem? hblock), hmem⟩
    · intro j hj
      show ((memcheckFunction m l entry f).code[p.1]?).bind _ = _
      rw [hb]
      exact hbefore j hj

/-- The address of a temporary of the set came from the frame or a global, or is
    what a temporary of the set held at the entry. -/
def FrameInv (f : IrFunction) (origin : Nat → Origin) : Prop :=
  ∀ x ∈ frameAddresses f, origin x = .own ∨ ∃ y ∈ frameAddresses f, origin x = .entry y

variable {origin : Nat → Origin}

theorem track_frame {inst : IrInst} (h : FrameInv f origin)
    (hi : inst ∈ f.code.flatten) : FrameInv f (track origin inst) := by
  intro x hx
  unfold track
  split
  · exact h x hx
  · rename_i hwrites
    by_cases hxr : x = inst.result
    · subst hxr
      rw [Function.update_self]
      have hinsts : inst ∈ f.insts := by
        exact hi
      -- The set respects the instruction that wrote it.
      have hfrom := frameAddresses_respects f inst hinsts (fun hr => hwrites (.inr (.inr hr))) hx
      simp only [fromFrame, Bool.or_eq_true, Bool.and_eq_true, decide_eq_true_eq]
        at hfrom
      rcases hfrom with (hslot | ⟨haddr, hglobal⟩) | ⟨⟨hcopy, htemp⟩, hmem⟩
      · exact .inl (by rw [resultOrigin, hslot])
      · exact .inl (by rw [resultOrigin, haddr]; simp only [operandOrigin, hglobal])
      · have hop : resultOrigin origin inst = origin inst.a.val := by
          rcases hcopy with hcopy | hcopy <;>
            simp only [resultOrigin, hcopy, operandOrigin, htemp]
        rw [hop]
        exact h _ hmem
    · rw [Function.update_of_ne hxr]
      exact h x hx

/-- **The set of `frame_addresses` is sound along every run.** -/
theorem tracked_frame {M : Meaning} {m₀ : MemMachine} {s : At}
    (h : Tracked M (memcheckFunction m l entry f).code m₀ s origin) :
    FrameInv f origin := by
  induction h with
  | start =>
    intro x hx
    exact .inr ⟨x, hx, rfl⟩
  | step _ hinst _ ih =>
    rcases memcheck_instAt hinst with ⟨store, address, size, line, rfl⟩ | ⟨hi, -⟩
    · -- A check has no result.
      exact ih
    · exact track_frame ih hi

theorem FrameInv.checked (h : FrameInv f origin) {o : IrOperand}
    (ho : Foreign f origin o) : ¬ Exempt (frameAddresses f) o := by
  rintro (hglobal | ⟨htemp, hmem⟩)
  · exact ho.1 (by simp only [operandOrigin, hglobal])
  · have hop : operandOrigin origin o = origin o.val := by
      simp only [operandOrigin, htemp]
    rcases h _ hmem with hown | ⟨y, hy, hentry⟩
    · exact ho.1 (hop.trans hown)
    · exact ho.2 y hy (hop.trans hentry)

/-- Right before a place stand checks, and one of them covers the touched bytes. -/
def CheckedBefore (entry : Checks) (code : List (List IrInst)) (p : Nat × Nat) (t : Touch) : Prop :=
  ∃ k c, k < p.2 ∧ instAt code (p.1, k) = some c ∧ Covers entry c t ∧
    ∀ j, k ≤ j → j < p.2 → ∃ c, instAt code (p.1, j) = some c ∧ IsCheck entry c

/-- **NO FOREIGN ACCESS IS MISSED.**  The instructions of the function stay as they are and in
    order.  In every run, an instruction that is reached and touches bytes at an address that came
    neither from the frame or a global nor from what a temporary of `frameAddresses` held at the
    entry has a check of that operand right before it, whose size covers the bytes. -/
theorem memcheck_misses_none {fuel : Nat} {t : Target} (hok : ∀ agg ∈ m.aggs, aggOk agg = true)
    (hl : layoutInit fuel t m = some l) (hf : l.failed = false)
    (hverify : verifyFunction m f = true) (hbody : f.isExtern = false) :
    ((memcheckFunction m l entry f) = { f with blocks := (memcheckFunction m l entry f).blocks } ∧
      List.Forall₂ (fun block block' : IrBlock => block'.fail = block.fail ∧
          Woven entry block.insts block'.insts)
        f.blocks (memcheckFunction m l entry f).blocks) ∧
    ∀ (M : Meaning) (m₀ : MemMachine) (s : At) (origin : Nat → Origin) (inst : IrInst),
      Tracked M (memcheckFunction m l entry f).code m₀ s origin →
      instAt (memcheckFunction m l entry f).code (s.block, s.pos) = some inst →
      ∀ touch ∈ touches m l inst, touch.first < touch.last → Foreign f origin touch.address →
        CheckedBefore entry (memcheckFunction m l entry f).code (s.block, s.pos)
          touch := by
  refine ⟨⟨rfl, ?_⟩, ?_⟩
  · show List.Forall₂ _ f.blocks (f.blocks.map _)
    rw [forall₂_map_right_iff]
    exact forall₂_same.mpr fun block _ => ⟨rfl, checkedInsts_woven block.insts⟩
  · intro M m₀ s origin inst hrun hinst touch htouch hlt hforeign
    rcases memcheck_instAt hinst with hc | ⟨hi, k, hk, hbefore⟩
    · rw [touches_check hc] at htouch
      exact absurd htouch not_mem_nil
    · have hlaid : ∀ i agg, m.aggs[i]? = some agg → Laid l agg (l.aggs i) :=
        fun i agg hi => layoutInit_laid hok hl hf hi
      obtain ⟨c, hc, hcover⟩ := covers_of_touch hok hlaid
        (verifyFunction_mem hverify hbody hi).2 touch htouch hlt
        ((tracked_frame hrun).checked hforeign)
      obtain ⟨j, hj, rfl⟩ := mem_iff_getElem.mp hc
      refine ⟨k + j, _, by omega, (hbefore j hj).trans (getElem?_eq_getElem hj), hcover, ?_⟩
      intro i hki hip
      obtain ⟨d, rfl⟩ : ∃ d, i = k + d := ⟨i - k, by omega⟩
      have hd : d < (checkInst m l entry (frameAddresses f) inst).length := by omega
      exact ⟨_, (hbefore d hd).trans (getElem?_eq_getElem hd),
        isCheck_of_checkInst (getElem_mem hd)⟩

end Runs

/-! ## Two functions -/

section Examples

/-- The tables of a module without aggregates. -/
def noTables : Layouts := { target := .linuxX8664, m := {} }

/-- The indices of the two check functions. -/
def twoChecks : Checks := ⟨0, 1⟩

/-- Registers and memory of zeros. -/
def zeros : MemMachine := { regs := fun _ => 0, mem := fun _ => 0, events := [] }

/-- A function that loads through its parameter, and gives it the next address. -/
def throughParam : IrFunction where
  module := none
  name := []
  result := .i64
  params := [{ type := .ptr, temp := 0 }]
  temps := [.ptr, .i64]
  blocks := [{ insts := [
    { op := .load, type := .i64, result := 1, a := ⟨.temp, .ptr, 0⟩ },
    { op := .load, type := .ptr, result := 0, a := ⟨.temp, .ptr, 0⟩ },
    { op := .ret, type := .i64, a := ⟨.temp, .i64, 1⟩ }] }]

/-- The check that both loads take. -/
def paramCheck : IrInst := checkCall twoChecks false ⟨.temp, .ptr, 0⟩ 8 0

theorem memcheck_throughParam :
    CheckedBefore twoChecks (memcheckFunction {} noTables twoChecks throughParam).code
      (0, 1) ⟨false, ⟨.temp, .ptr, 0⟩, 0, 8⟩ := by
  have hcode : (memcheckFunction {} noTables twoChecks throughParam).code =
      [(throughParam.code.getD 0 []).flatMap fun inst =>
        if inst.op = .load then [paramCheck, inst] else [inst]] := by
    decide +kernel
  have hall := (@memcheck_misses_none {} noTables twoChecks throughParam 0 .linuxX8664
    (by simp) rfl rfl (by decide +kernel) rfl).2
  rw [hcode] at hall ⊢
  have hrun := @Tracked.step plainMachine _ zeros _ _ .entry paramCheck (@Tracked.start _
    [(throughParam.code.getD 0 []).flatMap fun inst =>
      if inst.op = .load then [paramCheck, inst] else [inst]] _) rfl rfl
  refine hall _ _ _ _ _ hrun rfl _ mem_cons_self (by decide) ⟨?_, ?_⟩
  · exact Origin.noConfusion
  · intro x hx h
    obtain rfl := Origin.entry.inj h
    exact absurd hx (by decide +kernel)

/-- A function that loads 4096 bytes past its only slot, of eight bytes. -/
def strayOffset : IrFunction where
  module := none
  name := []
  result := .i64
  temps := [.ptr, .ptr, .i64]
  blocks := [{ insts := [
    { op := .slot, type := .ptr, result := 0, of := irScalar .i64 },
    { op := .ptradd, type := .ptr, result := 1, a := ⟨.temp, .ptr, 0⟩,
      b := ⟨.int, .i64, 4096⟩ },
    { op := .load, type := .i64, result := 2, a := ⟨.temp, .ptr, 1⟩ },
    { op := .ret, type := .i64, a := ⟨.temp, .i64, 2⟩ }] }]

/-- A machine that puts the slot at address 65536. -/
def slotMachine : Meaning := { plainMachine with answer := fun _ _ => 65536 }

/-- The module has no global, and the load is outside the slot; no check stands in the code. -/
theorem memcheck_strayOffset : verifyFunction {} strayOffset = true ∧ ∃ s inst, runSteps slotMachine
        (memcheckFunction {} noTables twoChecks strayOffset).code 2 (startAt zeros) = .at_ s ∧
      instAt (memcheckFunction {} noTables twoChecks strayOffset).code
        (s.block, s.pos) = some inst ∧
      touches {} noTables inst = [⟨false, ⟨.temp, .ptr, 1⟩, 0, 8⟩] ∧
      s.m.regs 0 = 65536 ∧ s.m.regs 1 = 69632 ∧
      ∀ c ∈ (memcheckFunction {} noTables twoChecks strayOffset).code.flatten,
        c.op ≠ .call := by
  have hcode : (memcheckFunction {} noTables twoChecks strayOffset).code =
      strayOffset.code := by
    decide +kernel
  rw [hcode]
  refine ⟨by decide +kernel, _, _, rfl, rfl, rfl, rfl, rfl, ?_⟩
  decide +kernel

end Examples

end AnticMemcheck
