import Antic.Abi
import Antic.LayoutMembers

/-! # An aggregate in registers under System V

    An aggregate that is coerced is passed in words, one for each eightbyte.  Its
    caller and the function copy word `k` at byte `8 * k` of the aggregate, so a bit
    in an eightbyte without a word is lost.

    The words are read off the starts of the scalars, and every bit of the aggregate
    is in a word of the right class exactly where the starts cover the bits
    (`coerced_faithful`).  The registers are always there (`sysvParams_fit`). -/

namespace AnticAbi

open AnticIr AnticLayout List Option

/-! ## The words -/

/-- The word goes in an integer register. -/
def LlvmType.integer : LlvmType → Bool
  | .scalar .float | .scalar .double | .vector _ _ => false
  | _ => true

/-- The words that the eightbytes of a list take. -/
def wordTypes (members : List LayoutMember) (ks : List Nat) : List LlvmType :=
  ks.filterMap fun k => (sysvWord members k).map Prod.fst

section Words

variable {members : List LayoutMember}

theorem sysvWord_integer {k : Nat} {type : LlvmType} {integer : Bool}
    (h : sysvWord members k = some (type, integer)) : type.integer = integer := by
  unfold sysvWord at h
  dsimp only at h
  split at h
  · exact absurd h (by simp)
  · obtain ⟨rfl, rfl⟩ := Prod.mk.inj (some.inj h)
    split
    · rename_i hint
      exact hint.symm
    · rename_i hint
      rw [Bool.not_eq_true] at hint
      rw [hint]
      split
      · rfl
      · split
        · rfl
        · rfl

/-- An eightbyte takes a word exactly when a member starts in it. -/
theorem sysvWord_none {k : Nat} :
    sysvWord members k = none ↔ ∀ s ∈ members, s.offset / 8 ≠ k := by
  unfold sysvWord
  dsimp only
  constructor
  · intro h s hs hk
    split at h
    · rename_i hempty
      rw [List.isEmpty_iff] at hempty
      have hheld : s ∈ members.filter fun m => m.offset / 8 = k :=
        mem_filter.mpr ⟨hs, decide_eq_true hk⟩
      rw [hempty] at hheld
      exact absurd hheld not_mem_nil
    · exact absurd h (by simp)
  · intro h
    rw [if_pos]
    rw [List.isEmpty_iff, filter_eq_nil_iff]
    intro s hs hk
    exact h s hs (of_decide_eq_true hk)

/-- It is an integer word exactly when a member that is no float starts in it. -/
theorem sysvWord_i64 {k : Nat} :
    (sysvWord members k).map Prod.fst = some (.scalar .i64) ↔
      ∃ s ∈ members, s.offset / 8 = k ∧ isFloat s.type = false := by
  constructor
  · intro h
    obtain ⟨⟨type, integer⟩, hword, htype⟩ := map_eq_some_iff.mp h
    obtain rfl : type = .scalar .i64 := htype
    have hint := sysvWord_integer hword
    unfold sysvWord at hword
    dsimp only at hword
    split at hword
    · exact absurd hword (by simp)
    · obtain ⟨-, rfl⟩ := Prod.mk.inj (some.inj hword)
      obtain ⟨s, hs, hfloat⟩ := List.any_eq_true.mp hint.symm
      obtain ⟨hmem, hk⟩ := mem_filter.mp hs
      exact ⟨s, hmem, of_decide_eq_true hk, by simpa using hfloat⟩
  · rintro ⟨s, hs, hk, hfloat⟩
    have hheld : s ∈ members.filter fun m => m.offset / 8 = k :=
      mem_filter.mpr ⟨hs, decide_eq_true hk⟩
    have hany : (members.filter fun m => m.offset / 8 = k).any
        (fun m => !isFloat m.type) = true :=
      List.any_eq_true.mpr ⟨s, hheld, by rw [hfloat]; rfl⟩
    unfold sysvWord
    rw [if_neg, if_pos hany]
    · rfl
    · intro hempty
      rw [List.isEmpty_iff.mp hempty] at hheld
      exact absurd hheld not_mem_nil

/-- The loop over the eightbytes adds their words and counts them by class. -/
theorem foldl_next (members : List LayoutMember) :
    ∀ (ks : List Nat) (w : Words),
      ks.foldl (Words.next members) w =
        { out :=
            { w.out with
              types := w.out.types ++ wordTypes members ks
              wordCount := w.out.wordCount + (wordTypes members ks).length }
          ints := w.ints + (wordTypes members ks).countP (·.integer)
          floats := w.floats + (wordTypes members ks).countP (!·.integer) } := by
  intro ks
  induction ks with
  | nil =>
    intro w
    simp [wordTypes]
  | cons k ks ih =>
    intro w
    rw [foldl_cons, ih]
    cases hword : sysvWord members k with
    | none => simp [Words.next, wordTypes, hword]
    | some x =>
      obtain ⟨type, integer⟩ := x
      have hint := sysvWord_integer hword
      -- The word comes before those of the later eightbytes.
      have htypes : wordTypes members (k :: ks) = type :: wordTypes members ks := by
        simp [wordTypes, hword]
      rw [htypes]
      subst hint
      cases hi : type.integer
      · simp [Words.next, hword, AbiParam.push, hi, Nat.add_comm, Nat.add_left_comm,
          Nat.add_assoc]
      · simp [Words.next, hword, AbiParam.push, hi, Nat.add_comm, Nat.add_left_comm]

theorem sysvWords_some {agg : Layout} {w : Words} (h : sysvWords agg = some w) :
    0 < agg.size ∧ agg.size ≤ 16 ∧
      w.out = { coerce agg with
        types := wordTypes agg.members (List.range ((agg.size + 7) / 8))
        wordCount := (wordTypes agg.members (List.range ((agg.size + 7) / 8))).length } ∧
      w.ints = w.out.types.countP (·.integer) ∧
      w.floats = w.out.types.countP (!·.integer) := by
  unfold sysvWords at h
  split at h
  · exact absurd h (by simp)
  · rename_i hmemory
    simp only [not_or] at hmemory
    obtain rfl := some.inj h
    rw [foldl_next]
    refine ⟨Nat.pos_of_ne_zero hmemory.2.1, Nat.le_of_not_lt hmemory.1, ?_, ?_, ?_⟩
    · simp [coerce]
    · simp [coerce]
    · simp [coerce]

end Words

/-! ## The registers -/

/-- What is left of the registers after a parameter.  A scalar that finds none is on
    the stack, and a byval aggregate always is. -/
def Registers.after (left : Registers) (p : AbiParam) : Registers :=
  if p.kind = .byval then left
  else
    { ints := left.ints - p.types.countP (·.integer)
      floats := left.floats - p.types.countP (!·.integer) }

/-- What the result leaves of the registers. -/
def leftAfterResult (result : AbiParam) : Registers :=
  { ints := if result.kind = .sret then sysvIntArgs - 1 else sysvIntArgs
    floats := sysvFpArgs }

/-- Every word of a parameter finds a register. -/
def Fits (left : Registers) (p : AbiParam) : Prop :=
  p.types.countP (·.integer) ≤ left.ints ∧ p.types.countP (!·.integer) ≤ left.floats

/-- Every coerced aggregate of a parameter list fits in the registers that the
    parameters before it leave. -/
def AllFit (left : Registers) (params : List AbiParam) : Prop :=
  ∀ pre p post, params = pre ++ p :: post → p.kind = .coerce →
    Fits (pre.foldl Registers.after left) p

section Registers

variable {l : Layouts}

/-- The registers left, by the counters of the loop. -/
def Registers.left (r : Registers) : Registers :=
  { ints := sysvIntArgs - r.ints, floats := sysvFpArgs - r.floats }

theorem scalarName_integer (type : IrType) (bytes : Nat) :
    (LlvmType.scalar (scalarName type bytes)).integer = !isFloat type := by
  unfold scalarName isFloat
  by_cases hf32 : type = .f32
  · subst hf32
    rfl
  by_cases hf64 : type = .f64
  · subst hf64
    rfl
  rw [if_neg hf32, if_neg hf64]
  -- Only the width is left to decide.
  have hname : ∀ name : ScalarName, name ≠ .float → name ≠ .double →
      (LlvmType.scalar name).integer = true := by
    intro name h1 h2
    cases name <;> first | rfl | contradiction
  rw [hname]
  · simp [hf32, hf64]
  · repeat' split
    all_goals exact nofun
  · repeat' split
    all_goals exact nofun

theorem sysvParam_fits (r : Registers) (q : IrParam) :
    (sysvParam l r q).2.left = r.left.after (sysvParam l r q).1 ∧
      ((sysvParam l r q).1.kind = .coerce → Fits r.left (sysvParam l r q).1) := by
  unfold sysvParam
  split
  · -- A scalar takes one register.
    refine ⟨?_, fun h => absurd h (by simp [scalar])⟩
    have hint := scalarName_integer q.type (sizeOf l (irScalar q.type))
    cases hf : isFloat q.type
    · rw [hf] at hint
      simp [scalar, Registers.after, Registers.left, hint, Nat.sub_sub]
    · rw [hf] at hint
      simp [scalar, Registers.after, Registers.left, hint, Nat.sub_sub]
  · dsimp only
    split
    · refine ⟨?_, fun h => absurd h (by simp [vector])⟩
      simp [vector, Registers.after, Registers.left, LlvmType.integer, Nat.sub_sub]
    · split
      · exact ⟨rfl, fun h => absurd h (by simp [pointer])⟩
      · rename_i w hw
        obtain ⟨-, -, hout, hints, hfloats⟩ := sysvWords_some hw
        have hkind : w.out.kind = .coerce := by
          rw [hout]
          rfl
        split
        · rename_i hroom
          refine ⟨?_, fun _ => ?_⟩
          · rw [Registers.after, if_neg (by rw [hkind]; exact nofun), ← hints, ← hfloats]
            simp [Registers.left, Nat.sub_sub]
          · unfold Fits Registers.left
            dsimp only
            omega
        · exact ⟨rfl, fun h => absurd h (by simp [pointer])⟩

theorem sysvParams_cons (r : Registers) (q : IrParam) (ps : List IrParam) :
    sysvParams l r (q :: ps) =
      (sysvParam l r q).1 :: sysvParams l (sysvParam l r q).2 ps := rfl

/-- **A coerced aggregate fits in the registers left by the parameters before it.** -/
theorem sysvParams_fit :
    ∀ (ps : List IrParam) (r : Registers), AllFit r.left (sysvParams l r ps) := by
  intro ps
  induction ps with
  | nil =>
    intro r pre p post h
    cases pre with
    | nil => exact absurd h (by simp [sysvParams])
    | cons _ _ => exact absurd h (by simp [sysvParams])
  | cons q ps ih =>
    intro r pre p post h hkind
    obtain ⟨hleft, hfits⟩ := sysvParam_fits (l := l) r q
    rw [sysvParams_cons] at h
    cases pre with
    | nil =>
      obtain ⟨rfl, -⟩ := h
      exact hfits hkind
    | cons p0 pre =>
      rw [cons_append, cons.injEq] at h
      obtain ⟨rfl, htail⟩ := h
      rw [foldl_cons, ← hleft]
      exact ih _ pre p post htail hkind

end Registers

/-! ## The bits -/

/-- A bit of the scalar lies in eightbyte `k`. -/
def Touches (x : Scalar) (k : Nat) : Prop :=
  64 * k < x.first + x.width ∧ x.first < 64 * (k + 1)

/-- The words of aggregate `i` carry it: word `k` is the word of eightbyte `k`, every eightbyte with
    a bit of a scalar has a word, and it is of class INTEGER where the scalar is no float. -/
structure Faithful (l : Layouts) (i : Nat) (p : AbiParam) (xs : List Scalar) : Prop where
  count : p.wordCount = p.types.length
  word : ∀ k < p.types.length,
    p.types[k]? = (sysvWord (l.aggs i).members k).map Prod.fst
  covered : ∀ x ∈ xs, ∀ k, Touches x k → k < p.types.length
  integer : ∀ x ∈ xs, ∀ k, Touches x k → isFloat x.type = false →
    p.types[k]? = some (.scalar .i64)

/-- Every eightbyte with a bit of a scalar is one where a scalar starts that the
    layout keeps: one that is no float, if the scalar is none. -/
def StartsCover (xs : List Scalar) : Prop :=
  ∀ x ∈ xs, ∀ k, Touches x k →
    (∃ s, Kept (xs.map Scalar.start) s ∧ s.offset / 8 = k) ∧
      (isFloat x.type = false →
        ∃ s, Kept (xs.map Scalar.start) s ∧ s.offset / 8 = k ∧ isFloat s.type = false)

section Bits

theorem wordTypes_get {members : List LayoutMember} {count : Nat} (hcount : count ≤ 2)
    (hfirst : sysvWord members 0 ≠ none) :
    ∀ k < count,
      (wordTypes members (List.range count))[k]? = (sysvWord members k).map Prod.fst := by
  intro k hk
  obtain ⟨x, hx⟩ := ne_none_iff_exists'.mp hfirst
  obtain rfl | rfl : count = 1 ∨ count = 2 := by omega
  · obtain rfl : k = 0 := by omega
    simp [wordTypes, hx]
  · obtain rfl | rfl : k = 0 ∨ k = 1 := by omega
    · simp [wordTypes, range_succ, hx]
    · cases h1 : sysvWord members 1 with
      | none => simp [wordTypes, range_succ, hx, h1]
      | some y => simp [wordTypes, range_succ, hx, h1]

/-- The words of an aggregate carry it exactly where the starts of its scalars cover its bits. -/
theorem words_faithful {l : Layouts} (hl : AllLaid l) {i : Nat} {w : Words}
    (hw : sysvWords (l.aggs i) = some w) {n : Nat} {xs : List Scalar}
    (hxs : scalars l n (irAggregate i) 0 = some xs)
    (hkept : ∀ s, s ∈ (l.aggs i).members ↔ Kept (xs.map Scalar.start) s) :
    Faithful l i w.out xs ↔ StartsCover xs := by
  obtain ⟨hpos, hsize, hout, -, -⟩ := sysvWords_some hw
  -- Every touched eightbyte is one of the loop.
  have hrange : ∀ x ∈ xs, ∀ k, Touches x k → k < ((l.aggs i).size + 7) / 8 := by
    intro x hx k htouch
    have hend := (scalars_within hl n (irAggregate i) 0 xs hxs x hx).2.1
    have h := htouch.1
    rw [show sizeOf l (irAggregate i) = (l.aggs i).size from rfl] at hend
    omega
  have htypes : w.out.types =
      wordTypes (l.aggs i).members (List.range (((l.aggs i).size + 7) / 8)) := by
    rw [hout]
  constructor
  · intro h x hx k htouch
    have hlen := h.covered x hx k htouch
    have hword := h.word k hlen
    refine ⟨?_, fun hfloat => ?_⟩
    · rw [getElem?_eq_getElem hlen] at hword
      by_contra hnone
      have hno : sysvWord (l.aggs i).members k = none :=
        sysvWord_none.mpr fun s hs hk => hnone ⟨s, (hkept s).mp hs, hk⟩
      rw [hno] at hword
      exact absurd hword (by simp)
    · rw [h.integer x hx k htouch hfloat] at hword
      obtain ⟨s, hs, hk, hint⟩ := sysvWord_i64.mp hword.symm
      exact ⟨s, (hkept s).mp hs, hk, hint⟩
  · intro h
    have hword : ∀ x ∈ xs, ∀ k, Touches x k → sysvWord (l.aggs i).members k ≠ none := by
      intro x hx k htouch hnone
      obtain ⟨s, hs, hk⟩ := (h x hx k htouch).1
      exact sysvWord_none.mp hnone s ((hkept s).mpr hs) hk
    -- A scalar has the first bit, so the words start with that of the first eightbyte.
    obtain ⟨x0, hx0, hat⟩ := scalars_start hl n (irAggregate i) 0 xs hxs hpos
    have hwidth := (scalars_within hl n (irAggregate i) 0 xs hxs x0 hx0).2.2
    have hfirst := hword x0 hx0 0 ⟨by omega, by omega⟩
    have hcount : ((l.aggs i).size + 7) / 8 ≤ 2 := by omega
    have hget := wordTypes_get hcount hfirst
    rw [← htypes] at hget
    have hcovered : ∀ x ∈ xs, ∀ k, Touches x k → k < w.out.types.length := by
      intro x hx k htouch
      obtain ⟨y, hy⟩ := ne_none_iff_exists'.mp (hword x hx k htouch)
      have hsome := hget k (hrange x hx k htouch)
      rw [hy] at hsome
      exact (List.getElem?_eq_some_iff.mp hsome).1
    refine ⟨by rw [hout], ?_, hcovered, ?_⟩
    · intro k hk
      refine hget k (Nat.lt_of_lt_of_le hk ?_)
      rw [htypes, wordTypes]
      exact Nat.le_trans (length_filterMap_le _ _) (by rw [length_range])
    · intro x hx k htouch hfloat
      rw [hget k (hrange x hx k htouch), sysvWord_i64]
      obtain ⟨s, hs, hk, hint⟩ := (h x hx k htouch).2 hfloat
      exact ⟨s, (hkept s).mpr hs, hk, hint⟩

end Bits

/-! ## The classification -/

/-- The aggregates that a function passes by value, with their classification: its
    parameters, then its result. -/
def passedAggregates (t : Target) (l : Layouts) (f : IrFunction) : List (Nat × AbiParam) :=
  ((f.params.zip (abiClassify t l f).1).filter fun x => x.1.type = .agg).map
      (fun x => (x.1.agg, x.2)) ++
    if f.result = .agg then [(f.resultAgg, (abiClassify t l f).2)] else []

section Classify

variable {t : Target} {l : Layouts} {f : IrFunction}

theorem sysvParam_coerce {r : Registers} {q : IrParam}
    (h : (sysvParam l r q).1.kind = .coerce) :
    ∃ w, sysvWords (l.aggs q.agg) = some w ∧ (sysvParam l r q).1 = w.out := by
  unfold sysvParam at h ⊢
  split at h
  · exact absurd h (by simp [scalar])
  · rename_i htype
    rw [if_neg htype]
    dsimp only at h ⊢
    split at h
    · exact absurd h (by simp [vector])
    · rename_i hvector
      rw [if_neg hvector]
      split at h
      · exact absurd h (by simp [pointer])
      · rename_i w hw
        rw [hw]
        split at h
        · rename_i hroom
          rw [if_pos hroom]
          exact ⟨w, rfl, rfl⟩
        · exact absurd h (by simp [pointer])

theorem sysvParams_coerce :
    ∀ (ps : List IrParam) (r : Registers), ∀ x ∈ ps.zip (sysvParams l r ps),
      x.2.kind = .coerce → ∃ w, sysvWords (l.aggs x.1.agg) = some w ∧ x.2 = w.out := by
  intro ps
  induction ps with
  | nil =>
    intro r x hx
    exact absurd hx not_mem_nil
  | cons q ps ih =>
    intro r x hx hkind
    rcases mem_cons.mp hx with rfl | hx
    · exact sysvParam_coerce hkind
    · exact ih _ x hx hkind

theorem sysvResult_coerce {result : AbiParam} (hresult : f.result = .agg)
    (h : (sysvResult l f result).1.kind = .coerce) :
    ∃ w, sysvWords (l.aggs f.resultAgg) = some w ∧ (sysvResult l f result).1 = w.out := by
  unfold sysvResult at h ⊢
  rw [if_pos hresult] at h ⊢
  dsimp only at h ⊢
  split at h
  · exact absurd h (by simp [vector])
  · rename_i hvector
    rw [if_neg hvector]
    cases hw : sysvWords (l.aggs f.resultAgg) with
    | none =>
      rw [hw] at h
      exact absurd h (by simp [pointer])
    | some w => exact ⟨w, rfl, rfl⟩

theorem sysvResult_left {result : AbiParam} (hresult : result.kind ≠ .sret) :
    (sysvResult l f result).2.left = leftAfterResult (sysvResult l f result).1 := by
  unfold sysvResult
  split
  · dsimp only
    split
    · rfl
    · split
      · rfl
      · rename_i w hw
        obtain ⟨-, -, hout, -, -⟩ := sysvWords_some hw
        have hkind : w.out.kind = .coerce := by
          rw [hout]
          rfl
        rw [leftAfterResult, if_neg (by rw [hkind]; exact nofun)]
        rfl
  · rw [leftAfterResult, if_neg hresult]
    rfl

theorem abiClassify_sysv (ht : conventionOf t = .sysv) :
    ∃ result : AbiParam, result.kind ≠ .sret ∧
      abiClassify t l f =
        (sysvParams l (sysvResult l f result).2 f.params, (sysvResult l f result).1) := by
  unfold abiClassify
  rw [ht]
  refine ⟨_, ?_, rfl⟩
  split
  · exact nofun
  · split
    · simp [scalar]
    · exact nofun

end Classify

/-- **An aggregate in registers loses no bit exactly where the starts of its scalars
    cover its bits**, for every aggregate that is coerced; and one is coerced only
    where its words find the registers that the parameters before it leave. -/
theorem coerced_faithful :
    ∀ (fuel : Nat) (t : Target) (m : IrModule) (l : Layouts) (f : IrFunction),
      (∀ agg ∈ m.aggs, aggOk agg = true) → layoutInit fuel t m = some l →
      l.failed = false → conventionOf t = .sysv →
      AllFit (leftAfterResult (abiClassify t l f).2) (abiClassify t l f).1 ∧
        ∀ x ∈ passedAggregates t l f, x.1 < m.aggs.length → x.2.kind = .coerce →
          ∃ n xs, scalars l n (irAggregate x.1) 0 = some xs ∧
            (Faithful l x.1 x.2 xs ↔ StartsCover xs) := by
  intro fuel t m l f hok hl hf ht
  obtain ⟨result, hresult, heq⟩ := abiClassify_sysv (l := l) (f := f) ht
  constructor
  · rw [heq, ← sysvResult_left hresult]
    exact sysvParams_fit f.params _
  · intro x hx hi hkind
    have hwords : ∃ w, sysvWords (l.aggs x.1) = some w ∧ x.2 = w.out := by
      unfold passedAggregates at hx
      rw [heq] at hx
      rcases mem_append.mp hx with hx | hx
      · obtain ⟨y, hy, rfl⟩ := List.mem_map.mp hx
        exact sysvParams_coerce f.params _ y (mem_filter.mp hy).1 hkind
      · split at hx
        · rename_i hagg
          obtain rfl := mem_singleton.mp hx
          exact sysvResult_coerce hagg hkind
        · exact absurd hx not_mem_nil
    obtain ⟨w, hw, hout⟩ := hwords
    have hsize : (l.aggs x.1).size ≤ layoutMemberLimit :=
      Nat.le_trans (sysvWords_some hw).2.1 (by decide)
    obtain ⟨hlaid, n, xs, hxs, hkept⟩ := members_kept hok hl hf hi hsize
    rw [hout]
    exact ⟨n, xs, hxs, words_faithful hlaid hw hxs hkept⟩

/-- A module with one struct, and a function that takes it by value. -/
def oneStruct (fields : List IrField) (packed : Bool) : IrModule where
  aggs :=
    [{ kind := .struct, name := [83], fields := fields, packed := packed, simd := false,
       align := 0, length := 0, lengthText := none }]

def takesStruct : IrFunction where
  module := none
  name := [102]
  params := [{ type := .agg, agg := 0, temp := 0 }]
  result := .void

theorem passed_takesStruct {t : Target} {l : Layouts} {p : AbiParam}
    (h : (abiClassify t l takesStruct).1 = [p]) :
    (0, p) ∈ passedAggregates t l takesStruct := by
  unfold passedAggregates
  rw [h]
  exact mem_singleton.mpr rfl

/-- Two floats and an integer. -/
def floatsAndInt : IrModule :=
  oneStruct
    [⟨some [97], irScalar .f32, 0, .none, false⟩, ⟨some [98], irScalar .f32, 0, .none, false⟩,
      ⟨some [99], irScalar .i32, 0, .none, false⟩] false

/-- The floats share a word, and the integer has its own. -/
theorem coerced_floatsAndInt :
    ∃ l p xs, layoutInit 4 .linuxX8664 floatsAndInt = some l ∧
      (abiClassify .linuxX8664 l takesStruct).1 = [p] ∧
      p.types = [.vector 2 .float, .scalar .i64] ∧ Faithful l 0 p xs := by
  have hsome : ((layoutInit 4 .linuxX8664 floatsAndInt).map fun l =>
      (l.failed, (abiClassify .linuxX8664 l takesStruct).1,
        scalars l 4 (irAggregate 0) 0)) =
      some (false,
        [{ kind := .coerce, types := [.vector 2 .float, .scalar .i64], wordCount := 2,
           size := 12, align := 4 }],
        some [⟨.f32, 0, 32⟩, ⟨.f32, 32, 32⟩, ⟨.i32, 64, 32⟩]) := by
    decide +kernel
  obtain ⟨l, hl, heq⟩ := map_eq_some_iff.mp hsome
  simp only [Prod.mk.injEq] at heq
  obtain ⟨hf, hparams, hscalars⟩ := heq
  obtain ⟨-, hall⟩ :=
    coerced_faithful 4 .linuxX8664 floatsAndInt l takesStruct (by decide) hl hf rfl
  obtain ⟨n, xs, hxs, hiff⟩ := hall _ (passed_takesStruct hparams) (by decide) rfl
  obtain rfl := scalars_unique hscalars hxs
  refine ⟨l, _, _, hl, hparams, rfl, hiff.mpr ?_⟩
  have hkept : ∀ s ∈ [(⟨0, .f32⟩ : LayoutMember), ⟨4, .f32⟩, ⟨8, .i32⟩],
      Kept [⟨0, .f32⟩, ⟨4, .f32⟩, ⟨8, .i32⟩] s :=
    fun s hs => kept_of_mem hs (by decide)
  intro x hx k htouch
  unfold Touches at htouch
  simp only [mem_cons, not_mem_nil, or_false] at hx
  rcases hx with rfl | rfl | rfl
  · obtain rfl : k = 0 := by
      dsimp only at htouch
      omega
    exact ⟨⟨_, hkept ⟨0, .f32⟩ (by decide), rfl⟩, nofun⟩
  · obtain rfl : k = 0 := by
      dsimp only at htouch
      omega
    exact ⟨⟨_, hkept ⟨0, .f32⟩ (by decide), rfl⟩, nofun⟩
  · obtain rfl : k = 1 := by
      dsimp only at htouch
      omega
    exact ⟨⟨_, hkept ⟨8, .i32⟩ (by decide), rfl⟩, fun _ => ⟨_, hkept ⟨8, .i32⟩ (by decide), rfl, rfl⟩⟩

/-- A packed struct of nine bytes whose second bitfield has bits 60 to 69. -/
def crossingBits : IrModule :=
  oneStruct
    [⟨some [97], irScalar .i64, 60, .none, false⟩, ⟨some [98], irScalar .i16, 10, .none, false⟩]
    true

/-- `crossingBits` is coerced to one word, and bits 64 to 69 have none. -/
theorem coerced_losesBits :
    ¬ ∀ (fuel : Nat) (t : Target) (m : IrModule) (l : Layouts) (f : IrFunction),
      (∀ agg ∈ m.aggs, aggOk agg = true) → layoutInit fuel t m = some l →
      l.failed = false → conventionOf t = .sysv →
      ∀ x ∈ passedAggregates t l f, x.1 < m.aggs.length → x.2.kind = .coerce →
        ∀ n xs, scalars l n (irAggregate x.1) 0 = some xs → Faithful l x.1 x.2 xs := by
  intro hall
  have hsome : ((layoutInit 4 .linuxX8664 crossingBits).map fun l =>
      (l.failed, (abiClassify .linuxX8664 l takesStruct).1,
        scalars l 4 (irAggregate 0) 0)) =
      some (false,
        [{ kind := .coerce, types := [.scalar .i64], wordCount := 1, size := 9, align := 1 }],
        some [⟨.i64, 0, 60⟩, ⟨.i16, 60, 10⟩]) := by
    decide +kernel
  obtain ⟨l, hl, heq⟩ := map_eq_some_iff.mp hsome
  simp only [Prod.mk.injEq] at heq
  obtain ⟨hf, hparams, hscalars⟩ := heq
  have hfaithful := hall 4 .linuxX8664 crossingBits l takesStruct (by decide) hl hf rfl _
    (passed_takesStruct hparams) (by decide) rfl 4 _ hscalars
  have hword := hfaithful.covered ⟨.i16, 60, 10⟩ (by decide) 1 ⟨by decide, by decide⟩
  exact absurd hword (by decide)

end AnticAbi
