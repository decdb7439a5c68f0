import Antic.LayoutData
import Antic.LayoutProofs

/-! # A bitfield is stored in its own bits

    A global is read as a sequence of bits, and a store is described by the bits it may change.

    1. `readInt_testBit` and `writeInt_bit` — what an integer of some bytes reads and writes, bit by
       bit, from one lemma for each loop.
    2. `writeBits_bit` — a bitfield whose unit covers it writes its own bits and puts back the
       others of the unit.
    3. `Touches` — a store changes bits of its range only; `writeConst_touches` says so of a
       constant of a laid-out type, by recursion on the constant.
    4. `bitfields_exact` — the fields of a struct, stored in any order. -/

namespace AnticLayout

open AnticIr List Option Nat

/-! ## The bits of a global -/

/-- Bit `p` of the bytes of a global. -/
def bitAt (g : IrGlobal) (p : Nat) : Bool := (g.bytes.getD (p / 8) 0).toNat.testBit (p % 8)

/-- The bytes of a global are there, and their count is a 64-bit number. -/
structure Sound (g : IrGlobal) : Prop where
  bytes : g.bytes.length = g.size
  max : g.size ≤ uint64Max

theorem wrap64_of_lt {g : IrGlobal} (h : Sound g) {n : Nat} (hn : n < g.size) :
    wrap64 n = n := by
  have := h.max
  unfold uint64Max at this
  exact mod_eq_of_lt (by omega)

theorem testBit_byte (v i k : Nat) (hk : k < 8) :
    (UInt8.ofNat (v >>> (i * 8))).toNat.testBit k = v.testBit (i * 8 + k) := by
  rw [UInt8.toNat_ofNat', testBit_mod_two_pow, testBit_shiftRight]
  simp [hk]

theorem bitAt_set {g : IrGlobal} {n : Nat} (hn : n < g.bytes.length) (v i p : Nat) :
    bitAt { g with bytes := g.bytes.set n (UInt8.ofNat (v >>> (i * 8))) } p =
      if p / 8 = n then v.testBit (i * 8 + p % 8) else bitAt g p := by
  unfold bitAt
  simp only [getD_eq_getElem?_getD]
  by_cases hp : p / 8 = n
  · rw [if_pos hp, hp, getElem?_set_self hn, getD_some, testBit_byte _ _ _ (mod_lt p (by decide))]
  · rw [if_neg hp, getElem?_set_ne (Ne.symm hp)]

/-- The loop of `write_int` writes the bits of the bytes that are left. -/
theorem writeIntFrom_bit (offset v : Nat) :
    ∀ (n i : Nat) (g : IrGlobal), Sound g → offset + i + n ≤ g.size →
      Sound (writeIntFrom offset v n i g) ∧
      (writeIntFrom offset v n i g).size = g.size ∧
      ∀ p, bitAt (writeIntFrom offset v n i g) p =
        if offset + i ≤ p / 8 ∧ p / 8 < offset + i + n
        then v.testBit (p - 8 * offset) else bitAt g p := by
  intro n
  induction n with
  | zero =>
    intro i g hg _
    refine ⟨hg, rfl, fun p => ?_⟩
    rw [if_neg (by omega)]
    rfl
  | succ n ih =>
    intro i g hg hin
    have hlt : offset + i < g.size := by omega
    have hwrap := wrap64_of_lt hg hlt
    unfold writeIntFrom
    rw [hwrap, if_pos hlt]
    obtain ⟨h1, h2, h3⟩ := ih (i + 1)
      { g with bytes := g.bytes.set (offset + i) (UInt8.ofNat (v >>> (i * 8))) }
      ⟨by simpa using hg.bytes, hg.max⟩
      (show offset + (i + 1) + n ≤ g.size by omega)
    refine ⟨h1, h2, fun p => ?_⟩
    rw [h3, bitAt_set (by rw [hg.bytes]; exact hlt)]
    -- The byte just stored, the bytes still to come, and the rest.
    by_cases hnow : p / 8 = offset + i
    · rw [if_neg (by omega), if_pos hnow, if_pos (by omega)]
      congr 1
      omega
    · rw [if_neg hnow]
      by_cases hnext : offset + (i + 1) ≤ p / 8 ∧ p / 8 < offset + (i + 1) + n
      · rw [if_pos hnext, if_pos (by omega)]
      · rw [if_neg hnext, if_neg (by omega)]

/-- The loop of `read_int` reads the bits of the bytes that are left. -/
theorem readIntFrom_testBit {g : IrGlobal} (hg : Sound g) (offset : Nat) :
    ∀ (n i bits : Nat), offset + i + n ≤ g.size → ∀ k, (readIntFrom g offset n i bits).testBit k =
        (bits.testBit k || (decide (8 * i ≤ k ∧ k < 8 * (i + n)) && bitAt g (8 * offset + k))) := by
  intro n
  induction n with
  | zero =>
    intro i bits _ k
    simp [readIntFrom]
  | succ n ih =>
    intro i bits hin k
    have hlt : offset + i < g.size := by omega
    have hbyte : (g.bytes.getD (offset + i) 0).toNat < 2 ^ 8 := UInt8.toNat_lt _
    unfold readIntFrom
    rw [wrap64_of_lt hg hlt, if_pos hlt, ih (i + 1) _ (by omega) k, testBit_lor, testBit_shiftLeft]
    by_cases hnow : 8 * i ≤ k ∧ k < 8 * i + 8
    · have h1 : i * 8 ≤ k := by omega
      have h2 : ¬ (8 * (i + 1) ≤ k ∧ k < 8 * (i + 1 + n)) := by omega
      have h3 : 8 * i ≤ k ∧ k < 8 * (i + (n + 1)) := by omega
      have h4 : (8 * offset + k) / 8 = offset + i := by omega
      have h5 : (8 * offset + k) % 8 = k - i * 8 := by omega
      simp [h1, h2, h3, bitAt, h4, h5]
    · have h1 : (decide (i * 8 ≤ k) && (g.bytes.getD (offset + i) 0).toNat.testBit
          (k - i * 8)) = false := by
        by_cases hle : i * 8 ≤ k
        · rw [testBit_lt_two_pow (hbyte.trans_le (Nat.pow_le_pow_right (by decide) (by omega)))]
          simp
        · simp [hle]
      have h2 : (8 * (i + 1) ≤ k ∧ k < 8 * (i + 1 + n)) ↔
          (8 * i ≤ k ∧ k < 8 * (i + (n + 1))) := by omega
      simp only [h1, Bool.or_false, h2]

theorem readInt_testBit {g : IrGlobal} (hg : Sound g) {offset size : Nat}
    (h : offset + size ≤ g.size) (k : Nat) :
    (readInt g offset size).testBit k = (decide (k < 8 * size) && bitAt g (8 * offset + k)) := by
  unfold readInt
  rw [readIntFrom_testBit hg offset size 0 0 (by omega) k]
  simp

/-! ## What a store changes -/

/-- From `g` to `g'` only bits from `lo` up to `hi` change. -/
structure Touches (g g' : IrGlobal) (lo hi : Nat) : Prop where
  sound : Sound g'
  size : g'.size = g.size
  frame : ∀ p, ¬ (lo ≤ p ∧ p < hi) → bitAt g' p = bitAt g p

theorem Touches.refl {g : IrGlobal} (h : Sound g) (lo hi : Nat) :
    Touches g g lo hi := ⟨h, rfl, fun _ _ => rfl⟩

theorem Touches.trans {g g' g'' : IrGlobal} {lo hi : Nat}
    (h : Touches g g' lo hi) (h' : Touches g' g'' lo hi) :
    Touches g g'' lo hi := by
  refine ⟨h'.sound, h'.size.trans h.size, fun p hp => ?_⟩
  rw [h'.frame p hp, h.frame p hp]

theorem Touches.mono {g g' : IrGlobal} {lo hi lo' hi' : Nat}
    (h : Touches g g' lo hi) (hlo : lo' ≤ lo) (hhi : hi ≤ hi') :
    Touches g g' lo' hi' :=
  ⟨h.sound, h.size, fun p hp => h.frame p fun hin => hp ⟨hlo.trans hin.1, hin.2.trans_le hhi⟩⟩

/-- `write_int` inside the global writes the bits of the integer. -/
theorem writeInt_bit {g : IrGlobal} (hg : Sound g) {offset size : Nat}
    (h : offset + size ≤ g.size) (v p : Nat) :
    bitAt (writeInt g offset size v) p =
      if 8 * offset ≤ p ∧ p < 8 * (offset + size)
      then v.testBit (p - 8 * offset) else bitAt g p := by
  unfold writeInt
  rw [(writeIntFrom_bit offset v size 0 g hg (by omega)).2.2 p]
  by_cases hp : 8 * offset ≤ p ∧ p < 8 * (offset + size)
  · rw [if_pos (by omega), if_pos hp]
  · rw [if_neg (by omega), if_neg hp]

theorem writeInt_touches {g : IrGlobal} (hg : Sound g) {offset size : Nat}
    (h : offset + size ≤ g.size) (v : Nat) :
    Touches g (writeInt g offset size v) (8 * offset) (8 * (offset + size)) := by
  obtain ⟨h1, h2, -⟩ := writeIntFrom_bit offset v size 0 g hg (by omega)
  refine ⟨h1, h2, fun p hp => ?_⟩
  rw [writeInt_bit hg h, if_neg hp]

/-! ## A bitfield -/

theorem testBit_bitsMask {width : Nat} (hw : width ≤ 64) (k : Nat) :
    (bitsMask width).testBit k = decide (k < width) := by
  unfold bitsMask
  split
  · have h64 : width = 64 := by omega
    rw [h64]
    exact testBit_two_pow_sub_one 64 k
  · rw [one_shiftLeft]
    exact testBit_two_pow_sub_one width k

theorem testBit_masked {width shift : Nat} (hw : shift + width ≤ 64) (value k : Nat) :
    (wrap64 ((value &&& bitsMask width) <<< shift)).testBit k =
      (decide (shift ≤ k ∧ k < shift + width) && value.testBit (k - shift)) := by
  unfold wrap64
  rw [testBit_mod_two_pow, testBit_shiftLeft, testBit_and, testBit_bitsMask (by omega)]
  by_cases hk : shift ≤ k ∧ k < shift + width
  · have h1 : k < 64 := by omega
    have h2 : k - shift < width := by omega
    simp [hk, h1, h2]
  · by_cases hle : shift ≤ k
    · have h2 : ¬ k - shift < width := by omega
      simp [hk, h2]
    · simp [hle]

section Bitfield

variable {l : Layouts} {g : IrGlobal} {f : IrField} {b : LayoutBits} {base size : Nat}

theorem sizeOf_irScalar (l : Layouts) {type : IrType} (h : type ≠ .agg) :
    sizeOf l (irScalar type) = scalarSize l.target type := by
  unfold sizeOf irScalar
  rw [if_neg h]

theorem sizeOf_unit_le (l : Layouts) (hb : b.unitType ≠ .agg) :
    sizeOf l (irScalar b.unitType) = scalarSize l.target b.unitType ∧
      scalarSize l.target b.unitType ≤ 8 :=
  ⟨sizeOf_irScalar l hb, (scalarSize_pos _ _).2⟩

/-- **A BITFIELD WRITES ITS OWN BITS.**  A unit that covers the field puts every
    other bit back as it was. -/
theorem writeBits_bit (hg : Sound g)
    (hu : UnitCovers l.target size f.bits b) (hin : base + size ≤ g.size)
    (value p : Nat) :
    bitAt (writeBits l g f b base value) p = (bitAt g p || (decide (8 * base + b.pos ≤ p ∧
          p < 8 * base + b.pos + f.bits) &&
        value.testBit (p - (8 * base + b.pos)))) := by
  obtain ⟨hsize, h8⟩ := sizeOf_unit_le l hu.scalar
  have hunit := hu.inside
  have hshift := hu.shift
  have hcovers := hu.covers
  have hpos := scalarSize_pos l.target b.unitType
  have hwrap : wrap64 (base + b.unitOffset) = base + b.unitOffset := wrap64_of_lt hg (by omega)
  unfold writeBits
  simp only [hwrap, hsize]
  rw [writeInt_bit hg (by omega)]
  by_cases hp : 8 * (base + b.unitOffset) ≤ p ∧
      p < 8 * (base + b.unitOffset + scalarSize l.target b.unitType)
  · rw [if_pos hp, testBit_lor, readInt_testBit hg (by omega), testBit_masked (by omega)]
    have h1 : p - 8 * (base + b.unitOffset) <
        8 * scalarSize l.target b.unitType := by omega
    have h2 : 8 * (base + b.unitOffset) + (p - 8 * (base + b.unitOffset)) = p := by
      omega
    have h3 : (b.shift ≤ p - 8 * (base + b.unitOffset) ∧
        p - 8 * (base + b.unitOffset) < b.shift + f.bits) ↔
        (8 * base + b.pos ≤ p ∧ p < 8 * base + b.pos + f.bits) := by omega
    have h4 : p - 8 * (base + b.unitOffset) - b.shift =
        p - (8 * base + b.pos) := by omega
    rw [h2, h4]
    simp only [h1, h3, decide_true, Bool.true_and]
  · rw [if_neg hp]
    have h3 : ¬ (8 * base + b.pos ≤ p ∧ p < 8 * base + b.pos + f.bits) := by omega
    simp [h3]

theorem writeBits_touches (hg : Sound g)
    (hu : UnitCovers l.target size f.bits b) (hin : base + size ≤ g.size)
    (value : Nat) :
    Touches g (writeBits l g f b base value) (8 * base + b.pos) (8 * base + b.pos + f.bits) := by
  obtain ⟨hsize, -⟩ := sizeOf_unit_le l hu.scalar
  have hunit := hu.inside
  have hpos := scalarSize_pos l.target b.unitType
  have hwrap : wrap64 (base + b.unitOffset) = base + b.unitOffset := wrap64_of_lt hg (by omega)
  have ht : Touches g (writeBits l g f b base value) (8 * (base + b.unitOffset))
      (8 * (base + b.unitOffset + scalarSize l.target b.unitType)) := by
    unfold writeBits
    simp only [hwrap, hsize]
    exact writeInt_touches hg (by omega) _
  refine ⟨ht.sound, ht.size, fun p hp => ?_⟩
  rw [writeBits_bit hg hu hin]
  simp [hp]

end Bitfield

/-! ## The tables after `layout_init` -/

/-- A fold of a symbolic value leaves the layouts as they are. -/
structure SameTables (l l' : Layouts) : Prop where
  target : l'.target = l.target
  m : l'.m = l.m
  aggs : l'.aggs = l.aggs
  aggState : l'.aggState = l.aggState

theorem SameTables.refl (l : Layouts) : SameTables l l := ⟨rfl, rfl, rfl, rfl⟩

theorem SameTables.trans {l l' l'' : Layouts} (h : SameTables l l')
    (h' : SameTables l' l'') : SameTables l l'' :=
  ⟨h'.target.trans h.target, h'.m.trans h.m, h'.aggs.trans h.aggs, h'.aggState.trans h.aggState⟩

theorem SameTables.sizeOf {l l' : Layouts} (h : SameTables l l')
    (v : IrVtype) : sizeOf l' v = sizeOf l v := by
  unfold AnticLayout.sizeOf
  rw [h.target, h.aggs]

theorem sameTables_fail (l : Layouts) (e : LayoutError) :
    SameTables l (l.fail e) := by
  unfold Layouts.fail
  split <;> exact ⟨rfl, rfl, rfl, rfl⟩

theorem sameTables_keep {l l' : Layouts} {sym v : Nat} {r : Option Nat}
    (h : keep l sym v = (l', r)) : SameTables l l' := by
  unfold keep at h
  split at h <;>
  · obtain ⟨rfl, -⟩ := Prod.mk.inj h
    exact ⟨rfl, rfl, rfl, rfl⟩

/-- Every aggregate of the module is laid out. -/
def AllDone (l : Layouts) : Prop := ∀ i agg, l.m.aggs[i]? = some agg → l.aggState i = .done

theorem SameTables.allDone {l l' : Layouts} (h : SameTables l l')
    (hd : AllDone l) : AllDone l' := by
  intro i agg hi
  rw [h.aggState]
  rw [h.m] at hi
  exact hd i agg hi

/-- The calls of `rec` leave finished layouts as they are. -/
def Settled (rec : Rec) : Prop := ∀ l q l' r, AllDone l → rec l q = some (l', r) → SameTables l l'

theorem visit_same {rec : Rec} (hrec : Settled rec) {l l' : Layouts}
    {v : IrVtype} (hd : AllDone l) (h : visit rec l v = some l') :
    SameTables l l' := by
  unfold visit at h
  split at h
  · obtain ⟨⟨l1, r⟩, hr, rfl⟩ := map_eq_some_iff.mp h
    exact hrec _ _ _ _ hd hr
  · obtain rfl := some.inj h
    exact SameTables.refl l

theorem foldOperation_same {rec : Rec} (hrec : Settled rec) {l l' : Layouts}
    {sym : Nat} {s : IrSym} {r : Option Nat} (hd : AllDone l)
    (h : foldOperation rec l sym s = some (l', r)) : SameTables l l' := by
  unfold foldOperation at h
  split at h
  · exact absurd h (by simp)
  · split at h
    · exact absurd h (by simp)
    · rename_i l1 hr
      obtain ⟨rfl, -⟩ := Prod.mk.inj (some.inj h)
      exact hrec _ _ _ _ hd hr
    · rename_i l1 a hr
      have h1 := hrec _ _ _ _ hd hr
      -- The second operand is absent or a call of its own.
      have hsecond : ∀ l2 b, (if s.b = irNoAgg then some (l1, some 0)
          else rec l1 (.fold s.b)) = some (l2, b) → SameTables l1 l2 := by
        intro l2 b hb
        split at hb
        · obtain ⟨rfl, -⟩ := Prod.mk.inj (some.inj hb)
          exact SameTables.refl l1
        · exact hrec _ _ _ _ (h1.allDone hd) hb
      split at h
      · exact absurd h (by simp)
      · rename_i l2 hr2
        obtain ⟨rfl, -⟩ := Prod.mk.inj (some.inj h)
        exact h1.trans (hsecond _ _ hr2)
      · rename_i l2 b hr2
        have h2 := h1.trans (hsecond _ _ hr2)
        split at h
        · obtain ⟨rfl, -⟩ := Prod.mk.inj (some.inj h)
          exact h2.trans (sameTables_fail _ _)
        · exact h2.trans (sameTables_keep (some.inj h))

theorem layoutFold_same {rec : Rec} (hrec : Settled rec) {l l' : Layouts}
    {sym : Nat} {r : Option Nat} (hd : AllDone l)
    (h : layoutFold rec l sym = some (l', r)) : SameTables l l' := by
  unfold layoutFold at h
  split at h
  · exact absurd h (by simp)
  · split at h
    · obtain ⟨rfl, -⟩ := Prod.mk.inj (some.inj h)
      exact SameTables.refl l
    · split at h
      · exact sameTables_keep (some.inj h)
      · split at h
        · exact absurd h (by simp)
        · rename_i l1 hv
          exact (visit_same hrec hd hv).trans (sameTables_keep (some.inj h))
      · split at h
        · exact absurd h (by simp)
        · rename_i l1 r1 hr
          obtain ⟨v, -, hkeep⟩ := map_eq_some_iff.mp h
          exact (hrec _ _ _ _ hd hr).trans (sameTables_keep hkeep)
      · exact foldOperation_same hrec hd h

/-- No call touches a layout once all are done, by induction on the depth. -/
theorem eval_settled : ∀ fuel, Settled (eval fuel) := by
  intro fuel
  induction fuel with
  | zero =>
    intro l q l' r _ h
    exact absurd h (by simp [eval])
  | succ fuel ih =>
    intro l q l' r hd h
    rw [show eval (fuel + 1) l q = step fuel (eval fuel) l q from rfl] at h
    cases q with
    | fold sym => exact layoutFold_same ih hd h
    | agg i =>
      unfold step at h
      dsimp only at h
      split at h
      · obtain ⟨rfl, -⟩ := Prod.mk.inj (some.inj h)
        exact SameTables.refl l
      · rename_i hno
        obtain ⟨l1, hl1, -⟩ := map_eq_some_iff.mp h
        unfold compute at hl1
        split at hl1
        · exact absurd hl1 (by simp)
        · rename_i agg hi
          exact absurd (hd i agg hi) hno

/-- What the stores rely on: a plain field ends inside its aggregate, and the
    unit of a bitfield covers it. -/
structure Ready (l : Layouts) : Prop where
  done : AllDone l
  plain : ∀ i agg, l.m.aggs[i]? = some agg → agg.kind ≠ .array →
    ∀ j f, agg.fields[j]? = some f → isUnitBreak f = false → f.bits = 0 →
      (l.aggs i).offsets.getD j 0 + sizeOf l f.type ≤ (l.aggs i).size
  unit : ∀ i agg, l.m.aggs[i]? = some agg → agg.kind ≠ .array →
    ∀ j f, agg.fields[j]? = some f → f.bits ≠ 0 →
      UnitCovers l.target (l.aggs i).size f.bits ((l.aggs i).bits.getD j {})

theorem SameTables.ready {l l' : Layouts} (h : SameTables l l') (hl : Ready l) : Ready l' := by
  refine ⟨h.allDone hl.done, ?_, ?_⟩
  · intro i agg hi hk j f hj hb hw
    rw [h.m] at hi
    rw [h.sizeOf, h.aggs]
    exact hl.plain i agg hi hk j f hj hb hw
  · intro i agg hi hk j f hj hw
    rw [h.m] at hi
    rw [h.target, h.aggs]
    exact hl.unit i agg hi hk j f hj hw

theorem Laid.plain_inside {l : Layouts} {agg : IrAggtype} {out : Layout}
    (h : Laid l agg out) (hk : agg.kind ≠ .array) {j : Nat} {f : IrField}
    (hj : agg.fields[j]? = some f) (hb : isUnitBreak f = false)
    (hw : f.bits = 0) : out.offsets.getD j 0 + sizeOf l f.type ≤ out.size := by
  have hmem := mem_of_getElem? (h.placed_getElem hj)
  have hend := (h.within hk _ hmem).plain hb hw
  simp only [infoOf] at hend
  omega

theorem Laid.unit_covers {l : Layouts} {agg : IrAggtype} {out : Layout}
    (h : Laid l agg out) (hk : agg.kind ≠ .array) {j : Nat} {f : IrField}
    (hj : agg.fields[j]? = some f) (hw : f.bits ≠ 0) :
    UnitCovers l.target out.size f.bits (out.bits.getD j {}) := by
  have hlt : j < agg.fields.length := (List.getElem?_eq_some_iff.mp hj).1
  have hlb : j < out.bits.length := by rw [h.bits]; exact hlt
  have hmem : (f, out.bits.getD j {}) ∈ agg.fields.zip out.bits := by
    refine mem_of_getElem? (i := j) ?_
    rw [getElem?_zip_eq_some]
    refine ⟨hj, ?_⟩
    rw [getD_eq_getElem?_getD, getElem?_eq_getElem hlb, getD_some]
  exact h.units hk _ hmem hw

/-- A module that `layout_init` accepts is ready for its constants. -/
theorem layoutInit_ready {fuel : Nat} {t : Target} {m : IrModule} {l : Layouts}
    (hok : ∀ agg ∈ m.aggs, aggOk agg = true)
    (h : layoutInit fuel t m = some l) (hf : l.failed = false) : Ready l := by
  have hm : l.m = m := by
    exact (layoutInit_calls hok h).1.ext.m
  refine ⟨?_, ?_, ?_⟩
  · intro i agg hi
    rw [hm] at hi
    exact (layoutInit_calls hok h).2 hf i (List.getElem?_eq_some_iff.mp hi).1
  · intro i agg hi hk j f hj hb hw
    rw [hm] at hi
    exact (layoutInit_laid hok h hf hi).plain_inside hk hj hb hw
  · intro i agg hi hk j f hj hw
    rw [hm] at hi
    exact (layoutInit_laid hok h hf hi).unit_covers hk hj hw

/-! ## A constant of a laid-out type -/

mutual

/-- Constant `c` has type `v`: what lowering builds for a value of that type. -/
def constFits (l : Layouts) : IrConst → IrVtype → Prop
  | .mk kind type scalar _ items, v =>
    match kind with
    | .none | .addr | .func => True
    | .int | .float | .sym => v = irScalar scalar
    | .agg =>
      v = type ∧ type.type = .agg ∧ ∀ t, l.m.aggs[type.agg]? = some t →
        if t.kind = .array then
          ∀ f ∈ t.fields.head?, items.length * sizeOf l f.type ≤ (l.aggs type.agg).size ∧
            elementsFit l items f.type
        else fieldsFit l items t.fields

/-- Every element has type `v`. -/
def elementsFit (l : Layouts) : List IrConst → IrVtype → Prop
  | [], _ => True
  | c :: cs, v => constFits l c v ∧ elementsFit l cs v

/-- Every item of a plain field has the type of its field. -/
def fieldsFit (l : Layouts) : List IrConst → List IrField → Prop
  | [], _ => True
  | _ :: _, [] => True
  | c :: cs, f :: fs =>
    (isUnitBreak f = false → f.bits = 0 → constFits l c f.type) ∧
    fieldsFit l cs fs

end

mutual

theorem SameTables.constFits {l l' : Layouts} (h : SameTables l l') :
    ∀ (c : IrConst) (v : IrVtype), constFits l c v → constFits l' c v
  | .mk kind type scalar val items, v => by
      intro hc
      cases kind with
      | none => simp [AnticLayout.constFits]
      | addr => simp [AnticLayout.constFits]
      | func => simp [AnticLayout.constFits]
      | int => simpa [AnticLayout.constFits] using hc
      | float => simpa [AnticLayout.constFits] using hc
      | sym => simpa [AnticLayout.constFits] using hc
      | agg =>
        simp only [AnticLayout.constFits] at hc ⊢
        refine ⟨hc.1, hc.2.1, fun t ht => ?_⟩
        rw [h.m] at ht
        have hrest := hc.2.2 t ht
        split at hrest
        · rename_i hk
          rw [if_pos hk]
          intro f hf
          obtain ⟨hlen, hitems⟩ := hrest f hf
          rw [h.sizeOf, h.aggs]
          exact ⟨hlen, h.elementsFit items f.type hitems⟩
        · rename_i hk
          rw [if_neg hk]
          exact h.fieldsFit items t.fields hrest

theorem SameTables.elementsFit {l l' : Layouts} (h : SameTables l l') :
    ∀ (cs : List IrConst) (v : IrVtype), elementsFit l cs v → elementsFit l' cs v
  | [], _ => fun _ => by simp [AnticLayout.elementsFit]
  | c :: cs, v => fun hc => by
      simp only [AnticLayout.elementsFit] at hc ⊢
      exact ⟨h.constFits c v hc.1, h.elementsFit cs v hc.2⟩

theorem SameTables.fieldsFit {l l' : Layouts} (h : SameTables l l') :
    ∀ (cs : List IrConst) (fs : List IrField), fieldsFit l cs fs → fieldsFit l' cs fs
  | [], _ => fun _ => by simp [AnticLayout.fieldsFit]
  | _ :: _, [] => fun _ => by simp [AnticLayout.fieldsFit]
  | c :: cs, f :: fs => fun hc => by
      simp only [AnticLayout.fieldsFit] at hc ⊢
      exact ⟨fun hb hw => h.constFits c f.type (hc.1 hb hw), h.fieldsFit cs fs hc.2⟩

end

section Write

variable {floatBits : Nat → Nat → Nat} {fuel : Nat}

/-- What a store leaves behind: the tables, and the bits outside its range. -/
def Stores (l l' : Layouts) (g g' : IrGlobal) (lo hi : Nat) : Prop :=
  SameTables l l' ∧ Touches g g' lo hi

theorem Stores.refl (l : Layouts) {g : IrGlobal} (hg : Sound g) (lo hi : Nat) :
    Stores l l g g lo hi := ⟨SameTables.refl l, Touches.refl hg lo hi⟩

theorem Stores.trans {l l' l'' : Layouts} {g g' g'' : IrGlobal} {lo hi : Nat}
    (h : Stores l l' g g' lo hi) (h' : Stores l' l'' g' g'' lo hi) :
    Stores l l'' g g'' lo hi := ⟨h.1.trans h'.1, h.2.trans h'.2⟩

theorem addReloc_touches {g : IrGlobal} (hg : Sound g) (offset target : Nat)
    (fn : Bool) (lo hi : Nat) :
    Touches g (addReloc g offset target fn) lo hi :=
  ⟨⟨hg.bytes, hg.max⟩, rfl, fun _ _ => rfl⟩

mutual

/-- A constant of type `v` at `base` touches the bytes of the type, by recursion on the constant. -/
theorem writeConst_stores : ∀ (c : IrConst) (v : IrVtype) (base : Nat) (l l' : Layouts)
      (g g' : IrGlobal), Ready l → Sound g → constFits l c v →
      base + sizeOf l v ≤ g.size →
      writeConst floatBits fuel c base l g = some (l', g') →
      Stores l l' g g' (8 * base) (8 * (base + sizeOf l v))
  | .mk kind type scalar val items, v, base, l, l', g, g' => by
      intro hl hg hfit hin h
      cases kind with
      | none =>
        simp only [writeConst] at h
        obtain ⟨rfl, rfl⟩ := Prod.mk.inj (some.inj h)
        exact Stores.refl l hg _ _
      | addr | func =>
        simp only [writeConst] at h
        obtain ⟨rfl, rfl⟩ := Prod.mk.inj (some.inj h)
        exact ⟨SameTables.refl l, addReloc_touches hg _ _ _ _ _⟩
      | int | float =>
        simp only [constFits] at hfit
        simp only [writeConst] at h
        obtain ⟨rfl, rfl⟩ := Prod.mk.inj (some.inj h)
        rw [hfit] at hin ⊢
        exact ⟨SameTables.refl l, writeInt_touches hg hin _⟩
      | sym =>
        simp only [constFits] at hfit
        simp only [writeConst] at h
        split at h
        · exact absurd h (by simp)
        · rename_i l1 hfold
          obtain ⟨rfl, rfl⟩ := Prod.mk.inj (some.inj h)
          exact ⟨layoutFold_same (eval_settled fuel) hl.done hfold, Touches.refl hg _ _⟩
        · rename_i l1 bits hfold
          obtain ⟨rfl, rfl⟩ := Prod.mk.inj (some.inj h)
          have hsame := layoutFold_same (eval_settled fuel) hl.done hfold
          rw [hfit] at hin ⊢
          rw [hsame.sizeOf]
          exact ⟨hsame, writeInt_touches hg hin _⟩
      | agg =>
        simp only [constFits] at hfit
        obtain ⟨rfl, hagg, hitems⟩ := hfit
        have hsize : sizeOf l v = (l.aggs v.agg).size := by
          unfold sizeOf
          rw [if_pos hagg]
        simp only [writeConst] at h
        split at h
        · exact absurd h (by simp)
        · rename_i t ht
          have hfit := hitems t ht
          by_cases hk : t.kind = .array
          · rw [if_pos hk] at h hfit
            cases hfs : t.fields with
            | nil =>
              rw [hfs] at h
              exact absurd h (by simp)
            | cons f fs =>
              rw [hfs] at h hfit
              obtain ⟨hlen, helems⟩ := hfit f rfl
              rw [← hsize] at hlen
              exact writeElements_stores items f.type (sizeOf l f.type) 0 base
                (sizeOf l v) l l' g g' hl hg helems rfl (by simpa using hlen)
                hin h
          · rw [if_neg hk] at h hfit
            rw [hsize] at hin ⊢
            exact writeFields_stores items t v.agg 0 base l l' g g' hl hg ht hk hfit hin h

theorem writeElements_stores : ∀ (cs : List IrConst) (v : IrVtype) (step i base size : Nat)
      (l l' : Layouts) (g g' : IrGlobal), Ready l → Sound g →
      elementsFit l cs v → step = sizeOf l v →
      (i + cs.length) * step ≤ size → base + size ≤ g.size →
      writeElements floatBits fuel cs step i base l g = some (l', g') →
      Stores l l' g g' (8 * base) (8 * (base + size))
  | [], _, step, i, base, size, l, l', g, g' => by
      intro _ hg _ _ _ _ h
      simp only [writeElements] at h
      obtain ⟨rfl, rfl⟩ := Prod.mk.inj (some.inj h)
      exact Stores.refl l hg _ _
  | c :: cs, v, step, i, base, size, l, l', g, g' => by
      intro hl hg hfit hstep hlen hin h
      simp only [elementsFit] at hfit
      simp only [writeElements] at h
      split at h
      · exact absurd h (by simp)
      · rename_i l1 g1 hc
        have hend : i * step + step ≤ size := by
          refine le_trans (Nat.le_of_eq ?_)
            ((Nat.mul_le_mul_right step (show i + 1 ≤ i + (c :: cs).length by
              simp)).trans hlen)
          rw [Nat.add_mul, Nat.one_mul]
        -- An element of no bytes may stand at the very end of the global.
        have hwrap : wrap64 (base + i * step) = base + i * step := by
          have := hg.max
          unfold uint64Max at this
          exact mod_eq_of_lt (by omega)
        rw [hwrap] at hc
        have h1 := writeConst_stores c v (base + i * step) l l1 g g1 hl hg hfit.1 (by omega) hc
        have h1' : Stores l l1 g g1 (8 * base) (8 * (base + size)) :=
          ⟨h1.1, h1.2.mono (by omega) (by omega)⟩
        refine h1'.trans (writeElements_stores cs v step (i + 1) base size l1 l' g1
          g' (h1.1.ready hl) h1.2.sound (h1.1.elementsFit cs v hfit.2)
          (by rw [h1.1.sizeOf]; exact hstep) ?_ (by rw [h1.2.size]; exact hin) h)
        rw [length_cons] at hlen
        rw [show i + 1 + cs.length = i + (cs.length + 1) by omega]
        exact hlen

theorem writeFields_stores : ∀ (cs : List IrConst) (t : IrAggtype) (n i base : Nat)
      (l l' : Layouts) (g g' : IrGlobal), Ready l → Sound g →
      l.m.aggs[n]? = some t → t.kind ≠ .array →
      fieldsFit l cs (t.fields.drop i) → base + (l.aggs n).size ≤ g.size →
      writeFields floatBits fuel cs t (l.aggs n) i base l g = some (l', g') →
      Stores l l' g g' (8 * base) (8 * (base + (l.aggs n).size))
  | [], t, n, i, base, l, l', g, g' => by
      intro _ hg _ _ _ _ h
      simp only [writeFields] at h
      obtain ⟨rfl, rfl⟩ := Prod.mk.inj (some.inj h)
      exact Stores.refl l hg _ _
  | c :: cs, t, n, i, base, l, l', g, g' => by
      intro hl hg ht hk hfit hin h
      simp only [writeFields] at h
      split at h
      · obtain ⟨rfl, rfl⟩ := Prod.mk.inj (some.inj h)
        exact Stores.refl l hg _ _
      · rename_i f hf
        have hdrop : t.fields.drop i = f :: t.fields.drop (i + 1) := by
          obtain ⟨hlt, hget⟩ := List.getElem?_eq_some_iff.mp hf
          rw [drop_eq_getElem_cons hlt, hget]
        rw [hdrop] at hfit
        simp only [fieldsFit] at hfit
        obtain ⟨hfirst, hrest⟩ := hfit
        split at h
        · exact writeFields_stores cs t n (i + 1) base l l' g g' hl hg ht hk hrest hin h
        · rename_i hb
          split at h
          · rename_i hw
            have hu := hl.unit n t ht hk i f hf hw
            have h1 := writeBits_touches hg hu hin (constInteger c)
            have hcovers := hu.covers
            have hshift := hu.shift
            have hunit := hu.inside
            refine @Stores.trans l l _ _ _ _ _ _ ⟨SameTables.refl l, h1.mono (by omega) (by omega)⟩
              (writeFields_stores cs t n (i + 1) base l l' _ g' hl h1.sound ht hk
                hrest (by rw [h1.size]; exact hin) h)
          · rename_i hw
            have hw : f.bits = 0 := by simpa using hw
            have hb : isUnitBreak f = false := by simpa using hb
            split at h
            · exact absurd h (by simp)
            · rename_i l1 g1 hc
              have hend := hl.plain n t ht hk i f hf hb hw
              have hwrap : wrap64 (base + (l.aggs n).offsets.getD i 0) =
                  base + (l.aggs n).offsets.getD i 0 := by
                have := hg.max
                unfold uint64Max at this
                exact mod_eq_of_lt (by omega)
              rw [hwrap] at hc
              have h1 := writeConst_stores c f.type _ l l1 g g1 hl hg (hfirst hb hw) (by omega) hc
              have h1' : Stores l l1 g g1 (8 * base) (8 * (base + (l.aggs n).size)) :=
                ⟨h1.1, h1.2.mono (by omega) (by omega)⟩
              rw [← h1.1.aggs] at h
              have h2 := writeFields_stores cs t n (i + 1) base l1 l' g1 g'
                (h1.1.ready hl) h1.2.sound (by rw [h1.1.m]; exact ht) hk
                (h1.1.fieldsFit cs _ hrest)
                (by rw [h1.2.size, h1.1.aggs]; exact hin) h
              rw [h1.1.aggs] at h2
              exact h1'.trans h2

end

/-! ## The fields of an aggregate, in any order -/

/-- The loop of `write_agg` over the fields stores the items one by one, each in
    the field of its place. -/
theorem writeFields_eq (t : IrAggtype) (out : Layout) (base : Nat) :
    ∀ (cs : List IrConst) (i : Nat) (l : Layouts) (g : IrGlobal), i + cs.length ≤ t.fields.length →
      writeFields floatBits fuel cs t out i base l g = storeFields floatBits fuel t out base
          ((List.range' i cs.length).zip cs) l g := by
  intro cs
  induction cs with
  | nil =>
    intro i l g _
    simp [writeFields, storeFields]
  | cons c cs ih =>
    intro i l g hlen
    rw [length_cons] at hlen ⊢
    have hlt : i < t.fields.length := by omega
    rw [range'_succ, zip_cons_cons]
    simp only [writeFields, storeFields, storeField, getElem?_eq_getElem hlt]
    by_cases hb : isUnitBreak t.fields[i] = true
    · simp only [if_pos hb]
      exact ih (i + 1) l g (by omega)
    · by_cases hw : t.fields[i].bits ≠ 0
      · simp only [if_neg hb, if_pos hw]
        exact ih (i + 1) l _ (by omega)
      · simp only [if_neg hb, if_neg hw]
        cases writeConst floatBits fuel c (wrap64 (base + out.offsets.getD i 0)) l g with
        | none => rfl
        | some r => exact ih (i + 1) r.1 r.2 (by omega)

/-- Bit `p` of the global lies in field `j` of the aggregate at `base`. -/
def InField (l : Layouts) (i base j : Nat) (f : IrField) (p : Nat) : Prop :=
  8 * base ≤ p ∧ p - 8 * base ∈ bitRange l i j f

section Fields

variable {l l' : Layouts} {g g' : IrGlobal} {agg : IrAggtype} {i base : Nat}

variable {p : Nat} {x : Nat × IrConst}

theorem inField_bits {j : Nat} {f : IrField} (hb : isUnitBreak f = false) (hw : f.bits ≠ 0) :
    InField l i base j f p ↔ 8 * base + ((l.aggs i).bits.getD j {}).pos ≤ p ∧
        p < 8 * base + ((l.aggs i).bits.getD j {}).pos + f.bits := by
  unfold InField bitRange
  rw [fieldRange_bits hb hw, Set.mem_Ico]
  omega

theorem inField_plain {j : Nat} {f : IrField} (hb : isUnitBreak f = false) (hw : f.bits = 0) :
    InField l i base j f p ↔ 8 * (base + (l.aggs i).offsets.getD j 0) ≤ p ∧
        p < 8 * (base + (l.aggs i).offsets.getD j 0 + sizeOf l f.type) := by
  unfold InField bitRange
  rw [fieldRange_plain hb hw, Set.mem_Ico]
  omega

/-- The items of plain fields have the types of their fields. -/
def ItemsFit (l : Layouts) (agg : IrAggtype) (xs : List (Nat × IrConst)) :
    Prop :=
  ∀ x ∈ xs, ∀ f, agg.fields[x.1]? = some f → f.bits = 0 → constFits l x.2 f.type

theorem storeField_frame (hl : Ready l) (hg : Sound g) (hi : l.m.aggs[i]? = some agg)
    (hk : agg.kind ≠ .array) (hin : base + (l.aggs i).size ≤ g.size)
    (hfit : ItemsFit l agg [x])
    (h : storeField floatBits fuel agg (l.aggs i) base x l g = some (l', g')) :
    SameTables l l' ∧ Sound g' ∧ g'.size = g.size ∧
      ∀ p, (∀ f, agg.fields[x.1]? = some f → ¬ InField l i base x.1 f p) →
        bitAt g' p = bitAt g p := by
  unfold storeField at h
  split at h
  · obtain ⟨rfl, rfl⟩ := Prod.mk.inj (some.inj h)
    exact ⟨SameTables.refl l, hg, rfl, fun _ _ => rfl⟩
  · rename_i f hf
    split at h
    · obtain ⟨rfl, rfl⟩ := Prod.mk.inj (some.inj h)
      exact ⟨SameTables.refl l, hg, rfl, fun _ _ => rfl⟩
    · rename_i hb
      have hb : isUnitBreak f = false := by simpa using hb
      split at h
      · rename_i hw
        obtain ⟨rfl, rfl⟩ := Prod.mk.inj (some.inj h)
        have ht := writeBits_touches hg (hl.unit i agg hi hk x.1 f hf hw) hin (constInteger x.2)
        refine ⟨SameTables.refl l, ht.sound, ht.size, fun p hp => ht.frame p ?_⟩
        rw [← inField_bits hb hw]
        exact hp f hf
      · rename_i hw
        have hw : f.bits = 0 := by simpa using hw
        have hend := hl.plain i agg hi hk x.1 f hf hb hw
        have hwrap : wrap64 (base + (l.aggs i).offsets.getD x.1 0) =
            base + (l.aggs i).offsets.getD x.1 0 := by
          have := hg.max
          unfold uint64Max at this
          exact mod_eq_of_lt (by omega)
        rw [hwrap] at h
        obtain ⟨hsame, ht⟩ := writeConst_stores x.2 f.type _ l l' g g' hl hg
          (hfit x (mem_singleton_self x) f hf hw) (by omega) h
        refine ⟨hsame, ht.sound, ht.size, fun p hp => ht.frame p ?_⟩
        rw [← inField_plain hb hw]
        exact hp f hf

theorem storeField_bits (hl : Ready l) (hg : Sound g) (hi : l.m.aggs[i]? = some agg)
    (hk : agg.kind ≠ .array) (hin : base + (l.aggs i).size ≤ g.size) {f : IrField}
    (hf : agg.fields[x.1]? = some f) (hb : isUnitBreak f = false) (hw : f.bits ≠ 0)
    (h : storeField floatBits fuel agg (l.aggs i) base x l g = some (l', g'))
    {k : Nat} (hlt : k < f.bits)
    (hzero : bitAt g (8 * base + ((l.aggs i).bits.getD x.1 {}).pos + k) = false) :
    bitAt g' (8 * base + ((l.aggs i).bits.getD x.1 {}).pos + k) = (constInteger x.2).testBit k := by
  unfold storeField at h
  rw [hf] at h
  simp only [hb, hw, ne_eq] at h
  obtain ⟨rfl, rfl⟩ := Prod.mk.inj (some.inj h)
  rw [writeBits_bit hg (hl.unit i agg hi hk x.1 f hf hw) hin, hzero]
  simp [hlt]

/-- What the fields that are stored have to satisfy. -/
structure RunOk (l : Layouts) (g : IrGlobal) (agg : IrAggtype) (i base : Nat)
    (xs : List (Nat × IrConst)) : Prop where
  ready : Ready l
  sound : Sound g
  found : l.m.aggs[i]? = some agg
  kind : agg.kind ≠ .array
  inside : base + (l.aggs i).size ≤ g.size
  items : ItemsFit l agg xs

theorem RunOk.next {xs : List (Nat × IrConst)} (h : RunOk l g agg i base (x :: xs))
    (hx : storeField floatBits fuel agg (l.aggs i) base x l g = some (l', g')) :
    SameTables l l' ∧ RunOk l' g' agg i base xs := by
  have hfit : ItemsFit l agg [x] := by
    intro y hy
    rw [mem_singleton.mp hy]
    exact h.items x (mem_cons_self ..)
  obtain ⟨hsame, hsound, hsize, -⟩ := storeField_frame h.ready h.sound h.found
    h.kind h.inside hfit hx
  refine ⟨hsame, hsame.ready h.ready, hsound, by rw [hsame.m]; exact h.found,
    h.kind, by rw [hsize, hsame.aggs]; exact h.inside, ?_⟩
  intro y hy f hf hw
  exact hsame.constFits y.2 f.type (h.items y (mem_cons_of_mem _ hy) f hf hw)

theorem RunOk.first {xs : List (Nat × IrConst)} (h : RunOk l g agg i base (x :: xs))
    (hx : storeField floatBits fuel agg (l.aggs i) base x l g = some (l', g'))
    (hp : ∀ f, agg.fields[x.1]? = some f → ¬ InField l i base x.1 f p) :
    bitAt g' p = bitAt g p := by
  have hfit : ItemsFit l agg [x] := by
    intro y hy
    rw [mem_singleton.mp hy]
    exact h.items x (mem_cons_self ..)
  exact (storeField_frame h.ready h.sound h.found h.kind h.inside hfit hx).2.2.2 p hp

theorem SameTables.inField (h : SameTables l l') {j : Nat} {f : IrField} :
    InField l' i base j f p ↔ InField l i base j f p := by
  unfold InField bitRange
  rw [h.sizeOf, h.aggs]

/-- The stores of some fields change the bits of these fields only. -/
theorem storeFields_frame : ∀ (xs : List (Nat × IrConst)) (l l' : Layouts) (g g' : IrGlobal),
      RunOk l g agg i base xs →
      storeFields floatBits fuel agg (l.aggs i) base xs l g = some (l', g') →
      ∀ p, (∀ x ∈ xs, ∀ f, agg.fields[x.1]? = some f →
          ¬ InField l i base x.1 f p) → bitAt g' p = bitAt g p := by
  intro xs
  induction xs with
  | nil =>
    intro l l' g g' _ h p _
    obtain ⟨rfl, rfl⟩ := Prod.mk.inj (some.inj h)
    rfl
  | cons x xs ih =>
    intro l l' g g' hrun h p hp
    unfold storeFields at h
    split at h
    · exact absurd h (by simp)
    · rename_i l1 g1 hx
      obtain ⟨hsame, hnext⟩ := hrun.next hx
      rw [← hsame.aggs] at h
      rw [ih l1 l' g1 g' hnext h p ?_, hrun.first hx (hp x (mem_cons_self ..))]
      intro y hy f hf
      rw [hsame.inField]
      exact hp y (mem_cons_of_mem _ hy) f hf

/-- No bit lies in two fields, as in a struct. -/
def Apart (l : Layouts) (agg : IrAggtype) (i : Nat) : Prop :=
  ∀ j k f f', agg.fields[j]? = some f → agg.fields[k]? = some f' → j ≠ k →
    Disjoint (bitRange l i j f) (bitRange l i k f')

theorem Apart.not_inField (h : Apart l agg i) {j k : Nat} {f f' : IrField}
    (hj : agg.fields[j]? = some f) (hk : agg.fields[k]? = some f') (hne : j ≠ k)
    (hp : InField l i base j f p) : ¬ InField l i base k f' p :=
  fun hp' => Set.disjoint_left.mp (h j k f f' hj hk hne) hp.2 hp'.2

theorem SameTables.apart (h : SameTables l l') (ha : Apart l agg i) :
    Apart l' agg i := by
  intro j k f f' hj hk hne
  unfold bitRange
  rw [h.sizeOf, h.sizeOf, h.aggs]
  exact ha j k f f' hj hk hne

/-- A bitfield whose bits were zero holds the low bits of its value after all
    stores, wherever its own stands among them. -/
theorem storeFields_bits : ∀ (xs : List (Nat × IrConst)) (l l' : Layouts) (g g' : IrGlobal),
      RunOk l g agg i base xs → Apart l agg i → (xs.map Prod.fst).Nodup →
      storeFields floatBits fuel agg (l.aggs i) base xs l g = some (l', g') →
      ∀ x ∈ xs, ∀ f, agg.fields[x.1]? = some f → isUnitBreak f = false →
        f.bits ≠ 0 → (∀ p, InField l i base x.1 f p → bitAt g p = false) →
        ∀ k < f.bits, bitAt g' (8 * base + ((l.aggs i).bits.getD x.1 {}).pos + k) =
            (constInteger x.2).testBit k := by
  intro xs
  induction xs with
  | nil =>
    intro l l' g g' _ _ _ _ x hx
    exact absurd hx (by simp)
  | cons y xs ih =>
    intro l l' g g' hrun hapart hnodup h x hx f hf hb hw hzero k hk
    rw [map_cons, nodup_cons] at hnodup
    have hin : InField l i base x.1 f (8 * base + ((l.aggs i).bits.getD x.1 {}).pos + k) :=
      (inField_bits hb hw).mpr ⟨by omega, by omega⟩
    unfold storeFields at h
    split at h
    · exact absurd h (by simp)
    · rename_i l1 g1 hy
      obtain ⟨hsame, hnext⟩ := hrun.next hy
      rw [← hsame.aggs] at h
      rcases mem_cons.mp hx with rfl | hx
      · -- Its own store comes first: the others leave its bits alone.
        rw [storeFields_frame xs l1 l' g1 g' hnext h _ ?_,
          storeField_bits hrun.ready hrun.sound hrun.found hrun.kind hrun.inside
            hf hb hw hy hk (hzero _ hin)]
        intro z hz f' hf'
        rw [hsame.inField]
        refine hapart.not_inField hf hf' (fun heq => hnodup.1 ?_) hin
        rw [heq]
        exact List.mem_map_of_mem hz
      · -- Another comes first: the bits are still zero after it.
        have hne : y.1 ≠ x.1 := by
          intro heq
          refine hnodup.1 ?_
          rw [heq]
          exact List.mem_map_of_mem hx
        have h1 := ih l1 l' g1 g' hnext (hsame.apart hapart) hnodup.2 h x hx f hf hb hw ?_ k hk
        · rw [hsame.aggs] at h1
          exact h1
        · intro p hp
          rw [hsame.inField] at hp
          rw [hrun.first hy fun f' hf' => hapart.not_inField hf hf' hne.symm hp]
          exact hzero p hp

/-- The stores of a list are those of its front and then those of the rest. -/
theorem storeFields_append (t : IrAggtype) (out : Layout) (base : Nat)
    (xs ys : List (Nat × IrConst)) :
    ∀ (l : Layouts) (g : IrGlobal), storeFields floatBits fuel t out base (xs ++ ys) l g =
        (storeFields floatBits fuel t out base xs l g).bind fun r =>
          storeFields floatBits fuel t out base ys r.1 r.2 := by
  induction xs with
  | nil => exact fun _ _ => rfl
  | cons x xs ih =>
    intro l g
    rw [cons_append]
    simp only [storeFields]
    cases storeField floatBits fuel t out base x l g with
    | none => rfl
    | some r => exact ih r.1 r.2

/-- The stores of a front of the list leave what the rest relies on. -/
theorem RunOk.after : ∀ (xs ys : List (Nat × IrConst)) (l l' : Layouts) (g g' : IrGlobal),
      RunOk l g agg i base (xs ++ ys) →
      storeFields floatBits fuel agg (l.aggs i) base xs l g = some (l', g') →
      SameTables l l' ∧ RunOk l' g' agg i base ys := by
  intro xs
  induction xs with
  | nil =>
    intro ys l l' g g' hrun h
    obtain ⟨rfl, rfl⟩ := Prod.mk.inj (some.inj h)
    exact ⟨SameTables.refl l, hrun⟩
  | cons x xs ih =>
    intro ys l l' g g' hrun h
    unfold storeFields at h
    split at h
    · exact absurd h (by simp)
    · rename_i l1 g1 hx
      obtain ⟨hsame, hnext⟩ := (show RunOk l g agg i base (x :: (xs ++ ys)) from hrun).next hx
      rw [← hsame.aggs] at h
      obtain ⟨hsame', hrest⟩ := ih ys l1 l' g1 g' hnext h
      exact ⟨hsame.trans hsame', hrest⟩

/-- A field keeps what its own store left, whatever is stored after it. -/
theorem storeFields_keeps {before after : List (Nat × IrConst)} {l1 l2 : Layouts}
    {g1 g2 : IrGlobal} (hrun : RunOk l g agg i base (before ++ x :: after))
    (hapart : Apart l agg i) (hnodup : ((before ++ x :: after).map Prod.fst).Nodup)
    (h : storeFields floatBits fuel agg (l.aggs i) base (before ++ x :: after) l g = some (l', g'))
    (h1 : storeFields floatBits fuel agg (l.aggs i) base before l g = some (l1, g1))
    (h2 : storeField floatBits fuel agg (l.aggs i) base x l1 g1 = some (l2, g2))
    {f : IrField} (hf : agg.fields[x.1]? = some f) (hp : InField l i base x.1 f p) :
    bitAt g' p = bitAt g2 p := by
  obtain ⟨hsame1, hrun1⟩ := RunOk.after before (x :: after) l l1 g g1 hrun h1
  rw [← hsame1.aggs] at h2 h
  obtain ⟨hsame2, hrun2⟩ := hrun1.next h2
  rw [storeFields_append, hsame1.aggs, h1, bind_some] at h
  simp only [storeFields] at h
  rw [← hsame1.aggs, h2] at h
  rw [← hsame2.aggs] at h
  refine storeFields_frame after l2 l' g2 g' hrun2 h p ?_
  intro y hy f' hf'
  rw [hsame2.inField, hsame1.inField]
  refine hapart.not_inField hf hf' (fun heq => ?_) hp
  rw [map_append, map_cons, nodup_append, nodup_cons]
    at hnodup
  refine hnodup.2.1.1 ?_
  rw [heq]
  exact List.mem_map_of_mem hy

end Fields

end Write

/-- **A BITFIELD IS STORED IN ITS OWN BITS.**  For each target and every module for which
    `layout_init` succeeds: the unit of each bitfield of a struct or a union covers it and stays
    inside the aggregate.  `write_bits` adds the low bits of the value at the place of the field to
    what is there, and changes no other bit.  The fields of a struct, stored over zeros in any
    order, end with the low bits of the value in each bitfield and with what its own store left in
    each other field, and no store changes a bit outside its field; the loop of `write_agg` is one
    such order. -/
theorem bitfields_exact {fuel : Nat} {t : Target} {m : IrModule} {l : Layouts}
    (hok : ∀ agg ∈ m.aggs, aggOk agg = true)
    (h : layoutInit fuel t m = some l) (hf : l.failed = false) {i : Nat}
    {agg : IrAggtype} (hi : m.aggs[i]? = some agg) (hk : agg.kind ≠ .array) :
    (∀ j f, agg.fields[j]? = some f → f.bits ≠ 0 →
      UnitCovers t (l.aggs i).size f.bits ((l.aggs i).bits.getD j {})) ∧
    (∀ j f, agg.fields[j]? = some f → f.bits ≠ 0 →
      ∀ g base value, Sound g → base + (l.aggs i).size ≤ g.size → ∀ p,
        bitAt (writeBits l g f ((l.aggs i).bits.getD j {}) base value) p = (bitAt g p ||
            (decide (8 * base + ((l.aggs i).bits.getD j {}).pos ≤ p ∧
              p < 8 * base + ((l.aggs i).bits.getD j {}).pos + f.bits) &&
            value.testBit (p - (8 * base + ((l.aggs i).bits.getD j {}).pos))))) ∧
    (agg.kind = .struct → ∀ floatBits depth base g g' l' xs,
      (xs.map Prod.fst).Nodup → ItemsFit l agg xs → Sound g →
      base + (l.aggs i).size ≤ g.size →
      (∀ p, 8 * base ≤ p → p < 8 * (base + (l.aggs i).size) → bitAt g p = false) →
      storeFields floatBits depth agg (l.aggs i) base xs l g = some (l', g') →
      (∀ x ∈ xs, ∀ f, agg.fields[x.1]? = some f → isUnitBreak f = false → f.bits ≠ 0 → ∀ k < f.bits,
          bitAt g' (8 * base + ((l.aggs i).bits.getD x.1 {}).pos + k) =
            (constInteger x.2).testBit k) ∧
      (∀ p, (∀ x ∈ xs, ∀ f, agg.fields[x.1]? = some f →
          ¬ InField l i base x.1 f p) → bitAt g' p = bitAt g p) ∧
      (∀ before x after, xs = before ++ x :: after → ∀ l1 g1 l2 g2,
        storeFields floatBits depth agg (l.aggs i) base before l g = some (l1, g1) →
        storeField floatBits depth agg (l.aggs i) base x l1 g1 = some (l2, g2) →
        ∀ f, agg.fields[x.1]? = some f →
          (∀ p, ¬ InField l i base x.1 f p → bitAt g2 p = bitAt g1 p) ∧
          (∀ p, InField l i base x.1 f p → bitAt g' p = bitAt g2 p))) ∧
    (∀ floatBits depth base cs g, cs.length ≤ agg.fields.length →
      writeFields floatBits depth cs agg (l.aggs i) 0 base l g =
        storeFields floatBits depth agg (l.aggs i) base
          ((List.range' 0 cs.length).zip cs) l g) := by
  have hready := layoutInit_ready hok h hf
  obtain ⟨hcalls, -⟩ := layoutInit_calls hok h
  have hm : l.m = m := hcalls.ext.m
  have ht : l.target = t := hcalls.ext.target
  have hi' : l.m.aggs[i]? = some agg := by
    rw [hm]
    exact hi
  refine ⟨?_, ?_, ?_, ?_⟩
  · intro j f hj hw
    rw [← ht]
    exact hready.unit i agg hi' hk j f hj hw
  · intro j f hj hw g base value hg hin p
    exact writeBits_bit hg (hready.unit i agg hi' hk j f hj hw) hin value p
  · intro hstruct floatBits depth base g g' l' xs hnodup hfit hg hin hzero hrun
    have hlaid := layout_never_overlaps hok h hf hi
    obtain ⟨hdisjoint, hinside, -⟩ := hlaid.1 hstruct
    have hstart : RunOk l g agg i base xs := ⟨hready, hg, hi', hk, hin, hfit⟩
    refine ⟨?_, storeFields_frame xs l l' g g' hstart hrun, ?_⟩
    · intro x hx f hfx hb hw k hlt
      refine storeFields_bits xs l l' g g' hstart hdisjoint hnodup hrun x hx f hfx hb hw ?_ k hlt
      intro p hp
      have hend := (hinside x.1 f hfx hp.2).2
      exact hzero p hp.1 (by omega)
    · rintro before x after rfl l1 g1 l2 g2 h1 h2 f hfx
      obtain ⟨hsame1, hrun1⟩ := RunOk.after before (x :: after) l l1 g g1 hstart h1
      refine ⟨fun p hp => ?_, fun p hp => ?_⟩
      · rw [← hsame1.aggs] at h2
        refine hrun1.first h2 fun f' hf' => ?_
        obtain rfl := some.inj (hfx.symm.trans hf')
        rw [hsame1.inField]
        exact hp
      · exact storeFields_keeps hstart hdisjoint hnodup hrun h1 h2 hfx hp
  · intro floatBits depth base cs g hlen
    exact writeFields_eq agg (l.aggs i) base cs 0 l g (by omega)

/-- A packed struct of five bytes: two of a plain field and a bitfield of twenty
    bits, whose unit of four bytes has to start a byte early. -/
def earlyUnit : IrModule where
  aggs :=
    [{ kind := .struct, name := [83],
       fields :=
         [⟨some [97], irScalar .i16, 0, .none, false⟩,
          ⟨some [98], irScalar .i32, 20, .none, false⟩],
       packed := true, simd := false, align := 0, length := 0,
       lengthText := none }]

/-- A global of five zero bytes. -/
def fiveBytes : IrGlobal where
  module := none
  name := [103]
  bytes := List.replicate 5 0
  size := 5

/-- The two fields of `earlyUnit`, the bitfield first. -/
def earlyStores : List (Nat × IrConst) :=
  [(1, .mk .int default .i32 345121 []), (0, .mk .int default .i16 7 [])]

/-- In `earlyUnit` the unit covers the last four bytes, and the bitfield keeps
    its value through the store of the field it shares a byte with. -/
theorem bitfields_earlyUnit : ∃ l, layoutInit 4 .linuxX8664 earlyUnit = some l ∧ l.failed = false ∧
      UnitCovers .linuxX8664 (l.aggs 0).size 20 ((l.aggs 0).bits.getD 1 {}) ∧
      ∃ l' g', storeFields (fun _ _ => 0) 4 (earlyUnit.aggs.getD 0 default)
          (l.aggs 0) 0 earlyStores l fiveBytes = some (l', g') ∧
        ∀ k < 20, bitAt g' (16 + k) = (345121).testBit k := by
  have hsome : ((layoutInit 4 .linuxX8664 earlyUnit).map fun l =>
      (l.failed, (l.aggs 0).size, ((l.aggs 0).bits.getD 1 {}).pos,
        (storeFields (fun _ _ => 0) 4 (earlyUnit.aggs.getD 0 default)
          (l.aggs 0) 0 earlyStores l fiveBytes).isSome)) =
      some (false, 5, 16, true) := by
    decide +kernel
  obtain ⟨l, hl, heq⟩ := map_eq_some_iff.mp hsome
  simp only [Prod.mk.injEq] at heq
  obtain ⟨hf, hsize, hpos, hrun⟩ := heq
  obtain ⟨⟨l', g'⟩, hrun⟩ := isSome_iff_exists.mp hrun
  have hagg : earlyUnit.aggs[0]? = some (earlyUnit.aggs.getD 0 default) := rfl
  have h := bitfields_exact (by decide) hl hf hagg (by decide)
  refine ⟨l, hl, hf, h.1 1 _ rfl (by decide), l', g', hrun, ?_⟩
  intro k hk
  have hbits := (h.2.2.1 rfl _ _ 0 fiveBytes g' l' earlyStores (by decide) ?_
    ⟨rfl, by decide⟩ (by rw [hsize]; decide) ?_ hrun).1
    (1, .mk .int default .i32 345121 []) (mem_cons_self ..) _ rfl rfl
    (by decide) k hk
  · rw [hpos] at hbits
    exact hbits
  · intro x hx f hfx hw
    simp only [earlyStores, mem_cons, not_mem_nil, or_false] at hx
    rcases hx with rfl | rfl
    · obtain rfl := some.inj hfx
      exact absurd hw (by decide)
    · obtain rfl := some.inj hfx
      simp [constFits]
  · intro p _ hp
    have hp5 : p / 8 < 5 := by omega
    show ((List.replicate 5 (0 : UInt8)).getD (p / 8) 0).toNat.testBit (p % 8) = false
    rw [getD_eq_getElem?_getD, getElem?_replicate_of_lt hp5]
    simp

end AnticLayout
