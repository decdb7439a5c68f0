import Antic.Layout
import Mathlib

/-! # One turn of the field placement — the loop invariant of `compute`

    The size arithmetic is read as a partial computation: a run of it that ends with `overflow` down
    has computed the exact sums, products and multiples, and no unguarded sum has wrapped.

    1. `Ends` states that of one computation, with a rule for sequencing.
    2. `PlaceInv` is the invariant of the loop over the fields: what is placed lies below `reach`,
       in order and aligned.
    3. `placeField_ends` is one turn, from one lemma for each kind of field. -/

namespace AnticLayout

open AnticIr

/-! ## The size arithmetic -/

/-- A computation that ends without overflow has not wrapped, and its result satisfies `Q`. -/
def Ends {α : Type} (x : Sized α) (Q : α → Prop) : Prop :=
  x.overflow = false → x.wrapped = false ∧ Q x.val

section Rules

variable {α β : Type} {x : Sized α} {k : α → Sized β} {Q : α → Prop} {R : β → Prop}

theorem bind_val (x : Sized α) (k : α → Sized β) : (x >>= k).val = (k x.val).val := rfl

theorem bind_overflow (x : Sized α) (k : α → Sized β) :
    (x >>= k).overflow = (x.overflow || (k x.val).overflow) := rfl

theorem bind_wrapped (x : Sized α) (k : α → Sized β) :
    (x >>= k).wrapped = (x.wrapped || (k x.val).wrapped) := rfl

theorem ends_pure {a : α} (h : Q a) : Ends (pure a : Sized α) Q :=
  fun _ => ⟨rfl, h⟩

theorem ends_bind (hx : Ends x Q) (hk : ∀ a, Q a → Ends (k a) R) :
    Ends (x >>= k) R := by
  intro ho
  obtain ⟨ho1, ho2⟩ := Bool.or_eq_false_iff.mp ho
  obtain ⟨hw1, hq⟩ := hx ho1
  obtain ⟨hw2, hr⟩ := hk _ hq ho2
  exact ⟨Bool.or_eq_false_iff.mpr ⟨hw1, hw2⟩, hr⟩

theorem ends_mono {Q' : α → Prop} (hx : Ends x Q) (h : ∀ a, Q a → Q' a) :
    Ends x Q' := by
  intro ho
  obtain ⟨hw, hq⟩ := hx ho
  exact ⟨hw, h _ hq⟩

theorem overflow_bind (hx : x.overflow = false)
    (hk : ∀ a, (k a).overflow = false) : (x >>= k).overflow = false :=
  Bool.or_eq_false_iff.mpr ⟨hx, hk _⟩

end Rules

theorem addSize_ends (a b : Nat) (ha : a ≤ uint64Max) :
    Ends (addSize a b) fun r => r = a + b ∧ r ≤ uint64Max := by
  intro ho
  unfold addSize at ho ⊢
  split
  · rename_i h
    rw [if_pos h] at ho
    exact absurd ho (by simp)
  · refine ⟨rfl, rfl, ?_⟩
    simp only
    omega

theorem mulSize_ends (a b : Nat) :
    Ends (mulSize a b) fun r => r = a * b ∧ r ≤ uint64Max := by
  intro ho
  unfold mulSize at ho ⊢
  split
  · rename_i h
    rw [if_pos h] at ho
    exact absurd ho (by simp)
  · rename_i h
    refine ⟨rfl, rfl, ?_⟩
    rcases Nat.eq_zero_or_pos a with rfl | ha
    · simp
    · have hb : b ≤ uint64Max / a := by
        by_contra hc
        exact h ⟨by omega, by omega⟩
      calc a * b ≤ a * (uint64Max / a) := Nat.mul_le_mul_left a hb
        _ ≤ uint64Max := Nat.mul_div_le _ _

theorem rawAdd_ends (a b : Nat) (h : a + b ≤ uint64Max) :
    Ends (rawAdd a b) fun r => r = a + b := by
  intro _
  have hlt : a + b < 2 ^ 64 := by
    unfold uint64Max at h
    omega
  refine ⟨decide_eq_false (by omega), ?_⟩
  show wrap64 (a + b) = a + b
  exact Nat.mod_eq_of_lt hlt

theorem sub64_one {a : Nat} (h1 : 1 ≤ a) (h2 : a ≤ uint64Max) :
    sub64 a 1 = a - 1 := by
  unfold sub64 uint64Max at *
  omega

theorem roundUp_ends (n align : Nat) (hn : n ≤ uint64Max) (h1 : 1 ≤ align)
    (h2 : align ≤ uint64Max) :
    Ends (roundUp n align) fun r => n ≤ r ∧ align ∣ r ∧ r ≤ uint64Max ∧ r < n + align := by
  refine ends_bind (addSize_ends n (sub64 align 1) hn) ?_
  rintro last ⟨hlast, hl⟩
  rw [sub64_one h1 h2] at hlast
  have hdm := Nat.div_add_mod last align
  have hmod := Nat.mod_lt last h1
  rw [Nat.mul_comm] at hdm
  refine ends_pure ⟨by omega, Nat.dvd_mul_left _ _, by omega, by omega⟩

theorem wholeBytes_le (bit : Nat) (h : bit ≤ uint64Max) :
    wholeBytes bit ≤ uint64Max := by
  unfold wholeBytes uint64Max at *
  split <;> omega

theorem le_wholeBytes (bit : Nat) : bit ≤ 8 * wholeBytes bit := by
  unfold wholeBytes
  split <;> omega

theorem wholeBytes_mul_eight (n : Nat) : wholeBytes (n * 8) = n := by
  unfold wholeBytes
  split <;> omega

theorem wholeBytes_pos {bit : Nat} (h : 0 < bit) : 0 < wholeBytes bit := by
  unfold wholeBytes
  split <;> omega

/-! ## One turn of the loop over the fields -/

/-- The bits a field occupies in its struct: none for a zero-width break, the
    value of a bitfield, the bytes of a plain field. -/
def fieldRange (f : IrField) (size offset pos : Nat) : Set Nat :=
  if isUnitBreak f then ∅
  else if f.bits = 0 then Set.Ico (8 * offset) (8 * offset + 8 * size)
  else Set.Ico pos (pos + f.bits)

/-- An atomic field and a field that holds a Mutex. -/
def sharedField (f : IrField) (info : TypeInfo) : Bool :=
  f.atomic || f.type.type = .lock || info.shared

/-- A plain field that keeps its own alignment. -/
def keepsAlign (agg : IrAggtype) (f : IrField) (info : TypeInfo) : Prop :=
  isUnitBreak f = false ∧ f.bits = 0 ∧ (agg.packed = false ∨ sharedField f info = true)

/-- A field with the facts of its type, its offset and its first bit. -/
abbrev Placed := (IrField × TypeInfo) × Nat × Nat

def Placed.range (x : Placed) : Set Nat := fieldRange x.1.1 x.1.2.size x.2.1 x.2.2

/-- The fields `fis` with where `offsets` and `bits` place them. -/
def placedAt (fis : List (IrField × TypeInfo)) (offsets : List Nat)
    (bits : List LayoutBits) : List Placed :=
  fis.zip (offsets.zip (bits.map LayoutBits.pos))

/-- The first bit that no field occupies yet. -/
def Place.reach (p : Place) : Nat :=
  if p.unitSize = 0 then p.bit else p.unitStart + p.unitUsed

/-- The shared unit of MSVC: an open unit ends at `bit` and its bits fit it, and
    neither another target nor a union opens one. -/
structure UnitInv (t : Target) (agg : IrAggtype) (p : Place) : Prop where
  ends : p.unitSize ≠ 0 → p.unitStart + 8 * p.unitSize = p.bit ∧ p.unitUsed ≤ 8 * p.unitSize
  used : p.unitUsed ≤ 64
  never : t.os ≠ .windows ∨ agg.kind = .union → p.unitSize = 0

theorem UnitInv.reach_le {t : Target} {agg : IrAggtype} {p : Place}
    (h : UnitInv t agg p) : p.reach ≤ p.bit := by
  unfold Place.reach
  split
  · exact le_rfl
  · rename_i hu
    have := h.ends hu
    omega

theorem UnitInv.bit_ne_zero {t : Target} {agg : IrAggtype} {p : Place}
    (h : UnitInv t agg p) (hopen : p.unitSize ≠ 0) : p.bit ≠ 0 := by
  have := h.ends hopen
  omega

theorem eq_zero_of_roundUp {n align r : Nat} (h0 : n = 0) (hdvd : align ∣ r)
    (hlt : r < n + align) : r = 0 :=
  Nat.eq_zero_of_dvd_of_lt hdvd (by omega)

/-- A placed field ends at bit `n` or before, a bitfield is at the byte of its
    first bit, and a zero-width break has no first bit of its own. -/
structure Placed.Within (x : Placed) (n : Nat) : Prop where
  plain : isUnitBreak x.1.1 = false → x.1.1.bits = 0 → 8 * x.2.1 + 8 * x.1.2.size ≤ n
  bits : isUnitBreak x.1.1 = false → x.1.1.bits ≠ 0 → x.2.2 + x.1.1.bits ≤ n
  byte : isUnitBreak x.1.1 = false → x.1.1.bits ≠ 0 → x.2.1 = x.2.2 / 8
  atZero : isUnitBreak x.1.1 = true → x.2.2 = 0

theorem Placed.Within.mono {x : Placed} {n n' : Nat} (h : x.Within n)
    (hle : n ≤ n') : x.Within n' :=
  ⟨fun hb hw => (h.plain hb hw).trans hle, fun hb hw => (h.bits hb hw).trans hle, h.byte, h.atZero⟩

theorem Placed.within_break {x : Placed} {n : Nat}
    (hb : isUnitBreak x.1.1 = true) (h : x.2.2 = 0) : x.Within n := by
  refine ⟨?_, ?_, ?_, fun _ => h⟩ <;>
  · intro hno
    rw [hb] at hno
    exact absurd hno (by simp)

theorem Placed.within_plain {x : Placed} {n : Nat}
    (hb : isUnitBreak x.1.1 = false) (hw : x.1.1.bits = 0)
    (h : 8 * x.2.1 + 8 * x.1.2.size ≤ n) : x.Within n := by
  refine ⟨fun _ _ => h, fun _ hne => absurd hw hne, fun _ hne => absurd hw hne, fun hbreak => ?_⟩
  rw [hb] at hbreak
  exact absurd hbreak Bool.false_ne_true

theorem Placed.within_bits {x : Placed} {n : Nat}
    (hb : isUnitBreak x.1.1 = false) (hw : x.1.1.bits ≠ 0)
    (h : x.2.2 + x.1.1.bits ≤ n) (ho : x.2.1 = x.2.2 / 8) : x.Within n := by
  refine ⟨fun _ h0 => absurd h0 hw, fun _ _ => h, fun _ _ => ho, fun hbreak => ?_⟩
  rw [hb] at hbreak
  exact absurd hbreak Bool.false_ne_true

/-- A field with bits of its own that starts at the first bit. -/
structure Placed.AtStart (x : Placed) : Prop where
  kept : isUnitBreak x.1.1 = false
  plain : x.1.1.bits = 0 → 0 < x.1.2.size ∧ x.2.1 = 0
  bits : x.1.1.bits ≠ 0 → x.2.2 = 0

theorem Placed.atStart_plain {x : Placed} (hb : isUnitBreak x.1.1 = false)
    (hw : x.1.1.bits = 0) (hs : 0 < x.1.2.size) (ho : x.2.1 = 0) : x.AtStart :=
  ⟨hb, fun _ => ⟨hs, ho⟩, fun hne => absurd hw hne⟩

theorem Placed.atStart_bits {x : Placed} (hb : isUnitBreak x.1.1 = false)
    (hw : x.1.1.bits ≠ 0) (hp : x.2.2 = 0) : x.AtStart :=
  ⟨hb, fun h0 => absurd h0 hw, fun _ => hp⟩

/-- What the fields placed so far satisfy in a struct. -/
structure FieldsInv (agg : IrAggtype) (placed : List Placed) (reach : Nat) :
    Prop where
  below : ∀ x ∈ placed, x.range ⊆ Set.Iio reach
  disjoint : placed.Pairwise fun x y => Disjoint x.range y.range
  aligned : ∀ x ∈ placed, keepsAlign agg x.1.1 x.1.2 → x.1.2.align ∣ x.2.1

theorem FieldsInv.mono {agg : IrAggtype} {placed : List Placed}
    {reach reach' : Nat} (h : FieldsInv agg placed reach)
    (hle : reach ≤ reach') : FieldsInv agg placed reach' :=
  ⟨fun x hx => (h.below x hx).trans (Set.Iio_subset_Iio hle), h.disjoint, h.aligned⟩

theorem FieldsInv.snoc {agg : IrAggtype} {placed : List Placed}
    {reach reach' : Nat} (h : FieldsInv agg placed reach) (x : Placed)
    (hle : reach ≤ reach') (hx : x.range ⊆ Set.Ico reach reach')
    (ha : keepsAlign agg x.1.1 x.1.2 → x.1.2.align ∣ x.2.1) :
    FieldsInv agg (placed ++ [x]) reach' := by
  refine ⟨?_, ?_, ?_⟩
  · intro y hy
    rcases List.mem_append.mp hy with hy | hy
    · exact (h.below y hy).trans (Set.Iio_subset_Iio hle)
    · rw [List.mem_singleton.mp hy]
      exact hx.trans fun _ hn => hn.2
  · refine List.pairwise_append.mpr ⟨h.disjoint, List.pairwise_singleton _ _, ?_⟩
    intro y hy z hz
    rw [List.mem_singleton.mp hz]
    refine Set.disjoint_left.mpr fun n hn hm => ?_
    have hlt : n < reach := h.below y hy hn
    have hge : reach ≤ n := (hx hm).1
    omega
  · intro y hy hk
    rcases List.mem_append.mp hy with hy | hy
    · exact h.aligned y hy hk
    · rw [List.mem_singleton.mp hy] at hk ⊢
      exact ha hk

/-- The invariant of the loop of `compute`, after the fields `fis`. -/
structure PlaceInv (t : Target) (agg : IrAggtype)
    (fis : List (IrField × TypeInfo)) (p : Place) : Prop where
  offsets : p.offsets.length = fis.length
  bits : p.bits.length = fis.length
  alignPos : 1 ≤ p.align
  alignMax : p.align ≤ uint64Max
  bitMax : p.bit ≤ uint64Max
  posMax : ∀ b ∈ p.bits, b.pos ≤ uint64Max
  unit : UnitInv t agg p
  within : ∀ x ∈ placedAt fis p.offsets p.bits, x.Within p.bit
  first : 0 < p.bit → ∃ x ∈ placedAt fis p.offsets p.bits, x.AtStart
  fields : agg.kind = .struct → FieldsInv agg (placedAt fis p.offsets p.bits) p.reach

theorem placeInv_start (t : Target) (agg : IrAggtype) :
    PlaceInv t agg [] {} := by
  refine ⟨rfl, rfl, le_rfl, by decide, by decide, by simp, ⟨?_, by decide, ?_⟩,
    by simp [placedAt], fun h => absurd h (Nat.lt_irrefl _), ?_⟩
  · intro h
    exact absurd rfl h
  · intro _
    rfl
  · intro _
    exact ⟨by simp [placedAt], List.Pairwise.nil, by simp [placedAt]⟩

/-- What the loop relies on about the type of a field. -/
structure InfoOk (f : IrField) (info : TypeInfo) : Prop where
  alignPos : 1 ≤ info.align
  alignMax : info.align ≤ uint64Max
  bitfield : f.bits ≠ 0 → f.bits ≤ 8 * info.size ∧ info.size ≤ 8 ∧ info.align = info.size

/-- Record a field and go on: the invariant of the longer prefix from the old
    one and from what the turn did. -/
theorem PlaceInv.snoc {t : Target} {agg : IrAggtype}
    {fis : List (IrField × TypeInfo)} {p q : Place} (h : PlaceInv t agg fis p)
    (f : IrField) (info : TypeInfo) (offset pos : Nat)
    (ho : q.offsets = p.offsets ++ [offset])
    (hb : q.bits = p.bits ++ [{ pos := pos }])
    (h1 : 1 ≤ q.align) (h2 : q.align ≤ uint64Max) (h3 : q.bit ≤ uint64Max)
    (h4 : pos ≤ uint64Max) (hu : UnitInv t agg q) (hle : p.bit ≤ q.bit)
    (hin : Placed.Within ((f, info), offset, pos) q.bit)
    (hnew : p.bit = 0 → 0 < q.bit → Placed.AtStart ((f, info), offset, pos))
    (r : Nat) (hr : q.reach = r)
    (hf : agg.kind = .struct → p.reach ≤ r ∧ fieldRange f info.size offset pos ⊆ Set.Ico p.reach r ∧
      (keepsAlign agg f info → info.align ∣ offset)) :
    PlaceInv t agg (fis ++ [(f, info)]) q := by
  have hz : placedAt (fis ++ [(f, info)]) q.offsets q.bits =
      placedAt fis p.offsets p.bits ++ [((f, info), offset, pos)] := by
    unfold placedAt
    rw [ho, hb, List.map_append, List.zip_append (by rw [h.offsets, List.length_map, h.bits]),
      List.zip_append (by simp [h.offsets, h.bits])]
    rfl
  refine ⟨by simp [ho, h.offsets], by simp [hb, h.bits], h1, h2, h3, ?_, hu, ?_, ?_, ?_⟩
  · intro b hmem
    rcases List.mem_append.mp (hb ▸ hmem) with hmem | hmem
    · exact h.posMax b hmem
    · rw [List.mem_singleton.mp hmem]
      exact h4
  · intro x hmem
    rw [hz] at hmem
    rcases List.mem_append.mp hmem with hmem | hmem
    · exact (h.within x hmem).mono hle
    · rw [List.mem_singleton.mp hmem]
      exact hin
  · intro hpos
    rw [hz]
    rcases Nat.eq_zero_or_pos p.bit with h0 | h0
    · exact ⟨_, List.mem_append_right _ (List.mem_singleton.mpr rfl), hnew h0 hpos⟩
    · obtain ⟨x, hx, hstart⟩ := h.first h0
      exact ⟨x, List.mem_append_left _ hx, hstart⟩
  · intro hk
    obtain ⟨hle, hx, ha⟩ := hf hk
    rw [hz, hr]
    exact (h.fields hk).snoc ((f, info), offset, pos) hle hx ha

section Turn

variable {t : Target} {agg : IrAggtype} {fis : List (IrField × TypeInfo)}
  {p : Place} {f : IrField} {info : TypeInfo}

/-- A turn that closes the unit: the range lies from the old `bit` to the new. -/
theorem UnitInv.closed {q : Place} (hs : q.unitSize = 0) (hu : q.unitUsed ≤ 64) : UnitInv t agg q :=
  ⟨fun h => absurd hs h, hu, fun _ => hs⟩

theorem Place.reach_of_closed {q : Place} (h : q.unitSize = 0) :
    q.reach = q.bit := by
  unfold Place.reach
  rw [if_pos h]

theorem Place.reach_of_open {q : Place} (h : q.unitSize ≠ 0) :
    q.reach = q.unitStart + q.unitUsed := by
  unfold Place.reach
  rw [if_neg h]

theorem fieldRange_break {size offset pos : Nat}
    (h : isUnitBreak f = true) : fieldRange f size offset pos = ∅ := by
  unfold fieldRange
  rw [if_pos h]

theorem fieldRange_plain {size offset pos : Nat} (h : isUnitBreak f = false) (hb : f.bits = 0) :
    fieldRange f size offset pos =
      Set.Ico (8 * offset) (8 * offset + 8 * size) := by
  unfold fieldRange
  rw [if_neg (by simp [h]), if_pos hb]

theorem fieldRange_bits {size offset pos : Nat} (h : isUnitBreak f = false) (hb : f.bits ≠ 0) :
    fieldRange f size offset pos = Set.Ico pos (pos + f.bits) := by
  unfold fieldRange
  rw [if_neg (by simp [h]), if_neg hb]

/-- The alignment a field is placed at. -/
def placeAlign (agg : IrAggtype) (f : IrField) (info : TypeInfo) : Nat :=
  if agg.packed ∧ sharedField f info = false then 1 else info.align

theorem placeAlign_pos (h : InfoOk f info) : 1 ≤ placeAlign agg f info := by
  unfold placeAlign
  split
  · exact le_rfl
  · exact h.alignPos

theorem placeAlign_max (h : InfoOk f info) :
    placeAlign agg f info ≤ uint64Max := by
  unfold placeAlign
  split
  · decide
  · exact h.alignMax

theorem placeAlign_keeps (h : keepsAlign agg f info) :
    placeAlign agg f info = info.align := by
  unfold placeAlign
  rw [if_neg]
  rintro ⟨hp, hs⟩
  rcases h.2.2 with h | h
  · rw [h] at hp
    exact absurd hp (by simp)
  · rw [h] at hs
    exact absurd hs (by simp)

theorem max_align_pos {a b : Nat} (h : 1 ≤ b) : 1 ≤ if a > b then a else b := by
  split <;> omega

theorem max_align_max {a b : Nat} (ha : a ≤ uint64Max) (hb : b ≤ uint64Max) :
    (if a > b then a else b) ≤ uint64Max := by
  split <;> assumption

theorem le_larger (a b : Nat) :
    a ≤ (if a > b then a else b) ∧ b ≤ (if a > b then a else b) := by
  constructor <;> split <;> omega

variable (h : PlaceInv t agg fis p)
include h

/-- A zero-width break moves `bit` up, and closes the unit of MSVC. -/
theorem placeBreak_ends (hi : InfoOk f info) (hb : isUnitBreak f = true)
    (aapcs64 : Bool) {naturalBits : Nat} (hn : naturalBits = info.align * 8)
    (hm : naturalBits ≤ uint64Max) :
    Ends (placeBreak (decide (t.os = .windows)) aapcs64 info.align naturalBits
        (placeAlign agg f info) p)
      (PlaceInv t agg (fis ++ [(f, info)])) := by
  have hreach := h.unit.reach_le
  have hempty : ∀ o b s, fieldRange f info.size o b ⊆ s := by
    intro o b s
    rw [fieldRange_break hb]
    exact Set.empty_subset _
  have hin : ∀ o n, Placed.Within ((f, info), o, 0) n :=
    fun o n => Placed.within_break hb rfl
  have hnk : ¬ keepsAlign agg f info := by simp [keepsAlign, hb]
  unfold placeBreak
  split
  · rename_i hos
    have hs : p.unitSize = 0 := h.unit.never (Or.inl (by simpa using hos))
    have := hi.alignPos
    refine ends_bind (roundUp_ends p.bit naturalBits h.bitMax (by omega) hm) ?_
    rintro bit ⟨hle, hdvd, hbit, hlt⟩
    refine ends_pure (h.snoc f info (bit / 8) 0 rfl rfl ?_ ?_ hbit
      (Nat.zero_le _) (UnitInv.closed hs h.unit.used) hle (hin _ _)
      (fun h0 hpos => absurd hpos (Nat.not_lt.mpr (Nat.le_of_eq
        (eq_zero_of_roundUp h0 hdvd hlt)))) bit
      (Place.reach_of_closed (by exact hs))
      fun _ => ⟨le_trans hreach hle, hempty _ _ _, ?_⟩)
    · show 1 ≤ if aapcs64 = true ∧ info.align > p.align then _ else _
      split
      · exact hi.alignPos
      · exact h.alignPos
    · show (if aapcs64 = true ∧ info.align > p.align then _ else _) ≤ _
      split
      · exact hi.alignMax
      · exact h.alignMax
    · exact fun hk => absurd hk hnk
  · split
    · rename_i hopen
      refine ends_bind (roundUp_ends _ _ (wholeBytes_le _ h.bitMax)
        (placeAlign_pos hi) (placeAlign_max hi)) ?_
      rintro start ⟨hle, -, -⟩
      refine ends_bind (mulSize_ends start 8) ?_
      rintro bit ⟨rfl, hbit⟩
      have hup : p.bit ≤ start * 8 := by
        have := le_wholeBytes p.bit
        omega
      refine ends_pure (h.snoc f info _ 0 rfl rfl
        (max_align_pos h.alignPos) (max_align_max (placeAlign_max hi) h.alignMax)
        hbit (Nat.zero_le _) (UnitInv.closed rfl h.unit.used) hup (hin _ _)
        (fun h0 _ => absurd h0 (h.unit.bit_ne_zero hopen)) (start * 8) (Place.reach_of_closed rfl)
        fun _ => ⟨hreach.trans hup, hempty _ _ _, ?_⟩)
      exact fun hk => absurd hk hnk
    · exact ends_pure (h.snoc f info _ 0 rfl rfl h.alignPos h.alignMax h.bitMax
        (Nat.zero_le _) ⟨h.unit.ends, h.unit.used, h.unit.never⟩ le_rfl
        (hin _ _) (fun h0 hpos => absurd hpos (Nat.not_lt.mpr (Nat.le_of_eq h0)))
        _ rfl fun _ => ⟨le_rfl, hempty _ _ _, fun hk => absurd hk hnk⟩)

/-- A plain field starts at a multiple of its alignment above `bit`. -/
theorem placePlain_ends (hi : InfoOk f info) (hb : isUnitBreak f = false) (hw : f.bits = 0) :
    Ends (placePlain (placeAlign agg f info) info p) (PlaceInv t agg (fis ++ [(f, info)])) := by
  have hreach := h.unit.reach_le
  refine ends_bind (roundUp_ends _ _ (wholeBytes_le _ h.bitMax)
    (placeAlign_pos hi) (placeAlign_max hi)) ?_
  rintro offset ⟨hle, hdvd, hmax, hlt⟩
  refine ends_bind (addSize_ends _ _ hmax) ?_
  rintro stop ⟨rfl, -⟩
  refine ends_bind (mulSize_ends _ _) ?_
  rintro bit ⟨hbit, hbmax⟩
  have hwhole := le_wholeBytes p.bit
  have hfirst : p.bit = 0 → 0 < bit →
      Placed.AtStart ((f, info), offset, 0) := by
    intro h0 hpos
    have hoff := eq_zero_of_roundUp (by rw [h0]; rfl) hdvd hlt
    exact Placed.atStart_plain hb hw (show 0 < info.size by
      omega) hoff
  refine ends_pure (h.snoc f info offset 0 rfl rfl (max_align_pos h.alignPos)
    (max_align_max (placeAlign_max hi) h.alignMax) hbmax (Nat.zero_le _)
    (UnitInv.closed rfl h.unit.used) (show p.bit ≤ bit by omega) ?_ hfirst bit
    (Place.reach_of_closed rfl) fun _ => ?_)
  · refine Placed.within_plain hb hw ?_
    show 8 * offset + 8 * info.size ≤ bit
    omega
  rw [fieldRange_plain hb hw]
  refine ⟨by omega, Set.Ico_subset_Ico (by omega) (by omega), ?_⟩
  intro hk
  rw [← placeAlign_keeps hk]
  exact hdvd

/-- A bitfield of MSVC takes the next bits of the open unit, or the first bits
    of a new unit above `bit`. -/
theorem placeShared_ends (hi : InfoOk f info) (hb : isUnitBreak f = false)
    (hw : f.bits ≠ 0) (hos : t.os = .windows) (hk : agg.kind ≠ .union)
    {sizeBits : Nat} (hs : sizeBits = info.size * 8) :
    Ends (placeShared (placeAlign agg f info) sizeBits f.bits info p)
      (PlaceInv t agg (fis ++ [(f, info)])) := by
  have hreach := h.unit.reach_le
  obtain ⟨hfit, hsize, -⟩ := hi.bitfield hw
  have hnk : ¬ keepsAlign agg f info := by simp [keepsAlign, hw]
  have hopen : info.size ≠ 0 := by omega
  have hused := h.unit.used
  have hbmax := h.bitMax
  refine ends_bind (rawAdd_ends _ _ (by unfold uint64Max; omega)) ?_
  rintro fits rfl
  split
  · rename_i hc
    obtain ⟨hends, -⟩ := h.unit.ends (by omega)
    refine ends_bind (rawAdd_ends _ _ (by omega)) ?_
    rintro pos rfl
    have hin : p.unitStart + p.unitUsed + f.bits ≤ p.bit := by omega
    refine ends_pure (h.snoc f info _ _ rfl rfl (max_align_pos h.alignPos)
      (max_align_max (placeAlign_max hi) h.alignMax) h.bitMax (by omega)
      ⟨fun hu => ⟨(h.unit.ends hu).1, ?_⟩, ?_, h.unit.never⟩ le_rfl
      (Placed.within_bits hb hw hin rfl)
      (fun h0 _ => absurd h0 (h.unit.bit_ne_zero (by omega)))
      (p.unitStart + (p.unitUsed + f.bits))
      (Place.reach_of_open (show p.unitSize ≠ 0 by omega)) fun _ => ?_)
    · show p.unitUsed + f.bits ≤ 8 * p.unitSize
      omega
    · show p.unitUsed + f.bits ≤ 64
      omega
    · rw [fieldRange_bits hb hw, Place.reach_of_open (by omega)]
      exact ⟨by omega, Set.Ico_subset_Ico le_rfl (Nat.add_assoc _ _ _).le, fun hk => absurd hk hnk⟩
  · refine ends_bind (roundUp_ends _ _ (wholeBytes_le _ h.bitMax)
      (placeAlign_pos hi) (placeAlign_max hi)) ?_
    rintro start ⟨hle, hdvd, -, hlt⟩
    refine ends_bind (mulSize_ends _ _) ?_
    rintro unitStart ⟨rfl, hmax⟩
    refine ends_bind (addSize_ends _ _ hmax) ?_
    rintro bit ⟨rfl, hbit⟩
    have hup : p.bit ≤ start * 8 + sizeBits := by
      have := le_wholeBytes p.bit
      omega
    have hin : start * 8 + f.bits ≤ start * 8 + sizeBits := by omega
    refine ends_pure (h.snoc f info _ _ rfl rfl (max_align_pos h.alignPos)
      (max_align_max (placeAlign_max hi) h.alignMax) hbit hmax
      ⟨fun _ => ⟨?_, hfit⟩, ?_, ?_⟩ hup (Placed.within_bits hb hw hin rfl)
      (fun h0 _ => Placed.atStart_bits hb hw (show start * 8 = 0 by
        rw [eq_zero_of_roundUp (by rw [h0]; rfl) hdvd hlt]))
      (start * 8 + f.bits)
      (Place.reach_of_open (by exact hopen)) fun _ => ?_)
    · show start * 8 + 8 * info.size = start * 8 + sizeBits
      omega
    · show f.bits ≤ 64
      omega
    · rintro (h | h)
      · exact absurd hos h
      · exact absurd h hk
    · have := le_wholeBytes p.bit
      rw [fieldRange_bits hb hw]
      exact ⟨by omega, Set.Ico_subset_Ico (by omega) le_rfl, fun hk => absurd hk hnk⟩

/-- A bitfield of System V takes the next free bit, or the next multiple of its type's bits. -/
theorem placeNext_ends (hi : InfoOk f info) (hb : isUnitBreak f = false)
    (hw : f.bits ≠ 0) (hos : t.os ≠ .windows) {sizeBits naturalBits : Nat}
    (hn : naturalBits = info.align * 8) :
    Ends (placeNext agg.packed (placeAlign agg f info) sizeBits naturalBits f.bits info p)
      (PlaceInv t agg (fis ++ [(f, info)])) := by
  have hs : p.unitSize = 0 := h.unit.never (Or.inl hos)
  obtain ⟨hfit, hsize, halign⟩ := hi.bitfield hw
  have hnk : ¬ keepsAlign agg f info := by simp [keepsAlign, hw]
  have hmod := Nat.mod_lt p.bit (show naturalBits > 0 by omega)
  refine ends_bind (rawAdd_ends _ _ (by unfold uint64Max; omega)) ?_
  rintro crossing rfl
  refine ends_bind (Q := fun bit => p.bit ≤ bit ∧ bit ≤ uint64Max ∧ (p.bit = 0 → bit = 0)) ?_ ?_
  · split
    · refine ends_mono (roundUp_ends _ _ h.bitMax (by omega) ?_) ?_
      · unfold uint64Max
        omega
      · rintro bit ⟨hle, hdvd, hmax, hlt⟩
        exact ⟨hle, hmax, fun h0 => eq_zero_of_roundUp h0 hdvd hlt⟩
    · exact ends_pure ⟨le_rfl, h.bitMax, id⟩
  · rintro bit ⟨hle, hmax, hzero⟩
    refine ends_bind (addSize_ends _ _ hmax) ?_
    rintro next ⟨rfl, hnext⟩
    refine ends_pure (h.snoc f info _ _ rfl rfl (max_align_pos h.alignPos)
      (max_align_max (placeAlign_max hi) h.alignMax) hnext hmax
      (UnitInv.closed hs h.unit.used) (show p.bit ≤ bit + f.bits by omega)
      (Placed.within_bits hb hw le_rfl rfl)
      (fun h0 _ => Placed.atStart_bits hb hw (hzero h0)) (bit + f.bits)
      (Place.reach_of_closed (by exact hs)) fun _ => ?_)
    rw [fieldRange_bits hb hw, Place.reach_of_closed hs]
    exact ⟨by omega, Set.Ico_subset_Ico hle le_rfl, fun hk => absurd hk hnk⟩

/-- A field of a union lies below its own end, to which the union grows. -/
theorem placeUnion_ends (hi : InfoOk f info) (hb : isUnitBreak f = false)
    (hk : agg.kind = .union) {sizeBits : Nat} (hsize : sizeBits = info.size * 8)
    (hs : sizeBits ≤ uint64Max) (hfit : f.bits ≤ uint64Max) (msvc : Bool) :
    Ends (placeUnion msvc (placeAlign agg f info) sizeBits f.bits info p)
      (PlaceInv t agg (fis ++ [(f, info)])) := by
  have hunit : p.unitSize = 0 := h.unit.never (Or.inr hk)
  refine ends_pure (h.snoc f info 0 0 rfl rfl (max_align_pos h.alignPos)
    (max_align_max (placeAlign_max hi) h.alignMax) ?_ (Nat.zero_le _)
    (UnitInv.closed hunit h.unit.used) ?_ ?_ ?_ _ rfl fun hstruct => ?_)
  · refine max_align_max ?_ h.bitMax
    split
    · exact hs
    · exact hfit
  · exact (le_larger _ p.bit).2
  · have hend := (le_larger (if f.bits = 0 ∨ msvc = true then sizeBits else f.bits) p.bit).1
    by_cases hw : f.bits = 0
    · refine Placed.within_plain hb hw (le_trans ?_ hend)
      rw [if_pos (Or.inl hw)]
      show 8 * 0 + 8 * info.size ≤ sizeBits
      omega
    · have := (hi.bitfield hw).1
      refine Placed.within_bits hb hw (le_trans ?_ hend) (Nat.zero_div 8).symm
      show 0 + f.bits ≤ _
      split <;> omega
  · intro h0 hpos
    by_cases hw : f.bits = 0
    · refine Placed.atStart_plain hb hw (show 0 < info.size from ?_) rfl
      -- The union has grown from nothing to the end of this field.
      have hpos : 0 < if (if f.bits = 0 ∨ msvc = true then sizeBits else f.bits) > p.bit
        then (if f.bits = 0 ∨ msvc = true then sizeBits else f.bits) else p.bit := hpos
      rw [if_pos (Or.inl hw), h0] at hpos
      split at hpos <;> omega
    · exact Placed.atStart_bits hb hw rfl
  · rw [hk] at hstruct
    exact absurd hstruct (by decide)

theorem placeField_ends (hi : InfoOk f info) : Ends (placeField t agg f info p)
      (PlaceInv t agg (fis ++ [(f, info)])) := by
  refine ends_bind (mulSize_ends _ _) ?_
  rintro sizeBits ⟨hs, hsmax⟩
  refine ends_bind (mulSize_ends _ _) ?_
  rintro naturalBits ⟨hn, hnmax⟩
  have hp : PlaceInv t agg fis { p with
      shared := p.shared || sharedField f info } :=
    ⟨h.offsets, h.bits, h.alignPos, h.alignMax, h.bitMax, h.posMax,
      ⟨h.unit.ends, h.unit.used, h.unit.never⟩, h.within, h.first,
      h.fields⟩
  have hfit : f.bits ≤ uint64Max := by
    by_cases hw : f.bits = 0
    · omega
    · obtain ⟨h1, h2, -⟩ := hi.bitfield hw
      omega
  split
  · rename_i hb
    exact placeBreak_ends hp hi hb _ hn hnmax
  · rename_i hb
    have hb : isUnitBreak f = false := by simpa using hb
    split
    · rename_i hk
      exact placeUnion_ends hp hi hb hk hs hsmax hfit _
    · rename_i hk
      split
      · rename_i hw
        exact placePlain_ends hp hi hb hw
      · rename_i hw
        split
        · rename_i hos
          exact placeShared_ends hp hi hb hw (by simpa using hos) hk hs
        · rename_i hos
          exact placeNext_ends hp hi hb hw (by simpa using hos) hn

omit h in
/-- A struct whose first field has bytes of its own is not empty. -/
theorem PlaceInv.bit_pos (h : PlaceInv t agg ((f, info) :: fis) p)
    (hk : agg.kind = .struct) (hb : isUnitBreak f = false) (hw : f.bits = 0)
    (hs : 0 < info.size) : 0 < p.bit := by
  obtain ⟨offset, os, ho⟩ := List.exists_cons_of_length_eq_add_one h.offsets
  obtain ⟨b, bs, hbits⟩ := List.exists_cons_of_length_eq_add_one h.bits
  have hmem : ((f, info), offset, b.pos) ∈
      placedAt ((f, info) :: fis) p.offsets p.bits := by
    rw [ho, hbits]
    exact List.mem_cons_self ..
  have hin : 8 * offset ∈ fieldRange f info.size offset b.pos := by
    rw [fieldRange_plain hb hw]
    exact ⟨le_rfl, by omega⟩
  have hlt : 8 * offset < p.reach := (h.fields hk).below _ hmem hin
  have := h.unit.reach_le
  omega

end Turn

/-! ## The units of the bitfields -/

theorem unitBytes_le (need : Nat) : unitBytes need ≤ 8 := by
  unfold unitBytes
  split_ifs <;> decide

theorem bitUnit_overflow (agg : IrAggtype) (size : Nat) (f : IrField)
    (b : LayoutBits) : (bitUnit agg size f b).overflow = false := by
  refine overflow_bind rfl fun sum => overflow_bind rfl fun need => ?_
  dsimp only
  split
  · rfl
  · split
    · rfl
    · exact overflow_bind rfl fun stop => rfl

/-- The unit of a bitfield of `width` bits in an aggregate of `size` bytes: it
    holds the bits of the field and stays inside the aggregate. -/
structure UnitCovers (t : Target) (size width : Nat) (b : LayoutBits) :
    Prop where
  scalar : b.unitType ≠ .agg
  inside : b.unitOffset + scalarSize t b.unitType ≤ size
  shift : 8 * b.unitOffset + b.shift = b.pos
  covers : b.shift + width ≤ 8 * scalarSize t b.unitType

theorem le_unitBytes {need : Nat} (h : need ≤ 8) : need ≤ unitBytes need := by
  unfold unitBytes
  split_ifs <;> omega

/-- The integer type of a unit has the bytes of the unit on every target. -/
theorem scalarSize_unitTypeOf (t : Target) (need : Nat) :
    scalarSize t (unitTypeOf (unitBytes need)) = unitBytes need := by
  unfold unitBytes
  split_ifs <;> rfl

theorem unitTypeOf_scalar (bytes : Nat) : unitTypeOf bytes ≠ .agg := by
  unfold unitTypeOf
  split_ifs <;> decide

/-- A field is found below the end of the aggregate, or at its first bit. -/
theorem bitUnit_ends (t : Target) (agg : IrAggtype) (size : Nat) (f : IrField)
    (b : LayoutBits) (hw : f.bits ≤ 64) (hb : b.pos ≤ uint64Max) :
    Ends (bitUnit agg size f b) fun r => ∀ b', r = .ok b' → b'.pos = b.pos ∧
      (b.pos = 0 ∨ b.pos + f.bits ≤ 8 * size →
        UnitCovers t size f.bits b') := by
  refine ends_bind (rawAdd_ends _ _ (by unfold uint64Max; omega)) ?_
  rintro sum rfl
  refine ends_bind (rawAdd_ends _ _ (by unfold uint64Max; omega)) ?_
  rintro sum rfl
  dsimp only
  split
  · exact ends_pure fun b' h => absurd h (by simp)
  · split
    · exact ends_pure fun b' h => absurd h (by simp)
    · refine ends_bind (rawAdd_ends _ _ ?_) ?_
      · have := unitBytes_le ((b.pos % 8 + f.bits + 7) / 8)
        unfold uint64Max at *
        omega
      · rintro stop rfl
        rename_i hneed hbytes
        refine ends_pure fun b' h => ?_
        obtain rfl := Except.ok.inj h
        refine ⟨rfl, fun hin => ?_⟩
        have hcover := le_unitBytes (not_lt.mp hneed)
        have hmax := unitBytes_le ((b.pos % 8 + f.bits + 7) / 8)
        have htype := scalarSize_unitTypeOf t ((b.pos % 8 + f.bits + 7) / 8)
        generalize unitBytes ((b.pos % 8 + f.bits + 7) / 8) = bytes at *
        -- A unit that would end past the aggregate is moved to its end.
        by_cases hend : b.pos / 8 + bytes > size
        · simp only [if_pos hend]
          refine ⟨unitTypeOf_scalar bytes, ?_, ?_, ?_⟩
          · show size - bytes + scalarSize t (unitTypeOf bytes) ≤ size
            omega
          · show 8 * (size - bytes) + (b.pos - (size - bytes) * 8) % 256 = b.pos
            omega
          · show (b.pos - (size - bytes) * 8) % 256 + f.bits ≤ 8 * scalarSize t (unitTypeOf bytes)
            omega
        · simp only [if_neg hend]
          refine ⟨unitTypeOf_scalar bytes, ?_, ?_, ?_⟩
          · show b.pos / 8 + scalarSize t (unitTypeOf bytes) ≤ size
            omega
          · show 8 * (b.pos / 8) + (b.pos - b.pos / 8 * 8) % 256 = b.pos
            omega
          · show (b.pos - b.pos / 8 * 8) % 256 + f.bits ≤ 8 * scalarSize t (unitTypeOf bytes)
            omega

theorem bitUnits_overflow (agg : IrAggtype) (size : Nat) :
    ∀ (fs : List IrField) (bs : List LayoutBits), (bitUnits agg size fs bs).overflow = false := by
  intro fs
  induction fs with
  | nil =>
    intro bs
    cases bs <;> rfl
  | cons f fs ih =>
    intro bs
    cases bs with
    | nil => rfl
    | cons b bs =>
      unfold bitUnits
      split
      · refine overflow_bind (bitUnit_overflow agg size f b) fun r => ?_
        split
        · rfl
        · exact overflow_bind (ih bs) fun _ => rfl
      · exact overflow_bind (ih bs) fun _ => rfl

/-- The units leave the first bits where they are, and without an error each covers its bitfield. -/
theorem bitUnits_ends (t : Target) (agg : IrAggtype) (size : Nat) :
    ∀ (fs : List IrField) (bs : List LayoutBits),
      (∀ f ∈ fs, f.bits ≤ 64) → (∀ b ∈ bs, b.pos ≤ uint64Max) →
      Ends (bitUnits agg size fs bs) fun r =>
        r.2.map LayoutBits.pos = bs.map LayoutBits.pos ∧
        ((∀ x ∈ fs.zip bs, x.1.bits ≠ 0 → x.2.pos = 0 ∨ x.2.pos + x.1.bits ≤ 8 * size) →
          r.1 = none → ∀ x ∈ fs.zip r.2, x.1.bits ≠ 0 →
            UnitCovers t size x.1.bits x.2) := by
  intro fs
  induction fs with
  | nil =>
    intro bs _ _
    cases bs <;> exact ends_pure ⟨rfl, by simp⟩
  | cons f fs ih =>
    intro bs hf hb
    cases bs with
    | nil => exact ends_pure ⟨rfl, by simp⟩
    | cons b bs =>
      have hrest := ih bs (fun g hg => hf g (List.mem_cons_of_mem _ hg))
        fun c hc => hb c (List.mem_cons_of_mem _ hc)
      unfold bitUnits
      split
      · rename_i hw
        refine ends_bind (bitUnit_ends t agg size f b
          (hf f (List.mem_cons_self ..)) (hb b (List.mem_cons_self ..))) ?_
        intro r hr
        cases r with
        | error e => exact ends_pure ⟨rfl, fun _ h => absurd h (by simp)⟩
        | ok c =>
          refine ends_bind hrest fun rest hmap => ends_pure ⟨?_, ?_⟩
          · show c.pos :: _ = b.pos :: _
            rw [(hr c rfl).1, hmap.1]
          · intro hin hnone x hx hwx
            rcases List.mem_cons.mp hx with rfl | hx
            · exact (hr c rfl).2 (hin (f, b) (List.mem_cons_self ..) hw)
            · exact hmap.2 (fun y hy => hin y (List.mem_cons_of_mem _ hy)) hnone x hx hwx
      · rename_i hw
        refine ends_bind hrest fun rest hmap => ends_pure ⟨?_, ?_⟩
        · show b.pos :: _ = b.pos :: _
          rw [hmap.1]
        · intro hin hnone x hx hwx
          rcases List.mem_cons.mp hx with rfl | hx
          · exact absurd hwx hw
          · exact hmap.2 (fun y hy => hin y (List.mem_cons_of_mem _ hy)) hnone x hx hwx

end AnticLayout
