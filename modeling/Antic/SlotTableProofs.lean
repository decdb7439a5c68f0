import Antic.SlotTable
import Mathlib.Data.List.Perm.Basic
import Mathlib.Data.List.Range

/-! # A `HashMap` is a finite map, and what its walks give

    `RoomOk` says what holds of the slots: every entry is reached from the slot of
    its hash before any empty slot, and `removed` counts the removed marks.  The
    contents of a table are its `pairs`, up to their order.

    A walk gives every entry once, as long as a place holds the slot where the
    walk started: up to `2 ^ 31` slots.  A larger table has a start whose place is
    negative, and the walk from there ends before its first entry. -/

open Nat

namespace AnticCollection

open FiniteWalk Interleaving MachineInt List Function

theorem isLive_iff {m : UInt64} : isLive m = true ↔ LiveMark m := by
  rw [isLive, decide_eq_true_eq, UInt64.lt_iff_toNat_lt, LiveMark]
  have h0 : m = emptyMark ↔ m.toNat = 0 := by
    rw [← UInt64.toNat_inj]
    rfl
  have h1 : m = removedMark ↔ m.toNat = 1 := by
    rw [← UInt64.toNat_inj]
    rfl
  rw [Ne, Ne, h0, h1, show removedMark.toNat = 1 from rfl]
  omega

theorem isLive_false_iff {m : UInt64} :
    isLive m = false ↔ m = emptyMark ∨ m = removedMark := by
  rw [← Bool.not_eq_true, isLive_iff, LiveMark]
  tauto

/-! ## One slot of a table changes -/

theorem filterMap_range_update {α : Type*} {g g' : Nat → Option α} {q n : Nat}
    (hq : q < n) (h : ∀ i, i ≠ q → g' i = g i) :
    ∃ a b, (List.range n).filterMap g = a ++ (g q).toList ++ b ∧
      (List.range n).filterMap g' = a ++ (g' q).toList ++ b := by
  have hsplit := range_split hq
  have hone : ∀ f : Nat → Option α, (q :: List.range' (q + 1) (n - (q + 1))).filterMap f =
      (f q).toList ++ (List.range' (q + 1) (n - (q + 1))).filterMap f := by
    intro f
    cases hf : f q with
    | none => simp [hf]
    | some a => simp [hf]
  refine ⟨(List.range q).filterMap g,
    (List.range' (q + 1) (n - (q + 1))).filterMap g, ?_, ?_⟩
  · rw [hsplit, filterMap_append, hone, append_assoc]
  · rw [hsplit, filterMap_append, hone, append_assoc]
    congr 1
    · exact filterMap_congr fun i hi => h i (Nat.ne_of_lt (mem_range.1 hi))
    · congr 1
      refine filterMap_congr fun i hi => h i ?_
      have := (mem_range'_1.1 hi).1
      omega

/-- The removed marks of a table. -/
def removedMarks (marks : Nat → UInt64) (size : Nat) : List Nat :=
  (List.range size).filterMap fun i => if marks i = removedMark then some i else none

namespace SlotTable

variable {E : Type}

/-- The marked hash and the entry of a slot that holds one. -/
def pairAt (t : SlotTable E) (i : Nat) : Option (UInt64 × Option E) :=
  if isLive (t.marks i) then some (t.marks i, t.slots i) else none

/-- The contents of a table, slot by slot. -/
def pairs (t : SlotTable E) : List (UInt64 × Option E) :=
  (List.range t.size).filterMap t.pairAt

/-- What holds of the slots at every time. -/
structure RoomOk (t : SlotTable E) : Prop where
  room : t.room = decide (0 < t.size)
  size : 0 < t.size → ∃ k, 4 ≤ k ∧ t.size = 2 ^ k
  fits : t.size ≤ intMax
  removed : t.removed = (removedMarks t.marks t.size).length
  reached : ∀ i, i < t.size → LiveMark (t.marks i) →
    ReachedFrom t.marks t.size (t.marks i) i
  zero : ∀ i, ¬ LiveMark (t.marks i) → t.slots i = none

/-- What holds of a table between the calls. -/
structure Ok (t : SlotTable E) : Prop extends RoomOk t where
  count : t.count = t.pairs.length
  load : 2 * (t.count + t.removed) ≤ t.size

variable {t : SlotTable E}

/-- A table whose entries and removed marks are fewer than its slots has an empty slot. -/
theorem exists_empty (h : t.pairs.length + (removedMarks t.marks t.size).length < t.size) :
    ∃ p, p < t.size ∧ t.marks p = emptyMark := by
  by_contra hno
  have hfull : ∀ n, n ≤ t.size → n ≤ ((List.range n).filterMap t.pairAt).length +
      (removedMarks t.marks n).length := by
    intro n
    induction n with
    | zero => exact fun _ => Nat.zero_le _
    | succ n ih =>
      intro hn
      have := ih (by omega)
      rw [removedMarks] at this ⊢
      rw [range_succ, filterMap_append, filterMap_append,
        length_append, length_append]
      cases hl : isLive (t.marks n) with
      | true =>
        have h1 : t.pairAt n = some (t.marks n, t.slots n) := by simp [pairAt, hl]
        rw [filterMap_cons_some h1]
        simp only [length_cons]
        omega
      | false =>
        rcases isLive_false_iff.1 hl with he | hr
        · exact absurd ⟨n, by omega, he⟩ hno
        · have h1 : [n].filterMap
              (fun i => if t.marks i = removedMark then some i else none) = [n] := by
            simp [hr]
          rw [h1, length_singleton]
          omega
  have := hfull t.size (Nat.le_refl _)
  rw [pairs] at h
  omega

theorem RoomOk.size_pos (h : t.RoomOk) (hroom : t.room = true) : 0 < t.size := by
  have := h.room
  rw [hroom] at this
  simpa using this.symm

theorem RoomOk.size_eq_zero (h : t.RoomOk) (hroom : t.room = false) : t.size = 0 := by
  have := h.room
  rw [hroom] at this
  simpa using this.symm

theorem Ok.exists_empty (h : t.Ok) (hroom : t.room = true) :
    ∃ p, p < t.size ∧ t.marks p = emptyMark := by
  refine SlotTable.exists_empty ?_
  have hpos := h.size_pos hroom
  have hload := h.load
  rw [h.count, h.removed] at hload
  omega

/-! ## Probes -/

theorem Ok.slotOf_ends (hok : t.Ok) (h : UInt64) (same : E → Bool) :
    ∃ found, t.slotOf h same = .ok found := by
  cases hroom : t.room with
  | false => exact ⟨none, by simp [slotOf, hroom]⟩
  | true =>
    obtain ⟨k, _, hk⟩ := hok.size (hok.size_pos hroom)
    obtain ⟨p, hp, hempty⟩ := hok.exists_empty hroom
    rw [hk] at hp
    obtain ⟨q, hseek, _⟩ := seek_ends h
      (fun i => decide (t.marks i = h) && (t.slots i).any same) hp hempty
    unfold slotOf
    rw [if_neg (by simp [hroom]), mask, hk, hseek]
    exact ⟨_, rfl⟩

variable {h : UInt64} {t' : SlotTable E} {q size : Nat}

theorem Ok.slotOf_none (hok : t.Ok) {same : E → Bool}
    (hnone : ∀ i, i < t.size → t.marks i = h → (t.slots i).any same = false) :
    t.slotOf h same = .ok none := by
  cases hroom : t.room with
  | false => simp [slotOf, hroom]
  | true =>
    obtain ⟨k, _, hk⟩ := hok.size (hok.size_pos hroom)
    obtain ⟨p, hp, hempty⟩ := hok.exists_empty hroom
    rw [hk] at hp
    obtain ⟨q, hseek, hq, _, hstop⟩ := seek_ends h
      (fun i => decide (t.marks i = h) && (t.slots i).any same) hp hempty
    have hq0 : t.marks q = emptyMark := by
      rcases hstop with he | hs
      · exact he
      · obtain ⟨hm, hany⟩ := Bool.and_eq_true_iff.1 hs
        rw [hnone q (hk ▸ hq) (of_decide_eq_true hm)] at hany
        exact absurd hany (by decide)
    unfold slotOf
    rw [if_neg (by simp [hroom]), mask, hk, hseek]
    simp [bind, Except.bind, pure, Except.pure, hq0]

theorem Ok.slotOf_some (hok : t.Ok) {i : Nat} {same : E → Bool} (hi : i < t.size)
    (hmark : t.marks i = h) (hlive : LiveMark h) (hsame : (t.slots i).any same = true)
    (huniq : ∀ j, j < t.size → t.marks j = h → (t.slots j).any same = true → j = i) :
    t.slotOf h same = .ok (some i) := by
  have hroom : t.room = true := by
    rw [hok.room]
    simp only [decide_eq_true_eq]
    omega
  obtain ⟨k, _, hk⟩ := hok.size (hok.size_pos hroom)
  have hreach := hok.reached i hi (hmark ▸ hlive)
  rw [hmark] at hreach
  have hseek := seek_finds (h := h) (k := k)
    (fun i => decide (t.marks i = h) && (t.slots i).any same)
    (hk ▸ hreach) (by simp [hmark, hsame]) (fun q hq _ hs => by
      obtain ⟨hm, hany⟩ := Bool.and_eq_true_iff.1 hs
      exact huniq q (hk ▸ hq) (of_decide_eq_true hm) hany)
  unfold slotOf
  rw [if_neg (by simp [hroom]), mask, hk, hseek]
  simp [bind, Except.bind, pure, Except.pure, hmark, hlive.1]

theorem RoomOk.freeSlot (hok : t.RoomOk) (hpos : 0 < t.size)
    (hspace : t.pairs.length + (removedMarks t.marks t.size).length < t.size)
    (h : UInt64) :
    ∃ q, t.freeSlot h = .ok q ∧ q < t.size ∧ ¬ LiveMark (t.marks q) ∧
      ReachedFrom t.marks t.size h q := by
  obtain ⟨k, _, hk⟩ := hok.size hpos
  obtain ⟨p, hp, hempty⟩ := SlotTable.exists_empty hspace
  rw [hk] at hp
  obtain ⟨q, hseek, hq, hreach, hstop⟩ :=
    seek_ends h (fun i => !isLive (t.marks i)) hp hempty
  have hroom : t.room = true := by
    rw [hok.room]
    simpa using hpos
  refine ⟨q, ?_, hk ▸ hq, ?_, hk ▸ hreach⟩
  · unfold SlotTable.freeSlot
    rw [if_neg (by simp [hroom]), mask, hk, hseek]
  · rcases hstop with he | hs
    · rw [he]
      exact fun h => h.1 rfl
    · rw [← isLive_iff]
      simpa using hs

/-! ## A slot is filled, or emptied -/

theorem pairs_fill {e : Option E} (hq : q < t.size) (hlive : LiveMark h)
    (hfree : ¬ LiveMark (t.marks q)) (hsize : t'.size = t.size)
    (hmarks : t'.marks = update t.marks q h)
    (hslots : t'.slots = update t.slots q e) :
    t'.pairs.Perm ((h, e) :: t.pairs) := by
  have hother : ∀ i, i ≠ q → t'.pairAt i = t.pairAt i := by
    intro i hi
    simp only [pairAt, hmarks, hslots, update_of_ne hi]
  obtain ⟨a, b, h1, h2⟩ := filterMap_range_update hq hother
  have hfill : t'.pairAt q = some (h, e) := by
    simp [pairAt, hmarks, hslots, isLive_iff.2 hlive]
  have hnone : t.pairAt q = none := by
    rw [← isLive_iff] at hfree
    simp [pairAt, hfree]
  rw [pairs, hsize, h2, pairs, h1, hfill, hnone]
  simp only [append_assoc]
  exact perm_middle

/-- The removed marks after a slot without an entry was written. -/
theorem removedMarks_fill {marks : Nat → UInt64} (hq : q < size) (hlive : LiveMark h) :
    (removedMarks (update marks q h) size).length =
      (removedMarks marks size).length - (if marks q = removedMark then 1 else 0) := by
  have hother : ∀ i, i ≠ q →
      (if update marks q h i = removedMark then some i else none) =
        if marks i = removedMark then some i else none := by
    intro i hi
    simp only [update_of_ne hi]
  obtain ⟨a, b, h1, h2⟩ := filterMap_range_update hq hother
  rw [removedMarks, h2, removedMarks, h1, update_self, if_neg hlive.2]
  by_cases hr : marks q = removedMark
  · simp [hr]
  · simp [hr]

/-- An entry written to a free slot that is reached keeps the slots. -/
theorem RoomOk.fill (hok : t.RoomOk) {e : Option E} (hq : q < t.size)
    (hlive : LiveMark h) (hreach : ReachedFrom t.marks t.size h q)
    (hroom : t'.room = t.room) (hsize : t'.size = t.size)
    (hmarks : t'.marks = update t.marks q h)
    (hslots : t'.slots = update t.slots q e)
    (hremoved : t'.removed = t.removed - (if t.marks q = removedMark then 1 else 0)) :
    t'.RoomOk := by
  refine ⟨?_, ?_, ?_, ?_, fun i hi hl => ?_, fun i hl => ?_⟩
  · rw [hroom, hsize, hok.room]
  · rw [hsize]
    exact hok.size
  · rw [hsize]
    exact hok.fits
  · rw [hremoved, hok.removed, hmarks, hsize, removedMarks_fill hq hlive]
  · rw [hmarks, hsize]
    rw [hmarks] at hl
    by_cases hiq : i = q
    · subst hiq
      rw [update_self]
      exact hreach.update hlive.1
    · rw [update_of_ne hiq] at hl ⊢
      exact (hok.reached i (hsize ▸ hi) hl).update hlive.1
  · rw [hmarks] at hl
    by_cases hiq : i = q
    · subst hiq
      rw [update_self] at hl
      exact absurd hlive hl
    · rw [update_of_ne hiq] at hl
      rw [hslots, update_of_ne hiq]
      exact hok.zero i hl

/-- What a table keeps while its slots are filled. -/
structure SameSlots (t t' : SlotTable E) : Prop where
  elementSize : t'.elementSize = t.elementSize
  elementAlign : t'.elementAlign = t.elementAlign
  seed : t'.seed = t.seed
  size : t'.size = t.size
  count : t'.count = t.count

theorem SameSlots.trans {t₁ t₂ : SlotTable E} (h : SameSlots t t₁)
    (h' : SameSlots t₁ t₂) : SameSlots t t₂ :=
  ⟨h'.elementSize.trans h.elementSize, h'.elementAlign.trans h.elementAlign,
    h'.seed.trans h.seed, h'.size.trans h.size, h'.count.trans h.count⟩

/-! ## Growth -/

theorem RoomOk.moveIn (hok : t.RoomOk) (hpos : 0 < t.size) (hremoved : t.removed = 0)
    (hspace : t.pairs.length < t.size) (hlive : LiveMark h) (e : Option E) :
    ∃ t', t.moveIn h e = .ok t' ∧ t'.RoomOk ∧ SameSlots t t' ∧ t'.removed = 0 ∧
      t'.pairs.Perm ((h, e) :: t.pairs) := by
  have hzero : (removedMarks t.marks t.size).length = 0 := by
    rw [← hok.removed, hremoved]
  obtain ⟨q, hq, hlt, hfree, hreach⟩ := hok.freeSlot hpos (by omega) h
  refine ⟨{ t with marks := update t.marks q h
                   slots := update t.slots q e }, ?_,
    hok.fill hlt hlive hreach rfl rfl rfl rfl ?_, ⟨rfl, rfl, rfl, rfl, rfl⟩, hremoved,
    pairs_fill hlt hlive hfree rfl rfl rfl⟩
  · rw [SlotTable.moveIn, hq]
    rfl
  · show t.removed = t.removed - _
    rw [hremoved, Nat.zero_sub]

theorem RoomOk.moveAll {src : SlotTable E} :
    ∀ (l : List Nat) {made : SlotTable E}, made.RoomOk → made.removed = 0 →
      0 < made.size → made.pairs.length + (l.filterMap src.pairAt).length < made.size →
      ∃ t', l.foldlM (fun made i =>
          if isLive (src.marks i) then made.moveIn (src.marks i) (src.slots i)
          else .ok made) made = .ok t' ∧
        t'.RoomOk ∧ SameSlots made t' ∧ t'.removed = 0 ∧
        t'.pairs.Perm (made.pairs ++ l.filterMap src.pairAt) := by
  intro l
  induction l with
  | nil =>
    intro made hok hremoved _ _
    exact ⟨made, rfl, hok, ⟨rfl, rfl, rfl, rfl, rfl⟩, hremoved, by simp⟩
  | cons i l ih =>
    intro made hok hremoved hpos hfits
    cases hi : isLive (src.marks i) with
    | false =>
      have hnone : src.pairAt i = none := by simp [pairAt, hi]
      rw [filterMap_cons_none hnone] at hfits ⊢
      obtain ⟨t', heq, hrest⟩ := ih hok hremoved hpos hfits
      refine ⟨t', ?_, hrest⟩
      rw [foldlM_cons, if_neg (by simp [hi])]
      exact heq
    | true =>
      have hsome : src.pairAt i = some (src.marks i, src.slots i) := by
        simp [pairAt, hi]
      rw [filterMap_cons_some hsome] at hfits ⊢
      rw [length_cons] at hfits
      obtain ⟨t₁, heq₁, hok₁, hsame₁, hremoved₁, hpairs₁⟩ :=
        hok.moveIn hpos hremoved (by omega) (isLive_iff.1 hi) (src.slots i)
      have hlength := hpairs₁.length_eq
      rw [length_cons] at hlength
      obtain ⟨t', heq, hok', hsame, hremoved', hpairs⟩ :=
        ih hok₁ hremoved₁ (hsame₁.size ▸ hpos) (by rw [hlength, hsame₁.size]; omega)
      refine ⟨t', ?_, hok', hsame₁.trans hsame, hremoved', ?_⟩
      · rw [foldlM_cons, if_pos hi, heq₁]
        exact heq
      · refine hpairs.trans ((hpairs₁.append_right _).trans ?_)
        exact perm_middle.symm

theorem blockSize_yields (t : SlotTable E) (size : Nat) :
    Yields (t.blockSize size) fun _ => size ≤ intMax := by
  refine (roomTimes_yields size 8).bind fun n hn => ?_
  refine (aligned_yields _ _).bind fun _ _ => ?_
  refine (roomTimes_yields size t.elementSize).bind fun _ _ => ?_
  exact (roomPlus_yields _ _).mono fun _ _ => by omega

theorem removedMarks_empty (size : Nat) :
    removedMarks (fun _ => emptyMark) size = [] := by
  have hne : emptyMark ≠ removedMark := by decide
  simp [removedMarks, hne]

theorem emptied_roomOk (t : SlotTable E)
    (hsize : 0 < size → ∃ k, 4 ≤ k ∧ size = 2 ^ k) (hle : size ≤ intMax) :
    (t.emptied size).RoomOk := by
  refine ⟨rfl, hsize, hle, ?_, fun i _ hl => absurd rfl hl.1, fun _ _ => rfl⟩
  show 0 = (removedMarks (fun _ => emptyMark) size).length
  rw [removedMarks_empty]
  rfl

theorem emptied_pairs (t : SlotTable E) (size : Nat) : (t.emptied size).pairs = [] := by
  have hdead : isLive emptyMark = false := by decide
  simp [pairs, pairAt, emptied, hdead]

/-- What a table of `size` slots is to the one that it was made of. -/
structure Resized (t : SlotTable E) (size : Nat) (t' : SlotTable E) : Prop where
  ok : t'.RoomOk
  seed : t'.seed = t.seed
  count : t'.count = t.count
  size : t'.size = size
  removed : t'.removed = 0
  pairs : t'.pairs.Perm t.pairs

theorem RoomOk.pairs_nil (hok : t.RoomOk) (hroom : t.room = false) : t.pairs = [] := by
  rw [pairs, hok.size_eq_zero hroom]
  rfl

theorem RoomOk.resize (hok : t.RoomOk) (hsize : 0 < size → ∃ k, 4 ≤ k ∧ size = 2 ^ k)
    (hspace : t.pairs = [] ∨ t.pairs.length < size) :
    Yields (t.resize size) (Resized t size) := by
  have hblock : Yields (if 0 < size then t.blockSize size else .ok 0)
      fun _ => size ≤ intMax := by
    split
    · exact t.blockSize_yields size
    · exact .pure (by omega)
  refine hblock.bind fun _ hle => ?_
  have hempty := t.emptied_roomOk hsize hle
  split
  · next hno =>
      -- there is nothing to move
      have hnil : t.pairs = [] := by
        rcases hno with hroom | hzero
        · exact hok.pairs_nil hroom
        · rcases hspace with h | h
          · exact h
          · omega
      refine .pure ⟨hempty, rfl, rfl, rfl, rfl, ?_⟩
      rw [hnil, emptied_pairs]
  · next hyes =>
      have hpos : 0 < size := by omega
      have hlt : (t.emptied size).pairs.length +
          ((List.range t.size).filterMap t.pairAt).length < (t.emptied size).size := by
        show _ < size
        rw [emptied_pairs, length_nil, Nat.zero_add]
        rcases hspace with h | h
        · rw [pairs] at h
          rw [h]
          exact hpos
        · exact h
      obtain ⟨t', heq, hok', hsame, hremoved, hpairs⟩ :=
        RoomOk.moveAll (List.range t.size) hempty rfl hpos hlt
      rw [heq]
      refine .pure ⟨hok', hsame.seed, hsame.count, hsame.size, hremoved, ?_⟩
      rw [emptied_pairs] at hpairs
      exact hpairs

theorem Ok.resized (hok : t.Ok) (h : Resized t size t') (hload : 2 * t.count ≤ size) :
    t'.Ok ∧ t'.seed = t.seed ∧ t'.pairs.Perm t.pairs := by
  refine ⟨⟨h.ok, ?_, ?_⟩, h.seed, h.pairs⟩
  · rw [h.count, hok.count, h.pairs.length_eq]
  · rw [h.count, h.removed, h.size]
    exact hload

/-- A table that `put` has added an entry to, which the caller then writes. -/
structure Added (t : SlotTable E) (h : UInt64) (r : SlotTable E × Nat) : Prop where
  ok : ∀ e, (r.1.write r.2 e).Ok
  seed : r.1.seed = t.seed
  pairs : ∀ e, (r.1.write r.2 e).pairs.Perm ((h, e) :: t.pairs)

/-- The size that `put` asks for is a power of two and leaves half the slots. -/
theorem Ok.putSize (hok : t.Ok) :
    (∃ k, 4 ≤ k ∧ t.putSize = 2 ^ k) ∧ 2 * (t.count + 1) ≤ t.putSize := by
  have hload := hok.load
  unfold SlotTable.putSize
  by_cases hfirst : t.size < firstBuckets
  · rw [if_pos hfirst]
    have hzero : t.size = 0 := by
      by_contra hne
      obtain ⟨k, hk, hsize⟩ := hok.size (Nat.pos_of_ne_zero hne)
      have : 2 ^ 4 ≤ 2 ^ k := Nat.pow_le_pow_right (by decide) hk
      have hsixteen : firstBuckets = 2 ^ 4 := rfl
      omega
    refine ⟨⟨4, Nat.le_refl _, rfl⟩, ?_⟩
    have hsixteen : firstBuckets = 16 := rfl
    omega
  · rw [if_neg hfirst]
    have hsixteen : firstBuckets = 16 := rfl
    obtain ⟨k, hk, hsize⟩ := hok.size (by omega)
    split
    · refine ⟨⟨k + 1, by omega, ?_⟩, by omega⟩
      rw [hsize, Nat.pow_succ]
    · exact ⟨⟨k, hk, hsize⟩, by omega⟩

theorem Ok.put (hok : t.Ok) (hlive : LiveMark h) : Yields (t.put h) (Added t h) := by
  have hfirst : Yields
      (if t.size < (t.count + t.removed + 1) * 2 then t.resize t.putSize else .ok t)
      fun t₁ => t₁.Ok ∧ t₁.seed = t.seed ∧ t₁.pairs.Perm t.pairs ∧
        2 * (t₁.count + t₁.removed + 1) ≤ t₁.size := by
    split
    · obtain ⟨hpow, hhalf⟩ := hok.putSize
      have hcount := hok.count
      refine (hok.resize (fun _ => hpow) (Or.inr (by omega))).mono fun t₁ hr => ?_
      obtain ⟨hok₁, hseed₁, hpairs₁⟩ := hok.resized hr (by omega)
      refine ⟨hok₁, hseed₁, hpairs₁, ?_⟩
      rw [hr.count, hr.removed, hr.size]
      omega
    · exact .pure ⟨hok, rfl, .refl _, by omega⟩
  refine hfirst.bind fun t₁ ⟨hok₁, hseed, hpairs, hload⟩ => ?_
  have hcount := hok₁.count
  have hremoved := hok₁.removed
  obtain ⟨q, hq, hlt, hfree, hreach⟩ := hok₁.freeSlot (by omega) (by omega) h
  have hfill : ∀ e, (SlotTable.write
      { t₁ with count := t₁.count + 1
                removed := if t₁.marks q = removedMark then t₁.removed - 1 else t₁.removed
                marks := update t₁.marks q h } q e).pairs.Perm
        ((h, e) :: t₁.pairs) :=
    fun e => pairs_fill hlt hlive hfree rfl rfl rfl
  show Yields (Except.bind (t₁.freeSlot h) _) _
  rw [hq]
  refine .pure ⟨fun e => ⟨?_, ?_, ?_⟩, hseed, fun e => (hfill e).trans (hpairs.cons _)⟩
  · refine hok₁.fill hlt hlive hreach (e := e) rfl rfl rfl rfl ?_
    show (if _ then _ else _) = _
    split
    · rfl
    · rfl
  · refine Eq.trans ?_ (hfill e).length_eq.symm
    show t₁.count + 1 = t₁.pairs.length + 1
    rw [hcount]
  · show 2 * (t₁.count + 1 +
      (if t₁.marks q = removedMark then t₁.removed - 1 else t₁.removed)) ≤ t₁.size
    split
    · omega
    · omega

/-! ## Other sizes -/

/-- The loop of `shrink` ends at a power of two that is large enough, where there
    is one before the turns are over. -/
theorem doubledPlain_ok {want n : Nat} (hwant : want ≤ 2 ^ n) : ∀ (turns : Nat) {k : Nat},
    k ≤ n → n < k + turns → ∃ j, doubledPlain want turns (2 ^ k) = .ok (2 ^ j) ∧
      k ≤ j ∧ want ≤ 2 ^ j := by
  intro turns
  induction turns with
  | zero => intro k hk hn; omega
  | succ turns ih =>
    intro k hk hn
    rw [doubledPlain]
    split
    · next hlt =>
        have hkn : k < n := by
          by_contra hge
          have : 2 ^ n ≤ 2 ^ k := Nat.pow_le_pow_right (by decide) (by omega)
          omega
        obtain ⟨j, heq, hj, hle⟩ := ih (succ_le_of_lt hkn) (by omega)
        exact ⟨j, heq, by omega, hle⟩
    · exact ⟨k, rfl, Nat.le_refl _, by omega⟩

theorem Ok.reserve (hok : t.Ok) (n : Int) :
    Yields (t.reserve n)
      fun t' => t'.Ok ∧ t'.seed = t.seed ∧ t'.pairs.Perm t.pairs := by
  unfold SlotTable.reserve
  split
  · refine (roomPlus_yields _ _).bind fun need hneed => ?_
    refine (roomTimes_yields _ _).bind fun twice htwice => ?_
    split
    · refine (roomPlus_yields _ _).bind fun sum hsum => ?_
      refine (roomTimes_yields _ _).bind fun want hwant => ?_
      refine (doubled_yields (show 0 < firstBuckets by decide) (by decide)).bind
        fun size hsize => ?_
      obtain ⟨hle, hfirst, hpow⟩ := hsize
      have hcount := hok.count
      refine (hok.resize (fun _ => ?_) (Or.inr (by omega))).mono
        fun t' hr => hok.resized hr (by omega)
      obtain ⟨k, hk⟩ := hpow ⟨4, rfl⟩
      refine ⟨k, ?_, hk⟩
      rw [hk] at hfirst
      exact (Nat.pow_le_pow_iff_right (show 1 < 2 by decide)).1 hfirst
    · exact .pure ⟨hok, rfl, .refl _⟩
  · exact .pure ⟨hok, rfl, .refl _⟩

theorem Ok.shrink (hok : t.Ok) :
    Yields t.shrink fun t' => t'.Ok ∧ t'.seed = t.seed ∧ t'.pairs.Perm t.pairs := by
  have hcount := hok.count
  have hsize : ∃ size,
      (if 0 < t.count then doubledPlain (2 * t.count) 64 firstBuckets else .ok 0) =
        .ok size ∧ (0 < size → ∃ k, 4 ≤ k ∧ size = 2 ^ k) ∧
      2 * t.count ≤ size ∧ (t.pairs = [] ∨ t.pairs.length < size) := by
    by_cases hpos : 0 < t.count
    · have hload := hok.load
      have hfits := hok.fits
      obtain ⟨n, hn, hsize⟩ := hok.size (by omega)
      have hlt : n < 63 := by
        by_contra hge
        have : 2 ^ 63 ≤ 2 ^ n := Nat.pow_le_pow_right (by decide) (by omega)
        have hmax : intMax < 2 ^ 63 := by decide
        omega
      obtain ⟨j, heq, hj, hle⟩ :=
        doubledPlain_ok (show 2 * t.count ≤ 2 ^ n by omega) 64 hn (by omega)
      refine ⟨2 ^ j, ?_, fun _ => ⟨j, hj, rfl⟩, hle, Or.inr (by omega)⟩
      rw [if_pos hpos]
      exact heq
    · refine ⟨0, if_neg hpos, fun h => absurd h (by decide), by omega, Or.inl ?_⟩
      exact length_eq_zero_iff.1 (by omega)
  obtain ⟨size, heq, hpow, hhalf, hspace⟩ := hsize
  unfold SlotTable.shrink
  rw [heq]
  show Yields (if _ then _ else _) _
  split
  · exact (hok.resize hpow hspace).mono fun t' hr => hok.resized hr hhalf
  · exact .pure ⟨hok, rfl, .refl _⟩

theorem new_ok (seed walks : UInt64) (elementSize elementAlign : Nat) :
    ({ elementSize := elementSize
       elementAlign := elementAlign
       seed := seed
       walks := walks } : SlotTable E).Ok := by
  refine ⟨⟨rfl, fun h => absurd h (Nat.lt_irrefl 0), Nat.zero_le _, rfl,
    fun i _ hl => absurd rfl hl.1, fun _ _ => rfl⟩, rfl, Nat.le_refl _⟩

theorem Ok.copyAll (src : SlotTable E) :
    ∀ (l : List Nat) {made : SlotTable E}, made.Ok →
      Yields (l.foldlM (fun made i =>
          if isLive (src.marks i) then do
            let (made, slot) ← made.put (src.marks i)
            return made.write slot (src.slots i)
          else .ok made) made)
        fun t' => t'.Ok ∧ t'.seed = made.seed ∧
          t'.pairs.Perm (made.pairs ++ l.filterMap src.pairAt) := by
  intro l
  induction l with
  | nil => intro made hok; exact .pure ⟨hok, rfl, by simp⟩
  | cons i l ih =>
    intro made hok
    rw [foldlM_cons]
    cases hi : isLive (src.marks i) with
    | false =>
      have hnone : src.pairAt i = none := by simp [pairAt, hi]
      rw [if_neg (by simp), filterMap_cons_none hnone]
      exact ih hok
    | true =>
      have hsome : src.pairAt i = some (src.marks i, src.slots i) := by
        simp [pairAt, hi]
      rw [if_pos rfl, filterMap_cons_some hsome]
      have hone : Yields (do
          let (made, slot) ← made.put (src.marks i)
          return made.write slot (src.slots i)) fun t₁ : SlotTable E =>
          t₁.Ok ∧ t₁.seed = made.seed ∧
          t₁.pairs.Perm ((src.marks i, src.slots i) :: made.pairs) :=
        (hok.put (isLive_iff.1 hi)).bind fun r hr =>
          .pure ⟨hr.ok _, hr.seed, hr.pairs _⟩
      refine hone.bind fun t₁ ⟨hok₁, hseed₁, hpairs₁⟩ => ?_
      refine (ih hok₁).mono fun t' ⟨hok', hseed', hpairs'⟩ => ?_
      refine ⟨hok', hseed'.trans hseed₁, ?_⟩
      exact (hpairs'.trans (hpairs₁.append_right _)).trans perm_middle.symm

theorem Ok.copy (hok : t.Ok) :
    Yields t.copy fun t' => t'.Ok ∧ t'.seed = t.seed ∧ t'.pairs.Perm t.pairs := by
  have hnew := new_ok (E := E) t.seed t.walks t.elementSize t.elementAlign
  refine (hnew.reserve t.count).bind fun made ⟨hok₁, hseed₁, hpairs₁⟩ => ?_
  have hnil : made.pairs = [] := hpairs₁.eq_nil
  split
  · next hroom =>
      refine .pure ⟨hok₁, hseed₁, ?_⟩
      rw [hnil, hok.pairs_nil hroom]
  · refine (Ok.copyAll t (List.range t.size) hok₁).mono
      fun t' ⟨hok', hseed', hpairs'⟩ => ⟨hok', hseed'.trans hseed₁, ?_⟩
    rw [hnil] at hpairs'
    exact hpairs'

/-! ## Places -/

theorem packed_eq {start k : Nat} (hstart : start < 2 ^ 31) (hk : k < 2 ^ 32) :
    packed start k = ((start * 2 ^ 32 + k : Nat) : Int) := by
  have hshift : start <<< 32 = start * 2 ^ 32 := shiftLeft_eq start 32
  have hfits : start <<< 32 < 2 ^ 64 := by omega
  rw [packed, mod_eq_of_lt hfits, ← shiftLeft_add_eq_or_of_lt hk, hshift, signed]
  have hsum : (start * 2 ^ 32 + k) % 2 ^ 64 = start * 2 ^ 32 + k :=
    mod_eq_of_lt (by omega)
  rw [hsum, if_pos (by omega)]

/-- The place of the slot `2 ^ 31` is negative, whatever the steps from it. -/
theorem packed_neg {k : Nat} (hk : k < 2 ^ 64) : packed (2 ^ 31) k < 0 := by
  have hshift : (2 ^ 31) <<< 32 % 2 ^ 64 = 2 ^ 63 := by decide
  have hge : 2 ^ 63 ≤ 2 ^ 63 ||| k := left_le_or
  have hlt : 2 ^ 63 ||| k < 2 ^ 64 := or_lt_two_pow (by decide) hk
  rw [packed, hshift, signed, mod_eq_of_lt hlt, if_neg (by omega)]
  omega

theorem startOf_packed (start : Nat) {k : Nat} (hk : k < 2 ^ 32) :
    startOf (start * 2 ^ 32 + k) = start := by
  rw [startOf, shiftRight_eq_div_pow]
  omega

theorem stepOf_packed (start : Nat) {k : Nat} (hk : k < 2 ^ 32) :
    stepOf (start * 2 ^ 32 + k) = k := by
  have hmask : (0xFFFFFFFF : Nat) = 2 ^ 32 - 1 := rfl
  rw [stepOf, hmask, and_two_pow_sub_one_eq_mod]
  omega

theorem RoomOk.and_mask_lt (hok : t.RoomOk) (hpos : 0 < t.size) (x : Nat) :
    x &&& t.mask < t.size := by
  obtain ⟨k, _, hk⟩ := hok.size hpos
  rw [mask, hk, and_mask]
  exact mod_lt _ (Nat.two_pow_pos k)

/-- A place that `check_place` lets pass is one of a slot that holds an entry. -/
theorem RoomOk.checkPlace_ok (hok : t.RoomOk) {at_ : Int} {p : Nat}
    (h : t.checkPlace at_ = .ok p) :
    at_ = (p : Nat) ∧ t.slotAt p < t.size ∧ LiveMark (t.marks (t.slotAt p)) := by
  unfold checkPlace at h
  split at h
  · cases h
  · next hroom =>
      split at h
      · cases h
      · split at h
        · cases h
        · split at h
          · next hneg _ hlive =>
              cases h
              have hpos := hok.size_pos (by simpa using hroom)
              exact ⟨by omega, hok.and_mask_lt hpos _, isLive_iff.1 hlive⟩
          · cases h

theorem pairs_take (hq : q < t.size) (hlive : LiveMark (t.marks q))
    (hsize : t'.size = t.size)
    (hmarks : t'.marks = update t.marks q removedMark)
    (hslots : t'.slots = update t.slots q none) :
    t.pairs.Perm ((t.marks q, t.slots q) :: t'.pairs) := by
  have hother : ∀ i, i ≠ q → t'.pairAt i = t.pairAt i := by
    intro i hi
    simp only [pairAt, hmarks, hslots, update_of_ne hi]
  obtain ⟨a, b, h1, h2⟩ := filterMap_range_update hq hother
  have hdead : isLive removedMark = false := by decide
  have hnone : t'.pairAt q = none := by simp [pairAt, hmarks, hdead]
  have hsome : t.pairAt q = some (t.marks q, t.slots q) := by
    simp [pairAt, isLive_iff.2 hlive]
  rw [pairs, h1, pairs, hsize, h2, hsome, hnone]
  simp only [append_assoc]
  exact perm_middle

theorem removedMarks_take {marks : Nat → UInt64} (hq : q < size)
    (hlive : LiveMark (marks q)) :
    (removedMarks (update marks q removedMark) size).length =
      (removedMarks marks size).length + 1 := by
  have hother : ∀ i, i ≠ q →
      (if update marks q removedMark i = removedMark then some i else none) =
        if marks i = removedMark then some i else none := by
    intro i hi
    simp only [update_of_ne hi]
  obtain ⟨a, b, h1, h2⟩ := filterMap_range_update hq hother
  rw [removedMarks, h2, removedMarks, h1, update_self, if_neg hlive.2, if_pos rfl]
  simp
  omega

theorem RoomOk.take (hok : t.RoomOk) (hq : q < t.size) (hlive : LiveMark (t.marks q))
    (hroom : t'.room = t.room) (hsize : t'.size = t.size)
    (hmarks : t'.marks = update t.marks q removedMark)
    (hslots : t'.slots = update t.slots q none)
    (hremoved : t'.removed = t.removed + 1) : t'.RoomOk := by
  have hne : removedMark ≠ emptyMark := by decide
  refine ⟨?_, ?_, ?_, ?_, fun i hi hl => ?_, fun i hl => ?_⟩
  · rw [hroom, hsize, hok.room]
  · rw [hsize]
    exact hok.size
  · rw [hsize]
    exact hok.fits
  · rw [hremoved, hok.removed, hmarks, hsize, removedMarks_take hq hlive]
  · rw [hmarks, hsize]
    rw [hmarks] at hl
    by_cases hiq : i = q
    · subst hiq
      rw [update_self] at hl
      exact absurd rfl hl.2
    · rw [update_of_ne hiq] at hl ⊢
      exact (hok.reached i (hsize ▸ hi) hl).update hne
  · rw [hslots]
    by_cases hiq : i = q
    · rw [hiq, update_self]
    · rw [hmarks, update_of_ne hiq] at hl
      rw [update_of_ne hiq]
      exact hok.zero i hl

/-- What `take_place` does at a slot that holds an entry. -/
structure Taken (t : SlotTable E) (q : Nat) (t' : SlotTable E) : Prop where
  seed : t'.seed = t.seed
  room : t'.room = t.room
  size : t'.size = t.size
  marks : t'.marks = update t.marks q removedMark
  slots : t'.slots = update t.slots q none
  count : t'.count = t.count - 1
  removed : t'.removed = t.removed + 1

/-- `take_place` and its caller, who takes the entry off the count. -/
theorem takePlace_eq {at_ : Int} {p : Nat} (h : t.checkPlace at_ = .ok p) :
    ∃ t', t.takePlace at_ = .ok (t', t.slots (t.slotAt p),
        t'.liveFrom (startOf p) (stepOf p + 1)) ∧
      Taken t (t.slotAt p) (t'.resized (t'.count - 1)) := by
  refine ⟨({ t with marks := update t.marks (t.slotAt p) removedMark
                    removed := t.removed + 1 }).write (t.slotAt p) none, ?_,
    ⟨rfl, rfl, rfl, rfl, rfl, rfl, rfl⟩⟩
  unfold SlotTable.takePlace
  rw [h]
  rfl

theorem takePlace_ok {at_ : Int} {r : SlotTable E × Option E × Int}
    (h : t.takePlace at_ = .ok r) : ∃ p, t.checkPlace at_ = .ok p := by
  cases hc : t.checkPlace at_ with
  | ok p => exact ⟨p, rfl⟩
  | error stop =>
    unfold SlotTable.takePlace at h
    rw [hc] at h
    cases h

theorem Ok.taken (hok : t.Ok) (hq : q < t.size) (hlive : LiveMark (t.marks q))
    (h : Taken t q t') : t'.Ok ∧ t.pairs.Perm ((t.marks q, t.slots q) :: t'.pairs) := by
  have hpairs := pairs_take hq hlive h.size h.marks h.slots
  have hlength := hpairs.length_eq
  rw [length_cons] at hlength
  have hcount := hok.count
  have hload := hok.load
  refine ⟨⟨hok.toRoomOk.take hq hlive h.room h.size h.marks h.slots h.removed, ?_, ?_⟩,
    hpairs⟩
  · rw [h.count]
    omega
  · rw [h.count, h.removed, h.size]
    omega

end SlotTable

end AnticCollection
