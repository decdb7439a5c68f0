import Antic.PluginChecks
import Antic.ProgramSlotsProofs

/-! # A library that loads carries what the program calls

    The compiler writes the slots of a class from the calls, the loader walks the
    same bitmap from the end of the library's entries on.  `plugin_carries` joins
    the two, and the tables with stubs over them. -/

namespace AnticPlugin

open AnticIr AnticWhole GrowingBitmap List Option

/-! ## What the program writes -/

/-- A reached function calls slot `k` through the table of a class that class `c` is at or below. -/
def CalledAt (m : IrModule) (reached : Nat → Bool) (c k : Nat) : Prop :=
  ∃ i f inst, reached i = true ∧ m.functions[i]? = some f ∧
    inst ∈ f.blocks.flatMap IrBlock.insts ∧ inst.op = .call ∧ inst.c.kind = .global ∧
    inst.field = k ∧ Below m c inst.c.val

/-- The record of the table tells the slots that are called of class `c`. -/
structure Recorded (m : IrModule) (reached : Nat → Bool) (c : Nat) (record : IrClass)
    (r : SlotRecord) : Prop where
  descriptor : r.descriptor = record.descriptor
  top : 0 < r.slotCount ∧ CalledAt m reached c (r.slotCount - 1)
  below : ∀ k, CalledAt m reached c k → k < r.slotCount
  shows : Shows r.bits ((r.slotCount + 7) / 8) (CalledAt m reached c)

section Written

variable {m : IrModule} (hok : ClassesOk m) (hone : OneRecord m) {reached : Nat → Bool}

theorem mem_reachedInsts {inst : IrInst} : inst ∈ reachedInsts m reached ↔
    ∃ i f, reached i = true ∧ m.functions[i]? = some f ∧
      inst ∈ f.blocks.flatMap IrBlock.insts := by
  unfold reachedInsts
  rw [mem_flatMap]
  constructor
  · rintro ⟨⟨f, i⟩, hmem, hinst⟩
    dsimp only at hinst
    by_cases hreached : reached i = true
    · rw [if_pos hreached] at hinst
      exact ⟨i, f, hreached, mem_zipIdx_iff_getElem?.1 hmem, hinst⟩
    · rw [if_neg hreached] at hinst
      cases hinst
  · rintro ⟨i, f, hreached, hf, hinst⟩
    refine ⟨(f, i), mem_zipIdx_iff_getElem?.2 hf, ?_⟩
    dsimp only
    rw [if_pos hreached]
    exact hinst

variable {record : IrClass}

include hok hone in
theorem mem_classMarks {c k : Nat} (hc : m.classes[c]? = some record)
    (habstract : IrClass.isAbstract record = true) :
    k ∈ classMarks (wholeBuild m) m c (reachedInsts m reached) ↔ CalledAt m reached c k := by
  have hlt : c < m.classes.length := (List.getElem?_eq_some_iff.1 hc).1
  have hmarks (inst : IrInst) : marksClass (wholeBuild m) m c inst = true ↔
      (inst.op = .call ∧ inst.c.kind = .global) ∧ Below m c inst.c.val := by
    unfold marksClass tableCall?
    rw [hc, Bool.and_eq_true, Bool.and_eq_true, decide_eq_true_eq, any_some, habstract,
      wholeAtOrBelow_iff hok hone hlt]
    exact and_congr_left fun _ => and_iff_left rfl
  unfold classMarks
  rw [List.mem_map]
  constructor
  · rintro ⟨inst, hinst, rfl⟩
    obtain ⟨hmem, hmark⟩ := mem_filter.1 hinst
    obtain ⟨i, f, hreached, hf, hin⟩ := mem_reachedInsts.1 hmem
    obtain ⟨⟨hop, hkind⟩, hbelow⟩ := (hmarks inst).1 hmark
    exact ⟨i, f, inst, hreached, hf, hin, hop, hkind, rfl, hbelow⟩
  · rintro ⟨i, f, inst, hreached, hf, hin, hop, hkind, rfl, hbelow⟩
    exact ⟨inst, mem_filter.2 ⟨mem_reachedInsts.2 ⟨i, f, hreached, hf, hin⟩,
      (hmarks inst).2 ⟨⟨hop, hkind⟩, hbelow⟩⟩, rfl⟩

theorem classMarks_concrete {c : Nat} (hc : m.classes[c]? = some record)
    (habstract : IrClass.isAbstract record = false) (insts : List IrInst) :
    classMarks (wholeBuild m) m c insts = [] := by
  unfold classMarks
  rw [map_eq_nil_iff, filter_eq_nil_iff]
  intro inst _
  unfold marksClass
  rw [hc, any_some, habstract, Bool.and_false, Bool.false_and]
  exact Bool.false_ne_true

variable (hslots : ∀ c k, CalledAt m reached c k → k < 2 ^ 32 - 8)

include hok hone hslots in
theorem markReached_holds {c : Nat} (hc : m.classes[c]? = some record) :
    ∃ s, (markReached (wholeBuild m) m reached)[c]? = some s ∧
      s.Holds fun k => IrClass.isAbstract record = true ∧ CalledAt m reached c k := by
  refine ⟨_, markReached_get _ _ _ (List.getElem?_eq_some_iff.1 hc).1, ?_⟩
  cases habstract : IrClass.isAbstract record with
  | false =>
    rw [classMarks_concrete hc habstract]
    exact holds_empty.congr fun k => ⟨False.elim, fun h => Bool.false_ne_true h.1⟩
  | true =>
    refine (holds_empty.marks fun slot hslot => ?_).congr fun k => ?_
    · exact hslots c slot ((mem_classMarks hok hone hc habstract).1 hslot)
    · rw [mem_classMarks hok hone hc habstract]
      exact ⟨fun h => ⟨rfl, h.resolve_right id⟩, fun h => .inl h.2⟩

/-- A record of the table comes from a class whose bitmap is not empty. -/
theorem mem_writeSlotTable {slots : List Slots} {every : Bool} {r : SlotRecord} :
    r ∈ (writeSlotTable m slots every).interfaces ↔
      ∃ (c : Nat) (record : IrClass) (s : Slots), m.classes[c]? = some record ∧
        slots[c]? = some s ∧ s.count ≠ 0 ∧
        r = ⟨record.descriptor, s.count, s.bits.take (u32 (s.count + 7) / 8)⟩ := by
  unfold writeSlotTable
  rw [mem_filterMap]
  constructor
  · rintro ⟨⟨record, s⟩, hmem, hr⟩
    dsimp only at hr
    by_cases hzero : s.count = 0
    · rw [if_pos hzero] at hr
      cases hr
    · rw [if_neg hzero] at hr
      obtain ⟨c, hget⟩ := mem_iff_getElem?.1 hmem
      obtain ⟨hrecord, hs⟩ := getElem?_zip_eq_some.1 hget
      exact ⟨c, record, s, hrecord, hs, hzero, (some.inj hr).symm⟩
  · rintro ⟨c, record, s, hrecord, hs, hzero, rfl⟩
    refine ⟨(record, s), mem_iff_getElem?.2 ⟨c, ?_⟩, ?_⟩
    · exact getElem?_zip_eq_some.2 ⟨hrecord, hs⟩
    · dsimp only
      rw [if_neg hzero]

theorem recorded_of_holds {c : Nat} {s : Slots}
    (hs : s.Holds fun k => IrClass.isAbstract record = true ∧ CalledAt m reached c k)
    (hzero : s.count ≠ 0) : Recorded m reached c record
      ⟨record.descriptor, s.count, s.bits.take (u32 (s.count + 7) / 8)⟩ := by
  have habstract := (hs.top hzero).1
  have hbytes : u32 (s.count + 7) = s.count + 7 := u32_of_small (by have := hs.small; omega)
  exact {
    descriptor := rfl
    top := ⟨Nat.pos_of_ne_zero hzero, (hs.top hzero).2⟩
    below := fun k hk => hs.below k ⟨habstract, hk⟩
    shows := by
      rw [hbytes, take_of_length_le (Nat.le_of_eq hs.shows.length)]
      exact hs.shows.congr fun k => ⟨fun h => h.2, fun h => ⟨habstract, h⟩⟩ }

variable {every force : Bool} {t : SlotTable}

theorem wholeWriteSlots_eq {w : Whole} (ht : wholeWriteSlots w m reached every force = some t) :
    t = writeSlotTable m (markReached w m reached) every := by
  unfold wholeWriteSlots at ht
  dsimp only at ht
  split at ht
  · exact (some.inj ht).symm
  · cases ht

theorem wholeWriteSlots_forced (w : Whole) (m : IrModule) (reached : Nat → Bool) (every : Bool) :
    wholeWriteSlots w m reached every true =
      some (writeSlotTable m (markReached w m reached) every) :=
  if_pos (Bool.or_true _)

include hok hone hslots in
theorem recorded_of_mem (ht : wholeWriteSlots (wholeBuild m) m reached every force = some t)
    {r : SlotRecord} (hr : r ∈ t.interfaces) :
    ∃ c record, m.classes[c]? = some record ∧ IrClass.isAbstract record = true ∧
      Recorded m reached c record r := by
  rw [wholeWriteSlots_eq ht] at hr
  obtain ⟨c, record, s, hc, hs, hzero, rfl⟩ := mem_writeSlotTable.1 hr
  obtain ⟨s', hs', hholds⟩ := markReached_holds hok hone hslots hc
  obtain rfl := some.inj (hs.symm.trans hs')
  exact ⟨c, record, hc, (hholds.top hzero).1, recorded_of_holds hholds hzero⟩

include hok hone hslots in
theorem mem_of_called {c k : Nat} (hc : m.classes[c]? = some record)
    (habstract : IrClass.isAbstract record = true) (hk : CalledAt m reached c k)
    (every force : Bool) :
    ∃ t r, wholeWriteSlots (wholeBuild m) m reached every force = some t ∧
      r ∈ t.interfaces ∧ Recorded m reached c record r := by
  obtain ⟨s, hs, hholds⟩ := markReached_holds hok hone hslots hc
  have hpos : 0 < s.count := (Nat.zero_le k).trans_lt (hholds.below k ⟨habstract, hk⟩)
  have hany : (markReached (wholeBuild m) m reached).any (fun s => decide (0 < s.count)) = true :=
    List.any_eq_true.2 ⟨s, mem_of_getElem? hs, decide_eq_true hpos⟩
  refine ⟨writeSlotTable m (markReached (wholeBuild m) m reached) every, _, ?_,
    mem_writeSlotTable.2 ⟨c, record, s, hc, hs, hpos.ne', rfl⟩,
    recorded_of_holds hholds hpos.ne'⟩
  unfold wholeWriteSlots
  dsimp only
  rw [hany, Bool.true_or, if_pos rfl]

end Written

/-! ## What the loader accepts -/

theorem missingSlot_none {s : AntiSlots} : ∀ {turns : Nat} {start : Int},
    missingSlot s turns start = none → ∀ k : Int, start ≤ k → k < start + turns →
      k < s.slotCount → bitAt s.bits k.toNat = some false := by
  intro turns
  induction turns with
  | zero =>
    intro start _ k hstart hk
    exact absurd hk (by simpa using hstart)
  | succ turns ih =>
    intro start h k hstart hk hcount
    rw [missingSlot, if_pos (hstart.trans_lt hcount)] at h
    by_cases hbit : bitAt s.bits start.toNat = some false
    · rw [if_pos hbit] at h
      rcases hstart.eq_or_lt with rfl | hlt
      · exact hbit
      · exact ih h k hlt (by push_cast at hk; omega) hcount
    · rw [if_neg hbit] at h
      cases h

theorem passes {p : Prop} [Decidable p] {r : Refusal} {x : Except Refusal Unit}
    (h : (if p then .error r else x) = .ok ()) : ¬p ∧ x = .ok () := by
  by_cases hp : p
  · rw [if_pos hp] at h
    cases h
  · rw [if_neg hp] at h
    exact ⟨hp, h⟩

/-- What `checked` accepts has an entry, and calls no slot past it. -/
theorem checked_ok {t : AntiSlotTable} {e : Provides} {d : Descriptor}
    (hd : e.descriptor = some d) (h : checked t e = .ok ()) :
    1 ≤ e.chainLength ∧ ∀ s, pluginSlots t d.address = some s →
      ∀ k : Nat, e.chainLength ≤ k → (k : Int) < s.slotCount → bitAt s.bits k = some false := by
  unfold checked at h
  rw [hd] at h
  dsimp only at h
  cases hv : d.versions with
  | none =>
    rw [hv] at h
    cases h
  | some v =>
    rw [hv] at h
    obtain ⟨hlength, h⟩ := passes h
    obtain ⟨-, h⟩ := passes h
    obtain ⟨-, h⟩ := passes h
    obtain ⟨-, h⟩ := passes h
    refine ⟨Int.not_lt.1 fun hlt => hlength (.inr hlt), ?_⟩
    intro s hs k hk hcount
    rw [hs] at h
    dsimp only at h
    cases hnone : missingSlot s (s.slotCount - e.chainLength).toNat e.chainLength with
    | none =>
      have hbit := missingSlot_none hnone k hk (by omega) hcount
      rwa [Int.toNat_natCast] at hbit
    | some slot =>
      rw [hnone] at h
      cases h

/-- The loader finds the record of the class by the address of its descriptor. -/
theorem pluginSlots_linked {m : IrModule} {t : SlotTable} {a : Address} {r : SlotRecord}
    (hr : r ∈ t.interfaces) (ha : keyOf m r.descriptor = some a) :
    ∃ r' ∈ t.interfaces, keyOf m r'.descriptor = some a ∧
      pluginSlots (linkSlots m t) a = some ⟨a, r'.slotCount, r'.bits⟩ := by
  have hmem {s : AntiSlots} (hs : s ∈ (linkSlots m t).interfaces) :
      ∃ r' ∈ t.interfaces, keyOf m r'.descriptor = some s.descriptor ∧
        s = ⟨s.descriptor, r'.slotCount, r'.bits⟩ := by
    obtain ⟨r', hr', hmap⟩ := mem_filterMap.1 hs
    obtain ⟨g, hg, rfl⟩ := map_eq_some_iff.1 hmap
    exact ⟨r', hr', by rw [keyOf, hg]; rfl, rfl⟩
  obtain ⟨g, hg, rfl⟩ := map_eq_some_iff.1 ha
  have hlinked : (⟨(g.module, g.name), r.slotCount, r.bits⟩ : AntiSlots) ∈
      (linkSlots m t).interfaces := mem_filterMap.2 ⟨r, hr, by rw [hg]; rfl⟩
  cases hfind : pluginSlots (linkSlots m t) (g.module, g.name) with
  | none =>
    have := find?_eq_none.1 hfind _ hlinked
    exact absurd (decide_eq_true rfl) this
  | some s =>
    have haddress : s.descriptor = (g.module, g.name) := by
      simpa using find?_some hfind
    obtain ⟨r', hr', hkey, hs⟩ := hmem (mem_of_find?_eq_some hfind)
    refine ⟨r', hr', haddress ▸ hkey, ?_⟩
    rw [hs, haddress]

/-! ## The tables with stubs -/

section Stubs

variable {F : Type} {e : Provides} {d : Descriptor} (own : Nat → F)

/-- The entry of a table at `k`: the library's below its length, else the stub. -/
def Filled (e : Provides) (d : Descriptor) (own : Nat → F)
    (table : Nat → Option (Entry F)) : Prop :=
  ∀ k : Nat, ((k : Int) < e.chainLength → table k = some (.own (own k))) ∧
    (e.chainLength ≤ k → (k : Int) ≤ d.functionCount → table k = some .stub)

/-- A table that the loader keeps: the stubs stand, and the library's entries where it is filled. -/
structure Stubbed.Good (e : Provides) (d : Descriptor) (own : Nat → F) (s : Stubbed F) :
    Prop where
  length : s.table.length = (d.functionCount + 1).toNat
  room : e.chainLength ≤ d.functionCount
  own : s.filled = true → ∀ k : Nat, (k : Int) < e.chainLength → s.table[k]? = some (.own (own k))
  stubs : ∀ k : Nat, e.chainLength ≤ k → (k : Int) ≤ d.functionCount → s.table[k]? = some .stub

theorem stubsOf_good (hroom : e.chainLength - 1 < d.functionCount) :
    (stubsOf F e d).Good e d own where
  length := by rw [stubsOf, length_map, length_range]
  room := by omega
  own h := nomatch h
  stubs k hk hlast := by
    have hrange : (List.range (d.functionCount + 1).toNat)[k]? = some k := getElem?_range (by omega)
    show ((List.range _).map _)[k]? = _
    rw [getElem?_map, hrange]
    exact congrArg some (if_pos (by omega))

theorem Stubbed.Good.fill {s : Stubbed F} (h : s.Good e d own) :
    (fillStubs e own s).Good e d own ∧ (fillStubs e own s).filled = true := by
  unfold fillStubs
  by_cases hfilled : s.filled = true
  · rw [if_pos hfilled]
    exact ⟨h, hfilled⟩
  · rw [if_neg hfilled]
    have hroom := h.room
    exact ⟨{
      length := by
        rw [length_mapIdx, h.length]
      room := h.room
      own := by
        intro _ k hk
        have hlt : k < s.table.length := by
          rw [h.length]
          omega
        rw [getElem?_mapIdx, getElem?_eq_getElem hlt]
        exact congrArg some (if_pos hk)
      stubs := by
        intro k hk hlast
        rw [getElem?_mapIdx, h.stubs k hk hlast]
        exact congrArg some (if_neg (Int.not_lt.2 hk)) }, rfl⟩

theorem Stubbed.Good.filled {s : Stubbed F} (h : s.Good e d own) (hfilled : s.filled = true) :
    Filled e d own fun k => s.table[k]? :=
  fun k => ⟨h.own hfilled k, h.stubs k⟩

theorem builtTable_stubs : ∀ (n : Nat) {s : Stubbed F}, s.Good e d own →
    Filled e d own (builtTable e own n (some s)) := by
  intro n
  induction n with
  | zero =>
    intro s h
    exact (h.fill own).1.filled own (h.fill own).2
  | succ n ih =>
    intro s h
    exact ih (h.fill own).1

theorem builtTable_own : ∀ n : Nat,
    builtTable e own n none = fun k => some (Entry.own (own k)) := by
  intro n
  induction n with
  | zero => rfl
  | succ n ih => exact ih

theorem builtTable_filled {t : AntiSlotTable} (hreflect : t.reflect ≠ 0)
    (hoffset : e.offset ≠ 0) (n : Nat) :
    Filled e d own (builtTable e own n (claimStubs F t e d)) := by
  unfold claimStubs needsStubs
  by_cases hroom : e.chainLength - 1 < d.functionCount
  · rw [if_pos (decide_eq_true ⟨hreflect, hoffset, hroom⟩)]
    exact builtTable_stubs own n (stubsOf_good own hroom)
  · rw [if_neg fun h => hroom (of_decide_eq_true h).2.2, builtTable_own]
    exact fun k => ⟨fun _ => rfl, fun hk hlast => absurd hroom (by omega)⟩

end Stubs

/-! ## Loading a library -/

/-- **A PLUGIN CARRIES WHAT THE PROGRAM CALLS**: the table holds for each abstract
    class that a call reaches the bitmap of the slots called, all its bytes defined.
    What the loader accepts for the class has every slot called, and where reflection
    may call any slot of a sub-object the stubs fill the rest of its table. -/
theorem plugin_carries (m : IrModule) (hok : ClassesOk m) (hone : OneRecord m)
    (reached : Nat → Bool) (every force : Bool)
    (hslots : ∀ c k, CalledAt m reached c k → k < 2 ^ 32 - 8) :
    (∀ c record k, m.classes[c]? = some record → IrClass.isAbstract record = true →
      CalledAt m reached c k →
      ∃ t r, wholeWriteSlots (wholeBuild m) m reached every force = some t ∧
        r ∈ t.interfaces ∧ Recorded m reached c record r) ∧
    (∀ t, wholeWriteSlots (wholeBuild m) m reached every force = some t →
      (∀ r ∈ t.interfaces, ∃ c record, m.classes[c]? = some record ∧
        IrClass.isAbstract record = true ∧ Recorded m reached c record r) ∧
      ∀ c record d e, m.classes[c]? = some record → IrClass.isAbstract record = true →
        keyOf m record.descriptor = some d.address → e.descriptor = some d →
        checked (linkSlots m t) e = .ok () →
        (∀ k : Nat, CalledAt m reached c k → (k : Int) ≤ e.chainLength - 1) ∧
        ((linkSlots m t).reflect ≠ 0 → e.offset ≠ 0 → ∀ (F : Type) (own : Nat → F) (n : Nat),
            Filled e d own (builtTable e own n (claimStubs F (linkSlots m t) e d)))) := by
  refine ⟨fun c record k hc habstract hk => ?_, fun t ht => ⟨fun r hr => ?_, ?_⟩⟩
  · exact mem_of_called hok hone hslots hc habstract hk every force
  · exact recorded_of_mem hok hone hslots ht hr
  · intro c record d e hc habstract hkey hd hchecked
    obtain ⟨hlength, hbits⟩ := checked_ok hd hchecked
    refine ⟨fun k hk => ?_, fun hreflect hoffset F own n =>
      builtTable_filled own hreflect hoffset n⟩
    obtain ⟨t', r, ht', hr, hrecorded⟩ := mem_of_called hok hone hslots hc habstract hk every force
    obtain rfl := some.inj (ht.symm.trans ht')
    obtain ⟨r', hr', hkey', hfound⟩ := pluginSlots_linked hr (hrecorded.descriptor ▸ hkey)
    obtain ⟨c', record', hc', -, hrecorded'⟩ := recorded_of_mem hok hone hslots ht hr'
    -- the record that the loader finds describes the class itself
    have hsame : c = c' := hone.unique ⟨record, _, hc, hkey, hkey⟩
      ⟨record', _, hc', hrecorded'.descriptor ▸ hkey', hkey⟩
    subst hsame
    by_contra hlt
    have hpast : e.chainLength ≤ (k : Int) := by omega
    have hcount := hrecorded'.below k hk
    have hzero := hbits _ hfound k hpast (Int.ofNat_lt.2 hcount)
    obtain ⟨b, hb, hiff⟩ := hrecorded'.shows.bit k (by omega)
    cases (some.inj (hb.symm.trans hzero)).symm.trans (hiff.2 hk)

/-- A library whose interface has one slot past the root's. -/
def oneEntry (address : Address) : Provides where
  descriptor := some ⟨address, 8, 0, 3, some ⟨[5, 6, 7], 3, none⟩⟩
  offset := 8
  chain := [5, 6]
  chainLength := 2
  fields := 0
  size := 8
  built := []

theorem calledAt_shapes {c k : Nat} (h : CalledAt shapes (fun _ => true) c k) : k = 1 := by
  obtain ⟨i, f, inst, -, hf, hinst, hop, -, rfl, -⟩ := h
  match i with
  | 0 =>
    obtain rfl := some.inj hf
    obtain rfl := mem_singleton.1 hinst
    rfl
  | 1 =>
    obtain rfl := some.inj hf
    cases hinst
  | i + 2 => cases hf

/-- In `shapes` the library with one entry past the root's is accepted. -/
theorem plugin_carries_shapes :
    ∃ t, wholeWriteSlots (wholeBuild shapes) shapes (fun _ => true) true true = some t ∧
      checked (linkSlots shapes t) (oneEntry (some [115], [83])) = .ok () ∧
      builtTable (oneEntry (some [115], [83])) id 4
        (claimStubs Nat (linkSlots shapes t) (oneEntry (some [115], [83]))
          ⟨(some [115], [83]), 8, 0, 3, some ⟨[5, 6, 7], 3, none⟩⟩) 2 = some .stub := by
  have hcarries := plugin_carries shapes (by decide) (by decide) (fun _ => true) true true
    fun c k hk => by
      rw [calledAt_shapes hk]
      decide
  have hself : Describes shapes 0 0 := ⟨_, (some [115], [83]), rfl, rfl, rfl⟩
  obtain ⟨t, r, ht, -, -⟩ := hcarries.1 0 _ 1 rfl rfl
    ⟨0, _, tableCall, rfl, rfl, mem_singleton.2 rfl, rfl, rfl, rfl, .inl (.self hself)⟩
  have hchecked : checked (linkSlots shapes t) (oneEntry (some [115], [83])) = .ok () := by
    rw [wholeWriteSlots_eq ht]
    decide +kernel
  have hreflect : (linkSlots shapes t).reflect ≠ 0 := by
    rw [wholeWriteSlots_eq ht]
    decide
  refine ⟨t, ht, hchecked, ?_⟩
  have hfilled := (((hcarries.2 t ht).2 0 _ _ _ rfl rfl rfl rfl hchecked).2 hreflect (by decide)
    Nat id 4 2).2
  exact hfilled (by decide) (by decide)

/-- `shapes` with a call at the last slot that a `uint32_t` names. -/
def farShapes : IrModule :=
  { shapes with
    functions := [plainFunction [97] [{ tableCall with field := 2 ^ 32 - 1 }],
      plainFunction [98] []] }

/-- The class `S` twice, with a call through the root at slot 1 and one through `S` at slot 2. -/
def twiceDescribed : IrModule :=
  { shapes with
    functions := [plainFunction [97]
      [{ tableCall with c := ⟨.global, .ptr, 1⟩ }, { tableCall with field := 2 }]],
    classes := [
      { module := [115], name := [83], flags := 1, descriptor := 0, base := 1, agg := 0 },
      { module := [115], name := [83], flags := 1, descriptor := 0, base := 1, agg := 0 }] }

/-- The count of `farShapes` wraps to 0, so no bitmap is written.  In
    `twiceDescribed` the loader finds the bitmap of the first record, which lacks the
    slot that the second has.  Both times a library is accepted that lacks a slot. -/
theorem plugin_lacks_slot : (ClassesOk farShapes ∧ OneRecord farShapes ∧
      CalledAt farShapes (fun _ => true) 0 (2 ^ 32 - 1) ∧
      ∃ t, wholeWriteSlots (wholeBuild farShapes) farShapes (fun _ => true) true true = some t ∧
        t.interfaces = [] ∧
        checked (linkSlots farShapes t) (oneEntry (some [115], [83])) = .ok ()) ∧
    (ClassesOk twiceDescribed ∧ CalledAt twiceDescribed (fun _ => true) 0 2 ∧
      ∃ t, wholeWriteSlots (wholeBuild twiceDescribed) twiceDescribed (fun _ => true) true true
          = some t ∧
        checked (linkSlots twiceDescribed t) (oneEntry (some [115], [83])) = .ok ()) := by
  constructor
  · have hself : Describes farShapes 0 0 := ⟨_, (some [115], [83]), rfl, rfl, rfl⟩
    have hmarks : ∀ c < 2, classMarks (wholeBuild farShapes) farShapes c
        (reachedInsts farShapes fun _ => true) ∈ [[], [2 ^ 32 - 1]] := by decide +kernel
    have hwraps : ∀ l ∈ [[], [2 ^ 32 - 1]], (l.foldl markSlot {}).count = 0 := by
      intro l hl
      rcases mem_pair.1 hl with rfl | rfl
      · rfl
      · rfl
    have htable : (writeSlotTable farShapes
        (markReached (wholeBuild farShapes) farShapes fun _ => true) true).interfaces = [] := by
      rw [eq_nil_iff_forall_not_mem]
      intro r hr
      obtain ⟨c, record, s, hc, hs, hzero, -⟩ := mem_writeSlotTable.1 hr
      have hlt : c < 2 := (List.getElem?_eq_some_iff.1 hc).1
      rw [markReached_get _ _ _ hlt] at hs
      have hempty := hwraps _ (hmarks c hlt)
      rw [some.inj hs] at hempty
      exact hzero hempty
    refine ⟨by decide, by decide, ?_, _, wholeWriteSlots_forced .., htable, ?_⟩
    · exact ⟨0, _, _, rfl, rfl, mem_singleton.2 rfl, rfl, rfl, rfl, .inl (.self hself)⟩
    · decide
  · have hself : Describes twiceDescribed 0 0 := ⟨_, (some [115], [83]), rfl, rfl, rfl⟩
    refine ⟨by decide, ?_, _, wholeWriteSlots_forced .., by decide +kernel⟩
    exact ⟨0, _, _, rfl, rfl, mem_cons_of_mem _ (mem_singleton.2 rfl), rfl, rfl, rfl,
      .inl (.self hself)⟩

end AnticPlugin
