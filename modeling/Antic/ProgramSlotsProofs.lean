import Antic.ProgramSlots
import Antic.WholeProofs

/-! # The bitmap of a class holds the slots that the reached calls name

    `markReached` marks the slots of every class in one pass.  Seen from one class it marks a list
    of slots (`markReached_get`), and a list of marks leaves the set of its slots (`marks_show`).
    The two loops of `whole_at_or_below` and of the class hierarchy agree (`wholeAtOrBelow_iff`). -/

namespace AnticWhole

open AnticIr FiniteWalk GrowingBitmap List

/-! ## Classes at or below the class of a call -/

/-- A pointer to the class of global `g` may point at an object of class `c`. -/
def Below (m : IrModule) (c g : Nat) : Prop := AtOrBelow m c g ∨ IsRoot m g

theorem climbs_iff (up : Nat → Option Nat) (goal : Nat) : ∀ (n i : Nat),
    climbs up goal n (some i) = true ↔ ∃ k, k < n ∧ orbit up k i = some goal := by
  intro n
  induction n with
  | zero =>
    intro i
    refine iff_of_false Bool.false_ne_true ?_
    rintro ⟨k, hk, -⟩
    exact Nat.not_lt_zero k hk
  | succ n ih =>
    intro i
    show (decide (i = goal) || climbs up goal n (up i)) = true ↔ _
    rw [Bool.or_eq_true, decide_eq_true_eq]
    constructor
    · rintro (rfl | h)
      · exact ⟨0, Nat.succ_pos n, rfl⟩
      · cases hup : up i with
        | none =>
          rw [hup] at h
          cases n <;> cases h
        | some j =>
          rw [hup] at h
          obtain ⟨k, hk, horbit⟩ := (ih j).1 h
          refine ⟨k + 1, Nat.succ_lt_succ hk, ?_⟩
          show (up i).bind _ = _
          rw [hup]
          exact horbit
    · rintro ⟨k, hk, horbit⟩
      cases k with
      | zero => exact .inl (Option.some.inj horbit)
      | succ k =>
        obtain ⟨j, hup, hrest⟩ := Option.bind_eq_some_iff.1 horbit
        rw [hup]
        exact .inr ((ih j).2 ⟨k, Nat.lt_of_succ_lt_succ hk, hrest⟩)

theorem atOrBelow_of_orbit {m : IrModule} (hok : ClassesOk m) {g j : Nat}
    (hj : Describes m j g) : ∀ (k i : Nat),
    orbit (above m (buildSlots m)) k i = some j → AtOrBelow m i g := by
  intro k
  induction k with
  | zero =>
    intro i h
    obtain rfl := Option.some.inj h
    exact .self hj
  | succ k ih =>
    intro i h
    obtain ⟨r, hup, hrest⟩ := Option.bind_eq_some_iff.1 h
    unfold above at hup
    split at hup
    · cases hup
    · next c hc => exact .up hc (describes_of_classOf hok hup) (ih r hrest)

/-- A class at or below the class of a global needs a record of that class. -/
theorem AtOrBelow.described {m : IrModule} {i g : Nat} (h : AtOrBelow m i g) :
    ∃ j, Describes m j g := by
  induction h with
  | self h => exact ⟨_, h⟩
  | up _ _ _ ih => exact ih

theorem wholeAtOrBelow_iff {m : IrModule} (hok : ClassesOk m) (hone : OneRecord m)
    {c : Nat} (hc : c < m.classes.length) (g : Nat) :
    wholeAtOrBelow (wholeBuild m) c (wholeRecordOf (wholeBuild m) g) = true ↔
      Below m c g := by
  rw [wholeRecordOf, show classOf (wholeBuild m).m (wholeBuild m).slots g =
    classOf m (buildSlots m) g from rfl]
  cases hclass : classOf m (buildSlots m) g with
  | some j =>
    have hj := describes_of_classOf hok hclass
    show climbs (above m (buildSlots m)) j (m.classes.length + 1) (some c) = true ↔ _
    rw [climbs_iff]
    constructor
    · rintro ⟨k, -, horbit⟩
      exact .inl (atOrBelow_of_orbit hok hj k c horbit)
    · rintro (hbelow | hroot)
      · obtain ⟨k, hk⟩ := hbelow.orbit hok hone hj
        have hup : ∀ a b, above m (buildSlots m) a = some b → b < m.classes.length := by
          intro a b hab
          unfold above at hab
          split at hab
          · cases hab
          · exact (describes_of_classOf hok hab).lt
        obtain ⟨k', hk', horbit⟩ := orbit_short hup hc hk
        exact ⟨k', by omega, horbit⟩
      · exact absurd hj (hroot.2 j)
  | none =>
    have hnone : ∀ i, ¬Describes m i g := by
      intro i hi
      obtain ⟨j, hj⟩ := exists_classOf hok hi
      cases hclass.symm.trans hj
    have hbelow : Below m c g ↔ keyOf m g = some (none, rootDescriptor) := by
      constructor
      · rintro (h | h)
        · obtain ⟨j, hj⟩ := h.described
          exact absurd hj (hnone j)
        · exact h.1
      · intro h
        exact .inr ⟨h, hnone⟩
    rw [hbelow, keyOf]
    rw [show (wholeBuild m).m.globals[g]? = m.globals[g]? from rfl]
    cases m.globals[g]? with
    | none => exact iff_of_false Bool.false_ne_true (by rintro ⟨⟩)
    | some global =>
      show wholeAtOrBelow _ c (if _ then _ else _) = true ↔
        some (global.module, global.name) = some (none, rootDescriptor)
      rw [Option.some_inj, Prod.mk.injEq]
      by_cases hroot : global.module = none ∧ global.name = rootDescriptor
      · rw [if_pos hroot]
        exact iff_of_true rfl hroot
      · rw [if_neg hroot]
        exact iff_of_false Bool.false_ne_true hroot

/-! ## The marks of one bitmap -/

/-- The bitmap holds the set, and its count is one past the highest slot. -/
structure Slots.Holds (s : Slots) (set : Nat → Prop) : Prop where
  shows : Shows s.bits ((s.count + 7) / 8) set
  small : s.count < 2 ^ 32 - 7
  below : ∀ k, set k → k < s.count
  top : s.count ≠ 0 → set (s.count - 1)

theorem holds_empty : Slots.Holds {} fun _ => False where
  shows := shows_empty
  small := by decide
  below _ h := h.elim
  top h := h rfl

theorem u32_of_small {n : Nat} (h : n < 2 ^ 32) : u32 n = n := Nat.mod_eq_of_lt h

theorem Slots.Holds.mark {s : Slots} {set : Nat → Prop} {slot : Nat} (h : s.Holds set)
    (hslot : slot < 2 ^ 32 - 8) : (markSlot s slot).Holds fun k => k = slot ∨ set k := by
  unfold markSlot
  by_cases hnew : s.count ≤ slot
  · have hused : u32 (s.count + 7) = s.count + 7 := u32_of_small (by omega)
    have hcount : u32 (slot + 1) = slot + 1 := u32_of_small (by omega)
    have hbytes : slot / 8 + 1 = (slot + 1 + 7) / 8 := by omega
    rw [if_pos hnew, hused, hcount, hbytes]
    have hgrown := @Shows.grow _ _ ((slot + 1 + 7) / 8) _ h.shows (by omega) fun k hk hset => by
      have := h.below k hset
      omega
    exact {
      shows := hgrown.set
      small := by
        show slot + 1 < _
        omega
      below := by
        rintro k (rfl | hset)
        · exact Nat.lt_succ_self k
        · exact (h.below k hset).trans_le (hnew.trans (Nat.le_succ slot))
      top := fun _ => .inl rfl }
  · rw [if_neg hnew]
    exact {
      shows := h.shows.set
      small := h.small
      below := by
        rintro k (rfl | hset)
        · exact Nat.lt_of_not_le hnew
        · exact h.below k hset
      top := fun hne => .inr (h.top hne) }

theorem Slots.Holds.congr {s : Slots} {set set' : Nat → Prop} (h : s.Holds set)
    (hset : ∀ k, set k ↔ set' k) : s.Holds set' where
  shows := h.shows.congr hset
  small := h.small
  below k hk := h.below k ((hset k).2 hk)
  top hne := (hset _).1 (h.top hne)

/-- After a list of marks the bitmap holds what it held and the list. -/
theorem Slots.Holds.marks {s : Slots} {set : Nat → Prop} (h : s.Holds set) {l : List Nat}
    (hl : ∀ slot ∈ l, slot < 2 ^ 32 - 8) :
    (l.foldl markSlot s).Holds fun k => k ∈ l ∨ set k := by
  induction l generalizing s set with
  | nil => exact h.congr fun k => ⟨.inr, fun hk => hk.resolve_left (not_mem_nil)⟩
  | cons slot l ih =>
    rw [forall_mem_cons] at hl
    refine (ih (h.mark hl.1) hl.2).congr fun k => ?_
    rw [mem_cons]
    constructor
    · rintro (hk | rfl | hk)
      · exact .inl (.inr hk)
      · exact .inl (.inl rfl)
      · exact .inr hk
    · rintro ((rfl | hk) | hk)
      · exact .inr (.inl rfl)
      · exact .inl hk
      · exact .inr (.inr hk)

/-! ## The marks of one class -/

/-- The call marks the class at place `c`. -/
def marksClass (w : Whole) (m : IrModule) (c : Nat) (inst : IrInst) : Bool :=
  tableCall? inst && (m.classes[c]?).any IrClass.isAbstract &&
    wholeAtOrBelow w c (wholeRecordOf w inst.c.val)

/-- The slots that a list of instructions marks for the class. -/
def classMarks (w : Whole) (m : IrModule) (c : Nat) (insts : List IrInst) : List Nat :=
  (insts.filter (marksClass w m c)).map IrInst.field

theorem markCall_get (w : Whole) (m : IrModule) (slots : List Slots) (inst : IrInst)
    (c : Nat) : (markCall w m slots inst)[c]? =
      (slots[c]?).map fun s => (classMarks w m c [inst]).foldl markSlot s := by
  unfold markCall classMarks
  rw [filter_singleton]
  unfold marksClass
  cases htable : tableCall? inst with
  | false => exact Option.map_id'.symm
  | true =>
    rw [if_pos rfl, getElem?_mapIdx]
    refine congrArg (fun f => Option.map f slots[c]?) (funext fun s => ?_)
    cases m.classes[c]? with
    | none => rfl
    | some record =>
      dsimp only [Option.any]
      by_cases hcond : IrClass.isAbstract record = true ∧
          wholeAtOrBelow w c (wholeRecordOf w inst.c.val) = true
      · rw [if_pos hcond, hcond.1, hcond.2]
        rfl
      · rw [if_neg hcond, Bool.true_and,
          Bool.eq_false_iff.2 fun h => hcond (Bool.and_eq_true_iff.1 h)]
        rfl

theorem classMarks_append (w : Whole) (m : IrModule) (c : Nat) (l l' : List IrInst) :
    classMarks w m c (l ++ l') = classMarks w m c l ++ classMarks w m c l' := by
  rw [classMarks, filter_append, map_append]
  rfl

theorem markAll_get (w : Whole) (m : IrModule) (insts : List IrInst) (slots : List Slots)
    (c : Nat) : (insts.foldl (markCall w m) slots)[c]? =
      (slots[c]?).map fun s => (classMarks w m c insts).foldl markSlot s := by
  induction insts generalizing slots with
  | nil => exact Option.map_id'.symm
  | cons inst insts ih =>
    rw [foldl_cons, ih, markCall_get, Option.map_map,
      show inst :: insts = [inst] ++ insts from rfl, classMarks_append]
    refine congrArg (fun f => Option.map f slots[c]?) (funext fun s => ?_)
    exact (foldl_append ..).symm

/-- The instructions of the reached functions. -/
def reachedInsts (m : IrModule) (reached : Nat → Bool) : List IrInst :=
  m.functions.zipIdx.flatMap fun (f, i) =>
    if reached i then f.blocks.flatMap IrBlock.insts else []

theorem markReached_eq (w : Whole) (m : IrModule) (reached : Nat → Bool) : markReached w m reached =
      (reachedInsts m reached).foldl (markCall w m) (List.replicate m.classes.length {}) := by
  unfold markReached reachedInsts
  generalize List.replicate m.classes.length ({} : Slots) = slots
  induction m.functions.zipIdx generalizing slots with
  | nil => rfl
  | cons fi rest ih =>
    rw [foldl_cons, flatMap_cons, foldl_append, ih]
    refine congrArg (fun s => List.foldl (markCall w m) s _) ?_
    obtain ⟨f, i⟩ := fi
    dsimp only
    by_cases hreached : reached i = true
    · rw [if_pos hreached, if_pos hreached]
      rfl
    · rw [if_neg hreached, if_neg hreached]
      rfl

theorem markReached_get (w : Whole) (m : IrModule) (reached : Nat → Bool) {c : Nat}
    (hc : c < m.classes.length) :
    (markReached w m reached)[c]? =
      some ((classMarks w m c (reachedInsts m reached)).foldl markSlot {}) := by
  rw [markReached_eq, markAll_get, getElem?_replicate, if_pos hc]
  rfl

end AnticWhole
