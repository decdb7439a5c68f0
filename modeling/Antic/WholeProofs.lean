import Antic.WholeClasses
import Antic.IrVerifyClasses

/-! # Devirtualisation is sound for a closed program

    What a call through a table may reach is stated over the records alone:  `Holds m t i` says that
    an object, or a sub-object of an interface, that a pointer to class `i` addresses carries table
    `t`, and `AtOrBelow m i g` that class `i` lies at or below the class global `g` names.
    `whole_entries` lists the entry of every such table (`mem_wholeEntries`), so a call that
    `devirtualise` rewrites calls what the table of the object holds. -/

namespace AnticWhole

open AnticIr FiniteWalk List

/-! ## The map of the records -/

variable {m : IrModule} {i g : Nat}

/-- The records one after another, while free slots are left. -/
theorem slotsOk_foldl (hok : ClassesOk m) {size : Nat} :
    ∀ (cs : List (IrClass × Nat)) (slots : List (Option Slot))
      (entered : Nat → Option CName × CName → Prop),
      (∀ ci ∈ cs, ci.1 ∈ m.classes) →
      SlotsOk size entered slots →
      ((Finset.range size).filter (fun i => (places slots i).isSome)).card + cs.length < size →
      SlotsOk size (fun i k => entered i k ∨ ∃ c, (c, i) ∈ cs ∧ keyOf m c.descriptor = some k)
        (cs.foldl (putClass m) slots) ∧
      ∃ q, q < size ∧ places (cs.foldl (putClass m) slots) q = none := by
  intro cs
  induction cs with
  | nil =>
    intro slots entered _ h hcard
    rw [length_nil, Nat.add_zero] at hcard
    refine ⟨?_, exists_empty (places slots) size hcard⟩
    have heq : (fun i k => entered i k ∨ ∃ c, (c, i) ∈ ([] : List (IrClass × Nat)) ∧
          keyOf m c.descriptor = some k) = entered := by
      funext i k
      simp
    rw [heq]
    exact h
  | cons ci cs ih =>
    intro slots entered hmem h hcard
    obtain ⟨c, i⟩ := ci
    have hc : c ∈ m.classes := hmem (c, i) (mem_cons_self ..)
    have hlt := hok.descriptor_lt hc
    have hg := getElem?_eq_getElem hlt
    generalize m.globals[c.descriptor] = d at hg
    have hput : putClass m slots (c, i) = slots.set (slotOf slots d.module d.name)
            (some ⟨d.module, d.name, i⟩) := by
      simp [putClass, hg]
    have hkey : keyOf m c.descriptor = some (d.module, d.name) := by
      simp [keyOf, hg]
    rw [length_cons] at hcard
    obtain ⟨q, hq, hempty⟩ := exists_empty (places slots) size (by omega)
    have hnext := h.put hq hempty d.module d.name i
    have hplaces : places (putClass m slots (c, i))
        = Function.update (places slots) (slotOf slots d.module d.name)
            (some ⟨d.module, d.name, i⟩) := by
      rw [hput]
      apply places_set
      have hsize := h.length
      subst hsize
      obtain ⟨e, he⟩ := slotOf_spec hq hempty d.module d.name
      exact he.lt (home_lt (by omega) _ _)
    have hcard' : ((Finset.range size).filter
        (fun j => (places (putClass m slots (c, i)) j).isSome)).card + cs.length < size := by
      rw [hplaces]
      have := card_update_le (places slots) size
        (slotOf slots d.module d.name) (some ⟨d.module, d.name, i⟩)
      omega
    rw [← hput] at hnext
    obtain ⟨hfin, hfree⟩ := ih (putClass m slots (c, i)) _
      (fun ci hci => hmem ci (mem_cons_of_mem _ hci)) hnext hcard'
    refine ⟨?_, hfree⟩
    have heq : (fun j k => (entered j k ∨ (j = i ∧ k = (d.module, d.name))) ∨
        ∃ c', (c', j) ∈ cs ∧ keyOf m c'.descriptor = some k)
        = (fun j k => entered j k ∨
        ∃ c', (c', j) ∈ (c, i) :: cs ∧ keyOf m c'.descriptor = some k) := by
      funext j k
      apply propext
      constructor
      · rintro ((he | ⟨rfl, rfl⟩) | ⟨c', hc', hk⟩)
        · exact Or.inl he
        · exact Or.inr ⟨c, mem_cons_self .., hkey⟩
        · exact Or.inr ⟨c', mem_cons_of_mem _ hc', hk⟩
      · rintro (he | ⟨c', hc', hk⟩)
        · exact Or.inl (Or.inl he)
        · rcases mem_cons.mp hc' with hhd | htl
          · obtain ⟨rfl, rfl⟩ := Prod.mk.inj hhd
            rw [hkey] at hk
            exact Or.inl (Or.inr ⟨rfl, (Option.some.inj hk).symm⟩)
          · exact Or.inr ⟨c', htl, hk⟩
    rw [← heq]
    exact hfin

theorem mem_zipIdx_classes {c : IrClass} : (c, i) ∈ m.classes.zipIdx ↔ m.classes[i]? = some c :=
  mem_zipIdx_iff_getElem?

theorem buildSlots_ok (hok : ClassesOk m) : SlotsOk (slotCount m.classes.length)
      (fun i k => ∃ c, m.classes[i]? = some c ∧ keyOf m c.descriptor = some k) (buildSlots m) ∧
    ∃ q, q < slotCount m.classes.length ∧ places (buildSlots m) q = none := by
  have hempty : ∀ i, places (List.replicate (slotCount m.classes.length) (none : Option Slot)) i
        = none := by
    intro i
    simp [places, getElem?_replicate]
    split <;> rfl
  have hinit : SlotsOk (slotCount m.classes.length) (fun _ _ => False)
      (List.replicate (slotCount m.classes.length) none) := by
    refine ⟨by simp, ?_, ?_, fun _ _ h => h.elim⟩
    · intro p s hs
      rw [hempty] at hs
      cases hs
    · intro p s hs
      rw [hempty] at hs
      cases hs
  have hcard : ((Finset.range (slotCount m.classes.length)).filter (fun i =>
      (places (List.replicate (slotCount m.classes.length) (none : Option Slot)) i).isSome)).card
        + m.classes.zipIdx.length < slotCount m.classes.length := by
    have hgt := slotCount_gt m.classes.length
    simp [hempty]
    omega
  have hmem : ∀ ci ∈ m.classes.zipIdx, ci.1 ∈ m.classes := by
    rintro ⟨c, i⟩ hci
    exact mem_of_getElem? (mem_zipIdx_classes.mp hci)
  have hbuilt := slotsOk_foldl hok m.classes.zipIdx _ _ hmem hinit hcard
  simpa [buildSlots, mem_zipIdx_classes] using hbuilt

theorem describes_of_classOf (hok : ClassesOk m)
    (h : classOf m (buildSlots m) g = some i) : Describes m i g := by
  obtain ⟨hslots, q, hq, hempty⟩ := buildSlots_ok hok
  cases hg : m.globals[g]? with
  | none => simp [classOf, hg] at h
  | some global =>
    simp only [classOf, hg, Option.map_eq_some_iff] at h
    obtain ⟨s, hs, rfl⟩ := h
    obtain ⟨c, hc, hk⟩ := (hslots.lookup hq hempty global.module global.name).1 s hs
    exact ⟨c, _, hc, hk, by simp [keyOf, hg]⟩

theorem exists_classOf (hok : ClassesOk m) (h : Describes m i g) :
    ∃ j, classOf m (buildSlots m) g = some j := by
  obtain ⟨hslots, q, hq, hempty⟩ := buildSlots_ok hok
  obtain ⟨c, k, hc, hk, hg⟩ := h
  obtain ⟨global, hglobal, rfl⟩ := Option.map_eq_some_iff.mp hg
  obtain ⟨s, hs⟩ := (hslots.lookup hq hempty global.module global.name).2 i ⟨c, hc, hk⟩
  exact ⟨s.record, by simp [classOf, hglobal, hs]⟩

/-- Each class of the program has one record: no two records name one descriptor. -/
def OneRecord (m : IrModule) : Prop := (m.classes.map fun c => keyOf m c.descriptor).Nodup

instance (m : IrModule) : Decidable (OneRecord m) := inferInstanceAs (Decidable (List.Nodup _))

theorem OneRecord.unique (hone : OneRecord m) {j : Nat} (hi : Describes m i g)
    (hj : Describes m j g) : i = j := by
  obtain ⟨c, k, hc, hk, hg⟩ := hi
  obtain ⟨c', k', hc', hk', hg'⟩ := hj
  obtain rfl : k = k' := Option.some.inj (hg.symm.trans hg')
  have hi' : (m.classes.map fun c => keyOf m c.descriptor)[i]? = some (some k) := by simp [hc, hk]
  have hj' : (m.classes.map fun c => keyOf m c.descriptor)[j]? = some (some k) := by simp [hc', hk']
  have hapart := nodup_iff_getElem?_ne_getElem?.mp hone
  have hlt : ∀ n, (m.classes.map fun c => keyOf m c.descriptor)[n]? = some (some k) →
        n < (m.classes.map fun c => keyOf m c.descriptor).length :=
    fun n hn => (List.getElem?_eq_some_iff.mp hn).1
  rcases Nat.lt_trichotomy i j with hij | hij | hij
  · exact absurd (hi'.trans hj'.symm) (hapart i j hij (hlt j hj'))
  · exact hij
  · exact absurd (hj'.trans hi'.symm) (hapart j i hij (hlt i hi'))

/-- `whole_class_of` gives the record that describes the global. -/
theorem classOf_eq_some_iff (hok : ClassesOk m) (hone : OneRecord m) :
    classOf m (buildSlots m) g = some i ↔ Describes m i g := by
  constructor
  · exact describes_of_classOf hok
  · intro h
    obtain ⟨j, hj⟩ := exists_classOf hok h
    rw [hj, hone.unique h (describes_of_classOf hok hj)]

/-! ## The classes a pointer may address -/

/-- Class record `i` lies at or below the class that global `g` names. -/
inductive AtOrBelow (m : IrModule) : Nat → Nat → Prop where
  | self {i g : Nat} : Describes m i g → AtOrBelow m i g
  | up {i j g : Nat} {c : IrClass} : m.classes[i]? = some c →
      Describes m j c.base → AtOrBelow m j g → AtOrBelow m i g

/-- Table `t` belongs to a concrete class of the program: its primary table or
    the table of one of its sub-objects. -/
inductive Concrete (m : IrModule) (t : Nat) : Prop where
  | primary {c : IrClass} : c ∈ m.classes → c.table ≠ irNoIndex → t = c.table → Concrete m t
  | sub {c : IrClass} {s : IrSubtable} : c ∈ m.classes →
      c.table ≠ irNoIndex → s ∈ c.subtables → t = s.table → Concrete m t

/-- An object of class `i`, or the sub-object of interface `i` of an object, carries table `t`. -/
inductive Holds (m : IrModule) (t i : Nat) : Prop where
  | primary {c : IrClass} : m.classes[i]? = some c → c.table ≠ irNoIndex → t = c.table → Holds m t i
  | sub {c : IrClass} {s : IrSubtable} : c ∈ m.classes →
      c.table ≠ irNoIndex → s ∈ c.subtables → t = s.table →
      Describes m i s.interface → Holds m t i

/-- Global `g` names the root, which no record describes. -/
def IsRoot (m : IrModule) (g : Nat) : Prop :=
  keyOf m g = some (none, rootDescriptor) ∧ ∀ i, ¬ Describes m i g

/-- A pointer to the class that global `g` names may point at an object, or at
    the sub-object of an interface, that carries table `t`. -/
inductive CanPointAt (m : IrModule) (g t : Nat) : Prop where
  | below {i : Nat} : Holds m t i → AtOrBelow m i g → CanPointAt m g t
  | root : IsRoot m g → Concrete m t → CanPointAt m g t

/-! ## The chains of `add_table` -/

theorem chain_chainDepth (up : Nat → Option Nat) : ∀ (n : Nat)
    (r : Option Nat), chain up (chainDepth up n r) r = chain up n r := by
  intro n
  induction n with
  | zero => intro r; rfl
  | succ n ih =>
    intro r
    cases r with
    | none => rfl
    | some r =>
      show r :: chain up (chainDepth up n (up r)) (up r) = r :: chain up n (up r)
      rw [ih]

theorem mem_chain {up : Nat → Option Nat} : ∀ {n k r j : Nat}, k < n →
    orbit up k r = some j → j ∈ chain up n (some r) := by
  intro n
  induction n with
  | zero => intro k r j hk; exact absurd hk (Nat.not_lt_zero k)
  | succ n ih =>
    intro k r j hk h
    cases k with
    | zero =>
      obtain rfl := Option.some.inj h
      exact mem_cons_self ..
    | succ k =>
      obtain ⟨r', hr', hrest⟩ := Option.bind_eq_some_iff.mp h
      show j ∈ r :: chain up n (up r)
      rw [hr']
      exact mem_cons_of_mem _ (ih (Nat.lt_of_succ_lt_succ hk) hrest)

/-- A record at or below the class of `g` has the record of `g` on its way up. -/
theorem AtOrBelow.orbit (hok : ClassesOk m) (hone : OneRecord m) {j : Nat}
    (h : AtOrBelow m i g) (hj : Describes m j g) :
    ∃ k, FiniteWalk.orbit (above m (buildSlots m)) k i = some j := by
  induction h with
  | self hi =>
    refine ⟨0, ?_⟩
    rw [hone.unique hj hi]
    rfl
  | up hc hbase _ ih =>
    obtain ⟨k, hk⟩ := ih hj
    refine ⟨k + 1, ?_⟩
    have hup := (classOf_eq_some_iff hok hone).mpr hbase
    simp only [FiniteWalk.orbit, above, hc, hup]
    exact hk

theorem Describes.lt (h : Describes m i g) : i < m.classes.length := by
  obtain ⟨c, k, hc, -, -⟩ := h
  exact (List.getElem?_eq_some_iff.mp hc).1

theorem mem_addTable (hok : ClassesOk m) (hone : OneRecord m) {j t : Nat}
    (hi : i < m.classes.length) (h : AtOrBelow m i g) (hj : Describes m j g) :
    j ∈ (addTable m (buildSlots m) t (some i)).classes := by
  obtain ⟨k, hk⟩ := h.orbit hok hone hj
  have hup : ∀ a b, above m (buildSlots m) a = some b →
      b < m.classes.length := by
    intro a b hab
    unfold above at hab
    split at hab
    · exact nomatch hab
    · exact (describes_of_classOf hok hab).lt
  obtain ⟨k', hk', horbit⟩ := orbit_short hup hi hk
  show j ∈ chain _ (chainDepth _ _ _) _
  rw [chain_chainDepth]
  exact mem_chain (by omega) horbit

/-! ## The entries of a call -/

theorem mem_foldl_addEntry {f : Option Nat} : ∀ (l acc : List (Option Nat)),
    f ∈ l.foldl addEntry acc ↔ f ∈ acc ∨ f ∈ l := by
  intro l
  induction l with
  | nil => intro acc; simp
  | cons e l ih =>
    intro acc
    rw [foldl_cons, ih]
    unfold addEntry
    by_cases he : acc.contains e = true
    · rw [if_pos he]
      rw [contains_iff_mem] at he
      simp only [mem_cons]
      constructor
      · rintro (h | h)
        · exact Or.inl h
        · exact Or.inr (Or.inr h)
      · rintro (h | rfl | h)
        · exact Or.inl h
        · exact Or.inl he
        · exact Or.inr h
    · rw [if_neg he]
      simp only [mem_append, mem_singleton, or_assoc]
      rw [mem_cons]

/-- The table of a class that serves the record of the call gives its entry. -/
theorem entry_mem_of_serves {w : Whole} {d slot : Nat} {s : Served}
    (hs : s ∈ w.tables) (hserves : serves s (wholeRecordOf w d) = true) :
    entryAt w.m s.table slot ∈ wholeEntries w d slot := by
  unfold wholeEntries
  rw [mem_foldl_addEntry]
  refine Or.inr (List.mem_map.mpr ⟨s, ?_, rfl⟩)
  exact mem_filter.mpr ⟨hs, hserves⟩

theorem Concrete.exists_served {t : Nat} (h : Concrete m t) :
    ∃ s ∈ (wholeBuild m).tables, s.table = t := by
  have step : ∀ c ∈ m.classes, ∀ s : Nat → Served, (∀ i, s i ∈ tablesOf m (buildSlots m) (c, i)) →
      ∃ i, s i ∈ (wholeBuild m).tables := by
    intro c hc s hs
    obtain ⟨i, hi⟩ := mem_iff_getElem?.mp hc
    refine ⟨i, mem_flatMap.mpr ⟨(c, i), ?_, hs i⟩⟩
    exact mem_zipIdx_classes.mpr hi
  cases h with
  | @primary c hc hne ht =>
    obtain ⟨i, hi⟩ := step c hc (fun i => addTable m (buildSlots m) c.table (some i)) (by
        intro i
        simp [tablesOf, hne])
    exact ⟨_, hi, ht.symm⟩
  | @sub c s hc hne hs ht =>
    obtain ⟨-, hi⟩ := step c hc (fun _ => addTable m (buildSlots m) s.table
        (classOf m (buildSlots m) s.interface)) (by
        intro i
        rw [tablesOf, if_neg hne]
        exact mem_cons_of_mem _ (List.mem_map.mpr ⟨s, hs, rfl⟩))
    exact ⟨_, hi, ht.symm⟩

/-- The table an object of class `i` carries is listed with every class above `i`. -/
theorem Holds.exists_served (hok : ClassesOk m) (hone : OneRecord m) {t : Nat} (h : Holds m t i) :
    addTable m (buildSlots m) t (some i) ∈ (wholeBuild m).tables ∧
      i < m.classes.length := by
  cases h with
  | @primary c hc hne ht =>
    refine ⟨mem_flatMap.mpr ⟨(c, i), mem_zipIdx_classes.mpr hc, ?_⟩, ?_⟩
    · simp [tablesOf, hne, ht]
    · exact (List.getElem?_eq_some_iff.mp hc).1
  | @sub c s hc hne hs ht hi =>
    obtain ⟨n, hn⟩ := mem_iff_getElem?.mp hc
    refine ⟨mem_flatMap.mpr ⟨(c, n), mem_zipIdx_classes.mpr hn, ?_⟩, hi.lt⟩
    rw [tablesOf, if_neg hne]
    refine mem_cons_of_mem _ (List.mem_map.mpr ⟨s, hs, ?_⟩)
    rw [(classOf_eq_some_iff hok hone).mpr hi, ht]

/-- **COMPLETE ENTRIES**: `whole_entries` lists the entry of every table that a
    pointer to the class may reach. -/
theorem mem_wholeEntries (hok : ClassesOk m) (hone : OneRecord m) {d t : Nat}
    (slot : Nat) (h : CanPointAt m d t) :
    entryAt m t slot ∈ wholeEntries (wholeBuild m) d slot := by
  cases h with
  | @below i hholds hbelow =>
    obtain ⟨hs, hi⟩ := hholds.exists_served hok hone
    have hdesc : ∃ j, Describes m j d := by
      clear hs hi hholds
      induction hbelow with
      | self h => exact ⟨_, h⟩
      | up _ _ _ ih => exact ih
    obtain ⟨j, hj⟩ := hdesc
    have hrec : wholeRecordOf (wholeBuild m) d = .record j := by
      have := (classOf_eq_some_iff hok hone).mpr hj
      simp [wholeRecordOf, wholeBuild, this]
    have hmem := mem_addTable (t := t) hok hone hi hbelow hj
    refine entry_mem_of_serves (w := wholeBuild m) hs ?_
    rw [hrec]
    exact contains_iff_mem.mpr hmem
  | root hroot hconc =>
    obtain ⟨hkey, hnone⟩ := hroot
    obtain ⟨s, hs, rfl⟩ := hconc.exists_served
    refine entry_mem_of_serves (w := wholeBuild m) hs ?_
    have hclass : classOf m (buildSlots m) d = none := by
      cases hc : classOf m (buildSlots m) d with
      | none => rfl
      | some j => exact absurd (describes_of_classOf hok hc) (hnone j)
    obtain ⟨g, hg, hk⟩ := Option.map_eq_some_iff.mp hkey
    have hmod : g.module = none := congrArg Prod.fst hk
    have hname : g.name = rootDescriptor := congrArg Prod.snd hk
    have hrec : wholeRecordOf (wholeBuild m) d = .root := by
      simp [wholeRecordOf, wholeBuild, hclass, hg, hmod, hname]
    rw [hrec]
    rfl

/-! ## The rewrite -/

/-- `ir_func_op` of the function at index `f`. -/
def irFuncOp (f : Nat) : IrOperand := ⟨.func, .ptr, f⟩

/-- `devirtualise` at one instruction. -/
def devirtualiseInst (w : Whole) (inst : IrInst) : IrInst :=
  if inst.op = .call ∧ inst.c.kind = .global then
    match wholeEntries w inst.c.val inst.field with
    | [some f] => { inst with a := irFuncOp f, b := .absent, c := .absent, field := 0 }
    | _ => inst
  else inst

/-- `devirtualise`. -/
def devirtualise (w : Whole) (m : IrModule) : IrModule :=
  { m with functions := m.functions.map fun f =>
      { f with blocks := f.blocks.map fun b =>
          { b with insts := b.insts.map (devirtualiseInst w) } } }

/-- Instruction `k` of block `b` of function `i`. -/
def instAt (m : IrModule) (i b k : Nat) : Option IrInst :=
  (m.functions[i]?).bind fun f => (f.blocks[b]?).bind fun bl => bl.insts[k]?

/-- The function a call instruction reaches on an object that carries table
    `t`: the one the call names, or the entry of the table at its slot. -/
def callee (m : IrModule) (inst : IrInst) (t : Nat) : Option Nat :=
  if inst.c.kind = .global then entryAt m t inst.field
  else if inst.a.kind = .func then some inst.a.val else none

theorem instAt_devirtualise (w : Whole) (m : IrModule) (i b k : Nat) :
    instAt (devirtualise w m) i b k = (instAt m i b k).map (devirtualiseInst w) := by
  unfold instAt devirtualise
  rw [getElem?_map]
  cases m.functions[i]? with
  | none => rfl
  | some f =>
    simp only [Option.map_some, Option.bind_some, getElem?_map]
    cases f.blocks[b]? with
    | none => rfl
    | some bl => simp

/-- A rewritten call reaches on every object the entry of its table. -/
theorem callee_devirtualiseInst (hok : ClassesOk m) (hone : OneRecord m)
    {inst : IrInst} {t : Nat} (ht : CanPointAt m inst.c.val t)
    (hc : inst.c.kind = .global) :
    callee m (devirtualiseInst (wholeBuild m) inst) t = entryAt m t inst.field := by
  have hsame : callee m inst t = entryAt m t inst.field := by
    simp [callee, hc]
  unfold devirtualiseInst
  by_cases hcall : inst.op = .call ∧ inst.c.kind = .global
  · rw [if_pos hcall]
    have hmem := mem_wholeEntries hok hone inst.field ht
    split
    · rename_i f hentries
      rw [hentries, mem_singleton] at hmem
      rw [hmem]
      rfl
    · exact hsame
  · rw [if_neg hcall]
    exact hsame

/-- **DEVIRTUALISATION IS SOUND**: the entries of a call list what every table its class can point
    at holds at the slot, and after `devirtualise` each call through a table reaches, on every
    object its class can point at, the function the table of that object holds at the slot. -/
theorem devirtualise_sound (m : IrModule) (hok : ClassesOk m) (hone : OneRecord m) :
    (∀ d slot t, CanPointAt m d t → entryAt m t slot ∈ wholeEntries (wholeBuild m) d slot) ∧
    (∀ i b k inst, instAt m i b k = some inst → inst.op = .call → inst.c.kind = .global →
      ∃ inst', instAt (devirtualise (wholeBuild m) m) i b k = some inst' ∧
        ∀ t, CanPointAt m inst.c.val t →
          callee m inst' t = entryAt m t inst.field) := by
  refine ⟨fun d slot t h => mem_wholeEntries hok hone slot h, ?_⟩
  intro i b k inst hinst _ hglobal
  refine ⟨devirtualiseInst (wholeBuild m) inst, ?_, ?_⟩
  · rw [instAt_devirtualise, hinst]
    rfl
  · intro t ht
    exact callee_devirtualiseInst hok hone ht hglobal

/-- A table whose entry 1 is function `f`. -/
def tableOf (module name : CName) (f : Nat) : IrGlobal :=
  { module := some module, name := name,
    value := some (.mk .agg (irAggregate 0) .void 0
      [.mk .addr (irScalar .void) .ptr 0 [],
       .mk .func (irScalar .void) .ptr f []]) }

/-- A function of module `s`. -/
def plainFunction (name : CName) (insts : List IrInst) : IrFunction :=
  { module := some [115], name := name, result := .void,
    blocks := [{ insts := insts }], temps := [.ptr] }

/-- A call through entry 1 of the table of the class that global 0 names. -/
def tableCall : IrInst :=
  { op := .call, type := .void, a := ⟨.temp, .ptr, 0⟩, c := ⟨.global, .ptr, 0⟩,
    field := 1 }

/-- Module `s` declares the abstract class `S`, and module `t` a class `C` below
    it, which names `S` through its own global 3. -/
def shapes : IrModule :=
  { aggs := [{ kind := .struct, name := [83], fields := [], packed := false,
               simd := false, align := 0, length := 0, lengthText := none }],
    globals := [
      { module := some [115], name := [83] },
      { module := none, name := rootDescriptor },
      { module := some [116], name := [67] },
      { module := some [115], name := [83], isExtern := true },
      tableOf [116] [84] 1],
    functions := [plainFunction [97] [tableCall], plainFunction [98] []],
    classes := [
      { module := [115], name := [83], flags := 1, descriptor := 0, base := 1,
        agg := 0 },
      { module := [116], name := [67], descriptor := 2, base := 3, table := 4,
        agg := 0 }] }

/-- In `shapes` the call through `S` becomes a call of the one override. -/
theorem devirtualise_shapes :
    ∃ inst', instAt (devirtualise (wholeBuild shapes) shapes) 0 0 0 = some inst' ∧
      callee shapes inst' 4 = some 1 := by
  obtain ⟨inst', hinst', hcallee⟩ :=
    (devirtualise_sound shapes (by decide) (by decide)).2 0 0 0 tableCall rfl rfl
      rfl
  refine ⟨inst', hinst', hcallee 4 ?_⟩
  have hself : Describes shapes 0 3 := ⟨_, (some [115], [83]), rfl, rfl, rfl⟩
  have hzero : Describes shapes 0 0 := ⟨_, (some [115], [83]), rfl, rfl, rfl⟩
  refine .below (i := 1) (.primary rfl (by decide) rfl) ?_
  exact .up rfl hself (.self hzero)

/-- Two records name the descriptor of one class, each with a table of its own. -/
def twoRecords : IrModule :=
  { shapes with
    globals := [
      { module := some [115], name := [83] },
      { module := none, name := rootDescriptor },
      tableOf [115] [84] 1,
      tableOf [115] [85] 2],
    functions := [plainFunction [97] [tableCall], plainFunction [98] [],
      plainFunction [99] []],
    classes := [
      { module := [115], name := [83], descriptor := 0, base := 1, table := 2,
        agg := 0 },
      { module := [115], name := [83], descriptor := 0, base := 1, table := 3,
        agg := 0 }] }

/-- The records of `twoRecords` pass `ir_verify`, and the rewritten call reaches
    another function than the table of the first record holds. -/
theorem devirtualise_twoRecords : ClassesOk twoRecords ∧ instAt twoRecords 0 0 0 = some tableCall ∧
    ∃ inst', instAt (devirtualise (wholeBuild twoRecords) twoRecords) 0 0 0 = some inst' ∧
      CanPointAt twoRecords tableCall.c.val 2 ∧
      callee twoRecords inst' 2 = some 2 ∧
      entryAt twoRecords 2 tableCall.field = some 1 ∧
      entryAt twoRecords 2 tableCall.field
        ∉ wholeEntries (wholeBuild twoRecords) tableCall.c.val tableCall.field := by
  refine ⟨by decide, rfl, devirtualiseInst (wholeBuild twoRecords) tableCall, ?_, ?_, ?_, rfl, ?_⟩
  · rw [instAt_devirtualise]
    rfl
  · have hself : Describes twoRecords 0 0 :=
      ⟨_, (some [115], [83]), rfl, rfl, rfl⟩
    exact .below (i := 0) (.primary rfl (by decide) rfl) (.self hself)
  · decide +kernel
  · decide +kernel

end AnticWhole
