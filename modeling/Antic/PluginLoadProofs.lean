import Antic.PluginLoads

/-! # What a failed call leaves — `plugin.c`

    A load that fails closes the handle it has opened, and an object that is not built gives its
    reservation back.  A provider that fails after its load gives the load back with an unload,
    which refuses while an object of the library is alive, and it keeps the load where the class of
    the entry takes arguments.  `provider_keeps_iff` says when a call keeps what it took. -/

namespace AnticPlugin

open Function

/-- A call that gives nothing leaves the slots as they were, and closes what it opened. -/
def TakesNothing {A : Type} (s : State) (r : Option A × State) : Prop :=
  r.1 = none → r.2.slots = s.slots ∧ r.2.openCount = s.openCount ∧
      ∃ handles, r.2.opened = s.opened ++ handles ∧ r.2.closed = s.closed ++ handles

-- ── The runs of the calls ────

/-- The states that the calls and the hooks of objects reach from the start. -/
inductive Reachable : State → Prop where
  | start : Reachable .start
  | load (w : World) (s : State) (path : Text) : Reachable s → Reachable (pluginLoad w s path).2
  | instance_ (s : State) (handle : ℕ) (d : Address) :
      Reachable s → Reachable (pluginInstance s handle d).2
  | provider (w : World) (s : State) (path library dirs : Text) :
      Reachable s → Reachable (pluginProvider w s path library dirs).2
  | unload (s : State) (handle : ℕ) : Reachable s → Reachable (pluginUnload s handle).2
  | count (s : State) (base : ℕ) (delta : ℤ) : Reachable s → Reachable (count s base delta)

/-- A slot that is used counts a load, and one that is free holds zeros. -/
def Plugin.Ok (p : Plugin) : Prop := if p.used = 0 then p = .blank else 1 ≤ p.loads

def State.Ok (s : State) : Prop := ∀ i, (s.slots i).Ok

variable {s : State} {handle : ℕ} {i : Fin pluginMax} {table : Provided}

theorem State.Ok.set (h : s.Ok) (i : Fin pluginMax) {p : Plugin} (hp : p.Ok) : (s.set i p).Ok := by
  intro j
  unfold State.set
  by_cases hj : j = i
  · subst hj
    simpa using hp
  · simpa [hj] using h j

theorem Plugin.Ok.withLive {p : Plugin} (h : p.Ok) (hused : p.used ≠ 0) (live : ℤ) :
    Plugin.Ok { p with live := live } := by
  unfold Plugin.Ok at h ⊢
  simpa [hused] using h

-- ── Slots that a search finds ────

theorem used_of_slotOf (h : slotOf s handle = some i) : i.val = handle ∧ (s.slots i).used ≠ 0 := by
  have := List.find?_some h
  simpa using this

theorem slotOf_eq (h : (s.slots i).used ≠ 0) : slotOf s i = some i := by
  unfold slotOf
  rw [List.find?_eq_some_iff_getElem]
  refine ⟨by simpa using h, i, by simp, by simp, ?_⟩
  intro j hj
  have hne : ¬ j = i.val := Nat.ne_of_lt hj
  simp [hne]

theorem used_of_openSlot (h : openSlot s table = some i) :
    (s.slots i).used ≠ 0 ∧ (s.slots i).table.map Provided.address = some table.address := by
  have := List.find?_some h
  simpa using this

theorem free_of_freeSlot (h : freeSlot s = some i) : (s.slots i).used = 0 := by
  have := List.find?_some h
  simpa using this

-- ── The load ────

/-- The library that a load opens, and its table, where every check before the lock passes. -/
def Admitted (w : World) (path : Text) (handle : ℕ) (table : Provided) : Prop :=
  ∃ name, pathOf path = .ok name ∧ w.openLibrary name = .ok handle ∧
    accepts w name handle = .ok table

theorem Admitted.unique {w : World} {path : Text} {handle' : ℕ} {table' : Provided}
    (h : Admitted w path handle table) (h' : Admitted w path handle' table') :
    handle = handle' ∧ table = table' := by
  obtain ⟨name, hname, hopen, haccepts⟩ := h
  obtain ⟨name', hname', hopen', haccepts'⟩ := h'
  rw [hname] at hname'
  cases hname'
  rw [hopen] at hopen'
  cases hopen'
  rw [haccepts] at haccepts'
  cases haccepts'
  exact ⟨rfl, rfl⟩

/-- The states that a load leaves. -/
inductive Loads (w : World) (s : State) (path : Text) : Option ℕ × State → Prop where
  /-- No library is taken, and a handle that was opened is closed. -/
  | refused (s' : State) (handles : List ℕ) :
      (∀ handle table, Admitted w path handle table → openSlot s table = none ∧ freeSlot s = none) →
      s'.slots = s.slots → s'.openCount = s.openCount →
      s'.opened = s.opened ++ handles → s'.closed = s.closed ++ handles →
      Loads w s path (none, s')
  /-- The library is open already: its slot counts the load, the handle is closed. -/
  | again (s' : State) (handle : ℕ) (table : Provided) (i : Fin pluginMax) :
      Admitted w path handle table → openSlot s table = some i →
      s'.slots = update s.slots i { s.slots i with loads := (s.slots i).loads + 1 } →
      s'.openCount = s.openCount →
      s'.opened = s.opened ++ [handle] → s'.closed = s.closed ++ [handle] →
      Loads w s path (some i, s')
  /-- A free slot takes the library. -/
  | fresh (s' : State) (handle : ℕ) (table : Provided) (i : Fin pluginMax) :
      Admitted w path handle table → openSlot s table = none → freeSlot s = some i →
      s'.slots = update s.slots i ⟨some handle, some (w.tableImage table), some table, 0, 1, 1⟩ →
      s'.openCount = s.openCount + 1 →
      s'.opened = s.opened ++ [handle] → s'.closed = s.closed →
      Loads w s path (some i, s')

/-- **What a load does.** -/
theorem pluginLoad_loads (w : World) (s : State) (path : Text) :
    Loads w s path (pluginLoad w s path) := by
  unfold pluginLoad
  cases hname : pathOf path with
  | error r =>
    refine .refused _ [] ?_ rfl rfl (by simp [State.fail]) (by simp [State.fail])
    rintro handle table ⟨name, h, -⟩
    rw [hname] at h
    cases h
  | ok name =>
    cases hopen : w.openLibrary name with
    | error why =>
      have hnone : ∀ handle table, Admitted w path handle table →
          openSlot s table = none ∧ freeSlot s = none := by
        rintro handle table ⟨name', h, h', -⟩
        rw [hname] at h
        cases h
        rw [hopen] at h'
        cases h'
      cases hmodule : w.missingModule name why with
      | some module | none =>
        simp only [hopen, hmodule]
        exact .refused _ [] hnone rfl rfl (by simp [State.fail]) (by simp [State.fail])
    | ok handle =>
      cases haccepts : accepts w name handle with
      | error r =>
        simp only [hopen, haccepts]
        refine .refused _ [handle] ?_ rfl rfl rfl rfl
        rintro handle' table ⟨name', h, h', h''⟩
        rw [hname] at h
        cases h
        rw [hopen] at h'
        cases h'
        rw [haccepts] at h''
        cases h''
      | ok table =>
        have hadmitted : Admitted w path handle table := ⟨name, hname, hopen, haccepts⟩
        have hopenSlot : openSlot { s with message := none, opened := s.opened ++ [handle] } table =
            openSlot s table := rfl
        have hfreeSlot : freeSlot { s with message := none, opened := s.opened ++ [handle] } =
            freeSlot s := rfl
        simp only [hopen, haccepts, claim, hopenSlot, hfreeSlot]
        cases hslot : openSlot s table with
        | some i => exact .again _ handle table i hadmitted hslot rfl rfl rfl rfl
        | none =>
          cases hfree : freeSlot s with
          | some i => exact .fresh _ handle table i hadmitted hslot hfree rfl rfl rfl rfl
          | none =>
            refine .refused _ [handle] ?_ rfl rfl rfl rfl
            intro handle' table' hadmitted'
            rw [(hadmitted'.unique hadmitted).2]
            exact ⟨hslot, hfree⟩

-- ── The invariant of the slots ────

theorem State.Ok.of_slots {s' : State} (h : s.Ok) (hslots : s'.slots = s.slots) : s'.Ok := by
  intro i
  rw [hslots]
  exact h i

theorem addLive_slots (s : State) (i j : Fin pluginMax) (delta : ℤ) :
    ((s.addLive i delta).slots j).used = (s.slots j).used := by
  unfold State.addLive State.set
  by_cases hj : j = i
  · subst hj
    simp
  · simp [hj]

theorem count_cases (s : State) (base : ℕ) (delta : ℤ) : AnticPlugin.count s base delta = s ∨
      ∃ i, (s.slots i).used ≠ 0 ∧ AnticPlugin.count s base delta = s.addLive i delta := by
  unfold AnticPlugin.count
  split
  · exact Or.inl rfl
  · split
    · exact Or.inl rfl
    · rename_i i hi
      have hfound := List.find?_some hi
      simp only [Bool.and_eq_true] at hfound
      exact Or.inr ⟨i, by simpa using hfound.1, rfl⟩

theorem State.Ok.addLive (h : s.Ok) (hused : (s.slots i).used ≠ 0) (delta : ℤ) :
    (s.addLive i delta).Ok :=
  h.set i ((h i).withLive hused _)

theorem State.Ok.count (h : s.Ok) (base : ℕ) (delta : ℤ) : (AnticPlugin.count s base delta).Ok := by
  rcases count_cases s base delta with hsame | ⟨i, hused, hadd⟩
  · rwa [hsame]
  · rw [hadd]
    exact h.addLive hused delta

theorem State.Ok.load (h : s.Ok) (w : World) (path : Text) : (pluginLoad w s path).2.Ok := by
  have hloads := pluginLoad_loads w s path
  generalize pluginLoad w s path = r at hloads
  cases hloads with
  | refused _ _ _ hslots => exact h.of_slots hslots
  | again _ _ table i _ hslot hslots =>
    have hused := (used_of_openSlot hslot).1
    have hok := h i
    unfold Plugin.Ok at hok
    rw [if_neg hused] at hok
    refine State.Ok.of_slots (h.set i ?_) hslots
    unfold Plugin.Ok
    rw [if_neg hused]
    show 1 ≤ (s.slots i).loads + 1
    omega
  | fresh _ _ _ i _ _ _ hslots =>
    refine State.Ok.of_slots (h.set i ?_) hslots
    simp [Plugin.Ok]

theorem State.Ok.built (h : s.Ok) (hused : (s.slots i).used ≠ 0) (e : ProvidesLine) :
    (AnticPlugin.built s i e).2.Ok := by
  unfold AnticPlugin.built build
  split_ifs
  · exact State.Ok.addLive (h.of_slots rfl) hused (-1)
  · refine (h.count e.classImage 1).addLive ?_ (-1)
    rcases count_cases s e.classImage 1 with hsame | ⟨j, -, hadd⟩
    · rwa [hsame]
    · rw [hadd, addLive_slots]
      exact hused

theorem State.Ok.unload (h : s.Ok) (handle : ℕ) : (pluginUnload s handle).2.Ok := by
  unfold pluginUnload
  have hstart : State.Ok { s with message := none } := h.of_slots rfl
  generalize State.mk s.slots s.openCount none s.opened s.closed = s at hstart
  cases hslot : slotOf s handle with
  | none =>
    simp only [hslot]
    exact hstart.of_slots rfl
  | some i =>
    simp only [hslot]
    split_ifs with hlive hloads
    · exact hstart.of_slots rfl
    · have hok := hstart i
      refine hstart.set i ?_
      unfold Plugin.Ok at hok ⊢
      rw [if_neg (used_of_slotOf hslot).2] at hok ⊢
      show 1 ≤ (s.slots i).loads - 1
      omega
    · have hblank : (s.set i .blank).Ok := hstart.set i (by simp [Plugin.Ok, Plugin.blank])
      cases (s.slots i).handle with
      | none => exact hblank.of_slots rfl
      | some handle => exact hblank.of_slots rfl

/-- The parts of `reserve`: a slot that is used, and one object counted for an entry. -/
theorem reserve_cases (s : State) (handle : ℕ) (d : Option Address) (path : Text) :
    reserve s handle d path = (none, none, s.fail .notOpen) ∧ slotOf s handle = none ∨
      ∃ i, slotOf s handle = some i ∧
        (reserve s handle d path = (some i, none, s) ∧ entryOf (s.slots i) d path = none ∨
          ∃ e, entryOf (s.slots i) d path = some e ∧
            reserve s handle d path = (some i, some e, s.addLive i 1)) := by
  unfold reserve
  cases hslot : slotOf s handle with
  | none => exact Or.inl ⟨rfl, rfl⟩
  | some i =>
    refine Or.inr ⟨i, rfl, ?_⟩
    cases hentry : entryOf (s.slots i) d path with
    | none => exact Or.inl ⟨by simp [hentry], rfl⟩
    | some e => exact Or.inr ⟨e, rfl, by simp [hentry]⟩

theorem State.Ok.afterReserve (h : s.Ok) (hused : (s.slots i).used ≠ 0) (e : ProvidesLine) :
    (AnticPlugin.built (s.addLive i 1) i e).2.Ok := by
  refine (h.addLive hused 1).built ?_ e
  rw [addLive_slots]
  exact hused

theorem State.Ok.instance_ (h : s.Ok) (handle : ℕ) (d : Address) :
    (pluginInstance s handle d).2.Ok := by
  unfold pluginInstance
  have hstart : State.Ok { s with message := none } := h.of_slots rfl
  generalize State.mk s.slots s.openCount none s.opened s.closed = s at hstart
  rcases reserve_cases s handle (some d) [] with ⟨hnone, -⟩ | ⟨i, hslot, ⟨hnone, -⟩ | ⟨e, -, hsome⟩⟩
  · simp only [hnone]
    exact hstart.of_slots rfl
  · simp only [hnone]
    exact hstart.of_slots rfl
  · simp only [hsome]
    exact hstart.afterReserve (used_of_slotOf hslot).2 e

theorem State.Ok.afterLoad (h : s.Ok) (handle : ℕ) (path library : Text) :
    (AnticPlugin.afterLoad s handle path library).2.Ok := by
  unfold AnticPlugin.afterLoad
  rcases reserve_cases s handle none path with ⟨hnone, -⟩ | ⟨i, hslot, ⟨hnone, -⟩ | ⟨e, -, hsome⟩⟩
  · simp only [hnone]
    exact h.of_slots rfl
  · simp only [hnone]
    exact (h.unload handle).of_slots rfl
  · simp only [hsome]
    exact h.afterReserve (used_of_slotOf hslot).2 e

theorem State.Ok.provider (h : s.Ok) (w : World) (path library dirs : Text) :
    (pluginProvider w s path library dirs).2.Ok := by
  unfold pluginProvider
  have hstart : State.Ok { s with message := none } := h.of_slots rfl
  generalize State.mk s.slots s.openCount none s.opened s.closed = s at hstart
  cases chosen w path library dirs with
  | error r => exact hstart.of_slots rfl
  | ok name =>
    have hload := hstart.load w name
    dsimp only
    split
    · rename_i s' heq
      rwa [heq] at hload
    · rename_i handle s' heq
      rw [heq] at hload
      exact hload.afterLoad handle path name

/-- **The slots hold in every run of the calls.** -/
theorem Reachable.ok (h : Reachable s) : s.Ok := by
  induction h with
  | start =>
    intro i
    simp [State.start, Plugin.Ok, Plugin.blank]
  | load w s path _ ih => exact ih.load w path
  | instance_ s handle d _ ih => exact ih.instance_ handle d
  | provider w s path library dirs _ ih => exact ih.provider w path library dirs
  | unload s handle _ ih => exact ih.unload handle
  | count s base delta _ ih => exact ih.count base delta

-- ── What the failures leave ────

/-- **A load that fails takes nothing.** -/
theorem pluginLoad_takes_nothing (w : World) (s : State) (path : Text) :
    TakesNothing s (pluginLoad w s path) := by
  have hloads := pluginLoad_loads w s path
  generalize pluginLoad w s path = r at hloads
  intro hnone
  cases hloads with
  | refused s' handles _ hslots hcount hopened hclosed =>
    exact ⟨hslots, hcount, handles, hopened, hclosed⟩
  | again => cases hnone
  | fresh => cases hnone

/-- A reservation that is given back leaves the slots as they were. -/
theorem built_refused {e : ProvidesLine} (h : takesArguments e = true) : built (s.addLive i 1) i e =
      (none, { s with message := some (.takesArguments e.className) }) := by
  have hlive : (s.slots i).live + 1 + -1 = (s.slots i).live := by omega
  simp [built, build, h, State.fail, State.addLive, State.set]

theorem built_made {e : ProvidesLine} (h : takesArguments e = false) :
    (built s i e).1 = some e := by
  simp [built, build, h]

/-- **An object that is not built takes nothing.** -/
theorem pluginInstance_takes_nothing (s : State) (handle : ℕ) (d : Address) :
    TakesNothing s (pluginInstance s handle d) := by
  intro hnone
  unfold pluginInstance at hnone ⊢
  rcases reserve_cases { s with message := none } handle (some d) [] with
    ⟨hreserve, -⟩ | ⟨i, -, ⟨hreserve, -⟩ | ⟨e, -, hreserve⟩⟩
  · simp only [hreserve]
    exact ⟨rfl, rfl, [], by simp [State.fail], by simp [State.fail]⟩
  · simp only [hreserve]
    exact ⟨rfl, rfl, [], by simp [State.fail], by simp [State.fail]⟩
  · simp only [hreserve] at hnone ⊢
    cases hargs : takesArguments e with
    | true =>
      rw [built_refused hargs]
      exact ⟨rfl, rfl, [], by simp, by simp⟩
    | false =>
      rw [built_made hargs] at hnone
      cases hnone

/-- The library loads, and the provider keeps the load of a library that provides no such
    interface while an object of it is alive, or whose class takes arguments. -/
def KeepsLoad (w : World) (s : State) (path library dirs : Text) : Prop :=
  ∃ name handle table, chosen w path library dirs = .ok name ∧ Admitted w name handle table ∧
    match openSlot s table with
    | some i =>
      match entryOf (s.slots i) none path with
      | none => (s.slots i).live ≠ 0
      | some e => takesArguments e = true
    | none =>
      freeSlot s ≠ none ∧
        ∃ e, entryOf { Plugin.blank with table := some table } none path = some e ∧
          takesArguments e = true

/-- What is left after the load of an open library whose count of loads it has raised. -/
theorem afterLoad_again {s' : State} (hok : s.Ok) (path library : Text)
    (hused : (s.slots i).used ≠ 0)
    (hslots : s'.slots = update s.slots i { s.slots i with loads := (s.slots i).loads + 1 })
    (hcount : s'.openCount = s.openCount) (hopened : s'.opened = s.opened ++ [handle])
    (hclosed : s'.closed = s.closed ++ [handle]) :
    TakesNothing s (afterLoad s' i path library) ↔ ¬ match entryOf (s.slots i) none path with
        | none => (s.slots i).live ≠ 0
        | some e => takesArguments e = true := by
  have hslot : s'.slots i = { s.slots i with loads := (s.slots i).loads + 1 } := by
    rw [hslots, update_self]
  have hkept : ∀ slots : Fin pluginMax → Plugin, slots = s'.slots → slots ≠ s.slots := by
    intro slots heq hsame
    have hloads := congrArg Plugin.loads ((congrFun (heq.symm.trans hsame) i).symm.trans hslot)
    simp at hloads
  have hslotOf : slotOf s' i = some i := slotOf_eq (by rw [hslot]; exact hused)
  have hentry : entryOf (s'.slots i) none path = entryOf (s.slots i) none path := by
    rw [hslot]
    rfl
  rcases reserve_cases s' i none path with ⟨-, hnone⟩ | ⟨j, hj, hreserve⟩
  · rw [hslotOf] at hnone
    cases hnone
  · rw [hslotOf] at hj
    cases hj
    rw [hentry] at hreserve
    unfold afterLoad
    rcases hreserve with ⟨hreserve, hnone⟩ | ⟨e, hsome, hreserve⟩
    · simp only [hreserve, hnone]
      have hother : slotOf { s' with message := none } i = some i := hslotOf
      unfold pluginUnload
      simp only [hother]
      have hlive : (s'.slots i).live = (s.slots i).live := by rw [hslot]
      have hloads : (s'.slots i).loads = (s.slots i).loads + 1 := by rw [hslot]
      by_cases halive : (s.slots i).live ≠ 0
      · -- the unload refuses, and the load stays
        rw [if_pos (by rwa [hlive])]
        refine iff_of_false (fun h => ?_) (not_not.mpr halive)
        exact hkept _ rfl (h rfl).1
      · have hle : 1 ≤ (s.slots i).loads := by
          have := hok i
          unfold Plugin.Ok at this
          rwa [if_neg hused] at this
        rw [if_neg (by rwa [hlive]), if_pos (by omega)]
        refine iff_of_true (fun _ => ⟨?_, hcount, [handle], hopened, hclosed⟩) halive
        show update s'.slots i _ = s.slots
        have hback : { s'.slots i with loads := (s'.slots i).loads - 1 } = s.slots i := by
          rw [hslot]
          simp
        rw [hback, hslots, update_idem, update_eq_self]
    · simp only [hreserve, hsome]
      cases hargs : takesArguments e with
      | true =>
        rw [built_refused hargs]
        refine iff_of_false (fun h => ?_) (by simp)
        exact hkept _ rfl (h rfl).1
      | false =>
        refine iff_of_true (fun h => ?_) (by simp)
        rw [built_made hargs] at h
        cases h

theorem afterLoad_fresh {s' : State} (hok : s.Ok) (path library : Text)
    (hfree : (s.slots i).used = 0) {base : ℕ}
    (hslots : s'.slots = update s.slots i ⟨some handle, some base, some table, 0, 1, 1⟩)
    (hcount : s'.openCount = s.openCount + 1) (hopened : s'.opened = s.opened ++ [handle])
    (hclosed : s'.closed = s.closed) :
    TakesNothing s (afterLoad s' i path library) ↔
      ¬ ∃ e, entryOf { Plugin.blank with table := some table } none path = some e ∧
        takesArguments e = true := by
  have hslot : s'.slots i = ⟨some handle, some base, some table, 0, 1, 1⟩ := by
    rw [hslots, update_self]
  have hslotOf : slotOf s' i = some i := slotOf_eq (by rw [hslot]; exact one_ne_zero)
  have hentry : entryOf (s'.slots i) none path =
      entryOf { Plugin.blank with table := some table } none path := by
    rw [hslot]
    rfl
  rcases reserve_cases s' i none path with ⟨-, hnone⟩ | ⟨j, hj, hreserve⟩
  · rw [hslotOf] at hnone
    cases hnone
  · rw [hslotOf] at hj
    cases hj
    rw [hentry] at hreserve
    unfold afterLoad
    rcases hreserve with ⟨hreserve, hnone⟩ | ⟨e, hsome, hreserve⟩
    · -- the unload closes the library again
      simp only [hreserve, hnone]
      have hother : slotOf { s' with message := none } i = some i := hslotOf
      unfold pluginUnload
      simp only [hother, hslot]
      refine iff_of_true (fun _ => ⟨?_, ?_, [handle], hopened, ?_⟩) (by simp)
      · show update s'.slots i .blank = s.slots
        have hblank : s.slots i = .blank := by
          have := hok i
          unfold Plugin.Ok at this
          rwa [if_pos hfree] at this
        rw [hslots, update_idem, ← hblank, update_eq_self]
      · show s'.openCount - 1 = s.openCount
        omega
      · show s'.closed ++ [handle] = s.closed ++ [handle]
        rw [hclosed]
    · simp only [hreserve, hsome]
      cases hargs : takesArguments e with
      | true =>
        rw [built_refused hargs]
        refine iff_of_false (fun h => ?_) (not_not.mpr ⟨e, rfl, hargs⟩)
        have hused := congrArg Plugin.used (congrFun (h rfl).1 i)
        simp only [hslot, hfree] at hused
        exact absurd hused (by decide)
      | false =>
        refine iff_of_true (fun h => ?_) ?_
        · rw [built_made hargs] at h
          cases h
        · rintro ⟨e', he', hargs'⟩
          cases he'
          rw [hargs] at hargs'
          cases hargs'

/-- **A failed call takes no library**, and a failed provider takes one exactly where it
    keeps its load. -/
theorem failed_call_takes_nothing_iff {s : State} (h : Reachable s) (w : World) :
    (∀ path, TakesNothing s (pluginLoad w s path)) ∧
      (∀ handle d, TakesNothing s (pluginInstance s handle d)) ∧
      ∀ path library dirs,
        TakesNothing s (pluginProvider w s path library dirs) ↔ ¬ KeepsLoad w s path library dirs := by
  refine ⟨pluginLoad_takes_nothing w s, pluginInstance_takes_nothing s, fun path library dirs => ?_⟩
  have hok := h.ok
  unfold pluginProvider KeepsLoad
  cases hchosen : chosen w path library dirs with
  | error r =>
    refine iff_of_true (fun _ => ⟨rfl, rfl, [], by simp [State.fail], by simp [State.fail]⟩) ?_
    rintro ⟨name, handle, table, hname, -⟩
    cases hname
  | ok name =>
    have hloads := pluginLoad_loads w { s with message := none } name
    dsimp only
    generalize pluginLoad w { s with message := none } name = r at hloads
    have hopen : ∀ table, openSlot { s with message := none } table = openSlot s table := fun _ => rfl
    have hfree : freeSlot { s with message := none } = freeSlot s := rfl
    cases hloads with
    | refused s' handles hnone hslots hcount hopened hclosed =>
      refine iff_of_true (fun _ => ⟨hslots, hcount, handles, hopened, hclosed⟩) ?_
      rintro ⟨name', handle, table, hname, hadmitted, hkeeps⟩
      cases hname
      obtain ⟨hslot, hfreeSlot⟩ := hnone handle table hadmitted
      rw [hopen] at hslot
      rw [hslot] at hkeeps
      exact hkeeps.1 hfreeSlot
    | again s' handle table i hadmitted hslot hslots hcount hopened hclosed =>
      rw [hopen] at hslot
      refine (afterLoad_again hok path name (used_of_openSlot hslot).1 hslots hcount hopened
        hclosed).trans (not_congr ⟨fun hkeeps => ?_, ?_⟩)
      · exact ⟨name, handle, table, rfl, hadmitted, by rwa [hslot]⟩
      · rintro ⟨name', handle', table', hname, hadmitted', hkeeps⟩
        cases hname
        rwa [(hadmitted'.unique hadmitted).2, hslot] at hkeeps
    | fresh s' handle table i hadmitted hslot hfreeSlot hslots hcount hopened hclosed =>
      rw [hopen] at hslot
      rw [hfree] at hfreeSlot
      refine (afterLoad_fresh hok path name (free_of_freeSlot hfreeSlot) hslots hcount hopened
        hclosed).trans (not_congr ⟨fun hkeeps => ?_, ?_⟩)
      · refine ⟨name, handle, table, rfl, hadmitted, ?_⟩
        rw [hslot]
        exact ⟨by simp [hfreeSlot], hkeeps⟩
      · rintro ⟨name', handle', table', hname, hadmitted', hkeeps⟩
        cases hname
        rw [(hadmitted'.unique hadmitted).2, hslot] at hkeeps
        exact hkeeps.2

/-- The class of `a` that provides the interface `i` takes arguments. -/
def argumentsLine : ProvidesLine where
  descriptor := some ⟨(none, [105]), 8, 0, 0, some ⟨[5], 1, none⟩⟩
  offset := 0
  chain := [5]
  chainLength := 1
  fields := 0
  size := 8
  built := []
  path := [105]
  className := [99]
  classImage := 2
  flags := classArgs

/-- A program and the library `a`. -/
def argumentsWorld : World where
  slots := ⟨[], 0⟩
  version := []
  openLibrary _ := .ok 7
  missingModule _ _ := none
  provides _ := some ⟨64, [argumentsLine], []⟩
  damage _ := none
  image _ := 1
  tableImage _ := 2
  index _ := .absent
  digest _ := none
  separator := 58

/-- A path of another interface gives the load back. -/
theorem failed_call_takes_nothing_other :
    TakesNothing .start (pluginProvider argumentsWorld .start [106] [97] []) := by
  refine ((failed_call_takes_nothing_iff .start argumentsWorld).2.2 [106] [97] []).mpr ?_
  rintro ⟨name, handle, table, hname, ⟨name', -, -, haccepts⟩, hkeeps⟩
  cases haccepts
  obtain ⟨-, e, he, -⟩ := hkeeps
  cases he

/-- **A provider keeps its load** where the class takes arguments: the call gives nothing,
    and the first slot holds the library. -/
theorem provider_keeps_load : ¬ ∀ s, Reachable s → ∀ w path library dirs,
      TakesNothing s (pluginProvider w s path library dirs) := by
  intro hall
  have hnothing := (hall .start .start argumentsWorld [105] [97] [] rfl).1
  have hused := congrArg Plugin.used (congrFun hnothing ⟨0, by decide⟩)
  exact absurd hused (by decide)

end AnticPlugin
