import Antic.PluginLoadProofs
import Mathlib.Algebra.BigOperators.Fin

/-! # The books of the open libraries — `plugin.c`

    A library that is open stands in one slot, with the handle it was opened with.  The
    calls and the hooks of objects keep the count of the open libraries, and every handle
    that the platform gave is closed or held.  A library with a live object stays open. -/

namespace AnticPlugin

open List Function Finset

/-- What a slot holds beside its counts. -/
def Plugin.held (p : Plugin) : ℤ × Option ℕ × Option ℕ × Option Provided :=
  (p.used, p.handle, p.base, p.table)

/-- Whether a slot is used, as a number. -/
def Plugin.inUse (p : Plugin) : ℕ := if p.used = 0 then 0 else 1

/-- A number of each slot, over all slots. -/
def State.total (s : State) (f : Plugin → ℕ) : ℕ := ∑ i, f (s.slots i)

/-- The accounts of a state agree with its slots. -/
structure Books (s : State) : Prop where
  count : s.openCount = s.total Plugin.inUse
  handles : ∀ handle, s.opened.count handle =
    s.closed.count handle + s.total fun p => p.handle.toList.count handle
  filled : ∀ i, (s.slots i).used ≠ 0 → ∃ handle base table,
    (s.slots i).held = (1, some handle, some base, some table)
  tables : ∀ i j, (s.slots i).used ≠ 0 → (s.slots j).used ≠ 0 →
    (s.slots i).table.map Provided.address = (s.slots j).table.map Provided.address → i = j

variable {s s' : State} {i : Fin pluginMax}

-- ── One slot that changes ────

theorem total_update {p : Plugin} (hslots : s'.slots = update s.slots i p)
    (f : Plugin → ℕ) : s'.total f + f (s.slots i) = s.total f + f p := by
  have hrest : ∑ j ∈ univ.erase i, f (s'.slots j) = ∑ j ∈ univ.erase i, f (s.slots j) := by
    refine sum_congr rfl fun j hj => ?_
    rw [hslots, update_of_ne (ne_of_mem_erase hj)]
  unfold State.total
  rw [← add_sum_erase _ _ (mem_univ i), hrest,
    ← add_sum_erase _ (fun j => f (s.slots j)) (mem_univ i), hslots,
    update_self]
  omega

theorem State.Ok.blank_of_free (hok : s.Ok) (hfree : (s.slots i).used = 0) :
    s.slots i = .blank := by
  have hslot := hok i
  unfold Plugin.Ok at hslot
  rwa [if_pos hfree] at hslot

theorem ne_of_openSlot_none {table : Provided} (h : openSlot s table = none)
    (hused : (s.slots i).used ≠ 0) :
    (s.slots i).table.map Provided.address ≠ some table.address := by
  intro haddress
  have hnot := find?_eq_none.mp h i (mem_finRange i)
  simp [hused, haddress] at hnot

theorem Books.kept (h : Books s) (handles : List ℕ)
    (hheld : ∀ i, (s'.slots i).held = (s.slots i).held) (hcount : s'.openCount = s.openCount)
    (hopened : s'.opened = s.opened ++ handles) (hclosed : s'.closed = s.closed ++ handles) :
    Books s' := by
  have hused : ∀ i, (s'.slots i).used = (s.slots i).used := fun i => congrArg Prod.fst (hheld i)
  have htable : ∀ i, (s'.slots i).table = (s.slots i).table := fun i =>
    congrArg (fun p => p.2.2.2) (hheld i)
  refine ⟨?_, fun handle => ?_, fun i hi => ?_, fun i j hi hj heq => ?_⟩
  · rw [hcount, h.count]
    refine congrArg Nat.cast (sum_congr rfl fun i _ => ?_)
    rw [Plugin.inUse, Plugin.inUse, hused]
  · have hsame : (s'.total fun p => p.handle.toList.count handle) =
        s.total fun p => p.handle.toList.count handle :=
      sum_congr rfl fun i _ => congrArg (fun p => p.2.1.toList.count handle) (hheld i)
    have hold := h.handles handle
    rw [hopened, hclosed, count_append, count_append, hsame]
    omega
  · rw [hheld]
    exact h.filled i (hused i ▸ hi)
  · rw [htable, htable] at heq
    exact h.tables i j (hused i ▸ hi) (hused j ▸ hj) heq

theorem Books.took (h : Books s) (hok : s.Ok) {handle base : ℕ} {table : Provided}
    (hfree : (s.slots i).used = 0) (hnone : openSlot s table = none)
    (hslots : s'.slots = update s.slots i ⟨some handle, some base, some table, 0, 1, 1⟩)
    (hcount : s'.openCount = s.openCount + 1) (hopened : s'.opened = s.opened ++ [handle])
    (hclosed : s'.closed = s.closed) : Books s' := by
  have hblank := hok.blank_of_free hfree
  have hself : s'.slots i = ⟨some handle, some base, some table, 0, 1, 1⟩ := by
    rw [hslots, update_self]
  have hother : ∀ j, j ≠ i → s'.slots j = s.slots j := fun j hj => by
    rw [hslots, update_of_ne hj]
  refine ⟨?_, fun handle' => ?_, fun j hj => ?_, ?_⟩
  · have htotal := total_update hslots Plugin.inUse
    have hzero : Plugin.inUse .blank = 0 := rfl
    have hone : Plugin.inUse ⟨some handle, some base, some table, 0, 1, 1⟩ = 1 := rfl
    rw [hblank, hzero, hone] at htotal
    rw [hcount, h.count]
    omega
  · have htotal := total_update hslots fun p => p.handle.toList.count handle'
    rw [hblank] at htotal
    simp only [Plugin.blank, Option.toList_none, count_nil, Option.toList_some] at htotal
    have hold := h.handles handle'
    rw [hopened, hclosed, count_append]
    omega
  · by_cases hji : j = i
    · rw [hji, hself]
      exact ⟨handle, base, table, rfl⟩
    · rw [hother j hji] at hj ⊢
      exact h.filled j hj
  · have hnew : ∀ j, j ≠ i → (s.slots j).used ≠ 0 →
        (s'.slots j).table.map Provided.address ≠ (s'.slots i).table.map Provided.address := by
      intro j hj hused
      rw [hother j hj, hself]
      exact ne_of_openSlot_none hnone hused
    intro j k hj hk heq
    by_cases hji : j = i
    · by_cases hki : k = i
      · rw [hji, hki]
      · rw [hother k hki] at hk
        rw [hji] at heq
        exact absurd heq.symm (hnew k hki hk)
    · rw [hother j hji] at hj
      by_cases hki : k = i
      · rw [hki] at heq
        exact absurd heq (hnew j hji hj)
      · rw [hother k hki] at hk
        rw [hother j hji, hother k hki] at heq
        exact h.tables j k hj hk heq

theorem Books.gave (h : Books s) (hused : (s.slots i).used ≠ 0)
    (hslots : s'.slots = update s.slots i .blank)
    (hcount : s'.openCount = s.openCount - 1) (hopened : s'.opened = s.opened)
    (hclosed : s'.closed = s.closed ++ (s.slots i).handle.toList) : Books s' := by
  have hfree : (s'.slots i).used = 0 := by
    rw [hslots, update_self]
    rfl
  have hother : ∀ j, (s'.slots j).used ≠ 0 → s'.slots j = s.slots j := by
    intro j hj
    have hne : j ≠ i := by
      rintro rfl
      exact hj hfree
    rw [hslots, update_of_ne hne]
  refine ⟨?_, fun handle => ?_, fun j hj => ?_, fun j k hj hk heq => ?_⟩
  · have htotal := total_update hslots Plugin.inUse
    have hblank : Plugin.inUse .blank = 0 := rfl
    have hone : Plugin.inUse (s.slots i) = 1 := if_neg hused
    rw [hblank, hone] at htotal
    rw [hcount, h.count]
    omega
  · have htotal := total_update hslots fun p => p.handle.toList.count handle
    simp only [Plugin.blank, Option.toList_none, count_nil] at htotal
    have hold := h.handles handle
    rw [hopened, hclosed, count_append]
    omega
  · have hsame := hother j hj
    rw [hsame] at hj ⊢
    exact h.filled j hj
  · have hj' := hother j hj
    have hk' := hother k hk
    rw [hj', hk'] at heq
    rw [hj'] at hj
    rw [hk'] at hk
    exact h.tables j k hj hk heq

-- ── Calls that change counts ────

/-- Only counts of the slots and the message differ. -/
structure Counts (s s' : State) : Prop where
  held : ∀ i, (s'.slots i).held = (s.slots i).held
  openCount : s'.openCount = s.openCount
  opened : s'.opened = s.opened
  closed : s'.closed = s.closed

theorem Counts.trans {s'' : State} (h : Counts s s') (h' : Counts s' s'') : Counts s s'' :=
  ⟨fun i => (h'.held i).trans (h.held i), h'.openCount.trans h.openCount,
    h'.opened.trans h.opened, h'.closed.trans h.closed⟩

theorem counts_message (s : State) (message : Option Reason) :
    Counts s { s with message := message } :=
  ⟨fun _ => rfl, rfl, rfl, rfl⟩

theorem counts_set {p : Plugin} (hheld : p.held = (s.slots i).held) : Counts s (s.set i p) := by
  refine ⟨fun j => ?_, rfl, rfl, rfl⟩
  show (update s.slots i p j).held = _
  by_cases hj : j = i
  · rw [hj, update_self, hheld]
  · rw [update_of_ne hj]

theorem counts_addLive (s : State) (i : Fin pluginMax) (delta : ℤ) : Counts s (s.addLive i delta) :=
  counts_set rfl

theorem counts_loads (s : State) (i : Fin pluginMax) (loads : ℤ) :
    Counts s (s.set i { s.slots i with loads := loads }) :=
  counts_set rfl

theorem counts_count (s : State) (base : ℕ) (delta : ℤ) :
    Counts s (AnticPlugin.count s base delta) := by
  rcases count_cases s base delta with hsame | ⟨i, -, hadd⟩
  · rw [hsame]
    exact counts_message s s.message
  · rw [hadd]
    exact counts_addLive s i delta

theorem counts_built (s : State) (i : Fin pluginMax) (e : ProvidesLine) :
    Counts s (AnticPlugin.built s i e).2 := by
  unfold AnticPlugin.built build
  split_ifs
  · exact (counts_message s _).trans (counts_addLive _ i (-1))
  · exact (counts_count s e.classImage 1).trans (counts_addLive _ i (-1))

theorem counts_instance (s : State) (handle : ℕ) (d : Address) :
    Counts s (pluginInstance s handle d).2 := by
  unfold pluginInstance
  have hstart := counts_message s none
  generalize State.mk s.slots s.openCount none s.opened s.closed = s' at hstart
  rcases reserve_cases s' handle (some d) [] with ⟨heq, -⟩ | ⟨i, -, ⟨heq, -⟩ | ⟨e, -, heq⟩⟩
  · simp only [heq]
    exact hstart.trans (counts_message s' _)
  · simp only [heq]
    exact hstart.trans (counts_message s' _)
  · simp only [heq]
    exact hstart.trans ((counts_addLive s' i 1).trans (counts_built _ i e))

theorem Books.counts (h : Books s) (hcounts : Counts s s') : Books s' :=
  h.kept [] hcounts.held hcounts.openCount (hcounts.opened.trans (append_nil _).symm)
    (hcounts.closed.trans (append_nil _).symm)

-- ── Calls that open and close ────

theorem Books.load (h : Books s) (hok : s.Ok) (w : World) (path : Text) :
    Books (pluginLoad w s path).2 := by
  have hloads := pluginLoad_loads w s path
  generalize pluginLoad w s path = r at hloads
  cases hloads with
  | refused s' handles _ hslots hcount hopened hclosed =>
    exact h.kept handles (fun i => by rw [hslots]) hcount hopened hclosed
  | again s' handle table i _ _ hslots hcount hopened hclosed =>
    refine h.kept [handle] (fun j => ?_) hcount hopened hclosed
    rw [hslots]
    exact (counts_loads s i _).held j
  | fresh s' handle table i _ hnone hfree hslots hcount hopened hclosed =>
    exact h.took hok (free_of_freeSlot hfree) hnone hslots hcount hopened hclosed

theorem Books.unload (h : Books s) (handle : ℕ) : Books (pluginUnload s handle).2 := by
  unfold pluginUnload
  have hstart := h.counts (counts_message s none)
  generalize State.mk s.slots s.openCount none s.opened s.closed = s at hstart
  cases hslot : slotOf s handle with
  | none =>
    simp only [hslot]
    exact hstart.counts (counts_message s _)
  | some i =>
    simp only [hslot]
    split_ifs with hlive hloads
    · exact hstart.counts (counts_message s _)
    · exact hstart.counts (counts_loads s i _)
    · have hused := (used_of_slotOf hslot).2
      cases hhandle : (s.slots i).handle with
      | none => exact hstart.gave hused rfl rfl rfl (by rw [hhandle]; exact (append_nil _).symm)
      | some handle => exact hstart.gave hused rfl rfl rfl (by rw [hhandle]; rfl)

theorem Books.afterLoad (h : Books s) (handle : ℕ) (path library : Text) :
    Books (AnticPlugin.afterLoad s handle path library).2 := by
  unfold AnticPlugin.afterLoad
  rcases reserve_cases s handle none path with ⟨heq, -⟩ | ⟨i, -, ⟨heq, -⟩ | ⟨e, -, heq⟩⟩
  · rw [heq]
    exact h.counts (counts_message s _)
  · rw [heq]
    exact (h.unload handle).counts (counts_message _ _)
  · rw [heq]
    exact h.counts ((counts_addLive s i 1).trans (counts_built _ i e))

theorem Books.provider (h : Books s) (hok : s.Ok) (w : World) (path library dirs : Text) :
    Books (pluginProvider w s path library dirs).2 := by
  unfold pluginProvider
  have hstart := h.counts (counts_message s none)
  cases chosen w path library dirs with
  | error r => exact hstart.counts (counts_message _ _)
  | ok name =>
    have hload := hstart.load (hok.of_slots rfl) w name
    dsimp only
    generalize pluginLoad w { s with message := none } name = r at hload
    rcases r with ⟨_ | handle, s'⟩
    · exact hload
    · exact hload.afterLoad handle path name

/-- **The accounts are right in every run of the calls**: as many slots are used as the count says,
    a handle was opened as often as it was closed and is held, and no two slots hold one table. -/
theorem Reachable.books (h : Reachable s) : Books s := by
  induction h with
  | start =>
    refine ⟨?_, fun _ => ?_, fun i hi => absurd rfl hi, fun i _ hi => absurd rfl hi⟩
    · simp [State.start, State.total, Plugin.inUse, Plugin.blank]
    · simp [State.start, State.total, Plugin.blank]
  | load w s path hs ih => exact ih.load hs.ok w path
  | instance_ s handle d _ ih => exact ih.counts (counts_instance s handle d)
  | provider w s path library dirs hs ih => exact ih.provider hs.ok w path library dirs
  | unload s handle _ ih => exact ih.unload handle
  | count s base delta _ ih => exact ih.counts (counts_count s base delta)

theorem books_of_load : (pluginLoad argumentsWorld .start [97]).2.openCount = 1 ∧
    Books (pluginLoad argumentsWorld .start [97]).2 :=
  ⟨rfl, Reachable.books (.load argumentsWorld .start [97] .start)⟩

-- ── Live objects ────

/-- The libraries with live objects stay open. -/
def KeepsLive (s s' : State) : Prop :=
  ∀ i, (s.slots i).used ≠ 0 → (s.slots i).live ≠ 0 → (s'.slots i).held = (s.slots i).held

theorem Counts.keepsLive (h : Counts s s') : KeepsLive s s' := fun i _ _ => h.held i

theorem keepsLive_unload (handle : ℕ) : KeepsLive s (pluginUnload s handle).2 := by
  intro j _ hlive
  unfold pluginUnload
  cases hslot : slotOf { s with message := none } handle with
  | none =>
    simp only [hslot]
    rfl
  | some i =>
    simp only [hslot]
    by_cases hj : j = i
    · rw [if_pos (hj ▸ hlive)]
      rfl
    · split_ifs
      · rfl
      · exact (counts_loads s i _).held j
      · have hother : (update s.slots i .blank j).held = (s.slots j).held := by
          rw [update_of_ne hj]
        cases (s.slots i).handle <;> exact hother

/-- A load changes the count of loads of the slots that are used. -/
theorem load_used (w : World) (path : Text) (hused : (s.slots i).used ≠ 0) :
    ((pluginLoad w s path).2.slots i).held = (s.slots i).held ∧
      ((pluginLoad w s path).2.slots i).live = (s.slots i).live := by
  have hloads := pluginLoad_loads w s path
  generalize pluginLoad w s path = r at hloads
  cases hloads with
  | refused s' handles _ hslots => exact ⟨by rw [hslots], by rw [hslots]⟩
  | again s' handle table j _ _ hslots =>
    dsimp only
    rw [hslots]
    by_cases hj : i = j
    · rw [hj, update_self]
      exact ⟨rfl, rfl⟩
    · rw [update_of_ne hj]
      exact ⟨rfl, rfl⟩
  | fresh s' handle table j _ _ hfree hslots =>
    dsimp only
    have hne : i ≠ j := by
      rintro rfl
      exact hused (free_of_freeSlot hfree)
    rw [hslots, update_of_ne hne]
    exact ⟨rfl, rfl⟩

theorem keepsLive_afterLoad (handle : ℕ) (path library : Text) :
    KeepsLive s (AnticPlugin.afterLoad s handle path library).2 := by
  unfold AnticPlugin.afterLoad
  rcases reserve_cases s handle none path with ⟨heq, -⟩ | ⟨i, -, ⟨heq, -⟩ | ⟨e, -, heq⟩⟩
  · rw [heq]
    exact fun _ _ _ => rfl
  · rw [heq]
    exact keepsLive_unload handle
  · rw [heq]
    exact ((counts_addLive s i 1).trans (counts_built _ i e)).keepsLive

theorem keepsLive_provider (w : World) (path library dirs : Text) :
    KeepsLive s (pluginProvider w s path library dirs).2 := by
  intro i hused hlive
  unfold pluginProvider
  cases chosen w path library dirs with
  | error r => rfl
  | ok name =>
    obtain ⟨hheld, hsame⟩ := load_used (s := { s with message := none }) w name hused
    dsimp only
    generalize pluginLoad w { s with message := none } name = r at hheld hsame
    rcases r with ⟨_ | handle, s'⟩
    · exact hheld
    · refine (keepsLive_afterLoad handle path name i ?_ ?_).trans hheld
      · exact fun h => hused ((congrArg Prod.fst hheld).symm.trans h)
      · exact fun h => hlive (hsame.symm.trans h)

/-- **A library with a live object stays open**, whatever is called and whatever the hooks count. -/
theorem live_library_stays (s : State) : (∀ w path, KeepsLive s (pluginLoad w s path).2) ∧
      (∀ handle d, KeepsLive s (pluginInstance s handle d).2) ∧
      (∀ w path library dirs, KeepsLive s (pluginProvider w s path library dirs).2) ∧
      (∀ handle, KeepsLive s (pluginUnload s handle).2) ∧
      ∀ base delta, KeepsLive s (AnticPlugin.count s base delta) :=
  ⟨fun w path _ hused _ => (load_used w path hused).1,
    fun handle d => (counts_instance s handle d).keepsLive, keepsLive_provider,
    keepsLive_unload, fun base delta => (counts_count s base delta).keepsLive⟩

end AnticPlugin
