import Antic.LockRecordTakes

/-! # Runs of threads that take locks

    Along a run the table holds a record of exactly the orders of the run, and the stack of
    a thread the locks that it took and did not give back.  So a step gives a note about two
    locks if and only if it is the one that makes them a conflict. -/

namespace AnticLockRecords

open AnticCollection List Function

variable {τ : Type} [DecidableEq τ]

/-- What holds of a program after its events. -/
structure Kept (past : List (Event τ)) (s : Locks τ) : Prop where
  orders : s.orders.Sound
  recorded : ∀ a b, s.orders.Recorded a b ↔ Ordered a b past
  stack : ∀ t, (s.stack t).Sound
  holding : ∀ t l, l ∈ locksOf (s.stack t).held ↔ Holding t l past
  mode : ∀ t l, s.mode t l ≠ .free ↔ Holding t l past

variable {past : List (Event τ)} {s s' : Locks τ} {e : Event τ} {t : τ} {l : UInt64}

omit [DecidableEq τ] in
theorem kept_start : Kept [] (Locks.start : Locks τ) := by
  refine ⟨Orders.sound_empty, ?_, ?_, ?_, ?_⟩
  · intro a b
    constructor
    · rintro ⟨x, hx, -⟩
      exact absurd hx Orders.not_has_empty
    · exact False.elim
  · intro t
    exact ⟨rfl, Nat.zero_le _, nodup_nil, fun h hh => absurd hh not_mem_nil⟩
  · intro t l
    exact ⟨fun hmem => absurd hmem not_mem_nil, False.elim⟩
  · intro t l
    exact ⟨fun hne => absurd rfl hne, False.elim⟩

-- ── The states of the threads ────

theorem setMode_self (m : Mode) : (s.setMode t l m).mode t l = m := by
  show update s.mode t (update (s.mode t) l m) t l = m
  rw [update_self, update_self]

theorem setMode_of_ne (m : Mode) {u : τ} {k : UInt64} (h : ¬ (t = u ∧ l = k)) :
    (s.setMode t l m).mode u k = s.mode u k := by
  show update s.mode t (update (s.mode t) l m) u k = s.mode u k
  by_cases hu : u = t
  · subst hu
    rw [update_self, update_of_ne]
    rintro rfl
    exact h ⟨rfl, rfl⟩
  · rw [update_of_ne hu]

theorem setStack_self (k : Stack) : (s.setStack t k).stack t = k := update_self ..

theorem setStack_of_ne (k : Stack) {u : τ} (h : u ≠ t) :
    (s.setStack t k).stack u = s.stack u := update_of_ne h ..

-- ── What one step keeps ────

variable {notes : List Note} {a b : UInt64}

/-- **A thread takes a lock** that it does not hold. -/
theorem Kept.took (h : Kept past s) {o : Orders} {site : String} {m : Mode} (hlock : IsLock l)
    (hnew : ¬ Holding t l past) (hroom : (s.stack t).count < HELD_MAX) (hm : m ≠ .free)
    (hs : o.Sound) (hrec : ∀ a b, o.Recorded a b ↔
      s.orders.Recorded a b ∨ (a ∈ locksOf (s.stack t).held ∧ b = l)) :
    Kept (.took t l notes :: past)
      (({ s with orders := o }.setStack t ((s.stack t).push l site)).setMode t l m) := by
  have hnot : l ∉ locksOf (s.stack t).held := fun hmem => hnew ((h.holding t l).mp hmem)
  obtain ⟨hpush, hlocks⟩ := (h.stack t).push site hlock hnot hroom
  refine ⟨hs, ?_, ?_, ?_, ?_⟩
  · intro a b
    show o.Recorded a b ↔ (l = b ∧ Holding t a past) ∨ Ordered a b past
    rw [hrec, h.recorded, h.holding]
    constructor
    · rintro (hab | ⟨ha, rfl⟩)
      · exact Or.inr hab
      · exact Or.inl ⟨rfl, ha⟩
    · rintro (⟨rfl, ha⟩ | hab)
      · exact Or.inr ⟨ha, rfl⟩
      · exact Or.inl hab
  · intro u
    show (({ s with orders := o }.setStack t ((s.stack t).push l site)).stack u).Sound
    by_cases hu : u = t
    · rw [hu, setStack_self]
      exact hpush
    · rw [setStack_of_ne _ hu]
      exact h.stack u
  · intro u k
    show k ∈ locksOf (({ s with orders := o }.setStack t ((s.stack t).push l site)).stack u).held ↔
      (t = u ∧ l = k) ∨ Holding u k past
    by_cases hu : u = t
    · rw [hu, setStack_self, hlocks, h.holding]
      constructor
      · rintro (hk | rfl)
        · exact Or.inr hk
        · exact Or.inl ⟨rfl, rfl⟩
      · rintro (⟨-, rfl⟩ | hk)
        · exact Or.inr rfl
        · exact Or.inl hk
    · rw [setStack_of_ne _ hu]
      show k ∈ locksOf (s.stack u).held ↔ _
      rw [h.holding]
      exact ⟨Or.inr, fun hk => hk.resolve_left fun heq => hu heq.1.symm⟩
  · intro u k
    show _ ↔ (t = u ∧ l = k) ∨ Holding u k past
    by_cases huk : t = u ∧ l = k
    · obtain ⟨rfl, rfl⟩ := huk
      rw [setMode_self]
      exact iff_of_true hm (Or.inl ⟨rfl, rfl⟩)
    · rw [setMode_of_ne m huk]
      show s.mode u k ≠ .free ↔ _
      rw [h.mode]
      exact ⟨Or.inr, fun hk => hk.resolve_left huk⟩

/-- **A thread gives a lock back** that it holds. -/
theorem Kept.gave (h : Kept past s) (hhold : Holding t l past) :
    Kept (.gave t l :: past) ((s.setStack t ((s.stack t).give l)).setMode t l .free) := by
  obtain ⟨hgive, hlocks⟩ := (h.stack t).give ((h.holding t l).mpr hhold)
  refine ⟨h.orders, h.recorded, ?_, ?_, ?_⟩
  · intro u
    show ((s.setStack t ((s.stack t).give l)).stack u).Sound
    by_cases hu : u = t
    · rw [hu, setStack_self]
      exact hgive
    · rw [setStack_of_ne _ hu]
      exact h.stack u
  · intro u k
    show k ∈ locksOf ((s.setStack t ((s.stack t).give l)).stack u).held ↔
      ¬ (t = u ∧ l = k) ∧ Holding u k past
    by_cases hu : u = t
    · rw [hu, setStack_self, hlocks, h.holding]
      constructor
      · rintro ⟨hk, hne⟩
        exact ⟨fun heq => hne heq.2.symm, hk⟩
      · rintro ⟨hne, hk⟩
        exact ⟨hk, fun heq => hne ⟨rfl, heq.symm⟩⟩
    · rw [setStack_of_ne _ hu, h.holding]
      exact ⟨fun hk => ⟨fun heq => hu heq.1.symm, hk⟩, fun hk => hk.2⟩
  · intro u k
    show _ ↔ ¬ (t = u ∧ l = k) ∧ Holding u k past
    by_cases huk : t = u ∧ l = k
    · obtain ⟨rfl, rfl⟩ := huk
      rw [setMode_self]
      exact iff_of_false (fun hne => hne rfl) (fun hk => hk.1 ⟨rfl, rfl⟩)
    · rw [setMode_of_ne _ huk]
      show s.mode u k ≠ .free ↔ _
      rw [h.mode]
      exact ⟨fun hk => ⟨huk, hk⟩, fun hk => hk.2⟩

theorem Kept.quiet (h : Kept past s) {m : Mode} (hheld : s.mode t l ≠ .free) (hm : m ≠ .free) :
    Kept (.quiet :: past) (s.setMode t l m) := by
  refine ⟨h.orders, h.recorded, h.stack, h.holding, ?_⟩
  intro u k
  show _ ↔ Holding u k past
  by_cases huk : t = u ∧ l = k
  · obtain ⟨rfl, rfl⟩ := huk
    rw [setMode_self]
    exact iff_of_true hm ((h.mode t l).mp hheld)
  · rw [setMode_of_ne m huk]
    exact h.mode u k

omit [DecidableEq τ] in
/-- **A lock is destroyed.** -/
theorem Kept.destroyed (h : Kept past s) (hlock : IsLock l) : Kept (.destroyed l :: past)
      (if s.orders.capacity ≠ 0 then { s with orders := s.orders.orderForget l } else s) := by
  by_cases hcap : s.orders.capacity ≠ 0
  · rw [if_pos hcap]
    refine ⟨h.orders.forget hlock, ?_, h.stack, h.holding, h.mode⟩
    intro a b
    show (s.orders.orderForget l).Recorded a b ↔ l ≠ a ∧ l ≠ b ∧ Ordered a b past
    rw [Orders.recorded_forget, h.recorded]
    constructor
    · rintro ⟨hab, ha, hb⟩
      exact ⟨ha.symm, hb.symm, hab⟩
    · rintro ⟨ha, hb, hab⟩
      exact ⟨hab, ha.symm, hb.symm⟩
  · rw [if_neg hcap]
    refine ⟨h.orders, ?_, h.stack, h.holding, h.mode⟩
    intro a b
    show s.orders.Recorded a b ↔ l ≠ a ∧ l ≠ b ∧ Ordered a b past
    have hnone : ¬ s.orders.Recorded a b := by
      rintro ⟨x, ⟨-, i, hi, -⟩, -⟩
      rw [Decidable.not_not.mp hcap] at hi
      exact absurd hi (Nat.not_lt_zero i)
    exact iff_of_false hnone fun hab => hnone ((h.recorded a b).mpr hab.2.2)

omit [DecidableEq τ] in
/-- **A take makes its records** and gives a note for each clash. -/
theorem Kept.take (h : Kept past s) (site : String) (hlock : IsLock l) (hnew : ¬ Holding t l past) :
    ∃ o notes, orderTake s.orders (s.stack t) l site = .ok (o, (s.stack t).push l site, notes) ∧
      o.Sound ∧
      (∀ a b, o.Recorded a b ↔ s.orders.Recorded a b ∨ (a ∈ locksOf (s.stack t).held ∧ b = l)) ∧
      (∀ n ∈ notes, n.lock = l) ∧ (notes.map Note.held).Nodup ∧
      ∀ a, a ∈ notes.map Note.held ↔ a ∈ locksOf (s.stack t).held ∧ Clash s.orders l a :=
  orderTake_spec h.orders (h.stack t) site hlock fun hmem => hnew ((h.holding t l).mp hmem)

omit [DecidableEq τ] in
theorem not_holding_of_heldAlready (h : Kept past s) (ha : heldAlready (s.stack t) l = false) :
    ¬ Holding t l past := by
  intro hhold
  rw [heldAlready_iff.mpr ((h.holding t l).mpr hhold)] at ha
  cases ha

omit [DecidableEq τ] in
theorem not_holding_of_free (h : Kept past s) (hfree : s.mode t l = .free) :
    ¬ Holding t l past := fun hhold => (h.mode t l).mpr hhold hfree

omit [DecidableEq τ] in
theorem Kept.mode_ne (h : Kept past s) {m : Mode} (hmode : s.mode t l = m) (hm : m ≠ .free) :
    Holding t l past := (h.mode t l).mp (hmode ▸ hm)

/-- **One step keeps it.** -/
theorem Kept.step (h : Kept past s) (hstep : Step s e s') : Kept (e :: past) s' := by
  cases hstep with
  | @lockMutex t l site _ _ _ hidle hlock hheld hroom htake =>
    have hnew := not_holding_of_heldAlready h hheld
    obtain ⟨o, notes, hok, hs, hrec, -⟩ := h.take site hlock hnew
    rw [hok] at htake
    cases htake
    exact h.took hlock hnew hroom (fun hm => nomatch hm) hs hrec
  | getMutex hmode hfree
  | getObject hmode hfree
  | deepen hidle hmode
  | rise hidle hmode =>
    exact h.quiet (fun hne => nomatch hmode.symm.trans hne) (fun hm => nomatch hm)
  | unlockMutex hidle hmode => exact h.gave (h.mode_ne hmode (fun hm => nomatch hm))
  | @lockObject t l site _ _ _ hidle hlock hmode hroom htake =>
    have hnew := not_holding_of_free h hmode
    obtain ⟨o, notes, hok, hs, hrec, -⟩ := h.take site hlock hnew
    rw [hok] at htake
    cases htake
    exact h.took hlock hnew hroom (fun hm => nomatch hm) hs hrec
  | unlockObject hidle hmode => exact h.gave (h.mode_ne hmode (fun hm => nomatch hm))
  | destroy hlock => exact h.destroyed hlock

/-- **A run keeps it.** -/
theorem kept_of_run (hrun : Run past s) : Kept past s := by
  induction hrun with
  | start => exact kept_start
  | step _ hstep ih => exact ih.step hstep

-- ── The notes of a step ────

omit [DecidableEq τ] in
theorem conflict_comm (past : List (Event τ)) (a b : UInt64) :
    Conflict a b past ↔ Conflict b a past := and_comm

theorem about_comm : (fun n : Note => n.about a b) = fun n => n.about b a := by
  funext n
  exact Bool.or_comm ..

/-- Among notes about different locks, at most one is about a lock. -/
theorem filter_held (hnodup : (notes.map Note.held).Nodup) (a : UInt64) :
    (notes.filter fun n => n.held = a).length = if a ∈ notes.map Note.held then 1 else 0 := by
  rw [← hnodup.count, List.count, countP_map, countP_eq_length_filter]
  congr 1

/-- The step gives one note about the two locks if it makes them a conflict, and none if it
    does not. -/
def NotedOnce (past : List (Event τ)) (e : Event τ) (a b : UInt64) : Prop :=
  (Conflict a b (e :: past) ∧ ¬ Conflict a b past → (e.notesAbout a b).length = 1) ∧
  (¬ (Conflict a b (e :: past) ∧ ¬ Conflict a b past) → e.notesAbout a b = [])

omit [DecidableEq τ] in
theorem notedOnce_comm (h : NotedOnce past e a b) : NotedOnce past e b a := by
  have hnotes : e.notesAbout a b = e.notesAbout b a := by
    cases e with
    | took t l notes => exact congrArg (List.filter · notes) about_comm
    | gave t l => rfl
    | destroyed l => rfl
    | quiet => rfl
  rw [NotedOnce, ← hnotes, conflict_comm (e :: past) b a, conflict_comm past b a]
  exact h

omit [DecidableEq τ] in
theorem notedOnce_none (hnone : e.notesAbout a b = [])
    (hold : ∀ x y, Ordered x y (e :: past) → Ordered x y past) : NotedOnce past e a b := by
  refine ⟨?_, fun _ => hnone⟩
  rintro ⟨⟨hab, hba⟩, hnew⟩
  exact absurd ⟨hold a b hab, hold b a hba⟩ hnew

omit [DecidableEq τ] in
theorem notedOnce_taken (h : Kept past s) (hne : l ≠ a) (hlock : ∀ n ∈ notes, n.lock = l)
    (hnodup : (notes.map Note.held).Nodup) (hmem : ∀ b, b ∈ notes.map Note.held ↔
      b ∈ locksOf (s.stack t).held ∧ Clash s.orders l b) :
    NotedOnce past (.took t l notes) l a := by
  have hnotes : (Event.took t l notes).notesAbout l a = notes.filter fun n => n.held = a := by
    refine filter_congr ?_
    intro n hn
    rw [Note.about, hlock n hn, decide_eq_true rfl, decide_eq_false hne, Bool.true_and,
      Bool.false_and, Bool.or_false]
  have hgain : (Conflict l a (.took t l notes :: past) ∧ ¬ Conflict l a past) ↔
      a ∈ notes.map Note.held := by
    have hback : Ordered l a (.took t l notes :: past) ↔ Ordered l a past :=
      ⟨fun hab => hab.resolve_left fun heq => hne heq.1, Or.inr⟩
    rw [hmem, h.holding, Clash, h.recorded, h.recorded, Conflict, Conflict, hback]
    constructor
    · rintro ⟨⟨hla, hal⟩, hnew⟩
      have hnot : ¬ Ordered a l past := fun hold => hnew ⟨hla, hold⟩
      exact ⟨(hal.resolve_right hnot).2, hne.symm, hla, hnot⟩
    · rintro ⟨hhold, -, hla, hnot⟩
      exact ⟨⟨hla, Or.inl ⟨rfl, hhold⟩⟩, fun hboth => hnot hboth.2⟩
  rw [NotedOnce, hgain, hnotes]
  constructor
  · intro hin
    rw [filter_held hnodup, if_pos hin]
  · intro hout
    rw [← length_eq_zero_iff, filter_held hnodup, if_neg hout]

omit [DecidableEq τ] in
/-- **The notes of a take**, about any two locks. -/
theorem notedOnce_took (h : Kept past s) (hne : a ≠ b) (hlock : ∀ n ∈ notes, n.lock = l)
    (hnodup : (notes.map Note.held).Nodup) (hmem : ∀ b, b ∈ notes.map Note.held ↔
      b ∈ locksOf (s.stack t).held ∧ Clash s.orders l b) :
    NotedOnce past (.took t l notes) a b := by
  by_cases ha : l = a
  · subst ha
    exact notedOnce_taken h hne hlock hnodup hmem
  by_cases hb : l = b
  · subst hb
    exact notedOnce_comm (notedOnce_taken h hne.symm hlock hnodup hmem)
  have hnone : (Event.took t l notes).notesAbout a b = [] := by
    refine filter_eq_nil_iff.mpr ?_
    intro n hn
    rw [Note.about, hlock n hn, decide_eq_false ha, decide_eq_false hb]
    exact Bool.false_ne_true
  refine ⟨?_, fun _ => hnone⟩
  rintro ⟨⟨hab, hba⟩, hnew⟩
  have hab' := hab.resolve_left fun heq => hb heq.1
  have hba' := hba.resolve_left fun heq => ha heq.1
  exact absurd ⟨hab', hba'⟩ hnew

/-- **A step gives the notes of its conflicts.** -/
theorem Kept.noted (h : Kept past s) (hstep : Step s e s') (hne : a ≠ b) :
    NotedOnce past e a b := by
  cases hstep with
  | @lockMutex t l site _ _ _ hidle hlock hheld hroom htake =>
    obtain ⟨o, notes, hok, -, -, hnotes⟩ := h.take site hlock (not_holding_of_heldAlready h hheld)
    rw [hok] at htake
    cases htake
    exact notedOnce_took h hne hnotes.1 hnotes.2.1 hnotes.2.2
  | @lockObject t l site _ _ _ hidle hlock hmode hroom htake =>
    obtain ⟨o, notes, hok, -, -, hnotes⟩ := h.take site hlock (not_holding_of_free h hmode)
    rw [hok] at htake
    cases htake
    exact notedOnce_took h hne hnotes.1 hnotes.2.1 hnotes.2.2
  | destroy hlock => exact notedOnce_none rfl fun x y hxy => hxy.2.2
  | getMutex _ _ => exact notedOnce_none rfl fun x y hxy => hxy
  | unlockMutex _ _ => exact notedOnce_none rfl fun x y hxy => hxy
  | getObject _ _ => exact notedOnce_none rfl fun x y hxy => hxy
  | deepen _ _ => exact notedOnce_none rfl fun x y hxy => hxy
  | rise _ _ => exact notedOnce_none rfl fun x y hxy => hxy
  | unlockObject _ _ => exact notedOnce_none rfl fun x y hxy => hxy

-- ── The record of a run ────

/-- **The record of the orders of locks**: after any run the table is at most half full, a
    lookup ends and finds the orders of the run, a take ends, and the next step gives one
    note about two locks if it makes them a conflict, and none if it does not. -/
theorem orders_of_run (hrun : Run past s) : (s.orders.usedBelow s.orders.capacity ≤ s.orders.count ∧
      2 * s.orders.count ≤ s.orders.capacity) ∧
    (∀ a b, IsLock a → ∃ found, s.orders.orderFind a b = .ok found ∧
      (found.isSome ↔ Ordered a b past)) ∧
    (∀ t l site, IsLock l → ¬ Holding t l past →
      ∃ result, orderTake s.orders (s.stack t) l site = .ok result) ∧
    (∀ e s', Step s e s' → ∀ a b, a ≠ b → NotedOnce past e a b) := by
  have h := kept_of_run hrun
  refine ⟨⟨h.orders.good.used, h.orders.good.half⟩, ?_, ?_, ?_⟩
  · intro a b ha
    rcases h.orders.good.find (b := b) ha with ⟨i, hfind, hi, h1, h2⟩ | ⟨hfind, hnone⟩
    · refine ⟨some i, hfind, iff_of_true rfl ?_⟩
      exact (h.recorded a b).mp (Orders.recorded_iff.mpr ⟨ha, i, hi, h1, h2⟩)
    · refine ⟨none, hfind, iff_of_false Bool.false_ne_true ?_⟩
      exact fun hab => hnone ((h.recorded a b).mpr hab)
  · intro t l site hlock hnew
    obtain ⟨o, notes, hok, -⟩ := h.take site hlock hnew
    exact ⟨_, hok⟩
  · intro e s' hstep a b hne
    exact h.noted hstep hne

theorem Locks.Idle.setMode (h : s.Idle t) {m : Mode} (hm : m ≠ .mutexWait ∧ m ≠ .objectWait) :
    (s.setMode t l m).Idle t := by
  intro k
  by_cases hk : l = k
  · subst hk
    rw [setMode_self]
    exact hm
  · rw [setMode_of_ne m fun heq => hk heq.2]
    exact h k

theorem exists_lock (hrun : Run past s) (hidle : s.Idle t) (hlock : IsLock l) (site : String)
    (hheld : heldAlready (s.stack t) l = false) (hroom : (s.stack t).count < HELD_MAX)
    (hfree : ∀ u, s.mode u l ≠ .mutex) :
    ∃ o notes, Run (.quiet :: .took t l notes :: past)
      (({ s with orders := o }.setStack t ((s.stack t).push l site)).setMode t l .mutex) := by
  have hkept := kept_of_run hrun
  obtain ⟨o, notes, hok, -⟩ := hkept.take site hlock (not_holding_of_heldAlready hkept hheld)
  have hwait := hrun.step (Step.lockMutex hidle hlock hheld hroom hok)
  have hget := hwait.step (Step.getMutex (t := t) (setMode_self _) (by
    intro u
    by_cases hu : t = u
    · subst hu
      rw [setMode_self]
      exact fun hm => nomatch hm
    · rw [setMode_of_ne _ fun heq => hu heq.1]
      exact hfree u))
  refine ⟨o, notes, ?_⟩
  have hidem : ∀ r : Locks τ, (r.setMode t l .mutexWait).setMode t l .mutex =
      r.setMode t l .mutex := by
    intro r
    rw [Locks.setMode, Locks.setMode, Locks.setMode]
    simp only [update_self, update_idem]
  rw [hidem] at hget
  exact hget

/-- One thread takes two locks in one order, and another in the opposite order. -/
theorem exists_conflict : ∃ (past : List (Event Bool)) (s : Locks Bool) (e : Event Bool)
    (s' : Locks Bool), Run past s ∧ Step s e s' ∧
      Conflict 16 32 (e :: past) ∧ ¬ Conflict 16 32 past := by
  have hstart : ∀ t, (Locks.start : Locks Bool).Idle t :=
    fun t l => (by decide : Mode.free ≠ .mutexWait ∧ Mode.free ≠ .objectWait)
  have hmutex : Mode.mutex ≠ .mutexWait ∧ Mode.mutex ≠ .objectWait := by decide
  -- The first thread takes 16 and 32, and gives 32 back.
  obtain ⟨o₁, notes₁, hrun₁⟩ := exists_lock (t := false) (l := 16) Run.start (hstart false)
    (by decide) "a.anti:1" rfl (by decide) (by decide)
  have hidle₁ := (hstart false).setMode (l := 16) hmutex
  obtain ⟨o₂, notes₂, hrun₂⟩ := exists_lock (t := false) (l := 32) hrun₁ hidle₁
    (by decide) "a.anti:2" rfl (by decide : 1 < HELD_MAX) fun u => by
      cases u with
      | false => exact (by decide : Mode.free ≠ .mutex)
      | true => exact (by decide : Mode.free ≠ .mutex)
  have hidle₂ := hidle₁.setMode (l := 32) hmutex
  have hrun₃ := hrun₂.step (Step.unlockMutex (t := false) (l := 32) hidle₂ rfl)
  -- The second thread takes 32, and then 16.
  obtain ⟨o₄, notes₄, hrun₄⟩ := exists_lock (t := true) (l := 32) hrun₃ (hstart true)
    (by decide) "b.anti:1" rfl (by decide : 0 < HELD_MAX) fun u => by
      cases u with
      | false => exact (by decide : Mode.free ≠ .mutex)
      | true => exact (by decide : Mode.free ≠ .mutex)
  have hidle₄ := (hstart true).setMode (l := 32) hmutex
  have hkept := kept_of_run hrun₄
  obtain ⟨o₅, notes₅, hok, -⟩ := hkept.take (t := true) (l := 16) "b.anti:2" (by decide)
    (not_holding_of_heldAlready hkept rfl)
  refine ⟨_, _, _, _, hrun₄, Step.lockMutex hidle₄ (by decide) rfl (by decide : 1 < HELD_MAX) hok,
    ⟨?_, ?_⟩, ?_⟩
  · simp [Ordered, Holding]
  · simp [Ordered, Holding]
  · simp [Conflict, Ordered, Holding]

/-- The record of two threads. -/
theorem orders_of_two_threads : ∃ (past : List (Event Bool)) (s : Locks Bool) (e : Event Bool),
    Run past s ∧ 2 * s.orders.count ≤ s.orders.capacity ∧ (e.notesAbout 16 32).length = 1 := by
  obtain ⟨past, s, e, s', hrun, hstep, hnew, hold⟩ := exists_conflict
  obtain ⟨⟨-, hhalf⟩, -, -, hnotes⟩ := orders_of_run hrun
  exact ⟨past, s, e, hrun, hhalf, (hnotes e s' hstep 16 32 (by decide)).1 ⟨hnew, hold⟩⟩

end AnticLockRecords
