import Antic.ChannelProofs

/-! # No wake-up is lost

    A receiver that sleeps on `NOT_EMPTY` is covered: as many receivers have a wake pending as the
    channel holds values.  For the senders and `NOT_FULL` it is the free slots.

    A select WATCHES a channel that it has found empty since it counted itself, until it is woken.
    The invariant of the handshake is that a channel that is watched and has become ready has a
    `send` or a `close` on its way to wake the selects: the counter keeps it from turning back
    before it has the lock, and the lock keeps it from waking before the watcher sleeps. -/

namespace AnticSync

open Interleaving Function

section Wakes

variable {τ ι V : Type*} [DecidableEq ι]

/-! ## Receivers and senders -/

theorem notEmpty_blind (c : ι) {other : Condition (Pc ι V)} (h : IsCondition other) :
    (notEmpty c).Blind other := by
  cases h with
  | notEmpty d => rintro (_ | _ | ⟨e, _ | _ | _⟩ | _ | _ | _ | _) h <;> simp_all [notEmpty]
  | notFull d => rintro (_ | _ | _ | _ | _ | _ | _) h <;> simp_all [notEmpty, notFull]
  | selectReady => rintro (_ | _ | _ | _ | _ | _ | _) h <;> simp_all [notEmpty, selectReady]

theorem notFull_blind (c : ι) {other : Condition (Pc ι V)} (h : IsCondition other) :
    (notFull c).Blind other := by
  cases h with
  | notEmpty d => rintro (_ | _ | _ | _ | _ | _ | _) h <;> simp_all [notEmpty, notFull]
  | notFull d => rintro (_ | ⟨e, _, _ | _ | _⟩ | _ | _ | _ | _ | _) h <;> simp_all [notFull]
  | selectReady => rintro (_ | _ | _ | _ | _ | _ | _) h <;> simp_all [notFull, selectReady]

theorem Pc.entry_not_asleep {p : Pc ι V} (h : p.entry = true) (c : ι) :
    (notEmpty c).asleep p = false ∧ (notFull c).asleep p = false := by
  rcases p with _ | ⟨_, _, _ | _ | _⟩ | ⟨_, _ | _ | _⟩ | _ | _ | _ | _ <;>
    simp_all [Pc.entry, notEmpty, notFull]

variable {s s' : State τ ι V} {a : Act τ ι V}

/-- The thread that closes a channel is in neither of its wait sets. -/
theorem close_self {c d : ι} {t : τ} (hpc : s.pcs t = .close d) :
    wakeAll (notFull c) (wakeAll (notEmpty c) s.pcs) t = s.pcs t := by
  have he : wakeAll (notEmpty c) s.pcs t = s.pcs t := wakeAll_of_not_asleep (by rw [hpc]; rfl)
  rw [wakeAll_of_not_asleep, he]
  rw [he, hpc]
  rfl

variable [DecidableEq τ]

/-- A `take` of channel `d` by a thread that waits for no other channel. -/
theorem recv_covered_taken {c d : ι} {t : τ} {pcs : τ → Pc ι V}
    (h : Covered (notEmpty c) s.pcs (s.chans c).count)
    (hcount : 0 < (s.chans d).count) (hwake : WakeOne (notFull d) s.pcs pcs)
    (hself : (notFull d).asleep (s.pcs t) = false)
    (hother : c ≠ d → (notEmpty c).woken (s.pcs t) = false) :
    Covered (notEmpty c) (s.taken t d pcs .outside).pcs
      ((s.taken t d pcs .outside).chans c).count := by
  have hw := h.of_wakeOne (notEmpty_blind c (.notFull d)) hwake
  by_cases hcd : c = d
  · subst hcd
    obtain ⟨n, hn⟩ : ∃ n, (s.chans c).count = n + 1 := ⟨(s.chans c).count - 1, by omega⟩
    have hleft : ((s.taken t c pcs .outside).chans c).count = n := by
      simp [State.taken, Channel.take, hn]
    rw [hleft]
    rw [hn] at hw
    exact hw.leave rfl
  · have hkeep : ((s.taken t d pcs .outside).chans c).count = (s.chans c).count := by
      simp [State.taken, hcd]
    rw [hkeep]
    exact hw.update (by rw [hwake.self hself]; exact hother hcd) rfl

/-- While a receiver sleeps, the woken ones are as many as the values. -/
theorem Step.recv_covered (hs : Step s a s') (c : ι)
    (h : Covered (notEmpty c) s.pcs (s.chans c).count) :
    Covered (notEmpty c) s'.pcs (s'.chans c).count := by
  cases hs with
  | call t p hpc hp => exact h.update (by simp [notEmpty, hpc]) (Pc.entry_not_asleep hp c).1
  | sendPut t d v w pcs hpc _ _ _ hwake =>
    have hnot : (notEmpty c).woken (pcs t) = false := by
      rw [hwake.self (by simp [notEmpty, hpc]), hpc]
      rfl
    by_cases hcd : c = d
    · subst hcd
      simpa [Channel.put] using (h.wakeOne hwake).update hnot rfl
    · simpa [hcd] using (h.of_wakeOne (notEmpty_blind c (.notEmpty d)) hwake).update hnot rfl
  | recvWait t d w hpc _ hcount _ =>
    by_cases hcd : c = d
    · -- it sleeps because there is nothing to cover
      subst hcd
      rw [State.goto_chans, hcount]
      exact .zero
    · exact h.update (by cases w <;> simp [notEmpty, hpc, Ne.symm hcd])
        (by simp [notEmpty, Ne.symm hcd])
  | recvTake t d w pcs hpc _ hcount hwake =>
    exact recv_covered_taken h hcount hwake (by simp [notFull, hpc])
      fun hcd => by cases w <;> simp [notEmpty, hpc, Ne.symm hcd]
  | recvEnded t d w hpc _ hcount _ =>
    by_cases hcd : c = d
    · subst hcd
      rw [State.goto_chans, hcount]
      exact .zero
    · exact h.update (by cases w <;> simp [notEmpty, hpc, Ne.symm hcd]) rfl
  | close t d hpc =>
    have hw := (h.of_wakeAll (notEmpty_blind c (.notEmpty d))).of_wakeAll
      (notEmpty_blind c (.notFull d))
    have hcount : (update s.chans d (s.chans d).close c).count = (s.chans c).count := by
      by_cases hcd : c = d
      · subst hcd
        simp [Channel.close]
      · simp [hcd]
    simp only [State.goto_chans, State.setChan_chans, hcount]
    refine hw.update ?_ rfl
    rw [close_self hpc, hpc]
    rfl
  | heldTake t d pcs hpc hcount hwake
  | armTake t arms start k d pcs hpc _ _ hcount hwake =>
    exact recv_covered_taken h hcount hwake (by simp [notFull, hpc])
      fun _ => by simp [notEmpty, hpc]
  | wakeSelects t d hpc _ =>
    refine (h.of_wakeAll (notEmpty_blind c .selectReady)).update ?_ rfl
    rw [wakeAll_of_not_asleep] <;> simp [notEmpty, selectReady, hpc]
  | stir t other hother ht => exact h.of_wakeOne (notEmpty_blind c hother) (Or.inr ⟨t, ht, rfl⟩)
  | callNull | sendClosed | armNull => exact h
  | _ => exact h.update (by simp [notEmpty, *]) rfl

theorem send_covered_taken {c d : ι} {t : τ} {pcs : τ → Pc ι V}
    (h : Covered (notFull c) s.pcs ((s.chans c).capacity - (s.chans c).count))
    (hok : (s.chans d).Ok) (hcount : 0 < (s.chans d).count)
    (hwake : WakeOne (notFull d) s.pcs pcs)
    (hself : (notFull d).asleep (s.pcs t) = false)
    (hnot : (notFull c).woken (s.pcs t) = false) :
    Covered (notFull c) (s.taken t d pcs .outside).pcs
      (((s.taken t d pcs .outside).chans c).capacity -
        ((s.taken t d pcs .outside).chans c).count) := by
  have hnot' : (notFull c).woken (pcs t) = false := by
    rw [hwake.self hself]
    exact hnot
  by_cases hcd : c = d
  · subst hcd
    have hfree : ((s.taken t c pcs .outside).chans c).capacity -
        ((s.taken t c pcs .outside).chans c).count =
        (s.chans c).capacity - (s.chans c).count + 1 := by
      have := hok.count_le
      simp [State.taken, Channel.take]
      omega
    rw [hfree]
    exact (h.wakeOne hwake).update hnot' rfl
  · have hkeep : (s.taken t d pcs .outside).chans c = s.chans c := by
      simp [State.taken, hcd]
    rw [hkeep]
    exact (h.of_wakeOne (notFull_blind c (.notFull d)) hwake).update hnot' rfl

/-- While a sender sleeps, the woken ones are as many as the free slots. -/
theorem Step.send_covered (hs : Step s a s') (hok : ∀ c, (s.chans c).Ok) (c : ι)
    (h : Covered (notFull c) s.pcs ((s.chans c).capacity - (s.chans c).count)) :
    Covered (notFull c) s'.pcs ((s'.chans c).capacity - (s'.chans c).count) := by
  cases hs with
  | call t p hpc hp => exact h.update (by simp [notFull, hpc]) (Pc.entry_not_asleep hp c).2
  | sendWait t d v w hpc _ hcount _ =>
    by_cases hcd : c = d
    · -- it sleeps because there is nothing to cover
      subst hcd
      rw [State.goto_chans, hcount, Nat.sub_self]
      exact .zero
    · exact h.update (by cases w <;> simp [notFull, hpc, Ne.symm hcd])
        (by simp [notFull, Ne.symm hcd])
  | sendPut t d v w pcs hpc _ hcount _ hwake =>
    have hw := h.of_wakeOne (notFull_blind c (.notEmpty d)) hwake
    by_cases hcd : c = d
    · subst hcd
      have hle := (hok c).count_le
      obtain ⟨n, hn⟩ : ∃ n, (s.chans c).capacity - (s.chans c).count = n + 1 :=
        ⟨(s.chans c).capacity - (s.chans c).count - 1, by omega⟩
      rw [hn] at hw
      have hfree : (s.chans c).capacity - ((s.chans c).count + 1) = n := by omega
      simpa [Channel.put, hfree] using hw.leave rfl
    · have hnot : (notFull c).woken (pcs t) = false := by
        rw [hwake.self (by simp [notEmpty, hpc]), hpc]
        cases w <;> simp [notFull, Ne.symm hcd]
      simpa [hcd] using hw.update hnot rfl
  | recvTake t d w pcs hpc _ hcount hwake
  | heldTake t d pcs hpc hcount hwake
  | armTake t arms start k d pcs hpc _ _ hcount hwake =>
    exact send_covered_taken h (hok d) hcount hwake (by simp [notFull, hpc])
      (by simp [notFull, hpc])
  | close t d hpc =>
    have hw := (h.of_wakeAll (notFull_blind c (.notEmpty d))).of_wakeAll
      (notFull_blind c (.notFull d))
    have hfree : (update s.chans d (s.chans d).close c).capacity -
        (update s.chans d (s.chans d).close c).count =
        (s.chans c).capacity - (s.chans c).count := by
      by_cases hcd : c = d
      · subst hcd
        simp [Channel.close]
      · simp [hcd]
    simp only [State.goto_chans, State.setChan_chans, hfree]
    refine hw.update ?_ rfl
    rw [close_self hpc, hpc]
    rfl
  | wakeSelects t d hpc _ =>
    refine (h.of_wakeAll (notFull_blind c .selectReady)).update ?_ rfl
    rw [wakeAll_of_not_asleep] <;> simp [notFull, selectReady, hpc]
  | stir t other hother ht => exact h.of_wakeOne (notFull_blind c hother) (Or.inr ⟨t, ht, rfl⟩)
  | callNull | sendClosed | armNull => exact h
  | _ => exact h.update (by simp [notFull, *]) rfl

/-- Who sleeps on a condition of channel `c` slept there before, or has gone to
    sleep in this step and found the channel open. -/
theorem Step.asleep_before (hs : Step s a s') {c : ι} {cond : Condition (Pc ι V)}
    (hc : cond = notEmpty c ∨ cond = notFull c) {t : τ}
    (ht : cond.asleep (s'.pcs t) = true) :
    cond.asleep (s.pcs t) = true ∨ (s.chans c).closed = false ∧ s'.chans = s.chans := by
  have hblind : ∀ other, IsCondition other → cond.Blind other := by
    intro other hother
    rcases hc with rfl | rfl
    · exact notEmpty_blind c hother
    · exact notFull_blind c hother
  have hawake : ∀ p : Pc ι V, (∀ d v w, p ≠ .send d v w) →
      (∀ d w, p ≠ .recv d w) → cond.asleep p = false := by
    intro p h1 h2
    rcases hc with rfl | rfl <;> cases p <;> simp_all [notEmpty, notFull]
  cases hs with
  | call u p hpc hp =>
    have hp : cond.asleep p = false := by
      rcases hc with rfl | rfl
      · exact (Pc.entry_not_asleep hp c).1
      · exact (Pc.entry_not_asleep hp c).2
    exact Or.inl (cond.asleep_of_update hp ht)
  | sendWait u d v w hpc _ _ hopen | recvWait u d w hpc _ _ hopen =>
    by_cases hcd : d = c
    · subst hcd
      exact Or.inr ⟨hopen, rfl⟩
    · refine Or.inl (cond.asleep_of_update ?_ ht)
      rcases hc with rfl | rfl <;> simp [notEmpty, notFull, hcd]
  | sendPut u d v w pcs _ _ _ _ hwake =>
    have hp := cond.asleep_of_update (hawake _ (by simp) (by simp)) ht
    exact Or.inl ((hblind _ (.notEmpty d)).asleep_wakeOne hwake hp)
  | recvTake u d w pcs _ _ _ hwake
  | heldTake u d pcs _ _ hwake
  | armTake u arms start k d pcs _ _ _ _ hwake =>
    have hp := cond.asleep_of_update (hawake _ (by simp) (by simp)) ht
    exact Or.inl ((hblind _ (.notFull d)).asleep_wakeOne hwake hp)
  | close u d _ =>
    have hp := cond.asleep_of_update (hawake _ (by simp) (by simp)) ht
    exact Or.inl ((hblind _ (.notEmpty d)).asleep_wakeAll
      ((hblind _ (.notFull d)).asleep_wakeAll hp))
  | wakeSelects u d _ _ =>
    have hp := cond.asleep_of_update (hawake _ (by simp) (by simp)) ht
    exact Or.inl ((hblind _ .selectReady).asleep_wakeAll hp)
  | stir u other hother hu =>
    exact Or.inl ((hblind _ hother).asleep_wakeOne (Or.inr ⟨u, hu, rfl⟩) ht)
  | callNull | sendClosed | armNull => exact Or.inl ht
  | _ => exact Or.inl (cond.asleep_of_update (hawake _ (by simp) (by simp)) ht)

/-- Nobody sleeps on the conditions of a closed channel. -/
def ClosedAwake (s : State τ ι V) : Prop :=
  ∀ c, (s.chans c).closed = true → ∀ t,
    (notEmpty c).asleep (s.pcs t) = false ∧ (notFull c).asleep (s.pcs t) = false

theorem Step.close_wakes {c : ι} {t u : τ} (hs : Step s (.close u c) s') :
    (notEmpty c).asleep (s'.pcs t) = false ∧ (notFull c).asleep (s'.pcs t) = false := by
  cases hs with
  | close _ _ hpc =>
    constructor
    · by_contra h
      have h := (notEmpty c).asleep_of_update rfl (by simpa using h)
      have h := (notEmpty_blind c (.notFull c)).asleep_wakeAll h
      rw [not_asleep_wakeAll] at h
      exact absurd h (by decide)
    · by_contra h
      have h := (notFull c).asleep_of_update rfl (by simpa using h)
      rw [not_asleep_wakeAll] at h
      exact absurd h (by decide)

theorem ClosedAwake.step (h : ClosedAwake s) (hs : Step s a s') : ClosedAwake s' := by
  intro c hclosed t
  by_cases hclose : ∃ u, a = .close u c
  · obtain ⟨u, rfl⟩ := hclose
    exact hs.close_wakes
  · -- the channel was closed before, so nobody has gone to sleep
    have hbefore : (s.chans c).closed = true := by
      have hc := hs.chan c
      generalize s'.chans c = ch at hc hclosed
      cases hc with
      | put _ _ _ hopen => exact hclosed
      | take _ _ => exact hclosed
      | close u => exact absurd ⟨u, rfl⟩ hclose
      | keep _ _ => exact hclosed
    obtain ⟨hr, hf⟩ := h c hbefore t
    constructor
    · by_contra hn
      rcases hs.asleep_before (Or.inl rfl) (by simpa using hn) with ha | ⟨ho, _⟩
      · simp [hr] at ha
      · simp [hbefore] at ho
    · by_contra hn
      rcases hs.asleep_before (Or.inr rfl) (by simpa using hn) with ha | ⟨ho, _⟩
      · simp [hf] at ha
      · simp [hbefore] at ho

end Wakes

/-! ## Selects -/

section Selects

variable {τ ι V : Type*}

/-- A select that has counted itself in `waiting`. -/
def Pc.counted : Pc ι V → Bool
  | .select _ .hold | .select _ (.look _) | .select _ .asleep | .select _ .woken
  | .select _ .release | .select _ .uncount => true
  | _ => false

/-- A select that holds the lock of the selects. -/
def Pc.holds : Pc ι V → Bool
  | .select _ (.look _) | .select _ .release => true
  | _ => false

/-- A select that has found `c` empty and open since it counted itself, and that
    no wake has told otherwise. -/
def Pc.watches (c : ι) : Pc ι V → Prop
  | .select arms (.look i) => some c ∈ arms.take i
  | .select arms .asleep => some c ∈ arms
  | _ => False

/-- What a wake keeps of a thread. -/
structure Kept (p p' : Pc ι V) : Prop where
  counted : p'.counted = p.counted
  holds : p'.holds = p.holds
  watches : ∀ c, p'.watches c → p.watches c
  wake : ∀ c k, p = .wake c k → p' = p

theorem Kept.refl (p : Pc ι V) : Kept p p := ⟨rfl, rfl, fun _ h => h, fun _ _ _ => rfl⟩

theorem Kept.trans {p q r : Pc ι V} (h : Kept p q) (h' : Kept q r) : Kept p r := by
  refine ⟨h'.counted.trans h.counted, h'.holds.trans h.holds,
    fun c hc => h.watches c (h'.watches c hc), fun c k hp => ?_⟩
  have hq := h.wake c k hp
  rw [h'.wake c k (hq.trans hp), hq]

/-- What the selects share. -/
structure Selects (s : State τ ι V) : Prop where
  counted : ∃ selects : Finset τ, s.waiting = selects.card ∧
    ∀ t, t ∈ selects ↔ (s.pcs t).counted = true
  holder : ∀ t, (s.pcs t).holds = true → s.holder = some t
  watched : ∀ t c, (s.pcs t).watches c → (s.chans c).ready → ∃ u k, s.pcs u = .wake c k

theorem Selects.not_watches {s : State τ ι V} (h : Selects s)
    (hw : ¬ 0 < s.waiting) (t : τ) (c : ι) : ¬ (s.pcs t).watches c := by
  intro ht
  obtain ⟨selects, hcard, hmem⟩ := h.counted
  have hc : (s.pcs t).counted = true := by
    rcases hp : s.pcs t with _ | _ | _ | _ | _ | _ | ⟨_, _ | _ | _ | _ | _ | _ | _ | _ | _⟩ <;>
      simp_all [Pc.counted, Pc.watches]
  have := Finset.card_pos.2 ⟨t, (hmem t).2 hc⟩
  omega

theorem Pc.watches_cases {p : Pc ι V} {c : ι} (h : p.watches c) :
    p.holds = true ∨ ∃ arms, p = .select arms .asleep := by
  cases p with
  | select arms k =>
    cases k with
    | look i => exact Or.inl rfl
    | asleep => exact Or.inr ⟨arms, rfl⟩
    | _ => exact h.elim
  | _ => exact h.elim

section Moves

variable [DecidableEq τ] {s s' : State τ ι V}

/-- All that a step does to the selects: thread `t` goes to `p`, after a wake that
    leaves the threads as `pcs` has them. -/
structure Moves (s s' : State τ ι V) (t : τ) (p : Pc ι V) (pcs : τ → Pc ι V) :
    Prop where
  goes : s'.pcs = update pcs t p
  kept : ∀ u, Kept (s.pcs u) (pcs u)
  counted : (p.counted = (s.pcs t).counted ∧ s'.waiting = s.waiting) ∨
    ((s.pcs t).counted = false ∧ p.counted = true ∧ s'.waiting = s.waiting + 1) ∨
    ((s.pcs t).counted = true ∧ p.counted = false ∧ s'.waiting = s.waiting - 1)
  holder : (p.holds = (s.pcs t).holds ∧ s'.holder = s.holder) ∨
    (s.holder = none ∧ s'.holder = some t) ∨
    ((s.pcs t).holds = true ∧ p.holds = false)
  /-- A channel that becomes ready has its `send` or `close` on the way. -/
  ready : ∀ c, (s'.chans c).ready → (s.chans c).ready ∨ ∃ k, p = .wake c k
  /-- A channel newly watched was found empty and open. -/
  watches : ∀ c, p.watches c → (s'.chans c).ready → (s.pcs t).watches c
  /-- The way of a `send` or a `close` ends when no select is counted, or when it
      has woken them all. -/
  wake : ∀ c k, s.pcs t = .wake c k → (∃ k', p = .wake c k') ∨ ¬ 0 < s.waiting ∨
    (s.holder = none ∧ ∀ u arms, pcs u ≠ .select arms .asleep)

variable {pcs : τ → Pc ι V}

theorem Moves.plain {t : τ} {p : Pc ι V} (hpcs : s'.pcs = update pcs t p)
    (hkept : ∀ u, Kept (s.pcs u) (pcs u)) (hwaiting : s'.waiting = s.waiting)
    (hholder : s'.holder = s.holder) (hcounted : p.counted = (s.pcs t).counted)
    (hholds : p.holds = (s.pcs t).holds)
    (hready : ∀ c, (s'.chans c).ready → (s.chans c).ready ∨ ∃ k, p = .wake c k)
    (hwatches : ∀ c, p.watches c → (s'.chans c).ready → (s.pcs t).watches c)
    (hwake : ∀ c k, s.pcs t = .wake c k → ∃ k', p = .wake c k') : Moves s s' t p pcs :=
  ⟨hpcs, hkept, Or.inl ⟨hcounted, hwaiting⟩, Or.inl ⟨hholds, hholder⟩, hready,
    hwatches, fun c k h => Or.inl (hwake c k h)⟩

theorem Moves.counted_step {t : τ} {p : Pc ι V} (hm : Moves s s' t p pcs) (h : Selects s) :
    ∃ selects : Finset τ, s'.waiting = selects.card ∧
      ∀ u, u ∈ selects ↔ (s'.pcs u).counted = true := by
  obtain ⟨selects, hcard, hmem⟩ := h.counted
  have hself : (s'.pcs t).counted = p.counted := by
    rw [hm.goes, update_self]
  have hother : ∀ u, u ≠ t → (s'.pcs u).counted = (s.pcs u).counted := by
    intro u hu
    rw [hm.goes, update_of_ne hu, (hm.kept u).counted]
  rcases hm.counted with ⟨hsame, hw⟩ | ⟨hout, hin, hw⟩ | ⟨hin, hout, hw⟩
  · refine ⟨selects, hw.trans hcard, fun u => ?_⟩
    by_cases hu : u = t
    · subst hu
      rw [hself, hsame]
      exact hmem u
    · rw [hother u hu]
      exact hmem u
  · refine ⟨insert t selects, ?_, fun u => ?_⟩
    · have hnot : t ∉ selects := fun ht => by
        rw [hmem, hout] at ht
        exact absurd ht (by decide)
      rw [hw, hcard, Finset.card_insert_of_notMem hnot]
      rfl
    · by_cases hu : u = t
      · subst hu
        simp [hself, hin]
      · rw [hother u hu, Finset.mem_insert, hmem]
        simp [hu]
  · refine ⟨selects.erase t, ?_, fun u => ?_⟩
    · have hmem' : t ∈ selects := (hmem t).2 hin
      have hpos := Finset.card_pos.2 ⟨t, hmem'⟩
      rw [hw, hcard, Finset.card_erase_of_mem hmem']
      omega
    · by_cases hu : u = t
      · subst hu
        simp [hself, hout]
      · rw [hother u hu, Finset.mem_erase, hmem]
        simp [hu]

theorem Moves.holder_step {t : τ} {p : Pc ι V} (hm : Moves s s' t p pcs)
    (h : Selects s) {u : τ} (hu : (s'.pcs u).holds = true) : s'.holder = some u := by
  have hself : (s'.pcs t).holds = p.holds := by
    rw [hm.goes, update_self]
  have hother : u ≠ t → (s.pcs u).holds = true := by
    intro hne
    rwa [hm.goes, update_of_ne hne, (hm.kept u).holds] at hu
  rcases hm.holder with ⟨hsame, hh⟩ | ⟨hnone, hh⟩ | ⟨hin, hout⟩
  · rw [hh]
    by_cases hne : u = t
    · subst hne
      rw [hself, hsame] at hu
      exact h.holder u hu
    · exact h.holder u (hother hne)
  · by_cases hne : u = t
    · subst hne
      exact hh
    · have := h.holder u (hother hne)
      rw [hnone] at this
      exact absurd this (by simp)
  · by_cases hne : u = t
    · subst hne
      rw [hself, hout] at hu
      exact absurd hu (by decide)
    · -- two threads would hold the lock
      have h1 := h.holder t hin
      rw [h.holder u (hother hne)] at h1
      exact absurd (Option.some.inj h1) hne

/-- What is watched and ready has a wake on the way, after a step. -/
theorem Moves.watched_step {t : τ} {p : Pc ι V} (hm : Moves s s' t p pcs)
    (h : Selects s) {u : τ} {c : ι} (hu : (s'.pcs u).watches c)
    (hready : (s'.chans c).ready) : ∃ v k, s'.pcs v = .wake c k := by
  have hself : s'.pcs t = p := by rw [hm.goes, update_self]
  have hother : ∀ v, v ≠ t → s'.pcs v = pcs v := fun v hv => by
    rw [hm.goes, update_of_ne hv]
  have hbefore : (s.pcs u).watches c := by
    by_cases hne : u = t
    · subst hne
      rw [hself] at hu
      exact hm.watches c hu hready
    · rw [hother u hne] at hu
      exact (hm.kept u).watches c hu
  rcases hm.ready c hready with hr | ⟨k, hk⟩
  · obtain ⟨v, k, hv⟩ := h.watched u c hbefore hr
    by_cases hne : v = t
    · -- the waker itself has moved
      subst hne
      rcases hm.wake c k hv with ⟨k', hk'⟩ | hw | ⟨hnone, hawake⟩
      · exact ⟨v, k', hself.trans hk'⟩
      · exact absurd hbefore (h.not_watches hw u c)
      · exfalso
        by_cases hut : u = v
        · subst hut
          rw [hv] at hbefore
          exact hbefore
        · rw [hother u hut] at hu
          rcases Pc.watches_cases hu with hh | ⟨arms, ha⟩
          · rw [(hm.kept u).holds] at hh
            have := h.holder u hh
            rw [hnone] at this
            exact absurd this (by simp)
          · exact hawake u arms ha
    · refine ⟨v, k, ?_⟩
      rw [hother v hne, (hm.kept v).wake c k hv, hv]
  · exact ⟨t, k, hself.trans hk⟩

end Moves

variable [DecidableEq ι]

variable {cond : Condition (Pc ι V)}

theorem kept_wake (h : IsCondition cond) {p : Pc ι V} (hp : cond.asleep p = true) :
    Kept p (cond.wake p) := by
  cases h with
  | notEmpty d =>
    cases p with
    | recv e w => exact ⟨rfl, rfl, fun _ h => h, fun _ _ he => by cases he⟩
    | _ => exact absurd hp (by simp [notEmpty])
  | notFull d =>
    cases p with
    | send e v w => exact ⟨rfl, rfl, fun _ h => h, fun _ _ he => by cases he⟩
    | _ => exact absurd hp (by simp [notFull])
  | selectReady =>
    cases p with
    | select arms k =>
      cases k with
      | asleep => exact ⟨rfl, rfl, fun _ h => h.elim, fun _ _ he => by cases he⟩
      | _ => exact absurd hp (by simp [selectReady])
    | _ => exact absurd hp (by simp [selectReady])

theorem IsCondition.kept_wakeAll (h : IsCondition cond) (pcs : τ → Pc ι V) (t : τ) :
    Kept (pcs t) (wakeAll cond pcs t) := by
  cases hs : cond.asleep (pcs t) with
  | true =>
    rw [wakeAll_of_asleep hs]
    exact kept_wake h hs
  | false =>
    rw [wakeAll_of_not_asleep hs]
    exact .refl _

variable {s s' : State τ ι V} {a : Act τ ι V}

theorem take_ready {c d : ι} (h : (update s.chans d (s.chans d).take c).ready) :
    (s.chans c).ready := by
  by_cases hcd : c = d
  · subst hcd
    rw [update_self] at h
    rcases h with h | h
    · left
      simp only [Channel.take] at h
      omega
    · exact Or.inr h
  · rwa [update_of_ne hcd] at h

variable [DecidableEq τ]

theorem IsCondition.kept_wakeOne (h : IsCondition cond) {pcs pcs' : τ → Pc ι V}
    (hw : WakeOne cond pcs pcs') (t : τ) : Kept (pcs t) (pcs' t) := by
  rcases hw.cases t with he | ⟨hs, he⟩
  · rw [he]
    exact .refl _
  · rw [he]
    exact kept_wake h hs

/-- **Every step moves one thread.** -/
theorem Step.moves (hs : Step s a s') : ∃ t p pcs, Moves s s' t p pcs := by
  cases hs with
  | call t p hpc hp =>
    refine ⟨t, p, s.pcs, .plain rfl (fun u => .refl _) rfl rfl ?_ ?_
      (fun c h => Or.inl h) ?_ (by simp [hpc])⟩
    all_goals
      rcases p with _ | _ | _ | _ | _ | _ | ⟨_, _ | _ | _ | _ | _ | _ | _ | _ | _⟩ <;>
        simp_all [Pc.entry, Pc.counted, Pc.holds, Pc.watches]
  | callNull t hpc | sendClosed t d v w hpc _ _ | armNull t arms start k hpc _ _ =>
    exact ⟨t, s.pcs t, s.pcs, .plain (update_eq_self t s.pcs).symm
      (fun u => .refl _) rfl rfl rfl rfl (fun c h => Or.inl h) (fun c h _ => h)
      (fun c k h => ⟨k, h⟩)⟩
  | sendPut t d v w pcs hpc _ _ _ hwake =>
    refine ⟨t, _, pcs, .plain rfl ((IsCondition.notEmpty d).kept_wakeOne hwake)
      rfl rfl (by rw [hpc]; rfl) (by rw [hpc]; rfl) (fun c h => ?_)
      (fun c h => h.elim) (by simp [hpc])⟩
    by_cases hcd : c = d
    · subst hcd
      exact Or.inr ⟨_, rfl⟩
    · left
      simpa [hcd] using h
  | recvTake t d w pcs hpc _ _ hwake
  | heldTake t d pcs hpc _ hwake
  | armTake t arms start k d pcs hpc _ _ _ hwake =>
    exact ⟨t, _, pcs, .plain rfl ((IsCondition.notFull d).kept_wakeOne hwake)
      rfl rfl (by rw [hpc]; rfl) (by rw [hpc]; rfl)
      (fun c h => Or.inl (take_ready h)) (fun c h => h.elim) (by simp [hpc])⟩
  | close t d hpc =>
    refine ⟨t, _, _, .plain rfl (fun u => ?_) rfl rfl (by rw [hpc]; rfl)
      (by rw [hpc]; rfl) (fun c h => ?_) (fun c h => h.elim) (by simp [hpc])⟩
    · exact ((IsCondition.notEmpty d).kept_wakeAll s.pcs u).trans
        ((IsCondition.notFull d).kept_wakeAll _ u)
    · by_cases hcd : c = d
      · subst hcd
        exact Or.inr ⟨_, rfl⟩
      · left
        simpa [hcd] using h
  | wakeNone t d hpc hw =>
    exact ⟨t, _, _, rfl, fun u => .refl _, Or.inl ⟨by rw [hpc]; rfl, rfl⟩,
      Or.inl ⟨by rw [hpc]; rfl, rfl⟩, fun c h => Or.inl h, fun c h => h.elim,
      fun c k _ => Or.inr (Or.inl hw)⟩
  | wakeSelects t d hpc hholder =>
    refine ⟨t, _, _, rfl, IsCondition.selectReady.kept_wakeAll s.pcs,
      Or.inl ⟨by rw [hpc]; rfl, rfl⟩, Or.inl ⟨by rw [hpc]; rfl, rfl⟩,
      fun c h => Or.inl h, fun c h => h.elim, fun c k _ => Or.inr (Or.inr ?_)⟩
    refine ⟨hholder, fun u arms hu => ?_⟩
    have hn : selectReady.asleep (wakeAll selectReady s.pcs u) = false := not_asleep_wakeAll u
    rw [show wakeAll selectReady s.pcs u = .select arms .asleep from hu] at hn
    exact absurd hn (by simp [selectReady])
  | selectCount t arms hpc =>
    exact ⟨t, _, _, rfl, fun u => .refl _, Or.inr (Or.inl ⟨by rw [hpc]; rfl, rfl, rfl⟩),
      Or.inl ⟨by rw [hpc]; rfl, rfl⟩, fun c h => Or.inl h, fun c h => h.elim,
      by simp [hpc]⟩
  | selectHold t arms hpc hholder =>
    refine ⟨t, _, _, rfl, fun u => .refl _, Or.inl ⟨by rw [hpc]; rfl, rfl⟩,
      Or.inr (Or.inl ⟨hholder, rfl⟩), fun c h => Or.inl h, fun c h => ?_,
      by simp [hpc]⟩
    simp [Pc.watches] at h
  | lookReady t arms i d hpc _ _ =>
    exact ⟨t, _, _, .plain rfl (fun u => .refl _) rfl rfl (by rw [hpc]; rfl)
      (by rw [hpc]; rfl) (fun c h => Or.inl h) (fun c h => h.elim) (by simp [hpc])⟩
  | lookNot t arms i d hpc hi hnot =>
    refine ⟨t, _, _, .plain rfl (fun u => .refl _) rfl rfl (by rw [hpc]; rfl)
      (by rw [hpc]; rfl) (fun c h => Or.inl h) (fun c h hr => ?_) (by simp [hpc])⟩
    rw [hpc]
    simp only [Pc.watches, List.take_add_one, hi, Option.toList_some,
      List.mem_append, List.mem_singleton, Option.some.injEq] at h ⊢
    rcases h with h | rfl
    · exact h
    · exact absurd hr hnot
  | selectWait t arms i hpc hi =>
    refine ⟨t, _, _, rfl, fun u => .refl _, Or.inl ⟨by rw [hpc]; rfl, rfl⟩,
      Or.inr (Or.inr ⟨by rw [hpc]; rfl, rfl⟩), fun c h => Or.inl h, fun c h _ => ?_,
      by simp [hpc]⟩
    rw [hpc]
    simpa [Pc.watches, List.take_of_length_le hi] using h
  | selectWoken t arms hpc hholder =>
    exact ⟨t, _, _, rfl, fun u => .refl _, Or.inl ⟨by rw [hpc]; rfl, rfl⟩,
      Or.inr (Or.inl ⟨hholder, rfl⟩), fun c h => Or.inl h, fun c h => h.elim,
      by simp [hpc]⟩
  | selectRelease t arms hpc =>
    exact ⟨t, _, _, rfl, fun u => .refl _, Or.inl ⟨by rw [hpc]; rfl, rfl⟩,
      Or.inr (Or.inr ⟨by rw [hpc]; rfl, rfl⟩), fun c h => Or.inl h,
      fun c h => h.elim, by simp [hpc]⟩
  | selectUncount t arms hpc =>
    exact ⟨t, _, _, rfl, fun u => .refl _, Or.inr (Or.inr ⟨by rw [hpc]; rfl, rfl, rfl⟩),
      Or.inl ⟨by rw [hpc]; rfl, rfl⟩, fun c h => Or.inl h, fun c h => h.elim,
      by simp [hpc]⟩
  | stir t other hother ht =>
    have hk := kept_wake hother ht
    exact ⟨t, _, _, .plain rfl (fun u => .refl _) rfl rfl hk.counted hk.holds
      (fun c h => Or.inl h) (fun c h _ => hk.watches c h)
      (fun c k h => ⟨k, (hk.wake c k h).trans h⟩)⟩
  | _ =>
    exact ⟨_, _, _, .plain rfl (fun u => .refl _) rfl rfl (by simp [*, Pc.counted])
      (by simp [*, Pc.holds]) (fun c h => Or.inl h) (fun c h => h.elim)
      (by simp [*])⟩

theorem Selects.step (h : Selects s) (hs : Step s a s') : Selects s' := by
  obtain ⟨t, p, pcs, hm⟩ := hs.moves
  exact ⟨hm.counted_step h, fun _ hu => hm.holder_step h hu,
    fun _ _ hu hr => hm.watched_step h hu hr⟩

end Selects

/-! ## Every run -/

section Run

variable {τ ι V : Type*} [DecidableEq ι]

/-- What keeps every sleeper from being forgotten. -/
structure NoneLost (s : State τ ι V) : Prop where
  recv : ∀ c, Covered (notEmpty c) s.pcs (s.chans c).count
  send : ∀ c, Covered (notFull c) s.pcs ((s.chans c).capacity - (s.chans c).count)
  closed : ClosedAwake s
  selects : Selects s

theorem Starts.noneLost {s : State τ ι V} (h : Starts s) : NoneLost s := by
  refine ⟨fun c => .of_none fun t => ?_, fun c => .of_none fun t => ?_, fun c _ t => ?_, ?_⟩
  · simp [notEmpty, h.pcs]
  · simp [notFull, h.pcs]
  · simp [notEmpty, notFull, h.pcs]
  · refine ⟨⟨∅, by simp [h.waiting], fun t => ?_⟩, fun t ht => ?_, fun t c ht => ?_⟩
    · simp [h.pcs, Pc.counted]
    · simp [h.pcs, Pc.holds] at ht
    · simp [h.pcs, Pc.watches] at ht

variable [DecidableEq τ]

theorem noneLost {s₀ s : State τ ι V} {acts : List (Act τ ι V)}
    (hstart : Starts s₀) (hrun : Runs Goes s₀ acts s) : NoneLost s := by
  induction hrun with
  | start => exact hstart.noneLost
  | snoc hr hs ih =>
    have hok := fun c => (delivered hstart hr c).ok
    exact ⟨fun c => hs.2.recv_covered c (ih.recv c),
      fun c => hs.2.send_covered hok c (ih.send c), ih.closed.step hs.2,
      ih.selects.step hs.2⟩

/-- A `send` or a `close` on `c` that has not finished. -/
def Pc.sending (c : ι) : Pc ι V → Prop
  | .send d _ _ | .close d | .wake d _ => d = c
  | _ => False

/-- **No wake-up is lost**: in no state of a run does (a) a select sleep while a channel of its arms
    is ready and every `send` and `close` on it has finished, (b) a receiver sleep, with no receiver
    of its channel woken, while the channel is ready, or (c) a sender sleep, with no sender of its
    channel woken, while the channel has a free slot or is closed. -/
theorem no_wakeup_lost {s₀ s : State τ ι V} {acts : List (Act τ ι V)}
    (hstart : Starts s₀) (hrun : Runs Goes s₀ acts s) (c : ι) (t : τ) :
    (∀ arms, ¬ (s.pcs t = .select arms .asleep ∧ some c ∈ arms ∧
      (s.chans c).ready ∧ ∀ u, ¬ (s.pcs u).sending c)) ∧
    ¬ (s.pcs t = .recv c .asleep ∧ (∀ u, s.pcs u ≠ .recv c .woken) ∧ (s.chans c).ready) ∧
    (∀ v, ¬ (s.pcs t = .send c v .asleep ∧ (∀ u w, s.pcs u ≠ .send c w .woken) ∧
      ((s.chans c).count < (s.chans c).capacity ∨ (s.chans c).closed = true))) := by
  have h := noneLost hstart hrun
  refine ⟨?_, ?_, ?_⟩
  · rintro arms ⟨ht, hc, hready, hfinished⟩
    have hw : (s.pcs t).watches c := by
      rw [ht]
      exact hc
    obtain ⟨u, k, hu⟩ := h.selects.watched t c hw hready
    refine hfinished u ?_
    rw [hu]
    rfl
  · rintro ⟨ht, hnone, hready⟩
    have hasleep : (notEmpty c).asleep (s.pcs t) = true := by simp [notEmpty, ht]
    rcases hready with hcount | hclosed
    · obtain ⟨u, hu⟩ := (h.recv c).exists_woken hcount hasleep
      refine hnone u ?_
      rcases hp : s.pcs u with _ | _ | ⟨d, _ | _ | _⟩ | _ | _ | _ | _ <;>
        simp_all [notEmpty]
    · simp [(h.closed c hclosed t).1] at hasleep
  · rintro v ⟨ht, hnone, hfree⟩
    have hasleep : (notFull c).asleep (s.pcs t) = true := by simp [notFull, ht]
    rcases hfree with hcount | hclosed
    · obtain ⟨u, hu⟩ := (h.send c).exists_woken (by omega) hasleep
      rcases hp : s.pcs u with _ | ⟨d, w, _ | _ | _⟩ | _ | _ | _ | _ | _ <;>
        simp [notFull, hp] at hu
      subst hu
      exact hnone u w hp
    · simp [(h.closed c hclosed t).2] at hasleep

end Run

/-- A receiver of `oneSlot` sleeps, and rightly. -/
theorem oneSlot_sleeps : ∃ s, Runs Goes oneSlot [.silent, .silent] s ∧
    s.pcs false = .recv () .asleep ∧ ¬ (s.chans ()).ready := by
  have hcall : Goes oneSlot .silent (oneSlot.goto false (.recv () .entering)) :=
    ⟨rfl, .call false _ rfl rfl⟩
  have hwait := Step.recvWait (s := oneSlot.goto false (.recv () .entering)) false ()
    .entering rfl (by decide) rfl rfl
  have hrun := Runs.snoc (.snoc .start hcall) ⟨rfl, hwait⟩
  refine ⟨_, hrun, rfl, fun hready => ?_⟩
  refine (no_wakeup_lost oneSlot_starts hrun () false).2.1 ⟨rfl, fun u => ?_, hready⟩
  cases u <;> exact fun h => nomatch h

end AnticSync
