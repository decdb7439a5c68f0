import Mathlib.Data.Finset.Card
import Mathlib.Logic.Function.Basic

/-! # Runs of threads that share monitors

    A program of threads is a labelled step relation.  What holds of every run follows from what one
    step keeps, and the rule for that stands here once.

    A monitor has wait sets.  A thread that waits is ASLEEP until a wake takes it out of its set;
    from then on it is WOKEN, the wake is pending, and it looks at its condition again when it gets
    the monitor.  `WakeOne` and `wakeAll` are the two wakes.  `Covered` is the invariant that makes
    `WakeOne` enough: as long as somebody sleeps, the woken threads are as many as the units they
    may take. -/

namespace Interleaving

open List

section Runs

variable {S L : Type*}

/-- A run from `s`, with the labels of its steps, oldest first. -/
inductive Runs (step : S → L → S → Prop) (s : S) : List L → S → Prop where
  | start : Runs step s [] s
  | snoc {ls : List L} {t u : S} {l : L} : Runs step s ls t → step t l u → Runs step s (ls ++ [l]) u

variable {step : S → L → S → Prop}

/-- **The invariant rule**: what holds at the start and is kept by each step of
    a run holds after the run.  The invariant may speak of the labels so far. -/
theorem Runs.invariant {s u : S} {ls : List L} (P : List L → S → Prop)
    (hrun : Runs step s ls u) (hstart : P [] s)
    (hstep : ∀ ls t l u, P ls t → step t l u → P (ls ++ [l]) u) : P ls u := by
  induction hrun with
  | start => exact hstart
  | snoc _ hs ih => exact hstep _ _ _ _ ih hs

/-- A run is a run over the first of its labels and one over the others. -/
theorem Runs.cut {s u : S} {ls : List L} (hrun : Runs step s ls u)
    {before after : List L} (h : ls = before ++ after) :
    ∃ t, Runs step s before t ∧ Runs step t after u := by
  induction hrun generalizing after with
  | start =>
    obtain ⟨rfl, rfl⟩ := append_eq_nil_iff.1 h.symm
    exact ⟨s, .start, .start⟩
  | snoc hr hs ih =>
    rcases eq_nil_or_concat after with rfl | ⟨rest, last, rfl⟩
    · rw [append_nil] at h
      exact ⟨_, h ▸ hr.snoc hs, .start⟩
    · -- the last label is a label of the second run
      rw [concat_eq_append, ← append_assoc] at h
      obtain ⟨hinit, hl⟩ := append_inj' h rfl
      cases hl
      obtain ⟨t, hbefore, hafter⟩ := ih hinit
      rw [concat_eq_append]
      exact ⟨t, hbefore, hafter.snoc hs⟩

theorem Runs.last {s u : S} {ls : List L} {l : L} (hrun : Runs step s (ls ++ [l]) u) :
    ∃ t, Runs step s ls t ∧ step t l u := by
  generalize h : ls ++ [l] = all at hrun
  cases hrun with
  | start => exact absurd h (by simp)
  | snoc hr hs =>
    obtain ⟨hls, hl⟩ := append_inj' h rfl
    cases hls
    cases hl
    exact ⟨_, hr, hs⟩

end Runs

section Waits

variable {τ P : Type*}

/-- A condition of a monitor: which threads sleep on it, which have a wake
    pending, and what a wake makes of one. -/
structure Condition (P : Type*) where
  asleep : P → Bool
  woken : P → Bool
  wake : P → P
  wakes : ∀ p, asleep p → woken (wake p)
  apart : ∀ p, asleep p → woken p = false

/-- Wake every thread that sleeps on the condition. -/
def wakeAll (cond : Condition P) (pcs : τ → P) (t : τ) : P :=
  if cond.asleep (pcs t) then cond.wake (pcs t) else pcs t

/-- While somebody sleeps on the condition, at least `n` threads are woken. -/
def Covered (cond : Condition P) (pcs : τ → P) (n : Nat) : Prop :=
  (∃ t, cond.asleep (pcs t)) → ∃ woken : Finset τ, n ≤ woken.card ∧ ∀ t ∈ woken, cond.woken (pcs t)

variable {cond : Condition P} {pcs pcs' : τ → P} {n : Nat}

variable {t : τ}

theorem wakeAll_of_asleep (h : cond.asleep (pcs t) = true) :
    wakeAll cond pcs t = cond.wake (pcs t) :=
  if_pos h

theorem wakeAll_of_not_asleep (h : cond.asleep (pcs t) = false) :
    wakeAll cond pcs t = pcs t :=
  if_neg (by simp [h])

theorem not_asleep_wakeAll (t : τ) : cond.asleep (wakeAll cond pcs t) = false := by
  cases h : cond.asleep (pcs t) with
  | true =>
    rw [wakeAll_of_asleep h]
    by_contra hs
    have hw := cond.wakes _ h
    rw [cond.apart _ (by simpa using hs)] at hw
    exact absurd hw (by decide)
  | false => rw [wakeAll_of_not_asleep h, h]

theorem Covered.of_none (h : ∀ t, cond.asleep (pcs t) = false) :
    Covered cond pcs n :=
  fun ⟨t, ht⟩ => absurd ht (by simp [h t])

theorem Covered.zero : Covered cond pcs 0 :=
  fun _ => ⟨∅, Nat.le_refl _, by simp⟩

/-- Where nobody new sleeps and every woken thread stays woken, the condition is
    covered as before. -/
theorem Covered.congr (h : Covered cond pcs n)
    (ha : ∀ t, cond.asleep (pcs' t) = true → cond.asleep (pcs t) = true)
    (hw : ∀ t, cond.woken (pcs t) = true → cond.woken (pcs' t) = true) :
    Covered cond pcs' n := by
  rintro ⟨t, ht⟩
  obtain ⟨woken, hn, hwk⟩ := h ⟨t, ha t ht⟩
  exact ⟨woken, hn, fun u hu => hw u (hwk u hu)⟩

/-- A wake on `other` puts nobody to sleep on `cond` and leaves its woken threads woken. -/
def Condition.Blind (cond other : Condition P) : Prop :=
  ∀ p, other.asleep p = true → (cond.asleep (other.wake p) = true → cond.asleep p = true) ∧
    (cond.woken p = true → cond.woken (other.wake p) = true)

variable {other : Condition P}

theorem Condition.Blind.asleep_wakeAll (h : cond.Blind other)
    (ht : cond.asleep (wakeAll other pcs t) = true) : cond.asleep (pcs t) = true := by
  cases hs : other.asleep (pcs t) with
  | true =>
    rw [wakeAll_of_asleep hs] at ht
    exact (h _ hs).1 ht
  | false => rwa [wakeAll_of_not_asleep hs] at ht

theorem Covered.of_wakeAll (h : Covered cond pcs n) (hb : cond.Blind other) :
    Covered cond (wakeAll other pcs) n := by
  refine h.congr (fun _ => hb.asleep_wakeAll) fun t ht => ?_
  cases hs : other.asleep (pcs t) with
  | true =>
    rw [wakeAll_of_asleep hs]
    exact (hb _ hs).2 ht
  | false => rwa [wakeAll_of_not_asleep hs]

theorem Covered.exists_woken (h : Covered cond pcs n) (hn : 0 < n)
    (ht : cond.asleep (pcs t) = true) : ∃ u, cond.woken (pcs u) = true := by
  obtain ⟨woken, hcard, hw⟩ := h ⟨t, ht⟩
  obtain ⟨u, hu⟩ := Finset.card_pos.1 (Nat.lt_of_lt_of_le hn hcard)
  exact ⟨u, hw u hu⟩

variable [DecidableEq τ]

/-- Wake one thread that sleeps on the condition, where there is one. -/
def WakeOne (cond : Condition P) (pcs pcs' : τ → P) : Prop :=
  ((∀ t, cond.asleep (pcs t) = false) ∧ pcs' = pcs) ∨
  ∃ t, cond.asleep (pcs t) = true ∧ pcs' = Function.update pcs t (cond.wake (pcs t))

/-- After a wake a thread is as before, or it slept and is woken. -/
theorem WakeOne.cases (h : WakeOne cond pcs pcs') (t : τ) :
    pcs' t = pcs t ∨ cond.asleep (pcs t) = true ∧ pcs' t = cond.wake (pcs t) := by
  rcases h with ⟨_, rfl⟩ | ⟨u, hu, rfl⟩
  · exact Or.inl rfl
  · by_cases hne : t = u
    · subst hne
      exact Or.inr ⟨hu, Function.update_self ..⟩
    · exact Or.inl (Function.update_of_ne hne _ _)

/-- A thread that does not sleep on the condition is where it was. -/
theorem WakeOne.self (h : WakeOne cond pcs pcs') (ht : cond.asleep (pcs t) = false) :
    pcs' t = pcs t := by
  rcases h.cases t with he | ⟨ha, _⟩
  · exact he
  · rw [ht] at ha
    exact absurd ha (by decide)

theorem Condition.Blind.asleep_wakeOne (h : cond.Blind other)
    (hw : WakeOne other pcs pcs') (ht : cond.asleep (pcs' t) = true) :
    cond.asleep (pcs t) = true := by
  rcases hw.cases t with he | ⟨hs, he⟩
  · rwa [he] at ht
  · rw [he] at ht
    exact (h _ hs).1 ht

theorem Covered.of_wakeOne (h : Covered cond pcs n) (hb : cond.Blind other)
    (hw : WakeOne other pcs pcs') : Covered cond pcs' n := by
  refine h.congr (fun _ => hb.asleep_wakeOne hw) fun t ht => ?_
  rcases hw.cases t with he | ⟨hs, he⟩
  · rwa [he]
  · rw [he]
    exact (hb _ hs).2 ht

/-- Who sleeps after a thread went to a place outside the wait set slept before. -/
theorem Condition.asleep_of_update {u : τ} {p : P} (hp : cond.asleep p = false)
    (h : cond.asleep (Function.update pcs t p u) = true) :
    cond.asleep (pcs u) = true := by
  by_cases hne : u = t
  · subst hne
    rw [Function.update_self, hp] at h
    exact absurd h (by decide)
  · rwa [Function.update_of_ne hne] at h

theorem Covered.update (h : Covered cond pcs n) {p : P}
    (ht : cond.woken (pcs t) = false) (hp : cond.asleep p = false) :
    Covered cond (Function.update pcs t p) n := by
  refine h.congr (fun u hu => cond.asleep_of_update hp hu) fun u hu => ?_
  · have hne : u ≠ t := by
      rintro rfl
      rw [ht] at hu
      exact absurd hu (by decide)
    rwa [Function.update_of_ne hne]

/-- A thread that leaves, woken or not, takes at most one unit with it. -/
theorem Covered.leave (h : Covered cond pcs (n + 1)) {p : P}
    (hp : cond.asleep p = false) : Covered cond (Function.update pcs t p) n := by
  rintro ⟨u, hu⟩
  have hne : u ≠ t := by
    rintro rfl
    rw [Function.update_self, hp] at hu
    exact absurd hu (by decide)
  rw [Function.update_of_ne hne] at hu
  obtain ⟨woken, hn, hw⟩ := h ⟨u, hu⟩
  refine ⟨woken.erase t, ?_, fun v hv => ?_⟩
  · have := Finset.pred_card_le_card_erase (s := woken) (a := t)
    omega
  · obtain ⟨hv', hv⟩ := Finset.mem_erase.1 hv
    rw [Function.update_of_ne hv']
    exact hw v hv

theorem Covered.wakeOne (h : Covered cond pcs n) (hw : WakeOne cond pcs pcs') :
    Covered cond pcs' (n + 1) := by
  rcases hw with ⟨hnone, rfl⟩ | ⟨t, ht, rfl⟩
  · exact .of_none hnone
  · rintro _
    obtain ⟨woken, hn, hwk⟩ := h ⟨t, ht⟩
    have hnot : t ∉ woken := fun hmem => absurd (hwk t hmem) (by simp [cond.apart _ ht])
    refine ⟨insert t woken, ?_, fun u hu => ?_⟩
    · rw [Finset.card_insert_of_notMem hnot]
      omega
    · by_cases hut : u = t
      · subst hut
        rw [Function.update_self]
        exact cond.wakes _ ht
      · rw [Function.update_of_ne hut]
        exact hwk u (Finset.mem_of_mem_insert_of_ne hu hut)

end Waits

section Ownership

variable {τ X : Type*} {W W' : τ → List X}

/-- Each thing is with one thread, once. -/
structure Owned (W : τ → List X) : Prop where
  nodup : ∀ t, (W t).Nodup
  apart : ∀ {t u : τ} {x : X}, x ∈ W t → x ∈ W u → t = u

/-- Some thread has the thing. -/
def Has (W : τ → List X) (x : X) : Prop := ∃ t, x ∈ W t

/-- One thread gives the things of `old` away and gets those of `new`. -/
def Trades (W W' : τ → List X) (old new : List X) : Prop :=
  ∃ t rest, W t = old ++ rest ∧ W' t = new ++ rest ∧ ∀ u, u ≠ t → W' u = W u

theorem Trades.of_eq (t : τ) (h : ∀ u, W' u = W u) : Trades W W' [] [] :=
  ⟨t, W t, rfl, h t, fun u _ => h u⟩

theorem Owned.has_iff (h : Owned W) {old new : List X} (ht : Trades W W' old new)
    (x : X) : Has W' x ↔ x ∈ new ∨ Has W x ∧ x ∉ old := by
  obtain ⟨t, rest, hold, hnew, hother⟩ := ht
  constructor
  · rintro ⟨u, hu⟩
    by_cases hut : u = t
    · subst hut
      rw [hnew] at hu
      rcases mem_append.1 hu with hu | hu
      · exact Or.inl hu
      · have hnodup := h.nodup u
        rw [hold] at hnodup
        refine Or.inr ⟨⟨u, hold ▸ mem_append_right _ hu⟩, fun hx => ?_⟩
        exact (nodup_append.1 hnodup).2.2 x hx x hu rfl
    · rw [hother u hut] at hu
      refine Or.inr ⟨⟨u, hu⟩, fun hx => hut ?_⟩
      exact h.apart hu (hold ▸ mem_append_left _ hx)
  · rintro (hx | ⟨⟨u, hu⟩, hx⟩)
    · exact ⟨t, hnew ▸ mem_append_left _ hx⟩
    · by_cases hut : u = t
      · subst hut
        rw [hold] at hu
        rcases mem_append.1 hu with hu | hu
        · exact absurd hu hx
        · exact ⟨u, hnew ▸ mem_append_right _ hu⟩
      · exact ⟨u, (hother u hut).symm ▸ hu⟩

/-- **A trade keeps each thing with one thread**, where what is new was with nobody else. -/
theorem Owned.trade (h : Owned W) {old new : List X} (ht : Trades W W' old new)
    (hnodup : new.Nodup) (hfresh : ∀ x ∈ new, x ∈ old ∨ ¬ Has W x) : Owned W' := by
  obtain ⟨t, rest, hold, hnew, hother⟩ := ht
  have hold' := h.nodup t
  rw [hold] at hold'
  obtain ⟨_, hrest, hdisj⟩ := nodup_append.1 hold'
  have hmine : ∀ x ∈ new, ∀ u, x ∈ W u → u = t := by
    intro x hx u hu
    rcases hfresh x hx with hx | hx
    · exact h.apart hu (hold ▸ mem_append_left _ hx)
    · exact absurd ⟨u, hu⟩ hx
  have happart : ∀ {u x}, u ≠ t → x ∈ W' u → x ∉ W' t := by
    intro u x hut hu hx
    rw [hother u hut] at hu
    rw [hnew] at hx
    rcases mem_append.1 hx with hx | hx
    · exact hut (hmine x hx u hu)
    · exact hut (h.apart hu (hold ▸ mem_append_right _ hx))
  constructor
  · intro u
    by_cases hut : u = t
    · subst hut
      rw [hnew]
      refine nodup_append.2 ⟨hnodup, hrest, fun x hx y hy hxy => ?_⟩
      subst hxy
      rcases hfresh x hx with hx | hx
      · exact hdisj x hx x hy rfl
      · exact hx ⟨u, hold ▸ mem_append_right _ hy⟩
    · rw [hother u hut]
      exact h.nodup u
  · intro u v x hu hv
    by_cases hut : u = t
    · by_cases hvt : v = t
      · rw [hut, hvt]
      · exact absurd (hut ▸ hu) (happart hvt hv)
    · by_cases hvt : v = t
      · exact absurd (hvt ▸ hv) (happart hut hu)
      · rw [hother u hut] at hu
        rw [hother v hvt] at hv
        exact h.apart hu hv

end Ownership

end Interleaving
