import Antic.SlotTableProofs

/-! # The walks of a `SlotTable`

    A walk keeps a log: the entries that it gives and those that are taken out
    meanwhile.  `Walked` says what the log of a walk from a step on holds, and one
    lemma adds a turn of the loop in front of it. -/

namespace AnticCollection

open List Function

/-- The slots whose entries a walk gives. -/
def givenSlots {E : Type} (log : List (WalkEvent E)) : List Nat :=
  log.filterMap fun
    | .given i _ => some i
    | .taken _ => none

theorem mem_givenSlots {E : Type} {log : List (WalkEvent E)} {i : Nat} :
    i ∈ givenSlots log ↔ ∃ e, .given i e ∈ log := by
  rw [givenSlots, mem_filterMap]
  constructor
  · rintro ⟨ev, hev, hi⟩
    cases ev with
    | given j e =>
      cases hi
      exact ⟨e, hev⟩
    | taken j => cases hi
  · rintro ⟨e, he⟩
    exact ⟨_, he, rfl⟩

/-- No entry is given after it was taken out. -/
def NotAfter {E : Type} (a b : WalkEvent E) : Prop := ∀ i e, a = .taken i → b ≠ .given i e

namespace SlotTable

variable {E : Type} {t : SlotTable E} {start : Nat}

/-- The steps from `k` on, of a walk from `start`, whose slots hold an entry. -/
def liveSteps (t : SlotTable E) (start k : Nat) : List Nat :=
  (List.range' k (t.size - k)).filter fun j => isLive (t.marks ((start + j) &&& t.mask))

variable {j : Nat} {t' : SlotTable E} {log : List (WalkEvent E)}

theorem mem_liveSteps {k : Nat} : j ∈ t.liveSteps start k ↔
      (k ≤ j ∧ j < t.size) ∧ isLive (t.marks ((start + j) &&& t.mask)) = true := by
  rw [liveSteps, mem_filter, mem_range'_1]
  constructor
  · rintro ⟨h, hl⟩
    exact ⟨by omega, hl⟩
  · rintro ⟨h, hl⟩
    exact ⟨by omega, hl⟩

/-- The place of the first of the steps. -/
def placeOf (start : Nat) : Option Nat → Int
  | none => -1
  | some j => packed start j

theorem RoomOk.liveFrom_eq (hok : t.RoomOk) (start k : Nat) :
    t.liveFrom start k = placeOf start (t.liveSteps start k).head? := by
  unfold liveFrom liveSteps
  rw [head?_filter]
  split
  · next hroom => simp [hok.size_eq_zero hroom, placeOf]
  · cases (List.range' k (t.size - k)).find? fun j => isLive (t.marks ((start + j) &&& t.mask)) with
    | none => rfl
    | some j => rfl

theorem liveSteps_cons {k : Nat} (h : (t.liveSteps start k).head? = some j) :
    t.liveSteps start k = j :: t.liveSteps start (j + 1) ∧ k ≤ j ∧ j < t.size ∧
      isLive (t.marks ((start + j) &&& t.mask)) = true := by
  have hfind : (List.range' k (t.size - k)).find?
      (fun j => isLive (t.marks ((start + j) &&& t.mask))) = some j := by
    rw [← head?_filter]
    exact h
  obtain ⟨hlt, hle, heq⟩ := filter_range'_of_find hfind
  refine ⟨?_, hle, by omega, by simpa using find?_some hfind⟩
  rw [liveSteps, heq, liveSteps]
  congr 3
  omega

/-! ## Entries that are taken out -/

/-- A table that lost the entries that the log takes. -/
structure Lessened (t t' : SlotTable E) (log : List (WalkEvent E)) : Prop where
  ok : t'.RoomOk
  size : t'.size = t.size
  kept : ∀ j, isLive (t'.marks j) = true → t'.marks j = t.marks j ∧ t'.slots j = t.slots j
  gone : ∀ j, isLive (t.marks j) = true → isLive (t'.marks j) = true ∨ .taken j ∈ log
  taken : ∀ ev ∈ log, ∃ j, ev = .taken j ∧ isLive (t'.marks j) = false

theorem Lessened.refl (hok : t.RoomOk) : Lessened t t [] :=
  ⟨hok, rfl, fun _ _ => ⟨rfl, rfl⟩, fun _ h => Or.inl h, fun _ h => nomatch h⟩

theorem Lessened.dead (h : Lessened t t' log) (hj : isLive (t.marks j) = false) :
    isLive (t'.marks j) = false := by
  by_contra hl
  have hl : isLive (t'.marks j) = true := by simpa using hl
  rw [(h.kept j hl).1, hj] at hl
  exact absurd hl (by decide)

theorem Lessened.trans {t₁ t₂ : SlotTable E} {log₁ log₂ : List (WalkEvent E)}
    (h₁ : Lessened t t₁ log₁) (h₂ : Lessened t₁ t₂ log₂) :
    Lessened t t₂ (log₁ ++ log₂) := by
  refine ⟨h₂.ok, h₂.size.trans h₁.size, fun j hj => ?_, fun j hj => ?_, fun ev hev => ?_⟩
  · obtain ⟨hm, hs⟩ := h₂.kept j hj
    obtain ⟨hm', hs'⟩ := h₁.kept j (hm ▸ hj)
    exact ⟨hm.trans hm', hs.trans hs'⟩
  · rcases h₁.gone j hj with hl | hmem
    · rcases h₂.gone j hl with hl | hmem
      · exact Or.inl hl
      · exact Or.inr (mem_append_right _ hmem)
    · exact Or.inr (mem_append_left _ hmem)
  · rcases mem_append.1 hev with hev | hev
    · obtain ⟨j, hj, hdead⟩ := h₁.taken ev hev
      exact ⟨j, hj, h₂.dead hdead⟩
    · exact h₂.taken ev hev

theorem RoomOk.lessened (hok : t.RoomOk) {q : Nat} (hq : q < t.size)
    (hlive : LiveMark (t.marks q)) (h : Taken t q t') : Lessened t t' [.taken q] := by
  have hdead : isLive removedMark = false := by decide
  refine ⟨hok.take hq hlive h.room h.size h.marks h.slots h.removed, h.size,
    fun j hj => ?_, fun j hj => ?_, fun ev hev => ⟨q, mem_singleton.1 hev, ?_⟩⟩
  · rw [h.marks] at hj ⊢
    rw [h.slots]
    by_cases hjq : j = q
    · rw [hjq, update_self, hdead] at hj
      exact absurd hj (by decide)
    · rw [update_of_ne hjq, update_of_ne hjq]
      exact ⟨rfl, rfl⟩
  · rw [h.marks]
    by_cases hjq : j = q
    · exact Or.inr (hjq ▸ mem_singleton.2 rfl)
    · rw [update_of_ne hjq]
      exact Or.inl hj
  · rw [h.marks, update_self]
    exact hdead

/-- What the body of a walk takes elsewhere leaves the entry of the walk's place. -/
theorem RoomOk.takeOthers (at_ : Nat) : ∀ (places : List Int) {t : SlotTable E}, t.RoomOk →
      Lessened t (SlotTable.takeOthers at_ places t).1 (SlotTable.takeOthers at_ places t).2 ∧
        (SlotTable.takeOthers at_ places t).1.marks (t.slotAt at_) =
          t.marks (t.slotAt at_) := by
  intro places
  induction places with
  | nil => exact fun hok => ⟨Lessened.refl hok, rfl⟩
  | cons p places ih =>
    intro t hok
    rw [SlotTable.takeOthers]
    split
    · exact ih hok
    · next hne =>
        cases htake : t.takePlace p with
        | error stop => exact ih hok
        | ok r =>
          obtain ⟨p', hcheck⟩ := takePlace_ok htake
          obtain ⟨t', heq, htaken⟩ := takePlace_eq hcheck
          obtain ⟨hp, hlt, hlive⟩ := hok.checkPlace_ok hcheck
          have hp' : p.toNat = p' := by omega
          rw [htake] at heq
          cases heq
          rw [hp'] at hne ⊢
          have hless := hok.lessened hlt hlive htaken
          obtain ⟨hrest, hmark⟩ := ih hless.ok
          refine ⟨hless.trans hrest, ?_⟩
          have hslot : (t'.resized (t'.count - 1)).slotAt at_ = t.slotAt at_ := by
            rw [slotAt, mask, htaken.size]
            rfl
          rw [hslot] at hmark
          refine hmark.trans ?_
          rw [htaken.marks, update_of_ne (Ne.symm hne)]

/-! ## The log of a walk -/

/-- What the log of a walk from `start` holds, from the step `k` on. -/
structure Walked (t : SlotTable E) (start k : Nat) (log : List (WalkEvent E)) :
    Prop where
  /-- The slots come in the order of the steps. -/
  inOrder : (givenSlots log).Sublist ((t.liveSteps start k).map fun j => (start + j) &&& t.mask)
  entries : ∀ i e, .given i e ∈ log → e = t.slots i
  all : ∀ j ∈ t.liveSteps start k, (start + j) &&& t.mask ∈ givenSlots log ∨
    .taken ((start + j) &&& t.mask) ∈ log
  untaken : log.Pairwise NotAfter

theorem Walked.live {k i : Nat} {e : Option E} (h : Walked t start k log)
    (hmem : .given i e ∈ log) :
    ∃ j ∈ t.liveSteps start k, i = (start + j) &&& t.mask := by
  have hi := h.inOrder.subset (mem_givenSlots.2 ⟨e, hmem⟩)
  obtain ⟨j, hj, rfl⟩ := List.mem_map.1 hi
  exact ⟨j, hj, rfl⟩

theorem Lessened.givenSlots (h : Lessened t t' log) : givenSlots log = [] := by
  refine filterMap_eq_nil_iff.2 fun ev hev => ?_
  obtain ⟨j, rfl, _⟩ := h.taken ev hev
  rfl

theorem Lessened.liveSteps (h : Lessened t t' log) (start k : Nat) :
    (t'.liveSteps start k).Sublist (t.liveSteps start k) := by
  unfold SlotTable.liveSteps
  rw [mask, h.size]
  refine monotone_filter_right _ fun j hj => ?_
  show isLive (t.marks ((start + j) &&& (t.size - 1))) = true
  rw [← (h.kept _ hj).1]
  exact hj

theorem Walked.cons {k : Nat} {rest : List (WalkEvent E)}
    (hsteps : t.liveSteps start k = j :: t.liveSteps start (j + 1))
    (hless : Lessened t t' log) (hrest : Walked t' start (j + 1) rest) :
    Walked t start k (.given ((start + j) &&& t.mask)
      (t.slots ((start + j) &&& t.mask)) :: (log ++ rest)) := by
  have hmask : t'.mask = t.mask := by rw [mask, hless.size, mask]
  have hgiven : givenSlots (.given ((start + j) &&& t.mask)
      (t.slots ((start + j) &&& t.mask)) :: (log ++ rest)) =
        ((start + j) &&& t.mask) :: givenSlots rest := by
    show _ :: givenSlots (log ++ rest) = _
    rw [AnticCollection.givenSlots, filterMap_append]
    show _ :: (givenSlots log ++ givenSlots rest) = _
    rw [hless.givenSlots]
    rfl
  have hlive : ∀ i e, .given i e ∈ rest → isLive (t'.marks i) = true := by
    intro i e hmem
    obtain ⟨j', hj', rfl⟩ := hrest.live hmem
    exact (mem_liveSteps.1 hj').2
  refine ⟨?_, fun i e hmem => ?_, fun j' hj' => ?_, ?_⟩
  · rw [hgiven, hsteps, map_cons]
    refine Sublist.cons_cons _ (hrest.inOrder.trans ?_)
    rw [hmask]
    exact (hless.liveSteps start (j + 1)).map _
  · rcases mem_cons.1 hmem with he | hmem
    · cases he
      rfl
    · rcases mem_append.1 hmem with hmem | hmem
      · obtain ⟨_, hev, _⟩ := hless.taken _ hmem
        cases hev
      · rw [hrest.entries i e hmem, (hless.kept i (hlive i e hmem)).2]
  · rw [hgiven]
    rw [hsteps] at hj'
    rcases mem_cons.1 hj' with rfl | hj'
    · exact Or.inl (mem_cons_self ..)
    · -- a later entry: it is there still, or it was taken out at this turn
      obtain ⟨hrange, hl⟩ := mem_liveSteps.1 hj'
      rcases hless.gone _ hl with hl | hmem
      · have hj'' : j' ∈ t'.liveSteps start (j + 1) := by
          rw [mem_liveSteps, hless.size, hmask]
          exact ⟨hrange, hl⟩
        rcases hrest.all j' hj'' with h | h
        · rw [hmask] at h
          exact Or.inl (mem_cons_of_mem _ h)
        · rw [hmask] at h
          exact Or.inr (mem_cons_of_mem _ (mem_append_right _ h))
      · exact Or.inr (mem_cons_of_mem _ (mem_append_left _ hmem))
  · refine pairwise_cons.2 ⟨fun b _ i e h => (by cases h), ?_⟩
    refine pairwise_append.2 ⟨?_, hrest.untaken, ?_⟩
    · refine pairwise_of_forall_mem_list fun a _ b hb i e _ hgive => ?_
      obtain ⟨_, hev, _⟩ := hless.taken b hb
      rw [hgive] at hev
      cases hev
    · intro a ha b hb i e htake hgive
      obtain ⟨_, hev, hdead⟩ := hless.taken a ha
      rw [htake] at hev
      cases hev
      rw [hlive i e (hgive ▸ hb)] at hdead
      exact absurd hdead (by decide)

/-! ## The loop -/

theorem RoomOk.checkPlace_packed (hok : t.RoomOk) (hsmall : t.size ≤ 2 ^ 31)
    (hstart : start < t.size) (hj : j < t.size)
    (hlive : isLive (t.marks ((start + j) &&& t.mask)) = true) :
    t.checkPlace ((start * 2 ^ 32 + j : Nat) : Int) = .ok (start * 2 ^ 32 + j) := by
  have hroom : t.room = true := by
    rw [hok.room]
    simp only [decide_eq_true_eq]
    omega
  have h1 := startOf_packed start (show j < 2 ^ 32 by omega)
  have h2 := stepOf_packed start (show j < 2 ^ 32 by omega)
  unfold checkPlace
  rw [Int.toNat_natCast, slotAt, h1, h2, if_neg (by simp [hroom]), if_neg (by omega),
    if_neg (by omega), if_pos hlive]

/-- **A walk of a table of at most `2 ^ 31` slots gives what is there.** -/
theorem RoomOk.walkFrom (plan : Nat → List Int × Bool) (start : Nat) :
    ∀ (fuel k : Nat) {t : SlotTable E}, t.RoomOk → t.size ≤ 2 ^ 31 → start < t.size →
      k ≤ t.size → t.size < fuel + k →
      ∃ t' log, t.walkFrom plan fuel (t.liveFrom start k) = .ok (t', log) ∧
        Walked t start k log := by
  intro fuel
  induction fuel with
  | zero => intro k t _ _ _ hk hfuel; omega
  | succ fuel ih =>
    intro k t hok hsmall hstart hk hfuel
    rw [hok.liveFrom_eq]
    cases hhead : (t.liveSteps start k).head? with
    | none =>
      have hnil := head?_eq_none_iff.1 hhead
      refine ⟨t, [], rfl, ⟨nil_sublist _, fun _ _ h => absurd h not_mem_nil,
        fun j hj => ?_, Pairwise.nil⟩⟩
      rw [hnil] at hj
      exact nomatch hj
    | some j =>
      obtain ⟨hsteps, hkj, hj, hlive⟩ := liveSteps_cons hhead
      have hplace : placeOf start (some j) = ((start * 2 ^ 32 + j : Nat) : Int) :=
        packed_eq (by omega) (by omega)
      have h1 := startOf_packed start (show j < 2 ^ 32 by omega)
      have h2 := stepOf_packed start (show j < 2 ^ 32 by omega)
      have hslot : t.slotAt (start * 2 ^ 32 + j) = (start + j) &&& t.mask := by
        rw [slotAt, h1, h2]
      obtain ⟨hless, hmark⟩ := RoomOk.takeOthers (start * 2 ^ 32 + j) (plan fuel).1 hok
      -- the table after what the body takes elsewhere
      generalize hothers : SlotTable.takeOthers (start * 2 ^ 32 + j) (plan fuel).1 t =
        r at hless hmark
      obtain ⟨t₁, others⟩ := r
      have hmask : t₁.mask = t.mask := by rw [mask, hless.size, mask]
      have hlive₁ : isLive (t₁.marks ((start + j) &&& t₁.mask)) = true := by
        rw [hslot] at hmark
        rw [hmask, hmark]
        exact hlive
      have hcheck := hless.ok.checkPlace_packed (hless.size ▸ hsmall)
        (hless.size ▸ hstart) (hless.size ▸ hj) hlive₁
      rw [hplace, SlotTable.walkFrom, if_neg (by omega)]
      simp only [Int.toNat_natCast, hothers, hslot]
      cases hplan : (plan fuel).2 with
      | false =>
        -- the walk goes on to the next place
        have hnext : t₁.nextPlace ((start * 2 ^ 32 + j : Nat) : Int) =
            .ok (t₁.liveFrom start (j + 1)) := by
          unfold nextPlace
          rw [hcheck]
          show Except.ok _ = _
          rw [h1, h2]
        have hsize := hless.size
        obtain ⟨t', log, hwalk, hwalked⟩ := ih (j + 1) hless.ok (hless.size ▸ hsmall)
          (hless.size ▸ hstart) (by omega) (by omega)
        refine ⟨t', _, ?_, Walked.cons hsteps hless hwalked⟩
        rw [if_neg (by simp), hnext]
        show Except.bind (t₁.walkFrom plan fuel (t₁.liveFrom start (j + 1))) _ = _
        rw [hwalk]
        rfl
      | true =>
        -- the walk takes its place out
        obtain ⟨t₂, htake, htaken⟩ := takePlace_eq hcheck
        obtain ⟨_, hlt, hlive₂⟩ := hless.ok.checkPlace_ok hcheck
        have hless₂ := hless.trans (hless.ok.lessened hlt hlive₂ htaken)
        have hsize := hless₂.size
        obtain ⟨t', log, hwalk, hwalked⟩ := ih (j + 1) hless₂.ok
          (hless₂.size ▸ hsmall) (hless₂.size ▸ hstart) (by omega) (by omega)
        refine ⟨t', _, ?_, Walked.cons hsteps hless₂ hwalked⟩
        rw [if_pos rfl, htake, h1, h2]
        show Except.bind ((t₂.resized (t₂.count - 1)).walkFrom plan fuel
          ((t₂.resized (t₂.count - 1)).liveFrom start (j + 1))) _ = _
        rw [hwalk]
        show Except.ok _ = Except.ok _
        rw [slotAt, h1, h2, hmask]
        simp

/-! ## Every start -/

/-- **What a walk gives**: each entry once, unless it was taken out before. -/
structure WalksOnce (t : SlotTable E) (log : List (WalkEvent E)) : Prop where
  once : (givenSlots log).Nodup
  live : ∀ i e, .given i e ∈ log → i < t.size ∧ LiveMark (t.marks i) ∧ e = t.slots i
  all : ∀ i, i < t.size → LiveMark (t.marks i) → i ∈ givenSlots log ∨ .taken i ∈ log
  untaken : log.Pairwise NotAfter

theorem step_inj {m j' : Nat} (hj : j < m) (hj' : j' < m)
    (h : (start + j) % m = (start + j') % m) : j = j' := by
  have hmod : j % m = j' % m := Nat.ModEq.add_left_cancel' start h
  rwa [Nat.mod_eq_of_lt hj, Nat.mod_eq_of_lt hj'] at hmod

theorem step_surj {m i : Nat} (hstart : start < m) (hi : i < m) :
    ∃ j, j < m ∧ (start + j) % m = i := by
  rcases Nat.lt_or_ge i start with hlt | hge
  · refine ⟨m - start + i, by omega, ?_⟩
    rw [show start + (m - start + i) = i + m by omega, Nat.add_mod_right, Nat.mod_eq_of_lt hi]
  · refine ⟨i - start, by omega, ?_⟩
    rw [Nat.add_sub_cancel' hge, Nat.mod_eq_of_lt hi]

theorem RoomOk.walksOnce (hok : t.RoomOk) (hstart : start < t.size)
    (h : Walked t start 0 log) : WalksOnce t log := by
  obtain ⟨k, _, hk⟩ := hok.size (by omega)
  have hmask : ∀ x, x &&& t.mask = x % t.size := by
    intro x
    rw [mask, hk, and_mask]
  refine ⟨h.inOrder.nodup ?_, fun i e hmem => ?_, fun i hi hlive => ?_, h.untaken⟩
  · refine Nodup.map_on (fun j hj j' hj' heq => ?_) (Nodup.filter _ nodup_range')
    rw [hmask, hmask] at heq
    exact step_inj (mem_liveSteps.1 hj).1.2 (mem_liveSteps.1 hj').1.2 heq
  · obtain ⟨j, hj, rfl⟩ := h.live hmem
    exact ⟨hok.and_mask_lt (by omega) _, isLive_iff.1 (mem_liveSteps.1 hj).2, h.entries _ e hmem⟩
  · obtain ⟨j, hj, rfl⟩ := step_surj hstart hi
    rw [← hmask] at hlive ⊢
    exact h.all j (mem_liveSteps.2 ⟨⟨Nat.zero_le _, hj⟩, isLive_iff.2 hlive⟩)

/-- Every walk gives each entry once, unless it was taken out before. -/
def EveryWalkOnce (t : SlotTable E) : Prop :=
  ∀ start plan, start < t.size → ∃ t' log, t.walk plan start = .ok (t', log) ∧ WalksOnce t log

/-- The place that the walk from the slot `2 ^ 31` starts at is negative. -/
theorem RoomOk.walk_negative (hok : t.RoomOk) (plan : Nat → List Int × Bool) :
    t.walk plan (2 ^ 31) = .ok (t, []) := by
  have hneg : t.liveFrom (2 ^ 31) 0 < 0 := by
    rw [hok.liveFrom_eq]
    cases hhead : (t.liveSteps (2 ^ 31) 0).head? with
    | none => exact (by decide : (-1 : Int) < 0)
    | some j =>
      have hj := (liveSteps_cons hhead).2.2.1
      have hfits := hok.fits
      have hmax : intMax < 2 ^ 64 := by decide
      exact packed_neg (by omega)
  rw [walk, SlotTable.walkFrom, if_pos hneg]

theorem RoomOk.exists_live (hpairs : t.pairs ≠ []) : ∃ i, i < t.size ∧ LiveMark (t.marks i) := by
  obtain ⟨p, hp⟩ := exists_mem_of_ne_nil _ hpairs
  obtain ⟨i, hi, hpair⟩ := mem_filterMap.1 hp
  refine ⟨i, mem_range.1 hi, ?_⟩
  unfold pairAt at hpair
  split at hpair
  · exact isLive_iff.1 (by assumption)
  · cases hpair

/-- **Every walk gives each entry once exactly where a place holds every start.** -/
theorem Ok.everyWalkOnce_iff (hok : t.Ok) :
    EveryWalkOnce t ↔ t.count = 0 ∨ t.size ≤ 2 ^ 31 := by
  constructor
  · intro h
    by_contra hno
    have hcount : t.count ≠ 0 := fun h0 => hno (Or.inl h0)
    have hsize : 2 ^ 31 < t.size := by omega
    have hne : t.pairs ≠ [] := by
      intro hnil
      rw [hok.count, hnil] at hcount
      exact hcount rfl
    obtain ⟨i, hi, hlive⟩ := RoomOk.exists_live hne
    obtain ⟨t', log, hwalk, honce⟩ := h (2 ^ 31) (fun _ => ([], false)) hsize
    rw [hok.walk_negative] at hwalk
    cases hwalk
    rcases honce.all i hi hlive with hmem | hmem
    · exact absurd hmem not_mem_nil
    · exact absurd hmem not_mem_nil
  · rintro (hzero | hsmall) start plan hstart
    · -- no slot holds an entry, so that the walk has no place to start at
      have hnil : t.pairs = [] := length_eq_zero_iff.1 (hok.count ▸ hzero)
      have hdead : ∀ i, i < t.size → ¬ LiveMark (t.marks i) := by
        intro i hi hlive
        have hmem : (t.marks i, t.slots i) ∈ t.pairs :=
          mem_filterMap.2 ⟨i, mem_range.2 hi, by simp [pairAt, isLive_iff.2 hlive]⟩
        rw [hnil] at hmem
        exact absurd hmem not_mem_nil
      have hsteps : t.liveSteps start 0 = [] := by
        refine filter_eq_nil_iff.2 fun j _ hl => ?_
        exact hdead _ (hok.and_mask_lt (by omega) _) (isLive_iff.1 hl)
      refine ⟨t, [], ?_, nodup_nil, fun _ _ h => absurd h not_mem_nil,
        fun i hi hlive => absurd hlive (hdead i hi), Pairwise.nil⟩
      rw [walk, hok.liveFrom_eq, hsteps]
      rfl
    · obtain ⟨t', log, hwalk, hwalked⟩ := RoomOk.walkFrom plan start (t.size + 1) 0
        hok.toRoomOk hsmall hstart (Nat.zero_le _) (by omega)
      exact ⟨t', log, hwalk, hok.walksOnce hstart hwalked⟩

end SlotTable

end AnticCollection
