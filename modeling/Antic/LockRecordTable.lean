import Antic.LockRecords

/-! # The table of the orders

    The buckets that are not empty, live or `GONE`, are at most half of the table, and each
    live record is reached from the bucket of its hash.  So every probe ends, a record is
    found where there is one, and a table that doubles keeps its records. -/

namespace AnticLockRecords

open AnticCollection FiniteWalk Function

namespace Orders

/-- The table holds the record. -/
def Has (o : Orders) (x : Order) : Prop := IsLock x.first ∧ ∃ i, i < o.capacity ∧ o.slots i = x

/-- There is a record of the two locks. -/
def Recorded (o : Orders) (a b : UInt64) : Prop := ∃ x, o.Has x ∧ x.first = a ∧ x.second = b

/-- The record of the two locks is marked. -/
def Reported (o : Orders) (a b : UInt64) : Prop :=
  ∃ x, o.Has x ∧ x.first = a ∧ x.second = b ∧ x.reported = true

/-- What holds of the table after every call. -/
structure Good (o : Orders) : Prop where
  size : o.capacity = 0 ∨ ∃ k, 1 ≤ k ∧ o.capacity = 2 ^ k
  half : 2 * o.count ≤ o.capacity
  used : ((Finset.range o.capacity).filter fun i => (cells o.firsts i).isSome).card ≤ o.count
  blank : ∀ i, i < o.capacity → (o.slots i).first = 0 → (o.slots i).second = 0
  reached : ∀ i, i < o.capacity → IsLock (o.slots i).first →
    ReachedFrom o.firsts o.capacity (hashOf (o.slots i).first (o.slots i).second) i
  unique : ∀ i j, i < o.capacity → j < o.capacity → IsLock (o.slots i).first →
    (o.slots i).first = (o.slots j).first → (o.slots i).second = (o.slots j).second → i = j

variable {o : Orders}

theorem good_blank {capacity : Nat} (hsize : capacity = 0 ∨ ∃ k, 1 ≤ k ∧ capacity = 2 ^ k) :
    Good ⟨fun _ => .zero, 0, capacity⟩ := by
  have hnone : ∀ _ : Nat, ¬ IsLock Order.zero.first := fun _ h => h.1 rfl
  refine ⟨hsize, Nat.zero_le _, ?_, fun i _ _ => rfl, fun i _ h => absurd h (hnone i),
    fun i _ _ _ h => absurd h (hnone i)⟩
  have hempty : (Finset.range capacity).filter
      (fun i => (cells (Orders.firsts ⟨fun _ => .zero, 0, capacity⟩) i).isSome) = ∅ := by
    rw [Finset.filter_eq_empty_iff]
    intro i _
    exact Bool.false_ne_true
  show (Finset.card _) ≤ 0
  rw [hempty]
  rfl

theorem Good.empty (h : Good o) (hpos : o.capacity ≠ 0) :
    ∃ p, p < o.capacity ∧ o.firsts p = emptyMark := by
  have hused := h.used
  have hhalf := h.half
  obtain ⟨p, hp, hnone⟩ := exists_empty (cells o.firsts) o.capacity (by omega)
  exact ⟨p, hp, cells_eq_none.mp hnone⟩

-- ── A record is found ────

/-- **`order_find`** gives the record of the two locks, and none where there is none. -/
theorem Good.find (h : Good o) {a b : UInt64} (ha : IsLock a) :
    (∃ i, o.orderFind a b = .ok (some i) ∧ i < o.capacity ∧ (o.slots i).first = a ∧
      (o.slots i).second = b) ∨
    (o.orderFind a b = .ok none ∧ ¬ o.Recorded a b) := by
  rcases h.size with hzero | ⟨k, -, hcap⟩
  · right
    refine ⟨if_pos hzero, ?_⟩
    rintro ⟨x, ⟨-, i, hi, -⟩, -⟩
    rw [hzero] at hi
    exact absurd hi (Nat.not_lt_zero i)
  · have hpos : o.capacity ≠ 0 := by
      rw [hcap]
      exact Nat.ne_of_gt (Nat.two_pow_pos k)
    have hslot : o.orderSlot a b = homeOf (hashOf a b) (2 ^ k - 1) := by rw [orderSlot, hcap]
    by_cases hrec : ∃ i, i < o.capacity ∧ (o.slots i).first = a ∧ (o.slots i).second = b
    · obtain ⟨i, hi, rfl, rfl⟩ := hrec
      left
      have hreached := h.reached i hi ha
      rw [hcap] at hreached
      have hseek := seek_finds
        (fun j => (o.slots j).first = (o.slots i).first ∧ (o.slots j).second = (o.slots i).second)
        hreached (decide_eq_true ⟨rfl, rfl⟩) (by
          intro q hq _ hstop
          obtain ⟨h1, h2⟩ := of_decide_eq_true hstop
          exact (h.unique i q hi (by omega) ha h1.symm h2.symm).symm)
      refine ⟨i, ?_, hi, rfl, rfl⟩
      rw [orderFind, if_neg hpos, hslot, hcap, hseek]
      show Except.ok (if (o.slots i).first = 0 then none else some i) = _
      rw [if_neg ha.1]
    · right
      obtain ⟨p, hp, hempty⟩ := h.empty hpos
      rw [hcap] at hp
      obtain ⟨q, hseek, hq, -, hstop⟩ := seek_ends (hashOf a b)
        (fun j => (o.slots j).first = a ∧ (o.slots j).second = b) hp hempty
      refine ⟨?_, ?_⟩
      · rw [orderFind, if_neg hpos, hslot, hcap, hseek]
        show Except.ok (if (o.slots q).first = 0 then none else some q) = _
        rw [if_pos]
        rcases hstop with hstop | hstop
        · exact hstop
        · obtain ⟨h1, h2⟩ := of_decide_eq_true hstop
          exact absurd ⟨q, by omega, h1, h2⟩ hrec
      · rintro ⟨x, ⟨-, i, hi, rfl⟩, h1, h2⟩
        exact hrec ⟨i, hi, h1, h2⟩

-- ── A record is put ────

section Fill

variable {i : Nat} {r : Order}

theorem fill_self : (o.fill i r).slots i = r := update_self ..

theorem fill_of_ne {j : Nat} (h : j ≠ i) : (o.fill i r).slots j = o.slots j := update_of_ne h ..

theorem fill_firsts : (o.fill i r).firsts = update o.firsts i r.first := by
  funext j
  by_cases hj : j = i
  · rw [hj, update_self, Orders.firsts, fill_self]
  · rw [update_of_ne hj, Orders.firsts, fill_of_ne hj, Orders.firsts]

theorem fill_cells (hr : r.first ≠ 0) :
    cells (o.fill i r).firsts = update (cells o.firsts) i (some i) := by
  rw [fill_firsts]
  funext j
  by_cases hj : j = i
  · rw [hj, update_self]
    exact cells_eq_some.mpr ⟨by rw [update_self]; exact hr, rfl⟩
  · rw [update_of_ne hj, cells, cells, update_of_ne hj]

variable (h : Good o) (hroom : (o.count + 1) * 2 ≤ o.capacity) (hr : IsLock r.first)
  (hnew : ¬ o.Recorded r.first r.second) (hi : i < o.capacity) (hblank : (o.slots i).first = 0)
  (hreached : ReachedFrom o.firsts o.capacity (hashOf r.first r.second) i)

include hr hi hblank in
theorem has_fill (x : Order) : (o.fill i r).Has x ↔ x = r ∨ o.Has x := by
  constructor
  · rintro ⟨hx, j, hj, rfl⟩
    by_cases hji : j = i
    · left
      rw [hji, fill_self]
    · right
      rw [fill_of_ne hji] at hx ⊢
      exact ⟨hx, j, hj, rfl⟩
  · rintro (rfl | ⟨hx, j, hj, rfl⟩)
    · exact ⟨hr, i, hi, fill_self⟩
    · have hji : j ≠ i := by
        rintro rfl
        exact hx.1 hblank
      exact ⟨hx, j, hj, fill_of_ne hji⟩

include h hroom hr hnew hreached in
theorem good_fill : Good (o.fill i r) := by
  have hother : ∀ j, j < o.capacity → IsLock (o.slots j).first →
      ¬ (r.first = (o.slots j).first ∧ r.second = (o.slots j).second) := by
    rintro j hj hlive ⟨h1, h2⟩
    exact hnew ⟨o.slots j, ⟨hlive, j, hj, rfl⟩, h1.symm, h2.symm⟩
  refine ⟨h.size, ?_, ?_, ?_, ?_, ?_⟩
  · show 2 * (o.count + 1) ≤ o.capacity
    omega
  · rw [fill_cells hr.1]
    exact Nat.le_trans (card_update_le (cells o.firsts) o.capacity i (some i))
      (Nat.succ_le_succ h.used)
  · intro j hj hzero
    by_cases hji : j = i
    · rw [hji, fill_self] at hzero
      exact absurd hzero hr.1
    · rw [fill_of_ne hji] at hzero ⊢
      exact h.blank j hj hzero
  · intro j hj hlive
    rw [fill_firsts]
    by_cases hji : j = i
    · rw [hji, fill_self]
      exact hreached.update hr.1
    · rw [fill_of_ne hji] at hlive ⊢
      exact (h.reached j hj hlive).update hr.1
  · intro j j' hj hj' hlive h1 h2
    by_cases hji : j = i
    · by_cases hji' : j' = i
      · rw [hji, hji']
      · rw [hji, fill_self, fill_of_ne hji'] at h1 h2
        exact absurd ⟨h1, h2⟩ (hother j' hj' (h1 ▸ hr))
    · rw [fill_of_ne hji] at hlive h1 h2
      by_cases hji' : j' = i
      · rw [hji', fill_self] at h1 h2
        exact absurd ⟨h1.symm, h2.symm⟩ (hother j hj hlive)
      · rw [fill_of_ne hji'] at h1 h2
        exact h.unique j j' hj hj' hlive h1 h2

include h hroom in
theorem exists_place : ∃ i, seek o.firsts (fun _ => false) (o.capacity - 1) o.capacity
        (o.orderSlot r.first r.second) = .ok i ∧ i < o.capacity ∧ (o.slots i).first = 0 ∧
      ReachedFrom o.firsts o.capacity (hashOf r.first r.second) i := by
  obtain ⟨k, -, hcap⟩ : ∃ k, 1 ≤ k ∧ o.capacity = 2 ^ k := by
    rcases h.size with hzero | hsize
    · omega
    · exact hsize
  obtain ⟨p, hp, hempty⟩ := h.empty (by omega)
  rw [orderSlot, hcap] at *
  obtain ⟨i, hseek, hi, hreached, hstop⟩ :=
    seek_ends (hashOf r.first r.second) (fun _ => false) hp hempty
  refine ⟨i, hseek, hi, ?_, hreached⟩
  rcases hstop with hstop | hstop
  · exact hstop
  · cases hstop

end Fill

/-- What a put of a new record gives: the table is good, and holds the record too. -/
def Puts (o : Orders) (r : Order) (result : Except Stop Orders) : Prop :=
  ∃ o', result = .ok o' ∧ Good o' ∧ ∀ x, o'.Has x ↔ x = r ∨ o.Has x

/-- **A put that does not grow** the table. -/
theorem put_fits (h : Good o) {r : Order} (hroom : (o.count + 1) * 2 ≤ o.capacity)
    (hr : IsLock r.first) (hnew : ¬ o.Recorded r.first r.second) (depth : Nat) :
    ∃ i, orderPut (depth + 1) o r = .ok (o.fill i r) ∧ Good (o.fill i r) ∧
      ∀ x, (o.fill i r).Has x ↔ x = r ∨ o.Has x := by
  obtain ⟨i, hseek, hi, hblank, hreached⟩ := exists_place (r := r) h hroom
  refine ⟨i, ?_, good_fill h hroom hr hnew hreached, has_fill hr hi hblank⟩
  have hfits : ¬ (o.count + 1) * 2 > o.capacity := Nat.not_lt.mpr hroom
  rw [orderPut, if_neg hfits]
  show (do let i ← seek o.firsts (fun _ => false) (o.capacity - 1) o.capacity
                    (o.orderSlot r.first r.second)
           return o.fill i r) = _
  rw [hseek]
  rfl

-- ── A table that doubles ────

/-- How many buckets below `i` are not empty. -/
def usedBelow (o : Orders) (i : Nat) : Nat :=
  ((Finset.range i).filter fun j => (cells o.firsts j).isSome).card

theorem usedBelow_mono {i j : Nat} (h : i ≤ j) : o.usedBelow i ≤ o.usedBelow j :=
  Finset.card_le_card (Finset.filter_subset_filter _ (Finset.range_subset_range.mpr h))

theorem usedBelow_succ {i : Nat} (h : (o.slots i).first ≠ 0) :
    o.usedBelow (i + 1) = o.usedBelow i + 1 := by
  have hsome : (cells o.firsts i).isSome = true := by
    rw [cells_eq_some.mpr ⟨h, rfl⟩]
    rfl
  rw [usedBelow, Finset.range_add_one, Finset.filter_insert, if_pos hsome,
    Finset.card_insert_of_notMem]
  · rfl
  · rw [Finset.mem_filter, Finset.mem_range]
    exact fun hmem => Nat.lt_irrefl i hmem.1

/-- The new table holds the live records of the buckets below `i` of the old one. -/
structure Moved (old : Orders) (i : Nat) (o : Orders) : Prop where
  good : Good o
  capacity : old.capacity ≤ o.capacity
  count : o.count ≤ old.usedBelow i
  has : ∀ x, o.Has x ↔ IsLock x.first ∧ ∃ j, j < i ∧ old.slots j = x

/-- **The loop of `orders_grow`** moves every live record. -/
theorem regrow_moves {old : Orders} (h : Good old) (depth : Nat) {capacity : Nat}
    {left i : Nat} {o : Orders} (hleft : i + left = old.capacity) (hcap : o.capacity = capacity)
    (hm : Moved old i o) :
    ∃ o', regrow (orderPut (depth + 1)) old left i o = .ok o' ∧ o'.capacity = capacity ∧
      Moved old old.capacity o' := by
  induction left generalizing i o with
  | zero =>
    rw [Nat.add_zero] at hleft
    exact ⟨o, rfl, hcap, hleft ▸ hm⟩
  | succ left ih =>
    have hnext : i + 1 + left = old.capacity := by omega
    rw [regrow]
    by_cases hlive : (old.slots i).first ≠ 0 ∧ (old.slots i).first ≠ gone
    · have hused : old.usedBelow (i + 1) = old.usedBelow i + 1 := usedBelow_succ hlive.1
      have hall : old.usedBelow (i + 1) ≤ old.count :=
        Nat.le_trans (usedBelow_mono (by omega)) h.used
      have hcount := hm.count
      have hhalf := h.half
      have hwide := hm.capacity
      have hnew : ¬ o.Recorded (old.slots i).first (old.slots i).second := by
        rintro ⟨x, hx, h1, h2⟩
        obtain ⟨-, j, hj, rfl⟩ := (hm.has x).mp hx
        have hij := h.unique i j (by omega) (by omega) hlive h1.symm h2.symm
        omega
      obtain ⟨p, hput, hgood, hhas⟩ := put_fits hm.good (by omega) hlive hnew depth
      have hmoved : Moved old (i + 1) (o.fill p (old.slots i)) := by
        refine ⟨hgood, hm.capacity, ?_, ?_⟩
        · show o.count + 1 ≤ _
          omega
        · intro x
          rw [hhas, hm.has]
          constructor
          · rintro (rfl | ⟨hx, j, hj, rfl⟩)
            · exact ⟨hlive, i, Nat.lt_succ_self i, rfl⟩
            · exact ⟨hx, j, Nat.lt_succ_of_lt hj, rfl⟩
          · rintro ⟨hx, j, hj, rfl⟩
            rcases Nat.lt_or_eq_of_le (Nat.le_of_lt_succ hj) with hlt | rfl
            · exact Or.inr ⟨hx, j, hlt, rfl⟩
            · exact Or.inl rfl
      rw [if_pos hlive, hput]
      exact ih hnext hcap hmoved
    · rw [if_neg hlive]
      refine ih hnext hcap ⟨hm.good, hm.capacity, ?_, ?_⟩
      · exact Nat.le_trans hm.count (usedBelow_mono (Nat.le_succ i))
      · intro x
        rw [hm.has]
        constructor
        · rintro ⟨hx, j, hj, rfl⟩
          exact ⟨hx, j, Nat.lt_succ_of_lt hj, rfl⟩
        · rintro ⟨hx, j, hj, rfl⟩
          rcases Nat.lt_or_eq_of_le (Nat.le_of_lt_succ hj) with hlt | rfl
          · exact ⟨hx, j, hlt, rfl⟩
          · exact absurd hx hlive

/-- **`orders_grow`** gives a table of the same records with room for one more. -/
theorem grows (h : Good o) (depth : Nat) :
    ∃ o', ordersGrow (orderPut (depth + 1)) o = .ok o' ∧ Good o' ∧
      (o'.count + 1) * 2 ≤ o'.capacity ∧ ∀ x, o'.Has x ↔ o.Has x := by
  set capacity := if o.capacity = 0 then 64 else o.capacity * 2 with hdef
  have hsize : ∃ k, 1 ≤ k ∧ capacity = 2 ^ k := by
    rcases h.size with hzero | ⟨k, hk, hcap⟩
    · exact ⟨6, by decide, by rw [hdef, if_pos hzero]; rfl⟩
    · refine ⟨k + 1, Nat.succ_pos k, ?_⟩
      rw [hdef, if_neg (by rw [hcap]; exact Nat.ne_of_gt (Nat.two_pow_pos k)), hcap, Nat.pow_succ]
  have hroom : o.capacity * 2 ≤ capacity ∧ o.capacity + 2 ≤ capacity := by
    rcases h.size with hzero | ⟨k, hk, hcap⟩
    · rw [hdef, if_pos hzero]
      omega
    · have htwo : 2 ^ 1 ≤ 2 ^ k := Nat.pow_le_pow_right (by decide) hk
      rw [hdef, if_neg (by omega)]
      omega
  have hstart : Moved o 0 ⟨fun _ => .zero, 0, capacity⟩ := by
    refine ⟨good_blank (Or.inr hsize), Nat.le_trans (Nat.le_add_right _ 2) hroom.2,
      Nat.zero_le _, ?_⟩
    intro x
    constructor
    · rintro ⟨hx, i, -, rfl⟩
      exact absurd rfl hx.1
    · rintro ⟨-, j, hj, -⟩
      exact absurd hj (Nat.not_lt_zero j)
  obtain ⟨o', hgrow, hcap, hmoved⟩ := regrow_moves h depth (Nat.zero_add _) rfl hstart
  refine ⟨o', hgrow, hmoved.good, ?_, ?_⟩
  · have hcount : o'.count ≤ o.count := Nat.le_trans hmoved.count h.used
    have hhalf := h.half
    have hcap' : o'.capacity = capacity := hcap
    omega
  · intro x
    rw [hmoved.has]
    rfl

/-- **`order_put`** of a record of two locks that have none. -/
theorem puts (h : Good o) {r : Order} (hr : IsLock r.first)
    (hnew : ¬ o.Recorded r.first r.second) : Puts o r (o.orderPut 2 r) := by
  by_cases hroom : (o.count + 1) * 2 ≤ o.capacity
  · obtain ⟨i, hput, hgood, hhas⟩ := put_fits h hroom hr hnew 1
    exact ⟨_, hput, hgood, hhas⟩
  · obtain ⟨o', hgrow, hgood, hroom', hsame⟩ := grows h 0
    have hnew' : ¬ o'.Recorded r.first r.second := by
      rintro ⟨x, hx, hab⟩
      exact hnew ⟨x, (hsame x).mp hx, hab⟩
    obtain ⟨i, hput, hgood'', hhas⟩ := put_fits hgood hroom' hr hnew' 1
    refine ⟨_, ?_, hgood'', fun x => by rw [hhas, hsame]⟩
    have hput' := hput
    rw [orderPut, if_neg (Nat.not_lt.mpr hroom')] at hput'
    rw [orderPut, if_pos (Nat.lt_of_not_le hroom), hgrow]
    exact hput'

-- ── Marks, and records that go ────

theorem recorded_iff {a b : UInt64} : o.Recorded a b ↔
    IsLock a ∧ ∃ i, i < o.capacity ∧ (o.slots i).first = a ∧ (o.slots i).second = b := by
  constructor
  · rintro ⟨x, ⟨hx, i, hi, rfl⟩, rfl, rfl⟩
    exact ⟨hx, i, hi, rfl, rfl⟩
  · rintro ⟨ha, i, hi, rfl, rfl⟩
    exact ⟨_, ⟨ha, i, hi, rfl⟩, rfl, rfl⟩

theorem reported_iff {a b : UInt64} : o.Reported a b ↔
    IsLock a ∧ ∃ i, i < o.capacity ∧ (o.slots i).first = a ∧ (o.slots i).second = b ∧
      (o.slots i).reported = true := by
  constructor
  · rintro ⟨x, ⟨hx, i, hi, rfl⟩, rfl, rfl, hmark⟩
    exact ⟨hx, i, hi, rfl, rfl, hmark⟩
  · rintro ⟨ha, i, hi, rfl, rfl, hmark⟩
    exact ⟨_, ⟨ha, i, hi, rfl⟩, rfl, rfl, hmark⟩

/-- A table stays good where the buckets that are empty stay so, and a bucket keeps its two
    locks or is `GONE`. -/
theorem Good.of_cells (h : Good o) {o' : Orders} (hcap : o'.capacity = o.capacity)
    (hcount : o'.count = o.count) (hcells : cells o'.firsts = cells o.firsts)
    (hkept : ∀ i, (o'.slots i).first ≠ gone →
      (o'.slots i).first = (o.slots i).first ∧ (o'.slots i).second = (o.slots i).second) :
    Good o' := by
  refine ⟨hcap ▸ h.size, ?_, ?_, ?_, ?_, ?_⟩
  · rw [hcap, hcount]
    exact h.half
  · rw [hcap, hcount, hcells]
    exact h.used
  · intro i hi hzero
    have hgone : (o'.slots i).first ≠ gone := by
      rw [hzero]
      exact (by decide : (0 : UInt64) ≠ gone)
    rw [(hkept i hgone).2]
    exact h.blank i (hcap ▸ hi) ((hkept i hgone).1 ▸ hzero)
  · intro i hi hlive
    obtain ⟨h1, h2⟩ := hkept i hlive.2
    rw [ReachedFrom, hcells, hcap, h1, h2]
    exact h.reached i (hcap ▸ hi) (h1 ▸ hlive)
  · intro i j hi hj hlive h1 h2
    obtain ⟨hi1, hi2⟩ := hkept i hlive.2
    obtain ⟨hj1, hj2⟩ := hkept j (h1 ▸ hlive.2)
    exact h.unique i j (hcap ▸ hi) (hcap ▸ hj) (hi1 ▸ hlive) (by rw [← hi1, ← hj1, h1])
      (by rw [← hi2, ← hj2, h2])

section Report

variable {i : Nat}

theorem report_self :
    (o.report (some i)).slots i = { o.slots i with reported := true } := update_self ..

theorem report_of_ne {j : Nat} (h : j ≠ i) : (o.report (some i)).slots j = o.slots j :=
  update_of_ne h ..

theorem report_locks (j : Nat) : ((o.report (some i)).slots j).first = (o.slots j).first ∧
    ((o.report (some i)).slots j).second = (o.slots j).second := by
  by_cases hj : j = i
  · rw [hj, report_self]
    exact ⟨rfl, rfl⟩
  · rw [report_of_ne hj]
    exact ⟨rfl, rfl⟩

theorem good_report (h : Good o) : Good (o.report (some i)) := by
  have hfirsts : (o.report (some i)).firsts = o.firsts := by
    funext j
    exact (report_locks j).1
  exact h.of_cells rfl rfl (by rw [hfirsts]) (fun j _ => report_locks j)

theorem recorded_report {a b : UInt64} : (o.report (some i)).Recorded a b ↔ o.Recorded a b := by
  simp only [recorded_iff, report_locks]
  rfl

theorem reported_report (hi : i < o.capacity) (hlive : IsLock (o.slots i).first)
    {a b : UInt64} : (o.report (some i)).Reported a b ↔
      o.Reported a b ∨ ((o.slots i).first = a ∧ (o.slots i).second = b) := by
  simp only [reported_iff, report_locks]
  constructor
  · rintro ⟨ha, j, hj, h1, h2, hmark⟩
    by_cases hji : j = i
    · right
      rw [← hji]
      exact ⟨h1, h2⟩
    · left
      rw [report_of_ne hji] at hmark
      exact ⟨ha, j, hj, h1, h2, hmark⟩
  · rintro (⟨ha, j, hj, h1, h2, hmark⟩ | ⟨rfl, rfl⟩)
    · refine ⟨ha, j, hj, h1, h2, ?_⟩
      by_cases hji : j = i
      · rw [hji, report_self]
      · rw [report_of_ne hji]
        exact hmark
    · exact ⟨hlive, i, hi, rfl, rfl, by rw [report_self]⟩

end Report

section Forget

variable {lock : UInt64}

theorem forget_slots (o : Orders) (lock : UInt64) (i : Nat) :
    (i < o.capacity ∧ ((o.slots i).first = lock ∨ (o.slots i).second = lock) ∧
      ((o.orderForget lock).slots i).first = gone) ∨
    (¬ (i < o.capacity ∧ ((o.slots i).first = lock ∨ (o.slots i).second = lock)) ∧
      (o.orderForget lock).slots i = o.slots i) := by
  by_cases hhit : i < o.capacity ∧ ((o.slots i).first = lock ∨ (o.slots i).second = lock)
  · left
    have hslot : (o.orderForget lock).slots i = { o.slots i with first := gone, second := gone } :=
      if_pos hhit
    refine ⟨hhit.1, hhit.2, ?_⟩
    rw [hslot]
  · right
    exact ⟨hhit, if_neg hhit⟩

theorem good_forget (h : Good o) (hlock : IsLock lock) : Good (o.orderForget lock) := by
  refine h.of_cells rfl rfl ?_ ?_
  · funext i
    have hzero : (o.orderForget lock).firsts i = emptyMark ↔ o.firsts i = emptyMark := by
      rcases forget_slots o lock i with ⟨hi, hhit, hgone⟩ | ⟨-, hsame⟩
      · constructor
        · intro hempty
          rw [Orders.firsts, hgone] at hempty
          exact absurd hempty (by decide)
        · intro hempty
          exfalso
          rcases hhit with hhit | hhit
          · exact hlock.1 (hhit.symm.trans hempty)
          · exact hlock.1 (hhit.symm.trans (h.blank i hi hempty))
      · rw [Orders.firsts, hsame]
        rfl
    rw [cells, cells]
    simp only [hzero]
  · intro i hne
    rcases forget_slots o lock i with ⟨-, -, hgone⟩ | ⟨-, hsame⟩
    · exact absurd hgone hne
    · rw [hsame]
      exact ⟨rfl, rfl⟩

/-- **`order_forget`** leaves the records that do not name the lock. -/
theorem has_forget {x : Order} :
    (o.orderForget lock).Has x ↔ o.Has x ∧ x.first ≠ lock ∧ x.second ≠ lock := by
  constructor
  · rintro ⟨hx, i, hi, rfl⟩
    rcases forget_slots o lock i with ⟨-, -, hgone⟩ | ⟨hmiss, hsame⟩
    · exact absurd hgone hx.2
    · rw [hsame] at hx ⊢
      exact ⟨⟨hx, i, hi, rfl⟩, fun h1 => hmiss ⟨hi, Or.inl h1⟩, fun h2 => hmiss ⟨hi, Or.inr h2⟩⟩
  · rintro ⟨⟨hx, i, hi, rfl⟩, h1, h2⟩
    refine ⟨hx, i, hi, if_neg ?_⟩
    rintro ⟨-, hhit | hhit⟩
    · exact h1 hhit
    · exact h2 hhit

end Forget

end Orders

end AnticLockRecords
