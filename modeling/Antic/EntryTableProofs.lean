import Antic.EntryTable

/-! # A `Map` is an insertion-ordered finite map

    `Index` says what the buckets know of the entries, and `RoomOk` what holds of
    the room; each function of the table has one lemma that says what it gives
    and that it keeps them.  The contents of a table are its `pairs`, the marked
    hash and the entry of each position that was not removed, in order.  A rebuild
    and a copy keep the pairs, an append adds one, and the map is read off them. -/

namespace AnticCollection

open FiniteWalk Interleaving List Function

/-! ## The buckets -/

/-- The buckets hold the position of every entry that was not removed, where a
    probe for its hash finds it. -/
structure Index (marks : Nat → UInt64) (positions : Nat → Nat) (size : Nat)
    (hashes : Nat → UInt64) : Prop where
  live : ∀ i, hashes i ≠ emptyMark → LiveMark (hashes i)
  reached : ∀ i, hashes i ≠ emptyMark → ∃ p, p < size ∧ marks p = hashes i ∧
    positions p = i ∧ ReachedFrom marks size (hashes i) p
  back : ∀ p, p < size → LiveMark (marks p) → hashes (positions p) = marks p
  inj : ∀ p q, p < size → q < size → LiveMark (marks p) → LiveMark (marks q) →
    positions p = positions q → p = q

theorem not_liveMark_empty : ¬ LiveMark emptyMark := fun h => h.1 rfl

theorem not_liveMark_removed : ¬ LiveMark removedMark := fun h => h.2 rfl

theorem removedMark_ne_empty : removedMark ≠ emptyMark := by decide

section Index

variable {marks hashes : Nat → UInt64} {positions : Nat → Nat} {size i q : Nat} {h : UInt64}

theorem Index.empty (size : Nat) :
    Index (fun _ => emptyMark) (fun _ => 0) size fun _ => emptyMark :=
  ⟨fun _ h => absurd rfl h, fun _ h => absurd rfl h, fun _ _ h => absurd h not_liveMark_empty,
    fun _ _ _ _ h => absurd h not_liveMark_empty⟩

theorem Index.place (hx : Index marks positions size hashes) (hq : q < size)
    (hfree : ¬ LiveMark (marks q)) (hr : ReachedFrom marks size h q)
    (hlive : LiveMark h) (hnew : hashes i = emptyMark) :
    Index (update marks q h) (update positions q i) size (update hashes i h) := by
  have hother : ∀ p, p < size → LiveMark (marks p) → positions p ≠ i := by
    rintro p hp hm rfl
    rw [hx.back p hp hm] at hnew
    exact hm.1 hnew
  refine ⟨fun j hj => ?_, fun j hj => ?_, fun p hp hm => ?_, fun p r hp hr' hm hm' he => ?_⟩
  · by_cases hji : j = i
    · subst hji
      rwa [update_self]
    · rw [update_of_ne hji] at hj ⊢
      exact hx.live j hj
  · by_cases hji : j = i
    · subst hji
      refine ⟨q, hq, ?_, ?_, ?_⟩
      · rw [update_self, update_self]
      · rw [update_self]
      · rw [update_self]
        exact hr.update hlive.1
    · rw [update_of_ne hji] at hj ⊢
      obtain ⟨p, hp, hmark, hpos, hreach⟩ := hx.reached j hj
      have hpq : p ≠ q := by
        rintro rfl
        rw [hmark] at hfree
        exact hfree (hx.live j hj)
      refine ⟨p, hp, ?_, ?_, hreach.update hlive.1⟩
      · rw [update_of_ne hpq, hmark]
      · rw [update_of_ne hpq, hpos]
  · by_cases hpq : p = q
    · subst hpq
      simp
    · rw [update_of_ne hpq] at hm
      rw [update_of_ne hpq, update_of_ne hpq, update_of_ne (hother p hp hm)]
      exact hx.back p hp hm
  · by_cases hpq : p = q
    · by_cases hrq : r = q
      · rw [hpq, hrq]
      · subst hpq
        rw [update_self, update_of_ne hrq] at he
        rw [update_of_ne hrq] at hm'
        exact absurd he.symm (hother r hr' hm')
    · by_cases hrq : r = q
      · subst hrq
        rw [update_self, update_of_ne hpq] at he
        rw [update_of_ne hpq] at hm
        exact absurd he (hother p hp hm)
      · rw [update_of_ne hpq, update_of_ne hrq] at he
        rw [update_of_ne hpq] at hm
        rw [update_of_ne hrq] at hm'
        exact hx.inj p r hp hr' hm hm' he

theorem Index.forget (hx : Index marks positions size hashes) (hq : q < size)
    (hmark : marks q = hashes i) (hpos : positions q = i)
    (hi : hashes i ≠ emptyMark) :
    Index (update marks q removedMark) positions size (update hashes i emptyMark) := by
  have hlive : LiveMark (marks q) := hmark ▸ hx.live i hi
  have hm' : ∀ p, LiveMark (update marks q removedMark p) →
      p ≠ q ∧ LiveMark (marks p) := by
    intro p hp
    by_cases hpq : p = q
    · subst hpq
      rw [update_self] at hp
      exact absurd hp not_liveMark_removed
    · rw [update_of_ne hpq] at hp
      exact ⟨hpq, hp⟩
  refine ⟨fun j hj => ?_, fun j hj => ?_, fun p hp hm => ?_, fun p r hp hr hm hm'' he => ?_⟩
  · by_cases hji : j = i
    · subst hji
      exact absurd (update_self ..) hj
    · rw [update_of_ne hji] at hj ⊢
      exact hx.live j hj
  · by_cases hji : j = i
    · subst hji
      exact absurd (update_self ..) hj
    · rw [update_of_ne hji] at hj ⊢
      obtain ⟨p, hp, hm, hps, hreach⟩ := hx.reached j hj
      have hpq : p ≠ q := by
        rintro rfl
        exact hji (hps.symm.trans hpos)
      refine ⟨p, hp, ?_, hps, hreach.update removedMark_ne_empty⟩
      rw [update_of_ne hpq, hm]
  · obtain ⟨hpq, hm⟩ := hm' p hm
    have hne : positions p ≠ i := fun he => hpq (hx.inj p q hp hq hm hlive (he.trans hpos.symm))
    rw [update_of_ne hpq, update_of_ne hne]
    exact hx.back p hp hm
  · exact hx.inj p r hp hr (hm' p hm).2 (hm' r hm'').2 he

/-- The number of buckets that are not empty. -/
def filled (marks : Nat → UInt64) (size : Nat) : Nat :=
  ((Finset.range size).filter fun i => (cells marks i).isSome).card

theorem cells_update (marks : Nat → UInt64) (q : Nat) (m : UInt64) : cells (update marks q m) =
      update (cells marks) q (if m = emptyMark then none else some q) := by
  funext i
  by_cases hi : i = q
  · subst hi
    rw [update_self, cells, update_self]
  · rw [update_of_ne hi, cells, cells, update_of_ne hi]

theorem filled_update_le (marks : Nat → UInt64) (size q : Nat) (m : UInt64) :
    filled (update marks q m) size ≤ filled marks size + 1 := by
  unfold filled
  rw [cells_update]
  exact card_update_le _ _ _ _

theorem filled_update_of_filled {q : Nat} {m : UInt64} (hm : marks q ≠ emptyMark) :
    filled (update marks q m) size ≤ filled marks size := by
  refine Finset.card_le_card fun p hp => ?_
  obtain ⟨hlt, hsome⟩ := Finset.mem_filter.1 hp
  refine Finset.mem_filter.2 ⟨hlt, ?_⟩
  by_cases hpq : p = q
  · subst hpq
    simp [cells, hm]
  · rwa [cells, update_of_ne hpq] at hsome

end Index

/-! ## The room -/

namespace EntryTable

variable {E : Type}

/-- What holds of the room of a table at every time. -/
structure RoomOk (t : EntryTable E) : Prop where
  used_le : t.used ≤ t.roomSize
  fits : t.roomSize ≤ intMax
  room : t.room = decide (0 < t.roomSize)
  buckets : t.room = true → ∃ k, t.bucketCount = 2 ^ k ∧ 2 * t.roomSize ≤ t.bucketCount
  index : Index t.marks t.positions t.bucketCount t.hashes
  beyond : ∀ i, t.used ≤ i → t.hashes i = emptyMark
  zero : ∀ i, t.hashes i = emptyMark → t.entries i = none
  full : filled t.marks t.bucketCount ≤ t.used

/-- The positions that were not removed. -/
def places (t : EntryTable E) : List Nat :=
  (List.range t.used).filter fun i => t.hashes i ≠ emptyMark

/-- The marked hash and the entry of a position that was not removed. -/
def pairAt (t : EntryTable E) (i : Nat) : Option (UInt64 × Option E) :=
  if t.hashes i = emptyMark then none else some (t.hashes i, t.entries i)

/-- The contents of a table. -/
def pairs (t : EntryTable E) : List (UInt64 × Option E) := (List.range t.used).filterMap t.pairAt

/-- What holds of a table between the calls. -/
structure Ok (t : EntryTable E) : Prop extends RoomOk t where
  count : t.count = t.pairs.length

variable {t : EntryTable E}

theorem RoomOk.room_pos (h : t.RoomOk) (hroom : t.room = true) : 0 < t.roomSize := by
  have := h.room
  rw [hroom] at this
  simpa using this.symm

theorem RoomOk.room_of_lt (h : t.RoomOk) {i : Nat} (hi : i < t.roomSize) :
    t.room = true := by
  rw [h.room]
  simp only [decide_eq_true_eq]
  omega

theorem RoomOk.used_eq_zero (h : t.RoomOk) (hroom : t.room = false) : t.used = 0 := by
  have hsize : t.roomSize = 0 := by
    have := h.room
    rw [hroom] at this
    simpa using this.symm
  exact Nat.le_zero.1 (hsize ▸ h.used_le)

/-- **The buckets always hold an empty one.** -/
theorem RoomOk.exists_empty (h : t.RoomOk) (hroom : t.room = true) :
    ∃ p, p < t.bucketCount ∧ t.marks p = emptyMark := by
  obtain ⟨k, _, hle⟩ := h.buckets hroom
  have hpos := h.room_pos hroom
  have hfull := h.full
  have hused := h.used_le
  obtain ⟨p, hp, hnone⟩ := FiniteWalk.exists_empty (cells t.marks) t.bucketCount
    (Nat.lt_of_le_of_lt hfull (by omega))
  exact ⟨p, hp, cells_eq_none.1 hnone⟩

theorem length_pairs (t : EntryTable E) : t.pairs.length = t.places.length := by
  have hsome : ∀ l : List Nat, (l.filterMap t.pairAt).length =
      (l.filter fun i => t.hashes i ≠ emptyMark).length := by
    intro l
    induction l with
    | nil => rfl
    | cons i l ih =>
      by_cases hi : t.hashes i = emptyMark
      · rw [filterMap_cons_none (by simp [pairAt, hi]), filter_cons_of_neg (by simp [hi]), ih]
      · rw [filterMap_cons_some (by simp only [pairAt, if_neg hi]; rfl),
          filter_cons_of_pos (by simp [hi]), length_cons,
          length_cons, ih]
  exact hsome _

theorem places_le_used (t : EntryTable E) : t.places.length ≤ t.used := by
  have := length_filter_le (fun i => decide (t.hashes i ≠ emptyMark)) (List.range t.used)
  rwa [length_range] at this

theorem RoomOk.resized (h : t.RoomOk) (n : Nat) : (t.resized n).RoomOk :=
  ⟨h.used_le, h.fits, h.room, h.buckets, h.index, h.beyond, h.zero, h.full⟩

theorem RoomOk.write (h : t.RoomOk) {i : Nat} (hi : t.hashes i ≠ emptyMark)
    (e : Option E) : (t.write i e).RoomOk := by
  refine ⟨h.used_le, h.fits, h.room, h.buckets, h.index, h.beyond, fun j hj => ?_, h.full⟩
  have hne : j ≠ i := by
    rintro rfl
    exact hi hj
  show update t.entries i e j = none
  rw [update_of_ne hne]
  exact h.zero j hj

/-! ## Probes -/

theorem RoomOk.place_eq (hok : t.RoomOk) (hroom : t.room = true)
    (t₁ : EntryTable E) (hmarks : t₁.marks = t.marks)
    (hcount : t₁.bucketCount = t.bucketCount) (hroom₁ : t₁.room = true)
    (h : UInt64) (i : Nat) :
    ∃ q, q < t.bucketCount ∧ ¬ LiveMark (t.marks q) ∧ ReachedFrom t.marks t.bucketCount h q ∧
      t₁.place h i = .ok { t₁ with marks := update t.marks q h
                                   positions := update t₁.positions q i } := by
  obtain ⟨k, hk, _⟩ := hok.buckets hroom
  obtain ⟨p, hp, hempty⟩ := hok.exists_empty hroom
  rw [hk] at hp
  obtain ⟨q, hseek, hq, hreach, hstop⟩ :=
    seek_ends h (fun i => decide (t.marks i = removedMark)) hp hempty
  refine ⟨q, hk ▸ hq, ?_, hk ▸ hreach, ?_⟩
  · rcases hstop with he | hr
    · rw [he]
      exact not_liveMark_empty
    · rw [of_decide_eq_true hr]
      exact not_liveMark_removed
  · unfold place
    rw [if_neg (by simp [hroom₁]), mask, hmarks, hcount, hk, hseek]
    rfl

/-- A probe of `position` for a hash that no entry accepts finds none. -/
theorem RoomOk.position_none (hok : t.RoomOk) {h : UInt64} (hlive : LiveMark h) {same : E → Bool}
    (hnone : ∀ i, t.hashes i = h → (t.entries i).any same = false) :
    t.position h same = .ok none := by
  cases hroom : t.room with
  | false => simp [position, hroom]
  | true =>
    obtain ⟨k, hk, _⟩ := hok.buckets hroom
    obtain ⟨p, hp, hempty⟩ := hok.exists_empty hroom
    rw [hk] at hp
    obtain ⟨q, hseek, hq, _, hstop⟩ := seek_ends h (fun i => decide (t.marks i = h) &&
        (t.entries (t.positions i)).any same) hp hempty
    have hq0 : t.marks q = emptyMark := by
      rcases hstop with he | hs
      · exact he
      · -- a bucket of the hash leads back to an entry of the hash
        obtain ⟨hm, hany⟩ := Bool.and_eq_true_iff.1 hs
        have hm := of_decide_eq_true hm
        have hback := hok.index.back q (hk ▸ hq) (hm ▸ hlive)
        rw [hnone _ (hback.trans hm)] at hany
        exact absurd hany (by decide)
    unfold position
    rw [if_neg (by simp [hroom]), mask, hk, hseek]
    simp [bind, Except.bind, pure, Except.pure, hq0]

theorem RoomOk.position_some (hok : t.RoomOk) {h : UInt64} {i : Nat}
    {same : E → Bool} (hi : t.hashes i = h) (hne : h ≠ emptyMark)
    (hsame : (t.entries i).any same = true)
    (huniq : ∀ j, t.hashes j = h → (t.entries j).any same = true → j = i) :
    t.position h same = .ok (some i) := by
  have hlive : LiveMark h := hi ▸ hok.index.live i (hi ▸ hne)
  have hroom : t.room = true := by
    have hlt : i < t.used := by
      by_contra hle
      exact hne (hi ▸ hok.beyond i (Nat.le_of_not_lt hle))
    exact hok.room_of_lt (Nat.lt_of_lt_of_le hlt hok.used_le)
  obtain ⟨k, hk, _⟩ := hok.buckets hroom
  obtain ⟨p, hp, hmark, hpos, hreach⟩ := hok.index.reached i (hi ▸ hne)
  rw [hi] at hmark hreach
  have hseek := seek_finds (h := h) (k := k)
    (fun i => decide (t.marks i = h) && (t.entries (t.positions i)).any same)
    (hk ▸ hreach) (by simp [hmark, hpos, hsame]) (fun q hq _ hs => by
      obtain ⟨hm, hany⟩ := Bool.and_eq_true_iff.1 hs
      have hm := of_decide_eq_true hm
      have hq' : q < t.bucketCount := hk ▸ hq
      have hback := hok.index.back q hq' (hm ▸ hlive)
      have hqi := huniq _ (hback.trans hm) hany
      exact hok.index.inj q p hq' hp (hm ▸ hlive) (hmark ▸ hlive) (hqi.trans hpos.symm))
  unfold position
  rw [if_neg (by simp [hroom]), mask, hk, hseek]
  simp [bind, Except.bind, pure, Except.pure, hmark, hne, hpos]

theorem RoomOk.position_ends (hok : t.RoomOk) (h : UInt64) (same : E → Bool) :
    ∃ found, t.position h same = .ok found := by
  cases hroom : t.room with
  | false => exact ⟨none, by simp [position, hroom]⟩
  | true =>
    obtain ⟨k, hk, _⟩ := hok.buckets hroom
    obtain ⟨p, hp, hempty⟩ := hok.exists_empty hroom
    rw [hk] at hp
    obtain ⟨q, hseek, _⟩ := seek_ends h (fun i => decide (t.marks i = h) &&
        (t.entries (t.positions i)).any same) hp hempty
    unfold position
    rw [if_neg (by simp [hroom]), mask, hk, hseek]
    exact ⟨_, rfl⟩

theorem RoomOk.forget_eq (hok : t.RoomOk) {i : Nat} (hi : t.hashes i ≠ emptyMark) :
    ∃ q, q < t.bucketCount ∧ t.marks q = t.hashes i ∧ t.positions q = i ∧
      t.forget i = .ok { t with marks := update t.marks q removedMark } := by
  have hlive := hok.index.live i hi
  have hroom : t.room = true := by
    have hlt : i < t.used := by
      by_contra hle
      exact hi (hok.beyond i (Nat.le_of_not_lt hle))
    exact hok.room_of_lt (Nat.lt_of_lt_of_le hlt hok.used_le)
  obtain ⟨k, hk, _⟩ := hok.buckets hroom
  obtain ⟨p, hp, hmark, hpos, hreach⟩ := hok.index.reached i hi
  have hseek := seek_finds (h := t.hashes i) (k := k)
    (fun j => decide (t.marks j = t.hashes i) && decide (t.positions j = i))
    (hk ▸ hreach) (by simp [hmark, hpos]) (fun q hq _ hs => by
      obtain ⟨hm, hqi⟩ := Bool.and_eq_true_iff.1 hs
      have hm := of_decide_eq_true hm
      exact hok.index.inj q p (hk ▸ hq) hp (hm ▸ hlive) (hmark ▸ hlive)
        ((of_decide_eq_true hqi).trans hpos.symm))
  refine ⟨p, hp, hmark, hpos, ?_⟩
  unfold forget
  rw [if_neg (by simp [hroom])]
  show (seek t.marks (fun j => decide (t.marks j = t.hashes i) &&
    decide (t.positions j = i)) t.mask t.bucketCount (homeOf (t.hashes i) t.mask) >>= _) = _
  rw [mask, hk, hseek]
  simp [bind, Except.bind, pure, Except.pure, hmark, hi]

/-! ## Growth -/

/-- The sizes of a room, its seed and its count. -/
structure SameRoom (t t' : EntryTable E) : Prop where
  elementSize : t'.elementSize = t.elementSize
  seed : t'.seed = t.seed
  room : t'.room = t.room
  roomSize : t'.roomSize = t.roomSize
  bucketCount : t'.bucketCount = t.bucketCount

theorem SameRoom.trans {t₁ t₂ : EntryTable E} (h : SameRoom t t₁)
    (h' : SameRoom t₁ t₂) : SameRoom t t₂ :=
  ⟨h'.elementSize.trans h.elementSize, h'.seed.trans h.seed, h'.room.trans h.room,
    h'.roomSize.trans h.roomSize, h'.bucketCount.trans h.bucketCount⟩

theorem RoomOk.place_last (hok : t.RoomOk) (hlt : t.used < t.roomSize) {h : UInt64}
    (hlive : LiveMark h) (e : Option E) :
    ∃ t', ({ t with entries := update t.entries t.used e
                    hashes := update t.hashes t.used h }).place h t.used
        = .ok t' ∧
      RoomOk { t' with used := t.used + 1 } ∧ SameRoom t t' ∧
      t'.used = t.used ∧ t'.count = t.count ∧
      t'.entries = update t.entries t.used e ∧
      t'.hashes = update t.hashes t.used h := by
  have hroom := hok.room_of_lt hlt
  obtain ⟨q, hq, hfree, hreach, heq⟩ := hok.place_eq hroom
    { t with entries := update t.entries t.used e
             hashes := update t.hashes t.used h } rfl rfl hroom h t.used
  refine ⟨_, heq, ⟨hlt, hok.fits, hok.room, hok.buckets, ?_, fun i hi => ?_, fun i hi => ?_, ?_⟩,
    ⟨rfl, rfl, rfl, rfl, rfl⟩, rfl, rfl, rfl, rfl⟩
  · exact hok.index.place hq hfree hreach hlive (hok.beyond _ (Nat.le_refl _))
  · have hne : i ≠ t.used := Nat.ne_of_gt hi
    show update t.hashes t.used h i = emptyMark
    rw [update_of_ne hne]
    exact hok.beyond i (Nat.le_of_succ_le hi)
  · have hi : update t.hashes t.used h i = emptyMark := hi
    have hne : i ≠ t.used := by
      rintro rfl
      rw [update_self] at hi
      exact hlive.1 hi
    rw [update_of_ne hne] at hi
    show update t.entries t.used e i = none
    rw [update_of_ne hne]
    exact hok.zero i hi
  · exact Nat.le_trans (filled_update_le _ _ _ _) (Nat.succ_le_succ hok.full)

variable {t' : EntryTable E}

theorem pairs_snoc {h : UInt64} (hne : h ≠ emptyMark) {e : Option E} (hused : t'.used = t.used + 1)
    (hentries : t'.entries = update t.entries t.used e)
    (hhashes : t'.hashes = update t.hashes t.used h) :
    t'.pairs = t.pairs ++ [(h, e)] := by
  have hlast : t'.pairAt t.used = some (h, e) := by
    simp [pairAt, hentries, hhashes, hne]
  have hbefore : (List.range t.used).filterMap t'.pairAt = t.pairs := by
    refine filterMap_congr fun i hi => ?_
    have hne : i ≠ t.used := Nat.ne_of_lt (mem_range.1 hi)
    simp only [pairAt, hentries, hhashes, update_of_ne hne]
  rw [pairs, hused, range_succ, filterMap_append, hbefore, filterMap_cons_some hlast, filterMap_nil]

theorem RoomOk.moveIn (hok : t.RoomOk) (hlt : t.used < t.roomSize) {h : UInt64}
    (hlive : LiveMark h) (e : Option E) :
    ∃ t', t.moveIn h e = .ok t' ∧ t'.RoomOk ∧ SameRoom t t' ∧
      t'.used = t.used + 1 ∧ t'.count = t.count ∧ t'.pairs = t.pairs ++ [(h, e)] := by
  obtain ⟨t', heq, hok', hsame, hused, hcount, hentries, hhashes⟩ := hok.place_last hlt hlive e
  refine ⟨{ t' with used := t'.used + 1 }, ?_, ?_, ⟨hsame.1, hsame.2, hsame.3,
    hsame.4, hsame.5⟩, ?_, hcount, ?_⟩
  · rw [EntryTable.moveIn, heq]
    rfl
  · rw [hused]
    exact hok'
  · show t'.used + 1 = _
    rw [hused]
  · exact pairs_snoc hlive.1 (by show t'.used + 1 = _; rw [hused]) hentries hhashes

theorem RoomOk.moveAll {src : EntryTable E} (hlive : ∀ i, src.hashes i ≠ emptyMark →
      LiveMark (src.hashes i)) :
    ∀ (l : List Nat) {made : EntryTable E}, made.RoomOk →
      made.used + (l.filterMap src.pairAt).length ≤ made.roomSize →
      ∃ t', l.foldlM (fun made i =>
          if src.hashes i = emptyMark then .ok made
          else made.moveIn (src.hashes i) (src.entries i)) made = .ok t' ∧
        t'.RoomOk ∧ SameRoom made t' ∧ t'.count = made.count ∧
        t'.used = made.used + (l.filterMap src.pairAt).length ∧
        t'.pairs = made.pairs ++ l.filterMap src.pairAt := by
  intro l
  induction l with
  | nil =>
    intro made hok _
    exact ⟨made, rfl, hok, ⟨rfl, rfl, rfl, rfl, rfl⟩, rfl, rfl, by simp⟩
  | cons i l ih =>
    intro made hok hfits
    by_cases hi : src.hashes i = emptyMark
    · have hnone : src.pairAt i = none := by simp [pairAt, hi]
      rw [filterMap_cons_none hnone] at hfits ⊢
      obtain ⟨t', heq, hrest⟩ := ih hok hfits
      refine ⟨t', ?_, hrest⟩
      rw [foldlM_cons, if_pos hi]
      exact heq
    · have hsome : src.pairAt i = some (src.hashes i, src.entries i) := by
        simp [pairAt, hi]
      rw [filterMap_cons_some hsome] at hfits ⊢
      rw [length_cons] at hfits
      obtain ⟨t₁, heq₁, hok₁, hsame₁, hused₁, hcount₁, hpairs₁⟩ :=
        hok.moveIn (by omega) (hlive i hi) (src.entries i)
      obtain ⟨t', heq, hok', hsame, hcount, hused, hpairs⟩ :=
        ih hok₁ (by rw [hused₁, hsame₁.roomSize]; omega)
      refine ⟨t', ?_, hok', hsame₁.trans hsame, hcount.trans hcount₁, ?_, ?_⟩
      · rw [foldlM_cons, if_neg hi, heq₁]
        exact heq
      · rw [hused, hused₁, length_cons]
        omega
      · rw [hpairs, hpairs₁, append_assoc]
        rfl

/-- The buckets of new room are a power of two, at least twice the entries. -/
theorem bucketsFor_yields (t : EntryTable E) (n : Nat) : Yields (t.bucketsFor n)
      fun b => ((∃ k, b = 2 ^ k) ∧ 2 * n ≤ b) ∧ n ≤ intMax := by
  refine (roomTimes_yields n 2).bind fun want hwant => ?_
  refine (doubled_yields (show 0 < firstBuckets by decide) (by decide)).bind fun b hb => ?_
  refine (roomTimes_yields n t.elementSize).bind fun _ _ => ?_
  refine (aligned_yields _ _).bind fun _ _ => ?_
  refine (roomTimes_yields n 8).bind fun _ _ => ?_
  refine (roomPlus_yields _ _).bind fun _ _ => ?_
  refine (roomTimes_yields b 16).bind fun _ _ => ?_
  refine (roomPlus_yields _ _).bind fun _ _ => ?_
  exact .pure ⟨⟨hb.2.2 ⟨4, rfl⟩, by omega⟩, by omega⟩

/-- What a rebuild for `n` entries makes of a table. -/
structure Rebuilt (t : EntryTable E) (n : Nat) (t' : EntryTable E) : Prop where
  ok : t'.RoomOk
  seed : t'.seed = t.seed
  elementSize : t'.elementSize = t.elementSize
  count : t'.count = t.count
  roomSize : t'.roomSize = n
  used : t'.used = t.pairs.length
  pairs : t'.pairs = t.pairs

theorem emptied_roomOk (t : EntryTable E) {n b : Nat}
    (hb : 0 < n → (∃ k, b = 2 ^ k) ∧ 2 * n ≤ b) (hn : n ≤ intMax) :
    (t.emptied n b).RoomOk := by
  refine ⟨Nat.zero_le _, hn, rfl, fun hroom => ?_, Index.empty b, fun _ _ => rfl,
    fun _ _ => rfl, ?_⟩
  · obtain ⟨⟨k, hk⟩, hle⟩ := hb (of_decide_eq_true hroom)
    exact ⟨k, hk, hle⟩
  · show filled (fun _ => emptyMark) b ≤ 0
    simp [filled, cells]

theorem RoomOk.rebuild (hok : t.RoomOk) {n : Nat} (hn : t.pairs.length ≤ n) :
    Yields (t.rebuild n) (Rebuilt t n) := by
  have hbuckets : Yields (if 0 < n then t.bucketsFor n else .ok 0)
      fun b => (0 < n → (∃ k, b = 2 ^ k) ∧ 2 * n ≤ b) ∧ n ≤ intMax := by
    split
    · exact (t.bucketsFor_yields n).mono fun _ hb => ⟨fun _ => hb.1, hb.2⟩
    · exact .pure ⟨fun h => absurd h (by assumption), by omega⟩
  refine hbuckets.bind fun b hb => ?_
  have hempty := t.emptied_roomOk hb.1 hb.2
  split
  · next hno =>
      -- there is nothing to move
      have hnil : t.pairs = [] := by
        rcases hno with hroom | hzero
        · simp [EntryTable.pairs, hok.used_eq_zero hroom]
        · exact length_eq_zero_iff.1 (by omega)
      exact .pure ⟨hempty, rfl, rfl, rfl, rfl, by rw [hnil]; rfl, by rw [hnil]; rfl⟩
  · obtain ⟨t', heq, hok', hsame, hcount, hused, hpairs⟩ :=
      RoomOk.moveAll hok.index.live (List.range t.used) hempty
        (by rw [show (t.emptied n b).used = 0 from rfl, Nat.zero_add]; exact hn)
    rw [heq]
    refine .pure ⟨hok', hsame.seed, hsame.elementSize, hcount, hsame.roomSize, ?_, ?_⟩
    · rw [hused]
      exact Nat.zero_add _
    · rw [hpairs]
      rfl

theorem grown_yields {size need : Nat} (hle : size ≤ intMax) :
    Yields (grown size need) fun n => need ≤ n :=
  (doubled_yields (Nat.lt_of_lt_of_le (by decide) (Nat.le_max_right _ _))
    (Nat.max_le.2 ⟨hle, by decide⟩)).mono fun _ h => h.1

theorem Ok.makeRoom (hok : t.Ok) :
    Yields t.makeRoom fun t' => ∃ n, t.pairs.length < n ∧ Rebuilt t n t' := by
  have hle : t.pairs.length ≤ t.used := by
    rw [length_pairs]
    exact t.places_le_used
  have hused := hok.used_le
  unfold EntryTable.makeRoom
  split
  · next h =>
      have hcount := hok.count
      refine (hok.rebuild (n := t.roomSize) (by omega)).mono fun t' ht' => ⟨_, ?_, ht'⟩
      omega
  · refine (grown_yields hok.fits).bind fun n hn => ?_
    refine (hok.rebuild (n := n) (by omega)).mono fun t' ht' => ⟨_, ?_, ht'⟩
    omega

/-- A table that `append` has added an entry to, which the caller then writes. -/
structure Appended (t : EntryTable E) (h : UInt64) (r : EntryTable E × Nat) :
    Prop where
  ok : ∀ e, (r.1.write r.2 e).Ok
  seed : r.1.seed = t.seed
  pairs : ∀ e, (r.1.write r.2 e).pairs = t.pairs ++ [(h, e)]

theorem Ok.append (hok : t.Ok) {h : UInt64} (hlive : LiveMark h) :
    Yields (t.append h) (Appended t h) := by
  have hfirst : Yields (if t.used = t.roomSize then t.makeRoom else .ok t)
      fun t₁ => t₁.Ok ∧ t₁.seed = t.seed ∧ t₁.pairs = t.pairs ∧
        t₁.used < t₁.roomSize := by
    split
    · refine hok.makeRoom.mono fun t₁ ⟨n, hn, hr⟩ => ?_
      refine ⟨⟨hr.ok, ?_⟩, hr.seed, hr.pairs, ?_⟩
      · rw [hr.count, hok.count, hr.pairs]
      · rw [hr.used, hr.roomSize]
        exact hn
    · have hle := hok.used_le
      exact .pure ⟨hok, rfl, rfl, by omega⟩
  refine hfirst.bind fun t₁ ⟨hok₁, hseed, hpairs, hlt⟩ => ?_
  have hroom := hok₁.room_of_lt hlt
  obtain ⟨t₂, heq, hok₂, hsame, hused, hcount, hentries, hhashes⟩ :=
    hok₁.place_last hlt hlive (t₁.entries t₁.used)
  rw [update_eq_self] at heq hentries
  rw [if_neg (by simp [hroom])]
  have hwrite : ∀ e, ((({ t₂ with used := t₂.used + 1 }).resized
      (t₂.count + 1)).write t₁.used e).pairs = t₁.pairs ++ [(h, e)] := by
    intro e
    refine pairs_snoc hlive.1 ?_ ?_ hhashes
    · show t₂.used + 1 = t₁.used + 1
      rw [hused]
    · show update t₂.entries t₁.used e = _
      rw [hentries]
  show Yields (Except.bind (EntryTable.place _ h t₁.used) _) _
  rw [heq]
  refine .pure ⟨fun e => ⟨?_, ?_⟩, hsame.seed.trans hseed, fun e => ?_⟩
  · have hlast : t₂.hashes t₁.used ≠ emptyMark := by
      rw [hhashes, update_self]
      exact hlive.1
    have hok₂ : RoomOk { t₂ with used := t₂.used + 1 } := by
      rw [hused]
      exact hok₂
    exact (hok₂.resized (t₂.count + 1)).write hlast e
  · rw [hwrite e, length_append, ← hok₁.count]
    show t₂.count + 1 = t₁.count + 1
    rw [hcount]
  · rw [hwrite e, hpairs]

theorem Ok.rebuilt {n : Nat} (hok : t.Ok) (h : Rebuilt t n t') :
    t'.Ok ∧ t'.seed = t.seed ∧ t'.pairs = t.pairs :=
  ⟨⟨h.ok, by rw [h.count, hok.count, h.pairs]⟩, h.seed, h.pairs⟩

theorem Ok.reserve (hok : t.Ok) (n : Int) :
    Yields (t.reserve n) fun t' => t'.Ok ∧ t'.seed = t.seed ∧ t'.pairs = t.pairs := by
  unfold EntryTable.reserve
  split
  · refine (roomPlus_yields _ _).bind fun need hneed => ?_
    split
    · have hle : t.pairs.length ≤ need := by
        rw [← hok.count]
        omega
      exact (hok.rebuild hle).mono fun t' h => hok.rebuilt h
    · exact .pure ⟨hok, rfl, rfl⟩
  · exact .pure ⟨hok, rfl, rfl⟩

theorem Ok.shrink (hok : t.Ok) :
    Yields t.shrink fun t' => t'.Ok ∧ t'.seed = t.seed ∧ t'.pairs = t.pairs := by
  unfold EntryTable.shrink
  split
  · exact (hok.rebuild (Nat.le_of_eq hok.count.symm)).mono fun t' h => hok.rebuilt h
  · exact .pure ⟨hok, rfl, rfl⟩

theorem new_ok (seed : UInt64) (elementSize : Nat) :
    ({ elementSize := elementSize, seed := seed } : EntryTable E).Ok := by
  refine ⟨⟨Nat.le_refl _, Nat.zero_le _, rfl, (fun h => nomatch h), Index.empty _,
    fun _ _ => rfl, fun _ _ => rfl, ?_⟩, rfl⟩
  show filled (fun _ => emptyMark) 0 ≤ 0
  simp [filled]

theorem Ok.copyAll {src : EntryTable E} (hlive : ∀ i, src.hashes i ≠ emptyMark →
      LiveMark (src.hashes i)) :
    ∀ (l : List Nat) {made : EntryTable E}, made.Ok → Yields (l.foldlM (fun made i =>
          if src.hashes i = emptyMark then .ok made
          else do
            let (made, slot) ← made.append (src.hashes i)
            return made.write slot (src.entries i)) made)
        fun t' => t'.Ok ∧ t'.seed = made.seed ∧
          t'.pairs = made.pairs ++ l.filterMap src.pairAt := by
  intro l
  induction l with
  | nil => intro made hok; exact .pure ⟨hok, rfl, by simp⟩
  | cons i l ih =>
    intro made hok
    rw [foldlM_cons]
    by_cases hi : src.hashes i = emptyMark
    · have hnone : src.pairAt i = none := by simp [pairAt, hi]
      rw [if_pos hi, filterMap_cons_none hnone]
      exact ih hok
    · have hsome : src.pairAt i = some (src.hashes i, src.entries i) := by
        simp [pairAt, hi]
      rw [if_neg hi, filterMap_cons_some hsome]
      have hone : Yields (do
          let (made, slot) ← made.append (src.hashes i)
          return made.write slot (src.entries i)) fun t₁ : EntryTable E =>
          t₁.Ok ∧ t₁.seed = made.seed ∧
          t₁.pairs = made.pairs ++ [(src.hashes i, src.entries i)] :=
        (hok.append (hlive i hi)).bind fun r hr => .pure ⟨hr.ok _, hr.seed, hr.pairs _⟩
      refine hone.bind fun t₁ ⟨hok₁, hseed₁, hpairs₁⟩ => ?_
      refine (ih hok₁).mono fun t' ⟨hok', hseed', hpairs'⟩ => ?_
      refine ⟨hok', hseed'.trans hseed₁, ?_⟩
      rw [hpairs', hpairs₁, append_assoc]
      rfl

theorem Ok.copy (hok : t.Ok) :
    Yields t.copy fun t' => t'.Ok ∧ t'.seed = t.seed ∧ t'.pairs = t.pairs := by
  have hnew := new_ok (E := E) t.seed t.elementSize
  refine (hnew.rebuild (n := t.count) (Nat.zero_le _)).bind fun made hmade => ?_
  obtain ⟨hok₁, hseed₁, hpairs₁⟩ := hnew.rebuilt hmade
  have hnil : made.pairs = [] := hpairs₁
  split
  · next hroom =>
      refine .pure ⟨hok₁, hseed₁, ?_⟩
      rw [hnil]
      simp [EntryTable.pairs, hok.used_eq_zero hroom]
  · refine (Ok.copyAll hok.index.live (List.range t.used) hok₁).mono
      fun t' ⟨hok', hseed', hpairs'⟩ => ⟨hok', hseed'.trans hseed₁, ?_⟩
    rw [hpairs', hnil]
    rfl

/-! ## Places -/

/-- The positions from `i` on that were not removed. -/
def placesFrom (t : EntryTable E) (i : Nat) : List Nat :=
  (List.range' i (t.used - i)).filter fun i => t.hashes i ≠ emptyMark

theorem placesFrom_zero (t : EntryTable E) : t.placesFrom 0 = t.places := by
  rw [placesFrom, Nat.sub_zero, ← range_eq_range']
  rfl

theorem RoomOk.liveFrom_eq (hok : t.RoomOk) (i : Nat) :
    t.liveFrom i = (t.placesFrom i).head? := by
  unfold liveFrom placesFrom
  rw [head?_filter]
  split
  · next hroom => simp [hok.used_eq_zero hroom]
  · rfl

theorem placesFrom_cons {i q : Nat} (h : (t.placesFrom i).head? = some q) :
    t.placesFrom i = q :: t.placesFrom (q + 1) ∧ q < t.used ∧
      t.hashes q ≠ emptyMark := by
  have hfind : (List.range' i (t.used - i)).find?
      (fun i => decide (t.hashes i ≠ emptyMark)) = some q := by
    rw [← head?_filter]
    exact h
  obtain ⟨hlt, hle, heq⟩ := filter_range'_of_find hfind
  have hq := find?_some hfind
  refine ⟨?_, by omega, by simpa using hq⟩
  rw [placesFrom, heq, placesFrom]
  congr 3
  omega

theorem RoomOk.checkPlace (hok : t.RoomOk) {q : Nat} (hq : t.hashes q ≠ emptyMark) :
    t.checkPlace q = .ok q := by
  have hlt : q < t.used := by
    by_contra hle
    exact hq (hok.beyond q (Nat.le_of_not_lt hle))
  have hroom := hok.room_of_lt (Nat.lt_of_lt_of_le hlt hok.used_le)
  unfold EntryTable.checkPlace
  rw [if_neg (by simp [hroom]), if_neg]
  · rfl
  · rintro (h | h | h)
    · omega
    · omega
    · exact hq h

/-- **A walk gives every place once, in order.** -/
theorem RoomOk.walk (hok : t.RoomOk) : t.walk = .ok t.places := by
  have hwalk : ∀ fuel i, t.used < fuel + i →
      t.walkFrom fuel (t.liveFrom i) = .ok (t.placesFrom i) ∨ fuel = 0 := by
    intro fuel
    induction fuel with
    | zero => exact fun _ _ => Or.inr rfl
    | succ fuel ih =>
      intro i hi
      left
      rw [hok.liveFrom_eq i]
      cases hhead : (t.placesFrom i).head? with
      | none =>
        rw [head?_eq_none_iff.1 hhead]
        rfl
      | some q =>
        obtain ⟨heq, hlt, hq⟩ := placesFrom_cons hhead
        have hnext : t.nextPlace q = .ok (t.liveFrom (q + 1)) := by
          unfold nextPlace
          rw [hok.checkPlace hq]
          rfl
        rw [heq, EntryTable.walkFrom, hnext]
        have hle : i ≤ q := by
          have hmem : q ∈ t.placesFrom i := by simp [heq]
          have := (mem_filter.1 hmem).1
          exact (mem_range'_1.1 this).1
        rcases ih (q + 1) (by omega) with h | h
        · show Except.bind (t.walkFrom fuel (t.liveFrom (q + 1))) _ = _
          rw [h]
          rfl
        · omega
  rcases hwalk (t.used + 1) 0 (by omega) with h | h
  · rw [EntryTable.walk, firstPlace, h, placesFrom_zero]
  · exact nomatch h

theorem RoomOk.takePlace (hok : t.RoomOk) {i : Nat} (hi : t.hashes i ≠ emptyMark) :
    ∃ t', t.takePlace i = .ok (t', t.entries i, (t.placesFrom (i + 1)).head?) ∧
      t'.RoomOk ∧ t'.seed = t.seed ∧ t'.used = t.used ∧ t'.count = t.count ∧
      t'.hashes = update t.hashes i emptyMark ∧
      t'.entries = update t.entries i none := by
  obtain ⟨q, hq, hmark, hpos, heq⟩ := hok.forget_eq hi
  have hroom' : ({ t with marks := update t.marks q removedMark
                          hashes := update t.hashes i emptyMark
                          entries := update t.entries i none } :
      EntryTable E).RoomOk := by
    refine ⟨hok.used_le, hok.fits, hok.room, hok.buckets,
      hok.index.forget hq hmark hpos hi, fun j hj => ?_, fun j hj => ?_, ?_⟩
    · show update t.hashes i emptyMark j = emptyMark
      by_cases hji : j = i
      · rw [hji, update_self]
      · rw [update_of_ne hji]
        exact hok.beyond j hj
    · show update t.entries i none j = none
      by_cases hji : j = i
      · rw [hji, update_self]
      · rw [update_of_ne hji]
        refine hok.zero j ?_
        rw [← hj]
        exact (update_of_ne hji _ _).symm
    · refine Nat.le_trans (filled_update_of_filled ?_) hok.full
      rw [hmark]
      exact hi
  refine ⟨_, ?_, hroom', rfl, rfl, rfl, rfl, rfl⟩
  have hafter : ({ t with marks := update t.marks q removedMark
                          hashes := update t.hashes i emptyMark
                          entries := update t.entries i none } :
      EntryTable E).liveFrom (i + 1) = (t.placesFrom (i + 1)).head? := by
    rw [hroom'.liveFrom_eq]
    congr 1
    refine filter_congr fun j hj => ?_
    have hne : j ≠ i := by
      have := (mem_range'_1.1 hj).1
      omega
    simp only [update_of_ne hne]
  rw [← hafter]
  unfold EntryTable.takePlace
  rw [hok.checkPlace hi]
  show Except.bind (t.forget i) _ = _
  rw [heq]
  rfl

theorem RoomOk.lt_used (hok : t.RoomOk) {i : Nat} (hi : t.hashes i ≠ emptyMark) :
    i < t.used := by
  by_contra hle
  exact hi (hok.beyond i (Nat.le_of_not_lt hle))

theorem RoomOk.pairs_take (hok : t.RoomOk) {i : Nat} (hi : t.hashes i ≠ emptyMark)
    (hused : t'.used = t.used)
    (hhashes : t'.hashes = update t.hashes i emptyMark)
    (hentries : t'.entries = update t.entries i none) :
    ∃ p₁ p₂, t.pairs = p₁ ++ (t.hashes i, t.entries i) :: p₂ ∧
      t'.pairs = p₁ ++ p₂ := by
  have hsplit := range_split (hok.lt_used hi)
  have hother : ∀ j, j ≠ i → t'.pairAt j = t.pairAt j := by
    intro j hj
    simp only [pairAt, hhashes, hentries, update_of_ne hj]
  have hself : t'.pairAt i = none := by simp [pairAt, hhashes]
  refine ⟨(List.range i).filterMap t.pairAt,
    (List.range' (i + 1) (t.used - (i + 1))).filterMap t.pairAt, ?_, ?_⟩
  · rw [pairs, hsplit, filterMap_append,
      filterMap_cons_some (by simp only [pairAt, if_neg hi]; rfl)]
  · rw [pairs, hused, hsplit, filterMap_append, filterMap_cons_none hself]
    congr 1
    · exact filterMap_congr fun j hj => hother j (Nat.ne_of_lt (mem_range.1 hj))
    · refine filterMap_congr fun j hj => hother j ?_
      have := (mem_range'_1.1 hj).1
      omega

theorem RoomOk.places_take (hok : t.RoomOk) {i : Nat} (hi : t.hashes i ≠ emptyMark)
    (hused : t'.used = t.used)
    (hhashes : t'.hashes = update t.hashes i emptyMark) :
    ∃ l, t.places = l ++ i :: t.placesFrom (i + 1) ∧
      t'.places = l ++ t.placesFrom (i + 1) := by
  have hsplit := range_split (hok.lt_used hi)
  refine ⟨(List.range i).filter fun j => t.hashes j ≠ emptyMark, ?_, ?_⟩
  · rw [places, hsplit, filter_append, filter_cons_of_pos (by simp [hi])]
    rfl
  · rw [places, hused, hsplit, filter_append, filter_cons_of_neg (by simp [hhashes])]
    congr 1
    · refine filter_congr fun j hj => ?_
      have hne : j ≠ i := Nat.ne_of_lt (mem_range.1 hj)
      rw [hhashes, update_of_ne hne]
    · refine filter_congr fun j hj => ?_
      have hne : j ≠ i := by
        have := (mem_range'_1.1 hj).1
        omega
      rw [hhashes, update_of_ne hne]

theorem takePlace_error {at_ : Int}
    (h : ¬ (0 ≤ at_ ∧ at_ < t.used ∧ t.hashes at_.toNat ≠ emptyMark)) :
    t.takePlace at_ = .error .noElement := by
  have hcheck : t.checkPlace at_ = .error .noElement := by
    unfold EntryTable.checkPlace
    split
    · rfl
    · rw [if_pos]
      by_contra hno
      refine h ⟨?_, ?_, ?_⟩
      · by_contra h0
        exact hno (Or.inl (by omega))
      · by_contra h1
        exact hno (Or.inr (Or.inl (by omega)))
      · exact fun h2 => hno (Or.inr (Or.inr h2))
  unfold EntryTable.takePlace
  rw [hcheck]
  rfl

end EntryTable

end AnticCollection
