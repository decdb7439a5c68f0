import Antic.MapProofs
import Antic.SlotWalkProofs

/-! # The calls of a `HashMap`, and a finite map

    `HashOk` adds the keys to what holds of a table.  The entries stand in no order, so that a call
    is compared with what it does to the finite map of the entries. -/

namespace AnticCollection

open Interleaving SlotTable List

section HashMap

variable {K V : Type} [BEq K]

/-- The entry of a slot that holds one. -/
def slotEntry (t : SlotTable (K × V)) (i : Nat) : Option (K × V) := (t.pairAt i).bind Prod.snd

/-- The entries of a table, slot by slot. -/
def entries (t : SlotTable (K × V)) : List (K × V) := t.pairs.filterMap Prod.snd

/-- What holds of the table of a `HashMap` between the calls. -/
structure HashOk (hash : K → UInt64) (t : SlotTable (K × V)) : Prop
    extends SlotTable.Ok t where
  keyed : ∀ p ∈ t.pairs, ∃ e, p = (marked t.seed (hash e.1), some e)
  distinct : (entries t).Pairwise Apart

variable {hash : K → UInt64} {t : SlotTable (K × V)}

omit [BEq K] in
theorem entries_eq (t : SlotTable (K × V)) :
    entries t = (List.range t.size).filterMap (slotEntry t) := by
  rw [entries, pairs, filterMap_filterMap]
  rfl

/-- A slot that holds an entry holds it under the hash of its key. -/
theorem HashOk.entry (h : HashOk hash t) {i : Nat} (hi : i < t.size)
    (hlive : LiveMark (t.marks i)) :
    ∃ e, t.slots i = some e ∧ t.marks i = marked t.seed (hash e.1) ∧
      slotEntry t i = some e := by
  have hmem : (t.marks i, t.slots i) ∈ t.pairs :=
    mem_filterMap.2 ⟨i, mem_range.2 hi, by simp [pairAt, isLive_iff.2 hlive]⟩
  obtain ⟨e, he⟩ := h.keyed _ hmem
  refine ⟨e, congrArg Prod.snd he, congrArg Prod.fst he, ?_⟩
  rw [slotEntry, pairAt, if_pos (isLive_iff.2 hlive), he]
  rfl

omit [BEq K] in
theorem live_of_slotEntry {i : Nat} {e : K × V} (h : slotEntry t i = some e) :
    LiveMark (t.marks i) ∧ t.slots i = some e := by
  unfold slotEntry pairAt at h
  split at h
  · exact ⟨isLive_iff.1 (by assumption), h⟩
  · exact nomatch h

/-! ## The finite map of a list of entries -/

variable [EquivBEq K]

omit [EquivBEq K] in
theorem assocGet_cons (e : K × V) (l : List (K × V)) (k : K) :
    assocGet (e :: l) k = if e.1 == k then some e.2 else assocGet l k := by
  rw [assocGet, find?_cons]
  cases e.1 == k with
  | true => rfl
  | false => rfl

theorem apart_symm {a b : K × V} (hab : Apart a b) : Apart b a := by
  by_contra hba
  have hba : (b.1 == a.1) = true := by simpa [Apart] using hba
  rw [Apart, BEq.symm hba] at hab
  exact absurd hab (by decide)

instance : Std.Symm (Apart (K := K) (V := V)) := ⟨fun _ _ => apart_symm⟩

theorem eq_of_same_key {l : List (K × V)} (hd : l.Pairwise Apart) {a b : K × V}
    (ha : a ∈ l) (hb : b ∈ l) {k : K} (hak : (a.1 == k) = true)
    (hbk : (b.1 == k) = true) : a = b := by
  by_contra hne
  have hab := hd.forall ha hb hne
  rw [Apart, PartialEquivBEq.trans hak (BEq.symm hbk)] at hab
  exact absurd hab (by decide)

theorem assocGet_of_mem {l : List (K × V)} (hd : l.Pairwise Apart) {e : K × V}
    (he : e ∈ l) {k : K} (hk : (e.1 == k) = true) : assocGet l k = some e.2 := by
  rw [assocGet, find?_eq_of_unique he hk fun b hb hbk => eq_of_same_key hd hb he hbk hk]
  rfl

theorem assocGet_perm {l l' : List (K × V)} (hd : l.Pairwise Apart) (hp : l.Perm l')
    (k : K) : assocGet l' k = assocGet l k := by
  have hd' : l'.Pairwise Apart := (hp.pairwise_iff apart_symm).1 hd
  by_cases hex : ∃ e ∈ l, (e.1 == k) = true
  · obtain ⟨e, he, hk⟩ := hex
    rw [assocGet_of_mem hd he hk, assocGet_of_mem hd' (hp.mem_iff.1 he) hk]
  · have hno : ∀ e ∈ l, (e.1 == k) = false := by
      intro e he
      cases hk : e.1 == k with
      | false => rfl
      | true => exact absurd ⟨e, he, hk⟩ hex
    rw [assocGet_eq_none hno, assocGet_eq_none fun e he => hno e (hp.mem_iff.2 he)]

/-! ## The calls -/

theorem HashOk.of_perm (h : HashOk hash t) {t' : SlotTable (K × V)} (hok : t'.Ok)
    (hseed : t'.seed = t.seed) (hpairs : t'.pairs.Perm t.pairs) :
    HashOk hash t' ∧ ∀ k, assocGet (entries t') k = assocGet (entries t) k := by
  have hlist : (entries t').Perm (entries t) := hpairs.filterMap _
  refine ⟨⟨hok, fun p hp => ?_, ?_⟩, assocGet_perm h.distinct hlist.symm⟩
  · rw [hseed]
    exact h.keyed p (hpairs.mem_iff.1 hp)
  · exact (hlist.pairwise_iff apart_symm).2 h.distinct

theorem HashOk.put (h : HashOk hash t) {k : K} (v : V) (hno : ∀ e ∈ entries t, (e.1 == k) = false) :
    Yields (do
        let (t, i) ← t.put (marked t.seed (hash k))
        return t.write i (some (k, v)))
      fun t' => HashOk hash t' ∧ ∀ x, assocGet (entries t') x =
        if k == x then some v else assocGet (entries t) x := by
  refine (h.toOk.put (liveMark_marked t.seed (hash k))).bind fun r hr => ?_
  have hpairs := hr.pairs (some (k, v))
  have hlist : (entries (r.1.write r.2 (some (k, v)))).Perm ((k, v) :: entries t) :=
    hpairs.filterMap _
  have hseed : (r.1.write r.2 (some (k, v))).seed = t.seed := hr.seed
  have hd : ((k, v) :: entries t).Pairwise Apart :=
    pairwise_cons.2 ⟨fun e he => apart_symm (hno e he), h.distinct⟩
  refine .pure ⟨⟨hr.ok _, fun p hp => ?_, ?_⟩, fun x => ?_⟩
  · rw [hseed]
    rcases mem_cons.1 (hpairs.mem_iff.1 hp) with hp | hp
    · exact ⟨(k, v), hp⟩
    · exact h.keyed p hp
  · exact (hlist.pairwise_iff apart_symm).2 hd
  · rw [assocGet_perm hd hlist.symm, assocGet_cons]

theorem HashOk.taken (h : HashOk hash t) {i : Nat} (hi : i < t.size)
    (hlive : LiveMark (t.marks i)) {t' : SlotTable (K × V)} (htaken : Taken t i t') :
    HashOk hash t' ∧ ∃ e, t.slots i = some e ∧ assocGet (entries t) e.1 = some e.2 ∧
      ∀ x, assocGet (entries t') x =
        if e.1 == x then none else assocGet (entries t) x := by
  obtain ⟨e, hslot, hmark, _⟩ := h.entry hi hlive
  obtain ⟨hok, hpairs⟩ := h.toOk.taken hi hlive htaken
  rw [hslot] at hpairs
  have hlist : (entries t).Perm (e :: entries t') := hpairs.filterMap _
  have hd : (e :: entries t').Pairwise Apart := (hlist.pairwise_iff apart_symm).1 h.distinct
  obtain ⟨hhead, hd'⟩ := pairwise_cons.1 hd
  refine ⟨⟨hok, fun p hp => ?_, hd'⟩, e, hslot, ?_, fun x => ?_⟩
  · rw [htaken.seed]
    exact h.keyed p (hpairs.mem_iff.2 (mem_cons_of_mem _ hp))
  · exact assocGet_of_mem h.distinct (hlist.mem_iff.2 (mem_cons_self ..)) BEq.rfl
  · rw [← assocGet_perm h.distinct hlist x, assocGet_cons]
    cases hx : e.1 == x with
    | false => rfl
    | true =>
      refine assocGet_eq_none fun e' he' => ?_
      by_contra hne
      have hne : (e'.1 == x) = true := by simpa using hne
      have hapart := hhead e' he'
      rw [Apart, PartialEquivBEq.trans hx (BEq.symm hne)] at hapart
      exact absurd hapart (by decide)

/-- **`find` gives the slot of a key, or none where the key is not there.** -/
theorem HashOk.find_cases (h : HashOk hash t)
    (hhash : ∀ a b : K, (a == b) = true → hash a = hash b) (k : K) :
    (∃ i e, hashFind hash t k = .ok (some i) ∧ i < t.size ∧ LiveMark (t.marks i) ∧
      t.slots i = some e ∧ (e.1 == k) = true ∧ assocGet (entries t) k = some e.2) ∨
    (hashFind hash t k = .ok none ∧ ∀ e ∈ entries t, (e.1 == k) = false) := by
  by_cases hex : ∃ e ∈ entries t, (e.1 == k) = true
  · left
    obtain ⟨e, hmem, hk⟩ := hex
    have hmem' := hmem
    rw [entries_eq] at hmem'
    obtain ⟨i, hi, hentry⟩ := mem_filterMap.1 hmem'
    have hi := mem_range.1 hi
    obtain ⟨hlive, hslot⟩ := live_of_slotEntry hentry
    obtain ⟨e₁, he₁, hmark, _⟩ := h.entry hi hlive
    rw [hslot] at he₁
    cases he₁
    have hd := h.distinct
    rw [entries_eq] at hd
    refine ⟨i, e, ?_, hi, hlive, hslot, hk, assocGet_of_mem h.distinct hmem hk⟩
    refine h.slotOf_some hi (hmark.trans ?_) (liveMark_marked _ _) ?_ fun j hj hjmark hany => ?_
    · rw [hhash _ _ hk]
    · simp [hslot, hk]
    · have hjlive : LiveMark (t.marks j) := by
        rw [hjmark]
        exact liveMark_marked _ _
      obtain ⟨e', he', _, hat⟩ := h.entry hj hjlive
      rw [he'] at hany
      have hk' : (e'.1 == k) = true := by simpa using hany
      exact index_eq_of_apart hd hj hi hat hentry (PartialEquivBEq.trans hk' (BEq.symm hk))
  · right
    have hno : ∀ e ∈ entries t, (e.1 == k) = false := by
      intro e he
      cases hk : e.1 == k with
      | false => rfl
      | true => exact absurd ⟨e, he, hk⟩ hex
    refine ⟨h.slotOf_none fun i hi himark => ?_, hno⟩
    have hlive : LiveMark (t.marks i) := by
      rw [himark]
      exact liveMark_marked _ _
    obtain ⟨e, he, _, hat⟩ := h.entry hi hlive
    have hmem : e ∈ entries t := by
      rw [entries_eq]
      exact mem_filterMap.2 ⟨i, mem_range.2 hi, hat⟩
    rw [he]
    simpa using hno e hmem

/-- What a call that returns does: what the finite map does. -/
def FollowsFinite (hash : K → UInt64) (t : SlotTable (K × V)) (call : SlotCall K V)
    (r : SlotTable (K × V) × SlotAnswer K V) : Prop :=
  HashOk hash r.1 ∧ FiniteStep (assocGet (entries t)) call r.2 (assocGet (entries r.1))

theorem HashOk.add (h : HashOk hash t)
    (hhash : ∀ a b : K, (a == b) = true → hash a = hash b) (k : K) (v : V) :
    Yields (slotCall hash t (.put k v)) (FollowsFinite hash t (.put k v)) := by
  rcases h.find_cases hhash k with ⟨i, e, hf, _, _, _, _, hget⟩ | ⟨hf, hno⟩
  · have hcall : slotCall hash t (.put k v) = .ok (t, .added false) := by
      simp only [slotCall, hashAdd, hf]
      rfl
    rw [hcall]
    refine .pure ⟨h, .putOld k v ?_⟩
    rw [hget]
    exact fun he => nomatch he
  · have hcall : slotCall hash t (.put k v) = Except.bind (do
        let (t, i) ← t.put (marked t.seed (hash k))
        return t.write i (some (k, v))) fun t' => .ok (t', .added true) := by
      simp only [slotCall, hashAdd, hf]
      cases t.put (marked t.seed (hash k)) <;> rfl
    rw [hcall]
    refine (h.put v hno).bind fun t' ⟨hok, hget⟩ => .pure ⟨hok, ?_⟩
    rw [show assocGet (entries t') = _ from funext hget]
    exact .putNew k v (assocGet_eq_none hno)

theorem HashOk.takePlace (h : HashOk hash t) {at_ : Int} {p : Nat}
    (hcheck : t.checkPlace at_ = .ok p) :
    Yields (slotCall hash t (.takePlace at_)) (FollowsFinite hash t (.takePlace at_)) := by
  obtain ⟨t', htake, htaken⟩ := takePlace_eq hcheck
  obtain ⟨_, hi, hlive⟩ := h.checkPlace_ok hcheck
  obtain ⟨hok, e, hslot, hget, hrest⟩ := h.taken hi hlive htaken
  simp only [slotCall, htake, hslot]
  refine .pure ⟨hok, ?_⟩
  rw [show assocGet (entries (t'.resized (t'.count - 1))) = _ from funext hrest]
  exact .takePlace at_ e _ hget

omit [EquivBEq K] [BEq K] in
theorem checkPlace_error {at_ : Int} {stop : Stop} (h : t.checkPlace at_ = .error stop) :
    stop = .noElement := by
  unfold checkPlace at h
  split at h
  · exact (Except.error.inj h).symm
  · split at h
    · exact (Except.error.inj h).symm
    · split at h
      · exact (Except.error.inj h).symm
      · split at h
        · cases h
        · exact (Except.error.inj h).symm

/-- What a call gives: what the finite map gives, or the program stops for want of
    memory or at a place without an entry. -/
theorem HashOk.call (h : HashOk hash t)
    (hhash : ∀ a b : K, (a == b) = true → hash a = hash b) (call : SlotCall K V) :
    Yields (slotCall hash t call) (FollowsFinite hash t call) ∨
    (∃ at_, call = .takePlace at_ ∧ t.checkPlace at_ = .error .noElement ∧
      slotCall hash t call = .error .noElement) := by
  have hsame : ∀ {r : Except Stop (SlotTable (K × V))} {call : SlotCall K V},
      Yields r (fun t' => t'.Ok ∧ t'.seed = t.seed ∧ t'.pairs.Perm t.pairs) →
      FiniteStep (assocGet (entries t)) call .nothing (assocGet (entries t)) →
      Yields (Except.bind r fun t' => .ok (t', .nothing)) (FollowsFinite hash t call) := by
    intro r call hr hstep
    refine hr.bind fun t' ⟨hok, hseed, hpairs⟩ => .pure ?_
    obtain ⟨hmap, hget⟩ := h.of_perm hok hseed hpairs
    refine ⟨hmap, ?_⟩
    rw [show assocGet (entries t') = _ from funext hget]
    exact hstep
  cases call with
  | put k v => exact Or.inl (h.add hhash k v)
  | takePlace at_ =>
    cases hcheck : t.checkPlace at_ with
    | ok p => exact Or.inl (h.takePlace hcheck)
    | error stop =>
      have hstop := checkPlace_error hcheck
      subst hstop
      refine Or.inr ⟨at_, rfl, hcheck, ?_⟩
      simp only [slotCall, SlotTable.takePlace, hcheck]
      rfl
  | reserve n => exact Or.inl (hsame (h.toOk.reserve n) (.reserve n))
  | shrink => exact Or.inl (hsame h.toOk.shrink .shrink)
  | copy => exact Or.inl (hsame h.toOk.copy .copy)

/-! ## Every sequence of calls -/

/-- **What a `HashMap` is after a sequence of calls.** -/
structure FiniteMap (hash : K → UInt64) (calls : List (SlotCall K V × SlotAnswer K V))
    (t : SlotTable (K × V)) : Prop where
  /-- The calls gave what a finite map gives, and a probe finds its entries. -/
  finite : ∃ f, FiniteRun calls f ∧ ∀ k, ∃ found, hashFind hash t k = .ok found ∧
    (found.isSome = true ↔ f k ≠ none) ∧
    ∀ i, found = some i → ∃ e, t.slots i = some e ∧ (e.1 == k) = true ∧ f k = some e.2
  /-- A call returns, unless memory runs out or its place holds no entry. -/
  returns : ∀ call stop, slotCall hash t call = .error stop → stop = .memory ∨
    stop = .noElement ∧ ∃ at_, call = .takePlace at_ ∧ ∀ p, t.checkPlace at_ ≠ .ok p
  slotOf_ends : ∀ h same, ∃ found, t.slotOf h same = .ok found
  freeSlot_ends : t.room = true → ∀ h, ∃ i, t.freeSlot h = .ok i ∧ i < t.size ∧
    ¬ LiveMark (t.marks i)
  load : 2 * (t.count + t.removed) ≤ t.size
  size : t.size = 0 ∨ ∃ k, 4 ≤ k ∧ t.size = 2 ^ k
  removed : t.removed = ((List.range t.size).filter (t.marks · = removedMark)).length
  /-- A walk starts at a slot of the table. -/
  first : ∀ draw, 0 < t.count → ∃ start, start < t.size ∧ (t.firstPlace draw).2 = t.liveFrom start 0

theorem length_removedMarks (marks : Nat → UInt64) (n : Nat) : (removedMarks marks n).length =
      ((List.range n).filter (marks · = removedMark)).length := by
  rw [removedMarks]
  congr 1
  induction List.range n with
  | nil => rfl
  | cons i l ih =>
    by_cases hi : marks i = removedMark
    · rw [filterMap_cons_some (by rw [if_pos hi]), filter_cons_of_pos (by simp [hi]), ih]
    · rw [filterMap_cons_none (by rw [if_neg hi]), filter_cons_of_neg (by simp [hi]), ih]

theorem HashOk.of_runs (hhash : ∀ a b : K, (a == b) = true → hash a = hash b) {seed : UInt64}
    {elementSize elementAlign : Nat} {calls : List (SlotCall K V × SlotAnswer K V)}
    (hrun : Runs (SlotStep hash) { elementSize := elementSize
                                   elementAlign := elementAlign
                                   seed := seed } calls t) :
    HashOk hash t ∧ FiniteRun calls (assocGet (entries t)) := by
  refine hrun.invariant
    (fun calls t => HashOk hash t ∧ FiniteRun calls (assocGet (entries t))) ?_ ?_
  · exact ⟨⟨new_ok seed 0 elementSize elementAlign,
      fun p hp => absurd hp not_mem_nil, Pairwise.nil⟩, .start⟩
  · rintro calls t ⟨call, answer⟩ t' ⟨hok, hfinite⟩ hstep
    have hstep : slotCall hash t call = .ok (t', answer) := hstep
    rcases hok.call hhash call with hy | ⟨_, _, _, herr⟩
    · obtain ⟨hok', hfollow⟩ := hy.of_ok hstep
      exact ⟨hok', hfinite.snoc hfollow⟩
    · rw [herr] at hstep
      cases hstep

/-- **A `HashMap` is a finite map after every sequence of calls, and every walk gives each of its
    entries once exactly where it has no entry or at most `2 ^ 31` slots.** -/
theorem hashMap_finite (hhash : ∀ a b : K, (a == b) = true → hash a = hash b) {seed : UInt64}
    {elementSize elementAlign : Nat} {calls : List (SlotCall K V × SlotAnswer K V)}
    (hrun : Runs (SlotStep hash) { elementSize := elementSize
                                   elementAlign := elementAlign
                                   seed := seed } calls t) :
    FiniteMap hash calls t ∧ (EveryWalkOnce t ↔ t.count = 0 ∨ t.size ≤ 2 ^ 31) := by
  obtain ⟨hok, hfinite⟩ := HashOk.of_runs hhash hrun
  refine ⟨⟨⟨_, hfinite, fun k => ?_⟩, fun call stop hstop => ?_, hok.slotOf_ends,
    fun hroom h => ?_, hok.load, ?_, ?_, fun draw hcount => ?_⟩, hok.everyWalkOnce_iff⟩
  · rcases hok.find_cases hhash k with ⟨i, e, hf, _, _, hslot, hk, hget⟩ | ⟨hf, hno⟩
    · refine ⟨some i, hf, by simp [hget], ?_⟩
      intro i' hi'
      cases hi'
      exact ⟨e, hslot, hk, hget⟩
    · exact ⟨none, hf, by simp [assocGet_eq_none hno], fun _ h => nomatch h⟩
  · rcases hok.call hhash call with hy | ⟨at_, hcall, hcheck, herr⟩
    · rcases hy with ⟨r, hr, _⟩ | hm
      · rw [hr] at hstop
        cases hstop
      · rw [hm] at hstop
        cases hstop
        exact Or.inl rfl
    · rw [herr] at hstop
      cases hstop
      refine Or.inr ⟨rfl, at_, hcall, fun p hp => ?_⟩
      rw [hcheck] at hp
      cases hp
  · have hpos := hok.size_pos hroom
    have hload := hok.load
    rw [hok.count, hok.removed] at hload
    obtain ⟨q, hq, hlt, hfree, _⟩ := hok.freeSlot hpos (by omega) h
    exact ⟨q, hq, hlt, hfree⟩
  · rcases Nat.eq_zero_or_pos t.size with h | h
    · exact Or.inl h
    · exact Or.inr (hok.size h)
  · rw [hok.removed, length_removedMarks]
  · have hload := hok.load
    refine ⟨homeOf (t.shuffle draw).2 t.mask, hok.and_mask_lt (by omega) _, ?_⟩
    rw [firstPlace, if_neg (by omega)]
    rfl

end HashMap

/-- A new `HashMap` of numbers. -/
def numberHashMap : SlotTable (Nat × Nat) := { elementSize := 16, elementAlign := 16, seed := 5 }

/-- Room for `2 ^ 30 + 1` entries, and one of them. -/
def largeCalls : List (SlotCall Nat Nat × SlotAnswer Nat Nat) :=
  [(.reserve (2 ^ 30 + 1), .nothing), (.put 1 10, .added true)]

/-- What the calls of `largeCalls` give, with the slots and the entries at the end. -/
theorem largeCalls_eval :
    (numberHashMap.reserve (2 ^ 30 + 1) >>= fun t => hashAdd UInt64.ofNat t 1 10).map
      (fun r => (r.1.size, r.1.count, r.2)) = .ok (2 ^ 32, 1, true) := by
  decide +kernel

theorem largeCalls_run : ∃ t, Runs (SlotStep UInt64.ofNat) numberHashMap largeCalls t ∧
    t.size = 2 ^ 32 ∧ t.count = 1 := by
  have hfacts := largeCalls_eval
  cases hreserve : numberHashMap.reserve (2 ^ 30 + 1) with
  | error stop =>
    rw [hreserve] at hfacts
    cases hfacts
  | ok t₁ =>
    rw [hreserve] at hfacts
    change (hashAdd UInt64.ofNat t₁ 1 10).map _ = _ at hfacts
    cases hadd : hashAdd UInt64.ofNat t₁ 1 10 with
    | error stop =>
      rw [hadd] at hfacts
      cases hfacts
    | ok r =>
      rw [hadd] at hfacts
      obtain ⟨t₂, new⟩ := r
      have hfacts := Except.ok.inj hfacts
      simp only [Prod.mk.injEq] at hfacts
      obtain ⟨hsize, hcount, rfl⟩ := hfacts
      have hfirst : SlotStep UInt64.ofNat numberHashMap (.reserve (2 ^ 30 + 1), .nothing) t₁ := by
        rw [SlotStep, slotCall, hreserve]
        rfl
      have hsecond : SlotStep UInt64.ofNat t₁ (.put 1 10, .added true) t₂ := by
        rw [SlotStep, slotCall, hadd]
        rfl
      exact ⟨t₂, (Runs.start.snoc hfirst).snoc hsecond, hsize, hcount⟩

/-- A table of `2 ^ 32` slots: the walk from the slot `2 ^ 31` ends before the one entry. -/
theorem largeCalls_walk : ∃ t,
    Runs (SlotStep UInt64.ofNat) numberHashMap largeCalls t ∧ t.count = 1 ∧
      t.walk (fun _ => ([], false)) (2 ^ 31) = .ok (t, []) ∧ ¬ EveryWalkOnce t := by
  obtain ⟨t, hrun, hsize, hcount⟩ := largeCalls_run
  have hhash : ∀ a b : Nat, (a == b) = true → UInt64.ofNat a = UInt64.ofNat b := by
    intro a b hab
    rw [beq_iff_eq.1 hab]
  obtain ⟨hok, _⟩ := HashOk.of_runs hhash hrun
  refine ⟨t, hrun, hcount, hok.walk_negative _, ?_⟩
  rw [hok.everyWalkOnce_iff, hsize, hcount]
  decide

/-- A `HashMap` of one entry. -/
theorem largeCalls_finite : ∃ t, Runs (SlotStep UInt64.ofNat) numberHashMap largeCalls t ∧
    FiniteMap UInt64.ofNat largeCalls t ∧
    (EveryWalkOnce t ↔ t.count = 0 ∨ t.size ≤ 2 ^ 31) := by
  obtain ⟨t, hrun, _⟩ := largeCalls_run
  refine ⟨t, hrun, hashMap_finite (fun a b hab => ?_) hrun⟩
  rw [beq_iff_eq.1 hab]

end AnticCollection
