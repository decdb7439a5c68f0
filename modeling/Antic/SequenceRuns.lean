import Antic.SequenceProofs

/-! # Runs of `Deque`, `Ring` and `List` -/

namespace AnticCollection

open Indexed Interleaving

variable {T : Type} {t : Indexed T} {l : List T}

/-! ## Each call -/

section Calls

variable {k : Kind}

/-- The calls that may ask the allocator. -/
def SeqCall.takesRoom : {k : Kind} → SeqCall T k → Bool
  | _, .pushFront _ | _, .pushBack _ | _, .push _ | _, .insert _ _ => true
  | _, .reserveDeque _ | _, .reserveList _ | _, .shrinkDeque | _, .shrinkList => true
  | _, .copy => true
  | _, _ => false

/-- A call that stays in its room: it gives what the sequence gives, and it stops
    where the sequence does. -/
def Stays (t : Indexed T) (r : Except Stop (Indexed T × SeqAnswer T)) :
    Option (List T × SeqAnswer T) → Prop
  | some (l', a) => ∃ t', r = .ok (t', a) ∧ t'.Ok l' ∧ Same t t'
  | none => ∃ stop, r = .error stop

theorem Stays.obeys {r : Except Stop (Indexed T × SeqAnswer T)}
    {o : Option (List T × SeqAnswer T)} (hk : KindOk k t) (h : Stays t r o) : Obeys k r o := by
  cases o with
  | none => exact h
  | some o =>
    obtain ⟨t', hr, hok, hs⟩ := h
    exact .inl ⟨(t', o.2), hr, rfl, hok, hk.same hs⟩

theorem Obeys.of_yields {r : Except Stop (Indexed T)} {l' : List T}
    (hk : ∀ t' : Indexed T, t'.ring = t.ring → KindOk k t')
    (h : Yields r fun t' => t'.Ok l' ∧ t'.ring = t.ring) :
    Obeys k (r >>= fun t' => pure (t', .finished)) (some (l', .finished)) :=
  Yields.bind h fun t' ht' => .pure ⟨rfl, ht'.1, hk t' ht'.2⟩

theorem insert_error (h : t.Ok l) {i : Int} (hi : ¬ (0 ≤ i ∧ i ≤ l.length)) (x : T) :
    ∃ stop, ListOf.insert t i x = .error stop := by
  rcases h.makeRoom with ⟨t₁, hroom, n, hn, hm⟩ | hstop
  · refine ⟨.fatal, ?_⟩
    rw [ListOf.insert, hroom]
    show (t₁.room >>= fun items => checkIndex i (t₁.count + 1) >>= fun i => _) = _
    rw [hm.ok.room_eq (by rw [hm.capacity]; exact Nat.lt_of_le_of_lt (Nat.zero_le _) hn),
      checkIndex_error (by rw [hm.ok.count]; omega)]
    rfl
  · refine ⟨.memory, ?_⟩
    rw [ListOf.insert, hstop]
    rfl

/-- **A call that takes no room does what it does to the sequence.** -/
theorem seqCall_stays (h : t.Ok l) (hk : KindOk k t) (call : SeqCall T k)
    (hroom : call.takesRoom = false) : Stays t (seqCall t call) (call.run l) := by
  have hcount := h.count
  cases call with
  | popFront =>
    obtain ⟨t', hpop, hok, hs⟩ := popFront_ok h
    refine ⟨t', ?_, hok, hs⟩
    rw [seqCall, hpop]
    rfl
  | popBack =>
    obtain ⟨t', hpop, hok, hs⟩ := popBack_ok h
    refine ⟨t', ?_, hok, hs⟩
    rw [seqCall, hpop]
    rfl
  | ringPush x =>
    rename_i N
    obtain ⟨t', b, hpush, hs, hok⟩ := ringPush_ok h hk x
    have hcall : seqCall t (SeqCall.ringPush x : SeqCall T (.ring N)) = .ok (t', .flag b) := by
      rw [seqCall, hpush]
      rfl
    show Stays t _ (if (l.length : Int) = N then _ else _)
    split at hok
    · next hfull =>
        rw [if_pos hfull]
        exact ⟨t', by rw [hcall, hok.1], hok.2, hs⟩
    · next hfull =>
        rw [if_neg hfull]
        exact ⟨t', by rw [hcall, hok.1], hok.2, hs⟩
  | ringPop =>
    obtain ⟨t', hpop, hok, hs⟩ := popFront_ok h
    refine ⟨t', ?_, hok, hs⟩
    rw [seqCall, Ring.pop, hpop]
    rfl
  | pop =>
    obtain ⟨t', hpop, hok, hs⟩ := popBack_ok h
    refine ⟨t', ?_, hok, hs⟩
    rw [seqCall, ListOf.pop, hpop]
    rfl
  | removeAt i =>
    show Stays t _ (if 0 ≤ i ∧ i < l.length then _ else _)
    by_cases hi : 0 ≤ i ∧ i < l.length
    · obtain ⟨t', htake, hok, hs⟩ := takeOff_ok h (i := i.toNat) (by omega)
      rw [if_pos hi, List.getElem?_eq_getElem (by omega)]
      refine ⟨t', ?_, hok, hs⟩
      rw [Int.toNat_of_nonneg hi.1] at htake
      rw [seqCall, ListOf.removeAt, checkIndex_eq (by rw [hcount]; exact hi)]
      show (takeOff t i >>= fun r => pure (r.1, SeqAnswer.element (some r.2))) = _
      rw [htake]
      rfl
    · rw [if_neg hi]
      refine ⟨.fatal, ?_⟩
      rw [seqCall, ListOf.removeAt, checkIndex_error (by rw [hcount]; exact hi)]
      rfl
  | setIndex i x =>
    show Stays t _ (if 0 ≤ i ∧ i < l.length then _ else _)
    by_cases hi : 0 ≤ i ∧ i < l.length
    · obtain ⟨t', hset, hok, hs⟩ := setIndex_ok h hk hi x
      rw [if_pos hi]
      refine ⟨t', ?_, hok, hs⟩
      rw [seqCall, hset]
      rfl
    · rw [if_neg hi]
      refine ⟨.fatal, ?_⟩
      rw [seqCall, ListOf.setIndex, checkIndex_error (by rw [hcount]; exact hi)]
      rfl
  | reverse => exact ⟨_, rfl, (reverse_ok h hk).1, (reverse_ok h hk).2⟩
  | takePlace at_ =>
    show Stays t _ (if 0 ≤ at_ ∧ at_ < l.length then _ else _)
    by_cases hi : 0 ≤ at_ ∧ at_ < l.length
    · obtain ⟨t', htake, hok, hring, hcapacity, hspare, hcalls⟩ :=
        h.takePlace (i := at_.toNat) (by omega)
      rw [if_pos hi, List.getElem?_eq_getElem (by omega)]
      refine ⟨t'.resized (t'.count - 1), ?_, hok, hring, hcapacity, hspare, hcalls⟩
      rw [Int.toNat_of_nonneg hi.1] at htake
      rw [seqCall, htake, hcount]
      rfl
    · rw [if_neg hi]
      refine ⟨.noElement, ?_⟩
      rw [seqCall, Indexed.takePlace, checkPlace_error (by rw [hcount]; exact hi)]
      rfl
  | lendPlace at_ f =>
    show Stays t _ (if 0 ≤ at_ ∧ at_ < l.length then _ else _)
    by_cases hi : 0 ≤ at_ ∧ at_ < l.length
    · obtain ⟨t', hlend, hok, ht'⟩ := h.lendPlace (i := at_.toNat) (by omega) f
      have hlt : at_.toNat < l.length := by omega
      rw [if_pos hi, List.modify_eq_set_get f hlt]
      refine ⟨t', ?_, hok, by rw [ht']; exact ⟨rfl, rfl, rfl, rfl⟩⟩
      rw [Int.toNat_of_nonneg hi.1] at hlend
      rw [seqCall, hlend]
      rfl
    · rw [if_neg hi]
      refine ⟨.noElement, ?_⟩
      rw [seqCall, Indexed.lendPlace, checkPlace_error (by rw [hcount]; exact hi)]
      rfl
  | form f =>
    obtain ⟨t', hform, hok, hs⟩ := form_sequence h f
    refine ⟨t', ?_, hok, hs⟩
    rw [seqCall, hform]
    rfl
  | pushFront | pushBack | push | insert | reserveDeque | reserveList | shrinkDeque
  | shrinkList | copy => cases hroom

/-- **Each call does what it does to the sequence.** -/
theorem seqCall_obeys (h : t.Ok l) (hk : KindOk k t) (call : SeqCall T k) :
    Obeys k (seqCall t call) (call.run l) := by
  cases hroom : call.takesRoom with
  | false => exact (seqCall_stays h hk call hroom).obeys hk
  | true =>
    cases call with
    | pushFront x => exact .of_yields (fun _ hr => hr.trans hk) (pushFront_ok h hk x)
    | pushBack x => exact .of_yields (fun _ hr => hr.trans hk) (pushBack_ok h x)
    | push x => exact .of_yields (fun _ hr => hr.trans hk) (push_eq h hk x)
    | insert i x =>
      show Obeys .list _ (if 0 ≤ i ∧ i ≤ l.length then _ else _)
      by_cases hi : 0 ≤ i ∧ i ≤ l.length
      · rw [if_pos hi]
        exact .of_yields (fun _ hr => hr.trans hk) (insert_ok h hk hi x)
      · rw [if_neg hi]
        obtain ⟨stop, hstop⟩ := insert_error h hi x
        refine ⟨stop, ?_⟩
        rw [seqCall, hstop]
        rfl
    | reserveDeque n | reserveList n =>
      exact .of_yields (fun _ hr => hr.trans hk) ((h.reserveRoom n).mono fun _ hr => ⟨hr.1, hr.2.2⟩)
    | shrinkDeque | shrinkList =>
      exact .of_yields (fun _ hr => hr.trans hk) (h.shrinkRoom.mono fun _ hr => ⟨hr.1, hr.2.2⟩)
    | copy => exact Yields.bind (copy_ok h hk) fun t' ht' => .pure ⟨rfl, ht'.1, ht'.2⟩
    | popFront | popBack | ringPush | ringPop | pop | removeAt | setIndex | reverse
    | takePlace | lendPlace | form => cases hroom

end Calls

/-! ## Runs -/

section Runs

variable {k : Kind}

theorem empty_ok (elementSize : Nat) (ring : Bool) :
    ({ elementSize := elementSize, ring := ring } : Indexed T).Ok [] :=
  .of_flat rfl (Nat.le_refl 0) rfl (Nat.zero_le _) (fun h => absurd h (Nat.lt_irrefl 0))
    fun _ => rfl

theorem seqNew_ok {elementSize : Nat} {capacity : Int}
    (hnew : seqNew elementSize capacity k = .ok t) : t.Ok [] ∧ KindOk k t := by
  have hempty (ring : Bool) := empty_ok (T := T) elementSize ring
  cases k with
  | deque =>
    have hnew : (if capacity > 0 then _ else _) = Except.ok t := hnew
    split at hnew
    · have hm := ((hempty true).resize (Nat.zero_le _)).of_ok hnew
      exact ⟨hm.ok, hm.ring⟩
    · cases hnew
      exact ⟨hempty true, rfl⟩
  | list =>
    have hnew : (if capacity > 0 then _ else _) = Except.ok t := hnew
    split at hnew
    · have hm := ((hempty false).resize (Nat.zero_le _)).of_ok hnew
      exact ⟨hm.ok, hm.ring⟩
    · cases hnew
      exact ⟨hempty false, rfl⟩
  | ring N =>
    have hnew : (if N < 0 then _ else _) = Except.ok t := hnew
    split at hnew
    · cases hnew
    · next hN =>
        have hm := ((hempty true).resize (Nat.zero_le _)).of_ok hnew
        exact ⟨hm.ok, hm.ring, Int.not_lt.1 hN, hm.capacity⟩

/-- The room of a collection holds the sequence `l`. -/
structure Sequence (k : Kind) (t : Indexed T) (l : List T) : Prop where
  head : t.head < t.capacity ∨ t.head = 0 ∧ t.capacity = 0
  count_le : t.count ≤ t.capacity
  slot_lt : ∀ i, i < t.count → t.slot i < t.capacity
  zero : ∀ p, (∀ i, i < t.count → t.slot i ≠ p) → t.slots p = none
  count : t.count = l.length
  elements : ∀ i (hi : i < l.length), t.slots (t.slot i) = some l[i]
  walk : t.walk = l.map some
  copy : ∀ t', seqCopy t k = .ok t' → t'.walk = l.map some

theorem sequence_of_ok (h : t.Ok l) (hk : KindOk k t) : Sequence k t l where
  head := by
    rcases Nat.eq_zero_or_pos t.capacity with hzero | hpos
    · exact .inr ⟨h.head_zero hzero, hzero⟩
    · exact .inl (h.head_lt hpos)
  count_le := h.count_le
  slot_lt i hi := by
    have hcap := Nat.lt_of_lt_of_le hi h.count_le
    exact slot_lt (h.head_lt (Nat.lt_of_le_of_lt (Nat.zero_le i) hcap)) hcap
  zero _ hp := h.zero hp
  count := h.count
  elements _ hi := h.element hi
  walk := h.walk
  copy _ hcopy := ((copy_ok h hk).of_ok hcopy).1.walk

theorem runs_sequence {t₀ : Indexed T} {calls : List (SeqCall T k × SeqAnswer T)}
    (hok : t₀.Ok []) (hk : KindOk k t₀) (hrun : Runs (SeqStep k) t₀ calls t) :
    ∃ l, Runs (SeqSpec k) [] calls l ∧ t.Ok l ∧ KindOk k t := by
  refine hrun.invariant (fun calls t => ∃ l, Runs (SeqSpec k) [] calls l ∧ t.Ok l ∧ KindOk k t)
    ⟨[], .start, hok, hk⟩ ?_
  rintro calls t ⟨call, a⟩ t' ⟨l, hl, hok, hk⟩ hstep
  have hobeys := seqCall_obeys hok hk call
  cases hcall : call.run l with
  | none =>
    rw [hcall] at hobeys
    obtain ⟨stop, hstop⟩ := hobeys
    exact absurd (hstop.symm.trans hstep) nofun
  | some r =>
    rw [hcall] at hobeys
    obtain ⟨ha, hok', hk'⟩ := hobeys.of_ok hstep
    cases ha
    exact ⟨r.1, hl.snoc hcall, hok', hk'⟩

/-- **`Deque`, `Ring` and `List` are sequences.**  After every run of calls the room holds the
    sequence that the same calls make of the empty one, and the calls gave what they give of it.
    The next call gives what the sequence gives, or stops for want of memory, and it stops where the
    sequence has no such element.  A ring asks the allocator in `new` and for a copy alone. -/
theorem collections_are_sequences (k : Kind) (elementSize : Nat) (capacity : Int)
    {t₀ t : Indexed T} {calls : List (SeqCall T k × SeqAnswer T)}
    (hnew : seqNew elementSize capacity k = .ok t₀) (hrun : Runs (SeqStep k) t₀ calls t) :
    ∃ l, Runs (SeqSpec k) [] calls l ∧ Sequence k t l ∧
      (∀ call : SeqCall T k, Obeys k (seqCall t call) (call.run l)) ∧
      (∀ N, k = .ring N → t.capacity = N.toNat ∧
        ∀ call : SeqCall T k, call ≠ .copy → Stays t (seqCall t call) (call.run l)) := by
  obtain ⟨hok₀, hk₀⟩ := seqNew_ok hnew
  obtain ⟨l, hl, hok, hk⟩ := runs_sequence hok₀ hk₀ hrun
  refine ⟨l, hl, sequence_of_ok hok hk, seqCall_obeys hok hk, ?_⟩
  rintro N rfl
  refine ⟨hk.2.2, fun call hcopy => seqCall_stays hok hk call ?_⟩
  cases call with
  | ringPush | ringPop | takePlace | lendPlace | form => rfl
  | copy => exact absurd rfl hcopy

/-- A new ring of two slots. -/
def twoSlots : Indexed Nat :=
  { elementSize := 8, items := some fun _ => none, capacity := 2, ring := true, calls := 1 }

/-- The third element of a ring of two slots wraps around to the first slot. -/
theorem ring_wraps : ∃ calls t, calls.length = 5 ∧ Runs (SeqStep (.ring 2)) twoSlots calls t ∧
    ∃ l, Runs (SeqSpec (.ring 2)) [] calls l ∧ Sequence (.ring 2) t l ∧
      (∀ call : SeqCall Nat (.ring 2), Obeys (.ring 2) (seqCall t call) (call.run l)) ∧
      (∀ N, Kind.ring 2 = .ring N → t.capacity = N.toNat ∧
        ∀ call : SeqCall Nat (.ring 2), call ≠ .copy → Stays t (seqCall t call) (call.run l)) := by
  have hnew : seqNew (T := Nat) 8 0 (.ring 2) = .ok twoSlots := rfl
  have h1 := Runs.snoc (.start (s := twoSlots))
    (show SeqStep (.ring 2) _ (.ringPush 1, .flag true) _ from rfl)
  have h2 := Runs.snoc h1 (show SeqStep (.ring 2) _ (.ringPush 2, .flag true) _ from rfl)
  have h3 := Runs.snoc h2 (show SeqStep (.ring 2) _ (.ringPush 5, .flag false) _ from rfl)
  have h4 := Runs.snoc h3 (show SeqStep (.ring 2) _ (.ringPop, .element (some 1)) _ from rfl)
  have h5 := Runs.snoc h4 (show SeqStep (.ring 2) _ (.ringPush 3, .flag true) _ from rfl)
  exact ⟨_, _, rfl, h5, collections_are_sequences (.ring 2) 8 0 hnew h5⟩

end Runs

end AnticCollection
