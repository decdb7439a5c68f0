import Antic.IndexedProofs
import Antic.Interleaving

/-! # `Deque`, `Ring` and `List` are sequences -/

namespace AnticCollection

open Indexed List Function

variable {T : Type} {t : Indexed T} {l : List T}

/-! ## The walk -/

/-- The fields that no removal changes. -/
structure Same (t t' : Indexed T) : Prop where
  ring : t'.ring = t.ring
  capacity : t'.capacity = t.capacity
  spare : t'.spare = t.spare
  calls : t'.calls = t.calls

theorem Same.refl (t : Indexed T) : Same t t := ⟨rfl, rfl, rfl, rfl⟩

theorem Same.trans {t t' t'' : Indexed T} (h : Same t t') (h' : Same t' t'') : Same t t'' :=
  ⟨h'.ring.trans h.ring, h'.capacity.trans h.capacity, h'.spare.trans h.spare,
    h'.calls.trans h.calls⟩

/-- A walk of a collection that was `t₀` stands behind the elements `done`. -/
structure WalkAt (t₀ t : Indexed T) (done rest : List T) (p : Option Nat) : Prop where
  ok : t.Ok (done ++ rest)
  same : Same t₀ t
  place : p = rest.head?.map fun _ => done.length

theorem WalkAt.split {t₀ : Indexed T} {done rest : List T} {x : T} {q : Nat}
    (h : WalkAt t₀ t done (x :: rest) (some q)) :
    q = done.length ∧ t.count = done.length + (rest.length + 1) ∧
      ∃ hq : q < (done ++ x :: rest).length, (done ++ x :: rest)[q] = x := by
  have hq : q = done.length := Option.some.inj h.place
  have hcount := h.ok.count
  rw [length_append, length_cons] at hcount
  refine ⟨hq, hcount, ?_, ?_⟩
  · rw [length_append, length_cons, hq]
    omega
  · subst hq
    rw [getElem_append_right (Nat.le_refl _)]
    simp

theorem indexed_cursor (t₀ : Indexed T) : Cursor (indexed T) (WalkAt t₀) where
  count {t done rest p} h := by
    show t.count = _
    rw [h.ok.count, length_append]
  nil h := h.place
  cons h := ⟨_, h.place⟩
  look {t done x rest q} h := by
    obtain ⟨-, -, hq, hx⟩ := h.split
    obtain ⟨t', hlend, -, ht'⟩ := h.ok.lendPlace hq id
    show t.lendPlace q id = _
    rw [hlend, ht', hx]
    have hitems := h.ok.items_of_lt (h.ok.lt_capacity hq)
    have hsame : update t.slots (t.slot q) (some (id x)) = t.slots := by
      rw [← hx, id, ← h.ok.element hq, update_eq_self]
    rw [hsame, ← hitems]
  lend {t done x rest q} h f := by
    obtain ⟨hlen, -, hq, hx⟩ := h.split
    obtain ⟨t', hlend, hok, ht'⟩ := h.ok.lendPlace hq f
    rw [hx] at hlend hok ht'
    refine ⟨t', hlend, ?_, ?_, ?_⟩
    · rw [hlen, set_append_right _ _ (Nat.le_refl _), Nat.sub_self] at hok
      exact hok
    · rw [ht']
      exact h.same.trans ⟨rfl, rfl, rfl, rfl⟩
    · exact h.place
  next {t done x rest q} h := by
    obtain ⟨hlen, hcount, hq, hx⟩ := h.split
    refine ⟨if q + 1 ≥ t.count then none else some (q + 1), ?_, ?_⟩
    · show t.nextPlace q = _
      rw [nextPlace, checkPlace_eq (by omega)]
      rfl
    · refine ⟨?_, h.same, ?_⟩
      · rw [append_assoc]
        exact h.ok
      · rw [length_append, length_singleton]
        cases rest with
        | nil => exact if_pos (by rw [hcount, hlen]; exact Nat.le_refl _)
        | cons y rest =>
          rw [if_neg (by rw [hcount, hlen, length_cons]; omega), hlen]
          rfl
  take {t done x rest q} h := by
    obtain ⟨hlen, hcount, hq, hx⟩ := h.split
    obtain ⟨t', htake, hok, hring, hcapacity, hspare, hcalls⟩ := h.ok.takePlace hq
    rw [hx] at htake
    refine ⟨t', _, htake, ?_, ?_, ?_⟩
    · rw [hlen, eraseIdx_append_of_length_le (Nat.le_refl _), Nat.sub_self] at hok
      exact hok
    · exact h.same.trans ⟨hring, hcapacity, hspare, hcalls⟩
    · cases rest with
      | nil => exact if_neg (by rw [hcount, hlen, length_nil]; omega)
      | cons y rest =>
        rw [if_pos (by rw [hcount, hlen, length_cons]; omega), hlen]
        rfl
  rewind {t done rest p} h := by
    refine ⟨h.ok, h.same, ?_⟩
    show t.firstPlace = _
    rw [firstPlace, h.ok.count]
    cases done ++ rest with
    | nil => rfl
    | cons x l => rfl

theorem form_sequence (h : t.Ok l) (f : Form T) :
    ∃ t', (indexed T).form t f = .ok (t', (f.run l).2) ∧ t'.Ok (f.run l).1 ∧ Same t t' := by
  have hstart : WalkAt t t [] l (l.head?.map fun _ => 0) := ⟨h, Same.refl t, rfl⟩
  have hat : WalkAt t t [] l t.firstPlace := (indexed_cursor t).rewind hstart
  obtain ⟨t', hform, hend⟩ := (indexed_cursor t).form_eq f hat
  exact ⟨t', hform, hend.ok, hend.same⟩

/-! ## The abstract sequence -/

/-- What a call does to a sequence of elements; nothing where the call stops the program. -/
def SeqCall.run (l : List T) : {k : Kind} → SeqCall T k → Option (List T × SeqAnswer T)
  | _, .pushFront x => some (x :: l, .finished)
  | _, .pushBack x => some (l ++ [x], .finished)
  | _, .popFront => some (l.tail, .element l.head?)
  | _, .popBack => some (l.dropLast, .element l.getLast?)
  | _, .ringPush (N := N) x =>
    if (l.length : Int) = N then some (l, .flag false) else some (l ++ [x], .flag true)
  | _, .ringPop => some (l.tail, .element l.head?)
  | _, .push x => some (l ++ [x], .finished)
  | _, .pop => some (l.dropLast, .element l.getLast?)
  | _, .insert i x =>
    if 0 ≤ i ∧ i ≤ l.length then some (l.insertIdx i.toNat x, .finished) else none
  | _, .removeAt i =>
    if 0 ≤ i ∧ i < l.length then some (l.eraseIdx i.toNat, .element l[i.toNat]?) else none
  | _, .setIndex i x =>
    if 0 ≤ i ∧ i < l.length then some (l.set i.toNat x, .finished) else none
  | _, .reverse => some (l.reverse, .finished)
  | _, .reserveDeque _ => some (l, .finished)
  | _, .reserveList _ => some (l, .finished)
  | _, .shrinkDeque => some (l, .finished)
  | _, .shrinkList => some (l, .finished)
  | _, .takePlace at_ =>
    if 0 ≤ at_ ∧ at_ < l.length then
      some (l.eraseIdx at_.toNat, .taken l[at_.toNat]?
        (if at_.toNat + 1 < l.length then some at_.toNat else none))
    else none
  | _, .lendPlace at_ f =>
    if 0 ≤ at_ ∧ at_ < l.length then some (l.modify at_.toNat f, .finished) else none
  | _, .form f => some ((f.run l).1, .form (f.run l).2)
  | _, .copy => some (l, .finished)

/-- The calls of a sequence, with what they give. -/
def SeqSpec (k : Kind) (l : List T) (call : SeqCall T k × SeqAnswer T) (l' : List T) : Prop :=
  call.1.run l = some (l', call.2)

/-- What the class of a collection fixes. -/
def KindOk : Kind → Indexed T → Prop
  | .deque, t => t.ring = true
  | .ring N, t => t.ring = true ∧ 0 ≤ N ∧ t.capacity = N.toNat
  | .list, t => t.ring = false

/-- A call does what it does to the sequence: it gives the same, or it stops for
    want of memory, and it stops where the sequence has no such element. -/
def Obeys (k : Kind) (r : Except Stop (Indexed T × SeqAnswer T)) :
    Option (List T × SeqAnswer T) → Prop
  | some (l', a) => Yields r fun r => r.2 = a ∧ r.1.Ok l' ∧ KindOk k r.1
  | none => ∃ stop, r = .error stop

theorem KindOk.same {k : Kind} {t t' : Indexed T} (h : KindOk k t) (hs : Same t t') :
    KindOk k t' := by
  cases k with
  | deque => exact hs.ring.trans h
  | ring N => exact ⟨hs.ring.trans h.1, h.2.1, hs.capacity.trans h.2.2⟩
  | list => exact hs.ring.trans h

/-! ## The calls -/

section Calls

variable (h : t.Ok l)
include h

theorem pushBack_ok (x : T) :
    Yields (Deque.pushBack t x) fun t' => t'.Ok (l ++ [x]) ∧ t'.ring = t.ring := by
  refine h.makeRoom.bind fun t₁ ⟨n, hn, hm⟩ => ?_
  have hcap : l.length < t₁.capacity := hm.capacity ▸ hn
  show Yields (t₁.room >>= fun items => _) _
  rw [hm.ok.room_eq (by omega)]
  have hok := hm.ok.write hcap (l ++ [x]) (some x) ?_ ?_ ?_
  · rw [length_append, length_singleton, ← hm.ok.count] at hok
    exact .pure ⟨hok, hm.ring⟩
  · rw [length_append, length_singleton]
    omega
  · exact getElem?_concat_length.symm
  · intro j hj
    rw [getElem?_append]
    split
    · rfl
    · rw [getElem?_eq_none (by rw [length_singleton]; omega), getElem?_eq_none (by omega)]

theorem push_eq (hring : t.ring = false) (x : T) :
    Yields (ListOf.push t x) fun t' => t'.Ok (l ++ [x]) ∧ t'.ring = t.ring := by
  have hsame : ListOf.push t x = Deque.pushBack t x ∨ ListOf.push t x = .error .memory := by
    rcases h.makeRoom with ⟨t₁, hroom, n, hn, hm⟩ | hstop
    · refine .inl ?_
      have hslot : t₁.slot t₁.count = t₁.count :=
        slot_flat (hm.ok.flat (hm.ring.trans hring)) (by rw [hm.ok.count, hm.capacity]; exact hn)
      rw [ListOf.push, Deque.pushBack, hroom]
      show (t₁.room >>= fun items => _) = (t₁.room >>= fun items => _)
      rw [hslot]
    · refine .inr ?_
      rw [ListOf.push, hstop]
      rfl
  rcases hsame with hsame | hstop
  · rw [hsame]
    exact pushBack_ok h x
  · exact .inr hstop

theorem pushFront_ok (hring : t.ring = true) (x : T) :
    Yields (Deque.pushFront t x) fun t' => t'.Ok (x :: l) ∧ t'.ring = t.ring := by
  refine h.makeRoom.bind fun t₁ ⟨n, hn, hm⟩ => ?_
  have hcap : l.length < t₁.capacity := hm.capacity ▸ hn
  show Yields (t₁.room >>= fun items => _) _
  rw [hm.ok.room_eq (by omega)]
  have hhead := hm.ok.head_lt (by omega)
  -- the slot before the head is the last slot of the ring
  have hlast : (t₁.head + t₁.capacity - 1) % t₁.capacity = t₁.slot (t₁.capacity - 1) := by
    unfold slot
    by_cases h0 : t₁.head = 0
    · rw [h0, if_neg (by omega), Nat.zero_add, Nat.mod_eq_of_lt (by omega), Nat.zero_add]
    · rw [if_pos (by omega), show t₁.head + t₁.capacity - 1 = (t₁.head - 1) + t₁.capacity by omega,
        Nat.add_mod_right, Nat.mod_eq_of_lt (by omega)]
      omega
  have hlt := slot_lt hhead (i := t₁.capacity - 1) (by omega)
  refine .pure ⟨?_, hm.ring⟩
  constructor
  · show t₁.count + 1 = (x :: l).length
    rw [hm.ok.count, length_cons]
  · show t₁.count + 1 ≤ t₁.capacity
    rw [hm.ok.count]
    exact hcap
  · exact fun _ => Nat.mod_lt _ (by omega)
  · intro h0
    have h0 : t₁.capacity = 0 := h0
    omega
  · exact fun hflat => absurd ((hm.ring.trans hring).symm.trans hflat) nofun
  · exact hm.ok.fits
  · exact fun _ => ⟨_, rfl⟩
  · intro i hi
    have hi : i < t₁.capacity := hi
    show update t₁.slots ((t₁.head + t₁.capacity - 1) % t₁.capacity) (some x)
      (if (t₁.head + t₁.capacity - 1) % t₁.capacity + i ≥ t₁.capacity then
        (t₁.head + t₁.capacity - 1) % t₁.capacity + i - t₁.capacity
      else (t₁.head + t₁.capacity - 1) % t₁.capacity + i) = (x :: l)[i]?
    rw [hlast]
    cases i with
    | zero =>
      rw [if_neg (by omega), Nat.add_zero, update_self]
      rfl
    | succ i =>
      have hnext : (if t₁.slot (t₁.capacity - 1) + (i + 1) ≥ t₁.capacity then
          t₁.slot (t₁.capacity - 1) + (i + 1) - t₁.capacity
        else t₁.slot (t₁.capacity - 1) + (i + 1)) = t₁.slot i := by
        unfold slot
        split <;> split <;> split <;> omega
      have hne : t₁.slot i ≠ t₁.slot (t₁.capacity - 1) := fun he => by
        have := slot_inj (by omega) (by omega) he
        omega
      rw [hnext, update_of_ne hne, hm.ok.holds i (by omega)]
      rfl
  · intro p hp
    have hp : t₁.capacity ≤ p := hp
    have hne : p ≠ (t₁.head + t₁.capacity - 1) % t₁.capacity := by
      omega
    show update t₁.slots _ (some x) p = none
    rw [update_of_ne hne, hm.ok.beyond p hp]

theorem takeOff_ok {i : Nat} (hi : i < l.length) :
    ∃ t', takeOff t i = .ok (t', l[i]) ∧ t'.Ok (l.eraseIdx i) ∧ Same t t' := by
  obtain ⟨t', htake, hok, hring, hcapacity, hspare, hcalls⟩ := h.takePlace hi
  refine ⟨_, ?_, hok, hring, hcapacity, hspare, hcalls⟩
  rw [takeOff, htake]
  rfl

theorem popFront_ok : ∃ t', Deque.popFront t = .ok (t', l.head?) ∧
    t'.Ok l.tail ∧ Same t t' := by
  cases l with
  | nil => exact ⟨t, if_pos h.count, h, Same.refl t⟩
  | cons x l =>
    obtain ⟨t', htake, hok, hs⟩ := takeOff_ok h (i := 0) (Nat.succ_pos _)
    refine ⟨t', ?_, hok, hs⟩
    rw [Deque.popFront, if_neg (by rw [h.count]; exact Nat.succ_ne_zero _)]
    show (takeOff t ((0 : Nat) : Int) >>= fun r => pure (r.1, some r.2)) = _
    rw [htake]
    rfl

theorem popBack_ok : ∃ t', Deque.popBack t = .ok (t', l.getLast?) ∧
    t'.Ok l.dropLast ∧ Same t t' := by
  by_cases hnil : l = []
  · subst hnil
    exact ⟨t, if_pos h.count, h, Same.refl t⟩
  · have hpos := length_pos_of_ne_nil hnil
    obtain ⟨t', htake, hok, hs⟩ := takeOff_ok h (i := l.length - 1) (by omega)
    have hcount : ((t.count : Int) - 1) = ((l.length - 1 : Nat) : Int) := by
      rw [h.count]
      omega
    rw [eraseIdx_eq_dropLast (by omega)] at hok
    refine ⟨t', ?_, hok, hs⟩
    rw [Deque.popBack, if_neg (by omega), hcount, htake,
      getLast?_eq_getElem?, getElem?_eq_getElem (by omega)]
    rfl

omit h in
theorem checkIndex_eq {i : Int} {n : Nat} (h : 0 ≤ i ∧ i < n) :
    checkIndex i n = .ok i.toNat := if_neg (by omega)

omit h in
theorem checkIndex_error {i : Int} {n : Nat} (h : ¬ (0 ≤ i ∧ i < n)) :
    checkIndex i n = .error .fatal := if_pos (by omega)

theorem insert_ok (hring : t.ring = false) {i : Int} (hi : 0 ≤ i ∧ i ≤ l.length) (x : T) :
    Yields (ListOf.insert t i x) fun t' => t'.Ok (l.insertIdx i.toNat x) ∧ t'.ring = t.ring := by
  refine h.makeRoom.bind fun t₁ ⟨n, hn, hm⟩ => ?_
  have hcap : l.length < t₁.capacity := hm.capacity ▸ hn
  have hcount := hm.ok.count
  have hflat {j : Nat} (hj : j < t₁.capacity) := slot_flat (hm.ok.flat (hm.ring.trans hring)) hj
  have hslot {j : Nat} (hj : j < t₁.capacity) : t₁.slots j = l[j]? := by
    rw [← hm.ok.holds j hj, hflat hj]
  show Yields (t₁.room >>= fun items => checkIndex i (t₁.count + 1) >>= fun i => _) _
  rw [hm.ok.room_eq (by omega), checkIndex_eq (by omega)]
  generalize hidx : i.toNat = k
  have hk : k ≤ l.length := by omega
  have hlength : (l.insertIdx k x).length = t₁.count + 1 := by
    rw [length_insertIdx_of_le_length hk, hcount]
  have hok := hm.ok.store (update (if k < t₁.count then
      zeroSlot (copySlots t₁.slots (k + 1) t₁.slots k (t₁.count - k)) k else t₁.slots) k (some x))
    (l.insertIdx k x)
    (by omega) (by omega) ?_ ?_
  · rw [hlength] at hok
    exact .pure ⟨hok, hm.ring⟩
  · intro j hj
    rw [hflat hj, getElem?_insertIdx]
    by_cases hjk : j = k
    · subst hjk
      rw [update_self, if_neg (by omega), if_pos rfl, if_pos hk]
    · rw [update_of_ne hjk, if_neg hjk]
      by_cases hmove : k < t₁.count
      · rw [if_pos hmove, zeroSlot, update_of_ne hjk]
        unfold copySlots
        by_cases hlow : j < k
        · rw [if_pos hlow, if_neg (by omega), hslot hj]
        · rw [if_neg hlow]
          by_cases hin : k + 1 ≤ j ∧ j < k + 1 + (t₁.count - k)
          · rw [if_pos hin, hslot (by omega)]
            congr 1
            omega
          · rw [if_neg hin, hslot hj, getElem?_eq_none (by omega), getElem?_eq_none (by omega)]
      · rw [if_neg hmove, hslot hj]
        split
        · rfl
        · rw [getElem?_eq_none (by omega), getElem?_eq_none (by omega)]
  · intro p hp
    rw [update_of_ne (by omega)]
    split
    · rw [zeroSlot, update_of_ne (by omega)]
      unfold copySlots
      rw [if_neg (by omega), hm.ok.beyond p hp]
    · exact hm.ok.beyond p hp

theorem setIndex_ok (hring : t.ring = false) {i : Int} (hi : 0 ≤ i ∧ i < l.length) (x : T) :
    ∃ t', ListOf.setIndex t i x = .ok t' ∧ t'.Ok (l.set i.toNat x) ∧ Same t t' := by
  have hlt : i.toNat < l.length := by omega
  have hcap := h.lt_capacity hlt
  have hslot : t.slot i.toNat = i.toNat := slot_flat (h.flat hring) hcap
  refine ⟨{ t with items := some (update t.slots i.toNat (some x)) }, ?_, ?_,
    rfl, rfl, rfl, rfl⟩
  · rw [ListOf.setIndex, checkIndex_eq (by rw [h.count]; exact hi)]
    show (t.room >>= fun items => _) = _
    rw [h.room_eq (by omega)]
    show Except.ok ({ t with items := some (update (zeroSlot t.slots i.toNat)
      i.toNat (some x)) } : Indexed T) = _
    rw [zeroSlot, update_idem]
  · have hok := h.write hcap (l.set i.toNat x) (some x) ?_ ?_ ?_
    · rw [length_set, ← h.count, hslot] at hok
      exact hok
    · rw [length_set, ← h.count]
      exact h.count_le
    · rw [getElem?_set_self hlt]
    · exact fun j hj => getElem?_set_ne hj.symm

theorem reverse_ok (hring : t.ring = false) :
    (ListOf.reverse t).Ok l.reverse ∧ Same t (ListOf.reverse t) := by
  refine ⟨?_, rfl, rfl, rfl, rfl⟩
  by_cases hcap : 0 < t.capacity
  · have hflat {j : Nat} (hj : j < t.capacity) := slot_flat (h.flat hring) hj
    have hslot {j : Nat} (hj : j < t.capacity) : t.slots j = l[j]? := by
      rw [← h.holds j hj, hflat hj]
    have hcount := h.count
    have hle := h.count_le
    have hok := h.store (reverseSlots t.slots 0 (t.count - 1)) l.reverse
      (by rw [length_reverse]; omega) hcap ?_ ?_
    · rw [length_reverse, ← hcount] at hok
      have hitems := h.items_of_lt hcap
      have hrev : ListOf.reverse t =
          { t with items := some (reverseSlots t.slots 0 (t.count - 1)) } := by
        rw [ListOf.reverse, hitems]
        rfl
      rw [hrev]
      exact hok
    · intro j hj
      rw [hflat hj, reverseSlots_eq]
      by_cases hin : 0 ≤ j ∧ j ≤ t.count - 1
      · rw [if_pos hin, hslot (by omega)]
        by_cases hlt : j < l.length
        · rw [getElem?_reverse hlt]
          congr 1
          omega
        · rw [getElem?_eq_none (by omega), getElem?_eq_none (by rw [length_reverse]; omega)]
      · rw [if_neg hin, hslot hj, getElem?_eq_none (by omega),
          getElem?_eq_none (by rw [length_reverse]; omega)]
    · intro p hp
      rw [reverseSlots_eq]
      split
      · next hin =>
          rw [hslot (by omega)]
          exact getElem?_eq_none (by omega)
      · exact h.beyond p hp
  · -- no element stands without room
    have hle := h.count_le
    have hcount := h.count
    have hnil : l = [] := eq_nil_of_length_eq_zero (by omega)
    subst hnil
    refine .of_flat h.count (Nat.zero_le _) (h.flat hring) h.fits
      (fun hpos => absurd hpos hcap) fun i => ?_
    have hzero (p : Nat) : t.slots p = none := h.beyond p (by omega)
    show (t.items.map fun r => reverseSlots r 0 (t.count - 1)).getD (fun _ => none) i = none
    cases hitems : t.items with
    | none => rfl
    | some r =>
      have hr : r = t.slots := by
        rw [slots, hitems]
        rfl
      show reverseSlots r 0 (t.count - 1) i = none
      rw [reverseSlots_eq, hr]
      split
      · exact hzero _
      · exact hzero _

theorem ringPush_ok {N : Int} (hk : KindOk (.ring N) t) (x : T) :
    ∃ t' b, Ring.push N t x = .ok (t', b) ∧ Same t t' ∧
      (if (l.length : Int) = N then b = false ∧ t'.Ok l else b = true ∧ t'.Ok (l ++ [x])) := by
  obtain ⟨-, hpos, hcapacity⟩ := hk
  have hcount := h.count
  have hle := h.count_le
  by_cases hfull : (l.length : Int) = N
  · refine ⟨t, false, if_pos (by rw [hcount]; exact hfull), Same.refl t, ?_⟩
    rw [if_pos hfull]
    exact ⟨rfl, h⟩
  · have hcap : l.length < t.capacity := by omega
    have hok := h.write hcap (l ++ [x]) (some x) (by rw [length_append, length_singleton]; omega)
      getElem?_concat_length.symm ?_
    · rw [length_append, length_singleton, ← hcount] at hok
      refine ⟨({ t with items := some (update t.slots (t.slot t.count) (some x)) } :
        Indexed T).resized (t.count + 1), true, ?_, ⟨rfl, rfl, rfl, rfl⟩, ?_⟩
      · rw [Ring.push, if_neg (by rw [hcount]; exact hfull), h.room_eq (by omega)]
        rfl
      · rw [if_neg hfull]
        exact ⟨rfl, hok⟩
    · intro j hj
      rw [getElem?_append]
      split
      · rfl
      · rw [getElem?_eq_none (by rw [length_singleton]; omega), getElem?_eq_none (by omega)]

theorem copy_ok {k : Kind} (hk : KindOk k t) :
    Yields (seqCopy t k) fun t' => t'.Ok l ∧ KindOk k t' := by
  cases k with
  | deque | list => exact (h.copyInto (Nat.le_refl _)).mono fun t' hm => ⟨hm.ok, hm.ring.trans hk⟩
  | ring N =>
    obtain ⟨hring, hpos, hcapacity⟩ := hk
    exact (h.copyInto (hcapacity ▸ h.count_le)).mono fun t' hm =>
      ⟨hm.ok, hm.ring.trans hring, hpos, hm.capacity⟩

end Calls

end AnticCollection
