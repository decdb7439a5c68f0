import Antic.BinaryHeap
import Antic.PriorityQueue
import Antic.SequenceProofs

/-! # `PriorityQueue<T>` is a heap -/

namespace AnticCollection

open Indexed List Function

namespace PriorityQueue

variable {T : Type} {lt : T → T → Bool}

/-! ## The sifts of a room -/

section Sifts

instance slotLt_order [IsStrictWeakOrder T fun a b => lt a b = true] :
    IsStrictWeakOrder (Option T) fun a b => slotLt lt a b = true where
  irrefl a h := by
    cases a with
    | none => cases h
    | some a => exact irrefl_of (fun a b => lt a b = true) a h
  trans a b c hab hbc := by
    cases c with
    | none => cases b <;> cases hbc
    | some c =>
      cases a with
      | none => rfl
      | some a =>
        cases b with
        | none => cases hab
        | some b => exact trans_of (fun a b => lt a b = true) hab hbc
  incomp_trans a b c hab hbc := by
    cases a with
    | none =>
      cases b with
      | none => exact hbc
      | some b => exact absurd rfl hab.1
    | some a =>
      cases b with
      | none => exact absurd rfl hab.2
      | some b =>
        cases c with
        | none => exact absurd rfl hbc.2
        | some c =>
          exact @IsStrictWeakOrder.incomp_trans _ (fun a b => lt a b = true) _ a b c hab hbc

variable {spare : Nat} {r : Room T}

theorem swap_eq (hspare : r spare = none) {a b : Nat} (ha : a ≠ spare) (hb : b ≠ spare) :
    swap spare r a b = r ∘ Equiv.swap a b := by
  funext i
  unfold swap zeroSlot copySlot
  rw [comp_apply]
  by_cases his : i = spare
  · rw [his, update_self, Equiv.swap_apply_of_ne_of_ne ha.symm hb.symm, hspare]
  · rw [update_of_ne his]
    by_cases hib : i = b
    · rw [hib, update_self, Equiv.swap_apply_right, update_of_ne ha.symm, update_self]
    · rw [update_of_ne hib]
      by_cases hia : i = a
      · rw [hia, update_self, Equiv.swap_apply_left, update_of_ne hb]
      · rw [update_of_ne hia, update_of_ne his, Equiv.swap_apply_of_ne_of_ne hia hib]

theorem siftUp_eq (hspare : r spare = none) {i : Nat} (hi : i < spare) :
    siftUp lt spare r i = BinaryHeap.siftUp (slotLt lt) r i := by
  induction r, i using siftUp.induct lt spare with
  | case1 r i hpos up hstop =>
    have hown : siftUp lt spare r i = r := by
      rw [siftUp, if_pos hpos]
      exact if_pos hstop
    have hheap : BinaryHeap.siftUp (slotLt lt) r i = r := by
      rw [BinaryHeap.siftUp, if_neg fun h => Bool.false_ne_true (hstop.symm.trans h.2)]
    rw [hown, hheap]
  | case2 r i hpos up hstop ih =>
    have hswap := swap_eq hspare (a := i) (b := up) (by omega) (by omega)
    have hspare' : swap spare r i up spare = none := update_self ..
    have hown : siftUp lt spare r i = siftUp lt spare (swap spare r i up) up := by
      rw [siftUp, if_pos hpos]
      exact if_neg hstop
    have hheap : BinaryHeap.siftUp (slotLt lt) r i =
        BinaryHeap.siftUp (slotLt lt) (r ∘ Equiv.swap i up) up := by
      rw [BinaryHeap.siftUp, if_pos ⟨hpos, Bool.of_not_eq_false hstop⟩]
      rfl
    rw [hown, hheap, ih hspare' (by omega), hswap]
  | case3 r i hzero => rw [siftUp, if_neg hzero, BinaryHeap.siftUp, if_neg fun h => hzero h.1]

theorem siftDown_eq {n : Nat} (hn : n ≤ spare) (hspare : r spare = none) {i : Nat} :
    siftDown lt spare n r i = BinaryHeap.siftDown (slotLt lt) r n i := by
  induction r, i using siftDown.induct lt spare n with
  | case1 r i hchild left child hstop =>
    have hown : siftDown lt spare n r i = r := by
      rw [siftDown, if_pos hchild]
      exact if_pos hstop
    have hheap : BinaryHeap.siftDown (slotLt lt) r n i = r := by
      rw [BinaryHeap.siftDown, if_neg fun h => Bool.false_ne_true (hstop.symm.trans h.2)]
    rw [hown, hheap]
  | case2 r i hchild left child hstop ih =>
    obtain ⟨hgt, hlt, -⟩ := BinaryHeap.smaller_bounds (slotLt lt) (g := r) hchild
    have hlt : child < n := hlt
    have hswap := swap_eq hspare (a := i) (b := child) (by omega) (by omega)
    have hspare' : swap spare r i child spare = none := update_self ..
    have hown : siftDown lt spare n r i =
        siftDown lt spare n (swap spare r i child) child := by
      rw [siftDown, if_pos hchild]
      exact if_neg hstop
    have hheap : BinaryHeap.siftDown (slotLt lt) r n i =
        BinaryHeap.siftDown (slotLt lt) (r ∘ Equiv.swap i child) n child := by
      rw [BinaryHeap.siftDown, if_pos ⟨hchild, Bool.of_not_eq_false hstop⟩]
      rfl
    rw [hown, hheap, ih hspare', hswap]
  | case3 r i hleaf => rw [siftDown, if_neg hleaf, BinaryHeap.siftDown, if_neg fun h => hleaf h.1]

theorem heapifyFrom_eq {n i : Nat} (hn : n ≤ spare) (hi : i ≤ n) (hspare : r spare = none) :
    heapifyFrom lt spare n i r = BinaryHeap.heapifyFrom (slotLt lt) n i r := by
  induction i generalizing r with
  | zero => rfl
  | succ i ih =>
    have hsift : siftDown lt spare n r i = BinaryHeap.siftDown (slotLt lt) r n i :=
      siftDown_eq hn hspare
    have hzero : siftDown lt spare n r i spare = none := by
      rw [hsift, (BinaryHeap.siftDown_exchanged (slotLt lt) r hi).beyond hn, hspare]
    rw [heapifyFrom, ih (Nat.le_of_succ_le hi) hzero, hsift]
    rfl

end Sifts

/-! ## The invariant -/

/-- The room holds the elements `l` as a heap. -/
structure QueueOk (lt : T → T → Bool) (t : Indexed T) (l : List T) : Prop where
  ok : t.Ok l
  flat : t.ring = false
  spare : t.spare = 1
  heap : BinaryHeap.Heap (slotLt lt) t.slots l.length

variable {t : Indexed T} {l : List T}

theorem laid (h : t.Ok l) (hring : t.ring = false) (j : Nat) : t.slots j = l[j]? := by
  by_cases hj : j < t.capacity
  · rw [← h.holds j hj, slot_flat (h.flat hring) hj]
  · have hle := h.count ▸ h.count_le
    rw [h.beyond j (Nat.le_of_not_lt hj), getElem?_eq_none (by omega)]

theorem relaid (h : t.Ok l) (hring : t.ring = false) (hcap : 0 < t.capacity) {r : Room T}
    {l' : List T} (hle : l'.length ≤ t.capacity) (hr : ∀ j, r j = l'[j]?) :
    ({ t with items := some r, count := l'.length } : Indexed T).Ok l' :=
  h.store r l' hle hcap (fun i hi => by rw [slot_flat (h.flat hring) hi, hr])
    fun p hp => by rw [hr, getElem?_eq_none (by omega)]

section Order

variable [IsStrictWeakOrder T fun a b => lt a b = true]

theorem fix_ok {spare i : Nat} {r : Room T} (hle : l.length ≤ spare) (hr : ∀ j, r j = l[j]?)
    (hi : i < l.length) (h : BinaryHeap.Hole (slotLt lt) 0 r l.length i) :
    ∃ l' : List T, l'.Perm l ∧ (∀ j, fix lt spare r i l.length j = l'[j]?) ∧
      BinaryHeap.Heap (slotLt lt) (fix lt spare r i l.length) l'.length := by
  have hspare : r spare = none := by rw [hr, getElem?_eq_none hle]
  have hup : siftUp lt spare r i = BinaryHeap.siftUp (slotLt lt) r i := siftUp_eq hspare (by omega)
  have hmoved := BinaryHeap.siftUp_exchanged (slotLt lt) r hi
  have hspare' : siftUp lt spare r i spare = none := by rw [hup, hmoved.beyond hle, hspare]
  have hfix : fix lt spare r i l.length =
      BinaryHeap.siftDown (slotLt lt) (BinaryHeap.siftUp (slotLt lt) r i) l.length i := by
    rw [fix, siftDown_eq hle hspare', hup]
  rw [hfix]
  have hboth : BinaryHeap.Exchanged l.length r
      (BinaryHeap.siftDown (slotLt lt) (BinaryHeap.siftUp (slotLt lt) r i) l.length i) :=
    hmoved.trans (BinaryHeap.siftDown_exchanged (slotLt lt) _ hi)
  obtain ⟨l', hperm, hl'⟩ := hboth.perm (Nat.le_refl _) hr
  refine ⟨l', hperm, hl', ?_⟩
  rw [hperm.length_eq]
  exact BinaryHeap.sift_heap hi h

theorem heapify_ok {spare : Nat} {r : Room T} (hle : l.length ≤ spare) (hr : ∀ j, r j = l[j]?) :
    ∃ l' : List T, l'.Perm l ∧ (∀ j, heapify lt spare l.length r j = l'[j]?) ∧
      BinaryHeap.Heap (slotLt lt) (heapify lt spare l.length r) l'.length := by
  have hhalf := Nat.div_le_self l.length 2
  rw [heapify, heapifyFrom_eq hle hhalf (by rw [hr, getElem?_eq_none hle])]
  obtain ⟨l', hperm, hl'⟩ :=
    (BinaryHeap.heapifyFrom_exchanged (slotLt lt) hhalf r).perm (Nat.le_refl _) hr
  refine ⟨l', hperm, hl', ?_⟩
  rw [hperm.length_eq]
  exact BinaryHeap.heapify_heap r l.length

/-! ## The operations -/

theorem push_ok (h : QueueOk lt t l) (x : T) :
    Yields (push lt t x) fun t' => ∃ l' : List T, QueueOk lt t' l' ∧ l'.Perm (x :: l) := by
  refine h.ok.makeRoom.bind fun t₁ ⟨n, hn, hm⟩ => ?_
  have hcap : l.length < t₁.capacity := hm.capacity ▸ hn
  have hring : t₁.ring = false := hm.ring.trans h.flat
  have hcount := hm.ok.count
  have hlaid := laid hm.ok hring
  have hold : ∀ j, t₁.slots j = t.slots j := fun j => by rw [hlaid, laid h.ok h.flat]
  show Yields (t₁.room >>= fun items => _) _
  rw [hm.ok.room_eq (by omega)]
  -- the new element stands last, and has no child
  have hr : ∀ j, update t₁.slots t₁.count (some x) j = (l ++ [x])[j]? := by
    intro j
    by_cases hj : j = t₁.count
    · rw [hj, update_self, hcount, getElem?_concat_length]
    · rw [update_of_ne hj, hlaid, getElem?_append]
      split
      · rfl
      · rw [getElem?_eq_none (by omega), getElem?_eq_none (by rw [length_singleton]; omega)]
  have hlength : (l ++ [x]).length = t₁.count + 1 := by
    rw [length_append, length_singleton, hcount]
  have hspare : update t₁.slots t₁.count (some x) t₁.capacity = none := by
    rw [hr, getElem?_eq_none (by omega)]
  have hheap : BinaryHeap.Heap (slotLt lt) t₁.slots l.length := by
    rw [funext hold]
    exact h.heap
  have hhole : BinaryHeap.Hole (slotLt lt) 0 (update t₁.slots t₁.count (some x))
      (t₁.count + 1) t₁.count := by
    refine ⟨fun j hj hjn hlo hji hp => ?_, fun j hj hjn hp hi hlo => ?_⟩
    · rw [update_of_ne hji, update_of_ne hp]
      exact hheap j hj (by omega) hlo
    · unfold BinaryHeap.parent at hp
      omega
  have hbelow : BinaryHeap.Below (slotLt lt) (update t₁.slots t₁.count (some x))
      (t₁.count + 1) t₁.count := by
    intro j hj hjn hp
    unfold BinaryHeap.parent at hp
    omega
  have hsift := BinaryHeap.siftUp_heap (Nat.lt_succ_self _) hhole hbelow
  obtain ⟨l', hperm, hl'⟩ :=
    (BinaryHeap.siftUp_exchanged (slotLt lt) _ (Nat.lt_succ_self t₁.count)).perm
      (Nat.le_of_eq hlength.symm) hr
  have hlength' : l'.length = t₁.count + 1 := hperm.length_eq.trans hlength
  have hok := relaid hm.ok hring (by omega) (by omega) hl'
  rw [hlength'] at hok
  rw [← @siftUp_eq _ lt _ _ hspare _ (by omega)] at hok hsift
  exact .pure ⟨l', ⟨hok, hring, hm.spare.trans h.spare, by rw [hlength']; exact hsift⟩,
    hperm.trans perm_append_comm⟩

theorem lendPlace_ok (h : QueueOk lt t l) {i : Nat} (hi : i < l.length) (f : T → T) :
    ∃ t' l', lendPlace lt t i f = .ok (t', l[i]) ∧ QueueOk lt t' l' ∧
      l'.Perm (l.set i (f l[i])) := by
  have hcount := h.ok.count
  have hle := h.ok.count_le
  have hlaid := laid h.ok h.flat
  have hlength : (l.set i (f l[i])).length = t.count := by rw [length_set, hcount]
  have hr : ∀ j, update t.slots i (some (f l[i])) j = (l.set i (f l[i]))[j]? := by
    intro j
    by_cases hj : j = i
    · rw [hj, update_self, getElem?_set_self hi]
    · rw [update_of_ne hj, hlaid, getElem?_set_ne (Ne.symm hj)]
  have hhole : BinaryHeap.Hole (slotLt lt) 0 (update t.slots i (some (f l[i])))
      (l.set i (f l[i])).length i := by
    rw [length_set]
    exact .of_heap h.heap fun j _ hj => update_of_ne hj ..
  obtain ⟨l', hperm, hl', hheap⟩ := @fix_ok _ _ _ _ t.capacity _ _ (by omega) hr
    (by rw [length_set]; exact hi) hhole
  have hlength' : l'.length = t.count := hperm.length_eq.trans hlength
  have hok := relaid h.ok h.flat (by omega) (by omega) hl'
  rw [hlength', hlength] at hok
  rw [hlength] at hheap
  refine ⟨_, l', ?_, ⟨hok, h.flat, h.spare, hheap⟩, hperm⟩
  rw [lendPlace, checkPlace_eq (by omega)]
  show (t.room >>= fun items => elementOf (items i) >>= fun x => _) = _
  rw [h.ok.room_eq (by omega)]
  show (elementOf (t.slots i) >>= fun x => _) = _
  rw [hlaid, getElem?_eq_getElem hi]
  rfl

/-- The elements without the one at `i`, the last of which took its place. -/
theorem moveLast_perm {d : List T} {x : T} {i : Nat} (hi : i < d.length) :
    (d.set i x).Perm ((d ++ [x]).eraseIdx i) := by
  rw [eraseIdx_append_of_lt_length hi]
  exact (set_perm_cons_eraseIdx hi x).trans (@List.perm_append_comm _ [x] _)

theorem laid_dropLast {r : Room T} {d : List T} {x : T} (hr : ∀ j, r j = (d ++ [x])[j]?)
    (j : Nat) : zeroSlot r d.length j = d[j]? := by
  unfold zeroSlot
  by_cases hjd : j = d.length
  · rw [hjd, update_self, getElem?_eq_none (Nat.le_refl _)]
  · rw [update_of_ne hjd, hr, getElem?_append]
    split
    · rfl
    · rw [getElem?_eq_none (by rw [length_singleton]; omega), getElem?_eq_none (by omega)]

theorem laid_moveLast {r : Room T} {d : List T} {x : T} (hr : ∀ j, r j = (d ++ [x])[j]?)
    {i : Nat} (hi : i < d.length) (j : Nat) :
    zeroSlot (copySlot r i d.length) d.length j = (d.set i x)[j]? := by
  have hcommute : zeroSlot (copySlot r i d.length) d.length =
      update (zeroSlot r d.length) i (r d.length) := by
    exact update_comm (by omega) ..
  rw [hcommute]
  by_cases hji : j = i
  · rw [hji, update_self, hr, getElem?_concat_length, getElem?_set_self hi]
  · rw [update_of_ne hji, laid_dropLast hr, getElem?_set_ne (Ne.symm hji)]

theorem takePlace_ok (h : QueueOk lt t l) {i : Nat} (hi : i < l.length) :
    ∃ t' l', takePlace lt t i = .ok (t', l[i], if i + 1 < l.length then some i else none) ∧
      QueueOk lt (t'.resized (t'.count - 1)) l' ∧ l'.Perm (l.eraseIdx i) := by
  have hcount := h.ok.count
  have hle := h.ok.count_le
  have hlaid := laid h.ok h.flat
  have htake : takePlace lt t i = .ok ({ t with items := some (if i < t.count - 1 then
          fix lt t.capacity (zeroSlot (if i < t.count - 1 then copySlot t.slots i (t.count - 1)
            else t.slots) (t.count - 1)) i (t.count - 1)
        else zeroSlot (if i < t.count - 1 then copySlot t.slots i (t.count - 1) else t.slots)
          (t.count - 1)) },
        l[i], if i + 1 < l.length then some i else none) := by
    rw [takePlace, checkPlace_eq (by omega)]
    show (t.room >>= fun items => elementOf (items i) >>= fun x => _) = _
    rw [h.ok.room_eq (by omega)]
    show (elementOf (t.slots i) >>= fun x => _) = _
    rw [hlaid, getElem?_eq_getElem hi]
    have hafter : (if i < t.count - 1 then some i else none) =
        if i + 1 < l.length then some i else none := by
      congr 1
      exact propext (by omega)
    rw [← hafter]
    rfl
  obtain ⟨d, x, rfl⟩ : ∃ d x, l = d ++ [x] := by
    rcases eq_nil_or_concat l with rfl | ⟨d, x, rfl⟩
    · exact absurd hi (Nat.not_lt_zero i)
    · exact ⟨d, x, concat_eq_append⟩
  rw [length_append, length_singleton] at hcount hi
  rw [htake]
  have hlast : t.count - 1 = d.length := by omega
  rw [hlast]
  by_cases hid : i < d.length
  · rw [if_pos hid, if_pos hid]
    have hr := laid_moveLast hlaid hid
    have hlength : (d.set i x).length = d.length := length_set
    have hhole : BinaryHeap.Hole (slotLt lt) 0 (zeroSlot (copySlot t.slots i d.length) d.length)
        (d.set i x).length i := by
      refine .of_heap (fun j hj hjn hlo => h.heap j hj ?_ hlo) fun j hjn hji => ?_
      · rw [length_append]
        omega
      · rw [zeroSlot, copySlot, update_of_ne (by omega), update_of_ne hji]
    obtain ⟨l', hperm, hl', hheap⟩ := @fix_ok _ _ _ _ t.capacity _ _ (by omega) hr (by omega) hhole
    have hlength' : l'.length = t.count - 1 := by rw [hperm.length_eq, hlength, hlast]
    have hok := relaid h.ok h.flat (by omega) (by omega) hl'
    rw [hlength', hlength] at hok
    rw [hlength] at hheap
    exact ⟨_, l', rfl, ⟨hok, h.flat, h.spare, hheap⟩, hperm.trans (moveLast_perm hid)⟩
  · rw [if_neg hid, if_neg hid]
    -- the last element leaves
    have hid : i = d.length := by omega
    have hok := relaid h.ok h.flat (by omega) (by omega) (laid_dropLast hlaid)
    refine ⟨_, d, rfl, ⟨?_, h.flat, h.spare, ?_⟩, ?_⟩
    · show ({ t with items := some (zeroSlot t.slots d.length), count := t.count - 1 } :
        Indexed T).Ok d
      rw [hlast]
      exact hok
    · intro j hj hjn hlo
      have hp := BinaryHeap.parent_lt hj
      show slotLt lt (zeroSlot t.slots d.length j)
        (zeroSlot t.slots d.length (BinaryHeap.parent j)) = false
      rw [zeroSlot, update_of_ne (by omega), update_of_ne (by omega)]
      exact h.heap j hj (by omega) hlo
    · rw [hid, eraseIdx_append_of_length_le (Nat.le_refl _), Nat.sub_self]
      exact .of_eq (append_nil d).symm

end Order

end PriorityQueue

end AnticCollection
