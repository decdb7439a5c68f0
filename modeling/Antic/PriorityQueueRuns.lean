import Antic.PriorityQueueProofs
import Mathlib.Data.Multiset.Basic

/-! # Runs of `PriorityQueue<T>` -/

namespace AnticCollection

open Indexed Interleaving List Function

namespace PriorityQueue

variable {T : Type} {lt : T → T → Bool} {t : Indexed T} {l : List T}

/-! ## The loops -/

section Loops

variable (test : Nat → T → Bool) (change : Nat → T → T)

theorem updateFrom_cons {r : Room T} {i : Nat} {x : T} (hx : r i = some x) (left n : Nat) :
    updateFrom test change (left + 1) i r n =
      if test i x = true then
        updateFrom test change left (i + 1) (update r i (some (change i x))) (n + 1)
      else updateFrom test change left (i + 1) r n := by
  rw [updateFrom, hx]
  rfl

theorem removeFrom_cons {r : Room T} {i : Nat} {x : T} (hx : r i = some x) (left kept : Nat) :
    removeFrom test (left + 1) i r kept =
      if test i x = true then removeFrom test left (i + 1) (zeroSlot r i) kept
      else removeFrom test left (i + 1)
        (if kept < i then zeroSlot (copySlot r kept i) i else r) (kept + 1) := by
  rw [removeFrom, hx]
  show (if test i x = true then _ else if kept < i then _ else _) = _
  split
  · rfl
  · split <;> rfl

/-- `update_all` passes the elements `done` and changes the rest. -/
theorem updateFrom_eq {done rest : List T} {r : Room T} {n : Nat}
    (hr : ∀ j, r j = (done ++ rest)[j]?) :
    ∃ r', updateFrom test change rest.length done.length r n =
        .ok (r', n + hits test done.length rest) ∧
      ∀ j, r' j = (done ++ changedAll test change done.length rest)[j]? := by
  induction rest generalizing done r n with
  | nil => exact ⟨r, rfl, hr⟩
  | cons x rest ih =>
    have hx : r done.length = some x := by
      rw [hr, getElem?_append_right (Nat.le_refl _), Nat.sub_self]
      rfl
    rw [length_cons, updateFrom_cons test change hx, hits, changedAll]
    cases hyes : test done.length x with
    | true =>
      have hr' : ∀ j, update r done.length (some (change done.length x)) j =
          ((done ++ [change done.length x]) ++ rest)[j]? := by
        intro j
        by_cases hj : j = done.length
        · rw [hj, update_self, append_assoc, getElem?_append_right (Nat.le_refl _), Nat.sub_self]
          rfl
        · rw [update_of_ne hj, hr, append_assoc, getElem?_append, getElem?_append]
          split
          · rfl
          · rw [singleton_append, getElem?_cons, getElem?_cons,
              if_neg (by omega), if_neg (by omega)]
      obtain ⟨r', hloop, hend⟩ := ih (n := n + 1) hr'
      rw [length_append, length_singleton] at hloop hend
      refine ⟨r', ?_, fun j => ?_⟩
      · rw [← Nat.add_assoc]
        exact hloop
      · rw [hend, append_assoc]
        rfl
    | false =>
      have hr' : ∀ j, r j = ((done ++ [x]) ++ rest)[j]? := by
        intro j
        rw [hr, append_assoc]
        rfl
      obtain ⟨r', hloop, hend⟩ := ih (n := n) hr'
      rw [length_append, length_singleton] at hloop hend
      refine ⟨r', ?_, fun j => ?_⟩
      · show updateFrom test change rest.length (done.length + 1) r n =
          .ok (r', n + (0 + hits test (done.length + 1) rest))
        rw [Nat.zero_add]
        exact hloop
      · rw [hend, append_assoc]
        rfl

/-- The room of `remove_all` at the position `i`: the elements kept, a gap, and the
    elements to come. -/
def Compacted (kept rest : List T) (i : Nat) (r : Room T) : Prop :=
  kept.length ≤ i ∧
    ∀ j, r j = if j < kept.length then kept[j]? else if j < i then none else rest[j - i]?

/-- The pass moves what is kept to the front, in order. -/
theorem removeFrom_eq {kept rest : List T} {i : Nat} {r : Room T} (hr : Compacted kept rest i r) :
    ∃ r', removeFrom test rest.length i r kept.length =
        .ok (r', (kept ++ keptAll test i rest).length) ∧
      ∀ j, r' j = (kept ++ keptAll test i rest)[j]? := by
  induction rest generalizing kept i r with
  | nil =>
    refine ⟨r, by rw [keptAll, append_nil]; rfl, fun j => ?_⟩
    rw [keptAll, append_nil, hr.2]
    split
    · rfl
    · next hlow =>
        rw [getElem?_eq_none (Nat.le_of_not_lt hlow)]
        split <;> rfl
  | cons x rest ih =>
    obtain ⟨hle, hr⟩ := hr
    have hx : r i = some x := by
      rw [hr, if_neg (by omega), if_neg (by omega), Nat.sub_self]
      rfl
    rw [length_cons, removeFrom_cons test hx, keptAll]
    cases hyes : test i x with
    | true =>
      refine ih (i := i + 1) ⟨by omega, fun j => ?_⟩
      unfold zeroSlot
      by_cases hj : j = i
      · rw [hj, update_self, if_neg (by omega), if_pos (by omega)]
      · rw [update_of_ne hj, hr]
        by_cases hlow : j < i
        · rw [if_pos hlow, if_pos (by omega : j < i + 1)]
        · rw [if_neg hlow, if_neg (by omega : ¬ j < i + 1), getElem?_cons,
            if_neg (by omega : ¬ j - i = 0), show j - i - 1 = j - (i + 1) by omega]
    | false =>
      -- the element moves down over the gap, where there is one
      have hkeep : Compacted (kept ++ [x]) rest (i + 1)
          (if kept.length < i then zeroSlot (copySlot r kept.length i) i else r) := by
        refine ⟨by rw [length_append, length_singleton]; omega, fun j => ?_⟩
        rw [length_append, length_singleton]
        by_cases hgap : kept.length < i
        · rw [if_pos hgap]
          unfold zeroSlot copySlot
          by_cases hj : j = i
          · rw [hj, update_self, if_neg (by omega), if_pos (by omega)]
          · rw [update_of_ne hj]
            by_cases hjk : j = kept.length
            · rw [hjk, update_self, hx, if_pos (by omega), getElem?_concat_length]
            · rw [update_of_ne hjk, hr]
              by_cases hlow : j < kept.length
              · rw [if_pos hlow, if_pos (by omega), getElem?_append_left hlow]
              · rw [if_neg hlow, if_neg (by omega : ¬ j < kept.length + 1)]
                by_cases hji : j < i
                · rw [if_pos hji, if_pos (by omega)]
                · rw [if_neg hji, if_neg (by omega), getElem?_cons,
                    if_neg (by omega), show j - i - 1 = j - (i + 1) by omega]
        · rw [if_neg hgap, hr]
          have hi : i = kept.length := by omega
          by_cases hlow : j < kept.length
          · rw [if_pos hlow, if_pos (by omega), getElem?_append_left hlow]
          · rw [if_neg hlow, if_neg (by omega)]
            by_cases hj : j = kept.length
            · rw [if_pos (by omega), hj, getElem?_concat_length, hi, Nat.sub_self]
              rfl
            · rw [if_neg (by omega), if_neg (by omega), getElem?_cons,
                if_neg (by omega), show j - i - 1 = j - (i + 1) by omega]
      obtain ⟨r', hloop, hend⟩ := ih hkeep
      rw [append_assoc] at hloop hend
      rw [length_append, length_singleton] at hloop
      exact ⟨r', hloop, hend⟩

end Loops

/-! ## The operations -/

theorem changedAll_of_no_hit {test : Nat → T → Bool} {change : Nat → T → T} {turn : Nat}
    (h : hits test turn l = 0) : changedAll test change turn l = l := by
  induction l generalizing turn with
  | nil => rfl
  | cons x l ih =>
    rw [hits] at h
    rw [changedAll]
    cases hyes : test turn x with
    | true =>
      rw [hyes, if_pos rfl, Nat.add_comm] at h
      cases h
    | false =>
      rw [hyes, if_neg Bool.false_ne_true, Nat.zero_add] at h
      rw [ih h]
      rfl

theorem length_changedAll (test : Nat → T → Bool) (change : Nat → T → T) (turn : Nat)
    (l : List T) : (changedAll test change turn l).length = l.length := by
  induction l generalizing turn with
  | nil => rfl
  | cons x l ih => rw [changedAll, length_cons, length_cons, ih]

theorem length_keptAll (test : Nat → T → Bool) (turn : Nat) (l : List T) :
    (keptAll test turn l).length + hits test turn l = l.length := by
  induction l generalizing turn with
  | nil => rfl
  | cons x l ih =>
    rw [keptAll, hits, length_cons, ← ih (turn + 1)]
    cases test turn x with
    | true => exact (Nat.add_left_comm _ 1 _).trans (Nat.add_comm 1 _)
    | false => exact (congrArg _ (Nat.zero_add _)).trans (Nat.add_right_comm _ 1 _)

theorem keptAll_of_no_hit {test : Nat → T → Bool} {turn : Nat}
    (h : hits test turn l = 0) : keptAll test turn l = l := by
  induction l generalizing turn with
  | nil => rfl
  | cons x l ih =>
    rw [hits] at h
    rw [keptAll]
    cases hyes : test turn x with
    | true =>
      rw [hyes, if_pos rfl, Nat.add_comm] at h
      cases h
    | false =>
      rw [hyes, if_neg Bool.false_ne_true, Nat.zero_add] at h
      rw [ih h]
      rfl

section Order

variable [order : IsStrictWeakOrder T fun a b => lt a b = true]

theorem heapified (h : QueueOk lt t l) (hcap : 0 < t.capacity) {r : Room T} {l₁ : List T}
    (hle : l₁.length ≤ t.capacity) (hr : ∀ j, r j = l₁[j]?) :
    ∃ l' : List T, l'.Perm l₁ ∧
      QueueOk lt { t with items := some (heapify lt t.capacity l₁.length r),
                          count := l₁.length } l' := by
  obtain ⟨l', hperm, hl', hheap⟩ := @heapify_ok _ lt _ _ _ _ hle hr
  have hlength := hperm.length_eq
  have hok := relaid h.ok h.flat hcap (by omega) hl'
  rw [hlength] at hok
  exact ⟨l', hperm, hok, h.flat, h.spare, hheap⟩

omit order in
theorem no_room (h : t.Ok l) (hitems : t.items = none) : l = [] := by
  cases l with
  | nil => rfl
  | cons x l =>
    have hroom := h.items_of_lt (h.lt_capacity (Nat.succ_pos _))
    exact absurd (hitems.symm.trans hroom) nofun

theorem updateAll_ok (h : QueueOk lt t l) (test : Nat → T → Bool) (change : Nat → T → T) :
    ∃ t' l', updateAll lt test change t = .ok (t', hits test 0 l) ∧ QueueOk lt t' l' ∧
      l'.Perm (changedAll test change 0 l) := by
  have hcount := h.ok.count
  have hle := h.ok.count_le
  have hlaid := laid h.ok h.flat
  cases hitems : t.items with
  | none =>
    cases no_room h.ok hitems
    refine ⟨t, [], ?_, h, .refl _⟩
    rw [updateAll, hitems]
    rfl
  | some items =>
    have hslots : items = t.slots := by
      rw [slots, hitems]
      rfl
    obtain ⟨r', hloop, hr'⟩ := @updateFrom_eq _ test change [] l items 0
      (by rw [hslots]; exact hlaid)
    rw [nil_append, length_nil] at hr'
    rw [Nat.zero_add, length_nil, ← hcount] at hloop
    have hcall : updateAll lt test change t = if hits test 0 l > 0 then
        .ok ({ t with items := some (heapify lt t.capacity t.count r') }, hits test 0 l)
        else .ok ({ t with items := some r' }, hits test 0 l) := by
      rw [updateAll, hitems]
      show (updateFrom test change t.count 0 items 0 >>= fun r => _) = _
      rw [hloop]
      rfl
    rw [hcall]
    have hlength := length_changedAll test change 0 l
    split
    · next hpos =>
        have hne : 0 < l.length := by
          have hsum := length_keptAll test 0 l
          omega
        obtain ⟨l', hperm, hq⟩ := heapified h (by omega) (by omega) hr'
        rw [hlength, ← hcount] at hq
        exact ⟨_, l', rfl, hq, hperm⟩
    · next hzero =>
        have hsame := @changedAll_of_no_hit _ _ _ change _ (Nat.eq_zero_of_not_pos hzero)
        have hslots' : r' = t.slots := funext fun j => by rw [hr', hsame, hlaid]
        refine ⟨_, l, rfl, ?_, by rw [hsame]⟩
        rw [hslots', ← hslots, ← hitems]
        exact h

theorem removeAll_ok (h : QueueOk lt t l) (test : Nat → T → Bool) :
    ∃ t' l', removeAll lt test t = .ok (t', hits test 0 l) ∧ QueueOk lt t' l' ∧
      l'.Perm (keptAll test 0 l) := by
  have hcount := h.ok.count
  have hle := h.ok.count_le
  have hlaid := laid h.ok h.flat
  cases hitems : t.items with
  | none =>
    cases no_room h.ok hitems
    refine ⟨t, [], ?_, h, .refl _⟩
    rw [removeAll, hitems]
    rfl
  | some items =>
    have hslots : items = t.slots := by
      rw [slots, hitems]
      rfl
    have hstart : Compacted [] l 0 items := ⟨Nat.le_refl 0, fun j => by rw [hslots]; exact hlaid j⟩
    obtain ⟨r', hloop, hr'⟩ := removeFrom_eq test hstart
    rw [nil_append] at hloop hr'
    rw [length_nil, ← hcount] at hloop
    have hsum := length_keptAll test 0 l
    have hgone : t.count - (keptAll test 0 l).length = hits test 0 l := by omega
    have hcall : removeAll lt test t = if hits test 0 l > 0 then
        .ok ({ t with items := some (heapify lt t.capacity (keptAll test 0 l).length r'),
                      count := (keptAll test 0 l).length }, hits test 0 l)
        else .ok ({ t with items := some r' }, hits test 0 l) := by
      rw [removeAll, hitems]
      show (removeFrom test t.count 0 items 0 >>= fun r => _) = _
      rw [hloop, ← hgone]
      rfl
    rw [hcall]
    split
    · next hpos =>
        obtain ⟨l', hperm, hq⟩ := heapified h (by omega) (by omega) hr'
        exact ⟨_, l', rfl, hq, hperm⟩
    · next hzero =>
        have hsame := keptAll_of_no_hit (Nat.eq_zero_of_not_pos hzero)
        have hslots' : r' = t.slots := funext fun j => by rw [hr', hsame, hlaid]
        refine ⟨_, l, rfl, ?_, by rw [hsame]⟩
        rw [hslots', ← hslots, ← hitems]
        exact h

omit order in
theorem pop_eq {t' : Indexed T} {x : T} {p : Option Nat} (hcount : t.count ≠ 0)
    (htake : takePlace lt t 0 = .ok (t', x, p)) :
    pop lt t = .ok (t'.resized (t'.count - 1), some x) := by
  rw [pop, if_neg hcount, htake]
  rfl

theorem first_min {x : T} (h : QueueOk lt t (x :: l)) {y : T} (hy : y ∈ x :: l) :
    lt y x = false := by
  obtain ⟨i, hi, hget⟩ := getElem_of_mem hy
  have hroot := h.heap.root_le hi
  rw [laid h.ok h.flat, laid h.ok h.flat, getElem?_eq_getElem hi, hget] at hroot
  exact hroot

theorem pop_ok (h : QueueOk lt t l) :
    ∃ t' l', pop lt t = .ok (t', l.head?) ∧ QueueOk lt t' l' ∧ l'.Perm l.tail := by
  cases l with
  | nil => exact ⟨t, [], if_pos h.ok.count, h, .refl _⟩
  | cons x l =>
    obtain ⟨t', l', htake, hq, hperm⟩ := takePlace_ok h (i := 0) (Nat.succ_pos _)
    have hcount : t.count ≠ 0 := by
      rw [h.ok.count]
      exact Nat.succ_ne_zero _
    exact ⟨_, l', pop_eq hcount htake, hq, hperm⟩

omit order in
theorem peek_ok (h : QueueOk lt t l) : peek t = .ok l.head? := by
  cases l with
  | nil => exact if_pos h.ok.count
  | cons x l =>
    rw [peek, if_neg (by rw [h.ok.count]; exact Nat.succ_ne_zero _),
      h.ok.room_eq (Nat.lt_of_le_of_lt (Nat.zero_le _) (h.ok.lt_capacity (Nat.succ_pos _)))]
    show (elementOf (t.slots 0) >>= fun x => _) = _
    rw [laid h.ok h.flat]
    rfl

/-! ## The forms -/

/-- A walk of a queue stands behind the elements `done`. -/
structure QueueAt (lt : T → T → Bool) (t : Indexed T) (done rest : List T) (p : Option Nat) :
    Prop where
  queue : QueueOk lt t (done ++ rest)
  place : p = rest.head?.map fun _ => done.length

omit order in
theorem QueueAt.start (h : QueueOk lt t l) : QueueAt lt t [] l t.firstPlace := by
  refine ⟨h, ?_⟩
  rw [firstPlace, h.ok.count]
  cases l with
  | nil => rfl
  | cons x l => rfl

omit order in
theorem QueueAt.walk {done rest : List T} {p : Option Nat} (h : QueueAt lt t done rest p) :
    WalkAt t t done rest p :=
  ⟨h.queue.ok, Same.refl t, h.place⟩

omit order in
theorem queue_reader : Reader (queue lt) (QueueAt lt) where
  count {t done rest p} h := by
    show t.count = _
    rw [h.queue.ok.count, length_append]
  nil h := h.place
  cons h := ⟨_, h.place⟩
  look {t done x rest q} h := by
    obtain ⟨-, hcount, hq, hx⟩ := h.walk.split
    have hlaid := laid h.queue.ok h.queue.flat
    have hcap := h.queue.ok.lt_capacity hq
    have hslot : t.slots q = some x := by rw [hlaid, getElem?_eq_getElem hq, hx]
    have hspare : t.slots t.capacity = none := h.queue.ok.beyond _ (Nat.le_refl _)
    have hle := h.queue.ok.count_le
    -- the element stands in order already
    have hfix : fix lt t.capacity t.slots q t.count = t.slots := by
      have hup := @siftUp_eq _ lt _ _ hspare _ hcap
      have hmoved := BinaryHeap.siftUp_exchanged (slotLt lt) t.slots hq
      have hspare' : siftUp lt t.capacity t.slots q t.capacity = none := by
        rw [hup, hmoved.beyond (by rw [← h.queue.ok.count]; exact hle), hspare]
      rw [fix, siftDown_eq hle hspare', hup, h.queue.ok.count]
      exact BinaryHeap.sift_eq_self h.queue.heap hq
    show lendPlace lt t q id = _
    rw [lendPlace, checkPlace_eq (by rw [h.queue.ok.count]; exact hq)]
    show (t.room >>= fun items => elementOf (items q) >>= fun x => _) = _
    rw [h.queue.ok.room_eq (by omega)]
    show (elementOf (t.slots q) >>= fun x => _) = _
    rw [hslot]
    show Except.ok (({ t with items := some (fix lt t.capacity
      (update t.slots q (some x)) q t.count) } : Indexed T), x) = _
    rw [← hslot, update_eq_self, hfix, ← h.queue.ok.items_of_lt hcap]
  next {t done x rest q} h := by
    obtain ⟨p, hnext, hat⟩ := (indexed_cursor t).next h.walk
    refine ⟨p, hnext, ?_, hat.place⟩
    rw [append_assoc]
    exact h.queue

theorem clearFrom_ok (h : QueueOk lt t l) {fuel : Nat} (hfuel : l.length ≤ fuel) :
    ∃ t', (queue lt).clearFrom fuel (l.head?.map fun _ => 0) t = .ok t' ∧
      QueueOk lt t' [] := by
  induction fuel generalizing t l with
  | zero =>
    cases l with
    | nil => exact ⟨t, rfl, h⟩
    | cons x l => cases hfuel
  | succ fuel ih =>
    cases l with
    | nil => exact ⟨t, rfl, h⟩
    | cons x l =>
      obtain ⟨t₁, l', htake, hq, hperm⟩ := takePlace_ok h (i := 0) (Nat.succ_pos _)
      have hlength : l'.length = l.length := hperm.length_eq
      obtain ⟨t', hloop, hend⟩ := ih hq (by rw [hlength]; exact Nat.le_of_succ_le_succ hfuel)
      refine ⟨t', ?_, hend⟩
      have hafter : (if 0 + 1 < (x :: l).length then some 0 else none) =
          l'.head?.map fun _ => 0 := by
        cases l' with
        | nil => exact if_neg (by rw [length_cons, ← hlength]; exact Nat.lt_irrefl _)
        | cons y l' =>
          refine if_pos ?_
          rw [length_cons, ← hlength, length_cons]
          omega
      rw [← hafter] at hloop
      show (takePlace lt t 0 >>= fun r =>
        (queue lt).clearFrom fuel r.2.2 ((queue lt).removed r.1)) = _
      rw [show takePlace lt t 0 = _ from htake]
      exact hloop

variable {before after : List T}

/-- The elements with the first match changed, one exchange of a position. -/
theorem split_set {x : T} (y : T) :
    (before ++ x :: after).set before.length y = before ++ y :: after := by
  rw [set_append_right _ _ (Nat.le_refl _), Nat.sub_self]
  rfl

theorem split_erase {x : T} : (before ++ x :: after).eraseIdx before.length = before ++ after := by
  rw [eraseIdx_append_of_length_le (Nat.le_refl _), Nat.sub_self]
  rfl

/-- The elements of the queue are `l` in some order. -/
def Holds (lt : T → T → Bool) (t : Indexed T) (l : List T) : Prop :=
  ∃ l' : List T, QueueOk lt t l' ∧ l'.Perm l

theorem lendAt_ok {x : T} {q : Nat} (h : QueueAt lt t before (x :: after) (some q))
    (change : T → T) :
    ∃ t', lendPlace lt t q change = .ok (t', x) ∧ Holds lt t' (before ++ change x :: after) := by
  obtain ⟨hlen, -, hq, hx⟩ := h.walk.split
  obtain ⟨t', l', hlend, hok, hperm⟩ := lendPlace_ok h.queue hq change
  rw [hx] at hlend hperm
  rw [hlen, split_set] at hperm
  exact ⟨t', hlend, l', hok, hperm⟩

theorem takeAt_ok {x : T} {q : Nat} (h : QueueAt lt t before (x :: after) (some q)) :
    ∃ t' p, takePlace lt t q = .ok (t', x, p) ∧
      Holds lt (t'.resized (t'.count - 1)) (before ++ after) := by
  obtain ⟨hlen, -, hq, hx⟩ := h.walk.split
  obtain ⟨t', l', htake, hok, hperm⟩ := takePlace_ok h.queue hq
  rw [hx] at htake
  rw [hlen, split_erase] at hperm
  exact ⟨t', _, htake, l', hok, hperm⟩

/-- A form makes of the elements what it makes of the list of them in the order of the array. -/
theorem form_ok (h : QueueOk lt t l) (f : Form T) :
    ∃ t', form lt t f = .ok (t', (f.run l).2) ∧ Holds lt t' (f.run l).1 := by
  have hat : QueueAt lt t [] l ((queue lt).firstPlace t) := .start h
  cases f with
  | updateAll test change =>
    obtain ⟨t', l', hcall, hok, hperm⟩ := updateAll_ok h test change
    refine ⟨t', ?_, l', hok, hperm⟩
    rw [form, hcall]
    rfl
  | removeAll test =>
    obtain ⟨t', l', hcall, hok, hperm⟩ := removeAll_ok h test
    refine ⟨t', ?_, l', hok, hperm⟩
    rw [form, hcall]
    rfl
  | clear =>
    obtain ⟨t', hloop, hok⟩ := @clearFrom_ok _ _ _ _ _ h t.count (Nat.le_of_eq h.ok.count.symm)
    refine ⟨t', ?_, [], hok, .refl _⟩
    have hplace : t.firstPlace = l.head?.map fun _ => 0 := (QueueAt.start h).place
    show ((queue lt).clearFrom t.count t.firstPlace t >>= fun t => pure (t, _)) = _
    rw [hplace, hloop]
    rfl
  | updateFirst test change =>
    exact queue_reader.updateFirst_eq (Holds lt) ⟨l, h, .refl l⟩ hat test change
      fun hm => lendAt_ok hm change
  | removeFirst test =>
    exact queue_reader.removeFirst_eq (Holds lt) ⟨l, h, .refl l⟩ hat test takeAt_ok
  | updateOne test change =>
    exact queue_reader.updateOne_eq (Holds lt) ⟨l, h, .refl l⟩ hat test change
      fun hm => lendAt_ok hm change
  | removeOne test => exact queue_reader.removeOne_eq (Holds lt) ⟨l, h, .refl l⟩ hat test takeAt_ok

end Order

end PriorityQueue

end AnticCollection
