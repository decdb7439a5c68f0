import Antic.SpscProducerProofs

/-! # The consumer of the ring

    A call of the consumer works on the elements it found when it read `given`,
    and the producer appends behind them.  The elements move inside the slots of
    that part, and the store of `taken` publishes what is left of it. -/

namespace AnticRing

open SharedCode List

variable {T R : Type} {N : Nat}

/-! ## The part of a call -/

/-- What a call of the consumer works on: the positions from `head` on, their
    slots, the elements in them, what the call took, and `given_seen`. -/
structure Part (T : Type) where
  head : Nat
  slots : List (Option T) := []
  queue : List T := []
  popped : List T := []
  removed : List T := []
  seen : Nat

/-- The position after the part. -/
def Part.tail (k : Part T) : Nat := k.head + k.slots.length

/-- The ring at a step of the consumer. -/
structure Mine (N : Nat) (k : Part T) (v : View (Memory T)) : Prop where
  counters : Counters N v.now
  taken : v.now.counter .taken = k.head
  seen : v.now.counter .givenSeen = k.seen
  slots : Holds N v.now k.head k.slots
  popped : v.now.popped = v.began.popped ++ k.popped
  removed : v.now.removed = v.began.removed ++ k.removed
  rest : ∃ r : List T, v.now.counter .given = k.tail + r.length ∧
    Holds N v.now k.tail (r.map some) ∧
    Kept v.now.popped (k.queue ++ r) v.now.removed v.now.accepted

section Mine

variable {k : Part T} {v v' : View (Memory T)}

variable (h : Mine N k v)
include h

theorem Mine.goes (hv : v.Goes (rely N .consumer) v') : Mine N k v' := by
  obtain ⟨xs, hg⟩ := hv.rely h.counters
  obtain ⟨r, hgiven, hrest, hkept⟩ := h.rest
  have htaken := h.taken
  have hsame {p : Nat} {os : List (Option T)} (hp : k.head ≤ p)
      (hlen : p + os.length ≤ v.now.counter .given) (ho : Holds N v.now p os) :
      Holds N v'.now p os :=
    ho.congr fun i hi => hg.held _ (by omega) (by omega)
  have htail : k.tail = k.head + k.slots.length := rfl
  exact
    { counters := hg.counters
      taken := hg.taken.trans h.taken
      seen := hg.givenSeen.trans h.seen
      slots := hsame (Nat.le_refl _) (by omega) h.slots
      popped := by rw [hg.popped, hv.began, h.popped]
      removed := by rw [hg.removed, hv.began, h.removed]
      rest := by
        refine ⟨r ++ xs, ?_, ?_, ?_⟩
        · rw [hg.given, hgiven, length_append, Nat.add_assoc]
        · rw [map_append, holds_append, length_map]
          refine ⟨hsame (by omega) (by rw [length_map]; omega) hrest, ?_⟩
          rw [← hgiven]
          exact hg.new
        · rw [hg.popped, hg.removed, hg.accepted, ← append_assoc]
          exact hkept.push xs }

theorem Mine.load : Mine N k (v.after v.now) :=
  ⟨h.counters, h.taken, h.seen, h.slots, h.popped, h.removed, h.rest⟩

theorem Mine.grow {g : Nat} (hle : k.tail ≤ g) (hg : g ≤ v.now.counter .given) :
    ∃ q : List T, g = k.tail + q.length ∧
      Mine N { k with slots := k.slots ++ q.map some, queue := k.queue ++ q } v := by
  obtain ⟨r, hgiven, hrest, hkept⟩ := h.rest
  have hlen : (r.take (g - k.tail)).length = g - k.tail := by
    rw [length_take]
    omega
  have hsplit : r = r.take (g - k.tail) ++ r.drop (g - k.tail) :=
    (take_append_drop _ r).symm
  generalize r.take (g - k.tail) = q at hlen hsplit
  generalize r.drop (g - k.tail) = r' at hsplit
  subst hsplit
  rw [map_append, holds_append, length_map] at hrest
  refine ⟨q, by omega, h.counters, h.taken, h.seen, holds_append.mpr ⟨h.slots, hrest.1⟩,
    h.popped, h.removed, r', ?_, ?_, ?_⟩
  · show v.now.counter .given = k.head + (k.slots ++ q.map some).length + r'.length
    rw [hgiven, length_append, length_append, length_map]
    show k.head + k.slots.length + _ = _
    omega
  · show Holds N v.now (k.head + (k.slots ++ q.map some).length) _
    rw [length_append, length_map, ← Nat.add_assoc]
    exact hrest.2
  · rw [append_assoc]
    exact hkept

theorem Mine.storeSeen {g : Nat} (hle : k.head ≤ g) (hg : g ≤ v.now.counter .given) :
    Mine N { k with seen := g } (v.after (exec (.store .givenSeen g {}) v.now).1) where
  counters := (taken_seen h.counters (h.taken ▸ hle) hg).counters
  taken := h.taken
  seen := rfl
  slots := h.slots
  popped := (append_nil _).trans h.popped
  removed := (append_nil _).trans h.removed
  rest := by
    obtain ⟨r, hgiven, hrest, hkept⟩ := h.rest
    refine ⟨r, hgiven, hrest, ?_⟩
    show Kept (_ ++ []) _ (_ ++ []) (_ ++ [])
    rw [append_nil, append_nil, append_nil]
    exact hkept

theorem Mine.room : k.slots.length ≤ N := by
  obtain ⟨r, hgiven, -, -⟩ := h.rest
  have hle := h.counters.given_le
  have htaken := h.taken
  have htail : k.tail = k.head + k.slots.length := rfl
  omega

theorem Mine.tail_le : k.tail ≤ v.now.counter .given := by
  obtain ⟨r, hgiven, -, -⟩ := h.rest
  omega

theorem Mine.reach {i : Nat} (hi : i < k.slots.length) :
    ∃ p, v.now.counter .taken ≤ p ∧ p < v.now.counter .given ∧
      (k.head + i) % N = p % N := by
  have htail : k.tail = k.head + k.slots.length := rfl
  have hle := h.tail_le
  have htaken := h.taken
  exact ⟨k.head + i, by omega, by omega, rfl⟩

theorem Mine.write {i : Nat} (hi : i < k.slots.length) (x : Option T) :
    Mine N { k with slots := k.slots.set i x }
      (v.after (exec (.write ((k.head + i) % N) x) v.now).1) where
  counters := counters_congr h.counters rfl
  taken := h.taken
  seen := h.seen
  slots := h.slots.write h.room hi x
  popped := h.popped
  removed := h.removed
  rest := by
    obtain ⟨r, hgiven, hrest, hkept⟩ := h.rest
    have htail : Part.tail { k with slots := k.slots.set i x } = k.tail := by
      show k.head + (k.slots.set i x).length = _
      rw [length_set]
      rfl
    rw [htail]
    refine ⟨r, hgiven, hrest.congr fun j hj => ?_, hkept⟩
    have hle := h.counters.given_le
    have htaken := h.taken
    have ht : k.tail = k.head + k.slots.length := rfl
    rw [length_map] at hj
    exact Function.update_of_ne (slot_ne (by omega) (by omega)).symm _ _

theorem Mine.destroy {a b : List T} {x : T} (hq : k.queue = a ++ x :: b) :
    consumerMay N (.destroy (some x)) v.now ∧
      Mine N { k with queue := a ++ b, removed := k.removed ++ [x] }
        (v.after (exec (.destroy (some x)) v.now).1) := by
  obtain ⟨r, hgiven, hrest, hkept⟩ := h.rest
  rw [hq, append_assoc, cons_append] at hkept
  have hafter := hkept.remove
  rw [← append_assoc] at hafter
  refine ⟨⟨_, hafter⟩, counters_congr h.counters rfl, h.taken, h.seen, h.slots, h.popped,
    ?_, r, hgiven, hrest, hafter⟩
  show v.now.removed ++ [x] = _
  rw [h.removed, append_assoc]
  rfl

/-- The store that publishes the part: `j` empty slots and the elements `q`. -/
theorem Mine.publish {j : Nat} {q : List T} {note : Note T}
    (hslots : k.slots = List.replicate j none ++ q.map some)
    (hseen : k.head + j ≤ k.seen) (hnote : note.accepted = [])
    (hkept : ∀ popped r removed accepted,
      Kept popped (k.queue ++ r) removed accepted →
        Kept (popped ++ note.popped) (q ++ r) (removed ++ note.removed) accepted) :
    consumerMay N (.store .taken (k.head + j) note) v.now ∧
      Mine N { head := k.head + j, slots := q.map some, queue := q, seen := k.seen
               popped := k.popped ++ note.popped
               removed := k.removed ++ note.removed }
        (v.after (exec (.store .taken (k.head + j) note) v.now).1) := by
  have htaken := h.taken
  have hslots' := h.slots
  rw [hslots, holds_append, length_replicate] at hslots'
  have hnone : ∀ p, v.now.counter .taken ≤ p → p < k.head + j →
      v.now.items (p % N) = none := by
    intro p h₁ h₂
    have hp : p = k.head + (p - k.head) := by omega
    rw [hp]
    refine hslots'.1 _ _ ?_
    rw [getElem?_replicate, if_pos (by omega)]
  have hle : v.now.counter .taken ≤ k.head + j := by omega
  have hseen' : k.head + j ≤ v.now.counter .givenSeen := by rw [h.seen]; exact hseen
  have hafter : ∃ queue, Kept (v.now.popped ++ note.popped) queue
      (v.now.removed ++ note.removed) v.now.accepted := by
    obtain ⟨r, -, -, hk⟩ := h.rest
    exact ⟨q ++ r, hkept _ _ _ _ hk⟩
  refine ⟨⟨hnote, hle, hseen', hnone, hafter⟩,
    (taken_publish h.counters hnote hle hseen' hnone).counters, rfl, h.seen, hslots'.2,
    ?_, ?_, ?_⟩
  · show v.now.popped ++ note.popped = _
    rw [h.popped, append_assoc]
    rfl
  · show v.now.removed ++ note.removed = _
    rw [h.removed, append_assoc]
    rfl
  · obtain ⟨r, hgiven, hrest, hk⟩ := h.rest
    have htail : Part.tail { head := k.head + j, slots := q.map some, queue := q
                             seen := k.seen, popped := k.popped ++ note.popped
                             removed := k.removed ++ note.removed } = k.tail := by
      show k.head + j + (q.map some).length = k.head + k.slots.length
      rw [hslots, length_append, length_replicate, Nat.add_assoc]
    rw [htail]
    refine ⟨r, hgiven, hrest, ?_⟩
    show Kept (_ ++ note.popped) _ (_ ++ note.removed) (_ ++ note.accepted)
    rw [hnote, append_nil]
    exact hkept _ _ _ _ hk

end Mine

end AnticRing
