import Antic.SpscRingProofs

/-! # The producer of the ring

    The producer alone moves `given`, so between its steps the first free slot
    stays the one it reaches, and a slot that was free stays free. -/

namespace AnticRing

open SharedCode

variable {T R : Type} {N : Nat}

/-- Code that runs on one side of the ring. -/
abbrev Runs (N : Nat) (t : Side) (post : R → View (Memory T) → Prop) (c : Op T R)
    (v : View (Memory T)) : Prop :=
  c.Safe exec (fun _ _ => True) (rely N t) (may N t) post v

section Rules

variable {t : Side} {post : R → View (Memory T) → Prop} {v : View (Memory T)}

theorem run_load {c : Counter} {f : Nat → Op T R}
    (h : ∀ v', v.Goes (rely N t) v' →
      Runs N t post (f (v'.now.counter c)) (v'.after v'.now)) :
    Runs N t post (load c >>= f) v :=
  fun v' hv _ => ⟨by cases t <;> trivial, h v' hv⟩

theorem run_store {c : Counter} {n : Nat} {note : Note T} {f : Unit → Op T R}
    (h : ∀ v', v.Goes (rely N t) v' → may N t (.store c n note) v'.now ∧
      Runs N t post (f ()) (v'.after (exec (.store c n note) v'.now).1)) :
    Runs N t post (store c n note >>= f) v :=
  fun v' hv _ => h v' hv

theorem run_read {slot : Nat} {f : Option T → Op T R}
    (h : ∀ v', v.Goes (rely N t) v' → may N t (.read slot) v'.now ∧
      Runs N t post (f (v'.now.items slot)) (v'.after v'.now)) :
    Runs N t post (read slot >>= f) v :=
  fun v' hv _ => h v' hv

theorem run_write {slot : Nat} {x : Option T} {f : Unit → Op T R}
    (h : ∀ v', v.Goes (rely N t) v' → may N t (.write slot x) v'.now ∧
      Runs N t post (f ()) (v'.after (exec (.write slot x) v'.now).1)) :
    Runs N t post (write slot x >>= f) v :=
  fun v' hv _ => h v' hv

theorem run_destroy {x : Option T} {f : Unit → Op T R}
    (h : ∀ v', v.Goes (rely N t) v' → may N t (.destroy x) v'.now ∧
      Runs N t post (f ()) (v'.after (exec (.destroy x) v'.now).1)) :
    Runs N t post (destroy x >>= f) v :=
  fun v' hv _ => h v' hv

end Rules

/-- The ring held `N` elements at a moment of the call. -/
def WasFull (N : Nat) (v : View (Memory T)) : Prop :=
  ∃ m ∈ v.moments, m.counter .given = m.counter .taken + N

/-- The producer between two calls: every free slot is empty. -/
structure Producing (N : Nat) (s : Memory T) : Prop where
  counters : Counters N s
  free : ∀ p, s.counter .given ≤ p → p < s.counter .taken + N →
    s.items (p % N) = none

/-- The producer in a call, with the counters it read and what it wrote into the first free slot. -/
structure Pushing (N g low seen : Nat) (x : Option T) (v : View (Memory T)) :
    Prop where
  counters : Counters N v.now
  given : v.now.counter .given = g
  low : low ≤ v.now.counter .taken
  seen : v.now.counter .takenSeen = seen
  accepted : v.now.accepted = v.began.accepted
  room : x ≠ none → g < v.now.counter .taken + N
  free : ∀ p, g ≤ p → p < v.now.counter .taken + N →
    v.now.items (p % N) = if p = g then x else none

section Producer

variable {g low seen : Nat} {x : Option T} {v v' : View (Memory T)}

theorem WasFull.goes {t : Side} (h : WasFull N v) (hv : v.Goes (rely N t) v') :
    WasFull N v' := by
  obtain ⟨m, hm, hfull⟩ := h
  exact ⟨m, hv.moments hm, hfull⟩

theorem WasFull.after (h : WasFull N v) (s : Memory T) : WasFull N (v.after s) := by
  obtain ⟨m, hm, hfull⟩ := h
  exact ⟨m, List.mem_cons_of_mem _ hm, hfull⟩

theorem Pushing.goes (h : Pushing N g low seen x v)
    (hv : v.Goes (rely N .producer) v') : Pushing N g low seen x v' := by
  have ht := hv.rely h.counters
  have htaken := ht.taken
  have hgiven := h.given
  have hroom := h.counters.given_le
  exact
    { counters := ht.counters
      given := ht.given.trans h.given
      low := Nat.le_trans h.low ht.taken
      seen := ht.takenSeen.trans h.seen
      accepted := by rw [ht.accepted, hv.began, h.accepted]
      room := fun hx => Nat.lt_of_lt_of_le (h.room hx) (Nat.add_le_add_right ht.taken N)
      free := by
        intro p h₁ h₂
        by_cases hp : p < v.now.counter .taken + N
        · rw [ht.free p (by omega) hp]
          exact h.free p h₁ hp
        · rw [ht.freed p (Nat.le_of_not_lt hp) h₂]
          split
          · -- the ring was full, so nothing is written yet
            rename_i hpg
            subst hpg
            by_contra hne
            exact hp (h.room (Ne.symm hne))
          · rfl }

theorem Pushing.load (h : Pushing N g low seen x v) :
    Pushing N g low seen x (v.after v.now) :=
  ⟨h.counters, h.given, h.low, h.seen, h.accepted, h.room, h.free⟩

theorem Pushing.loadTaken (h : Pushing N g low seen x v) :
    Pushing N g (v.now.counter .taken) seen x (v.after v.now) :=
  ⟨h.counters, h.given, Nat.le_refl _, h.seen, h.accepted, h.room, h.free⟩

theorem Pushing.destroy (h : Pushing N g low seen x v) (y : Option T) :
    Pushing N g low seen x (v.after (exec (.destroy y) v.now).1) :=
  ⟨counters_congr h.counters rfl, h.given, h.low, h.seen, h.accepted, h.room, h.free⟩

theorem Pushing.storeSeen (h : Pushing N g low seen x v) :
    Pushing N g low low x (v.after (exec (.store .takenSeen low {}) v.now).1) where
  counters := (given_seen h.counters h.low).counters
  given := h.given
  low := h.low
  seen := rfl
  accepted := (List.append_nil _).trans h.accepted
  room := h.room
  free := h.free

theorem Pushing.write (h : Pushing N g low seen none v)
    (hroom : g < v.now.counter .taken + N) (y : T) :
    Pushing N g low seen (some y)
      (v.after (exec (.write (g % N) (some y)) v.now).1) where
  counters := counters_congr h.counters rfl
  given := h.given
  low := h.low
  seen := h.seen
  accepted := h.accepted
  room := fun _ => hroom
  free := by
    intro p h₁ h₂
    have h₂ : p < v.now.counter .taken + N := h₂
    have hheld := h.counters.taken_given
    have hgiven := h.given
    show Function.update v.now.items (g % N) (some y) (p % N) = _
    by_cases hp : p = g
    · rw [if_pos hp, hp, Function.update_self]
    · rw [if_neg hp, Function.update_of_ne (slot_ne (by omega) (by omega)).symm,
        h.free p h₁ h₂, if_neg hp]

theorem Pushing.producing (h : Pushing N g low seen none v) : Producing N v.now where
  counters := h.counters
  free := by
    intro p h₁ h₂
    rw [h.given] at h₁
    rw [h.free p h₁ h₂, ite_self]

theorem Pushing.publish {y : T} (h : Pushing N g low seen (some y) v) :
    Producing N (exec (.store .given (g + 1) { accepted := [y] }) v.now).1 := by
  have hroom := h.room (Option.some_ne_none y)
  have hslot : v.now.items (g % N) = some y := by
    rw [h.free g (Nat.le_refl g) hroom, if_pos rfl]
  have hgiven := h.given
  subst hgiven
  refine ⟨(given_publish h.counters hroom hslot).counters, fun p h₁ h₂ => ?_⟩
  have h₁ : v.now.counter .given + 1 ≤ p := h₁
  have h₂ : p < v.now.counter .taken + N := h₂
  show v.now.items (p % N) = none
  rw [h.free p (by omega) h₂, if_neg (by omega)]

/-- What the answer of a call of the producer says. -/
def producerAnswer (N : Nat) : ProducerCall T → Answer T → View (Memory T) → Prop
  | .push x, .flag true, v => v.now.accepted = v.began.accepted ++ [x]
  | .push _, .flag false, v => v.now.accepted = v.began.accepted ∧ WasFull N v
  | .isFull, .flag full, v =>
    v.now.accepted = v.began.accepted ∧ (full = true → WasFull N v)
  | _, _, _ => False

def producerPost (N : Nat) (c : ProducerCall T) (r : Answer T) (v : View (Memory T)) :
    Prop :=
  Producing N v.now ∧ producerAnswer N c r v

theorem give_safe {y : T} (h : Pushing N g low seen none v) (hroom : g < low + N) :
    Runs N .producer (producerPost N (.push y))
      (do
        assign (g % N) y
        store .given (g + 1) { accepted := [y] }
        return .flag true) v := by
  unfold assign
  rw [Code.bind_assoc]
  refine run_read fun v₁ hv₁ => ?_
  have h₁ := h.goes hv₁
  have hroom₁ : g < v₁.now.counter .taken + N :=
    Nat.lt_of_lt_of_le hroom (Nat.add_le_add_right h₁.low N)
  have hslot : v₁.now.items (g % N) = none := by
    rw [h₁.free g (Nat.le_refl g) hroom₁, if_pos rfl]
  refine ⟨⟨by rw [h₁.given], by rw [h₁.given]; exact hroom₁⟩, ?_⟩
  rw [Code.bind_assoc]
  refine run_destroy fun v₂ hv₂ => ⟨hslot, ?_⟩
  have h₂ := h₁.load.goes hv₂
  refine run_write fun v₃ hv₃ => ?_
  have h₃ := (h₂.destroy _).goes hv₃
  have hroom₃ : g < v₃.now.counter .taken + N :=
    Nat.lt_of_lt_of_le hroom (Nat.add_le_add_right h₃.low N)
  refine ⟨⟨by rw [h₃.given], by rw [h₃.given]; exact hroom₃⟩, ?_⟩
  refine run_store fun v₄ hv₄ => ?_
  have h₄ := (h₃.write hroom₃ y).goes hv₄
  have hroom₄ := h₄.room (Option.some_ne_none y)
  have hslot₄ : v₄.now.items (g % N) = some y := by
    rw [h₄.free g (Nat.le_refl g) hroom₄, if_pos rfl]
  refine ⟨?_, h₄.publish, ?_⟩
  · rw [← h₄.given] at hroom₄ hslot₄ ⊢
    exact ⟨rfl, hroom₄, y, rfl, hslot₄⟩
  · show v₄.now.accepted ++ [y] = v₄.began.accepted ++ [y]
    rw [h₄.accepted]

theorem push_safe {y : T} (h : Pushing N g low low none v) :
    Runs N .producer (producerPost N (.push y)) (push N y) v := by
  refine run_load fun v₁ hv₁ => ?_
  have h₁ := h.goes hv₁
  rw [h₁.given]
  refine run_load fun v₂ hv₂ => ?_
  have h₂ := h₁.load.goes hv₂
  rw [h₂.seen]
  by_cases hseen : g - low ≥ N
  · rw [if_pos hseen]
    -- The copy says the ring is full, so `taken` is read again.
    refine run_load fun v₃ hv₃ => ?_
    have h₃ := h₂.load.goes hv₃
    refine run_store fun v₄ hv₄ => ?_
    have h₄ := h₃.loadTaken.goes hv₄
    refine ⟨⟨h₄.low, rfl⟩, ?_⟩
    refine run_load fun v₅ hv₅ => ?_
    have h₅ := h₄.storeSeen.goes hv₅
    rw [h₅.seen, Code.pure_bind]
    beta_reduce
    by_cases hfull : g - v₃.now.counter .taken ≥ N
    · rw [decide_eq_true hfull, if_pos rfl]
      have hmoment : WasFull N (v₃.after v₃.now) := by
        refine ⟨v₃.now, List.mem_cons_self, ?_⟩
        have hgiven := h₃.given
        have hle := h₃.counters.given_le
        have hheld := h₃.counters.taken_given
        omega
      have hwas := ((hmoment.goes hv₄).after _).goes hv₅
      exact ⟨h₅.load.producing, h₅.accepted, hwas.after _⟩
    · rw [decide_eq_false hfull, if_neg Bool.false_ne_true]
      exact give_safe h₅.load (by omega)
  · rw [if_neg hseen, Code.pure_bind]
    exact give_safe h₂.load (by omega)

theorem isFull_safe (h : Pushing N g low low none v) :
    Runs N .producer (producerPost N .isFull) (isFull N) v := by
  refine run_load fun v₁ hv₁ => ?_
  have h₁ := h.goes hv₁
  refine run_load fun v₂ hv₂ => ?_
  have h₂ := h₁.loadTaken.goes hv₂
  refine ⟨h₂.producing, h₂.accepted, fun hfull => ?_⟩
  have hfull : v₂.now.counter .given - v₁.now.counter .taken ≥ N :=
    of_decide_eq_true hfull
  have hmoment : WasFull N (v₁.after v₁.now) := by
    refine ⟨v₁.now, List.mem_cons_self, ?_⟩
    have hgiven := h₁.given
    have hgiven' := h₂.given
    have hle := h₁.counters.given_le
    have hheld := h₁.counters.taken_given
    omega
  exact (hmoment.goes hv₂).after _

theorem producer_safe {s : Memory T} (h : Producing N s) (c : ProducerCall T) :
    Runs N .producer (producerPost N c) (body N .producer c) (View.start s) := by
  have hstart : Pushing N (s.counter .given) (s.counter .takenSeen)
      (s.counter .takenSeen) none (View.start s) :=
    { counters := h.counters
      given := rfl
      low := h.counters.takenSeen_le
      seen := rfl
      accepted := rfl
      room := fun hne => absurd rfl hne
      free := fun p h₁ h₂ => (h.free p h₁ h₂).trans (ite_self none).symm }
  cases c with
  | push x => exact push_safe hstart
  | isFull => exact isFull_safe hstart

end Producer

end AnticRing
