import Antic.SpscConsumerProofs

/-! # The calls of the consumer

    One lemma a loop: what the slots of the part hold at each turn. -/

namespace AnticRing

open SharedCode List

variable {T R : Type} {N : Nat}

/-- The consumer between two calls: the slots hold what is kept. -/
structure Consuming (N : Nat) (s : Memory T) : Prop where
  counters : Counters N s
  held : ∃ q : List T, s.counter .given = s.counter .taken + q.length ∧
    Holds N s (s.counter .taken) (q.map some) ∧
    Kept s.popped q s.removed s.accepted

section Rules

variable {k : Part T} {v : View (Memory T)} {post : R → View (Memory T) → Prop}

theorem Consuming.start {s : Memory T} (h : Consuming N s) :
    Mine N { head := s.counter .taken, seen := s.counter .givenSeen } (View.start s) := by
  obtain ⟨q, hgiven, hslots, hkept⟩ := h.held
  exact ⟨h.counters, rfl, rfl, Holds.nil, (append_nil _).symm,
    (append_nil _).symm, q, hgiven, hslots, hkept⟩

theorem Mine.consuming (h : Mine N k v) (hslots : k.slots = k.queue.map some) :
    Consuming N v.now := by
  obtain ⟨r, hgiven, hrest, hkept⟩ := h.rest
  refine ⟨h.counters, k.queue ++ r, ?_, ?_, hkept⟩
  · rw [hgiven, h.taken, length_append]
    show k.head + k.slots.length + _ = _
    rw [hslots, length_map, Nat.add_assoc]
  · rw [map_append, holds_append, h.taken, ← hslots]
    exact ⟨h.slots, hrest⟩

variable {f : Nat → Op T R}

theorem run_loadTaken (h : Mine N k v)
    (hf : ∀ v', Mine N k v' → Runs N .consumer post (f k.head) v') :
    Runs N .consumer post (load .taken >>= f) v := by
  refine run_load fun v' hv => ?_
  have h' := h.goes hv
  rw [h'.taken]
  exact hf _ h'.load

theorem run_loadSeen (h : Mine N k v)
    (hf : ∀ v', Mine N k v' → Runs N .consumer post (f k.seen) v') :
    Runs N .consumer post (load .givenSeen >>= f) v := by
  refine run_load fun v' hv => ?_
  have h' := h.goes hv
  rw [h'.seen]
  exact hf _ h'.load

theorem run_part {f : Option T → Op T R} (h : Mine N k v) {i : Nat} {o : Option T}
    (ho : k.slots[i]? = some o)
    (hf : ∀ v', Mine N k v' → Runs N .consumer post (f o) v') :
    Runs N .consumer post (read ((k.head + i) % N) >>= f) v := by
  refine run_read fun v' hv => ?_
  have h' := h.goes hv
  refine ⟨h'.reach (List.getElem?_eq_some_iff.mp ho).1, ?_⟩
  rw [h'.slots i o ho]
  exact hf _ h'.load

theorem run_fill {f : Unit → Op T R} (h : Mine N k v) {i : Nat} {x : Option T}
    (hi : i < k.slots.length)
    (hf : ∀ v', Mine N { k with slots := k.slots.set i x } v' → Runs N .consumer post (f ()) v') :
    Runs N .consumer post (write ((k.head + i) % N) x >>= f) v :=
  run_write fun _ hv => ⟨(h.goes hv).reach hi, hf _ ((h.goes hv).write hi x)⟩

theorem run_tearDown {f : Unit → Op T R} (h : Mine N k v) {a b : List T} {x : T}
    (hq : k.queue = a ++ x :: b)
    (hf : ∀ v', Mine N { k with queue := a ++ b, removed := k.removed ++ [x] } v' →
      Runs N .consumer post (f ()) v') :
    Runs N .consumer post (destroy (some x) >>= f) v :=
  run_destroy fun _ hv => ⟨((h.goes hv).destroy hq).1, hf _ ((h.goes hv).destroy hq).2⟩

/-- The part of a call that found the elements `q`. -/
def found (head : Nat) (q : List T) : Part T :=
  { head, slots := q.map some, queue := q, seen := head + q.length }

theorem found_tail (head : Nat) (q : List T) : (found head q).tail = head + q.length := by
  show head + (q.map some).length = _
  rw [length_map]

theorem run_loadGiven {head seen : Nat} (h : Mine N { head, seen } v)
    (hf : ∀ v' q, Mine N (found head q) v' → (∃ m ∈ v'.moments, m.counter .taken = head ∧
        m.counter .given = head + q.length) →
      Runs N .consumer post (f (head + q.length)) v') :
    Runs N .consumer post (load .given >>= fun given =>
      store .givenSeen given >>= fun _ => load .givenSeen >>= f) v := by
  refine run_load fun v₁ hv₁ => ?_
  have h₁ := h.goes hv₁
  obtain ⟨q, hq, hgrow⟩ := h₁.grow h₁.tail_le (Nat.le_refl _)
  have hgiven : v₁.now.counter .given = head + q.length := hq
  have hmoment : v₁.now ∈ (v₁.after v₁.now).moments := mem_cons_self
  rw [hgiven]
  refine run_store fun v₂ hv₂ => ?_
  have h₂ := hgrow.load.goes hv₂
  have htail := h₂.tail_le
  have hlen : Part.tail { head, seen, slots := [] ++ q.map some, queue := [] ++ q } =
      head + q.length := found_tail head q
  have hle : head ≤ head + q.length := Nat.le_add_right _ _
  have hle' : head + q.length ≤ v₂.now.counter .given := by
    rw [← hlen]
    exact htail
  refine ⟨⟨by rw [h₂.taken]; exact hle, hle', rfl⟩, ?_⟩
  have h₃ := h₂.storeSeen hle hle'
  refine run_load fun v₄ hv₄ => ?_
  have h₄ := h₃.goes hv₄
  rw [h₄.seen]
  refine hf _ q h₄.load ⟨v₁.now, ?_, h₁.taken, hgiven⟩
  have hm := hv₂.moments hmoment
  exact mem_cons_of_mem _ (hv₄.moments (mem_cons_of_mem _ hm))

theorem run_held {head seen : Nat} {f : Nat × Nat → Op T R} (h : Mine N { head, seen } v)
    (hf : ∀ v' q, Mine N (found head q) v' → Runs N .consumer post (f (head, head + q.length)) v') :
    Runs N .consumer post (held >>= f) v := by
  refine run_loadTaken h fun v₁ h₁ => ?_
  exact run_loadGiven h₁ fun v₂ q h₂ _ => hf v₂ q h₂

theorem run_elements {head seen : Nat} {f : Held → Op T R} (h : Mine N { head, seen } v)
    (hf : ∀ v' q, Mine N (found head q) v' →
      Runs N .consumer post (f { head, tail := head + q.length }) v') :
    Runs N .consumer post (elements >>= f) v := by
  unfold elements
  rw [Code.bind_assoc]
  exact run_held h fun v' q h' => hf v' q h'

end Rules

/-! ## Moves inside the part -/

theorem get_middle {α : Type} (l r : List α) (x : α) : (l ++ x :: r)[l.length]? = some x := by simp

theorem set_middle {α : Type} (l r : List α) (x y : α) :
    (l ++ x :: r).set l.length y = l ++ y :: r := by simp

theorem replicate_append_cons {α : Type} (n : Nat) (x : α) (l : List α) :
    List.replicate n x ++ x :: l = List.replicate (n + 1) x ++ l := by
  rw [replicate_succ', append_assoc]
  rfl

section Moves

variable {k : Part T} {v : View (Memory T)}

/-- The loop of `take_place`: the slots after the first `z` move up by one, over
    the slot `c`, and the first of them keeps what it had. -/
theorem moveUp_safe {n head : Nat} {z a rest : List (Option T)} {c : Option T}
    (h : Mine N k v) (hslots : k.slots = z ++ (a ++ c :: rest)) (hn : a.length = n)
    (hhead : head = k.head + z.length) :
    Runs N .consumer
      (fun _ v' => ∃ o, Mine N { k with slots := z ++ o :: (a ++ rest) } v')
      (Held.moveUp N head n) v := by
  induction n generalizing a c rest k v with
  | zero =>
    have ha : a = [] := length_eq_zero_iff.mp hn
    subst ha
    refine ⟨c, ?_⟩
    have hsame : z ++ c :: ([] ++ rest) = k.slots := hslots.symm
    rw [hsame]
    exact h
  | succ n ih =>
    rcases eq_nil_or_concat a with rfl | ⟨a, y, rfl⟩
    · cases hn
    · rw [concat_eq_append] at hslots hn ⊢
      have hlen : a.length = n := by
        rw [length_append] at hn
        exact Nat.succ.inj hn
      subst hhead
      have hpos : k.head + z.length + n = k.head + (z ++ a).length := by
        rw [length_append, hlen, Nat.add_assoc]
      have hpos' : k.head + z.length + n + 1 = k.head + (z ++ a ++ [y]).length := by
        simp only [length_append, length_singleton, hlen]
        omega
      have hy : k.slots = z ++ a ++ y :: c :: rest := by
        rw [hslots]
        simp
      have hc : k.slots = z ++ a ++ [y] ++ c :: rest := by
        rw [hslots]
        simp
      unfold Held.moveUp
      rw [hpos']
      rw [hpos]
      refine run_part h (by rw [hy]; exact get_middle _ _ _) fun v₁ h₁ => ?_
      refine run_fill h₁ (by rw [hc]; simp) fun v₂ h₂ => ?_
      rw [hc, set_middle] at h₂
      -- What moved is above the slots that are left, and its slot is free.
      have hslots₂ : z ++ a ++ [y] ++ y :: rest = z ++ (a ++ y :: (y :: rest)) := by simp
      have hnext := ih h₂ hslots₂ hlen rfl
      refine hnext.mono fun _ v' hv' => ?_
      obtain ⟨o, ho⟩ := hv'
      refine ⟨o, ?_⟩
      have hsame : a ++ [y] ++ rest = a ++ y :: rest := by simp
      rw [hsame]
      exact ho

theorem checkPlace_bind {v : Held} {place : Nat} (h₁ : v.head ≤ place)
    (h₂ : place < v.tail) (f : Unit → Op T R) : v.checkPlace place >>= f = f () := by
  unfold Held.checkPlace
  rw [if_neg (by omega)]
  rfl

theorem nextPlace_bind {v : Held} {place : Nat} (h₁ : v.head ≤ place)
    (h₂ : place < v.tail) (f : Option Nat → Op T R) :
    v.nextPlace place >>= f =
      f (if place + 1 ≥ v.tail then none else some (place + 1)) := by
  unfold Held.nextPlace
  rw [Code.bind_assoc, checkPlace_bind h₁ h₂]
  rfl

/-- A call that took elements out: `j` slots are free at the head of its part, and
    its view `w` begins behind them. -/
structure Taking (N : Nat) (k : Part T) (j : Nat) (w : Held) (v : View (Memory T)) :
    Prop extends Mine N k v where
  slots_eq : k.slots = List.replicate j none ++ k.queue.map some
  head : w.head = k.head + j
  tail : w.tail = k.tail

theorem Taking.tail_eq {j : Nat} {w : Held} (h : Taking N k j w v) :
    w.tail = w.head + k.queue.length := by
  rw [h.tail, h.head]
  show k.head + k.slots.length = _
  rw [h.slots_eq, length_append, length_replicate, length_map, Nat.add_assoc]

theorem taking_start {head : Nat} {q : List T} (h : Mine N (found head q) v) :
    Taking N (found head q) 0 { head, tail := head + q.length } v :=
  ⟨h, rfl, rfl, (found_tail head q).symm⟩

/-- `take_place` moves the element out, closes the gap and frees the slot at the head. -/
theorem takePlace_safe {j : Nat} {w : Held} {a b : List T} {x : T} {place : Nat}
    (h : Taking N k j w v) (hq : k.queue = a ++ x :: b)
    (hplace : place = w.head + a.length) :
    Runs N .consumer (fun r v' => r.1 = some x ∧
        r.2.1 = (if place + 1 ≥ w.tail then none else some (place + 1)) ∧
        r.2.2 = { w with head := w.head + 1 } ∧
        Mine N { k with
          slots := List.replicate (j + 1) none ++ (a ++ b).map some } v')
      (w.takePlace N place) v := by
  have htail := h.tail_eq
  rw [hq, length_append, length_cons] at htail
  have hslots : k.slots =
      List.replicate j none ++ (a.map some ++ some x :: b.map some) := by
    rw [h.slots_eq, hq, map_append, map_cons]
  have hat : place = k.head + (List.replicate j (none : Option T) ++ a.map some).length := by
    rw [hplace, h.head, length_append, length_replicate, length_map, Nat.add_assoc]
  unfold Held.takePlace
  rw [checkPlace_bind (by omega) (by omega)]
  rw [hat]
  refine run_part h.toMine (by rw [hslots, ← append_assoc]; exact get_middle _ _ _) fun v₁ h₁ => ?_
  rw [← hat, nextPlace_bind (by omega) (by omega)]
  have hcount : (a.map some).length = place - w.head := by
    rw [length_map]
    omega
  have hhead : w.head = k.head + (List.replicate j (none : Option T)).length := by
    rw [length_replicate]
    exact h.head
  have hmoves := moveUp_safe h₁ hslots hcount hhead
  refine Code.Safe.bind (fun _ v₂ h₂ => ?_) hmoves
  obtain ⟨o, h₂⟩ := h₂
  rw [hhead]
  refine run_fill h₂ (by simp) fun v₃ h₃ => ?_
  rw [set_middle, replicate_append_cons, ← map_append] at h₃
  exact ⟨rfl, rfl, rfl, h₃⟩

end Moves

/-! ## The walks -/

section Walks

variable {head : Nat} {q : List T} {v : View (Memory T)} {post : R → View (Memory T) → Prop}

theorem found_get {p : Nat} (h₁ : head ≤ p) (h₂ : p < head + q.length) :
    ∃ a x b, q = a ++ x :: b ∧ p = head + a.length ∧
      (found head q).slots[p - head]? = some (some x) := by
  have hlt : p - head < q.length := by omega
  refine ⟨q.take (p - head), q[p - head], q.drop (p - head + 1), ?_, ?_, ?_⟩
  · rw [getElem_cons_drop hlt, take_append_drop]
  · rw [length_take]
    omega
  · show (q.map some)[p - head]? = _
    rw [getElem?_map, getElem?_eq_getElem hlt]
    rfl

theorem run_accepts {place : Nat} {test : Nat → T → Bool} {f : Bool → Op T R}
    (h : Mine N (found head q) v) (h₁ : head ≤ place) (h₂ : place < head + q.length)
    (hf : ∀ yes v', Mine N (found head q) v' → Runs N .consumer post (f yes) v') :
    Runs N .consumer post
      (Held.accepts N { head, tail := head + q.length } test place >>= f) v := by
  obtain ⟨a, x, b, -, -, hget⟩ := found_get h₁ h₂
  unfold Held.accepts
  rw [Code.bind_assoc, checkPlace_bind h₁ h₂, Code.bind_assoc]
  have hplace : place = head + (place - head) := by omega
  rw [hplace]
  exact run_part h hget fun v' h' => hf _ v' h'

/-- A place of a walk over the view: none, or a position of the part. -/
def Walks (head : Nat) (q : List T) (fuel : Nat) : Option Nat → Prop
  | none => 1 ≤ fuel
  | some p => head ≤ p ∧ p < head + q.length ∧ head + q.length - p + 1 ≤ fuel

theorem walks_next {fuel p : Nat} (h : Walks head q (fuel + 1) (some p)) :
    Walks head q fuel (if p + 1 ≥ head + q.length then none else some (p + 1)) := by
  obtain ⟨h₁, h₂, h₃⟩ := h
  split
  · show 1 ≤ fuel
    omega
  · exact ⟨by omega, by omega, by omega⟩

theorem walks_first : Walks head q (Held.fuel { head, tail := head + q.length })
    (Held.firstPlace { head, tail := head + q.length }) := by
  unfold Held.fuel Held.firstPlace
  split
  · exact Nat.le_add_left _ _
  · rename_i hne
    have hne : head ≠ head + q.length := hne
    have hlt : head < head + q.length := by omega
    exact ⟨Nat.le_refl _, hlt, Nat.le_refl _⟩

/-- `first_match` changes nothing and gives a position of the part. -/
theorem firstMatch_safe (test : Nat → T → Bool) {fuel : Nat} {place : Option Nat}
    (h : Mine N (found head q) v) (hw : Walks head q fuel place) :
    Runs N .consumer (fun r v' => Mine N (found head q) v' ∧
        ∀ p, r = some p → head ≤ p ∧ p < head + q.length)
      (Held.firstMatch N { head, tail := head + q.length } test fuel place) v := by
  induction fuel generalizing place v with
  | zero =>
    cases place with
    | none => exact absurd hw (by simp [Walks])
    | some p => exact absurd hw.2.2 (by omega)
  | succ fuel ih =>
    cases place with
    | none => exact ⟨h, fun p hp => nomatch hp⟩
    | some p =>
      refine run_accepts h hw.1 hw.2.1 fun yes v₁ h₁ => ?_
      cases yes with
      | true =>
        refine ⟨h₁, fun p' hp => ?_⟩
        cases Option.some.inj hp
        exact ⟨hw.1, hw.2.1⟩
      | false =>
        rw [if_neg Bool.false_ne_true, nextPlace_bind hw.1 hw.2.1]
        exact ih h₁ (walks_next hw)

/-- `one_match` changes nothing, and one match is a position of the part. -/
theorem oneMatch_safe (test : Nat → T → Bool) {fuel n : Nat} {place match_ : Option Nat}
    (h : Mine N (found head q) v) (hw : Walks head q fuel place)
    (hn : 0 < n → ∃ p, match_ = some p ∧ head ≤ p ∧ p < head + q.length) :
    Runs N .consumer (fun r v' => Mine N (found head q) v' ∧
        (0 < r.2 → ∃ p, r.1 = some p ∧ head ≤ p ∧ p < head + q.length))
      (Held.oneMatch N { head, tail := head + q.length } test fuel place match_ n) v := by
  induction fuel generalizing place match_ n v with
  | zero =>
    cases place with
    | none => exact absurd hw (by simp [Walks])
    | some p => exact absurd hw.2.2 (by omega)
  | succ fuel ih =>
    cases place with
    | none => exact ⟨h, hn⟩
    | some p =>
      refine run_accepts h hw.1 hw.2.1 fun yes v₁ h₁ => ?_
      rw [nextPlace_bind hw.1 hw.2.1]
      cases yes with
      | true =>
        refine ih h₁ (walks_next hw) fun _ => ?_
        split
        · exact ⟨p, rfl, hw.1, hw.2.1⟩
        · exact hn (by omega)
      | false => exact ih h₁ (walks_next hw) hn

theorem copies_safe {n i : Nat} (h : Mine N (found head q) v) (hn : i + n = q.length) :
    Runs N .consumer (fun xs v' => Mine N (found head q) v' ∧ xs = (q.drop i).map some)
      (copies N n (head + i)) v := by
  induction n generalizing i v with
  | zero =>
    refine ⟨h, ?_⟩
    rw [drop_eq_nil_of_le (by omega)]
    rfl
  | succ n ih =>
    have hlt : i < q.length := by omega
    have hget : (found head q).slots[i]? = some (some q[i]) := by
      show (q.map some)[i]? = _
      rw [getElem?_map, getElem?_eq_getElem hlt]
      rfl
    refine run_part h hget fun v₁ h₁ => ?_
    refine Code.Safe.bind (fun xs v₂ h₂ => ?_) (ih (i := i + 1) h₁ (by omega))
    obtain ⟨h₂, rfl⟩ := h₂
    refine ⟨h₂, ?_⟩
    rw [← getElem_cons_drop hlt]
    rfl

end Walks

/-! ## The loops that remove -/

section Removals

variable {k : Part T} {v : View (Memory T)}

/-- The pass of `remove_all`: `m` slots between the elements it has not reached,
    `a`, and those that stay, `b`, are free. -/
theorem keepOthers_safe (test : Nat → T → Bool) {n m : Nat} {a b : List T}
    (h : Mine N k v) (hn : a.length = n)
    (hslots : k.slots = a.map some ++ (List.replicate m none ++ b.map some))
    (hq : k.queue = a ++ b) :
    Runs N .consumer (fun keep v' => ∃ j q gone, keep = k.head + j ∧ j = m + gone.length ∧
        j + q.length = m + n + b.length ∧
        Mine N { k with slots := List.replicate j none ++ q.map some, queue := q
                        removed := k.removed ++ gone } v')
      (Held.keepOthers N k.head test n (k.head + n + m)) v := by
  induction n generalizing a b m k v with
  | zero =>
    have ha : a = [] := length_eq_zero_iff.mp hn
    subst ha
    refine ⟨m, b, [], rfl, rfl, rfl, ?_⟩
    have hs : List.replicate m none ++ b.map some = k.slots := hslots.symm
    have hb : b = k.queue := hq.symm
    rw [hs, hb, append_nil]
    exact h
  | succ n ih =>
    rcases eq_nil_or_concat a with rfl | ⟨a, x, rfl⟩
    · cases hn
    · rw [concat_eq_append] at hslots hn hq
      have hlen : a.length = n := by
        rw [length_append] at hn
        exact Nat.succ.inj hn
      subst hlen
      have hmap : (a.map some).length = a.length := length_map _
      have hslots : k.slots =
          a.map some ++ some x :: (List.replicate m none ++ b.map some) := by
        rw [hslots]
        simp
      have hget : k.slots[a.length]? = some (some x) := by
        rw [hslots, ← hmap]
        exact get_middle _ _ _
      have hlt : a.length < k.slots.length := (List.getElem?_eq_some_iff.mp hget).1
      unfold Held.keepOthers
      refine run_part h hget fun v₁ h₁ => ?_
      cases hyes : (some x).any (test (k.head + a.length)) with
      | true =>
        -- the element goes, and its slot joins the free ones
        rw [if_pos rfl]
        refine run_part h₁ hget fun v₂ h₂ => ?_
        have hq' : k.queue = a ++ x :: b := by
          rw [hq]
          simp
        refine run_tearDown h₂ hq' fun v₃ h₃ => ?_
        refine run_fill h₃ hlt fun v₄ h₄ => ?_
        have hfree : k.slots.set a.length none =
            a.map some ++ (List.replicate (m + 1) none ++ b.map some) := by
          rw [hslots, ← hmap, set_middle]
          rfl
        have hkeep : k.head + (a.length + 1) + m = k.head + a.length + (m + 1) := by
          omega
        rw [hkeep]
        refine (ih h₄ rfl hfree rfl).mono fun keep v₅ h₅ => ?_
        obtain ⟨j, q, gone, hj, hm, hall, h₅⟩ := h₅
        refine ⟨j, q, x :: gone, hj, by rw [hm, length_cons]; omega, by omega, ?_⟩
        have hgone : k.removed ++ x :: gone = k.removed ++ [x] ++ gone := by simp
        rw [hgone]
        exact h₅
      | false =>
        rw [if_neg Bool.false_ne_true]
        have hkeep : k.head + (a.length + 1) + m - 1 = k.head + a.length + m := by
          omega
        have hq' : k.queue = a ++ (x :: b) := by
          rw [hq]
          simp
        rw [hkeep]
        cases m with
        | zero =>
          -- no slot is free above the element
          rw [if_neg (by simp)]
          have hnext := ih (b := x :: b) (m := 0) h₁ rfl hslots hq'
          refine hnext.mono fun keep v₂ h₂ => ?_
          obtain ⟨j, q, gone, hj, hm, hall, h₂⟩ := h₂
          rw [length_cons] at hall
          exact ⟨j, q, gone, hj, hm, by omega, h₂⟩
        | succ m =>
          rw [if_pos (by omega)]
          refine run_part h₁ hget fun v₂ h₂ => ?_
          have hlast : k.slots =
              (a.map some ++ some x :: List.replicate m none) ++ none :: b.map some := by
            rw [hslots, replicate_succ']
            simp
          have hlen : (a.map some ++ some x :: List.replicate m none).length =
              a.length + (m + 1) := by
            simp
          have hmoved : k.slots.set (a.length + (m + 1)) (some x) =
              a.map some ++ some x :: (List.replicate m none ++ some x :: b.map some) := by
            rw [hlast, ← hlen, set_middle, append_assoc]
            rfl
          rw [Nat.add_assoc k.head a.length (m + 1)]
          refine run_fill h₂ (by rw [hlast, length_append, hlen]; simp) fun v₃ h₃ => ?_
          rw [hmoved] at h₃
          refine run_fill h₃ (by simp) fun v₄ h₄ => ?_
          have hfree : (a.map some ++ some x ::
                (List.replicate m none ++ some x :: b.map some)).set a.length none =
              a.map some ++ (List.replicate (m + 1) none ++ (x :: b).map some) := by
            rw [← hmap, set_middle, ← cons_append, ← replicate_succ]
            rfl
          rw [← Nat.add_assoc k.head a.length (m + 1)]
          refine (ih h₄ rfl hfree hq').mono fun keep v₅ h₅ => ?_
          obtain ⟨j, q, gone, hj, hm, hall, h₅⟩ := h₅
          rw [length_cons] at hall
          exact ⟨j, q, gone, hj, hm, by omega, h₅⟩

/-- The loop of `clear` takes the elements off one by one, the oldest first. -/
theorem clearFrom_safe {fuel j : Nat} {w : Held} {place : Option Nat}
    (h : Taking N k j w v) (hfuel : k.queue.length + 1 ≤ fuel)
    (hplace : place = if k.queue = [] then none else some w.head) :
    Runs N .consumer (fun w' v' => ∃ gone, w'.head = w.head + k.queue.length ∧
        Mine N { k with slots := List.replicate (j + k.queue.length) none, queue := []
                        removed := k.removed ++ gone } v')
      (Held.clearFrom N fuel place w) v := by
  induction fuel generalizing j k w place v with
  | zero => exact absurd hfuel (by omega)
  | succ fuel ih =>
    cases hq : k.queue with
    | nil =>
      rw [hq, if_pos rfl] at hplace
      subst hplace
      have hslots : List.replicate (j + ([] : List T).length) none = k.slots := by
        rw [h.slots_eq, hq]
        exact (append_nil _).symm
      refine ⟨[], rfl, ?_⟩
      rw [hslots, append_nil, ← hq]
      exact h.toMine
    | cons x b =>
      rw [hq, if_neg (cons_ne_nil x b)] at hplace
      subst hplace
      rw [hq, length_cons] at hfuel
      have htail := h.tail_eq
      rw [hq, length_cons] at htail
      unfold Held.clearFrom
      have htake := takePlace_safe (a := []) h hq (Nat.add_zero _).symm
      refine Code.Safe.bind (fun r v₁ h₁ => ?_) htake
      obtain ⟨got, next, w'⟩ := r
      obtain ⟨rfl, rfl, rfl, h₁⟩ := h₁
      refine run_tearDown (a := []) h₁ hq fun v₂ h₂ => ?_
      have htaking : Taking N
          { k with slots := List.replicate (j + 1) none ++ b.map some, queue := b
                   removed := k.removed ++ [x] } (j + 1)
          { w with head := w.head + 1 } v₂ := by
        refine ⟨h₂, rfl, ?_, ?_⟩
        · show w.head + 1 = k.head + (j + 1)
          rw [h.head, Nat.add_assoc]
        · show w.tail = k.head + (List.replicate (j + 1) none ++ b.map some).length
          rw [length_append, length_replicate, length_map, htail, h.head]
          omega
      have hnext : (if w.head + 1 ≥ w.tail then none else some (w.head + 1)) =
          if b = [] then none else some (w.head + 1) := by
        cases b with
        | nil =>
          have hge : w.head + 1 ≥ w.tail := Nat.le_of_eq htail
          rw [if_pos hge, if_pos rfl]
        | cons y b =>
          rw [length_cons] at htail
          rw [if_neg (by omega), if_neg (cons_ne_nil y b)]
      refine (ih htaking (Nat.le_of_succ_le_succ hfuel) hnext).mono fun w' v₃ h₃ => ?_
      obtain ⟨gone, hhead, h₃⟩ := h₃
      refine ⟨x :: gone, ?_, ?_⟩
      · rw [hhead, length_cons]
        show w.head + 1 + b.length = _
        omega
      · have hlen : j + (x :: b).length = j + 1 + b.length := by
          rw [length_cons]
          omega
        have hgone : k.removed ++ x :: gone = k.removed ++ [x] ++ gone := by simp
        rw [hlen, hgone]
        exact h₃

end Removals

/-! ## The calls -/

/-- What a call of the consumer added to the history. -/
def Took (v : View (Memory T)) (popped removed : List T) : Prop :=
  v.now.popped = v.began.popped ++ popped ∧ v.now.removed = v.began.removed ++ removed

/-- The ring held nothing at a moment of the call. -/
def WasEmpty (v : View (Memory T)) : Prop := ∃ m ∈ v.moments, m.counter .given = m.counter .taken

/-- What the answer of a call of the consumer says. -/
def consumerAnswer : ConsumerCall T → Answer T → View (Memory T) → Prop
  | .pop, .element (some x), v => Took v [x] []
  | .pop, .absent, v => Took v [] [] ∧ WasEmpty v
  | .peek, .element (some _), v | .peek, .absent, v => Took v [] []
  | .removeFirst _, .element (some x), v => Took v [] [x]
  | .removeFirst _, .absent, v => Took v [] []
  | .removeOne _, .element (some x), v => Took v [] [x]
  | .removeOne _, .notOne n, v => Took v [] [] ∧ n ≠ 1
  | .removeAll _, .number n, v => ∃ gone, Took v [] gone ∧ gone.length = n
  | .clear, .finished, v => ∃ gone, Took v [] gone
  | .iter, .elements xs, v => Took v [] [] ∧ ∃ q : List T, xs = q.map some
  | _, _, _ => False

def consumerPost (N : Nat) (c : ConsumerCall T) (r : Answer T) (v : View (Memory T)) :
    Prop :=
  Consuming N v.now ∧ consumerAnswer c r v

section Calls

variable {k : Part T} {head seen : Nat} {v : View (Memory T)} {post : R → View (Memory T) → Prop}

theorem Mine.took (h : Mine N k v) (hslots : k.slots = k.queue.map some) :
    Consuming N v.now ∧ Took v k.popped k.removed :=
  ⟨h.consuming hslots, h.popped, h.removed⟩

theorem run_publish {j : Nat} {q : List T} {note : Note T} {f : Unit → Op T R}
    (h : Mine N k v) (hslots : k.slots = List.replicate j none ++ q.map some)
    (hseen : k.head + j ≤ k.seen) (hnote : note.accepted = [])
    (hkept : ∀ popped r removed accepted, Kept popped (k.queue ++ r) removed accepted →
        Kept (popped ++ note.popped) (q ++ r) (removed ++ note.removed) accepted)
    (hf : ∀ v', Consuming N v'.now → Took v' (k.popped ++ note.popped) (k.removed ++ note.removed) →
      Runs N .consumer post (f ()) v') :
    Runs N .consumer post (store .taken (k.head + j) note >>= f) v := by
  refine run_store fun v₁ hv₁ => ?_
  obtain ⟨hmay, h'⟩ := (h.goes hv₁).publish hslots hseen hnote hkept
  exact ⟨hmay, hf _ (h'.took rfl).1 (h'.took rfl).2⟩

theorem take_safe {x : T} {b : List T} (h : Mine N (found head (x :: b)) v) :
    Runs N .consumer (consumerPost N .pop) (do
        let got ← take N head
        store .taken (head + 1) { popped := got.toList }
        return .element got) v := by
  have hget : (found head (x :: b)).slots[0]? = some (some x) := rfl
  refine run_part h hget fun v₁ h₁ => ?_
  have hlt : 0 < (found head (x :: b)).slots.length := Nat.succ_pos _
  refine run_fill h₁ hlt fun v₂ h₂ => ?_
  refine run_publish (j := 1) (q := b) h₂ rfl ?_ rfl ?_ fun v₃ hc h₃ => ⟨hc, h₃⟩
  · show head + 1 ≤ head + (x :: b).length
    rw [length_cons]
    omega
  · intro popped r removed accepted hk
    rw [append_nil]
    exact hk.pop

theorem pop_safe (h : Mine N { head, seen } v) :
    Runs N .consumer (consumerPost N .pop) (pop N) v := by
  refine run_loadTaken h fun v₁ h₁ => ?_
  refine run_loadSeen h₁ fun v₂ h₂ => ?_
  by_cases hseen : head = seen
  · rw [if_pos hseen]
    refine run_loadGiven h₂ fun v₃ q h₃ hmoment => ?_
    obtain ⟨m, hm, htaken, hgiven⟩ := hmoment
    cases q with
    | nil =>
      have hsame : head = head + ([] : List T).length := rfl
      rw [decide_eq_true hsame]
      refine (show consumerPost N .pop .absent v₃ from
        ⟨(h₃.took rfl).1, (h₃.took rfl).2, m, hm, ?_⟩)
      rw [hgiven, htaken]
      rfl
    | cons x b =>
      have hne : ¬ head = head + (x :: b).length := by
        rw [length_cons]
        omega
      rw [decide_eq_false hne]
      exact take_safe h₃
  · rw [if_neg hseen, Code.pure_bind]
    -- The copy says there is an element, and it is never ahead.
    have hle := h₂.counters.givenSeen_le
    have hle' := h₂.counters.taken_seen
    rw [h₂.seen] at hle hle'
    rw [h₂.taken] at hle'
    obtain ⟨q, hq, h₃⟩ := h₂.grow (show Part.tail { head, seen : Part T } ≤ seen from hle') hle
    have hq : seen = head + q.length := hq
    subst hq
    cases q with
    | nil => exact absurd rfl hseen
    | cons x b => exact take_safe h₃

theorem peek_safe (h : Mine N { head, seen } v) :
    Runs N .consumer (consumerPost N .peek) (peek N) v := by
  refine run_held h fun v₁ q h₁ => ?_
  cases q with
  | nil =>
    have hsame : head = head + ([] : List T).length := rfl
    show Runs N .consumer _ (if head = head + ([] : List T).length then _ else _) _
    rw [if_pos hsame]
    exact h₁.took rfl
  | cons x b =>
    have hne : ¬ head = head + (x :: b).length := by
      rw [length_cons]
      omega
    have hget : (found head (x :: b)).slots[0]? = some (some x) := rfl
    show Runs N .consumer _ (if head = head + (x :: b).length then _ else _) _
    rw [if_neg hne]
    exact run_part h₁ hget fun v₂ h₂ => h₂.took rfl

theorem iter_safe (h : Mine N { head, seen } v) :
    Runs N .consumer (consumerPost N .iter) (iter N) v := by
  refine run_held h fun v₁ q h₁ => ?_
  have hlen : head + q.length - head = q.length := Nat.add_sub_cancel_left _ _
  show Runs N .consumer _ (copies N (head + q.length - head) head >>= _) _
  rw [hlen]
  refine Code.Safe.bind (fun xs v₂ h₂ => ?_) (copies_safe (i := 0) h₁ (Nat.zero_add _))
  exact ⟨(h₂.1.took rfl).1, (h₂.1.took rfl).2, q, h₂.2⟩

theorem removeAll_ends (test : Nat → T → Bool) {j : Nat} {q : List T} (h : Mine N k v)
    (hslots : k.slots = List.replicate j none ++ q.map some) (hq : k.queue = q)
    (hseen : k.head + j ≤ k.seen) (hpopped : k.popped = [])
    (hj : k.removed.length = j) :
    Runs N .consumer (consumerPost N (.removeAll test)) (do
        store .taken (k.head + j)
        return .number (k.head + j - k.head)) v := by
  refine run_publish h hslots hseen rfl ?_ fun v' hc h' => ⟨hc, k.removed, ?_, ?_⟩
  · intro popped r removed accepted hk
    rw [append_nil, append_nil, ← hq]
    exact hk
  · rw [append_nil, append_nil, hpopped] at h'
    exact h'
  · rw [hj, Nat.add_sub_cancel_left]

variable {test : Nat → T → Bool}

theorem removeAll_safe (h : Mine N { head, seen } v) :
    Runs N .consumer (consumerPost N (.removeAll test)) (removeAll N test) v := by
  refine run_elements h fun v₁ q h₁ => ?_
  have hlen : head + q.length - head = q.length := Nat.add_sub_cancel_left _ _
  show Runs N .consumer _
    (Held.keepOthers N head test (head + q.length - head) (head + q.length) >>= _) _
  rw [hlen]
  have hslots : (found head q).slots =
      q.map some ++ (List.replicate 0 none ++ ([] : List T).map some) :=
    (append_nil _).symm
  have hq : (found head q).queue = q ++ [] := (append_nil q).symm
  have hpass := keepOthers_safe test (m := 0) h₁ rfl hslots hq
  refine Code.Safe.bind (fun keep v₂ h₂ => ?_) hpass
  obtain ⟨j, kept, gone, rfl, hj, hall, h₂⟩ := h₂
  have hseen : head + j ≤ head + q.length := by
    rw [length_nil] at hall
    omega
  have hgone : ([] ++ gone).length = j := by
    rw [nil_append, hj, Nat.zero_add]
  have hend := removeAll_ends test h₂ rfl rfl hseen rfl hgone
  exact hend

theorem clear_ends {n : Nat} (h : Mine N k v)
    (hslots : k.slots = List.replicate n none) (hq : k.queue = [])
    (hseen : k.head + n ≤ k.seen) (hpopped : k.popped = []) :
    Runs N .consumer (consumerPost N .clear) (do
        store .taken (k.head + n)
        return .finished) v := by
  refine run_publish (q := []) h (hslots.trans (append_nil _).symm) hseen rfl ?_
    fun v' hc h' => ⟨hc, k.removed, ?_⟩
  · intro popped r removed accepted hk
    rw [append_nil, append_nil]
    rw [hq] at hk
    exact hk
  · rw [append_nil, append_nil, hpopped] at h'
    exact h'

theorem clear_safe (h : Mine N { head, seen } v) :
    Runs N .consumer (consumerPost N .clear) (clear N) v := by
  refine run_elements h fun v₁ q h₁ => ?_
  have hfuel : q.length + 1 ≤ Held.fuel { head, tail := head + q.length } := by
    show q.length + 1 ≤ head + q.length - head + 1
    omega
  have hplace : Held.firstPlace { head, tail := head + q.length } =
      if q = [] then none else some head := by
    show (if head = head + q.length then none else some head) = _
    cases q with
    | nil =>
      have hsame : head = head + ([] : List T).length := rfl
      rw [if_pos hsame, if_pos rfl]
    | cons x b => rw [if_neg (by rw [length_cons]; omega), if_neg (cons_ne_nil x b)]
  have hloop := clearFrom_safe (taking_start h₁) hfuel hplace
  refine Code.Safe.bind (fun w v₂ h₂ => ?_) hloop
  obtain ⟨gone, hhead, h₂⟩ := h₂
  have hlen : (0 : Nat) + q.length = q.length := Nat.zero_add _
  have hend := clear_ends h₂ (congrArg (List.replicate · none) hlen) rfl (Nat.le_refl _) rfl
  rw [hhead]
  exact hend

theorem taken_ends {w : Held} {a b : List T} {x : T} {c : ConsumerCall T}
    (h : Mine N k v) (hslots : k.slots = List.replicate 1 none ++ (a ++ b).map some)
    (hq : k.queue = a ++ x :: b) (hseen : k.head + 1 ≤ k.seen) (hpopped : k.popped = [])
    (hremoved : k.removed = []) (hw : w.head = k.head + 1)
    (hpost : ∀ v', Took v' [] [x] → consumerAnswer c (.element (some x)) v') :
    Runs N .consumer (consumerPost N c) (do
        store .taken w.head { removed := [x] }
        return .element (some x)) v := by
  rw [hw]
  refine run_publish h hslots hseen rfl ?_ fun v' hc h' => ⟨hc, hpost v' ?_⟩
  · intro popped r removed accepted hk
    rw [hq, append_assoc, cons_append] at hk
    rw [append_nil, append_assoc]
    exact hk.remove
  · rw [hpopped, hremoved] at h'
    exact h'

theorem takeMatch_safe {q : List T} {place : Nat} {c : ConsumerCall T}
    (h : Mine N (found head q) v) (h₁ : head ≤ place) (h₂ : place < head + q.length)
    (hpost : ∀ v' x, Took v' [] [x] → consumerAnswer c (.element (some x)) v') :
    Runs N .consumer (consumerPost N c) (do
        let (got, _, w) ←
          Held.takePlace N { head, tail := head + q.length } place
        store .taken w.head { removed := got.toList }
        return .element got) v := by
  obtain ⟨a, x, b, hq, hplace, -⟩ := found_get h₁ h₂
  have htake := takePlace_safe (taking_start h) hq hplace
  refine Code.Safe.bind (fun r v₁ hr => ?_) htake
  obtain ⟨got, next, w⟩ := r
  obtain ⟨rfl, -, rfl, h'⟩ := hr
  have hlen : head + 1 ≤ head + q.length := by
    omega
  have hend := taken_ends (w := { head := head + 1, tail := head + q.length }) h' rfl hq
    hlen rfl rfl rfl fun v' hv' => hpost v' x hv'
  exact hend

theorem removeFirst_safe (h : Mine N { head, seen } v) :
    Runs N .consumer (consumerPost N (.removeFirst test)) (removeFirst N test) v := by
  refine run_elements h fun v₁ q h₁ => ?_
  refine Code.Safe.bind (fun r v₂ h₂ => ?_) (firstMatch_safe test h₁ walks_first)
  obtain ⟨h₂, hr⟩ := h₂
  cases r with
  | none =>
    have hnote : ({} : Note T).accepted = [] := rfl
    have hkept : ∀ popped r removed accepted : List T, Kept popped (q ++ r) removed accepted →
          Kept (popped ++ []) (q ++ r) (removed ++ []) accepted := by
      intro popped r removed accepted hk
      rw [append_nil, append_nil]
      exact hk
    exact run_publish (j := 0) (q := q) h₂ rfl (Nat.le_add_right _ _) hnote
      hkept fun v₃ hc h₃ => ⟨hc, h₃⟩
  | some place =>
    obtain ⟨hp₁, hp₂⟩ := hr place rfl
    exact takeMatch_safe h₂ hp₁ hp₂ fun v' x hv' => hv'

theorem removeOne_safe (h : Mine N { head, seen } v) :
    Runs N .consumer (consumerPost N (.removeOne test)) (removeOne N test) v := by
  refine run_elements h fun v₁ q h₁ => ?_
  refine Code.Safe.bind (fun r v₂ h₂ => ?_)
    (oneMatch_safe test h₁ walks_first fun hn => absurd hn (Nat.lt_irrefl 0))
  obtain ⟨place, n⟩ := r
  obtain ⟨h₂, hr⟩ := h₂
  by_cases hn : n ≠ 1
  · show Runs N .consumer _ (if n ≠ 1 then _ else _) _
    rw [if_pos hn]
    exact ⟨(h₂.took rfl).1, (h₂.took rfl).2, hn⟩
  · show Runs N .consumer _ (if n ≠ 1 then _ else _) _
    rw [if_neg hn]
    obtain ⟨p, rfl, hp₁, hp₂⟩ := hr (show 0 < n by omega)
    exact takeMatch_safe h₂ hp₁ hp₂ fun v' x hv' => hv'

theorem consumer_safe {s : Memory T} (h : Consuming N s) (c : ConsumerCall T) :
    Runs N .consumer (consumerPost N c) (body N .consumer c) (View.start s) := by
  cases c with
  | pop => exact pop_safe h.start
  | peek => exact peek_safe h.start
  | removeFirst test => exact removeFirst_safe h.start
  | removeAll test => exact removeAll_safe h.start
  | removeOne test => exact removeOne_safe h.start
  | clear => exact clear_safe h.start
  | iter => exact iter_safe h.start

end Calls

end AnticRing
