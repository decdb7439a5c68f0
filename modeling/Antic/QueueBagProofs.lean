import Antic.PriorityQueueRuns

/-! # `PriorityQueue<T>` is a bag that gives a least element -/

namespace AnticCollection

open Indexed Interleaving PriorityQueue List

variable {T : Type} {lt : T → T → Bool} {t : Indexed T} {l : List T}

/-! ## The abstract bag -/

/-- `x` is an element of the bag that no element is smaller than. -/
def Least (lt : T → T → Bool) (m : Multiset T) (x : T) : Prop := x ∈ m ∧ ∀ y ∈ m, lt y x = false

/-- What a call does to a bag, and what it gives.  A place finds some element, and a
    form walks the elements in some order. -/
def BagStep (lt : T → T → Bool) (m : Multiset T) : QueueCall T × SeqAnswer T → Multiset T → Prop
  | (.push x, a), m' => a = .finished ∧ m' = x ::ₘ m
  | (.pop, a), m' =>
    (m = 0 ∧ a = .element none ∧ m' = 0) ∨
    ∃ x, Least lt m x ∧ a = .element (some x) ∧ m = x ::ₘ m'
  | (.peek, a), m' =>
    m' = m ∧ ((m = 0 ∧ a = .element none) ∨ ∃ x, Least lt m x ∧ a = .element (some x))
  | (.lendPlace _ f, a), m' => a = .finished ∧ ∃ x rest, m = x ::ₘ rest ∧ m' = f x ::ₘ rest
  | (.takePlace _, a), m' => ∃ x after, a = .taken (some x) after ∧ m = x ::ₘ m'
  | (.form f, a), m' => ∃ l : List T, m = l ∧ a = .form (f.run l).2 ∧ m' = (f.run l).1
  | (.reserve _, a), m' | (.shrink, a), m' | (.copy, a), m' => a = .finished ∧ m' = m

/-- The places of a call hold an element. -/
def QueueCall.valid (n : Nat) : QueueCall T → Prop
  | .lendPlace at_ _ | .takePlace at_ => 0 ≤ at_ ∧ at_ < n
  | _ => True

/-! ## Each call -/

section Calls

variable [order : IsStrictWeakOrder T fun a b => lt a b = true]

theorem least_first {x : T} (h : QueueOk lt t (x :: l)) : Least lt ↑(x :: l) x :=
  ⟨mem_cons_self, fun _ hy => first_min h hy⟩

omit order in
theorem queue_moved {t' : Indexed T} (h : QueueOk lt t l) (hok : t'.Ok l)
    (hspare : t'.spare = t.spare) (hring : t'.ring = t.ring) : QueueOk lt t' l := by
  have hflat := hring.trans h.flat
  refine ⟨hok, hflat, hspare.trans h.spare, ?_⟩
  have hsame : t'.slots = t.slots := funext fun j => by rw [laid hok hflat, laid h.ok h.flat]
  rw [hsame]
  exact h.heap

theorem cons_set_perm {i : Nat} (hi : i < l.length) (y : T) :
    (l[i] :: l.eraseIdx i).Perm l ∧ (l.set i y).Perm (y :: l.eraseIdx i) :=
  ⟨getElem_cons_eraseIdx_perm hi, set_perm_cons_eraseIdx hi y⟩

/-- **Each call does to the bag what it does, and keeps the heap.** -/
theorem queueCall_ok (h : QueueOk lt t l) (call : QueueCall T) (hvalid : call.valid l.length) :
    Yields (queueCall lt t call) fun r =>
      ∃ l', QueueOk lt r.1 l' ∧ BagStep lt ↑l (call, r.2) ↑l' := by
  cases call with
  | push x =>
    refine (push_ok h x).bind fun t' ht' => .pure ?_
    obtain ⟨l', hok, hperm⟩ := ht'
    exact ⟨l', hok, rfl, Multiset.coe_eq_coe.2 hperm⟩
  | pop =>
    obtain ⟨t', l', hpop, hok, hperm⟩ := pop_ok h
    refine .inl ⟨(t', .element l.head?), by rw [queueCall, hpop]; rfl, l', hok, ?_⟩
    cases l with
    | nil => exact .inl ⟨rfl, rfl, Multiset.coe_eq_coe.2 hperm⟩
    | cons x l => exact .inr ⟨x, least_first h, rfl, Multiset.coe_eq_coe.2 (hperm.symm.cons x)⟩
  | peek =>
    refine .inl ⟨(t, .element l.head?), by rw [queueCall, peek_ok h]; rfl, l, h, rfl, ?_⟩
    cases l with
    | nil => exact .inl ⟨rfl, rfl⟩
    | cons x l => exact .inr ⟨x, least_first h, rfl⟩
  | lendPlace at_ f =>
    have hi : at_.toNat < l.length := by
      obtain ⟨hpos, hlt⟩ := hvalid
      omega
    obtain ⟨t', l', hlend, hok, hperm⟩ := lendPlace_ok h hi f
    rw [Int.toNat_of_nonneg hvalid.1] at hlend
    obtain ⟨hold, hnew⟩ := cons_set_perm hi (f l[at_.toNat])
    exact .inl ⟨(t', .finished), by rw [queueCall, hlend]; rfl, l', hok, rfl,
      l[at_.toNat], ↑(l.eraseIdx at_.toNat), Multiset.coe_eq_coe.2 hold.symm, Multiset.coe_eq_coe.2 (hperm.trans hnew)⟩
  | takePlace at_ =>
    have hi : at_.toNat < l.length := by
      obtain ⟨hpos, hlt⟩ := hvalid
      omega
    obtain ⟨t', l', htake, hok, hperm⟩ := takePlace_ok h hi
    rw [Int.toNat_of_nonneg hvalid.1] at htake
    have hold := (hperm.cons l[at_.toNat]).trans (getElem_cons_eraseIdx_perm hi)
    exact .inl ⟨(_, .taken (some l[at_.toNat]) _), by rw [queueCall, htake]; rfl, l', hok, _, _,
      rfl, Multiset.coe_eq_coe.2 hold.symm⟩
  | form f =>
    obtain ⟨t', hform, l', hok, hperm⟩ := form_ok h f
    exact .inl ⟨(t', .form (f.run l).2), by rw [queueCall, hform]; rfl, l', hok, l, rfl, rfl,
      Multiset.coe_eq_coe.2 hperm⟩
  | reserve n =>
    refine (h.ok.reserveRoom n).bind fun t' ht' => .pure ?_
    exact ⟨l, queue_moved h ht'.1 ht'.2.1 ht'.2.2, rfl, rfl⟩
  | shrink =>
    refine h.ok.shrinkRoom.bind fun t' ht' => .pure ?_
    exact ⟨l, queue_moved h ht'.1 ht'.2.1 ht'.2.2, rfl, rfl⟩
  | copy =>
    refine (h.ok.copyInto (Nat.le_refl _)).bind fun t' ht' => .pure ?_
    exact ⟨l, queue_moved h ht'.ok ht'.spare ht'.ring, rfl, rfl⟩

omit order in
theorem queueCall_error (h : QueueOk lt t l) (call : QueueCall T)
    (hvalid : ¬ call.valid l.length) : queueCall lt t call = .error .noElement := by
  cases call with
  | lendPlace at_ f =>
    rw [queueCall, PriorityQueue.lendPlace, checkPlace_error (by rw [h.ok.count]; exact hvalid)]
    rfl
  | takePlace at_ =>
    rw [queueCall, PriorityQueue.takePlace, checkPlace_error (by rw [h.ok.count]; exact hvalid)]
    rfl
  | push | pop | peek | form | reserve | shrink | copy => exact absurd trivial hvalid

end Calls

/-! ## Runs -/

theorem queueNew_ok {elementSize : Nat} {capacity : Int}
    (hnew : PriorityQueue.new elementSize capacity = .ok t) : QueueOk lt t [] := by
  have hempty : ({ elementSize := elementSize, spare := 1 } : Indexed T).Ok [] :=
    .of_flat rfl (Nat.le_refl 0) rfl (Nat.zero_le _) (fun h => absurd h (Nat.lt_irrefl 0))
      fun _ => rfl
  have hnew : (if capacity > 0 then _ else _) = Except.ok t := hnew
  split at hnew
  · have hm := (hempty.resize (Nat.zero_le _)).of_ok hnew
    exact ⟨hm.ok, hm.ring, hm.spare, fun i _ hi => absurd hi (Nat.not_lt_zero i)⟩
  · cases hnew
    exact ⟨hempty, rfl, rfl, fun i _ hi => absurd hi (Nat.not_lt_zero i)⟩

/-- The array of a queue: the elements `l` in the order of a heap, and zero slots
    from there on, the spare slot past the capacity among them. -/
structure Queue (lt : T → T → Bool) (t : Indexed T) (l : List T) : Prop where
  count : t.count = l.length
  count_le : t.count ≤ t.capacity
  spare : t.spare = 1
  elements : ∀ i (hi : i < l.length), t.slots i = some l[i]
  zero : ∀ p, t.count ≤ p → t.slots p = none
  order : ∀ i (hi : i < l.length) (hp : (i - 1) / 2 < l.length), 0 < i →
    lt l[i] l[(i - 1) / 2] = false
  walk : t.walk = l.map some

theorem queue_of_ok (h : QueueOk lt t l) : Queue lt t l where
  count := h.ok.count
  count_le := h.ok.count_le
  spare := h.spare
  elements i hi := by rw [laid h.ok h.flat, getElem?_eq_getElem hi]
  zero p hp := by rw [laid h.ok h.flat, getElem?_eq_none (h.ok.count ▸ hp)]
  order i hi hp hpos := by
    have hheap := h.heap i hpos hi (Nat.zero_le _)
    rw [BinaryHeap.parent, laid h.ok h.flat, laid h.ok h.flat, getElem?_eq_getElem hi,
      getElem?_eq_getElem hp] at hheap
    exact hheap
  walk := h.ok.walk

/-- **`PriorityQueue<T>` is a priority queue.**  After every run of calls the array is a heap of the
    elements that a bag holds after the same calls, which gave what they give of the bag: `pop` and
    `peek` an element that none is smaller than.  The next call returns or stops for want of memory
    where its place holds an element, and stops the program where it holds none. -/
theorem queues_are_bags (lt : T → T → Bool) [IsStrictWeakOrder T fun a b => lt a b = true]
    (elementSize : Nat) (capacity : Int) {t₀ t : Indexed T}
    {calls : List (QueueCall T × SeqAnswer T)}
    (hnew : PriorityQueue.new elementSize capacity = .ok t₀)
    (hrun : Runs (QueueStep lt) t₀ calls t) :
    ∃ l : List T, Runs (BagStep lt) 0 calls ↑l ∧ Queue lt t l ∧ ∀ call : QueueCall T,
        (call.valid l.length → Yields (queueCall lt t call) fun r =>
          ∃ l', Queue lt r.1 l' ∧ BagStep lt ↑l (call, r.2) ↑l') ∧
        (¬ call.valid l.length → queueCall lt t call = .error .noElement) := by
  have hreach : ∃ l : List T, Runs (BagStep lt) 0 calls ↑l ∧ QueueOk lt t l := by
    refine hrun.invariant
      (fun calls t => ∃ l : List T, Runs (BagStep lt) 0 calls ↑l ∧ QueueOk lt t l)
      ⟨[], .start, queueNew_ok hnew⟩ ?_
    rintro calls t ⟨call, a⟩ t' ⟨l, hl, hok⟩ hstep
    by_cases hvalid : call.valid l.length
    · obtain ⟨l', hok', hbag⟩ := (queueCall_ok hok call hvalid).of_ok hstep
      exact ⟨l', hl.snoc hbag, hok'⟩
    · exact absurd ((queueCall_error hok call hvalid).symm.trans hstep) nofun
  obtain ⟨l, hl, hok⟩ := hreach
  refine ⟨l, hl, queue_of_ok hok, fun call => ⟨fun hvalid => ?_, queueCall_error hok call⟩⟩
  exact (queueCall_ok hok call hvalid).mono fun r ⟨l', hok', hbag⟩ => ⟨l', queue_of_ok hok', hbag⟩

/-- `<` of the numbers. -/
def numberLt (a b : Nat) : Bool := decide (a < b)

instance : IsStrictWeakOrder Nat fun a b => numberLt a b = true where
  irrefl a h := Nat.lt_irrefl a (of_decide_eq_true h)
  trans _ _ _ h h' := decide_eq_true (Nat.lt_trans (of_decide_eq_true h) (of_decide_eq_true h'))
  incomp_trans a b c h h' := by
    unfold numberLt at *
    rw [decide_eq_true_eq, decide_eq_true_eq] at *
    omega

/-- The smaller of two elements comes first, whatever the order they are pushed in. -/
theorem queue_gives_least : ∃ t, Runs (QueueStep numberLt) { elementSize := 8, spare := 1 }
      [(.push 2, .finished), (.push 1, .finished), (.pop, .element (some 1))] t ∧
    ∃ l : List Nat, Runs (BagStep numberLt) 0
        [(.push 2, .finished), (.push 1, .finished), (.pop, .element (some 1))] ↑l ∧
      Queue numberLt t l ∧
      ∀ call : QueueCall Nat, (call.valid l.length → Yields (queueCall numberLt t call) fun r =>
          ∃ l', Queue numberLt r.1 l' ∧ BagStep numberLt ↑l (call, r.2) ↑l') ∧
        (¬ call.valid l.length → queueCall numberLt t call = .error .noElement) := by
  have hnew : PriorityQueue.new (T := Nat) 8 0 = .ok { elementSize := 8, spare := 1 } := rfl
  have h1 := Runs.snoc .start (show QueueStep numberLt { elementSize := 8, spare := 1 }
    (.push 2, .finished) _ from rfl)
  have h2 := Runs.snoc h1 (show QueueStep numberLt _ (.push 1, .finished) _ from rfl)
  have h3 := Runs.snoc h2 (show QueueStep numberLt _ (.pop, .element (some 1)) _ from by
    with_unfolding_all rfl)
  exact ⟨_, h3, queues_are_bags numberLt 8 0 hnew h3⟩

end AnticCollection
