import Mathlib.Logic.Equiv.Basic
import Mathlib.Logic.Relation
import Mathlib.Order.Defs.Unbundled
import Mathlib.Data.List.Basic

/-! # Binary heaps in an array

    The element at `i` stands above those at `2i + 1` and `2i + 2`.  An element that is out of order
    leaves a hole: `siftUp` and `siftDown` exchange it with its parent and with its smaller child
    until the order holds again.  The order is any strict weak order, given as a Boolean test. -/

namespace BinaryHeap

variable {α : Type*} (lt : α → α → Bool)

/-- The position above `i`. -/
def parent (i : Nat) : Nat := (i - 1) / 2

/-- The first `n` elements are in order, below the positions from `lo` on. -/
def HeapFrom (lo : Nat) (g : Nat → α) (n : Nat) : Prop :=
  ∀ i, 0 < i → i < n → lo ≤ parent i → lt (g i) (g (parent i)) = false

/-- The first `n` elements are a heap. -/
abbrev Heap (g : Nat → α) (n : Nat) : Prop := HeapFrom lt 0 g n

/-- Move the element at `i` up while it is smaller than its parent. -/
def siftUp (g : Nat → α) (i : Nat) : Nat → α :=
  if 0 < i ∧ lt (g i) (g (parent i)) = true then
    siftUp (g ∘ Equiv.swap i (parent i)) (parent i)
  else g
termination_by i
decreasing_by unfold parent; omega

/-- The smaller child of `i` among the first `n` elements. -/
def smaller (g : Nat → α) (n i : Nat) : Nat :=
  if 2 * i + 2 < n ∧ lt (g (2 * i + 2)) (g (2 * i + 1)) = true then 2 * i + 2 else 2 * i + 1

/-- Move the element at `i` down while a child of it is smaller. -/
def siftDown (g : Nat → α) (n i : Nat) : Nat → α :=
  if 2 * i + 1 < n ∧ lt (g (smaller lt g n i)) (g i) = true then
    siftDown (g ∘ Equiv.swap i (smaller lt g n i)) n (smaller lt g n i)
  else g
termination_by n - i
decreasing_by
  unfold smaller
  split <;> omega

/-- Order the positions below `i`, the last of them first. -/
def heapifyFrom (n : Nat) : Nat → (Nat → α) → Nat → α
  | 0, g => g
  | i + 1, g => heapifyFrom n i (siftDown lt g n i)

/-! ## Exchanges -/

/-- `h` is `g` after exchanges among the first `n` elements. -/
def Exchanged (n : Nat) : (Nat → α) → (Nat → α) → Prop :=
  Relation.ReflTransGen fun g h => ∃ a b, a < n ∧ b < n ∧ h = g ∘ Equiv.swap a b

theorem Exchanged.swap {n a b : Nat} (ha : a < n) (hb : b < n) (g : Nat → α) :
    Exchanged n g (g ∘ Equiv.swap a b) :=
  .single ⟨a, b, ha, hb, rfl⟩

theorem Exchanged.beyond {n : Nat} {g h : Nat → α} (hx : Exchanged n g h) {i : Nat}
    (hi : n ≤ i) : h i = g i := by
  induction hx with
  | refl => rfl
  | tail _ hstep ih =>
    obtain ⟨a, b, ha, hb, rfl⟩ := hstep
    rw [Function.comp_apply, Equiv.swap_apply_of_ne_of_ne (by omega) (by omega), ih]

/-- The elements after exchanges are the elements before, in another order. -/
theorem Exchanged.perm {n : Nat} {g h : Nat → Option α} {l : List α} (hx : Exchanged n g h)
    (hn : n ≤ l.length) (hl : ∀ i, g i = l[i]?) : ∃ l' : List α, l'.Perm l ∧ ∀ i, h i = l'[i]? := by
  induction hx with
  | refl => exact ⟨l, .refl l, hl⟩
  | tail _ hstep ih =>
    obtain ⟨a, b, ha, hb, rfl⟩ := hstep
    obtain ⟨l', hperm, hl'⟩ := ih
    have hlength := hperm.length_eq
    have ha' : a < l'.length := by omega
    have hb' : b < l'.length := by omega
    refine ⟨(l'.set a l'[b]).set b l'[a], (List.set_set_perm ha' hb').trans hperm, fun i => ?_⟩
    rw [Function.comp_apply, List.getElem?_set]
    by_cases hib : b = i
    · subst hib
      rw [Equiv.swap_apply_right, if_pos rfl,
        if_pos (by rw [List.length_set]; exact hb'), hl', List.getElem?_eq_getElem ha']
    · rw [if_neg hib, List.getElem?_set]
      by_cases hia : a = i
      · subst hia
        rw [Equiv.swap_apply_left, if_pos rfl, if_pos ha', hl', List.getElem?_eq_getElem hb']
      · rw [if_neg hia, Equiv.swap_apply_of_ne_of_ne (Ne.symm hia) (Ne.symm hib), hl']

theorem parent_lt {i : Nat} (hi : 0 < i) : parent i < i := by
  unfold parent
  omega

theorem smaller_bounds {g : Nat → α} {n i : Nat} (h : 2 * i + 1 < n) :
    i < smaller lt g n i ∧ smaller lt g n i < n ∧ parent (smaller lt g n i) = i := by
  unfold smaller parent
  split <;> omega

theorem siftUp_exchanged (g : Nat → α) {n i : Nat} (hi : i < n) :
    Exchanged n g (siftUp lt g i) := by
  induction g, i using siftUp.induct lt with
  | case1 g i h ih =>
    have hp := parent_lt h.1
    rw [siftUp, if_pos h]
    exact (Exchanged.swap hi (by omega) g).trans (ih (by omega))
  | case2 g i h =>
    rw [siftUp, if_neg h]
    exact .refl

theorem siftDown_exchanged (g : Nat → α) {n i : Nat} (hi : i < n) :
    Exchanged n g (siftDown lt g n i) := by
  induction g, i using siftDown.induct lt n with
  | case1 g i h ih =>
    have hc := (smaller_bounds lt (g := g) h.1).2.1
    rw [siftDown, if_pos h]
    exact (Exchanged.swap hi hc g).trans (ih hc)
  | case2 g i h =>
    rw [siftDown, if_neg h]
    exact .refl

theorem heapifyFrom_exchanged {n i : Nat} (hi : i ≤ n) (g : Nat → α) :
    Exchanged n g (heapifyFrom lt n i g) := by
  induction i generalizing g with
  | zero => exact .refl
  | succ i ih => exact (siftDown_exchanged lt g hi).trans (ih (Nat.le_of_succ_le hi) _)

/-! ## The order of the heap -/

section Order

variable [order : IsStrictWeakOrder α fun a b => lt a b = true]

omit order in
theorem not_lt_self [Std.Irrefl fun a b : α => lt a b = true] (a : α) : lt a a = false :=
  Bool.eq_false_iff.2 (irrefl_of (fun a b => lt a b = true) a)

theorem not_lt_of_lt {a b : α} (h : lt a b = true) : lt b a = false :=
  Bool.eq_false_iff.2 fun hba => irrefl_of (fun a b => lt a b = true) a
    (trans_of (fun a b => lt a b = true) h hba)

theorem not_lt_trans {a b c : α} (hab : lt b a = false) (hbc : lt c b = false) :
    lt c a = false := by
  rw [Bool.eq_false_iff] at *
  intro hca
  have htrans {a b c : α} := trans_of (fun a b => lt a b = true) (a := a) (b := b) (c := c)
  -- `b` is incomparable to both, so `a` and `c` are incomparable
  have hbc' : ¬ lt b c = true := fun h => hab (htrans h hca)
  have hab' : ¬ lt a b = true := fun h => hbc (htrans hca h)
  have hinc : ¬lt c a = true ∧ ¬lt a c = true :=
    @IsStrictWeakOrder.incomp_trans _ (fun a b => lt a b = true) _ c b a ⟨hbc, hbc'⟩ ⟨hab, hab'⟩
  exact hinc.1 hca

/-- The order holds but for the element at `i`, whose children are no smaller than its parent. -/
structure Hole (lo : Nat) (g : Nat → α) (n i : Nat) : Prop where
  others : ∀ j, 0 < j → j < n → lo ≤ parent j → j ≠ i → parent j ≠ i →
    lt (g j) (g (parent j)) = false
  around : ∀ j, 0 < j → j < n → parent j = i → 0 < i → lo ≤ parent i →
    lt (g j) (g (parent i)) = false

variable {lt} {lo n i : Nat} {g : Nat → α}

/-- The children of the hole are no smaller than its element. -/
def Below (lt : α → α → Bool) (g : Nat → α) (n i : Nat) : Prop :=
  ∀ j, 0 < j → j < n → parent j = i → lt (g j) (g i) = false

/-- The parent of the hole is no larger than its element. -/
def Above (lt : α → α → Bool) (lo : Nat) (g : Nat → α) (i : Nat) : Prop :=
  0 < i → lo ≤ parent i → lt (g i) (g (parent i)) = false

omit order in
theorem Hole.heap (h : Hole lt lo g n i) (hb : Below lt g n i) (ha : Above lt lo g i) :
    HeapFrom lt lo g n := by
  intro j hj hn hlo
  by_cases hji : j = i
  · subst hji
    exact ha hj hlo
  · by_cases hp : parent j = i
    · rw [hp]
      exact hb j hj hn hp
    · exact h.others j hj hn hlo hji hp

theorem Hole.of_heap {g' : Nat → α} (h : HeapFrom lt lo g n)
    (hsame : ∀ j, j < n → j ≠ i → g' j = g j) : Hole lt lo g' n i where
  others j hj hn hlo hji hp := by
    rw [hsame j hn hji, hsame _ (Nat.lt_trans (parent_lt hj) hn) hp]
    exact h j hj hn hlo
  around j hj hn hp hi hlo := by
    have hpj := parent_lt hj
    have hpi := parent_lt hi
    rw [hsame j hn (by omega), hsame (parent i) (by omega) (by omega)]
    have hji := h j hj hn (by omega)
    rw [hp] at hji
    exact not_lt_trans lt (h i hi (by omega) hlo) hji

omit order in
theorem swap_others {a b j : Nat} (ha : j ≠ a) (hb : j ≠ b) : (g ∘ Equiv.swap a b) j = g j := by
  rw [Function.comp_apply, Equiv.swap_apply_of_ne_of_ne ha hb]

omit order in
theorem swap_first (a b : Nat) : (g ∘ Equiv.swap a b) a = g b := by
  rw [Function.comp_apply, Equiv.swap_apply_left]

omit order in
theorem swap_second (a b : Nat) : (g ∘ Equiv.swap a b) b = g a := by
  rw [Function.comp_apply, Equiv.swap_apply_right]

/-- An element that is smaller than its parent goes up, and leaves no hole. -/
theorem Hole.up (h : Hole lt 0 g n i) (hi : 0 < i) (hn : i < n)
    (hlt : lt (g i) (g (parent i)) = true) :
    Hole lt 0 (g ∘ Equiv.swap i (parent i)) n (parent i) ∧
      Below lt (g ∘ Equiv.swap i (parent i)) n (parent i) := by
  have hpi := parent_lt hi
  refine ⟨⟨fun j hj hjn _ hjp hpp => ?_, fun j hj hjn hp hpos _ => ?_⟩, fun j hj hjn hp => ?_⟩
  · by_cases hji : j = i
    · exact absurd (congrArg parent hji) hpp
    · rw [swap_others hji hjp]
      by_cases hpj : parent j = i
      · rw [hpj, swap_first]
        exact h.around j hj hjn hpj hi (Nat.zero_le _)
      · rw [swap_others hpj hpp]
        exact h.others j hj hjn (Nat.zero_le _) hji hpj
  · have hpp := parent_lt hpos
    have hup := h.others (parent i) hpos (by omega) (Nat.zero_le _) (by omega) (by omega)
    rw [swap_others (j := parent (parent i)) (by omega) (by omega)]
    by_cases hji : j = i
    · rw [hji, swap_first]
      exact hup
    · have hjp := parent_lt hj
      rw [swap_others hji (by omega)]
      have hsib := h.others j hj hjn (Nat.zero_le _) hji (by omega)
      rw [hp] at hsib
      exact not_lt_trans lt hup hsib
  · rw [swap_second]
    by_cases hji : j = i
    · rw [hji, swap_first]
      exact not_lt_of_lt lt hlt
    · have hjp := parent_lt hj
      rw [swap_others hji (by omega)]
      have hsib := h.others j hj hjn (Nat.zero_le _) hji (by omega)
      rw [hp] at hsib
      exact not_lt_trans lt (not_lt_of_lt lt hlt) hsib

theorem siftUp_heap (hn : i < n) (h : Hole lt 0 g n i) (hb : Below lt g n i) :
    Heap lt (siftUp lt g i) n := by
  induction g, i using siftUp.induct lt with
  | case1 g i hup ih =>
    have hp := parent_lt hup.1
    obtain ⟨hhole, hbelow⟩ := h.up hup.1 hn hup.2
    rw [siftUp, if_pos hup]
    exact ih (by omega) hhole hbelow
  | case2 g i hstop =>
    rw [siftUp, if_neg hstop]
    exact h.heap hb fun hi _ => Bool.eq_false_iff.2 fun hlt => hstop ⟨hi, hlt⟩

theorem smaller_min {j : Nat} (hj : 0 < j) (hn : j < n) (hp : parent j = i) :
    lt (g j) (g (smaller lt g n i)) = false := by
  have hcases : j = 2 * i + 1 ∨ j = 2 * i + 2 := by
    unfold parent at hp
    omega
  unfold smaller
  split
  · next h =>
      rcases hcases with rfl | rfl
      · exact not_lt_of_lt lt h.2
      · exact not_lt_self lt _
  · next h =>
      rcases hcases with rfl | rfl
      · exact not_lt_self lt _
      · exact Bool.eq_false_iff.2 fun hlt => h ⟨hn, hlt⟩

theorem Hole.down (h : Hole lt lo g n i) (hlo : lo ≤ i) (hc : 2 * i + 1 < n)
    (hlt : lt (g (smaller lt g n i)) (g i) = true) :
    Hole lt lo (g ∘ Equiv.swap i (smaller lt g n i)) n (smaller lt g n i) ∧
      Above lt lo (g ∘ Equiv.swap i (smaller lt g n i)) (smaller lt g n i) := by
  obtain ⟨hgt, hcn, hcp⟩ := smaller_bounds lt (g := g) hc
  have hmin : ∀ j, 0 < j → j < n → parent j = i →
      lt (g j) (g (smaller lt g n i)) = false := fun j => smaller_min
  generalize smaller lt g n i = c at hgt hcn hcp hlt hmin
  refine ⟨⟨fun j hj hjn hlo' hjc hpc => ?_, fun j hj hjn hp _ _ => ?_⟩, fun _ _ => ?_⟩
  · by_cases hji : j = i
    · subst hji
      have hpj := parent_lt hj
      rw [swap_first, swap_others (by omega) hpc]
      exact h.around c (by omega) hcn hcp hj hlo'
    · rw [swap_others hji hjc]
      by_cases hpi : parent j = i
      · rw [hpi, swap_first]
        exact hmin j hj hjn hpi
      · rw [swap_others hpi hpc]
        exact h.others j hj hjn hlo' hji hpi
  · have hpj := parent_lt hj
    rw [hcp, swap_first, swap_others (by omega) (by omega)]
    have hgrand := h.others j hj hjn (by omega) (by omega) (by omega)
    rw [hp] at hgrand
    exact hgrand
  · rw [hcp, swap_first, swap_second]
    exact not_lt_of_lt lt hlt

theorem siftDown_heap (hlo : lo ≤ i) (h : Hole lt lo g n i) (ha : Above lt lo g i) :
    HeapFrom lt lo (siftDown lt g n i) n := by
  induction g, i using siftDown.induct lt n with
  | case1 g i hdown ih =>
    have hgt := (smaller_bounds lt (g := g) hdown.1).1
    obtain ⟨hhole, habove⟩ := h.down hlo hdown.1 hdown.2
    rw [siftDown, if_pos hdown]
    exact ih (by omega) hhole habove
  | case2 g i hstop =>
    rw [siftDown, if_neg hstop]
    refine h.heap (fun j hj hn hp => ?_) ha
    have hc : 2 * i + 1 < n := by
      unfold parent at hp
      omega
    have hle : lt (g (smaller lt g n i)) (g i) = false :=
      Bool.eq_false_iff.2 fun hlt => hstop ⟨hc, hlt⟩
    exact not_lt_trans lt hle (smaller_min hj hn hp)

/-- **One sift each way closes a hole.**  An element that goes up leaves a heap, and
    then none goes down from where it stood. -/
theorem sift_heap (hn : i < n) (h : Hole lt 0 g n i) :
    Heap lt (siftDown lt (siftUp lt g i) n i) n := by
  by_cases hup : 0 < i ∧ lt (g i) (g (parent i)) = true
  · have hp := parent_lt hup.1
    obtain ⟨hhole, hbelow⟩ := h.up hup.1 hn hup.2
    have hheap : Heap lt (siftUp lt g i) n := by
      rw [siftUp, if_pos hup]
      exact siftUp_heap (by omega) hhole hbelow
    exact siftDown_heap (Nat.zero_le i) (.of_heap hheap fun _ _ _ => rfl)
      fun hi hlo => hheap i hi hn hlo
  · rw [siftUp, if_neg hup]
    exact siftDown_heap (Nat.zero_le i) h fun hi _ => Bool.eq_false_iff.2 fun hlt => hup ⟨hi, hlt⟩

theorem heapifyFrom_heap (hi : i ≤ n) (h : HeapFrom lt i g n) :
    Heap lt (heapifyFrom lt n i g) n := by
  induction i generalizing g with
  | zero => exact h
  | succ i ih =>
    refine ih (Nat.le_of_succ_le hi) (siftDown_heap (Nat.le_refl i) ⟨?_, ?_⟩ ?_)
    · exact fun j hj hn hlo _ hp => h j hj hn (by omega)
    · intro j _ _ _ hpos hlo
      exact absurd (parent_lt hpos) (Nat.not_lt.2 hlo)
    · exact fun hpos hlo => absurd (parent_lt hpos) (Nat.not_lt.2 hlo)

/-- The order of the positions that have a child is the order of all. -/
theorem heapify_heap (g : Nat → α) (n : Nat) : Heap lt (heapifyFrom lt n (n / 2) g) n := by
  refine heapifyFrom_heap (Nat.div_le_self n 2) fun j hj hn hlo => ?_
  unfold parent at hlo
  omega

theorem Heap.root_le (h : Heap lt g n) (hn : i < n) : lt (g i) (g 0) = false := by
  induction i using Nat.strongRecOn with
  | ind i ih =>
    cases i with
    | zero => exact not_lt_self lt _
    | succ i =>
      have hp := parent_lt (Nat.succ_pos i)
      exact not_lt_trans lt (ih _ hp (Nat.lt_trans hp hn))
        (h (i + 1) (Nat.succ_pos i) hn (Nat.zero_le _))

omit order in
theorem sift_eq_self (h : Heap lt g n) (hn : i < n) :
    siftDown lt (siftUp lt g i) n i = g := by
  have hup : siftUp lt g i = g := by
    rw [siftUp, if_neg]
    rintro ⟨hi, hlt⟩
    rw [h i hi hn (Nat.zero_le _)] at hlt
    cases hlt
  rw [hup, siftDown, if_neg]
  rintro ⟨hc, hlt⟩
  obtain ⟨hgt, hcn, hcp⟩ := smaller_bounds lt (g := g) hc
  have hle := h _ (by omega) hcn (Nat.zero_le _)
  rw [hcp] at hle
  rw [hle] at hlt
  cases hlt

end Order

end BinaryHeap
