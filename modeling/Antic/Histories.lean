import Antic.Interleaving
import Mathlib.Data.List.Pairwise

/-! # Histories of calls on a keyed store

    A keyed store gives each key a CELL, and a call reads and writes the cell of one key.  A call
    that changes its cell takes a STAMP above every stamp taken before.  The history of a store is
    the calls in the order they took effect, and it is LEGAL where a store that runs its calls one
    after another gives the same answers: it is a run of `Spec.Step` from the empty store. -/

namespace Histories

open Interleaving List

/-- A call that took effect: what it gave, and the stamp it took. -/
structure Event (ι K O A : Type) where
  thread : ι
  key : K
  op : O
  answer : A
  stamp : Option Nat

/-- What a call does to a cell when the next stamp is `n`: the cell, the answer,
    and whether the call takes the stamp. -/
structure Spec (O A C : Type) where
  start : C
  step : O → Nat → C → C × A × Bool

/-- The cells, and the stamp that no stamp so far is above. -/
structure Book (K C : Type) where
  cells : K → C
  clock : Nat

section Runs

variable {ι K O A C : Type} [BEq K]

/-- The stamps of a history. -/
def stamps (h : List (Event ι K O A)) : List Nat := h.filterMap Event.stamp

/-- The cell of `k` replaced. -/
def put (cells : K → C) (k : K) (c : C) : K → C := fun x => if k == x then c else cells x

/-- The event of a call. -/
def Spec.event (S : Spec O A C) (t : ι) (k : K) (o : O) (n : Nat) (c : C) :
    Event ι K O A :=
  ⟨t, k, o, (S.step o n c).2.1, if (S.step o n c).2.2 then some n else none⟩

/-- The store after a call. -/
def Spec.book (S : Spec O A C) (b : Book K C) (k : K) (o : O) (n : Nat) : Book K C where
  cells := put b.cells k (S.step o n (b.cells k)).1
  clock := if (S.step o n (b.cells k)).2.2 then n else b.clock

def Spec.empty (S : Spec O A C) : Book K C := ⟨fun _ => S.start, 0⟩

/-- One call of the store. -/
inductive Spec.Step (S : Spec O A C) (b : Book K C) :
    Event ι K O A → Book K C → Prop where
  | call (t : ι) (k : K) (o : O) (n : Nat) (hfresh : b.clock < n) :
      Step S b (S.event t k o n (b.cells k)) (S.book b k o n)

variable {S : Spec O A C} {b b' : Book K C} {h : List (Event ι K O A)}

theorem Spec.Step.clock_le {e : Event ι K O A} (hs : S.Step b e b') :
    b.clock ≤ b'.clock := by
  cases hs with
  | call t k o n hfresh =>
    show b.clock ≤ if (S.step o n (b.cells k)).2.2 then n else b.clock
    split
    · exact Nat.le_of_lt hfresh
    · exact Nat.le_refl _

/-- The stamp of a call is above the clock before it and is the clock after it. -/
theorem Spec.Step.stamp {e : Event ι K O A} (hs : S.Step b e b') {m : Nat}
    (hm : e.stamp = some m) : b.clock < m ∧ b'.clock = m := by
  cases hs with
  | call t k o n hfresh =>
    have hm : (if (S.step o n (b.cells k)).2.2 then some n else none) = some m := hm
    show b.clock < m ∧ (if (S.step o n (b.cells k)).2.2 then n else b.clock) = m
    split at hm
    · next hused =>
        cases hm
        exact ⟨hfresh, if_pos hused⟩
    · cases hm

/-- What the stamps of a run are: above the clock before it, up to the clock
    after it, and each above the ones before. -/
structure Ticks (b b' : Book K C) (h : List (Event ι K O A)) : Prop where
  clock_le : b.clock ≤ b'.clock
  above : ∀ m ∈ stamps h, b.clock < m
  below : ∀ m ∈ stamps h, m ≤ b'.clock
  increasing : (stamps h).Pairwise (· < ·)

theorem ticks (hrun : Runs S.Step b h b') : Ticks b b' h := by
  induction hrun with
  | start =>
    exact ⟨Nat.le_refl _, fun _ hm => absurd hm not_mem_nil,
      fun _ hm => absurd hm not_mem_nil, .nil⟩
  | @snoc h₀ b₁ b₂ e hrun hs ih =>
    have hle : b₁.clock ≤ b₂.clock := hs.clock_le
    cases hstamp : e.stamp with
    | none =>
      have hsame : stamps (h₀ ++ [e]) = stamps h₀ := by
        simp [stamps, hstamp]
      constructor
      · exact Nat.le_trans ih.clock_le hle
      · rw [hsame]
        exact ih.above
      · rw [hsame]
        exact fun m hm => Nat.le_trans (ih.below m hm) hle
      · rw [hsame]
        exact ih.increasing
    | some n =>
      obtain ⟨hn, hclock⟩ := hs.stamp hstamp
      have hsnoc : stamps (h₀ ++ [e]) = stamps h₀ ++ [n] := by
        simp [stamps, hstamp]
      have hbelow : ∀ m ∈ stamps h₀, m < n :=
        fun m hm => Nat.lt_of_le_of_lt (ih.below m hm) hn
      constructor
      · exact Nat.le_trans ih.clock_le hle
      · intro m hm
        rw [hsnoc, mem_append, mem_singleton] at hm
        rcases hm with hm | rfl
        · exact ih.above m hm
        · exact Nat.lt_of_le_of_lt ih.clock_le hn
      · intro m hm
        rw [hsnoc, mem_append, mem_singleton] at hm
        rcases hm with hm | rfl
        · exact Nat.le_trans (ih.below m hm) hle
        · exact Nat.le_of_eq hclock.symm
      · rw [hsnoc]
        refine pairwise_append.2 ⟨ih.increasing, pairwise_singleton _ _, ?_⟩
        intro m hm x hx
        rw [mem_singleton.1 hx]
        exact hbelow m hm

/-- Equal keys have one cell. -/
def Respects (cells : K → C) : Prop := ∀ k k' : K, (k == k') = true → cells k = cells k'

theorem respects [EquivBEq K] {b₀ : Book K C} (hrun : Runs S.Step b₀ h b)
    (hb : Respects b₀.cells) : Respects b.cells := by
  induction hrun with
  | start => exact hb
  | @snoc h₀ b₁ b₂ e _ hs ih =>
    intro k k' hk
    cases hs with
    | call t x o n hfresh =>
      show (if x == k then _ else b₁.cells k) = if x == k' then _ else b₁.cells k'
      rw [ih k k' hk, BEq.congr_right hk]

/-- A key that no call of the history is of has the cell of the start. -/
theorem cells_start (hrun : Runs S.Step S.empty h b) {k : K}
    (hno : ∀ e ∈ h, (e.key == k) = false) : b.cells k = S.start := by
  induction hrun with
  | start => rfl
  | @snoc h₀ b₁ b₂ e _ hs ih =>
    have hno₀ : ∀ x ∈ h₀, (x.key == k) = false :=
      fun x hx => hno x (mem_append_left _ hx)
    have hk := hno e (mem_append_right _ (mem_singleton_self e))
    cases hs with
    | call t x o n hfresh =>
      show (if x == k then _ else b₁.cells k) = _
      have hk : (x == k) = false := hk
      rw [hk]
      exact ih hno₀

end Runs

end Histories
