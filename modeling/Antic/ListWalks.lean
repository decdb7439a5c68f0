import Mathlib.Data.List.Basic
import Mathlib.Data.List.Infix
import Mathlib.Data.Nat.Find
import Mathlib.Algebra.Order.Ring.Int

/-! # The places of a list in another, and a limit of a list

    A list stands in another at a place when the other goes on with it from there.  The greedy
    places are the ones that a walk from left to right takes: the first one, then the first one at
    or after the end of it, and so on.  They are determined by the lists, and those from a place on
    by the end of the list from there: what stands before it may change without a change of them. -/

namespace ListWalks

open List

variable {α : Type*}

-- ── A limit of a list ────

/-- All of the list for 0, that many from the start for a positive limit, and that many
    from the end for a negative one. -/
def limited (limit : ℤ) (l : List α) : List α :=
  if limit = 0 then l
  else if 0 < limit then l.take (min limit l.length).toNat
  else l.drop (l.length - min (-limit) l.length).toNat

/-- What a limit leaves is what a walk takes that passes over some and then takes some. -/
theorem limited_eq (limit : ℤ) (l : List α) : limited limit l =
      if 0 < limit then l.take limit.toNat
      else l.drop (if limit < 0 ∧ l.length + limit > 0 then l.length + limit else 0).toNat := by
  unfold limited
  rcases lt_trichotomy limit 0 with h | rfl | h
  · rw [if_neg (by omega), if_neg (by omega), if_neg (by omega)]
    congr 1
    split_ifs <;> omega
  · simp
  · rw [if_neg (by omega), if_pos h, if_pos h]
    rcases le_total limit l.length with hle | hle
    · rw [min_eq_left hle]
    · rw [min_eq_right hle, take_of_length_le (by omega), take_of_length_le (by omega)]

-- ── Places ────

/-- The list stands in the data at a place. -/
def Stands (data find : List α) (i : ℕ) : Prop := find <+: data.drop i

variable {data find : List α} {start : ℕ}

theorem Stands.bound {i : ℕ} (hfind : find ≠ []) (h : Stands data find i) :
    i + find.length ≤ data.length := by
  have hlen := h.length_le
  have hpos := length_pos_iff.mpr hfind
  rw [length_drop] at hlen
  omega

theorem stands_congr {other : List α} {k i : ℕ} (h : data.drop k = other.drop k) (hi : k ≤ i) :
    Stands data find i ↔ Stands other find i := by
  have hdrop : data.drop i = other.drop i := by
    have := congrArg (List.drop (i - k)) h
    rwa [drop_drop, drop_drop, Nat.add_sub_cancel' hi] at this
  rw [Stands, Stands, hdrop]

/-- The first place at or after `start`. -/
structure IsFirst (data find : List α) (start i : ℕ) : Prop where
  after : start ≤ i
  stands : Stands data find i
  least : ∀ j, start ≤ j → j < i → ¬ Stands data find j

theorem IsFirst.unique {i j : ℕ} (hi : IsFirst data find start i)
    (hj : IsFirst data find start j) : i = j := by
  rcases lt_trichotomy i j with h | h | h
  · exact absurd hi.stands (hj.least i hi.after h)
  · exact h
  · exact absurd hj.stands (hi.least j hj.after h)

/-- A place that is first in a list is first in one that agrees with it from the start on. -/
theorem IsFirst.congr {other : List α} {i : ℕ} (h : IsFirst data find start i)
    (hdrop : other.drop start = data.drop start) : IsFirst other find start i where
  after := h.after
  stands := (stands_congr hdrop h.after).mpr h.stands
  least := fun j hj hlt hs => h.least j hj hlt ((stands_congr hdrop hj).mp hs)

theorem exists_isFirst {j : ℕ} (hj : start ≤ j) (h : Stands data find j) :
    ∃ i, IsFirst data find start i := by
  classical
  have hex : ∃ i, start ≤ i ∧ Stands data find i := ⟨j, hj, h⟩
  obtain ⟨hafter, hstands⟩ := Nat.find_spec hex
  exact ⟨Nat.find hex, hafter, hstands, fun k hk hlt hs => Nat.find_min hex hlt ⟨hk, hs⟩⟩

/-- The places from left to right and without overlap, from a start on. -/
inductive GreedyFrom (data find : List α) : ℕ → List ℕ → Prop where
  | done (start : ℕ) : (∀ j, start ≤ j → ¬ Stands data find j) → GreedyFrom data find start []
  | step (start i : ℕ) (rest : List ℕ) : IsFirst data find start i →
      GreedyFrom data find (i + find.length) rest → GreedyFrom data find start (i :: rest)

theorem GreedyFrom.unique {P Q : List ℕ} (hP : GreedyFrom data find start P)
    (hQ : GreedyFrom data find start Q) : P = Q := by
  induction hP generalizing Q with
  | done start hnone =>
    cases hQ with
    | done => rfl
    | step _ i _ hi => exact absurd hi.stands (hnone i hi.after)
  | step start i rest hi _ ih =>
    cases hQ with
    | done _ hnone => exact absurd hi.stands (hnone i hi.after)
    | step _ j _ hj hrest =>
      obtain rfl := hi.unique hj
      rw [ih hrest]

/-- A walk from left to right ends: each place lies behind the one before it. -/
theorem exists_greedyFrom (data : List α) (hfind : find ≠ []) (start : ℕ) :
    ∃ P, GreedyFrom data find start P := by
  generalize hn : data.length - start = n
  induction n using Nat.strong_induction_on generalizing start with
  | h n ih =>
    by_cases hex : ∃ j, start ≤ j ∧ Stands data find j
    · obtain ⟨j, hj, hs⟩ := hex
      obtain ⟨i, hi⟩ := exists_isFirst hj hs
      have hbound := hi.stands.bound hfind
      have hpos := length_pos_iff.mpr hfind
      have hafter := hi.after
      obtain ⟨rest, hrest⟩ := ih (data.length - (i + find.length)) (by omega) _ rfl
      exact ⟨i :: rest, .step start i rest hi hrest⟩
    · exact ⟨[], .done start fun j hj hs => hex ⟨j, hj, hs⟩⟩

theorem GreedyFrom.length_le {P : List ℕ} (hfind : find ≠ [])
    (h : GreedyFrom data find start P) : P.length ≤ data.length - start := by
  induction h with
  | done => simp
  | step start i rest hi _ ih =>
    have hbound := hi.stands.bound hfind
    have hpos := length_pos_iff.mpr hfind
    have hafter := hi.after
    rw [length_cons]
    omega

/-- They are determined by the end of the data from the start on. -/
theorem GreedyFrom.congr {other : List α} {P : List ℕ} (h : GreedyFrom data find start P)
    (hdrop : other.drop start = data.drop start) : GreedyFrom other find start P := by
  induction h with
  | done start hnone => exact .done start fun j hj hs => hnone j hj ((stands_congr hdrop hj).mp hs)
  | step start i rest hi _ ih =>
    refine .step start i rest (hi.congr hdrop) (ih ?_)
    have hle : start ≤ i + find.length := by have := hi.after; omega
    have := congrArg (List.drop (i + find.length - start)) hdrop
    rwa [drop_drop, drop_drop, Nat.add_sub_cancel' hle] at this

theorem GreedyFrom.stands {P : List ℕ} (h : GreedyFrom data find start P) :
    ∀ q ∈ P, start ≤ q ∧ Stands data find q := by
  induction h with
  | done => simp
  | step start i rest hi _ ih =>
    have := hi.after
    intro q hq
    rcases mem_cons.mp hq with rfl | hq
    · exact ⟨this, hi.stands⟩
    · exact ⟨by have := (ih q hq).1; omega, (ih q hq).2⟩

theorem GreedyFrom.pairwise {P : List ℕ} (h : GreedyFrom data find start P) :
    P.Pairwise fun p q => p + find.length ≤ q := by
  induction h with
  | done => exact Pairwise.nil
  | step start i rest hi hrest ih => exact pairwise_cons.mpr ⟨fun q hq => (hrest.stands q hq).1, ih⟩

/-- The greedy places of a list in another.  An empty list stands nowhere. -/
def Greedy (data find : List α) (P : List ℕ) : Prop :=
  if find = [] then P = [] else GreedyFrom data find 0 P

end ListWalks
