import Mathlib.Algebra.Order.Ring.Nat
import Mathlib.Tactic.Ring

/-! # Canonical prefix codes

    The lengths of the codes of the symbols `0, 1, …` determine the codes: those of one
    length are consecutive numbers in the order of their symbols, and those of a length
    begin where those of the lengths before end (`firstCode`).

    * `kraft_eq` — the lengths fit where the numbers of each length do.
    * `code_lt`, `code_shift` — then a code has its length in bits, and no beginning of it
      is a code. -/

open Nat

namespace CanonicalCodes

/-- How many of the first `n` symbols have a code of `l` bits. -/
def tally (lengths : Nat → Nat) : (n l : Nat) → Nat
  | 0, _ => 0
  | n + 1, l => tally lengths n l + if lengths n = l then 1 else 0

/-- The first code of a length, from the number of codes of each length. -/
def firstCode (count : Nat → Nat) : Nat → Nat
  | 0 | 1 => 0
  | l + 2 => (firstCode count (l + 1) + count (l + 1)) * 2

/-- The code of a symbol, a number of `lengths i` bits. -/
def code (lengths : Nat → Nat) (n i : Nat) : Nat :=
  firstCode (tally lengths n) (lengths i) + tally lengths i (lengths i)

/-- The share of the codes of `max` bits that the codes of the first `n` symbols take; no
    code has a length of 0. -/
def kraft (lengths : Nat → Nat) (max : Nat) : Nat → Nat
  | 0 => 0
  | n + 1 => kraft lengths max n + if lengths n = 0 then 0 else 2 ^ (max - lengths n)

/-- The codes of no length go beyond the numbers of so many bits. -/
def Fits (count : Nat → Nat) (max : Nat) : Prop :=
  ∀ l, 1 ≤ l → l ≤ max → firstCode count l + count l ≤ 2 ^ l

variable {lengths count : Nat → Nat} {n max : Nat}

theorem firstCode_succ (count : Nat → Nat) {l : Nat} (hl : 1 ≤ l) :
    firstCode count (l + 1) = (firstCode count l + count l) * 2 := by
  cases l with
  | zero => cases hl
  | succ l => rfl

theorem firstCode_le {k l : Nat} (hk : 1 ≤ k) (hkl : k < l) :
    (firstCode count k + count k) * 2 ^ (l - k) ≤ firstCode count l := by
  induction l, hkl using le_induction with
  | base => rw [firstCode_succ count hk, succ_sub (Nat.le_refl k), Nat.sub_self, pow_one]
  | succ l hl ih =>
    have hpow : l + 1 - k = l - k + 1 := succ_sub (le_of_succ_le hl)
    rw [hpow, pow_succ, ← Nat.mul_assoc, firstCode_succ count (Nat.le_trans hk (le_of_succ_le hl))]
    exact Nat.mul_le_mul_right 2 (Nat.le_trans ih (Nat.le_add_right _ _))

-- ── How the numbers grow with the symbols ────

theorem tally_succ (lengths : Nat → Nat) (n l : Nat) :
    tally lengths (n + 1) l = tally lengths n l + if lengths n = l then 1 else 0 := rfl

theorem tally_mono {i : Nat} (h : i ≤ n) (l : Nat) : tally lengths i l ≤ tally lengths n l := by
  induction n, h using le_induction with
  | base => exact Nat.le_refl _
  | succ n _ ih => exact Nat.le_trans ih (Nat.le_add_right _ _)

/-- The symbols before one of a length are fewer than all of the length. -/
theorem tally_lt (lengths : Nat → Nat) {i : Nat} (h : i < n) :
    tally lengths i (lengths i) < tally lengths n (lengths i) := by
  have hself : tally lengths (i + 1) (lengths i) = tally lengths i (lengths i) + 1 := by
    rw [tally_succ, if_pos rfl]
  exact Nat.lt_of_lt_of_le (by rw [hself]; exact lt_succ_self _) (tally_mono h _)

theorem firstCode_tally_succ (lengths : Nat → Nat) (n l : Nat) :
    firstCode (tally lengths (n + 1)) l = firstCode (tally lengths n) l +
      if 1 ≤ lengths n ∧ lengths n < l then 2 ^ (l - lengths n) else 0 := by
  induction l with
  | zero => rw [if_neg (fun h => Nat.not_lt_zero _ h.2)]; rfl
  | succ l ih =>
    cases l with
    | zero => rw [if_neg (fun h => absurd h.2 (Nat.not_lt.mpr h.1))]; rfl
    | succ l =>
      have hpos : 1 ≤ l + 1 := Nat.le_add_left 1 l
      rw [firstCode_succ _ hpos, firstCode_succ _ hpos, ih, tally_succ]
      by_cases hlt : 1 ≤ lengths n ∧ lengths n < l + 1
      · have hpow : l + 1 + 1 - lengths n = l + 1 - lengths n + 1 :=
          succ_sub (Nat.le_of_lt hlt.2)
        rw [if_pos hlt, if_neg (Nat.ne_of_lt hlt.2), if_pos ⟨hlt.1, lt_succ_of_lt hlt.2⟩,
          hpow, pow_succ]
        ring
      · rw [if_neg hlt]
        by_cases heq : lengths n = l + 1
        · rw [if_pos heq, if_pos ⟨by rw [heq]; exact hpos, by rw [heq]; exact lt_succ_self _⟩,
            heq, succ_sub (Nat.le_refl _), Nat.sub_self, pow_one]
          ring
        · have hno : ¬ (1 ≤ lengths n ∧ lengths n < l + 1 + 1) := by
            rintro ⟨h1, h2⟩
            exact hlt ⟨h1, Nat.lt_of_le_of_ne (Nat.lt_succ_iff.mp h2) heq⟩
          rw [if_neg heq, if_neg hno]
          ring

/-- **The share of the codes** is where the longest ones end. -/
theorem kraft_eq (hmax : 1 ≤ max) (hle : ∀ i, i < n → lengths i ≤ max) :
    kraft lengths max n = firstCode (tally lengths n) max + tally lengths n max := by
  induction n with
  | zero =>
    have hzero : ∀ l, firstCode (tally lengths 0) l = 0 := by
      intro l
      induction l with
      | zero => rfl
      | succ l ih =>
        cases l with
        | zero => rfl
        | succ l => rw [firstCode_succ _ (Nat.le_add_left 1 l), ih]; rfl
    rw [hzero]
    rfl
  | succ n ih =>
    rw [kraft, ih fun i hi => hle i (lt_succ_of_lt hi), firstCode_tally_succ, tally_succ]
    have hn := hle n (lt_succ_self n)
    by_cases hzero : lengths n = 0
    · rw [if_pos hzero, if_neg (by rw [hzero]; exact fun h => absurd h.1 (by decide)),
        if_neg (by rw [hzero]; exact (Nat.ne_of_lt hmax))]
      rfl
    · rw [if_neg hzero]
      by_cases heq : lengths n = max
      · rw [if_neg (by rw [heq]; exact fun h => Nat.lt_irrefl _ h.2), if_pos heq, heq,
          Nat.sub_self, pow_zero]
        ring
      · have hlt := Nat.lt_of_le_of_ne hn heq
        rw [if_pos ⟨Nat.pos_of_ne_zero hzero, hlt⟩, if_neg heq]
        ring

/-- Where the share is not more than all, the codes of every length fit. -/
theorem fits_of_end (h : firstCode count max + count max ≤ 2 ^ max) : Fits count max := by
  intro l hl hlmax
  rcases Nat.eq_or_lt_of_le hlmax with rfl | hlt
  · exact h
  · have hbelow := Nat.le_trans (firstCode_le hl hlt) (Nat.le_trans (Nat.le_add_right _ _) h)
    have hpow : 2 ^ max = 2 ^ l * 2 ^ (max - l) := by
      rw [← pow_add, Nat.add_sub_cancel' hlmax]
    rw [hpow] at hbelow
    exact Nat.le_of_mul_le_mul_right hbelow (Nat.two_pow_pos _)

/-- **Lengths fit** where their share is not more than all. -/
theorem fits_of_kraft (hmax : 1 ≤ max) (hle : ∀ i, i < n → lengths i ≤ max)
    (h : kraft lengths max n ≤ 2 ^ max) : Fits (tally lengths n) max := by
  rw [kraft_eq hmax hle] at h
  exact fits_of_end h

-- ── Lengths that agree ────

theorem tally_congr {lengths' : Nat → Nat} (h : ∀ i, i < n → lengths i = lengths' i) :
    tally lengths n = tally lengths' n := by
  induction n with
  | zero => rfl
  | succ n ih =>
    funext l
    rw [tally_succ, tally_succ, ih fun i hi => h i (lt_succ_of_lt hi), h n (lt_succ_self n)]

theorem kraft_congr {lengths' : Nat → Nat} (h : ∀ i, i < n → lengths i = lengths' i) :
    kraft lengths max n = kraft lengths' max n := by
  induction n with
  | zero => rfl
  | succ n ih => rw [kraft, kraft, ih fun i hi => h i (lt_succ_of_lt hi), h n (lt_succ_self n)]

-- ── Codes ────

section Codes

variable (hfits : Fits (tally lengths n) max) {i : Nat} (hi : i < n) (hpos : 1 ≤ lengths i)
  (hmax : lengths i ≤ max)

include hi in
theorem code_lt_end :
    code lengths n i < firstCode (tally lengths n) (lengths i) + tally lengths n (lengths i) :=
  Nat.add_lt_add_left (tally_lt lengths hi) _

include hfits hi hpos hmax in
theorem code_lt : code lengths n i < 2 ^ lengths i :=
  Nat.lt_of_lt_of_le (code_lt_end hi) (hfits _ hpos hmax)

theorem code_shift {l : Nat} (hl : 1 ≤ l) (hlt : l < lengths i) :
    firstCode (tally lengths n) l + tally lengths n l ≤ code lengths n i / 2 ^ (lengths i - l) := by
  rw [Nat.le_div_iff_mul_le (Nat.two_pow_pos _)]
  exact Nat.le_trans (firstCode_le hl hlt) (Nat.le_add_right _ _)

end Codes

end CanonicalCodes
