import Mathlib.Data.List.Induction
import Antic.StableOrders
import Antic.StableSort

/-! # The sort sorts, and keeps ties

    A part of the slice is written as a list between the lists in front of it and behind
    it, and each function says what the part becomes.

    * `rotate_exchanges` — the blocks before and behind the middle change places.
    * `merge_sorts` — two neighbouring runs in order become one.
    * **`sort_stable_sorts`** — the slice ends in order, with the same elements, and those
      that tie in the order that they had. -/

namespace AnticStableSort

open StableOrders List Bool

variable {α : Type} {less : α → α → Bool}

-- ── Places ────

@[simp] theorem place_nat (s : List α) (k : Nat) : place s k = s[k]? := by
  rw [place, if_neg (Int.not_lt.mpr (Int.natCast_nonneg k)), Int.toNat_natCast]

variable {A B : List α} {i j : Int}

theorem place_at {x : α} (hi : i = A.length) : place (A ++ x :: B) i = some x := by
  rw [hi, place_nat, getElem?_append_right (Nat.le_refl _), Nat.sub_self, getElem?_cons_zero]

theorem place_behind {M : List α} {x y : α} (hj : j = A.length + 1 + M.length) :
    place (A ++ x :: (M ++ y :: B)) j = some y := by
  have hsplit : A ++ x :: (M ++ y :: B) = (A ++ x :: M) ++ y :: B := by
    rw [append_assoc, cons_append]
  rw [hsplit]
  refine place_at ?_
  rw [length_append, length_cons]
  omega

theorem place_in {X : List α} {k : Nat} {x : α} (hi : i = A.length + k) (hx : X[k]? = some x) :
    place (A ++ (X ++ B)) i = some x := by
  obtain ⟨hk, -⟩ := List.getElem?_eq_some_iff.mp hx
  have hcast : i = ((A.length + k : Nat) : Int) := by omega
  rw [hcast, place_nat, getElem?_append_right (Nat.le_add_right _ _), Nat.add_sub_cancel_left,
    getElem?_append_left hk, hx]

theorem swap_at {M : List α} {x y : α} (hi : i = A.length) (hj : j = A.length + 1 + M.length) :
    swap (A ++ x :: (M ++ y :: B)) i j = some (A ++ y :: (M ++ x :: B)) := by
  have hset : (A ++ x :: (M ++ y :: B)).set A.length y = A ++ y :: (M ++ y :: B) := by
    rw [set_append_right _ _ (Nat.le_refl _), Nat.sub_self, set_cons_zero]
  have hset' : (A ++ y :: (M ++ y :: B)).set (A.length + 1 + M.length) x
      = A ++ y :: (M ++ x :: B) := by
    have hsub : A.length + 1 + M.length - A.length = M.length + 1 := by omega
    rw [set_append_right _ _ (by omega), hsub, set_cons_succ,
      set_append_right _ _ (Nat.le_refl _), Nat.sub_self, set_cons_zero]
  have hi' : i.toNat = A.length := by omega
  have hj' : j.toNat = A.length + 1 + M.length := by omega
  rw [swap, place_at hi, place_behind hj, hi', hj']
  show some (((A ++ x :: (M ++ y :: B)).set A.length y).set (A.length + 1 + M.length) x) = _
  rw [hset, hset']

theorem swap_back {M : List α} {x y : α} (hi : i = A.length) (hj : j = A.length + 1 + M.length) :
    swap (A ++ x :: (M ++ y :: B)) j i = some (A ++ y :: (M ++ x :: B)) := by
  have hne : j.toNat ≠ i.toNat := by omega
  have hswap := swap_at (x := x) (y := y) (B := B) hi hj
  rw [swap, place_at hi, place_behind hj] at hswap
  rw [swap, place_behind hj, place_at hi, ← hswap]
  exact congrArg some (set_comm _ _ hne)

-- ── One element moves ────

theorem moveUp_moves (M : List α) (fuel : Nat) {x : α} {k last : Int} (hk : k = A.length)
    (hlast : last = k + M.length) (hfuel : M.length < fuel) :
    moveUp last fuel (A ++ x :: (M ++ B)) k = some (A ++ (M ++ x :: B)) := by
  induction M generalizing A k fuel with
  | nil =>
    cases fuel with
    | zero => cases hfuel
    | succ fuel =>
      rw [length_nil] at hlast
      rw [moveUp, if_neg (by omega)]
      rfl
  | cons y M ih =>
    cases fuel with
    | zero => cases hfuel
    | succ fuel =>
      rw [length_cons] at hlast hfuel
      have hswap : swap (A ++ x :: (y :: M ++ B)) k (k + 1) = some (A ++ y :: x :: (M ++ B)) :=
        swap_at (M := []) hk (by rw [hk]; rfl)
      have hrest := ih fuel (A := A ++ [y]) (k := k + 1)
        (by rw [length_append, length_singleton]; omega) (by omega) (by omega)
      rw [append_assoc, append_assoc] at hrest
      rw [moveUp, if_pos (by omega), hswap]
      exact hrest

theorem moveDown_moves (M : List α) (fuel : Nat) {y : α} {k : Int} (hi : i = A.length)
    (hk : k = i + M.length) (hfuel : M.length < fuel) :
    moveDown i fuel (A ++ (M ++ y :: B)) k = some (A ++ y :: (M ++ B)) := by
  induction M using List.reverseRecOn generalizing B k fuel with
  | nil =>
    cases fuel with
    | zero => cases hfuel
    | succ fuel =>
      rw [length_nil] at hk
      rw [moveDown, if_neg (by omega)]
      rfl
  | append_singleton M x ih =>
    cases fuel with
    | zero => cases hfuel
    | succ fuel =>
      rw [length_append, length_singleton] at hk hfuel
      have hswap : swap ((A ++ M) ++ x :: y :: B) k (k - 1) = some ((A ++ M) ++ y :: x :: B) :=
        swap_back (M := []) (by rw [length_append]; omega)
          (by rw [length_append, length_nil]; omega)
      have hrest := ih fuel (B := x :: B) (k := k - 1) (by omega) (by omega)
      rw [append_assoc, append_assoc] at hswap
      have hstart : A ++ ((M ++ [x]) ++ y :: B) = A ++ (M ++ x :: y :: B) := by
        rw [append_assoc, singleton_append]
      have hend : A ++ y :: ((M ++ [x]) ++ B) = A ++ y :: (M ++ x :: B) := by
        rw [append_assoc, singleton_append]
      rw [hstart, hend, moveDown, if_pos (by omega), hswap]
      exact hrest

-- ── Blocks change places ────

theorem swapRunFrom_swaps {a b n : Int} (U V : List α) (fuel : Nat) (hUV : V.length = U.length)
    {W : List α} (ha : a + i = A.length) (hb : b + i = A.length + U.length + W.length)
    (hn : n = i + U.length) (hfuel : U.length < fuel) :
    swapRunFrom a b n fuel (A ++ (U ++ (W ++ (V ++ B)))) i
      = some (A ++ (V ++ (W ++ (U ++ B)))) := by
  induction U generalizing V A W i fuel with
  | nil =>
    obtain rfl : V = [] := length_eq_zero_iff.mp hUV
    cases fuel with
    | zero => cases hfuel
    | succ fuel =>
      rw [length_nil] at hn
      rw [swapRunFrom, if_neg (by omega)]
      rfl
  | cons u U ih =>
    cases V with
    | nil => cases hUV
    | cons v V =>
      cases fuel with
      | zero => cases hfuel
      | succ fuel =>
        simp only [length_cons] at hUV hb hn hfuel
        have hswap : swap (A ++ u :: ((U ++ W) ++ v :: (V ++ B))) (a + i) (b + i)
            = some (A ++ v :: ((U ++ W) ++ u :: (V ++ B))) :=
          swap_at ha (by rw [length_append]; omega)
        have hrest := ih V fuel (by omega) (A := A ++ [v]) (W := W ++ [u]) (i := i + 1)
          (by rw [length_append, length_singleton]; omega)
          (by simp only [length_append, length_singleton]; omega) (by omega)
          (by omega)
        simp only [append_assoc] at hswap hrest
        rw [swapRunFrom, if_pos (by omega), cons_append, cons_append, hswap]
        exact hrest

theorem swapRun_swaps {U W V : List α} {a b n : Int} (ha : a = A.length)
    (hb : b = A.length + U.length + W.length) (hn : n = U.length) (hUV : V.length = U.length) :
    swapRun (A ++ (U ++ (W ++ (V ++ B)))) a b n = some (A ++ (V ++ (W ++ (U ++ B)))) := by
  refine swapRunFrom_swaps U V _ hUV (by omega) (by omega) (by omega) ?_
  simp only [length_append]
  omega

theorem rotateFrom_exchanges {fuel : Nat} {U V : List α} {m : Int} (hU : 1 ≤ U.length)
    (hV : 1 ≤ V.length) (hi : i = U.length) (hj : j = V.length) (hm : m = A.length + U.length)
    (hfuel : U.length + V.length ≤ fuel) :
    rotateFrom m fuel (A ++ (U ++ (V ++ B))) i j = some (A ++ (V ++ (U ++ B))) := by
  induction fuel generalizing A U V B m i j with
  | zero => omega
  | succ fuel ih =>
    rw [rotateFrom]
    by_cases hne : i ≠ j
    · rw [if_pos hne]
      by_cases hgt : i > j
      · -- The first block is `U₁ ++ U₂`, and `U₁` and `V` change places.
        obtain ⟨U₁, U₂, rfl, hU₁⟩ : ∃ U₁ U₂, U = U₁ ++ U₂ ∧ U₁.length = V.length :=
          ⟨_, _, (take_append_drop V.length U).symm, by rw [length_take]; omega⟩
        rw [length_append] at hi hm hU hfuel
        have hswap : swapRun (A ++ (U₁ ++ (U₂ ++ (V ++ B)))) (m - i) m j
            = some (A ++ (V ++ (U₂ ++ (U₁ ++ B)))) :=
          swapRun_swaps (by omega) (by omega) (by omega) hU₁.symm
        have hrest := ih (A := A ++ V) (U := U₂) (V := U₁) (B := B) (m := m) (i := i - j) (j := j)
          (by omega) (by omega) (by omega) (by omega) (by rw [length_append]; omega) (by omega)
        rw [append_assoc, append_assoc] at hrest
        rw [if_pos hgt, append_assoc, hswap, append_assoc]
        exact hrest
      · -- The second block is `V₁ ++ V₂`, and `U` and `V₂` change places.
        obtain ⟨V₁, V₂, rfl, hV₂⟩ : ∃ V₁ V₂, V = V₁ ++ V₂ ∧ V₂.length = U.length :=
          ⟨_, _, (take_append_drop (V.length - U.length) V).symm, by
            rw [length_drop]; omega⟩
        rw [length_append] at hj hV hfuel
        have hswap : swapRun (A ++ (U ++ (V₁ ++ (V₂ ++ B)))) (m - i) (m + j - i) i
            = some (A ++ (V₂ ++ (V₁ ++ (U ++ B)))) :=
          swapRun_swaps (by omega) (by omega) (by omega) hV₂
        have hrest := ih (A := A) (U := V₂) (V := V₁) (B := U ++ B) (m := m) (i := i) (j := j - i)
          (by omega) (by omega) (by omega) (by omega) (by omega) (by omega)
        rw [if_neg hgt, append_assoc, hswap, append_assoc]
        exact hrest
    · rw [if_neg hne]
      exact swapRun_swaps (W := []) (by omega) (by rw [length_nil]; omega) (by omega) (by omega)

/-- **`rotate`** lets the blocks before and behind the middle change places. -/
theorem rotate_exchanges {U V : List α} {a m b : Int} (hU : 1 ≤ U.length) (hV : 1 ≤ V.length)
    (ha : a = A.length) (hm : m = a + U.length) (hb : b = m + V.length) :
    rotate (A ++ (U ++ (V ++ B))) a m b = some (A ++ (V ++ (U ++ B))) := by
  refine rotateFrom_exchanges hU hV (by omega) (by omega) (by omega) ?_
  simp only [length_append]
  omega

-- ── The search ────

/-- The search finds where a condition that holds up to a place stops. -/
theorem search_finds {up : Int → Option Bool} {p : Int → Bool} (fuel : Nat)
    (hup : ∀ h, i ≤ h → h < j → up h = some (p h))
    (hdown : ∀ h k, i ≤ h → h ≤ k → k < j → p k = true → p h = true) (hij : i ≤ j)
    (hfuel : j - i < fuel) :
    ∃ k, search up fuel i j = some k ∧ i ≤ k ∧ k ≤ j ∧ (∀ h, i ≤ h → h < k → p h = true) ∧
      ∀ h, k ≤ h → h < j → p h = false := by
  induction fuel generalizing i j with
  | zero => omega
  | succ fuel ih =>
    rw [search]
    by_cases hlt : i < j
    · rw [if_pos hlt]
      dsimp only
      rw [hup ((i + j) / 2) (by omega) (by omega)]
      by_cases hp : p ((i + j) / 2) = true
      · obtain ⟨k, hk, hik, hkj, hbefore, hbehind⟩ := ih (i := (i + j) / 2 + 1) (j := j)
          (fun h h1 h2 => hup h (by omega) h2)
          (fun h k h1 h2 h3 => hdown h k (by omega) h2 h3) (by omega) (by omega)
        refine ⟨k, ?_, by omega, hkj, ?_, hbehind⟩
        · show (if p ((i + j) / 2) = true then _ else _) = _
          rw [if_pos hp]
          exact hk
        · intro h hi hh
          by_cases hmid : h ≤ (i + j) / 2
          · exact hdown h _ hi hmid (by omega) hp
          · exact hbefore h (by omega) hh
      · obtain ⟨k, hk, hik, hkj, hbefore, hbehind⟩ := ih (i := i) (j := (i + j) / 2)
          (fun h h1 h2 => hup h h1 (by omega))
          (fun h k h1 h2 h3 => hdown h k h1 h2 (by omega)) (by omega) (by omega)
        refine ⟨k, ?_, hik, by omega, hbefore, ?_⟩
        · show (if p ((i + j) / 2) = true then _ else _) = _
          rw [if_neg hp]
          exact hk
        · intro h hk hj
          by_cases hmid : h < (i + j) / 2
          · exact hbehind h hk hmid
          · rw [eq_false_iff]
            intro hph
            exact hp (hdown _ h (by omega) (by omega) hj hph)
    · rw [if_neg hlt]
      refine ⟨i, rfl, Int.le_refl i, hij, ?_, ?_⟩
      · intro h h1 h2
        omega
      · intro h h1 h2
        omega

theorem search_splits (up : Int → Option Bool) {q : α → Bool} (l : List α) (fuel : Nat)
    (hj : j = i + l.length) (hfuel : l.length < fuel)
    (hup : ∀ (k : Nat) x, l[k]? = some x → up (i + k) = some (q x))
    (hdown : l.Pairwise fun x y => q y = true → q x = true) :
    ∃ l₁ l₂, l = l₁ ++ l₂ ∧ search up fuel i j = some (i + l₁.length) ∧
      (∀ x ∈ l₁, q x = true) ∧ ∀ x ∈ l₂, q x = false := by
  have hplace : ∀ h, i ≤ h → h < j → ∃ (k : Nat) (hk : k < l.length), h = i + k ∧
      up h = some (q l[k]) := by
    intro h hi hh
    obtain ⟨k, rfl⟩ : ∃ k : Nat, h = i + k := ⟨(h - i).toNat, by omega⟩
    have hk : k < l.length := by omega
    exact ⟨k, hk, rfl, hup k _ (getElem?_eq_getElem hk)⟩
  have hdecides : ∀ h, i ≤ h → h < j → up h = some ((up h).getD false) := by
    intro h hi hh
    obtain ⟨k, hk, -, hup⟩ := hplace h hi hh
    rw [hup]
    rfl
  have hmono : ∀ h k, i ≤ h → h ≤ k → k < j → (up k).getD false = true →
      (up h).getD false = true := by
    intro h h' hi hle hh hp
    obtain ⟨k, hk, rfl, hup⟩ := hplace h hi (by omega)
    obtain ⟨k', hk', rfl, hup'⟩ := hplace h' (by omega) hh
    rw [hup'] at hp
    rw [hup]
    rcases Nat.eq_or_lt_of_le (show k ≤ k' by omega) with rfl | hlt
    · exact hp
    · exact (pairwise_iff_getElem.mp hdown) k k' hk hk' hlt hp
  obtain ⟨k, hsearch, hik, hkj, hbefore, hbehind⟩ :=
    search_finds fuel hdecides hmono (by omega) (by omega)
  refine ⟨l.take (k - i).toNat, l.drop (k - i).toNat, (take_append_drop _ _).symm, ?_, ?_, ?_⟩
  · rw [hsearch, length_take]
    congr 1
    omega
  · intro x hx
    obtain ⟨t, ht⟩ := getElem?_of_mem hx
    rw [getElem?_take] at ht
    split at ht
    · next hlt =>
        have hq := hbefore (i + t) (by omega) (by omega)
        rw [hup t x ht] at hq
        exact hq
    · cases ht
  · intro x hx
    obtain ⟨t, ht⟩ := getElem?_of_mem hx
    rw [getElem?_drop] at ht
    obtain ⟨hlt, -⟩ := List.getElem?_eq_some_iff.mp ht
    have hq := hbehind (i + ((k - i).toNat + t : Nat)) (by omega) (by omega)
    rw [hup _ x ht] at hq
    exact hq

-- ── The merge ────

section Merge

variable [IsStrictWeakOrder α fun x y => less x y = true]

/-- The search in the middle finds how the halves of the result begin and end: what is
    behind in the first run and in front in the second has to change places. -/
theorem search_middle {A X Y B : List α} (hX : InOrder less X) (hY : InOrder less Y)
    (hposX : 1 ≤ X.length) (hposY : 1 ≤ Y.length) {a m b mid start r : Int} (ha : a = A.length)
    (hm : m = a + X.length) (hb : b = m + Y.length) (hmid : mid = (a + b) / 2)
    (hstart : start = if m > mid then mid + m - b else a) (hr : r = if m > mid then mid else m)
    (fuel : Nat) (hfuel : X.length + Y.length < fuel) :
    ∃ X₁ X₂ Y₁ Y₂, X = X₁ ++ X₂ ∧ Y = Y₁ ++ Y₂ ∧ a + X₁.length + Y₁.length = mid ∧
      search (fun c => (lessAt less (A ++ (X ++ (Y ++ B))) (mid + m - 1 - c) c).map not) fuel start r
        = some (a + X₁.length) ∧
      (∀ x ∈ X₂, ∀ y ∈ Y₁, less y x = true) ∧ ∀ x ∈ X₁, ∀ y ∈ Y₂, less y x = false := by
  have hbounds : start = a ∧ m ≤ mid ∧ r = m ∨ start = mid + m - b ∧ mid < m ∧ r = mid := by
    by_cases hgt : m > mid
    · rw [if_pos hgt] at hstart hr
      exact Or.inr ⟨hstart, hgt, hr⟩
    · rw [if_neg hgt] at hstart hr
      exact Or.inl ⟨hstart, Int.not_lt.mp hgt, hr⟩
  have hplace : ∀ c, start ≤ c → c < r → ∃ (u v : Nat) (hu : u < X.length) (hv : v < Y.length),
      c = a + u ∧ mid - 1 - c = v ∧
      (lessAt less (A ++ (X ++ (Y ++ B))) (mid + m - 1 - c) c).map not = some (!less Y[v] X[u]) := by
    intro c hc hcr
    obtain ⟨u, rfl⟩ : ∃ u : Nat, c = a + u := ⟨(c - a).toNat, by omega⟩
    obtain ⟨v, hv⟩ : ∃ v : Nat, mid - 1 - (a + u) = v := ⟨(mid - 1 - (a + u)).toNat, by omega⟩
    have hu' : u < X.length := by omega
    have hv' : v < Y.length := by omega
    have hx : place (A ++ (X ++ (Y ++ B))) (a + u) = some X[u] :=
      place_in (by omega) (getElem?_eq_getElem hu')
    have hy : place (A ++ (X ++ (Y ++ B))) (mid + m - 1 - (a + u)) = some Y[v] := by
      rw [← append_assoc]
      refine place_in (k := v) ?_ (getElem?_eq_getElem hv')
      rw [length_append]
      omega
    refine ⟨u, v, hu', hv', rfl, hv, ?_⟩
    rw [lessAt, hx, hy]
    rfl
  have hdecides : ∀ c, start ≤ c → c < r →
      (lessAt less (A ++ (X ++ (Y ++ B))) (mid + m - 1 - c) c).map not =
        some (((lessAt less (A ++ (X ++ (Y ++ B))) (mid + m - 1 - c) c).map not).getD false) := by
    intro c hc hcr
    obtain ⟨u, v, hu, hv, -, -, hup⟩ := hplace c hc hcr
    rw [hup]
    rfl
  have hmono : ∀ c c', start ≤ c → c ≤ c' → c' < r →
      ((lessAt less (A ++ (X ++ (Y ++ B))) (mid + m - 1 - c') c').map not).getD false = true →
      ((lessAt less (A ++ (X ++ (Y ++ B))) (mid + m - 1 - c) c).map not).getD false = true := by
    intro c c' hc hle hcr hp
    obtain ⟨u, v, hu, hv, hcu, hcv, hup⟩ := hplace c hc (by omega)
    obtain ⟨u', v', hu', hv', hcu', hcv', hup'⟩ := hplace c' (by omega) hcr
    rw [hup', Option.getD_some, not_eq_true'] at hp
    rw [hup, Option.getD_some, not_eq_true']
    have hxu : less X[u'] X[u] = false := hX.le_of_le hu hu' (by omega)
    have hyv : less Y[v] Y[v'] = false := hY.le_of_le hv' hv (by omega)
    exact not_less_trans (not_less_trans hxu hp) hyv
  obtain ⟨k, hsearch, hik, hkj, hbefore, hbehind⟩ :=
    search_finds fuel hdecides hmono (by omega) (by omega)
  obtain ⟨w, rfl⟩ : ∃ w : Nat, k = a + w := ⟨(k - a).toNat, by omega⟩
  obtain ⟨z, hz⟩ : ∃ z : Nat, mid - (a + w) = z := ⟨(mid - (a + w)).toNat, by omega⟩
  have hw : (X.take w).length = w := by rw [length_take]; omega
  have hz' : (Y.take z).length = z := by rw [length_take]; omega
  refine ⟨X.take w, X.drop w, Y.take z, Y.drop z, (take_append_drop _ _).symm,
    (take_append_drop _ _).symm, by omega, by rw [hsearch, hw], ?_, ?_⟩
  · intro x hx y hy
    obtain ⟨u, hu, rfl⟩ := mem_drop_iff_getElem.mp hx
    obtain ⟨v, hv, rfl⟩ := mem_take_iff_getElem.mp hy
    obtain ⟨u', v', hu', hv', hcu, hcv, hup⟩ := hplace (a + w) (by omega) (by omega)
    have hp := hbehind (a + w) (Int.le_refl _) (by omega)
    rw [hup, Option.getD_some, not_eq_false'] at hp
    exact less_between (hY.le_of_le (by omega) hv' (by omega)) hp (hX.le_of_le hu' (by omega) (by omega))
  · intro x hx y hy
    obtain ⟨u, hu, rfl⟩ := mem_take_iff_getElem.mp hx
    obtain ⟨v, hv, rfl⟩ := mem_drop_iff_getElem.mp hy
    obtain ⟨u', v', hu', hv', hcu, hcv, hup⟩ := hplace (a + w - 1) (by omega) (by omega)
    have hp := hbefore (a + w - 1) (by omega) (by omega)
    rw [hup, Option.getD_some, not_eq_true'] at hp
    exact not_less_trans (not_less_trans (hX.le_of_le (by omega) hu' (by omega)) hp)
      (hY.le_of_le hv' (by omega) (by omega))

theorem merge_first {A Y B : List α} {x : α} (hY : InOrder less Y) {a m b : Int}
    (ha : a = A.length) (hm : m = a + 1) (hb : b = m + Y.length) (fuel : Nat) :
    ∃ Z, merge less (fuel + 1) (A ++ (x :: (Y ++ B))) a m b = some (A ++ (Z ++ B)) ∧
      InOrder less Z ∧ Stably less (x :: Y) Z := by
  have hlen : Y.length < (A ++ (x :: (Y ++ B))).length + 1 := by
    simp only [length_append, length_cons]
    omega
  have hread : ∀ (k : Nat) y, Y[k]? = some y →
      lessAt less (A ++ (x :: (Y ++ B))) (m + k) a = some (less y x) := by
    intro k y hy
    have hplace : place (A ++ ([x] ++ (Y ++ B))) (m + k) = some y := by
      rw [← append_assoc]
      refine place_in ?_ hy
      rw [length_append, length_singleton]
      omega
    rw [singleton_append] at hplace
    rw [lessAt, hplace, place_at ha]
    rfl
  have hdown : Y.Pairwise fun y y' => less y' x = true → less y x = true := by
    refine hY.imp ?_
    intro y y' hle h
    exact less_between hle h (less_irrefl x)
  obtain ⟨Y₁, Y₂, rfl, hsearch, hbefore, hbehind⟩ := search_splits
    (fun h => lessAt less (A ++ (x :: (Y ++ B))) h a) Y _ hb hlen hread hdown
  rw [append_assoc] at hsearch hlen ⊢
  refine ⟨Y₁ ++ x :: Y₂, ?_, ?_, ?_⟩
  · rw [merge, if_pos (by omega), hsearch]
    show moveUp (m + Y₁.length - 1) _ _ _ = _
    rw [moveUp_moves Y₁ _ ha (by omega) (by rw [length_append] at hlen; omega),
      append_assoc, cons_append]
  · refine hY.left.append ?_ ?_
    · refine pairwise_cons.mpr ⟨hbehind, hY.right⟩
    · intro y hy z hz
      rcases mem_cons.mp hz with rfl | hz
      · exact less_asymm (hbefore y hy)
      · exact hY.cross y hy z hz
  · have hexchange : Stably less ([x] ++ Y₁) (Y₁ ++ [x]) := by
      refine Stably.exchange ?_
      intro p hp q hq
      rw [mem_singleton.mp hp]
      exact hbefore q hq
    have hall := hexchange.append (Stably.refl Y₂)
    rw [append_assoc, append_assoc] at hall
    exact hall

theorem merge_last {A X B : List α} {y : α} (hX : InOrder less X) {a m b : Int}
    (ha : a = A.length) (hm : m = a + X.length) (hb : b = m + 1) (hone : X.length ≠ 1) (fuel : Nat) :
    ∃ Z, merge less (fuel + 1) (A ++ (X ++ (y :: B))) a m b = some (A ++ (Z ++ B)) ∧
      InOrder less Z ∧ Stably less (X ++ [y]) Z := by
  have hlen : X.length < (A ++ (X ++ (y :: B))).length + 1 := by
    simp only [length_append, length_cons]
    omega
  have hread : ∀ (k : Nat) x, X[k]? = some x →
      (lessAt less (A ++ (X ++ (y :: B))) m (a + k)).map not = some (!less y x) := by
    intro k x hx
    have hplace : place (A ++ (X ++ (y :: B))) m = some y := by
      rw [← append_assoc]
      exact place_at (by rw [length_append]; omega)
    rw [lessAt, hplace, place_in (by omega) hx]
    rfl
  have hdown : X.Pairwise fun x x' => (!less y x') = true → (!less y x) = true := by
    refine hX.imp ?_
    intro x x' hle h
    rw [not_eq_true'] at h ⊢
    exact not_less_trans hle h
  obtain ⟨X₁, X₂, rfl, hsearch, hbefore, hbehind⟩ := search_splits
    (fun h => (lessAt less (A ++ (X ++ (y :: B))) m h).map not) X _ hm hlen hread hdown
  rw [append_assoc] at hsearch hlen ⊢
  rw [length_append] at hm hone hlen
  have hmove : moveDown (a + X₁.length) ((A ++ (X₁ ++ (X₂ ++ y :: B))).length + 1)
      (A ++ (X₁ ++ (X₂ ++ y :: B))) m = some (A ++ (X₁ ++ y :: (X₂ ++ B))) := by
    have hmove := moveDown_moves X₂ ((A ++ (X₁ ++ (X₂ ++ y :: B))).length + 1) (A := A ++ X₁)
      (B := B) (y := y) (i := a + X₁.length) (k := m) (by rw [length_append]; omega) (by omega)
      (by omega)
    rw [append_assoc, append_assoc] at hmove
    exact hmove
  refine ⟨X₁ ++ y :: X₂, ?_, ?_, ?_⟩
  · rw [merge, if_neg (by omega), if_pos (by omega), hsearch]
    show moveDown (a + X₁.length) _ _ _ = _
    rw [hmove, append_assoc, cons_append]
  · refine hX.left.append ?_ ?_
    · refine pairwise_cons.mpr ⟨?_, hX.right⟩
      intro x hx
      have hless := hbehind x hx
      rw [not_eq_false'] at hless
      exact less_asymm hless
    · intro x hx z hz
      rcases mem_cons.mp hz with rfl | hz
      · have hless := hbefore x hx
        rw [not_eq_true'] at hless
        exact hless
      · exact hX.cross x hx z hz
  · have hexchange : Stably less (X₂ ++ [y]) ([y] ++ X₂) := by
      refine Stably.exchange ?_
      intro p hp q hq
      rw [mem_singleton.mp hq]
      have hless := hbehind p hp
      rw [not_eq_false'] at hless
      exact hless
    have hall := (Stably.refl X₁).append hexchange
    rw [← append_assoc] at hall
    exact hall

theorem ite_bind {β γ : Type} {p : Prop} [Decidable p] (x y : Option β) (f : β → Option γ) :
    (if p then x >>= f else y >>= f) = (if p then x else y) >>= f := by
  split <;> rfl

/-- **`merge`** makes one run of two. -/
theorem merge_sorts (fuel : Nat) {A X Y B : List α} (hX : InOrder less X) (hY : InOrder less Y)
    (hposX : 1 ≤ X.length) (hposY : 1 ≤ Y.length) {a m b : Int} (ha : a = A.length)
    (hm : m = a + X.length) (hb : b = m + Y.length) (hfuel : X.length + Y.length ≤ fuel) :
    ∃ Z, merge less fuel (A ++ (X ++ (Y ++ B))) a m b = some (A ++ (Z ++ B)) ∧
      InOrder less Z ∧ Stably less (X ++ Y) Z := by
  induction fuel generalizing A X Y B a m b with
  | zero => omega
  | succ fuel ih =>
    by_cases hone : X.length = 1
    · obtain ⟨x, rfl⟩ := length_eq_one_iff.mp hone
      exact merge_first hY ha hm hb fuel
    · by_cases hone' : Y.length = 1
      · obtain ⟨y, rfl⟩ := length_eq_one_iff.mp hone'
        exact merge_last hX ha hm hb hone fuel
      · -- The part of a half is empty where the half is not merged.
        have hpart : ∀ {A X Y B : List α} {a m b : Int}, InOrder less X → InOrder less Y →
            a = A.length → m = a + X.length → b = m + Y.length → X.length + Y.length ≤ fuel →
            ∃ Z, (if a < m ∧ m < b then merge less fuel (A ++ (X ++ (Y ++ B))) a m b
              else some (A ++ (X ++ (Y ++ B)))) = some (A ++ (Z ++ B)) ∧
              InOrder less Z ∧ Stably less (X ++ Y) Z := by
          intro A X Y B a m b hX hY ha hm hb hfuel
          by_cases hpos : a < m ∧ m < b
          · rw [if_pos hpos]
            exact ih hX hY (by omega) (by omega) ha hm hb hfuel
          · refine ⟨X ++ Y, by rw [if_neg hpos, append_assoc], ?_, Stably.refl _⟩
            by_cases hzero : X.length = 0
            · rw [length_eq_zero_iff.mp hzero]
              exact hY
            · have hzero' : Y.length = 0 := by omega
              rw [length_eq_zero_iff.mp hzero', append_nil]
              exact hX
        obtain ⟨X₁, X₂, Y₁, Y₂, rfl, rfl, hmid, hsearch, hless, hnot⟩ := search_middle (B := B) hX hY
          hposX hposY ha hm hb rfl rfl rfl ((A ++ (X ++ (Y ++ B))).length + 1)
          (by simp only [length_append]; omega)
        simp only [length_append] at hm hb hfuel hposX hposY hone hone'
        have hrotate : (if a + X₁.length < m ∧ m < (a + b) / 2 + m - (a + X₁.length) then
              rotate (A ++ (X₁ ++ (X₂ ++ (Y₁ ++ (Y₂ ++ B))))) (a + X₁.length) m
                ((a + b) / 2 + m - (a + X₁.length))
              else some (A ++ (X₁ ++ (X₂ ++ (Y₁ ++ (Y₂ ++ B))))))
            = some (A ++ (X₁ ++ (Y₁ ++ (X₂ ++ (Y₂ ++ B))))) := by
          split
          · have hexchange := rotate_exchanges (A := A ++ X₁) (U := X₂) (V := Y₁) (B := Y₂ ++ B)
              (a := a + X₁.length) (m := m) (b := (a + b) / 2 + m - (a + X₁.length)) (by omega)
              (by omega) (by rw [length_append]; omega) (by omega) (by omega)
            rw [append_assoc, append_assoc] at hexchange
            exact hexchange
          · by_cases hzero : X₂.length = 0
            · rw [length_eq_zero_iff.mp hzero]
              rfl
            · have hzero' : Y₁.length = 0 := by omega
              rw [length_eq_zero_iff.mp hzero']
              rfl
        obtain ⟨Z₁, hmerge₁, horder₁, hstable₁⟩ := hpart (A := A) (B := X₂ ++ (Y₂ ++ B))
          hX.left hY.left ha rfl hmid.symm (by omega)
        have hlen := hstable₁.length_eq
        rw [length_append] at hlen
        obtain ⟨Z₂, hmerge₂, horder₂, hstable₂⟩ := hpart (A := A ++ Z₁) (B := B)
          (a := (a + b) / 2) (m := (a + b) / 2 + m - (a + X₁.length)) (b := b)
          hX.right hY.right (by rw [length_append]; omega) (by omega) (by omega) (by omega)
        have hchoice : (if m > (a + b) / 2 then ((a + b) / 2 + m - b, (a + b) / 2) else (a, m))
            = (if m > (a + b) / 2 then (a + b) / 2 + m - b else a,
              if m > (a + b) / 2 then (a + b) / 2 else m) := by
          split <;> rfl
        refine ⟨Z₁ ++ Z₂, ?_, ?_, ?_⟩
        · rw [merge, if_neg (by omega), if_neg (by omega)]
          dsimp only
          rw [hchoice]
          dsimp only
          rw [hsearch]
          simp only [append_assoc] at hmerge₁ hmerge₂ ⊢
          show (if a + X₁.length < m ∧ m < (a + b) / 2 + m - (a + X₁.length) then _ >>= _
            else _ >>= _) = _
          rw [ite_bind, hrotate]
          show (if a < a + X₁.length ∧ a + X₁.length < (a + b) / 2 then _ >>= _ else _ >>= _) = _
          rw [ite_bind, hmerge₁]
          exact hmerge₂
        · refine horder₁.append horder₂ ?_
          intro x hx y hy
          have hx' := hstable₁.perm.mem_iff.mp hx
          have hy' := hstable₂.perm.mem_iff.mp hy
          rcases mem_append.mp hx' with hx' | hx' <;> rcases mem_append.mp hy' with hy' | hy'
          · exact hX.cross x hx' y hy'
          · exact hnot x hx' y hy'
          · exact less_asymm (hless y hy' x hx')
          · exact hY.cross x hx' y hy'
        · have hexchange : Stably less (X₂ ++ Y₁) (Y₁ ++ X₂) := Stably.exchange hless
          have hall := (Stably.refl X₁).append (hexchange.append (Stably.refl Y₂))
          have hhalves := hstable₁.append hstable₂
          simp only [append_assoc] at hall hhalves ⊢
          exact hall.trans hhalves

end Merge

-- ── Runs ────

/-- Runs in order, all of one length up to the last. -/
inductive Runs (less : α → α → Bool) (run : Nat) : List α → Prop where
  | last {l : List α} : l.length ≤ run → InOrder less l → Runs less run l
  | cons {r l : List α} : r.length = run → InOrder less r → Runs less run l → Runs less run (r ++ l)

theorem Runs.inOrder {run : Nat} {l : List α} (h : Runs less run l) (hl : l.length ≤ run) :
    InOrder less l := by
  cases h with
  | last _ horder => exact horder
  | @cons r l hr horder _ =>
    rw [length_append] at hl
    have hnil : l = [] := length_eq_zero_iff.mp (by omega)
    rw [hnil, append_nil]
    exact horder

theorem Runs.first {run : Nat} {l : List α} (h : Runs less run l) (hl : run ≤ l.length) :
    ∃ r k, l = r ++ k ∧ r.length = run ∧ InOrder less r ∧ Runs less run k := by
  cases h with
  | last hle horder =>
    exact ⟨l, [], (append_nil l).symm, Nat.le_antisymm hle hl, horder,
      .last (Nat.zero_le run) (inOrder_of_length (Nat.zero_le 1))⟩
  | @cons r k hr horder hk => exact ⟨r, k, rfl, hr, horder, hk⟩

-- ── Insertion ────

section Runs

variable [IsStrictWeakOrder α fun x y => less x y = true]

variable {A : List α} {a : Int}

/-- An element goes back into the elements in order in front of it. -/
theorem insertionBack_inserts (P : List α) (fuel : Nat) {B : List α} {x : α} (hP : InOrder less P)
    {j : Int} (ha : a = A.length) (hj : j = a + P.length) (hfuel : P.length < fuel) :
    ∃ Q, insertionBack less a fuel (A ++ (P ++ x :: B)) j = some (A ++ (Q ++ B)) ∧
      InOrder less Q ∧ Stably less (P ++ [x]) Q := by
  induction P using List.reverseRecOn generalizing B j fuel with
  | nil =>
    cases fuel with
    | zero => cases hfuel
    | succ fuel =>
      rw [length_nil] at hj
      refine ⟨[x], ?_, inOrder_of_length (Nat.le_refl 1), Stably.refl [x]⟩
      rw [insertionBack, if_neg (by omega)]
      rfl
  | append_singleton P y ih =>
    cases fuel with
    | zero => cases hfuel
    | succ fuel =>
      have hlen : (P ++ [y]).length = P.length + 1 := length_append
      rw [hlen] at hj hfuel
      have hstart : A ++ ((P ++ [y]) ++ x :: B) = (A ++ P) ++ y :: x :: B := by
        simp only [append_assoc, singleton_append]
      have hplace : place ((A ++ P) ++ y :: x :: B) (j - 1) = some y :=
        place_at (by rw [length_append]; omega)
      have hplace' : place ((A ++ P) ++ y :: ([] ++ x :: B)) j = some x :=
        place_behind (by rw [length_append, length_nil]; omega)
      have hread : lessAt less ((A ++ P) ++ y :: x :: B) j (j - 1) = some (less x y) := by
        rw [nil_append] at hplace'
        rw [lessAt, hplace', hplace]
        rfl
      rw [hstart, insertionBack, if_pos (by omega), hread]
      by_cases hxy : less x y = true
      · have hswap : swap ((A ++ P) ++ y :: ([] ++ x :: B)) j (j - 1)
            = some ((A ++ P) ++ x :: ([] ++ y :: B)) :=
          swap_back (by rw [length_append]; omega) (by rw [length_append, length_nil]; omega)
        obtain ⟨Q, hrun, hQ, hstable⟩ := ih fuel (B := y :: B) (j := j - 1) hP.left (by omega)
          (by omega)
        refine ⟨Q ++ [y], ?_, ?_, ?_⟩
        · show (if less x y = true then _ else _) = _
          rw [if_pos hxy]
          rw [nil_append, nil_append] at hswap
          rw [hswap]
          simp only [append_assoc, singleton_append]
          exact hrun
        · refine hQ.append (inOrder_of_length (Nat.le_refl 1)) ?_
          intro q hq z hz
          rw [mem_singleton.mp hz]
          rcases mem_append.mp (hstable.perm.mem_iff.mp hq) with hq | hq
          · exact hP.cross q hq y (mem_singleton_self y)
          · rw [mem_singleton.mp hq]
            exact less_asymm hxy
        · have hexchange : Stably less ([y] ++ [x]) ([x] ++ [y]) := by
            refine Stably.exchange ?_
            intro p hp q hq
            rw [mem_singleton.mp hp, mem_singleton.mp hq]
            exact hxy
          have hall := (Stably.refl P).append hexchange
          rw [← append_assoc, ← append_assoc] at hall
          exact hall.trans (hstable.append (Stably.refl [y]))
      · rw [not_eq_true] at hxy
        refine ⟨(P ++ [y]) ++ [x], ?_, ?_, Stably.refl _⟩
        · show (if less x y = true then _ else _) = _
          rw [hxy, if_neg Bool.false_ne_true]
          simp only [append_assoc, singleton_append]
          rfl
        · refine hP.append (inOrder_of_length (Nat.le_refl 1)) ?_
          intro p hp z hz
          rw [mem_singleton.mp hz]
          rcases mem_append.mp hp with hp | hp
          · exact not_less_trans (hP.cross p hp y (mem_singleton_self y)) hxy
          · rw [mem_singleton.mp hp]
            exact hxy

theorem insertionFrom_sorts (R : List α) (fuel : Nat) {P B : List α} (hP : InOrder less P)
    {b i : Int} (ha : a = A.length) (hi : i = a + P.length) (hb : b = i + R.length)
    (hfuel : R.length < fuel) :
    ∃ Q, insertionFrom less a b fuel (A ++ (P ++ (R ++ B))) i = some (A ++ (Q ++ B)) ∧
      InOrder less Q ∧ Stably less (P ++ R) Q := by
  induction R generalizing P i fuel with
  | nil =>
    cases fuel with
    | zero => cases hfuel
    | succ fuel =>
      rw [length_nil] at hb
      refine ⟨P, ?_, hP, by rw [append_nil]; exact Stably.refl P⟩
      rw [insertionFrom, if_neg (by omega)]
      rfl
  | cons x R ih =>
    cases fuel with
    | zero => cases hfuel
    | succ fuel =>
      rw [length_cons] at hb hfuel
      obtain ⟨Q, hback, hQ, hstable⟩ := insertionBack_inserts P
        ((A ++ (P ++ (x :: R ++ B))).length + 1) (A := A) (B := R ++ B) (x := x) hP ha hi
        (by simp only [length_append]; omega)
      have hlen := hstable.length_eq
      rw [length_append, length_singleton] at hlen
      obtain ⟨Q', hrest, hQ', hstable'⟩ := ih fuel (P := Q) (i := i + 1) hQ (by omega) (by omega)
        (by omega)
      refine ⟨Q', ?_, hQ', ?_⟩
      · rw [insertionFrom, if_pos (by omega), cons_append]
        rw [cons_append] at hback
        rw [hback]
        exact hrest
      · have hall := hstable.append (Stably.refl R)
        rw [append_assoc, singleton_append] at hall
        exact hall.trans hstable'

variable (less) in
/-- **`insertion`** sorts a part of the slice. -/
theorem insertion_sorts {L B : List α} {b : Int} (ha : a = A.length) (hb : b = a + L.length) :
    ∃ Q, insertion less (A ++ (L ++ B)) a b = some (A ++ (Q ++ B)) ∧ InOrder less Q ∧
      Stably less L Q := by
  cases L with
  | nil =>
    rw [length_nil] at hb
    refine ⟨[], ?_, inOrder_of_length (Nat.zero_le 1), Stably.refl []⟩
    rw [insertion, insertionFrom, if_neg (by omega)]
    rfl
  | cons x L =>
    rw [length_cons] at hb
    have hsort := insertionFrom_sorts L ((A ++ (x :: L ++ B)).length + 1) (A := A) (P := [x])
      (B := B) (a := a) (b := b) (i := a + 1)
      (inOrder_of_length (Nat.le_refl 1) : InOrder less [x]) ha rfl (by omega) (by simp only [length_append, length_cons]; omega)
    exact hsort

variable (less) in
theorem insertRuns_sorts (fuel : Nat) {R : List α} {n : Int} (ha : a = A.length)
    (hn : n = a + R.length) (hfuel : R.length < fuel) :
    ∃ (R' L : List α) (a' : Int), insertRuns less n fuel (A ++ R) a = some (A ++ (R' ++ L), a') ∧
      a' = a + R'.length ∧ L.length ≤ 20 ∧ Stably less R (R' ++ L) ∧
      ∀ l, Runs less 20 l → Runs less 20 (R' ++ l) := by
  induction fuel generalizing A R a with
  | zero => omega
  | succ fuel ih =>
    rw [insertRuns]
    by_cases hle : a + RUN ≤ n
    · have hrun : (20 : Int) = RUN := rfl
      obtain ⟨X, Y, rfl, hX⟩ : ∃ X Y, R = X ++ Y ∧ X.length = 20 :=
        ⟨_, _, (take_append_drop 20 R).symm, by rw [length_take]; omega⟩
      rw [length_append] at hn hfuel
      obtain ⟨Q, hsort, hQ, hstable⟩ := insertion_sorts less (A := A) (L := X) (B := Y)
        (a := a) (b := a + RUN) ha (by omega)
      have hlen := hstable.length_eq
      obtain ⟨R', L, a', hrest, ha', hL, hstable', hruns⟩ := ih (A := A ++ Q) (R := Y)
        (a := a + RUN) (by rw [length_append]; omega) (by omega) (by omega)
      refine ⟨Q ++ R', L, a', ?_, ?_, hL, ?_, ?_⟩
      · rw [if_pos hle, hsort]
        simp only [append_assoc] at hrest ⊢
        exact hrest
      · rw [length_append]
        omega
      · rw [append_assoc]
        exact hstable.append hstable'
      · intro l hl
        rw [append_assoc]
        exact .cons (hlen.trans hX) hQ (hruns l hl)
    · have hrun : (20 : Int) = RUN := rfl
      refine ⟨[], R, a, by rw [if_neg hle]; rfl, ?_, by omega, Stably.refl R, fun l hl => hl⟩
      rw [length_nil]
      omega

theorem mergeRuns_sorts (fuel : Nat) {R : List α} {run : Nat} (hpos : 1 ≤ run)
    (hR : Runs less run R) {n : Int} (ha : a = A.length) (hn : n = a + R.length)
    (hfuel : R.length < fuel) :
    ∃ (R' L : List α) (a' : Int), mergeRuns less n run fuel (A ++ R) a = some (A ++ (R' ++ L), a') ∧
      a' = a + R'.length ∧ L.length < 2 * run ∧ Runs less run L ∧ Stably less R (R' ++ L) ∧
      ∀ l, Runs less (2 * run) l → Runs less (2 * run) (R' ++ l) := by
  induction fuel generalizing A R a with
  | zero => omega
  | succ fuel ih =>
    rw [mergeRuns]
    by_cases hle : a + 2 * (run : Int) ≤ n
    · obtain ⟨X, R, rfl, hX, horderX, hR⟩ := hR.first (by omega)
      rw [length_append] at hn hfuel
      obtain ⟨Y, R, rfl, hY, horderY, hR⟩ := hR.first (by omega)
      rw [length_append] at hn hfuel
      obtain ⟨Z, hmerge, hZ, hstable⟩ := merge_sorts ((A ++ (X ++ (Y ++ R))).length + 1) (A := A)
        (B := R) (a := a) (m := a + run) (b := a + 2 * run) horderX horderY (by omega) (by omega)
        ha (by omega) (by omega) (by simp only [length_append]; omega)
      have hlen := hstable.length_eq
      rw [length_append] at hlen
      obtain ⟨R', L, a', hrest, ha', hL, hrunsL, hstable', hruns⟩ := ih (A := A ++ Z) (R := R)
        (a := a + 2 * run) hR (by rw [length_append]; omega) (by omega) (by omega)
      refine ⟨Z ++ R', L, a', ?_, ?_, hL, hrunsL, ?_, ?_⟩
      · rw [if_pos hle, hmerge]
        simp only [append_assoc] at hrest ⊢
        exact hrest
      · rw [length_append]
        omega
      · have hall := hstable.append hstable'
        simp only [append_assoc] at hall ⊢
        exact hall
      · intro l hl
        rw [append_assoc]
        exact .cons (by omega) hZ (hruns l hl)
    · refine ⟨[], R, a, by rw [if_neg hle]; rfl, ?_, by omega, hR, Stably.refl R, fun l hl => hl⟩
      rw [length_nil]
      omega

/-- The run that is left over is merged with the short one behind it. -/
theorem tail_sorts {L : List α} {run : Nat} (hpos : 1 ≤ run) (hL : Runs less run L)
    (hlen : L.length < 2 * run) {n : Int} (ha : a = A.length) (hn : n = a + L.length) (fuel : Nat)
    (hfuel : L.length ≤ fuel) :
    ∃ L', (if a + run < n then merge less fuel (A ++ L) a (a + run) n else some (A ++ L))
        = some (A ++ L') ∧ Runs less (2 * run) L' ∧ Stably less L L' := by
  by_cases hlt : a + (run : Int) < n
  · obtain ⟨X, Y, rfl, hX, horderX, hY⟩ := hL.first (by omega)
    rw [length_append] at hn hlen hfuel
    obtain ⟨Z, hmerge, hZ, hstable⟩ := merge_sorts fuel (A := A) (B := []) (a := a) (m := a + run)
      (b := n) horderX (hY.inOrder (by omega)) (by omega) (by omega) ha (by omega) (by omega) hfuel
    have hsame := hstable.length_eq
    rw [length_append] at hsame
    rw [append_nil, append_nil] at hmerge
    exact ⟨Z, by rw [if_pos hlt, hmerge], .last (by omega) hZ, hstable⟩
  · refine ⟨L, if_neg hlt, .last (by omega) (hL.inOrder (by omega)), Stably.refl L⟩

theorem passes_sorts (fuel run : Nat) {s : List α} (hpos : 1 ≤ run) (hs : Runs less run s)
    (hfuel : s.length ≤ run + fuel) :
    ∃ s', passes less s.length (fuel + 1) s run = some s' ∧ InOrder less s' ∧ Stably less s s' := by
  induction fuel generalizing s run with
  | zero =>
    refine ⟨s, ?_, hs.inOrder hfuel, Stably.refl s⟩
    rw [passes, if_neg (by omega)]
    rfl
  | succ fuel ih =>
    rw [passes]
    by_cases hlt : (run : Int) < s.length
    · obtain ⟨R, L, a, hmerge, ha, hlen, hL, hstable, hruns⟩ := mergeRuns_sorts (s.length + 1)
        (A := []) (R := s) (n := s.length) (a := 0) hpos hs rfl (by omega) (Nat.lt_succ_self _)
      have hsame := hstable.length_eq
      rw [length_append] at hsame
      obtain ⟨L', htail, hL', hstable'⟩ := tail_sorts (A := R) (n := s.length) hpos hL hlen
        (a := a) (by omega) (by omega) ((R ++ L).length + 1)
        (by rw [length_append]; omega)
      have hall := hstable.trans ((Stably.refl R).append hstable')
      obtain ⟨s', hrest, horder, hstable''⟩ := ih (2 * run) (s := R ++ L') (by omega)
        (hruns L' hL') (by rw [hall.length_eq]; omega)
      refine ⟨s', ?_, horder, hall.trans hstable''⟩
      rw [hall.length_eq] at hrest
      have hdouble : (run : Int) * 2 = ((2 * run : Nat) : Int) := by omega
      rw [nil_append, nil_append] at hmerge
      rw [if_pos hlt, hmerge, hdouble]
      show (if a + (run : Int) < s.length then _ >>= _ else _ >>= _) = _
      rw [ite_bind, htail]
      exact hrest
    · exact ⟨s, if_neg hlt, hs.inOrder (by omega), Stably.refl s⟩

/-- **`sort_stable`** ends, uses indices inside the slice only, and leaves the slice a
    permutation that is in order, in which the elements that tie stand as they stood. -/
theorem sort_stable_sorts (less : α → α → Bool) [IsStrictWeakOrder α fun x y => less x y = true]
    (s : List α) :
    ∃ s', sortStable less s = some s' ∧ s'.Perm s ∧ InOrder less s' ∧
      ∀ x, s'.filter (tie less x) = s.filter (tie less x) := by
  obtain ⟨R, L, a, hinsert, ha, hlen, hstable, hruns⟩ := insertRuns_sorts less
    (s.length + 1) (A := []) (R := s) (n := s.length) (a := 0) rfl (by omega) (Nat.lt_succ_self _)
  have hsame := hstable.length_eq
  rw [length_append] at hsame
  obtain ⟨Q, hsort, hQ, hstable'⟩ := insertion_sorts less (A := R) (L := L) (B := [])
    (a := a) (b := s.length) (by omega) (by omega)
  have hlen' := hstable'.length_eq
  have hall := hstable.trans ((Stably.refl R).append hstable')
  obtain ⟨s', hpasses, horder, hstable''⟩ := passes_sorts s.length 20 (s := R ++ Q)
    (by decide) (hruns Q (.last (by omega) hQ)) (by rw [hall.length_eq]; omega)
  have hwhole := hall.trans hstable''
  refine ⟨s', ?_, hwhole.perm, horder, hwhole.ties⟩
  rw [nil_append, nil_append] at hinsert
  rw [append_nil, append_nil] at hsort
  rw [hall.length_eq] at hpasses
  have hsize : (R ++ Q).length + 1 = s.length + 1 := by rw [hall.length_eq]
  rw [sortStable, hinsert]
  show (do
    let s₁ ← insertion less (R ++ L) a s.length
    passes less s.length (s₁.length + 1) s₁ RUN) = _
  rw [hsort]
  show passes less s.length ((R ++ Q).length + 1) (R ++ Q) RUN = _
  rw [hsize]
  exact hpasses

/-- More pairs than one run of the sort, each first part on several of them. -/
def pairs : List (Nat × Nat) := (List.range 45).map fun i => (7 * i % 10, i)

theorem sort_stable_pairs : ∃ s', sortStable (fun x y : Nat × Nat => decide (x.1 < y.1)) pairs =
        some s' ∧
      s'.Perm pairs ∧ InOrder (fun x y : Nat × Nat => decide (x.1 < y.1)) s' ∧
      ∀ x, s'.filter (tie (fun x y : Nat × Nat => decide (x.1 < y.1)) x) =
        pairs.filter (tie (fun x y : Nat × Nat => decide (x.1 < y.1)) x) := by
  have horder : IsStrictWeakOrder (Nat × Nat) fun x y => decide (x.1 < y.1) = true := by
    simp only [decide_eq_true_eq]
    refine { irrefl := fun x => Nat.lt_irrefl x.1, trans := fun _ _ _ => Nat.lt_trans,
             incomp_trans := ?_ }
    intro x y z h h'
    omega
  exact sort_stable_sorts _ _

end Runs

end AnticStableSort
