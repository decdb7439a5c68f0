import Mathlib.Data.Finset.Card
import Mathlib.Data.Fintype.Card
import Mathlib.Data.Nat.Find
import Mathlib.Data.Nat.Bitwise

/-! # Walks over a finite table — cyclic probing and partial orbits

    Two searches that end because their table is finite.

    * `probe` walks a table of `size` places from a home place, cyclically, up
      to the first empty place or the first entry that `hit` accepts.  While one
      place is empty the walk ends (`probe_spec`), and `ProbeAt` says where.
    * `orbit` follows a partial function.  What it reaches among `n` elements it
      reaches in fewer than `n` steps (`orbit_short`). -/

namespace FiniteWalk

open List Function Nat

variable {E : Type*}

/-! ## Probing -/

/-- Walk from `i` to the first place that is empty or that `hit` accepts. -/
def probe (table : Nat → Option E) (hit : E → Bool) (size : Nat) : Nat → Nat → Nat
  | 0, i => i
  | fuel + 1, i =>
    match table i with
    | none => i
    | some e =>
      if hit e then i else probe table hit size fuel ((i + 1) % size)

/-- A place where the walk for `hit` stops. -/
def Stops (table : Nat → Option E) (hit : E → Bool) (i : Nat) : Prop :=
  ∀ e, table i = some e → hit e = true

/-- The walk from `home` stops after exactly `d` steps, at `p`. -/
structure ProbeAt (table : Nat → Option E) (hit : E → Bool)
    (size home d p : Nat) : Prop where
  place : p = (home + d) % size
  passed : ∀ e, e < d → ¬ Stops table hit ((home + e) % size)
  stops : Stops table hit p

variable {table : Nat → Option E} {hit : E → Bool} {size home d p : Nat}

theorem ProbeAt.unique {d' p' : Nat} (h : ProbeAt table hit size home d p)
    (h' : ProbeAt table hit size home d' p') : p = p' := by
  have hd : d = d' := by
    rcases Nat.lt_trichotomy d d' with hlt | heq | hgt
    · exact absurd (h.place ▸ h.stops) (h'.passed d hlt)
    · exact heq
    · exact absurd (h'.place ▸ h'.stops) (h.passed d' hgt)
  rw [h.place, h'.place, hd]

/-- With fuel for `d` steps, `probe` gives the place where the walk stops. -/
theorem probe_eq_of_probeAt : ∀ {fuel d home p : Nat}, home < size → d < fuel →
      ProbeAt table hit size home d p → probe table hit size fuel home = p := by
  intro fuel
  induction fuel with
  | zero => intro d home p _ hd; exact absurd hd (Nat.not_lt_zero d)
  | succ fuel ih =>
    intro d home p hhome hd h
    have hmod : home % size = home := mod_eq_of_lt hhome
    cases d with
    | zero =>
      have hp : p = home := by rw [h.place, Nat.add_zero, hmod]
      subst hp
      cases he : table p with
      | none => simp [probe, he]
      | some e => simp [probe, he, h.stops e he]
    | succ d =>
      have h0 := h.passed 0 (succ_pos d)
      rw [Nat.add_zero, hmod] at h0
      have hnot : ∃ e, table home = some e ∧ hit e = false := by
        simpa [Stops] using h0
      obtain ⟨e, he, hhit⟩ := hnot
      have hstep : probe table hit size (fuel + 1) home
          = probe table hit size fuel ((home + 1) % size) := by
        simp [probe, he, hhit]
      rw [hstep]
      have hsize : 0 < size := by omega
      have hshift : ∀ k, ((home + 1) % size + k) % size = (home + (k + 1)) % size := by
        intro k
        rw [mod_add_mod]
        congr 1
        omega
      refine ih (mod_lt _ hsize) (lt_of_succ_lt_succ hd) ?_
      refine ⟨?_, ?_, h.stops⟩
      · rw [hshift d]; exact h.place
      · intro k hk
        rw [hshift k]
        exact h.passed (k + 1) (succ_lt_succ hk)

/-- Every place lies ahead of every home, at a distance below `size`. -/
theorem exists_distance (hhome : home < size) (hp : p < size) :
    ∃ d, d < size ∧ (home + d) % size = p := by
  by_cases hle : home ≤ p
  · refine ⟨p - home, by omega, ?_⟩
    rw [Nat.add_sub_cancel' hle]
    exact mod_eq_of_lt hp
  · refine ⟨size - home + p, by omega, ?_⟩
    have hsum : home + (size - home + p) = p + size := by omega
    rw [hsum, add_mod_right]
    exact mod_eq_of_lt hp

theorem exists_probeAt (hit : E → Bool) (hhome : home < size) (hp : p < size)
    (hempty : table p = none) : ∃ d q, d < size ∧ ProbeAt table hit size home d q := by
  classical
  obtain ⟨d₀, hd₀, hplace⟩ := exists_distance hhome hp
  have hstop : Stops table hit ((home + d₀) % size) := by
    intro e he
    rw [hplace, hempty] at he
    exact nomatch he
  have hex : ∃ d, Stops table hit ((home + d) % size) := ⟨d₀, hstop⟩
  refine ⟨Nat.find hex, (home + Nat.find hex) % size, ?_, rfl, ?_, Nat.find_spec hex⟩
  · exact Nat.lt_of_le_of_lt (Nat.find_min' hex hstop) hd₀
  · intro e he
    exact Nat.find_min hex he

/-- **THE WALK ENDS**: with one empty place and fuel for `size` steps, `probe`
    gives the place where the walk stops. -/
theorem probe_spec (hit : E → Bool) (hhome : home < size) (hp : p < size)
    (hempty : table p = none) :
    ∃ d, ProbeAt table hit size home d (probe table hit size size home) := by
  obtain ⟨d, q, hd, hq⟩ := exists_probeAt hit hhome hp hempty
  rw [probe_eq_of_probeAt hhome hd hq]
  exact ⟨d, hq⟩

theorem ProbeAt.lt (h : ProbeAt table hit size home d p) (hhome : home < size) :
    p < size := by
  rw [h.place]
  exact mod_lt _ (Nat.lt_of_le_of_lt (Nat.zero_le _) hhome)

/-- A walk that stopped at an entry stops there again after a write to a place it did not pass. -/
theorem ProbeAt.update {q : Nat} {e : Option E} (h : ProbeAt table hit size home d p)
    (hq : table q = none) (hocc : table p ≠ none) :
    ProbeAt (update table q e) hit size home d p := by
  have hne : p ≠ q := fun hpq => hocc (hpq ▸ hq)
  refine ⟨h.place, ?_, ?_⟩
  · intro k hk
    have hpass := h.passed k hk
    have hkq : (home + k) % size ≠ q := by
      intro heq
      apply hpass
      intro e' he'
      rw [heq, hq] at he'
      exact nomatch he'
    intro hs
    apply hpass
    intro e' he'
    apply hs e'
    rw [update_of_ne hkq]
    exact he'
  · intro e' he'
    rw [update_of_ne hne] at he'
    exact h.stops e' he'

theorem exists_empty (table : Nat → Option E) (size : Nat)
    (h : ((Finset.range size).filter (fun i => (table i).isSome)).card < size) :
    ∃ p, p < size ∧ table p = none := by
  by_contra hno
  have hfull : (Finset.range size).filter (fun i => (table i).isSome) = Finset.range size := by
    rw [Finset.filter_eq_self]
    intro i hi
    rw [Option.isSome_iff_ne_none]
    intro hi'
    exact hno ⟨i, Finset.mem_range.mp hi, hi'⟩
  rw [hfull, Finset.card_range] at h
  exact Nat.lt_irrefl _ h

theorem card_update_le (table : Nat → Option E) (size p : Nat) (e : Option E) :
    ((Finset.range size).filter (fun i => (update table p e i).isSome)).card
      ≤ ((Finset.range size).filter (fun i => (table i).isSome)).card + 1 := by
  have hsub : (Finset.range size).filter (fun i => (update table p e i).isSome)
      ⊆ insert p ((Finset.range size).filter (fun i => (table i).isSome)) := by
    intro i hi
    rw [Finset.mem_filter] at hi
    by_cases hip : i = p
    · exact Finset.mem_insert.mpr (Or.inl hip)
    · rw [update_of_ne hip] at hi
      exact Finset.mem_insert.mpr (Or.inr (Finset.mem_filter.mpr hi))
  exact Nat.le_trans (Finset.card_le_card hsub) (Finset.card_insert_le _ _)

/-- Place `p` is reached from `home` before any empty place. -/
def Reached (table : Nat → Option E) (size home p : Nat) : Prop :=
  ∃ d, d < size ∧ p = (home + d) % size ∧ ∀ e, e < d → table ((home + e) % size) ≠ none

theorem Reached.mono {table' : Nat → Option E} (h : Reached table size home p)
    (hsub : ∀ i, table i ≠ none → table' i ≠ none) : Reached table' size home p := by
  obtain ⟨d, hd, hp, hpassed⟩ := h
  exact ⟨d, hd, hp, fun e he => hsub _ (hpassed e he)⟩

theorem ProbeAt.reached (h : ProbeAt table hit size home d p) (hd : d < size) :
    Reached table size home p := by
  refine ⟨d, hd, h.place, fun e he hnone => h.passed e he ?_⟩
  intro x hx
  rw [hnone] at hx
  exact nomatch hx

/-- **A reached place is found**, where it is the only one that the walk looks for. -/
theorem Reached.probeAt (h : Reached table size home p) (hstop : Stops table hit p)
    (huniq : ∀ q e, q < size → table q = some e → hit e = true → q = p) :
    ∃ d, d < size ∧ ProbeAt table hit size home d p := by
  classical
  obtain ⟨d, hd, hp, hpassed⟩ := h
  have hex : ∃ d, Stops table hit ((home + d) % size) := ⟨d, hp ▸ hstop⟩
  have hle : Nat.find hex ≤ d := Nat.find_min' hex (hp ▸ hstop)
  have hplace : p = (home + Nat.find hex) % size := by
    rcases Nat.lt_or_eq_of_le hle with hlt | heq
    · obtain ⟨e, he⟩ := Option.ne_none_iff_exists'.mp (hpassed _ hlt)
      have hsize : 0 < size := by omega
      exact (huniq _ e (mod_lt _ hsize) he (Nat.find_spec hex e he)).symm
    · rw [heq]
      exact hp
  refine ⟨Nat.find hex, by omega, hplace, fun e he => Nat.find_min hex he, ?_⟩
  rw [hplace]
  exact Nat.find_spec hex

/-! ## Entries filed one after the other -/

/-- What holds of a table after the entries `ids` went in one by one, each at the first empty place
    from its home: a walk for entries of one home finds the first of them that went in. -/
structure Filed (home : Nat → Nat) (size : Nat) (ids : List Nat)
    (table : Nat → Option Nat) : Prop where
  sound : ∀ p i, table p = some i → i ∈ ids
  found : ∀ h (hit : Nat → Bool), h < size → (∀ i ∈ ids, hit i = true → home i = h) →
    ∃ d p, ProbeAt table hit size h d p ∧ table p = ids.find? hit

theorem Filed.empty (home : Nat → Nat) (size : Nat) :
    Filed home size [] fun _ => none := by
  refine ⟨fun p i h => absurd h (by simp), fun h hit hlt _ =>
    ⟨0, h, ⟨(mod_eq_of_lt hlt).symm, ?_, ?_⟩, rfl⟩⟩
  · exact fun e he => absurd he (Nat.not_lt_zero e)
  · exact fun e he => absurd he (by simp)

theorem ProbeAt.none_of_never (h : ProbeAt table (fun _ => false) size home d p) :
    table p = none := by
  cases hp : table p with
  | none => rfl
  | some e => exact absurd (h.stops e hp) (by simp)

/-- An entry put where its probe ends cuts off no other probe. -/
theorem Filed.put {home : Nat → Nat} {ids : List Nat} {table : Nat → Option Nat}
    (h : Filed home size ids table) {j : Nat}
    (hat : ProbeAt table (fun _ => false) size (home j) d p) {q : Nat} (hq : q < size)
    (hempty : update table p (some j) q = none) :
    Filed home size (ids ++ [j]) (update table p (some j)) := by
  have hp : table p = none := hat.none_of_never
  have hsound : ∀ r i, update table p (some j) r = some i →
      i ∈ ids ++ [j] := by
    intro r i hr
    by_cases hrp : r = p
    · subst hrp
      rw [update_self] at hr
      exact mem_append_right _ (by simp [Option.some.inj hr])
    · rw [update_of_ne hrp] at hr
      exact mem_append_left _ (h.sound r i hr)
  refine ⟨hsound, fun hm hit hlt hhome => ?_⟩
  obtain ⟨e, r, hprobe, hr⟩ := h.found hm hit hlt fun i hi => hhome i (mem_append_left _ hi)
  cases hfind : ids.find? hit with
  | some i =>
    -- What was found before is found again.
    rw [hfind] at hr
    have hne : r ≠ p := by
      rintro rfl
      rw [hp] at hr
      exact nomatch hr
    refine ⟨e, r, hprobe.update hp (by rw [hr]; simp), ?_⟩
    rw [update_of_ne hne, hr, find?_append, hfind]
    rfl
  | none =>
    rw [hfind] at hr
    by_cases hj : hit j = true
    · -- The new entry is the first: it went in where the walk had stopped.
      have hhj : home j = hm := hhome j (by simp) hj
      have hrp : r = p := by
        refine @ProbeAt.unique _ _ (fun _ => false) _ _ e _ _ _ ?_ (hhj ▸ hat)
        refine ⟨hprobe.place, fun k hk hs => hprobe.passed k hk ?_, ?_⟩
        · intro x hx
          exact absurd (hs x hx) (by simp)
        · intro x hx
          rw [hr] at hx
          exact nomatch hx
      subst hrp
      refine ⟨e, r, ⟨hprobe.place, fun k hk hs => ?_, ?_⟩, ?_⟩
      · have hk' := hprobe.passed k hk
        have hne : (hm + k) % size ≠ r := by
          intro heq
          refine hk' fun x hx => ?_
          rw [heq, hr] at hx
          exact nomatch hx
        refine hk' fun x hx => hs x ?_
        rw [update_of_ne hne]
        exact hx
      · intro x hx
        rw [update_self] at hx
        rw [← Option.some.inj hx]
        exact hj
      · rw [update_self, find?_append, hfind]
        simp [hj]
    · -- No entry is looked for: the walk ends at an empty place.
      obtain ⟨e', hprobe'⟩ := probe_spec hit hlt hq hempty
      refine ⟨e', _, hprobe', ?_⟩
      rw [find?_append, hfind]
      cases hs : update table p (some j) (probe (update table p (some j)) hit size size hm) with
      | none => simp [hj]
      | some i =>
        have hhit := hprobe'.stops i hs
        rcases mem_append.mp (hsound _ i hs) with hi | hi
        · rw [find?_eq_none] at hfind
          exact absurd hhit (hfind i hi)
        · rw [mem_singleton.mp hi] at hhit
          exact absurd hhit hj

/-! ## Orbits -/

/-- The element `k` steps after `i`. -/
def orbit (up : Nat → Option Nat) : Nat → Nat → Option Nat
  | 0, i => some i
  | k + 1, i => (up i).bind (orbit up k)

theorem orbit_add (up : Nat → Option Nat) :
    ∀ a b i, orbit up (a + b) i = (orbit up a i).bind (orbit up b) := by
  intro a
  induction a with
  | zero => intro b i; simp [orbit]
  | succ a ih =>
    intro b i
    rw [succ_add]
    show (up i).bind (orbit up (a + b)) = ((up i).bind (orbit up a)).bind _
    cases up i with
    | none => rfl
    | some j => exact ih b j

/-- **SHORT ORBITS**: among `n` elements, what an orbit reaches it reaches in
    fewer than `n` steps. -/
theorem orbit_short {up : Nat → Option Nat} {n : Nat}
    (hup : ∀ i j, up i = some j → j < n) {i j k : Nat} (hi : i < n)
    (h : orbit up k i = some j) : ∃ k', k' < n ∧ orbit up k' i = some j := by
  classical
  have hex : ∃ k, orbit up k i = some j := ⟨k, h⟩
  let m := Nat.find hex
  have hm : orbit up m i = some j := Nat.find_spec hex
  refine ⟨m, ?_, hm⟩
  by_contra hle
  have hn : n ≤ m := Nat.le_of_not_lt hle
  -- every element up to step `m` exists and lies below `n`
  have hdef : ∀ a, a ≤ m → ∃ x, orbit up a i = some x ∧ x < n := by
    intro a ha
    induction a with
    | zero => exact ⟨i, rfl, hi⟩
    | succ a ih =>
      obtain ⟨x, hx, -⟩ := ih (by omega)
      have hsplit : orbit up m i = (orbit up (a + 1) i).bind (orbit up (m - (a + 1))) := by
        rw [← orbit_add]
        congr 1
        omega
      cases hy : orbit up (a + 1) i with
      | none => rw [hy, hm] at hsplit; exact nomatch hsplit
      | some y =>
        refine ⟨y, rfl, ?_⟩
        rw [orbit_add up a 1, hx] at hy
        have hxy : up x = some y := by simpa [orbit] using hy
        exact hup x y hxy
  -- two of the first `n + 1` agree, so the orbit to `j` can be cut short
  have hcard : (Finset.range n).card < (Finset.range (n + 1)).card := by simp
  obtain ⟨a, ha, b, hb, hab, heq⟩ :=
    Finset.exists_ne_map_eq_of_card_lt_of_maps_to hcard
      (f := fun a => (orbit up a i).getD 0) (by
        intro a ha
        have ha' : a ≤ m := by
          have := Finset.mem_range.mp ha
          omega
        obtain ⟨x, hx, hxn⟩ := hdef a ha'
        simpa [hx] using hxn)
  rw [Finset.mem_range] at ha hb
  have cut : ∀ a b, a < b → b ≤ m → (orbit up a i).getD 0 = (orbit up b i).getD 0 → False := by
    intro a b hlt hbm hval
    obtain ⟨x, hx, -⟩ := hdef a (by omega)
    obtain ⟨y, hy, -⟩ := hdef b hbm
    have hxy : x = y := by simpa [hx, hy] using hval
    have hrest : orbit up (m - b) y = some j := by
      have hsplit : orbit up m i = (orbit up b i).bind (orbit up (m - b)) := by
        rw [← orbit_add]
        congr 1
        omega
      rw [hm, hy] at hsplit
      exact hsplit.symm
    have hshort : orbit up (a + (m - b)) i = some j := by
      rw [orbit_add, hx, hxy]
      exact hrest
    have := Nat.find_min' hex hshort
    omega
  rcases Nat.lt_or_gt_of_ne hab with hlt | hgt
  · exact cut a b hlt (by omega) heq
  · exact cut b a hgt (by omega) heq.symm

end FiniteWalk
