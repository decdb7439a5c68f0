import Antic.FiniteWalk

/-! # What the two hash tables share — `map.anti`

    A hash is mixed with the seed of its table and carries the bit `LIVE`, so that it is neither the
    mark of an empty bucket nor that of a removed one.  A probe starts at the low bits of the hash
    and goes on bucket by bucket.

    A function of the library that stops the program gives a `Stop`.  A probe has as much fuel as
    there are buckets; one that has seen them all and stops nowhere would go round for ever. -/

namespace AnticCollection

open FiniteWalk List

/-- How a call ends that does not return. -/
inductive Stop where
  /-- `anti_rt_out_of_memory`: a size that no `int` holds. -/
  | memory
  /-- `no_element`. -/
  | noElement
  /-- A `catch fatal` of a room that is not there. -/
  | fatal
  /-- A loop that does not end. -/
  | endless
  deriving DecidableEq, Repr

/-- The greatest `int`. -/
def intMax : Nat := 9223372036854775807

/-- `collection.room_times`. -/
def roomTimes (a b : Nat) : Except Stop Nat :=
  if a * b ≤ intMax then .ok (a * b) else .error .memory

/-- `collection.room_plus`. -/
def roomPlus (a b : Nat) : Except Stop Nat :=
  if a + b ≤ intMax then .ok (a + b) else .error .memory

/-- `aligned`. -/
def aligned (n unit : Nat) : Except Stop Nat := do
  let sum ← roomPlus n (unit - 1)
  return sum / unit * unit

/-- `FIRST_BUCKETS`. -/
def firstBuckets : Nat := 16

/-- Double `size` until it is `want`, with the turns left.  Sixty-four turns leave
    the range of an `int`. -/
def doubled (want : Nat) : Nat → Nat → Except Stop Nat
  | 0, _ => .error .endless
  | turns + 1, size =>
    if size < want then do
      let size ← roomTimes size 2
      doubled want turns size
    else .ok size

/-- The mark of an empty bucket. -/
def emptyMark : UInt64 := 0

/-- `REMOVED`. -/
def removedMark : UInt64 := 1

/-- `LIVE`. -/
def liveBit : UInt64 := 0x8000000000000000

/-- `anti_rt_hash_mix`: the hash of a `u64`. -/
def hashMix (x : UInt64) : UInt64 :=
  let x := (x ^^^ (x >>> 33)) * 0xff51afd7ed558ccd
  let x := (x ^^^ (x >>> 33)) * 0xc4ceb9fe1a85ec53
  x ^^^ (x >>> 33)

/-- `lang.seeded`. -/
def seeded (hash seed : UInt64) : UInt64 := hashMix (hash ^^^ hashMix seed)

/-- `marked`. -/
def marked (seed hash : UInt64) : UInt64 := seeded hash seed ||| liveBit

/-- The bucket where the probe of a marked hash starts. -/
def homeOf (h : UInt64) (mask : Nat) : Nat := h.toNat &&& mask

/-- The loop of every probe: from bucket `i` on to the first that is empty or where
    the probe stops. -/
def seek (marks : Nat → UInt64) (stop : Nat → Bool) (mask : Nat) : Nat → Nat → Except Stop Nat
  | 0, _ => .error .endless
  | fuel + 1, i =>
    if marks i = emptyMark ∨ stop i then .ok i
    else seek marks stop mask fuel ((i + 1) &&& mask)

/-! ## Live marks -/

/-- A mark that is neither that of an empty bucket nor that of a removed one. -/
def LiveMark (h : UInt64) : Prop := h ≠ emptyMark ∧ h ≠ removedMark

instance (h : UInt64) : Decidable (LiveMark h) := inferInstanceAs (Decidable (_ ∧ _))

theorem liveMark_marked (seed hash : UInt64) : LiveMark (marked seed hash) := by
  have hbit : (marked seed hash).toNat.testBit 63 = true := by
    rw [marked, UInt64.toNat_or, Nat.testBit_or]
    have : liveBit.toNat.testBit 63 = true := by decide
    rw [this, Bool.or_true]
  constructor
  · intro h
    rw [h] at hbit
    exact absurd hbit (by decide)
  · intro h
    rw [h] at hbit
    exact absurd hbit (by decide)

/-! ## The probe as a walk -/

/-- The buckets that are not empty, each as itself. -/
def cells (marks : Nat → UInt64) (i : Nat) : Option Nat :=
  if marks i = emptyMark then none else some i

theorem cells_eq_none {marks : Nat → UInt64} {i : Nat} :
    cells marks i = none ↔ marks i = emptyMark := by
  unfold cells
  by_cases h : marks i = emptyMark
  · simp
  · simp

theorem cells_eq_some {marks : Nat → UInt64} {i j : Nat} :
    cells marks i = some j ↔ marks i ≠ emptyMark ∧ j = i := by
  unfold cells
  by_cases h : marks i = emptyMark
  · simp [h]
  · simp [eq_comm]

/-- Bucket `p` is reached from the bucket of the hash `h` before any empty one. -/
def ReachedFrom (marks : Nat → UInt64) (size : Nat) (h : UInt64) (p : Nat) : Prop :=
  Reached (cells marks) size (h.toNat % size) p

theorem ReachedFrom.update {marks : Nat → UInt64} {size p q : Nat} {h m : UInt64}
    (hr : ReachedFrom marks size h p) (hm : m ≠ emptyMark) :
    ReachedFrom (Function.update marks q m) size h p := by
  refine hr.mono fun i hi => ?_
  rw [Ne, cells_eq_none] at hi ⊢
  by_cases hq : i = q
  · subst hq
    rw [Function.update_self]
    exact hm
  · rw [Function.update_of_ne hq]
    exact hi

theorem and_mask {k : Nat} (x : Nat) : x &&& (2 ^ k - 1) = x % 2 ^ k :=
  Nat.and_two_pow_sub_one_eq_mod x k

/-- Where the walk stops after `d` steps, the probe gives its place. -/
theorem seek_of_probeAt {marks : Nat → UInt64} {stop : Nat → Bool} {k : Nat} :
    ∀ {fuel d home p : Nat}, home < 2 ^ k → d < fuel → ProbeAt (cells marks) stop (2 ^ k) home d p →
      seek marks stop (2 ^ k - 1) fuel home = .ok p := by
  intro fuel
  induction fuel with
  | zero => intro d home p _ hd; exact absurd hd (Nat.not_lt_zero d)
  | succ fuel ih =>
    intro d home p hhome hd h
    have hmod : home % 2 ^ k = home := Nat.mod_eq_of_lt hhome
    have hstops : Stops (cells marks) stop home ↔ (marks home = emptyMark ∨ stop home = true) := by
      unfold Stops
      by_cases he : marks home = emptyMark
      · simp [cells, he]
      · simp [cells, he]
    cases d with
    | zero =>
      have hp : p = home := by rw [h.place, Nat.add_zero, hmod]
      subst hp
      rw [seek, if_pos (hstops.1 h.stops)]
    | succ d =>
      have h0 := h.passed 0 (Nat.succ_pos d)
      rw [Nat.add_zero, hmod, hstops] at h0
      have hshift : ∀ e, ((home + 1) % 2 ^ k + e) % 2 ^ k = (home + (e + 1)) % 2 ^ k := by
        intro e
        rw [Nat.mod_add_mod]
        congr 1
        omega
      rw [seek, if_neg h0, and_mask]
      refine ih (Nat.mod_lt _ (Nat.two_pow_pos k)) (Nat.lt_of_succ_lt_succ hd) ?_
      refine ⟨?_, fun e he => ?_, h.stops⟩
      · rw [hshift d]
        exact h.place
      · rw [hshift e]
        exact h.passed (e + 1) (Nat.succ_lt_succ he)

section Seek

variable {marks : Nat → UInt64} {k : Nat}

theorem homeOf_eq {h : UInt64} : homeOf h (2 ^ k - 1) = h.toNat % 2 ^ k := and_mask _

/-- **Every probe of a table with an empty bucket ends**, at a bucket that it
    reaches and where it stops. -/
theorem seek_ends (h : UInt64) (stop : Nat → Bool) {p : Nat} (hp : p < 2 ^ k) (hempty : marks p = emptyMark) :
    ∃ q, seek marks stop (2 ^ k - 1) (2 ^ k) (homeOf h (2 ^ k - 1)) = .ok q ∧
      q < 2 ^ k ∧ ReachedFrom marks (2 ^ k) h q ∧
      (marks q = emptyMark ∨ stop q = true) := by
  have hhome : h.toNat % 2 ^ k < 2 ^ k := Nat.mod_lt _ (Nat.two_pow_pos k)
  obtain ⟨d, q, hd, hq⟩ := exists_probeAt stop hhome hp (cells_eq_none.2 hempty)
  rw [homeOf_eq]
  refine ⟨q, seek_of_probeAt hhome hd hq, hq.lt hhome, hq.reached hd, ?_⟩
  by_cases he : marks q = emptyMark
  · exact Or.inl he
  · exact Or.inr (hq.stops q (cells_eq_some.2 ⟨he, rfl⟩))

/-- **A probe finds what it looks for**, where one bucket alone stops it. -/
theorem seek_finds {h : UInt64} (stop : Nat → Bool) {p : Nat} (hr : ReachedFrom marks (2 ^ k) h p)
    (hstop : stop p = true)
    (huniq : ∀ q, q < 2 ^ k → marks q ≠ emptyMark → stop q = true → q = p) :
    seek marks stop (2 ^ k - 1) (2 ^ k) (homeOf h (2 ^ k - 1)) = .ok p := by
  have hhome : h.toNat % 2 ^ k < 2 ^ k := Nat.mod_lt _ (Nat.two_pow_pos k)
  have hstops : Stops (cells marks) stop p := by
    intro e he
    rw [(cells_eq_some.1 he).2]
    exact hstop
  obtain ⟨d, hd, hat⟩ := hr.probeAt hstops fun q e hq he hhit => by
    obtain ⟨hne, rfl⟩ := cells_eq_some.1 he
    exact huniq e hq hne hhit
  rw [homeOf_eq]
  exact seek_of_probeAt hhome hd hat

end Seek

/-! ## Calls that return, or stop for want of memory -/

/-- The call gives a value of which `P` holds, or it stops the program for want of memory. -/
def Yields {α : Type*} (r : Except Stop α) (P : α → Prop) : Prop :=
  (∃ a, r = .ok a ∧ P a) ∨ r = .error .memory

theorem Yields.pure {α : Type*} {P : α → Prop} {a : α} (h : P a) :
    Yields (.ok a) P :=
  Or.inl ⟨a, rfl, h⟩

theorem Yields.mono {α : Type*} {r : Except Stop α} {P Q : α → Prop}
    (h : Yields r P) (hPQ : ∀ a, P a → Q a) : Yields r Q := by
  rcases h with ⟨a, ha, hP⟩ | he
  · exact Or.inl ⟨a, ha, hPQ a hP⟩
  · exact Or.inr he

theorem Yields.bind {α β : Type*} {r : Except Stop α} {f : α → Except Stop β}
    {P : α → Prop} {Q : β → Prop} (h : Yields r P)
    (hf : ∀ a, P a → Yields (f a) Q) : Yields (Except.bind r f) Q := by
  rcases h with ⟨a, rfl, hP⟩ | rfl
  · exact hf a hP
  · exact Or.inr rfl

theorem Yields.of_ok {α : Type*} {r : Except Stop α} {P : α → Prop} {a : α}
    (h : Yields r P) (hr : r = .ok a) : P a := by
  rcases h with ⟨b, hb, hP⟩ | he
  · rw [hr] at hb
    cases hb
    exact hP
  · rw [hr] at he
    cases he

/-! ## Sizes -/

theorem roomTimes_ok {a b n : Nat} (h : roomTimes a b = .ok n) :
    n = a * b ∧ a * b ≤ intMax := by
  unfold roomTimes at h
  split at h
  · cases h
    exact ⟨rfl, by assumption⟩
  · cases h

theorem doubled_ok {want : Nat} : ∀ {turns size n : Nat},
    doubled want turns size = .ok n →
    want ≤ n ∧ size ≤ n ∧ ((∃ k, size = 2 ^ k) → ∃ k, n = 2 ^ k) := by
  intro turns
  induction turns with
  | zero => intro size n h; cases h
  | succ turns ih =>
    intro size n h
    rw [doubled] at h
    split at h
    · cases hr : roomTimes size 2 with
      | error e => rw [hr] at h; cases h
      | ok next =>
        rw [hr] at h
        obtain ⟨rfl, _⟩ := roomTimes_ok hr
        obtain ⟨h1, h2, h3⟩ := ih h
        refine ⟨h1, by omega, fun ⟨k, hk⟩ => h3 ⟨k + 1, ?_⟩⟩
        rw [hk, Nat.pow_succ]
    · cases h
      exact ⟨by omega, Nat.le_refl _, fun hk => hk⟩

theorem doubled_error {want : Nat} : ∀ {turns size : Nat} {e : Stop},
    doubled want turns size = .error e → 0 < size → size ≤ intMax →
    intMax < size * 2 ^ turns → e = .memory := by
  intro turns
  induction turns with
  | zero => intro size e _ _ hle hlt; omega
  | succ turns ih =>
    intro size e h hpos _ hlt
    rw [doubled] at h
    split at h
    · cases hr : roomTimes size 2 with
      | error e' =>
        rw [hr] at h
        unfold roomTimes at hr
        split at hr
        · cases hr
        · cases hr
          cases h
          rfl
      | ok next =>
        rw [hr] at h
        obtain ⟨rfl, hle⟩ := roomTimes_ok hr
        refine ih h (by omega) hle ?_
        calc intMax < size * (2 ^ turns * 2) := hlt
          _ = size * 2 * 2 ^ turns := by rw [Nat.mul_comm (2 ^ turns), Nat.mul_assoc]
    · cases h

theorem roomTimes_yields (a b : Nat) :
    Yields (roomTimes a b) fun n => n = a * b ∧ n ≤ intMax := by
  unfold roomTimes
  split
  · exact .pure ⟨rfl, by assumption⟩
  · exact Or.inr rfl

theorem roomPlus_yields (a b : Nat) :
    Yields (roomPlus a b) fun n => n = a + b ∧ n ≤ intMax := by
  unfold roomPlus
  split
  · exact .pure ⟨rfl, by assumption⟩
  · exact Or.inr rfl

theorem aligned_yields (n unit : Nat) : Yields (aligned n unit) fun _ => True :=
  (roomPlus_yields n (unit - 1)).bind fun _ _ => .pure trivial

theorem doubled_yields {want size : Nat} (hpos : 0 < size) (hle : size ≤ intMax) :
    Yields (doubled want 64 size)
      fun n => want ≤ n ∧ size ≤ n ∧ ((∃ k, size = 2 ^ k) → ∃ k, n = 2 ^ k) := by
  cases h : doubled want 64 size with
  | ok n => exact .pure (doubled_ok h)
  | error e =>
    have hlt : intMax < size * 2 ^ 64 :=
      Nat.lt_of_lt_of_le (by decide : intMax < 1 * 2 ^ 64) (Nat.mul_le_mul_right _ hpos)
    rw [doubled_error h hpos hle hlt]
    exact Or.inr rfl

/-! ## Lists of positions -/

theorem range_split {i n : Nat} (hi : i < n) :
    List.range n = List.range i ++ i :: List.range' (i + 1) (n - (i + 1)) := by
  have hn : n = i + ((n - (i + 1)) + 1) := by omega
  conv_lhs => rw [hn, range_add]
  congr 1
  rw [range_succ_eq_map, map_cons, List.map_map, range'_eq_map_range]
  congr 1
  refine map_congr_left fun j _ => ?_
  simp only [Function.comp_apply]
  omega

/-- The first position of a run that is accepted, then the rest of the run. -/
theorem filter_range'_of_find {p : Nat → Bool} :
    ∀ {n i q : Nat}, (List.range' i n).find? p = some q →
      q < i + n ∧ i ≤ q ∧ (List.range' i n).filter p =
        q :: (List.range' (q + 1) (i + n - (q + 1))).filter p := by
  intro n
  induction n with
  | zero => intro i q h; exact nomatch h
  | succ n ih =>
    intro i q h
    rw [range'_succ] at h ⊢
    by_cases hi : p i = true
    · rw [find?_cons_of_pos hi] at h
      cases h
      refine ⟨by omega, Nat.le_refl _, ?_⟩
      rw [filter_cons_of_pos hi]
      congr 3
      omega
    · rw [find?_cons_of_neg hi] at h
      obtain ⟨h1, h2, h3⟩ := ih h
      refine ⟨by omega, by omega, ?_⟩
      rw [filter_cons_of_neg hi, h3]
      congr 3
      omega

end AnticCollection
