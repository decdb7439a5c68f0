import Antic.BytePatches

/-! # Which patches take the places of the original data

    A write that changes the bytes that the walk looks for, with another place to be written behind
    it, is seen in what the walk leaves.  Take the first such write, and the two walks behind it:
    one at the greedy places of the bytes as they were, one at the places of the bytes as they are.
    Were the data that they leave the same, the first byte that they change would be the same, and
    the bytes that the write put into what the walk looks for would stand there already, since the
    place written and what the walk looks for overlap and held the same bytes. -/

namespace AnticPattern

open ListWalks List

-- ── Two walks from one write ────

theorem exists_least {p : ℕ → Prop} (h : ∃ i, p i) : ∃ i, p i ∧ ∀ j, p j → i ≤ j := by
  classical
  exact ⟨Nat.find h, Nat.find_spec h, fun j hj => Nat.find_min' h hj⟩

theorem exists_greatest {p : ℕ → Prop} {bound : ℕ} (h : ∃ i, p i)
    (hbound : ∀ i, p i → i < bound) : ∃ i, p i ∧ ∀ j, p j → j ≤ i := by
  obtain ⟨d, ⟨i, hi, hd⟩, hleast⟩ := exists_least (p := fun d => ∃ i, p i ∧ i + d = bound) <| by
    obtain ⟨i, hi⟩ := h
    exact ⟨bound - i, i, hi, Nat.add_sub_cancel' (hbound i hi).le⟩
  refine ⟨i, hi, fun j hj => ?_⟩
  have hlt := hbound j hj
  have := hleast (bound - j) ⟨j, hj, Nat.add_sub_cancel' hlt.le⟩
  omega

/-- An index that a write reaches, and at which it changes the byte that stands at `a`. -/
def Altered (bytes : Bytes) (offset : ℕ) (memory : Memory) (a i : ℕ) : Prop :=
  Reached bytes offset i ∧ memory (a + i) ≠ byteAt bytes offset i

section Alter

variable {memory : Memory} {bytes : Bytes} {data : Region} {offset length p : ℕ} {places : List ℕ}
  {other : Memory} {a : ℕ}

/-- The writes change a byte of the first place that they alter. -/
theorem writeAll_altered (hfits : offset + bytes.length ≤ length) (hapart : Apart length places)
    (hp : p ∈ places) (hnow : ∀ u < length, memory (data.start + p + u) = other (a + u)) {i : ℕ}
    (hi : Altered bytes offset other a i) :
    writeAll memory bytes data offset places (data.start + p + i) ≠
      memory (data.start + p + i) := by
  have hlt := hi.1.2
  rw [writeAll_reached hfits hapart hp hi.1, hnow i (by omega)]
  exact hi.2.symm

/-- They change none before the least one that they alter. -/
theorem writeAll_least (hfits : offset + bytes.length ≤ length)
    (hapart : Apart length (p :: places))
    (hnow : ∀ u < length, memory (data.start + p + u) = other (a + u)) {i x : ℕ}
    (hi : Altered bytes offset other a i) (hleast : ∀ j, Altered bytes offset other a j → i ≤ j)
    (hx : writeAll memory bytes data offset (p :: places) x ≠ memory x) :
    data.start + p + i ≤ x := by
  obtain ⟨q, hq, j, hj, rfl, heq⟩ := writeAll_changed hfits hapart hx
  have hlt := hi.1.2
  rcases mem_cons.mp hq with rfl | hq
  · rw [heq, hnow j (by have := hj.2; omega)] at hx
    have := hleast j ⟨hj, hx.symm⟩
    omega
  · have := (pairwise_cons.mp hapart).1 q hq
    omega

end Alter

/-- A walk that writes what its bytes already hold changes nothing. -/
theorem Writes.fixed {data find bytes : Region} {offset start : ℕ} {memory after : Memory}
    {places : List ℕ} (hfits : offset + bytes.length ≤ find.length)
    (h : Writes data find bytes offset memory start places after)
    (hnone : ∀ i, ¬ Altered (bytes.bytes memory) offset memory find.start i) :
    after = memory := by
  induction h with
  | done => rfl
  | write memory start i rest after hi _ _ ih =>
    have hsame : copyTo memory (data.start + i + offset) (bytes.bytes memory) = memory := by
      funext x
      by_cases hx : ∃ j, Reached (bytes.bytes memory) offset j ∧ x = data.start + i + j
      · obtain ⟨j, hj, rfl⟩ := hx
        have hlt := hj.2
        rw [Region.length_bytes] at hlt
        rw [copyTo_reached memory hj, stands_bytes hi.stands (by omega)]
        by_contra hne
        exact hnone j ⟨hj, fun heq => hne heq.symm⟩
      · exact copyTo_else memory fun j hj heq => hx ⟨j, hj, heq⟩
    rw [hsame] at ih
    exact ih hnone

/-- A byte of `find` that a write changed: the write put it at an index of its place, and
    `find` held it at that index as well. -/
theorem written {memory later : Memory} {data find : Region} {bytes : Bytes} {offset q : ℕ}
    (hfits : offset + bytes.length ≤ find.length)
    (hhere : ∀ u < find.length, memory (data.start + q + u) = memory (find.start + u))
    (hlater : later = copyTo memory (data.start + q + offset) bytes) {u : ℕ}
    (hu : later (find.start + u) ≠ memory (find.start + u)) :
    ∃ v, Reached bytes offset v ∧ find.start + u = data.start + q + v ∧
      later (find.start + u) = byteAt bytes offset v ∧
      memory (find.start + u) = memory (find.start + v) := by
  by_contra hnone
  refine hu ?_
  rw [hlater]
  refine copyTo_else memory fun v hv heq => hnone ⟨v, hv, heq, ?_, ?_⟩
  · rw [heq, hlater]
    exact copyTo_reached memory hv
  · have hlt := hv.2
    rw [heq, hhere v (by omega)]

/-- **Two walks behind one write.**  The write at `q` has changed `memory` into `later`.  One
    walk goes on at places of the bytes as they were, the other at places of the bytes as
    they are, and both leave the same. -/
structure TwoWalks (memory later after : Memory) (data find : Region) (bytes : Bytes)
    (offset q q₁ p₁ : ℕ) (Q ps : List ℕ) : Prop where
  fits : offset + bytes.length ≤ find.length
  here : ∀ u < find.length, memory (data.start + q + u) = memory (find.start + u)
  later_eq : later = copyTo memory (data.start + q + offset) bytes
  apart : Apart find.length (q :: q₁ :: Q)
  apart' : Apart find.length (q :: p₁ :: ps)
  stands : ∀ r ∈ q₁ :: Q, ∀ u < find.length, later (data.start + r + u) = memory (find.start + u)
  stands' : ∀ u < find.length, later (data.start + p₁ + u) = later (find.start + u)
  next' : ∀ p₂ ∈ ps.head?, ∀ u < find.length,
    copyTo later (data.start + p₁ + offset) bytes (data.start + p₂ + u) =
      copyTo later (data.start + p₁ + offset) bytes (find.start + u)
  left : after = writeAll later bytes data offset (q₁ :: Q)
  left' : after = writeAll later bytes data offset (p₁ :: ps)

namespace TwoWalks

variable {memory later after : Memory} {data find : Region} {bytes : Bytes}
  {offset q q₁ p₁ i₀ i₁ : ℕ} {Q ps : List ℕ}

/-- A byte that the first walk changes, where a place of it stands. -/
theorem changed (w : TwoWalks memory later after data find bytes offset q q₁ p₁ Q ps) {r i : ℕ}
    (hr : r ∈ q₁ :: Q) (hi : Altered bytes offset memory find.start i) :
    after (data.start + r + i) = byteAt bytes offset i ∧
      later (data.start + r + i) ≠ byteAt bytes offset i ∧
      ∃ p ∈ p₁ :: ps, ∃ j, Reached bytes offset j ∧ r + i = p + j ∧
        byteAt bytes offset i = byteAt bytes offset j := by
  have hq := (pairwise_cons.mp w.apart).2
  have hp := (pairwise_cons.mp w.apart').2
  have hlt := hi.1.2
  have hfits := w.fits
  have hafter : after (data.start + r + i) = byteAt bytes offset i := by
    rw [w.left]
    exact writeAll_reached w.fits hq hr hi.1
  have hlater : later (data.start + r + i) ≠ byteAt bytes offset i := by
    rw [w.stands r hr i (by omega)]
    exact hi.2
  refine ⟨hafter, hlater, ?_⟩
  have hne : writeAll later bytes data offset (p₁ :: ps) (data.start + r + i) ≠
      later (data.start + r + i) := by
    rw [← w.left', hafter]
    exact hlater.symm
  obtain ⟨p, hp', j, hj, heq, hbyte⟩ := writeAll_changed w.fits hp hne
  refine ⟨p, hp', j, hj, by omega, ?_⟩
  rw [← hafter, w.left', hbyte]

variable (w : TwoWalks memory later after data find bytes offset q q₁ p₁ Q ps)
  (h₀ : Altered bytes offset memory find.start i₀)
  (hleast₀ : ∀ j, Altered bytes offset memory find.start j → i₀ ≤ j)
  (h₁ : Altered bytes offset later find.start i₁)
  (hleast₁ : ∀ j, Altered bytes offset later find.start j → i₁ ≤ j)
include w h₀ hleast₀ h₁ hleast₁

/-- The two walks change one byte first. -/
theorem first_eq : q₁ + i₀ = p₁ + i₁ := by
  have hq := (pairwise_cons.mp w.apart).2
  have hp := (pairwise_cons.mp w.apart').2
  have hstands := w.stands q₁ (mem_cons_self ..)
  have hle := writeAll_least w.fits hp w.stands' h₁ hleast₁ (x := data.start + q₁ + i₀) <| by
    rw [← w.left', w.left]
    exact writeAll_altered w.fits hq (mem_cons_self ..) hstands h₀
  have hge := writeAll_least w.fits hq hstands h₀ hleast₀ (x := data.start + p₁ + i₁) <| by
    rw [← w.left, w.left']
    exact writeAll_altered w.fits hp (mem_cons_self ..) w.stands' h₁
  omega

/-- The second walk does not go ahead of the first. -/
theorem not_lt : ¬ q₁ < p₁ := by
  intro hlt
  have hfirst := w.first_eq h₀ hleast₀ h₁ hleast₁
  have hfits := w.fits
  have hbound : ∀ i, Altered bytes offset memory find.start i → i < find.length :=
    fun i hi => by have := hi.1.2; omega
  -- `find` stands behind `q`
  have hold₁ : memory (find.start + i₁) = byteAt bytes offset i₁ := by
    by_contra hne
    have := hleast₀ i₁ ⟨h₁.1, hne⟩
    omega
  obtain ⟨v, hv, hplace, hlater, hmem⟩ :=
    written w.fits w.here w.later_eq (u := i₁) (by rw [hold₁]; exact h₁.2)
  have hbehind : i₁ < v := by
    have hne : memory (find.start + v) ≠ byteAt bytes offset v := by
      rw [← hmem, hold₁, ← hlater]
      exact h₁.2.symm
    have := hleast₀ v ⟨hv, hne⟩
    omega
  -- the last byte that the first walk changes at `q₁`
  obtain ⟨l, hl, hgreatest⟩ := exists_greatest ⟨i₀, h₀⟩ hbound
  have hllt := hbound l hl
  have hsame : later (find.start + l) = byteAt bytes offset l := by
    by_contra hne
    have hq := (pairwise_cons.mp w.apart).2
    have hp := (pairwise_cons.mp w.apart').2
    have hchange := writeAll_altered w.fits hp (mem_cons_self ..) w.stands' ⟨hl.1, hne⟩
    rw [← w.left', w.left] at hchange
    obtain ⟨r, hr, t, ht, heq, hbyte⟩ := writeAll_changed w.fits hq hchange
    have htlt := ht.2
    have haltered : Altered bytes offset memory find.start t := by
      refine ⟨ht, ?_⟩
      rw [hbyte, heq, w.stands r hr t (by omega)] at hchange
      exact hchange.symm
    rcases mem_cons.mp hr with rfl | hr
    · have := hgreatest t haltered
      omega
    · have := (pairwise_cons.mp hq).1 r hr
      have := hleast₀ t haltered
      omega
  obtain ⟨v', hv', hplace', hlater', hmem'⟩ :=
    written w.fits w.here w.later_eq (u := l) (by rw [hsame]; exact hl.2.symm)
  have := hgreatest v' ⟨hv', by rw [← hmem', ← hlater', hsame]; exact hl.2⟩
  omega

/-- The second walk does not fall behind the first. -/
theorem not_gt : ¬ p₁ < q₁ := by
  intro hlt
  have hfirst := w.first_eq h₀ hleast₀ h₁ hleast₁
  have hfits := w.fits
  have hbound : ∀ i, Altered bytes offset memory find.start i → i < find.length :=
    fun i hi => by have := hi.1.2; omega
  have hagrees : ∀ i, Reached bytes offset i → i < i₁ →
      later (find.start + i) = byteAt bytes offset i := by
    intro i hi hilt
    by_contra hne
    have := hleast₁ i ⟨hi, hne⟩
    omega
  -- `find` stands behind `q` and before `p₁`
  have hnew₀ := hagrees i₀ h₀.1 (by omega)
  obtain ⟨v, hv, hplace, hlater, hmem⟩ :=
    written w.fits w.here w.later_eq (u := i₀) (by rw [hnew₀]; exact h₀.2.symm)
  have hbehind : i₀ ≤ v := hleast₀ v ⟨hv, by rw [← hmem, ← hlater, hnew₀]; exact h₀.2⟩
  have hp₁ : q + find.length ≤ p₁ := (pairwise_cons.mp w.apart').1 p₁ (mem_cons_self ..)
  have hpairs := (pairwise_cons.mp w.apart').2
  have hvlt := hv.2
  have hi₁ := h₁.1.2
  -- the last byte that the first walk changes at `q₁` falls into a place of the second
  obtain ⟨l, hl, hgreatest⟩ := exists_greatest ⟨i₀, h₀⟩ hbound
  have hllt := hbound l hl
  obtain ⟨hafter, hne, p, hp, j, hj, heq, hbyte⟩ := w.changed (mem_cons_self ..) hl
  have hjlt := hj.2
  rcases mem_cons.mp hp with rfl | hp
  · -- the first place: `q` gave `find` a byte that it had
    have hold : memory (find.start + j) = byteAt bytes offset j := by
      by_contra hne'
      have := hgreatest j ⟨hj, hne'⟩
      omega
    have hnew : later (find.start + j) ≠ byteAt bytes offset j := by
      rw [← w.stands' j (by omega), ← hbyte, Nat.add_assoc, ← heq, ← Nat.add_assoc]
      exact hne
    obtain ⟨v', hv', hplace', hlater', hmem'⟩ :=
      written w.fits w.here w.later_eq (u := j) (by rw [hold]; exact hnew)
    have hold' : memory (find.start + v') = byteAt bytes offset v' := by
      by_contra hne'
      have := hgreatest v' ⟨hv', hne'⟩
      omega
    rw [hlater', ← hold', ← hmem', hold] at hnew
    exact hnew rfl
  · -- a later place: it is the second, and `p₁` changed `find` where the two agreed
    obtain ⟨p₂, rest, rfl⟩ := exists_cons_of_ne_nil (ne_nil_of_mem hp)
    obtain ⟨hp₂, hrest⟩ := pairwise_cons.mp hpairs
    have hp₂' := hp₂ p₂ (mem_cons_self ..)
    have hsecond : p = p₂ := by
      rcases mem_cons.mp hp with rfl | hp
      · rfl
      · have := (pairwise_cons.mp hrest).1 p hp
        omega
    subst hsecond
    have hagreesj := hagrees j hj (by omega)
    have hcopy : copyTo later (data.start + p₁ + offset) bytes (data.start + p + j) ≠
        byteAt bytes offset j := by
      rw [copyTo_else, ← hbyte, Nat.add_assoc, ← heq, ← Nat.add_assoc]
      · exact hne
      · rintro i ⟨-, hilt⟩
        omega
    rw [w.next' p rfl j (by omega)] at hcopy
    by_cases hin : ∃ i, Reached bytes offset i ∧ find.start + j = data.start + p₁ + i
    · obtain ⟨i, hi, hplacei⟩ := hin
      have hilt := hi.2
      rw [hplacei, copyTo_reached later hi] at hcopy
      refine hcopy ?_
      rw [← hagreesj, hplacei, w.stands' i (by omega), hagrees i hi (by omega)]
    · rw [copyTo_else later fun i hi heq' => hin ⟨i, hi, heq'⟩] at hcopy
      exact hcopy hagreesj

end TwoWalks

-- ── The walk and the greedy places ────

section Patch

variable {data find bytes : Region} {offset : ℕ} {memory after : Memory} {Q R places : List ℕ}

/-- What stands behind a place stands there after the write. -/
theorem greedyFrom_write {find' : Bytes} {q : ℕ} {P : List ℕ} {w : Bytes}
    (hfits : offset + w.length ≤ find.length)
    (h : GreedyFrom (data.bytes memory) find' (q + find.length) P) :
    GreedyFrom (data.bytes (copyTo memory (data.start + q + offset) w)) find' (q + find.length) P :=
  h.congr (drop_bytes_copyTo memory data (by omega))

/-- **A write that changes what the walk looks for is seen.**  Where another place is to be
    written behind it, the walk does not leave what the greedy places ask for. -/
theorem bytes_kept (hfits : offset + bytes.length ≤ find.length)
    {w : Bytes} (hw : w = bytes.bytes memory) {q q₁ : ℕ} {later : Memory}
    (hlater : later = copyTo memory (data.start + q + offset) w)
    (hkept : bytes.bytes later = w)
    (hq : Stands (data.bytes memory) (find.bytes memory) q)
    (hgreedy : GreedyFrom (data.bytes later) (find.bytes memory) (q + find.length) (q₁ :: Q ++ R))
    (hwrites : Writes data find bytes offset later (q + find.length) places after)
    (hafter : after = writeAll later w data offset (q₁ :: Q)) :
    find.bytes later = find.bytes memory := by
  have hlength : w.length = bytes.length := by rw [hw, Region.length_bytes]
  rw [← hlength] at hfits
  by_contra hne
  obtain ⟨u, hu, hdiff⟩ : ∃ u < find.length, later (find.start + u) ≠ memory (find.start + u) := by
    by_contra hnone
    push Not at hnone
    exact hne (Region.bytes_congr rfl hnone)
  have hhere : ∀ u < find.length, memory (data.start + q + u) = memory (find.start + u) :=
    fun u hu => stands_bytes hq hu
  have hstands : ∀ r ∈ q₁ :: Q, ∀ u < find.length,
      later (data.start + r + u) = memory (find.start + u) := fun r hr u hu =>
    stands_bytes (hgreedy.stands r (mem_append_left R hr)).2 hu
  have hapart : Apart find.length (q :: q₁ :: Q) := by
    have hpairs := hgreedy.pairwise.sublist (sublist_append_left (q₁ :: Q) R)
    rw [Region.length_bytes] at hpairs
    exact pairwise_cons.mpr ⟨fun r hr => (hgreedy.stands r (mem_append_left R hr)).1, hpairs⟩
  -- the first walk changes a byte at its first place, so the second changes one
  obtain ⟨v, hv, -, hnew, hold⟩ := written hfits hhere hlater hdiff
  have hex₀ : ∃ i, Altered w offset memory find.start i :=
    ⟨v, hv, by rw [← hold, ← hnew]; exact hdiff.symm⟩
  obtain ⟨i₀, h₀, hleast₀⟩ := exists_least hex₀
  have hchanged : after ≠ later := fun heq => by
    have hne : writeAll later w data offset (q₁ :: Q) (data.start + q₁ + i₀) ≠
        later (data.start + q₁ + i₀) :=
      writeAll_altered hfits (pairwise_cons.mp hapart).2 (mem_cons_self ..)
        (hstands q₁ (mem_cons_self ..)) h₀
    exact hne (by rw [← hafter, heq])
  have hex₁ : ∃ i, Altered w offset later find.start i := by
    by_contra hnone
    push Not at hnone
    exact hchanged (hwrites.fixed (hlength ▸ hfits) (by rwa [hkept]))
  obtain ⟨i₁, h₁, hleast₁⟩ := exists_least hex₁
  have hstart := hwrites.start_le
  have hplaces := hwrites.apart
  have hall := hwrites.eq_writeAll
  cases hwrites with
  | done => exact hchanged rfl
  | write _ _ p₁ ps _ hi hmeets hrest =>
    have hwalks : TwoWalks memory later after data find w offset q q₁ p₁ Q ps :=
      { fits := hfits, here := hhere, later_eq := hlater, apart := hapart
        apart' := pairwise_cons.mpr ⟨hstart, hplaces⟩
        stands := hstands
        stands' := fun u hu => stands_bytes hi.stands hu
        next' := by
          intro p₂ hp₂ u hu
          rw [hkept] at hrest
          cases hrest with
          | done => cases hp₂
          | write _ _ p _ _ hi₂ =>
            obtain rfl := Option.some.inj hp₂
            exact stands_bytes hi₂.stands hu
        left := hafter
        left' := by rw [hall, hkept] }
    rcases lt_trichotomy q₁ p₁ with hlt | rfl | hgt
    · exact hwalks.not_lt h₀ hleast₀ h₁ hleast₁ hlt
    · exact hdiff ((hwalks.stands' u hu).symm.trans (hstands q₁ (mem_cons_self ..) u hu))
    · exact hwalks.not_gt h₀ hleast₀ h₁ hleast₁ hgt

/-- The writes at places as a walk needs them that reads its regions again.  `bytes` shares no
    address with a place that is written, as `memcpy` asks, `find` holds before each write
    what it held before the first, and where the limit leaves room, what it holds after the
    last stands nowhere behind. -/
structure Undisturbed (memory : Memory) (data find bytes : Region) (offset : ℕ) (limit : ℤ)
    (Q : List ℕ) : Prop where
  apart : ∀ q ∈ Q, ¬ bytes.Meets ⟨data.start + q + offset, bytes.length⟩
  steady : ∀ k < Q.length,
    find.bytes (writeAll memory (bytes.bytes memory) data offset (Q.take k)) = find.bytes memory
  last : limit ≤ 0 ∨ (Q.length : ℤ) < limit → ∀ j, (∀ q ∈ Q, q + find.length ≤ j) →
    ¬ Stands (data.bytes (writeAll memory (bytes.bytes memory) data offset Q))
      (find.bytes (writeAll memory (bytes.bytes memory) data offset Q)) j

/-- A walk whose bytes its writes leave takes the greedy places. -/
theorem writes_greedy (hfits : offset + bytes.length ≤ find.length)
    (h : GreedyFrom (data.bytes memory) (find.bytes memory) start (Q ++ R))
    (hapart : ∀ q ∈ Q, ¬ bytes.Meets ⟨data.start + q + offset, bytes.length⟩)
    (hsteady : ∀ k < Q.length,
      find.bytes (writeAll memory (bytes.bytes memory) data offset (Q.take k)) =
        find.bytes memory) :
    Writes data find bytes offset memory start Q
      (writeAll memory (bytes.bytes memory) data offset Q) := by
  induction Q generalizing memory start with
  | nil => exact .done memory start
  | cons q Q ih =>
    cases h with
    | step _ _ _ hi hrest =>
      have hmeets := hapart q (mem_cons_self ..)
      set later := copyTo memory (data.start + q + offset) (bytes.bytes memory) with hlater
      have hkept : bytes.bytes later = bytes.bytes memory :=
        bytes_copyTo memory (by simpa using hmeets)
      refine .write memory start q Q _ hi hmeets ?_
      rcases eq_or_ne Q [] with rfl | hQ
      · exact .done _ _
      · have hnow := hsteady 1 (by simpa [length_pos_iff] using hQ)
        rw [take_succ_cons, take_zero, writeAll_cons, writeAll_nil, ← hlater] at hnow
        rw [Region.length_bytes] at hrest
        have hbehind : GreedyFrom (data.bytes later) (find.bytes later) (q + find.length)
            (Q ++ R) := by
          rw [hnow]
          exact greedyFrom_write (by simpa using hfits) hrest
        have hrests : Writes data find bytes offset later (q + find.length) Q
            (writeAll later (bytes.bytes later) data offset Q) := by
          refine ih hbehind (fun r hr => hapart r (mem_cons_of_mem q hr)) fun k hk => ?_
          have hthen := hsteady (k + 1) (by simpa using hk)
          rw [take_succ_cons, writeAll_cons, ← hlater] at hthen
          rw [hkept, hnow, hthen]
        rwa [hkept] at hrests

/-- A walk that leaves what the greedy places ask for has left the bytes that it looks for. -/
theorem greedy_of_writes (hfits : offset + bytes.length ≤ find.length)
    (h : GreedyFrom (data.bytes memory) (find.bytes memory) start (Q ++ R))
    (hwrites : Writes data find bytes offset memory start places after)
    (hlength : places.length = Q.length)
    (hafter : after = writeAll memory (bytes.bytes memory) data offset Q) :
    places = Q ∧ (∀ q ∈ Q, ¬ bytes.Meets ⟨data.start + q + offset, bytes.length⟩) ∧ ∀ k < Q.length,
        find.bytes (writeAll memory (bytes.bytes memory) data offset (Q.take k)) =
          find.bytes memory := by
  induction Q generalizing memory start places with
  | nil => exact ⟨length_eq_zero_iff.mp hlength, by simp, by simp⟩
  | cons q Q ih =>
    cases hwrites with
    | done => cases hlength
    | write _ _ p places _ hp hmeets hrest =>
      cases h with
      | step _ _ _ hi hgreedy =>
        obtain rfl := hp.unique hi
        rw [Region.length_bytes] at hgreedy
        rw [writeAll_cons] at hafter
        set later := copyTo memory (data.start + p + offset) (bytes.bytes memory) with hlater
        have hkept : bytes.bytes later = bytes.bytes memory :=
          bytes_copyTo memory (by simpa using hmeets)
        have hgreedy' : GreedyFrom (data.bytes later) (find.bytes memory) (p + find.length)
            (Q ++ R) := greedyFrom_write (by simpa using hfits) hgreedy
        have hnow : Q ≠ [] → find.bytes later = find.bytes memory := by
          intro hQ
          obtain ⟨q₁, Q, rfl⟩ := exists_cons_of_ne_nil hQ
          exact bytes_kept hfits rfl hlater hkept hi.stands hgreedy' hrest hafter
        have hrests : places = Q ∧
            (∀ q ∈ Q, ¬ bytes.Meets ⟨data.start + q + offset, bytes.length⟩) ∧
            ∀ k < Q.length,
              find.bytes (writeAll later (bytes.bytes memory) data offset (Q.take k)) =
                find.bytes memory := by
          rcases eq_or_ne Q [] with rfl | hQ
          · exact ⟨length_eq_zero_iff.mp (by simpa using hlength), by simp, by simp⟩
          · rw [← hkept, ← hnow hQ]
            refine ih ?_ hrest (by simpa using hlength) (by rw [hkept]; exact hafter)
            rw [hnow hQ]
            exact hgreedy'
        refine ⟨by rw [hrests.1], fun r hr => ?_, fun k hk => ?_⟩
        · rcases mem_cons.mp hr with rfl | hr
          · exact hmeets
          · exact hrests.2.1 r hr
        · cases k with
          | zero => rfl
          | succ k =>
            rw [take_succ_cons, writeAll_cons]
            exact hrests.2.2 k (by simpa using hk)

-- ── The call ────

/-- The call is the walk from behind the places that the limit passes over. -/
theorem bytesPatch_walk {offset : ℤ} (limit : ℤ) (hfind : 0 < find.length) (hoffset : 0 ≤ offset)
    (hfits : offset + bytes.length ≤ find.length) {P : List ℕ}
    (hP : GreedyFrom (data.bytes memory) (find.bytes memory) 0 P) :
    ∃ behind R fuel,
      GreedyFrom (data.bytes memory) (find.bytes memory) behind (limited limit P ++ R) ∧
      (limited limit P).length < fuel ∧ (limited limit P = [] → behind = 0) ∧
      (0 < limit → ((limited limit P).length : ℤ) ≤ limit) ∧
      bytesPatch memory data find bytes offset limit =
        patchPlaces data find bytes offset.toNat limit fuel memory behind 0 0 := by
  have hspan : fitsSpan offset bytes.length find.length = true :=
    (fitsSpan_iff _ _ _).mpr ⟨hoffset, by omega, hfits⟩
  have hne : find.bytes memory ≠ [] := by
    rw [← length_pos_iff]
    simpa using hfind
  have hlength : P.length ≤ data.length := by simpa using hP.length_le hne
  have hcall : bytesPatch memory data find bytes offset limit =
      patchPlaces data find bytes offset.toNat limit (data.length + 1) memory 0
        (if limit < 0 ∧ (P.length : ℤ) + limit > 0 then P.length + limit else 0) 0 := by
    rw [bytesPatch, if_neg (by simp [hspan]), if_neg (by omega)]
    by_cases hneg : limit < 0
    · rw [if_pos hneg, countPlaces_greedy hne hP _ _ (by omega), Nat.zero_add]
      rfl
    · simp [hneg]
  rw [limited_eq]
  by_cases hpos : 0 < limit
  · rw [if_pos hpos]
    refine ⟨0, P.drop limit.toNat, data.length + 1, by rwa [take_append_drop], ?_,
      fun _ => rfl, fun _ => ?_, ?_⟩
    · have := length_take_le' limit.toNat P
      omega
    · have := length_take_le limit.toNat P
      omega
    · rw [hcall, if_neg (by omega)]
  · rw [if_neg hpos]
    set skip : ℤ := if limit < 0 ∧ (P.length : ℤ) + limit > 0 then P.length + limit else 0
      with hskip
    have hbounds : 0 ≤ skip ∧ (skip = 0 ∨ skip < P.length) := by
      rw [hskip]
      split_ifs <;> omega
    obtain ⟨behind, hbehind, hzero, heq⟩ := patchPlaces_skip bytes offset.toNat hfind
      (by omega : limit ≤ 0) skip.toNat hP (by omega) (data.length + 1 - skip.toNat)
    refine ⟨behind, [], data.length + 1 - skip.toNat, by rwa [append_nil], ?_, fun hnil => ?_,
      fun h => absurd h hpos, ?_⟩
    · rw [length_drop]
      omega
    · have := drop_eq_nil_iff.mp hnil
      exact hzero (by omega)
    · rw [hcall, ← heq]
      congr 1 <;> omega

/-- What a patch from a list of places made beforehand does: bytes that do not fit leave the
    memory as it is; otherwise the call gives the count of the places that the limit takes of
    the greedy ones in the data as they were, and writes at each of them. -/
def PatchesGreedy (memory : Memory) (data find bytes : Region) (offset limit : ℤ) : Prop :=
  if 0 ≤ offset ∧ offset + bytes.length ≤ find.length then
    ∃ P, Greedy (data.bytes memory) (find.bytes memory) P ∧
      (∀ P', Greedy (data.bytes memory) (find.bytes memory) P' → P' = P) ∧
      bytesPatch memory data find bytes offset limit = some (((limited limit P).length : ℤ),
          writeAll memory (bytes.bytes memory) data offset.toNat (limited limit P))
  else bytesPatch memory data find bytes offset limit = some (misfit, memory)

theorem greedy_iff (hfind : 0 < find.length) (P : List ℕ) :
    Greedy (data.bytes memory) (find.bytes memory) P ↔
      GreedyFrom (data.bytes memory) (find.bytes memory) 0 P := by
  have hne : find.bytes memory ≠ [] := by
    rw [← length_pos_iff]
    simpa using hfind
  rw [Greedy, if_neg hne]

theorem greedy_existsUnique (data find : Bytes) : ∃! P, Greedy data find P := by
  by_cases hfind : find = []
  · exact ⟨[], by simp [Greedy, hfind], fun P hP => by simpa [Greedy, hfind] using hP⟩
  · obtain ⟨P, hP⟩ := exists_greedyFrom data hfind 0
    refine ⟨P, by simpa [Greedy, hfind] using hP, fun P' hP' => ?_⟩
    simp only [Greedy, if_neg hfind] at hP'
    exact hP'.unique hP

/-- **A patch takes the places of the original data exactly where its writes leave what it
    reads.** -/
theorem bytesPatch_greedy_iff (memory : Memory) (data find bytes : Region) (offset limit : ℤ) :
    PatchesGreedy memory data find bytes offset limit ↔
      (0 ≤ offset → offset + bytes.length ≤ find.length → 0 < find.length →
        ∀ P, Greedy (data.bytes memory) (find.bytes memory) P →
          Undisturbed memory data find bytes offset.toNat limit (limited limit P)) := by
  unfold PatchesGreedy
  by_cases hfits : 0 ≤ offset ∧ offset + bytes.length ≤ find.length
  · obtain ⟨hoffset, hspan⟩ := hfits
    rw [if_pos ⟨hoffset, hspan⟩]
    obtain ⟨P, hP, hunique⟩ := greedy_existsUnique (data.bytes memory) (find.bytes memory)
    have hfits : fitsSpan offset bytes.length find.length = true :=
      (fitsSpan_iff _ _ _).mpr ⟨hoffset, by omega, hspan⟩
    rcases Nat.eq_zero_or_pos find.length with hzero | hfind
    · -- bytes that are none stand nowhere
      have hnil : find.bytes memory = [] := length_eq_zero_iff.mp (by simpa using hzero)
      have hnone : P = [] := by rwa [Greedy, if_pos hnil] at hP
      refine ⟨fun _ _ _ hpos => absurd hzero (by omega), fun _ => ⟨P, hP, hunique, ?_⟩⟩
      rw [hzero, Nat.cast_zero] at hfits
      simp [bytesPatch, hfits, hzero, hnone, limited]
    · have hwithin : offset.toNat + bytes.length ≤ find.length := by omega
      obtain ⟨behind, R, fuel, hgreedy, hfuel, hstart, hlimit, hwalk⟩ :=
        bytesPatch_walk limit hfind hoffset hspan ((greedy_iff hfind P).mp hP)
      have hbehind : ∀ j, (∀ q ∈ limited limit P, q + find.length ≤ j) → behind ≤ j := by
        intro j hj
        rcases hQ : limited limit P with - | ⟨q, Q⟩
        · rw [hstart hQ]
          exact Nat.zero_le j
        · rw [hQ] at hgreedy hj
          have := (hgreedy.stands q (by simp)).1
          have := hj q (mem_cons_self ..)
          omega
      constructor
      · rintro ⟨P', hP', -, hcall⟩ - - - P'' hP''
        obtain rfl := hunique P' hP'
        obtain rfl := hunique P'' hP''
        rw [hwalk] at hcall
        obtain ⟨places, hwrites, hcount, hstops⟩ := patchPlaces_sound hfind hcall
        obtain ⟨rfl, hapart, hsteady⟩ := greedy_of_writes hwithin hgreedy hwrites (by omega) rfl
        exact ⟨hapart, hsteady, fun hmore j hj => hstops (by simpa using hmore) j (hbehind j hj) hj⟩
      · intro h
        have hundisturbed := h hoffset hspan hfind P hP
        have hwrites := writes_greedy hwithin hgreedy hundisturbed.apart hundisturbed.steady
        have hstops : Stops data find limit 0 behind (limited limit P)
            (writeAll memory (bytes.bytes memory) data offset.toNat (limited limit P)) :=
          fun hmore j _ hj => hundisturbed.last (by simpa using hmore) j hj
        refine ⟨P, hP, hunique, ?_⟩
        rw [hwalk, patchPlaces_complete hfind hwrites hstops (by simpa using hlimit) hfuel,
          Nat.zero_add]
  · rw [if_neg hfits]
    have hspan : fitsSpan offset bytes.length find.length = false := by
      rw [Bool.eq_false_iff]
      intro h
      obtain ⟨h1, -, h3⟩ := (fitsSpan_iff _ _ _).mp h
      exact hfits ⟨h1, h3⟩
    exact iff_of_true (by simp [bytesPatch, hspan]) fun h1 h3 => absurd ⟨h1, h3⟩ hfits

end Patch

/-- `abab`, and behind it `XY`. -/
def ababXY : Memory := fun k => [97, 98, 97, 98, 88, 89].getD k 0

/-- The bytes to find are the first two of the data: the first write makes them `XY`, and the
    second place is not found. -/
theorem bytesPatch_findInData : (bytesPatch ababXY ⟨0, 4⟩ ⟨0, 2⟩ ⟨4, 2⟩ 0 0).map
        (fun r => (r.1, Region.bytes ⟨0, 4⟩ r.2)) = some (1, [88, 89, 97, 98]) ∧
      ¬ PatchesGreedy ababXY ⟨0, 4⟩ ⟨0, 2⟩ ⟨4, 2⟩ 0 0 := by
  have hcall : (bytesPatch ababXY ⟨0, 4⟩ ⟨0, 2⟩ ⟨4, 2⟩ 0 0).map
      (fun r => (r.1, Region.bytes ⟨0, 4⟩ r.2)) = some (1, [88, 89, 97, 98]) := by decide
  refine ⟨hcall, fun h => ?_⟩
  rw [PatchesGreedy, if_pos (by decide)] at h
  obtain ⟨P, -, hunique, hpatch⟩ := h
  have hfind : Region.bytes ⟨0, 2⟩ ababXY ≠ [] := by decide
  have hfirst := findBytes_spec (Region.bytes ⟨0, 4⟩ ababXY) hfind 0
  have hsecond := findBytes_spec (Region.bytes ⟨0, 4⟩ ababXY) hfind 2
  have hnone := findBytes_spec (Region.bytes ⟨0, 4⟩ ababXY) hfind 4
  have hP := hunique [0, 2] <| by
    rw [Greedy, if_neg hfind]
    exact .step 0 0 [2] hfirst (.step 2 2 [] hsecond (.done 4 hnone))
  rw [hpatch, ← hP] at hcall
  exact absurd (Prod.mk.inj (Option.some.inj hcall)).1 (by decide)

end AnticPattern
