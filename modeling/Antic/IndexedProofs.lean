import Antic.Indexed
import Mathlib.Data.List.Basic

/-! # A room holds a sequence

    `Indexed.Ok t l` says that the slots from `head` on hold the elements `l` and
    the other slots are zero.  Each function of the class keeps it. -/

namespace AnticCollection

open List Function

/-! ## Bytes -/

section Bytes

variable {T : Type}

theorem closeGap_eq (r : Room T) {i used : Nat} (hi : i < used) (j : Nat) : closeGap r i used j =
      if j < i then r j else if j + 1 < used then r (j + 1)
      else if j + 1 = used then none else r j := by
  unfold closeGap zeroSlot
  by_cases hj : j = used - 1
  · subst hj
    rw [update_self, if_neg (by omega), if_neg (by omega), if_pos (by omega)]
  · rw [update_of_ne hj]
    by_cases hgap : i + 1 < used
    · rw [if_pos hgap]
      unfold copySlots
      by_cases hin : i ≤ j ∧ j < i + (used - i - 1)
      · rw [if_pos hin, if_neg (by omega), if_pos (by omega)]
        congr 1
        omega
      · rw [if_neg hin]
        by_cases hji : j < i
        · rw [if_pos hji]
        · rw [if_neg hji, if_neg (by omega), if_neg (by omega)]
    · rw [if_neg hgap]
      by_cases hji : j < i
      · rw [if_pos hji]
      · rw [if_neg hji, if_neg (by omega), if_neg (by omega)]

/-- The loop moves the elements of the turns left one slot back. -/
theorem shiftBack_eq (slot : Nat → Nat) (n : Nat)
    (hinj : ∀ a b, a < n → b < n → slot a = slot b → a = b) :
    ∀ (left i : Nat) (r : Room T), i + left < n →
      (∀ p, (∀ j, i ≤ j → j < i + left → slot j ≠ p) → shiftBack slot left i r p = r p) ∧
      ∀ j, i ≤ j → j < i + left → shiftBack slot left i r (slot j) = r (slot (j + 1)) := by
  intro left
  induction left with
  | zero => exact fun i r _ => ⟨fun _ _ => rfl, fun j h h' => absurd h' (by omega)⟩
  | succ left ih =>
    intro i r hn
    obtain ⟨hout, hin⟩ := ih (i + 1) (update r (slot i) (r (slot (i + 1)))) (by omega)
    rw [shiftBack]
    refine ⟨fun p hp => ?_, fun j hij hj => ?_⟩
    · rw [hout p fun j h h' => hp j (by omega) (by omega),
        update_of_ne (hp i (Nat.le_refl i) (by omega)).symm]
    · by_cases hji : j = i
      · subst hji
        rw [hout (slot j) fun k hk hk' h => ?_, update_self]
        have := hinj k j (by omega) (by omega) h
        omega
      · have hne : slot (j + 1) ≠ slot i := fun h => by
          have := hinj (j + 1) i (by omega) (by omega) h
          omega
        rw [hin j (by omega) (by omega), update_of_ne hne]

theorem reverseSlots_eq (r : Room T) (i j p : Nat) :
    reverseSlots r i j p = if i ≤ p ∧ p ≤ j then r (i + j - p) else r p := by
  induction r, i, j using reverseSlots.induct with
  | case1 r i j hij ih =>
    rw [reverseSlots, if_pos hij, ih]
    by_cases hp : i ≤ p ∧ p ≤ j
    · rw [if_pos hp]
      by_cases hpi : p = i
      · subst hpi
        rw [if_neg (by omega), update_of_ne (by omega), update_self]
        congr 1
        omega
      · by_cases hpj : p = j
        · subst hpj
          rw [if_neg (by omega), update_self]
          congr 1
          omega
        · rw [if_pos (by omega), update_of_ne (by omega), update_of_ne (by omega)]
          congr 1
          omega
    · rw [if_neg hp, if_neg (by omega), update_of_ne (by omega), update_of_ne (by omega)]
  | case2 r i j hij =>
    rw [reverseSlots, if_neg hij]
    by_cases hp : i ≤ p ∧ p ≤ j
    · rw [if_pos hp]
      congr 1
      omega
    · rw [if_neg hp]

end Bytes

namespace Indexed

variable {T : Type} {t : Indexed T} {l : List T}

/-- The slots of the room, none without it. -/
def slots (t : Indexed T) : Room T := t.items.getD fun _ => none

/-! ## Slots -/

section Slots

variable (hhead : t.head < t.capacity)
include hhead

theorem slot_lt {i : Nat} (hi : i < t.capacity) : t.slot i < t.capacity := by
  unfold slot
  split <;> omega

omit hhead in
theorem slot_inj {i j : Nat} (hi : i < t.capacity) (hj : j < t.capacity)
    (h : t.slot i = t.slot j) : i = j := by
  unfold slot at h
  split at h <;> split at h <;> omega

theorem slot_surj {p : Nat} (hp : p < t.capacity) : ∃ i, i < t.capacity ∧ t.slot i = p := by
  unfold slot
  by_cases h : t.head ≤ p
  · refine ⟨p - t.head, by omega, ?_⟩
    rw [if_neg (by omega)]
    omega
  · refine ⟨p + t.capacity - t.head, by omega, ?_⟩
    rw [if_pos (by omega)]
    omega

end Slots

variable {i : Nat}

theorem slot_flat (hhead : t.head = 0) (hi : i < t.capacity) : t.slot i = i := by
  unfold slot
  rw [if_neg (by omega)]
  omega

/-! ## The invariant -/

/-- The room holds the elements `l`. -/
structure Ok (t : Indexed T) (l : List T) : Prop where
  count : t.count = l.length
  count_le : t.count ≤ t.capacity
  head_lt : 0 < t.capacity → t.head < t.capacity
  head_zero : t.capacity = 0 → t.head = 0
  flat : t.ring = false → t.head = 0
  fits : t.capacity ≤ intMax
  room : 0 < t.capacity → ∃ r, t.items = some r
  holds : ∀ i, i < t.capacity → t.slots (t.slot i) = l[i]?
  beyond : ∀ p, t.capacity ≤ p → t.slots p = none

namespace Ok

theorem zero (h : t.Ok l) {p : Nat} (hp : ∀ i, i < t.count → t.slot i ≠ p) :
    t.slots p = none := by
  by_cases hlt : p < t.capacity
  · obtain ⟨i, hi, rfl⟩ := slot_surj (h.head_lt (by omega)) hlt
    rw [h.holds i hi, List.getElem?_eq_none_iff, ← h.count]
    by_contra hcount
    exact hp i (by omega) rfl
  · exact h.beyond p (Nat.le_of_not_lt hlt)

theorem element (h : t.Ok l) {i : Nat} (hi : i < l.length) :
    t.slots (t.slot i) = some l[i] := by
  rw [h.holds i (by rw [← h.count] at hi; exact Nat.lt_of_lt_of_le hi h.count_le),
    getElem?_eq_getElem hi]

theorem items_of_lt (h : t.Ok l) {i : Nat} (hi : i < t.capacity) :
    t.items = some t.slots := by
  obtain ⟨r, hr⟩ := h.room (by omega)
  rw [slots, hr]
  rfl

theorem walk (h : t.Ok l) : t.walk = l.map some := by
  refine ext_getElem? fun i => ?_
  show ((List.range t.count).map fun i => t.items.bind fun r => r (t.slot i))[i]? = _
  rw [getElem?_map, getElem?_map]
  by_cases hi : i < l.length
  · have hcap : i < t.capacity := Nat.lt_of_lt_of_le (h.count ▸ hi) h.count_le
    rw [getElem?_range (h.count ▸ hi), getElem?_eq_getElem hi, h.items_of_lt hcap]
    exact congrArg some (h.element hi)
  · have hle := Nat.le_of_not_lt hi
    rw [getElem?_eq_none hle, getElem?_eq_none (by rw [length_range, h.count]; exact hle)]
    rfl

end Ok

/-! ## The room moves -/

theorem copySlots_zero (r : Room T) (at_ : Nat) (src : Room T) (start : Nat) :
    copySlots r at_ src start 0 = r := by
  funext i
  exact if_neg (by omega)

theorem copySlots_if (r : Room T) (at_ : Nat) (src : Room T) (start n : Nat) :
    (if 0 < n then copySlots r at_ src start n else r) = copySlots r at_ src start n := by
  split
  · rfl
  · next hn =>
      have hn : n = 0 := by omega
      rw [hn, copySlots_zero]

theorem moved_eq (hhead : t.head ≤ t.capacity) (items : Room T) (i : Nat) :
    t.moved items i = if i < t.count then items (t.slot i) else none := by
  have hmoved : t.moved items =
      copySlots (copySlots (fun _ => none) 0 items t.head (min (t.capacity - t.head) t.count))
        (min (t.capacity - t.head) t.count) items 0
        (t.count - min (t.capacity - t.head) t.count) := by
    rw [moved, copySlots_if]
    show (if min (t.capacity - t.head) t.count < t.count then _ else _) = _
    by_cases hrest : min (t.capacity - t.head) t.count < t.count
    · rw [if_pos hrest]
    · rw [if_neg hrest, Nat.sub_eq_zero_of_le (Nat.le_of_not_lt hrest), copySlots_zero]
  rw [hmoved]
  unfold copySlots slot
  by_cases hc : i < t.count
  · rw [if_pos hc]
    by_cases hi : i < t.capacity - t.head
    · -- a slot of the first copy
      rw [if_neg (by omega), if_pos (by omega), if_neg (by omega)]
      rfl
    · -- a slot past the end of the old room
      rw [if_pos (by omega), if_pos (by omega)]
      congr 1
      omega
  · rw [if_neg hc, if_neg (by omega), if_neg (by omega)]

/-- What a move of the room leaves: the same elements from the start of room for `n`. -/
structure Moved (t : Indexed T) (l : List T) (n : Nat) (t' : Indexed T) : Prop where
  ok : t'.Ok l
  capacity : t'.capacity = n
  spare : t'.spare = t.spare
  ring : t'.ring = t.ring
  size : t'.elementSize = t.elementSize

theorem Ok.of_flat {t' : Indexed T} (hcount : t'.count = l.length)
    (hle : l.length ≤ t'.capacity) (hhead : t'.head = 0) (hfits : t'.capacity ≤ intMax)
    (hroom : 0 < t'.capacity → ∃ r, t'.items = some r) (hholds : ∀ i, t'.slots i = l[i]?) :
    t'.Ok l where
  count := hcount
  count_le := hcount ▸ hle
  head_lt h := hhead ▸ h
  head_zero _ := hhead
  flat _ := hhead
  fits := hfits
  room := hroom
  holds i hi := by rw [slot_flat hhead hi, hholds]
  beyond p hp := by rw [hholds, getElem?_eq_none (Nat.le_trans hle hp)]

variable (h : t.Ok l)
include h

theorem getElem?_slots (i : Nat) : (if i < t.count then t.slots (t.slot i) else none) = l[i]? := by
  split
  · next hi => exact h.holds i (Nat.lt_of_lt_of_le hi h.count_le)
  · next hi => exact (getElem?_eq_none (h.count ▸ Nat.le_of_not_lt hi)).symm

theorem Ok.head_le : t.head ≤ t.capacity := by
  by_cases hcap : 0 < t.capacity
  · exact Nat.le_of_lt (h.head_lt hcap)
  · rw [h.head_zero (by omega)]
    exact Nat.zero_le _

theorem Ok.resize {n : Nat} (hn : t.count ≤ n) : Yields (t.resize n) (Moved t l n) := by
  refine (roomPlus_yields n t.spare).bind fun size hsize => ?_
  obtain ⟨rfl, hfits⟩ := hsize
  have hle : l.length ≤ n := h.count ▸ hn
  split
  · next hzero =>
      -- no slot at all
      have hnil : l = [] := eq_nil_of_length_eq_zero (by omega)
      subst hnil
      refine .pure ⟨.of_flat h.count ?_ rfl ?_ ?_ ?_, ?_, rfl, rfl, rfl⟩
      · exact Nat.zero_le _
      · exact Nat.zero_le _
      · exact fun hcap => absurd hcap (Nat.lt_irrefl 0)
      · exact fun _ => rfl
      · show 0 = n
        omega
  · refine (roomTimes_yields _ _).bind fun _ _ => ?_
    cases hitems : t.items with
    | none =>
      have hnil : l = [] := by
        by_contra hne
        have hpos : 0 < t.capacity :=
          Nat.lt_of_lt_of_le (h.count ▸ length_pos_of_ne_nil hne) h.count_le
        obtain ⟨r, hr⟩ := h.room hpos
        rw [hitems] at hr
        cases hr
      subst hnil
      refine .pure ⟨.of_flat h.count hle rfl ?_ ?_ ?_, rfl, rfl, rfl, rfl⟩
      · show n ≤ intMax
        omega
      · exact fun _ => ⟨_, rfl⟩
      · exact fun _ => rfl
    | some items =>
      refine .pure ⟨.of_flat h.count hle rfl ?_ ?_ ?_, rfl, rfl, rfl, rfl⟩
      · show n ≤ intMax
        omega
      · exact fun _ => ⟨_, rfl⟩
      · intro i
        show t.moved items i = l[i]?
        have hslots : items = t.slots := by
          rw [slots, hitems]
          rfl
        rw [moved_eq h.head_le, hslots, getElem?_slots h]

theorem Ok.makeRoom : Yields t.makeRoom fun t' => ∃ n, l.length < n ∧ Moved t l n t' := by
  have hcount := h.count
  unfold Indexed.makeRoom
  split
  · have hgrown : Yields (grown t.capacity (t.count + 1)) fun n => t.count + 1 ≤ n :=
      (doubled_yields (Nat.lt_of_lt_of_le (by decide) (Nat.le_max_right _ 8))
        (Nat.max_le.2 ⟨h.fits, by decide⟩)).mono fun _ h => h.1
    refine hgrown.bind fun n hn => (h.resize (by omega)).mono fun t' ht' => ⟨n, ?_, ht'⟩
    omega
  · refine .pure ⟨t.capacity, ?_, h, rfl, rfl, rfl, rfl⟩
    omega

theorem Ok.reserveRoom (n : Int) :
    Yields (t.reserveRoom n) fun t' => t'.Ok l ∧ t'.spare = t.spare ∧ t'.ring = t.ring := by
  unfold Indexed.reserveRoom
  split
  · refine (roomPlus_yields _ _).bind fun need hneed => ?_
    split
    · refine (h.resize (by omega)).mono fun t' ht' => ⟨ht'.ok, ht'.spare, ht'.ring⟩
    · exact .pure ⟨h, rfl, rfl⟩
  · exact .pure ⟨h, rfl, rfl⟩

theorem Ok.shrinkRoom :
    Yields t.shrinkRoom fun t' => t'.Ok l ∧ t'.spare = t.spare ∧ t'.ring = t.ring := by
  unfold Indexed.shrinkRoom
  split
  · exact (h.resize (Nat.le_refl _)).mono fun t' ht' => ⟨ht'.ok, ht'.spare, ht'.ring⟩
  · exact .pure ⟨h, rfl, rfl⟩

theorem Ok.copyInto {n : Nat} (hn : t.count ≤ n) : Yields (t.copyInto n) (Moved t l n) := by
  refine (roomPlus_yields n t.spare).bind fun size hsize => ?_
  obtain ⟨rfl, hfits⟩ := hsize
  have hle : l.length ≤ n := h.count ▸ hn
  split
  · next hzero =>
      have hnil : l = [] := eq_nil_of_length_eq_zero (by omega)
      subst hnil
      refine .pure ⟨.of_flat h.count ?_ rfl ?_ ?_ ?_, ?_, rfl, rfl, rfl⟩
      · exact Nat.zero_le _
      · exact Nat.zero_le _
      · exact fun hcap => absurd hcap (Nat.lt_irrefl 0)
      · exact fun _ => rfl
      · show 0 = n
        omega
  · refine (roomTimes_yields _ _).bind fun _ _ => ?_
    refine .pure ⟨.of_flat h.count hle rfl ?_ ?_ ?_, rfl, rfl, rfl, rfl⟩
    · show n ≤ intMax
      omega
    · exact fun _ => ⟨_, rfl⟩
    · intro i
      show (if i < t.count then t.items.bind fun r => r (t.slot i) else none) = l[i]?
      have hbind : (t.items.bind fun r => r (t.slot i)) = t.slots (t.slot i) := by
        rw [slots]
        cases t.items <;> rfl
      rw [hbind, getElem?_slots h]

/-! ## The places -/

omit h in
theorem checkPlace_eq (hi : i < t.count) : t.checkPlace i = .ok i := by
  unfold checkPlace
  rw [if_neg (by omega)]
  rfl

omit h in
theorem checkPlace_error {at_ : Int} (h : ¬ (0 ≤ at_ ∧ at_ < t.count)) :
    t.checkPlace at_ = .error .noElement := by
  unfold checkPlace
  exact if_pos (by omega)

theorem Ok.room_eq (hcap : 0 < t.capacity) : t.room = .ok t.slots := by
  rw [Indexed.room, h.items_of_lt hcap]

theorem Ok.lt_capacity (hi : i < l.length) : i < t.capacity :=
  Nat.lt_of_lt_of_le (h.count ▸ hi) h.count_le

theorem Ok.store (r : Room T) (l' : List T) (hle : l'.length ≤ t.capacity)
    (hcap : 0 < t.capacity) (hholds : ∀ i, i < t.capacity → r (t.slot i) = l'[i]?)
    (hbeyond : ∀ p, t.capacity ≤ p → r p = none) :
    ({ t with items := some r, count := l'.length } : Indexed T).Ok l' where
  count := rfl
  count_le := hle
  head_lt _ := h.head_lt hcap
  head_zero h0 := absurd hcap (by rw [show t.capacity = 0 from h0]; exact Nat.lt_irrefl 0)
  flat := h.flat
  fits := h.fits
  room _ := ⟨r, rfl⟩
  holds := hholds
  beyond := hbeyond

theorem Ok.write (hi : i < t.capacity) (l' : List T) (v : Option T)
    (hle : l'.length ≤ t.capacity) (hv : v = l'[i]?) (hsame : ∀ j, j ≠ i → l'[j]? = l[j]?) :
    ({ t with items := some (update t.slots (t.slot i) v), count := l'.length } :
      Indexed T).Ok l' := by
  have hhead := h.head_lt (by omega)
  refine h.store _ _ hle (by omega) (fun j hj => ?_) fun p hp => ?_
  · by_cases hji : j = i
    · subst hji
      rw [update_self]
      exact hv
    · rw [update_of_ne fun he => hji (slot_inj hj hi he), h.holds j hj, hsame j hji]
  · have hne : p ≠ t.slot i := by
      have := slot_lt hhead hi
      omega
    rw [update_of_ne hne, h.beyond p hp]

theorem Ok.lendPlace (hi : i < l.length) (f : T → T) :
    ∃ t', t.lendPlace i f = .ok (t', l[i]) ∧ t'.Ok (l.set i (f l[i])) ∧
      t' = { t with items := some (update t.slots (t.slot i) (some (f l[i]))) } := by
  have hcap := h.lt_capacity hi
  refine ⟨_, ?_, ?_, rfl⟩
  · rw [Indexed.lendPlace, checkPlace_eq (h.count ▸ hi)]
    show (t.room >>= fun items => elementOf (items (t.slot i)) >>= fun x => _) = _
    rw [h.room_eq (by omega)]
    show (elementOf (t.slots (t.slot i)) >>= fun x => _) = _
    rw [h.element hi]
    rfl
  · have hset := h.write hcap (l.set i (f l[i])) (some (f l[i])) ?_ ?_ ?_
    · rw [length_set, ← h.count] at hset
      exact hset
    · rw [length_set, ← h.count]
      exact h.count_le
    · rw [getElem?_set_self hi]
    · intro j hj
      exact getElem?_set_ne hj.symm

theorem Ok.closeGap (hring : t.ring = false) (hi : i < l.length) :
    ({ t with items := some (closeGap t.slots i t.count),
              count := (l.eraseIdx i).length } : Indexed T).Ok (l.eraseIdx i) := by
  have hcount := h.count
  have hle := h.count_le
  have hlength := length_eraseIdx_of_lt hi
  have hflat {j : Nat} (hj : j < t.capacity) := slot_flat (h.flat hring) hj
  refine h.store _ _ (by omega) (by omega) (fun j hj => ?_) fun p hp => ?_
  · rw [hflat hj, closeGap_eq _ (hcount ▸ hi), getElem?_eraseIdx]
    have hslot {k : Nat} (hk : k < t.capacity) : t.slots k = l[k]? := by
      rw [← h.holds k hk, hflat hk]
    by_cases hji : j < i
    · rw [if_pos hji, if_pos hji, hslot hj]
    · rw [if_neg hji, if_neg hji]
      by_cases hlast : j + 1 < t.count
      · rw [if_pos hlast, hslot (by omega)]
      · rw [if_neg hlast, getElem?_eq_none (by omega)]
        by_cases hend : j + 1 = t.count
        · rw [if_pos hend]
        · rw [if_neg hend, hslot hj, getElem?_eq_none (by omega)]
  · rw [closeGap_eq _ (hcount ▸ hi), if_neg (by omega), if_neg (by omega)]
    split
    · rfl
    · exact h.beyond p hp

theorem Ok.dropHead (hring : t.ring = true) (hi : 0 < l.length) :
    ({ t with items := some (zeroSlot t.slots t.head), head := t.slot 1,
              count := (l.eraseIdx 0).length } : Indexed T).Ok (l.eraseIdx 0) := by
  have hcount := h.count
  have hle := h.count_le
  have hcap : 0 < t.capacity := by omega
  have hhead := h.head_lt hcap
  have hlength := length_eraseIdx_of_lt hi
  have hone : t.slot 1 < t.capacity := by
    unfold slot
    split <;> omega
  have hzero : t.slot 0 = t.head := by
    unfold slot
    rw [if_neg (by omega)]
    rfl
  constructor
  · rfl
  · show (l.eraseIdx 0).length ≤ t.capacity
    omega
  · exact fun _ => hone
  · exact fun h0 => absurd hcap (by rw [show t.capacity = 0 from h0]; exact Nat.lt_irrefl 0)
  · exact fun hflat => absurd (hring.symm.trans hflat) nofun
  · exact h.fits
  · exact fun _ => ⟨_, rfl⟩
  · intro j hj
    have hj : j < t.capacity := hj
    show update t.slots t.head none
      (if t.slot 1 + j ≥ t.capacity then t.slot 1 + j - t.capacity else t.slot 1 + j) = _
    rw [getElem?_eraseIdx, if_neg (Nat.not_lt_zero j)]
    by_cases hlast : j + 1 < t.capacity
    · -- the slots of the others stay
      have hnext : (if t.slot 1 + j ≥ t.capacity then t.slot 1 + j - t.capacity
          else t.slot 1 + j) = t.slot (j + 1) := by
        unfold slot at *
        split <;> split <;> split <;> omega
      have hne : t.slot (j + 1) ≠ t.head := fun he => by
        have := slot_inj hlast hcap (he.trans hzero.symm)
        omega
      rw [hnext, update_of_ne hne, h.holds _ hlast]
    · have hnext : (if t.slot 1 + j ≥ t.capacity then t.slot 1 + j - t.capacity
          else t.slot 1 + j) = t.head := by
        unfold slot
        split <;> split <;> omega
      rw [hnext, update_self, getElem?_eq_none (by omega)]
  · intro p hp
    have hne : p ≠ t.head := by
      have hp : t.capacity ≤ p := hp
      omega
    show update t.slots t.head none p = none
    rw [update_of_ne hne, h.beyond p hp]

theorem Ok.shiftBack (hi : i < l.length) :
    ({ t with items := some (zeroSlot (shiftBack t.slot (t.count - 1 - i) i t.slots)
                (t.slot (t.count - 1))),
              count := (l.eraseIdx i).length } : Indexed T).Ok (l.eraseIdx i) := by
  have hcount := h.count
  have hle := h.count_le
  have hcap : 0 < t.capacity := by omega
  have hhead := h.head_lt hcap
  have hlength := length_eraseIdx_of_lt hi
  obtain ⟨hout, hin⟩ := shiftBack_eq t.slot t.capacity
    (fun a b ha hb => slot_inj ha hb) (t.count - 1 - i) i t.slots (by omega)
  refine h.store _ _ (by omega) hcap (fun j hj => ?_) fun p hp => ?_
  · rw [zeroSlot, getElem?_eraseIdx]
    by_cases hlast : j = t.count - 1
    · subst hlast
      rw [update_self, if_neg (by omega), getElem?_eq_none (by omega)]
    · rw [update_of_ne fun he => hlast (slot_inj hj (by omega) he)]
      by_cases hmove : i ≤ j ∧ j < t.count - 1
      · rw [hin j hmove.1 (by omega), if_neg (by omega), h.holds _ (by omega)]
      · rw [hout (t.slot j) fun k hk hk' he => ?_, h.holds j hj]
        · split
          · rfl
          · rw [getElem?_eq_none (by omega), getElem?_eq_none (by omega)]
        · have := slot_inj (by omega) hj he
          omega
  · have hne {k : Nat} (hk : k < t.capacity) : p ≠ t.slot k := by
      have := slot_lt hhead hk
      omega
    rw [zeroSlot, update_of_ne (hne (by omega)),
      hout p fun k _ hk he => hne (by omega) he.symm, h.beyond p hp]

/-- `take_place` takes the element at its place out; the place after it is the same. -/
theorem Ok.takePlace (hi : i < l.length) :
    ∃ t', t.takePlace i = .ok (t', l[i], if i + 1 < t.count then some i else none) ∧
      (t'.resized (t'.count - 1)).Ok (l.eraseIdx i) ∧
      t'.ring = t.ring ∧ t'.capacity = t.capacity ∧ t'.spare = t.spare ∧ t'.calls = t.calls := by
  have hcap := h.lt_capacity hi
  have hcount : (l.eraseIdx i).length = t.count - 1 := by
    rw [length_eraseIdx_of_lt hi, h.count]
  have htake : t.takePlace i = (if t.ring = false then
        .ok ({ t with items := some (AnticCollection.closeGap t.slots i t.count) }, l[i],
          if i + 1 < t.count then some i else none)
      else if i = 0 then
        .ok ({ t with items := some (zeroSlot t.slots t.head), head := t.slot 1 }, l[i],
          if i + 1 < t.count then some i else none)
      else
        .ok ({ t with items := some (zeroSlot
          (AnticCollection.shiftBack t.slot (t.count - 1 - i) i t.slots)
          (t.slot (t.count - 1))) }, l[i], if i + 1 < t.count then some i else none)) := by
    rw [Indexed.takePlace, checkPlace_eq (h.count ▸ hi)]
    show (t.room >>= fun items => elementOf (items (t.slot i)) >>= fun x => _) = _
    rw [h.room_eq (by omega)]
    show (elementOf (t.slots (t.slot i)) >>= fun x => _) = _
    rw [h.element hi]
    rfl
  rw [htake]
  by_cases hring : t.ring = false
  · rw [if_pos hring]
    have hok := h.closeGap hring hi
    rw [hcount] at hok
    exact ⟨_, rfl, hok, rfl, rfl, rfl, rfl⟩
  · have hring : t.ring = true := by simpa using hring
    rw [if_neg (by rw [hring]; nofun)]
    by_cases hzero : i = 0
    · subst hzero
      have hok := h.dropHead hring hi
      rw [hcount] at hok
      exact ⟨_, if_pos rfl, hok, rfl, rfl, rfl, rfl⟩
    · have hok := h.shiftBack hi
      rw [hcount] at hok
      exact ⟨_, if_neg hzero, hok, rfl, rfl, rfl, rfl⟩

end Indexed

end AnticCollection
