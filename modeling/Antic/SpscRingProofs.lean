import Antic.SpscRing
import Mathlib.Data.List.Perm.Basic
import Mathlib.Data.Nat.ModEq

/-! # What each side of the ring relies on

    The slots from `taken` up to `given` are the consumer's and the others the producer's.  Between
    two steps of the producer the consumer moves `taken` on and leaves the slots it frees empty;
    between two steps of the consumer the producer appends elements to those the ring holds. -/

namespace AnticRing

open SharedCode List Function

variable {T : Type} {N : Nat}

/-! ## Slots -/

theorem slot_ne {p q : Nat} (hpq : p < q) (h : q < p + N) : p % N ≠ q % N := by
  intro he
  have hdvd : N ∣ q - p := (Nat.modEq_iff_dvd' (Nat.le_of_lt hpq)).mp he
  have hle : N ≤ q - p := Nat.le_of_dvd (by omega) hdvd
  omega

theorem slot_next (p : Nat) : (p + N) % N = p % N := Nat.add_mod_right p N

/-- The slots of the positions from `p` on. -/
def Holds (N : Nat) (s : Memory T) (p : Nat) (os : List (Option T)) : Prop :=
  ∀ i o, os[i]? = some o → s.items ((p + i) % N) = o

section Holds

variable {s s' : Memory T} {p : Nat} {os os' : List (Option T)}

theorem Holds.nil : Holds N s p [] := fun i o h => by simp at h

theorem holds_append : Holds N s p (os ++ os') ↔
    Holds N s p os ∧ Holds N s (p + os.length) os' := by
  constructor
  · intro h
    constructor
    · intro i o ho
      have hi : i < os.length := (List.getElem?_eq_some_iff.mp ho).1
      refine h i o ?_
      rw [getElem?_append_left hi]
      exact ho
    · intro i o ho
      rw [Nat.add_assoc]
      refine h _ o ?_
      rw [getElem?_append_right (Nat.le_add_right _ _), Nat.add_sub_cancel_left]
      exact ho
  · rintro ⟨h, h'⟩ i o ho
    by_cases hi : i < os.length
    · rw [getElem?_append_left hi] at ho
      exact h i o ho
    · rw [getElem?_append_right (Nat.le_of_not_lt hi)] at ho
      have := h' _ o ho
      rwa [Nat.add_assoc, Nat.add_sub_cancel' (Nat.le_of_not_lt hi)] at this

theorem Holds.congr (h : Holds N s p os)
    (hsame : ∀ i, i < os.length → s'.items ((p + i) % N) = s.items ((p + i) % N)) :
    Holds N s' p os := by
  intro i o ho
  rw [hsame i (List.getElem?_eq_some_iff.mp ho).1]
  exact h i o ho

theorem Holds.write (h : Holds N s p os) (hN : os.length ≤ N) {i : Nat}
    (hi : i < os.length) (x : Option T) :
    Holds N { s with items := update s.items ((p + i) % N) x } p (os.set i x) := by
  intro j o ho
  have hj : j < os.length := by
    have := (List.getElem?_eq_some_iff.mp ho).1
    rwa [length_set] at this
  by_cases hji : j = i
  · subst hji
    rw [getElem?_set_self hj] at ho
    show update s.items _ x _ = o
    rw [update_self]
    exact Option.some.inj ho
  · rw [getElem?_set_ne (Ne.symm hji)] at ho
    show update s.items _ x _ = o
    have hne : (p + j) % N ≠ (p + i) % N := by
      rcases Nat.lt_or_gt_of_ne hji with hlt | hgt
      · exact slot_ne (by omega) (by omega)
      · exact (slot_ne (by omega) (by omega)).symm
    rw [update_of_ne hne]
    exact h j o ho

end Holds

/-! ## The counters -/

/-- How the counters of the ring stand. -/
structure Counters (N : Nat) (s : Memory T) : Prop where
  taken_given : s.counter .taken ≤ s.counter .given
  given_le : s.counter .given ≤ s.counter .taken + N
  takenSeen_le : s.counter .takenSeen ≤ s.counter .taken
  taken_seen : s.counter .taken ≤ s.counter .givenSeen
  givenSeen_le : s.counter .givenSeen ≤ s.counter .given

/-- The steps of the consumer, as the producer sees them. -/
structure Taken (N : Nat) (s s' : Memory T) : Prop where
  counters : Counters N s'
  given : s'.counter .given = s.counter .given
  takenSeen : s'.counter .takenSeen = s.counter .takenSeen
  accepted : s'.accepted = s.accepted
  taken : s.counter .taken ≤ s'.counter .taken
  free : ∀ p, s.counter .given ≤ p → p < s.counter .taken + N → s'.items (p % N) = s.items (p % N)
  freed : ∀ p, s.counter .taken + N ≤ p → p < s'.counter .taken + N → s'.items (p % N) = none

/-- The steps of the producer, as the consumer sees them: it appended `xs`. -/
structure Given (N : Nat) (s s' : Memory T) (xs : List T) : Prop where
  counters : Counters N s'
  taken : s'.counter .taken = s.counter .taken
  givenSeen : s'.counter .givenSeen = s.counter .givenSeen
  popped : s'.popped = s.popped
  removed : s'.removed = s.removed
  accepted : s'.accepted = s.accepted ++ xs
  given : s'.counter .given = s.counter .given + xs.length
  held : ∀ p, s.counter .taken ≤ p → p < s.counter .given → s'.items (p % N) = s.items (p % N)
  new : Holds N s' (s.counter .given) (xs.map some)

/-- What a side relies on. -/
def rely (N : Nat) : Side → Memory T → Memory T → Prop
  | .producer, s, s' => Counters N s → Taken N s s'
  | .consumer, s, s' => Counters N s → ∃ xs, Given N s s' xs

theorem Taken.refl {s : Memory T} (h : Counters N s) : Taken N s s where
  counters := h
  given := rfl
  takenSeen := rfl
  accepted := rfl
  taken := Nat.le_refl _
  free _ _ _ := rfl
  freed _ h₁ h₂ := absurd h₂ (Nat.not_lt.mpr h₁)

theorem Given.refl {s : Memory T} (h : Counters N s) : Given N s s [] where
  counters := h
  taken := rfl
  givenSeen := rfl
  popped := rfl
  removed := rfl
  accepted := (append_nil _).symm
  given := rfl
  held _ _ _ := rfl
  new := Holds.nil

theorem Taken.trans {a b c : Memory T} (ha : Counters N a) (hab : Taken N a b)
    (hbc : Taken N b c) : Taken N a c where
  counters := hbc.counters
  given := hbc.given.trans hab.given
  takenSeen := hbc.takenSeen.trans hab.takenSeen
  accepted := hbc.accepted.trans hab.accepted
  taken := Nat.le_trans hab.taken hbc.taken
  free p h₁ h₂ := by
    have hle := hab.taken
    have hgiven := hab.given
    rw [hbc.free p (by omega) (by omega), hab.free p h₁ h₂]
  freed p h₁ h₂ := by
    have hgiven := hab.given
    have hroom := ha.given_le
    by_cases hp : p < b.counter .taken + N
    · rw [hbc.free p (by omega) hp]
      exact hab.freed p h₁ hp
    · exact hbc.freed p (Nat.le_of_not_lt hp) h₂

theorem Given.trans {a b c : Memory T} {xs ys : List T} (ha : Counters N a)
    (hab : Given N a b xs) (hbc : Given N b c ys) : Given N a c (xs ++ ys) where
  counters := hbc.counters
  taken := hbc.taken.trans hab.taken
  givenSeen := hbc.givenSeen.trans hab.givenSeen
  popped := hbc.popped.trans hab.popped
  removed := hbc.removed.trans hab.removed
  accepted := by rw [hbc.accepted, hab.accepted, append_assoc]
  given := by rw [hbc.given, hab.given, length_append, Nat.add_assoc]
  held p h₁ h₂ := by
    have htaken := hab.taken
    have hgiven := hab.given
    rw [hbc.held p (by omega) (by omega), hab.held p h₁ h₂]
  new := by
    have htaken := hab.taken
    have hgiven := hab.given
    have hle := ha.taken_given
    rw [map_append, holds_append, length_map]
    constructor
    · refine hab.new.congr fun i hi => hbc.held _ (by omega) ?_
      rw [length_map] at hi
      omega
    · rw [← hgiven]
      exact hbc.new

theorem rely_refl (t : Side) (s : Memory T) : rely N t s s := by
  cases t with
  | producer => exact Taken.refl
  | consumer => exact fun h => ⟨[], Given.refl h⟩

theorem rely_trans (t : Side) (a b c : Memory T) (hab : rely N t a b)
    (hbc : rely N t b c) : rely N t a c := by
  cases t with
  | producer =>
    intro ha
    exact Taken.trans ha (hab ha) (hbc (hab ha).counters)
  | consumer =>
    intro ha
    obtain ⟨xs, hxs⟩ := hab ha
    obtain ⟨ys, hys⟩ := hbc hxs.counters
    exact ⟨xs ++ ys, Given.trans ha hxs hys⟩

/-! ## The history -/

/-- `queue` is what the ring holds: in the order of the pushes behind what was
    popped, and with what was removed all that was accepted. -/
structure Kept (popped queue removed accepted : List T) : Prop where
  order : (popped ++ queue).Sublist accepted
  whole : (popped ++ queue ++ removed).Perm accepted

section Kept

variable {popped queue removed accepted a b xs : List T} {x : T}

theorem Kept.push (h : Kept popped queue removed accepted) (xs : List T) :
    Kept popped (queue ++ xs) removed (accepted ++ xs) where
  order := by
    rw [← append_assoc]
    exact h.order.append_right xs
  whole := by
    have hmove : (popped ++ (queue ++ xs) ++ removed).Perm (popped ++ queue ++ removed ++ xs) := by
      rw [← append_assoc, append_assoc _ xs, append_assoc _ removed]
      exact perm_append_comm.append_left _
    exact hmove.trans (h.whole.append_right xs)

theorem Kept.pop (h : Kept popped (x :: queue) removed accepted) :
    Kept (popped ++ [x]) queue removed accepted := by
  obtain ⟨horder, hwhole⟩ := h
  rw [← singleton_append, ← append_assoc] at horder hwhole
  exact ⟨horder, hwhole⟩

theorem Kept.remove (h : Kept popped (a ++ x :: b) removed accepted) :
    Kept popped (a ++ b) (removed ++ [x]) accepted where
  order := by
    have hsub : (a ++ b).Sublist (a ++ x :: b) := (sublist_cons_self x b).append_left a
    exact (hsub.append_left popped).trans h.order
  whole := by
    have hmove : (popped ++ (a ++ b) ++ (removed ++ [x])).Perm
        (popped ++ (a ++ x :: b) ++ removed) := by
      rw [← append_assoc _ removed]
      refine (perm_append_singleton x _).trans ?_
      rw [← cons_append]
      refine Perm.append_right removed ?_
      rw [← append_assoc, ← append_assoc]
      exact perm_middle.symm
    exact hmove.trans h.whole

end Kept

/-! ## What a side may do -/

/-- The instructions of the producer.  It reaches one slot, the first free one. -/
def producerMay (N : Nat) : Instr T → Memory T → Prop
  | .load _, _ => True
  | .store .given n note, s => n = s.counter .given + 1 ∧
      s.counter .given < s.counter .taken + N ∧
      ∃ x, note = { accepted := [x] } ∧ s.items (s.counter .given % N) = some x
  | .store .takenSeen n note, s => n ≤ s.counter .taken ∧ note = {}
  | .store _ _ _, _ => False
  | .read slot, s | .write slot _, s =>
    slot = s.counter .given % N ∧ s.counter .given < s.counter .taken + N
  | .destroy x, _ => x = none
  | .stop, _ => False

/-- The instructions of the consumer.  It reaches the slots the ring holds. -/
def consumerMay (N : Nat) : Instr T → Memory T → Prop
  | .load _, _ => True
  | .store .taken n note, s => note.accepted = [] ∧ s.counter .taken ≤ n ∧
      n ≤ s.counter .givenSeen ∧
      (∀ p, s.counter .taken ≤ p → p < n → s.items (p % N) = none) ∧
      ∃ queue, Kept (s.popped ++ note.popped) queue (s.removed ++ note.removed) s.accepted
  | .store .givenSeen n note, s => s.counter .taken ≤ n ∧ n ≤ s.counter .given ∧
      note = {}
  | .store _ _ _, _ => False
  | .read slot, s | .write slot _, s =>
    ∃ p, s.counter .taken ≤ p ∧ p < s.counter .given ∧ slot = p % N
  | .destroy x, s => ∃ queue, Kept s.popped queue (s.removed ++ x.toList) s.accepted
  | .stop, _ => False

def may (N : Nat) : Side → Instr T → Memory T → Prop
  | .producer => producerMay N
  | .consumer => consumerMay N

theorem counters_congr {s s' : Memory T} (hc : Counters N s)
    (h : s'.counter = s.counter) : Counters N s' := by
  obtain ⟨h₁, h₂, h₃, h₄, h₅⟩ := hc
  rw [← h] at h₁ h₂ h₃ h₄ h₅
  exact ⟨h₁, h₂, h₃, h₄, h₅⟩

theorem given_write {s : Memory T} {x : Option T} (hc : Counters N s)
    (hroom : s.counter .given < s.counter .taken + N) :
    Given N s { s with
      items := update s.items (s.counter .given % N) x } [] where
  counters := counters_congr hc rfl
  taken := rfl
  givenSeen := rfl
  popped := rfl
  removed := rfl
  accepted := (append_nil _).symm
  given := rfl
  held p h₁ h₂ := update_of_ne (slot_ne h₂ (by omega)) _ _
  new := Holds.nil

theorem given_publish {s : Memory T} {x : T} (hc : Counters N s)
    (hroom : s.counter .given < s.counter .taken + N)
    (hx : s.items (s.counter .given % N) = some x) :
    Given N s (exec (.store .given (s.counter .given + 1) { accepted := [x] }) s).1 [x]
    where
  counters :=
    { taken_given := Nat.le_succ_of_le hc.taken_given
      given_le := hroom
      takenSeen_le := hc.takenSeen_le
      taken_seen := hc.taken_seen
      givenSeen_le := Nat.le_succ_of_le hc.givenSeen_le }
  taken := rfl
  givenSeen := rfl
  popped := append_nil _
  removed := append_nil _
  accepted := rfl
  given := rfl
  held _ _ _ := rfl
  new := by
    intro i o ho
    cases i with
    | zero =>
      cases Option.some.inj ho
      exact hx
    | succ i => simp at ho

theorem given_seen {s : Memory T} {n : Nat} (hc : Counters N s) (hn : n ≤ s.counter .taken) :
    Given N s (exec (.store .takenSeen n {}) s).1 [] where
  counters :=
    { taken_given := hc.taken_given
      given_le := hc.given_le
      takenSeen_le := hn
      taken_seen := hc.taken_seen
      givenSeen_le := hc.givenSeen_le }
  taken := rfl
  givenSeen := rfl
  popped := append_nil _
  removed := append_nil _
  accepted := rfl
  given := rfl
  held _ _ _ := rfl
  new := Holds.nil

theorem producer_keeps {i : Instr T} {s : Memory T} (hi : producerMay N i s) :
    rely N .consumer s (exec i s).1 := by
  intro hc
  cases i with
  | load c => exact ⟨[], Given.refl hc⟩
  | read slot => exact ⟨[], Given.refl hc⟩
  | write slot x =>
    obtain ⟨rfl, hroom⟩ := hi
    exact ⟨[], given_write hc hroom⟩
  | destroy x =>
    cases hi
    have hsame : (exec (.destroy none) s).1 = s := by
      show { s with removed := s.removed ++ [] } = s
      rw [append_nil]
    rw [hsame]
    exact ⟨[], Given.refl hc⟩
  | stop => cases hi
  | store c n note =>
    cases c with
    | given =>
      obtain ⟨rfl, hroom, x, rfl, hx⟩ := hi
      exact ⟨[x], given_publish hc hroom hx⟩
    | takenSeen =>
      obtain ⟨hn, rfl⟩ := hi
      exact ⟨[], given_seen hc hn⟩
    | taken | givenSeen => cases hi

theorem taken_write {s : Memory T} {p : Nat} {x : Option T} (hc : Counters N s)
    (hp : s.counter .taken ≤ p) (hlt : p < s.counter .given) :
    Taken N s { s with items := update s.items (p % N) x } where
  counters := counters_congr hc rfl
  given := rfl
  takenSeen := rfl
  accepted := rfl
  taken := Nat.le_refl _
  free q h₁ h₂ := update_of_ne (slot_ne (by omega) (by omega)).symm _ _
  freed _ h₁ h₂ := absurd h₂ (Nat.not_lt.mpr h₁)

theorem taken_publish {s : Memory T} {n : Nat} {note : Note T} (hc : Counters N s)
    (hnote : note.accepted = []) (hle : s.counter .taken ≤ n)
    (hseen : n ≤ s.counter .givenSeen)
    (hnone : ∀ p, s.counter .taken ≤ p → p < n → s.items (p % N) = none) :
    Taken N s (exec (.store .taken n note) s).1 where
  counters :=
    { taken_given := Nat.le_trans hseen hc.givenSeen_le
      given_le := Nat.le_trans hc.given_le (Nat.add_le_add_right hle N)
      takenSeen_le := Nat.le_trans hc.takenSeen_le hle
      taken_seen := hseen
      givenSeen_le := hc.givenSeen_le }
  given := rfl
  takenSeen := rfl
  accepted := by
    show s.accepted ++ note.accepted = s.accepted
    rw [hnote, append_nil]
  taken := hle
  free _ _ _ := rfl
  freed p h₁ h₂ := by
    have hlt : p < n + N := h₂
    have hp : p = p - N + N := by omega
    rw [hp, slot_next]
    exact hnone (p - N) (by omega) (by omega)

theorem taken_seen {s : Memory T} {n : Nat} (hc : Counters N s)
    (hle : s.counter .taken ≤ n) (hn : n ≤ s.counter .given) :
    Taken N s (exec (.store .givenSeen n {}) s).1 where
  counters :=
    { taken_given := hc.taken_given
      given_le := hc.given_le
      takenSeen_le := hc.takenSeen_le
      taken_seen := hle
      givenSeen_le := hn }
  given := rfl
  takenSeen := rfl
  accepted := append_nil _
  taken := Nat.le_refl _
  free _ _ _ := rfl
  freed _ h₁ h₂ := absurd h₂ (Nat.not_lt.mpr h₁)

theorem consumer_keeps {i : Instr T} {s : Memory T} (hi : consumerMay N i s) :
    rely N .producer s (exec i s).1 := by
  intro hc
  cases i with
  | load c => exact Taken.refl hc
  | read slot => exact Taken.refl hc
  | write slot x =>
    obtain ⟨p, hp, hlt, rfl⟩ := hi
    exact taken_write hc hp hlt
  | destroy x =>
    obtain ⟨h₁, h₂, h₃, h₄, h₅, h₆, h₇⟩ := Taken.refl hc
    exact ⟨counters_congr hc rfl, h₂, h₃, h₄, h₅, h₆, h₇⟩
  | stop => cases hi
  | store c n note =>
    cases c with
    | taken =>
      obtain ⟨hnote, hle, hseen, hnone, -⟩ := hi
      exact taken_publish hc hnote hle hseen hnone
    | givenSeen =>
      obtain ⟨hle, hn, rfl⟩ := hi
      exact taken_seen hc hle hn
    | given | takenSeen => cases hi

theorem may_keeps (t u : Side) (i : Instr T) (s : Memory T) (hne : u ≠ t)
    (hi : may N t i s) : rely N u s (exec i s).1 := by
  cases t with
  | producer =>
    cases u with
    | producer => exact absurd rfl hne
    | consumer => exact producer_keeps hi
  | consumer =>
    cases u with
    | producer => exact consumer_keeps hi
    | consumer => exact absurd rfl hne

/-! ## The memory at every moment -/

/-- The counters and the history of the ring. -/
structure Sound (N : Nat) (s : Memory T) : Prop where
  counters : Counters N s
  kept : ∃ queue, Kept s.popped queue s.removed s.accepted

theorem Sound.exec {t : Side} {i : Instr T} {s : Memory T} (h : Sound N s)
    (hi : may N t i s) : Sound N (exec i s).1 := by
  cases t with
  | producer =>
    obtain ⟨xs, hg⟩ := producer_keeps hi h.counters
    obtain ⟨queue, hk⟩ := h.kept
    refine ⟨hg.counters, queue ++ xs, ?_⟩
    rw [hg.popped, hg.removed, hg.accepted]
    exact hk.push xs
  | consumer =>
    refine ⟨(consumer_keeps hi h.counters).counters, ?_⟩
    cases i with
    | load c => exact h.kept
    | read slot => exact h.kept
    | write slot x => exact h.kept
    | destroy x => exact hi
    | stop => cases hi
    | store c n note =>
      cases c with
      | taken =>
        obtain ⟨hnote, -, -, -, queue, hk⟩ := hi
        refine ⟨queue, ?_⟩
        show Kept _ queue _ (s.accepted ++ note.accepted)
        rw [hnote, append_nil]
        exact hk
      | givenSeen =>
        obtain ⟨-, -, rfl⟩ := hi
        obtain ⟨queue, hk⟩ := h.kept
        refine ⟨queue, ?_⟩
        show Kept (_ ++ []) queue (_ ++ []) (_ ++ [])
        rw [append_nil, append_nil, append_nil]
        exact hk
      | given | takenSeen => cases hi

end AnticRing
