import Antic.LockRecordTable

/-! # Taking a lock, and the marks

    A record of a pair is marked if and only if the reverse of the pair has a record too.
    A take keeps that: it adds the records of the locks that the thread holds, and gives a
    note for each of them whose reverse stood there alone. -/

namespace AnticLockRecords

open AnticCollection List

/-- The table is good, and the marked records are those of the conflicts. -/
structure Orders.Sound (o : Orders) : Prop where
  good : o.Good
  marks : ∀ a b, o.Reported a b ↔ o.Recorded a b ∧ o.Recorded b a

namespace Orders

variable {o : Orders}

theorem not_has_empty {x : Order} : ¬ Orders.empty.Has x := by
  rintro ⟨-, i, hi, -⟩
  exact absurd hi (Nat.not_lt_zero i)

theorem sound_empty : Sound .empty := by
  refine ⟨good_blank (Or.inl rfl), ?_⟩
  intro a b
  constructor
  · rintro ⟨x, hx, -⟩
    exact absurd hx not_has_empty
  · rintro ⟨⟨x, hx, -⟩, -⟩
    exact absurd hx not_has_empty

theorem recorded_forget {lock a b : UInt64} :
    (o.orderForget lock).Recorded a b ↔ o.Recorded a b ∧ a ≠ lock ∧ b ≠ lock := by
  constructor
  · rintro ⟨x, hx, rfl, rfl⟩
    obtain ⟨hold, h1, h2⟩ := has_forget.mp hx
    exact ⟨⟨x, hold, rfl, rfl⟩, h1, h2⟩
  · rintro ⟨⟨x, hx, rfl, rfl⟩, h1, h2⟩
    exact ⟨x, has_forget.mpr ⟨hx, h1, h2⟩, rfl, rfl⟩

theorem reported_forget {lock a b : UInt64} :
    (o.orderForget lock).Reported a b ↔ o.Reported a b ∧ a ≠ lock ∧ b ≠ lock := by
  constructor
  · rintro ⟨x, hx, rfl, rfl, hmark⟩
    obtain ⟨hold, h1, h2⟩ := has_forget.mp hx
    exact ⟨⟨x, hold, rfl, rfl, hmark⟩, h1, h2⟩
  · rintro ⟨⟨x, hx, rfl, rfl, hmark⟩, h1, h2⟩
    exact ⟨x, has_forget.mpr ⟨hx, h1, h2⟩, rfl, rfl, hmark⟩

theorem Sound.forget (h : Sound o) {lock : UInt64} (hlock : IsLock lock) :
    Sound (o.orderForget lock) := by
  refine ⟨good_forget h.good hlock, ?_⟩
  intro a b
  rw [reported_forget, recorded_forget, recorded_forget, h.marks]
  constructor
  · rintro ⟨⟨hab, hba⟩, h1, h2⟩
    exact ⟨⟨hab, h1, h2⟩, hba, h2, h1⟩
  · rintro ⟨⟨hab, h1, h2⟩, hba, -, -⟩
    exact ⟨⟨hab, hba⟩, h1, h2⟩

/-- **A new record** whose mark says whether its reverse has one, and that is marked then. -/
theorem Sound.add (h : Sound o) {o₁ : Orders} {first second : UInt64} (site site' : String)
    (mark : Bool) (hfirst : IsLock first) (hne : first ≠ second)
    (hnew : ¬ o.Recorded first second) (hmark : mark = true ↔ o.Recorded second first)
    (hgood : Good o₁) (hsame : ∀ a b, o₁.Recorded a b ↔ o.Recorded a b)
    (hmarks : ∀ a b, o₁.Reported a b ↔ o.Reported a b ∨ (mark = true ∧ a = second ∧ b = first)) :
    ∃ o', o₁.orderPut 2 ⟨first, second, site, site', mark⟩ = .ok o' ∧ Sound o' ∧
      ∀ a b, o'.Recorded a b ↔ o.Recorded a b ∨ (a = first ∧ b = second) := by
  have hnew₁ : ¬ o₁.Recorded first second := fun hrec => hnew ((hsame _ _).mp hrec)
  obtain ⟨o', hput, hgood', hhas⟩ :=
    puts (r := ⟨first, second, site, site', mark⟩) hgood hfirst hnew₁
  have hrec : ∀ a b, o'.Recorded a b ↔ o.Recorded a b ∨ (a = first ∧ b = second) := by
    intro a b
    rw [← hsame]
    constructor
    · rintro ⟨x, hx, rfl, rfl⟩
      rcases (hhas x).mp hx with rfl | hold
      · exact Or.inr ⟨rfl, rfl⟩
      · exact Or.inl ⟨x, hold, rfl, rfl⟩
    · rintro (⟨x, hx, hab⟩ | ⟨rfl, rfl⟩)
      · exact ⟨x, (hhas x).mpr (Or.inr hx), hab⟩
      · exact ⟨_, (hhas _).mpr (Or.inl rfl), rfl, rfl⟩
  have hrep : ∀ a b, o'.Reported a b ↔
      o₁.Reported a b ∨ (mark = true ∧ a = first ∧ b = second) := by
    intro a b
    constructor
    · rintro ⟨x, hx, rfl, rfl, hm⟩
      rcases (hhas x).mp hx with rfl | hold
      · exact Or.inr ⟨hm, rfl, rfl⟩
      · exact Or.inl ⟨x, hold, rfl, rfl, hm⟩
    · rintro (⟨x, hx, hab⟩ | ⟨hm, rfl, rfl⟩)
      · exact ⟨x, (hhas x).mpr (Or.inr hx), hab⟩
      · exact ⟨_, (hhas _).mpr (Or.inl rfl), rfl, rfl, hm⟩
  refine ⟨o', hput, ⟨hgood', ?_⟩, hrec⟩
  intro a b
  rw [hrep, hmarks, hrec, hrec, h.marks]
  constructor
  · rintro ((⟨hab, hba⟩ | ⟨hm, rfl, rfl⟩) | ⟨hm, rfl, rfl⟩)
    · exact ⟨Or.inl hab, Or.inl hba⟩
    · exact ⟨Or.inl (hmark.mp hm), Or.inr ⟨rfl, rfl⟩⟩
    · exact ⟨Or.inr ⟨rfl, rfl⟩, Or.inl (hmark.mp hm)⟩
  · rintro ⟨hab | ⟨ha, hb⟩, hba | ⟨hb', ha'⟩⟩
    · exact Or.inl (Or.inl ⟨hab, hba⟩)
    · exact Or.inl (Or.inr ⟨hmark.mpr (ha' ▸ hb' ▸ hab), ha', hb'⟩)
    · exact Or.inr ⟨hmark.mpr (ha ▸ hb ▸ hba), ha, hb⟩
    · exact absurd (ha.symm.trans ha') hne

end Orders

-- ── One lock that is held ────

/-- The take of the lock makes a conflict with the one that is held. -/
def Clash (o : Orders) (lock other : UInt64) : Prop :=
  other ≠ lock ∧ o.Recorded lock other ∧ ¬ o.Recorded other lock

variable {lock : UInt64}

/-- What `recordOne` notes, where the reverse order has the slot `reverse`. -/
def noteReverse (lock : UInt64) (site : String) (h : Held) (forward : Option Nat) (o : Orders) :
    (reverse : Option Nat) → Orders × List Note
  | none => (o, [])
  | some i =>
    if (o.slots i).reported then (o, [])
    else ((o.report (some i)).report forward,
      [⟨lock, h.lock, site, h.site, (o.slots i).secondSite, (o.slots i).firstSite⟩])

/-- What `recordOne` records, where the order has the slot `forward`. -/
def putForward (lock : UInt64) (site : String) (h : Held) (marked : Bool) (o : Orders) :
    (forward : Option Nat) → Except Stop Orders
  | some _ => .ok o
  | none => o.orderPut 2 ⟨h.lock, lock, h.site, site, marked⟩

theorem recordOne_eq {site : String} {h : Held} {o : Orders} {reverse forward : Option Nat}
    (hsame : h.lock ≠ lock) (hrev : o.orderFind lock h.lock = .ok reverse)
    (hfwd : o.orderFind h.lock lock = .ok forward) :
    recordOne lock site h o =
      (putForward lock site h reverse.isSome (noteReverse lock site h forward o reverse).1
        forward).map fun o' => (o', (noteReverse lock site h forward o reverse).2) := by
  rw [recordOne, if_neg hsame, hrev, hfwd]
  cases reverse <;> cases forward <;> rfl

/-- **The record of one lock that is held**, and its note. -/
theorem recordOne_spec (site : String) {o : Orders} (hs : o.Sound) {h : Held}
    (hlock : IsLock lock) (hheld : IsLock h.lock) :
    ∃ o' notes, recordOne lock site h o = .ok (o', notes) ∧ o'.Sound ∧
      (∀ a b, o'.Recorded a b ↔ o.Recorded a b ∨ (h.lock ≠ lock ∧ a = h.lock ∧ b = lock)) ∧
      (∀ n ∈ notes, n.lock = lock) ∧
      ((Clash o lock h.lock ∧ notes.map Note.held = [h.lock]) ∨
        (¬ Clash o lock h.lock ∧ notes = [])) := by
  by_cases hsame : h.lock = lock
  · refine ⟨o, [], if_pos hsame, hs, ?_, fun n hn => absurd hn not_mem_nil, Or.inr ⟨?_, rfl⟩⟩
    · intro a b
      constructor
      · exact Or.inl
      · rintro (hab | ⟨hne, -⟩)
        · exact hab
        · exact absurd hsame hne
    · rintro ⟨hne, -⟩
      exact hne hsame
  have hkept : o.Recorded h.lock lock → ∀ a b, o.Recorded a b ↔
      o.Recorded a b ∨ (h.lock ≠ lock ∧ a = h.lock ∧ b = lock) := by
    intro hfwd a b
    constructor
    · exact Or.inl
    · rintro (hab | ⟨-, rfl, rfl⟩)
      · exact hab
      · exact hfwd
  have hnone : ∀ n ∈ ([] : List Note), n.lock = lock := fun n hn => absurd hn not_mem_nil
  rcases hs.good.find (b := h.lock) hlock with ⟨i, hrev, hi, hi1, hi2⟩ | ⟨hrev, hnorev⟩
  · have hlive : IsLock (o.slots i).first := hi1 ▸ hlock
    have hback : o.Recorded lock h.lock := Orders.recorded_iff.mpr ⟨hlock, i, hi, hi1, hi2⟩
    rcases hs.good.find (b := lock) hheld with ⟨j, hfwd, hj, hj1, hj2⟩ | ⟨hfwd, hnofwd⟩
    · -- Both records stand there, so the conflict is marked and nothing changes.
      have hforth : o.Recorded h.lock lock := Orders.recorded_iff.mpr ⟨hheld, j, hj, hj1, hj2⟩
      obtain ⟨x, ⟨-, k, hk, rfl⟩, hk1, hk2, hmark⟩ := (hs.marks lock h.lock).mpr ⟨hback, hforth⟩
      have hki : k = i := hs.good.unique k i hk hi (hk1 ▸ hlock) (hk1.trans hi1.symm)
        (hk2.trans hi2.symm)
      rw [hki] at hmark
      refine ⟨o, [], ?_, hs, hkept hforth, hnone, Or.inr ⟨fun hc => hc.2.2 hforth, rfl⟩⟩
      rw [recordOne_eq hsame hrev hfwd, noteReverse, if_pos hmark]
      rfl
    · -- The reverse stands there alone: it is marked, and the new record is marked too.
      have hunmarked : (o.slots i).reported ≠ true := by
        intro hmark
        have hboth := (hs.marks lock h.lock).mp
          (Orders.reported_iff.mpr ⟨hlock, i, hi, hi1, hi2, hmark⟩)
        exact hnofwd hboth.2
      obtain ⟨o', hput, hsound, hrec⟩ := hs.add h.site site true hheld hsame hnofwd (iff_of_true rfl hback) (Orders.good_report hs.good)
        (fun a b => Orders.recorded_report (i := i)) (by
          intro a b
          rw [Orders.reported_report hi hlive, hi1, hi2]
          constructor
          · rintro (hab | ⟨rfl, rfl⟩)
            · exact Or.inl hab
            · exact Or.inr ⟨rfl, rfl, rfl⟩
          · rintro (hab | ⟨-, rfl, rfl⟩)
            · exact Or.inl hab
            · exact Or.inr ⟨rfl, rfl⟩)
      refine ⟨o', [⟨lock, h.lock, site, h.site, (o.slots i).secondSite, (o.slots i).firstSite⟩],
        ?_, hsound, ?_, ?_, Or.inl ⟨⟨hsame, hback, hnofwd⟩, rfl⟩⟩
      · rw [recordOne_eq hsame hrev hfwd, noteReverse, if_neg hunmarked]
        show Except.map _ ((o.report (some i)).orderPut 2 ⟨h.lock, lock, h.site, site, true⟩) = _
        rw [hput]
        rfl
      · intro a b
        rw [hrec]
        exact or_congr Iff.rfl ⟨fun hab => ⟨hsame, hab⟩, fun hab => hab.2⟩
      · intro n hn
        rw [mem_singleton.mp hn]
  · have hclash : ¬ Clash o lock h.lock := fun hc => hnorev hc.2.1
    rcases hs.good.find (b := lock) hheld with ⟨j, hfwd, hj, hj1, hj2⟩ | ⟨hfwd, hnofwd⟩
    · have hforth : o.Recorded h.lock lock := Orders.recorded_iff.mpr ⟨hheld, j, hj, hj1, hj2⟩
      refine ⟨o, [], ?_, hs, hkept hforth, hnone, Or.inr ⟨hclash, rfl⟩⟩
      rw [recordOne, if_neg hsame, hrev, hfwd]
      rfl
    · obtain ⟨o', hput, hsound, hrec⟩ := hs.add h.site site false hheld hsame hnofwd (iff_of_false Bool.false_ne_true hnorev) hs.good
        (fun a b => Iff.rfl) (by
          intro a b
          constructor
          · exact Or.inl
          · rintro (hab | ⟨hfalse, -⟩)
            · exact hab
            · exact absurd hfalse Bool.false_ne_true)
      refine ⟨o', [], ?_, hsound, ?_, hnone, Or.inr ⟨hclash, rfl⟩⟩
      · rw [recordOne_eq hsame hrev hfwd]
        show Except.map _ (o.orderPut 2 ⟨h.lock, lock, h.site, site, false⟩) = _
        rw [hput]
        rfl
      · intro a b
        rw [hrec]
        exact or_congr Iff.rfl ⟨fun hab => ⟨hsame, hab⟩, fun hab => hab.2⟩

-- ── Every lock that is held ────

/-- The locks of a stack. -/
def locksOf (held : List Held) : List UInt64 := held.map Held.lock

theorem mem_locksOf_cons {h : Held} {rest : List Held} {a : UInt64} :
    a ∈ locksOf (h :: rest) ↔ a = h.lock ∨ a ∈ locksOf rest := mem_cons

/-- **The loop of `order_take`**: the records and the notes of all locks that are held. -/
theorem recordAll_spec (site : String) (hlock : IsLock lock) {held : List Held}
    (hheld : ∀ h ∈ held, IsLock h.lock) (hnodup : (locksOf held).Nodup) {o : Orders}
    (hs : o.Sound) :
    ∃ o' notes, recordAll lock site held o = .ok (o', notes) ∧ o'.Sound ∧ (∀ a b, o'.Recorded a b ↔
        o.Recorded a b ∨ (a ∈ locksOf held ∧ a ≠ lock ∧ b = lock)) ∧
      (∀ n ∈ notes, n.lock = lock) ∧ (notes.map Note.held).Nodup ∧
      ∀ a, a ∈ notes.map Note.held ↔ a ∈ locksOf held ∧ Clash o lock a := by
  induction held generalizing o with
  | nil =>
    refine ⟨o, [], rfl, hs, ?_, fun n hn => absurd hn not_mem_nil, nodup_nil, ?_⟩
    · intro a b
      constructor
      · exact Or.inl
      · rintro (hab | ⟨hmem, -⟩)
        · exact hab
        · exact absurd hmem not_mem_nil
    · intro a
      constructor
      · intro hmem
        exact absurd hmem not_mem_nil
      · rintro ⟨hmem, -⟩
        exact absurd hmem not_mem_nil
  | cons h rest ih =>
    obtain ⟨hfresh, hnodup'⟩ := nodup_cons.mp hnodup
    obtain ⟨o₁, first, hone, hs₁, hrec₁, hlock₁, hnotes₁⟩ :=
      recordOne_spec site hs hlock (hheld h mem_cons_self)
    obtain ⟨o', more, hall, hs', hrec', hlock', hnodup₂, hmem'⟩ :=
      ih (fun k hk => hheld k (mem_cons_of_mem h hk)) hnodup' hs₁
    have hclash : ∀ a, a ≠ h.lock → (Clash o₁ lock a ↔ Clash o lock a) := by
      intro a hne
      have hback : o₁.Recorded lock a ↔ o.Recorded lock a := by
        rw [hrec₁]
        constructor
        · rintro (hab | ⟨hsame, heq, -⟩)
          · exact hab
          · exact absurd heq.symm hsame
        · exact Or.inl
      have hforth : o₁.Recorded a lock ↔ o.Recorded a lock := by
        rw [hrec₁]
        constructor
        · rintro (hab | ⟨-, heq, -⟩)
          · exact hab
          · exact absurd heq hne
        · exact Or.inl
      rw [Clash, Clash, hback, hforth]
    have hfirst : ∀ a, a ∈ first.map Note.held ↔ a = h.lock ∧ Clash o lock a := by
      intro a
      rcases hnotes₁ with ⟨hc, hmap⟩ | ⟨hc, rfl⟩
      · rw [hmap, mem_singleton]
        constructor
        · rintro rfl
          exact ⟨rfl, hc⟩
        · exact fun ha => ha.1
      · constructor
        · intro hmem
          exact absurd hmem not_mem_nil
        · rintro ⟨rfl, hc'⟩
          exact absurd hc' hc
    refine ⟨o', first ++ more, ?_, hs', ?_, ?_, ?_, ?_⟩
    · rw [recordAll, hone]
      show Except.bind (recordAll lock site rest o₁) _ = _
      rw [hall]
      rfl
    · intro a b
      rw [hrec', hrec₁, mem_locksOf_cons]
      constructor
      · rintro ((hab | ⟨hne, rfl, rfl⟩) | ⟨hmem, hne, rfl⟩)
        · exact Or.inl hab
        · exact Or.inr ⟨Or.inl rfl, hne, rfl⟩
        · exact Or.inr ⟨Or.inr hmem, hne, rfl⟩
      · rintro (hab | ⟨rfl | hmem, hne, rfl⟩)
        · exact Or.inl (Or.inl hab)
        · exact Or.inl (Or.inr ⟨hne, rfl, rfl⟩)
        · exact Or.inr ⟨hmem, hne, rfl⟩
    · intro n hn
      rcases mem_append.mp hn with hn | hn
      · exact hlock₁ n hn
      · exact hlock' n hn
    · rw [map_append]
      refine nodup_append.mpr ⟨?_, hnodup₂, ?_⟩
      · rcases hnotes₁ with ⟨-, hmap⟩ | ⟨-, rfl⟩
        · rw [hmap]
          exact nodup_singleton _
        · exact nodup_nil
      · intro a ha b hb hab
        have hin : a ∈ locksOf rest := ((hmem' a).mp (hab ▸ hb)).1
        rw [((hfirst a).mp ha).1] at hin
        exact hfresh hin
    · intro a
      rw [map_append, mem_append, hfirst, hmem', mem_locksOf_cons]
      constructor
      · rintro (⟨rfl, hc⟩ | ⟨hmem, hc⟩)
        · exact ⟨Or.inl rfl, hc⟩
        · have hne : a ≠ h.lock := fun heq => hfresh (heq ▸ hmem)
          exact ⟨Or.inr hmem, (hclash a hne).mp hc⟩
      · rintro ⟨rfl | hmem, hc⟩
        · exact Or.inl ⟨rfl, hc⟩
        · have hne : a ≠ h.lock := fun heq => hfresh (heq ▸ hmem)
          exact Or.inr ⟨hmem, (hclash a hne).mpr hc⟩

-- ── The stack ────

/-- The stack holds what the thread holds, each lock once. -/
structure Stack.Sound (k : Stack) : Prop where
  count : k.count = k.held.length
  deep : k.count ≤ HELD_MAX
  nodup : (locksOf k.held).Nodup
  live : ∀ h ∈ k.held, IsLock h.lock

theorem heldAlready_iff {k : Stack} : heldAlready k lock = true ↔ lock ∈ locksOf k.held := by
  rw [heldAlready, List.any_eq_true, locksOf, List.mem_map]
  constructor
  · rintro ⟨h, hmem, heq⟩
    exact ⟨h, hmem, of_decide_eq_true heq⟩
  · rintro ⟨h, hmem, heq⟩
    exact ⟨h, hmem, decide_eq_true heq⟩

/-- A take of a lock that the thread does not hold puts it on top. -/
theorem Stack.Sound.push {k : Stack} (h : k.Sound) (site : String) (hlock : IsLock lock)
    (hnew : lock ∉ locksOf k.held) (hroom : k.count < HELD_MAX) :
    (k.push lock site).Sound ∧
      ∀ a, a ∈ locksOf (k.push lock site).held ↔ a ∈ locksOf k.held ∨ a = lock := by
  have hpush : k.push lock site = ⟨k.held ++ [⟨lock, site⟩], k.count + 1⟩ := by
    rw [Stack.push, if_pos hroom]
  have hlocks : locksOf (k.push lock site).held = locksOf k.held ++ [lock] := by
    rw [hpush, locksOf, map_append]
    rfl
  refine ⟨⟨?_, ?_, ?_, ?_⟩, ?_⟩
  · rw [hpush, length_append, h.count]
    rfl
  · exact hroom
  · rw [hlocks]
    refine nodup_append.mpr ⟨h.nodup, nodup_singleton _, ?_⟩
    rintro a ha b hb rfl
    exact hnew (mem_singleton.mp hb ▸ ha)
  · intro x hx
    rw [hpush] at hx
    rcases mem_append.mp hx with hx | hx
    · exact h.live x hx
    · rw [mem_singleton.mp hx]
      exact hlock
  · intro a
    rw [hlocks, mem_append, mem_singleton]

theorem locksOf_eraseLast {held : List Held} (hnodup : (locksOf held).Nodup)
    (hmem : lock ∈ locksOf held) :
    locksOf (eraseLast lock held) = (locksOf held).erase lock ∧
      eraseLast lock held ⊆ held := by
  obtain ⟨x, hx, hxl⟩ := List.mem_map.mp hmem
  obtain ⟨i, hfind⟩ : ∃ i, held.reverse.findIdx? (fun h => decide (h.lock = lock)) = some i := by
    rw [← Option.isSome_iff_exists, findIdx?_isSome, List.any_eq_true]
    exact ⟨x, mem_reverse.mpr hx, decide_eq_true hxl⟩
  obtain ⟨hi, hat, -⟩ := findIdx?_eq_some_iff_getElem.mp hfind
  rw [length_reverse] at hi
  have hj : held.length - 1 - i < (locksOf held).length := by
    rw [locksOf, length_map]
    omega
  have hlock : (locksOf held)[held.length - 1 - i] = lock := by
    rw [getElem_reverse] at hat
    exact (getElem_map ..).trans (of_decide_eq_true hat)
  have herase : eraseLast lock held = held.eraseIdx (held.length - 1 - i) := by
    rw [eraseLast, hfind]
  constructor
  · have hdrop := hnodup.erase_getElem (held.length - 1 - i) hj
    rw [hlock] at hdrop
    rw [hdrop, herase, locksOf, locksOf, eraseIdx_map]
  · rw [herase]
    exact eraseIdx_subset

theorem Stack.Sound.give {k : Stack} (h : k.Sound) (hmem : lock ∈ locksOf k.held) :
    (k.give lock).Sound ∧ ∀ a, a ∈ locksOf (k.give lock).held ↔ a ∈ locksOf k.held ∧ a ≠ lock := by
  have hlen : (locksOf k.held).length = k.count := by rw [locksOf, length_map, h.count]
  have hpos : 0 < k.count := hlen ▸ length_pos_of_mem hmem
  have hgive : k.give lock = ⟨eraseLast lock k.held, k.count - 1⟩ := by
    rw [Stack.give, if_neg (Nat.ne_of_gt hpos), if_neg (Nat.not_lt.mpr h.deep)]
  obtain ⟨hlocks, hsub⟩ := locksOf_eraseLast h.nodup hmem
  refine ⟨⟨?_, ?_, ?_, ?_⟩, ?_⟩
  · have hleft : (eraseLast lock k.held).length = (locksOf k.held).length - 1 := by
      rw [← length_erase_of_mem hmem, ← hlocks, locksOf, length_map]
    rw [hgive, hleft, hlen]
  · rw [hgive]
    exact Nat.le_trans (Nat.sub_le ..) h.deep
  · rw [hgive, hlocks]
    exact h.nodup.erase lock
  · intro x hx
    rw [hgive] at hx
    exact h.live x (hsub hx)
  · intro a
    rw [hgive, hlocks, h.nodup.mem_erase_iff]
    exact and_comm

/-- **`order_take`** of a lock that the thread does not hold. -/
theorem orderTake_spec {o : Orders} (hs : o.Sound) {k : Stack} (hk : k.Sound) (site : String)
    (hlock : IsLock lock) (hnew : lock ∉ locksOf k.held) :
    ∃ o' notes, orderTake o k lock site = .ok (o', k.push lock site, notes) ∧ o'.Sound ∧
      (∀ a b, o'.Recorded a b ↔ o.Recorded a b ∨ (a ∈ locksOf k.held ∧ b = lock)) ∧
      (∀ n ∈ notes, n.lock = lock) ∧ (notes.map Note.held).Nodup ∧
      ∀ a, a ∈ notes.map Note.held ↔ a ∈ locksOf k.held ∧ Clash o lock a := by
  obtain ⟨o', notes, hall, hs', hrec, hnotes, hnodup, hmem⟩ :=
    recordAll_spec site hlock hk.live hk.nodup hs
  refine ⟨o', notes, ?_, hs', ?_, hnotes, hnodup, hmem⟩
  · by_cases hpos : k.count > 0
    · rw [orderTake, if_pos hpos, hall]
      rfl
    · have hnil : k.held = [] := by
        rw [← length_eq_zero_iff, ← hk.count]
        exact Nat.eq_zero_of_not_pos hpos
      rw [hnil] at hall
      cases hall
      rw [orderTake, if_neg hpos]
      rfl
  · intro a b
    rw [hrec]
    refine or_congr Iff.rfl ⟨fun hab => ⟨hab.1, hab.2.2⟩, ?_⟩
    rintro ⟨ha, rfl⟩
    exact ⟨ha, fun heq => hnew (heq ▸ ha), rfl⟩

end AnticLockRecords
