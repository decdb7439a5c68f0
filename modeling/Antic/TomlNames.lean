import Antic.KeyedTable
import Antic.Toml

/-! # The table of the dotted paths — `toml.c`

    The hash table of the paths under which keys stand, against the list of what was noted
    in it (`Represents`).

    * **`Represents.note`** — noting one more path keeps the table, grown or not.
    * **`Represents.find`** — the slot of a path tells what was noted under it. -/

namespace AnticToml

open AnticDeps FiniteWalk List Function

-- ── The slots of the table ────

/-- The slot where the walk for a path starts. -/
def home (room : Nat) (name : Text) : Nat := (hashMore hashStart name).toNat % room

@[simp] theorem Doc.setSlot_pairs (d : Doc) (i : Nat) (u : Under) :
    (d.setSlot i u).pairs = d.pairs := rfl

@[simp] theorem Doc.setSlot_length (d : Doc) (i : Nat) (u : Under) :
    (d.setSlot i u).names.length = d.names.length := length_set

@[simp] theorem Doc.setSlot_pathOf (d : Doc) (i : Nat) (u : Under) :
    (d.setSlot i u).pathOf = d.pathOf := rfl

theorem Doc.setSlot_slot (d : Doc) {i : Nat} (u : Under) (hi : i < d.names.length) :
    (d.setSlot i u).slot = update d.slot i (some u) := by
  funext j
  by_cases hj : j = i
  · subst hj
    simp [Doc.slot, Doc.setSlot, hi]
  · rw [update_of_ne hj]
    simp [Doc.slot, Doc.setSlot, getElem?_set_ne (Ne.symm hj)]

theorem Doc.slot_lt {d : Doc} {i : Nat} {u : Under} (h : d.slot i = some u) :
    i < d.names.length := by
  by_contra hi
  rw [Doc.slot, getElem?_eq_none (Nat.not_lt.mp hi)] at h
  cases h

theorem Doc.slot_eq {d : Doc} {i : Nat} {u : Under} :
    d.slot i = some u ↔ d.names[i]? = some (some u) := by
  rw [Doc.slot, Option.join_eq_some_iff]

/-- How many slots are taken. -/
def Doc.taken (d : Doc) : Nat := d.names.countP Option.isSome

theorem Doc.exists_free {d : Doc} (h : d.taken < d.names.length) :
    ∃ q, q < d.names.length ∧ d.slot q = none := by
  by_contra hno
  have hall : ∀ o ∈ d.names, o.isSome = true := by
    intro o ho
    obtain ⟨q, hq, rfl⟩ := getElem_of_mem ho
    by_contra hnone
    refine hno ⟨q, hq, ?_⟩
    rw [Doc.slot, getElem?_eq_getElem hq]
    simpa using hnone
  rw [Doc.taken, countP_eq_length.mpr hall] at h
  exact Nat.lt_irrefl _ h

theorem Doc.taken_setSlot {d : Doc} {i : Nat} (u : Under) (hi : i < d.names.length) :
    (d.setSlot i u).taken = if d.slot i = none then d.taken + 1 else d.taken := by
  have hset := countP_set (p := Option.isSome) (a := some u) hi
  have hle : (if d.names[i].isSome then 1 else 0) ≤ d.taken := by
    split
    · exact countP_pos_iff.mpr ⟨_, getElem_mem hi, by assumption⟩
    · exact Nat.zero_le _
  have hslot : d.slot i = d.names[i] := by
    rw [Doc.slot, getElem?_eq_getElem hi, Option.join_some]
  rw [Doc.taken, Doc.setSlot, hset, hslot]
  rw [Doc.taken] at hle ⊢
  cases hd : d.names[i] with
  | none => simp
  | some v =>
    rw [hd] at hle
    exact Nat.sub_add_cancel hle

/-- A slot belongs to its path: the bytes are there, and the hash is that of the path. -/
structure Whole (d : Doc) (u : Under) : Prop where
  pair : u.pair < d.pairs.length
  length : u.length = (d.pathOf u).length
  hash : u.hash = hashMore hashStart (d.pathOf u)

/-- The table finds every slot by its path. -/
structure Table (d : Doc) : Prop where
  room : ∃ k, d.names.length = 2 ^ k
  whole : ∀ i u, d.slot i = some u → Whole d u
  keyed : Keyed d.pathOf (home d.names.length) d.names.length d.slot

/-- The table has this slot. -/
def Doc.Has (d : Doc) (u : Under) : Prop := ∃ i, d.slot i = some u

section Table

variable {d : Doc}

theorem Table.room_pos (h : Table d) : 0 < d.names.length := by
  obtain ⟨k, hk⟩ := h.room
  rw [hk]
  exact Nat.two_pow_pos k

theorem Table.hasKey_iff {name : Text} {u : Under} :
    HasKey d.pathOf d.names.length d.slot name u ↔ d.Has u ∧ d.pathOf u = name := by
  constructor
  · rintro ⟨i, -, hu, hname⟩
    exact ⟨⟨i, hu⟩, hname⟩
  · rintro ⟨⟨i, hu⟩, hname⟩
    exact ⟨i, Doc.slot_lt hu, hu, hname⟩

theorem holds_iff {u : Under} (hu : Whole d u) {name : Text} :
    d.holds name (hashMore hashStart name) u = true ↔ d.pathOf u = name := by
  simp only [Doc.holds, Bool.and_eq_true, beq_iff_eq]
  constructor
  · rintro ⟨-, h⟩
    exact h
  · rintro rfl
    exact ⟨⟨hu.hash, hu.length⟩, rfl⟩

theorem Table.slotFrom_eq (h : Table d) (name : Text) (hash : UInt64) (turns i : Nat) :
    slotFrom d name hash turns i = probe d.slot (d.holds name hash) d.names.length turns i := by
  obtain ⟨k, hk⟩ := h.room
  induction turns generalizing i with
  | zero => rfl
  | succ turns ih =>
    rw [slotFrom, probe]
    cases d.slot i with
    | none => rfl
    | some u => rw [ih, hk, Nat.and_two_pow_sub_one_eq_mod]

/-- **The slot of a path** holds the path, or it is free and no slot holds the path. -/
theorem Table.find (h : Table d) (hfree : d.taken < d.names.length) (name : Text) :
    ∃ p, slotOf d name (hashMore hashStart name) = p ∧ p < d.names.length ∧
      Reached d.slot d.names.length (home d.names.length name) p ∧
      ((∃ u, d.slot p = some u ∧ d.pathOf u = name) ∨
        (d.slot p = none ∧ ∀ u, d.Has u → d.pathOf u ≠ name)) := by
  obtain ⟨k, hk⟩ := h.room
  obtain ⟨q, hq, hempty⟩ := Doc.exists_free hfree
  have hhit : ∀ i u, i < d.names.length → d.slot i = some u →
      (d.holds name (hashMore hashStart name) u = true ↔ d.pathOf u = name) :=
    fun i u _ hu => holds_iff (h.whole i u hu)
  obtain ⟨p, hp, hlt, hreach, hat⟩ := h.keyed.find (Nat.mod_lt _ h.room_pos) hq hempty hhit
  have hstart : (hashMore hashStart name).toNat &&& (d.names.length - 1)
      = home d.names.length name := by
    rw [hk, Nat.and_two_pow_sub_one_eq_mod, home]
  refine ⟨p, ?_, hlt, hreach, ?_⟩
  · rw [slotOf, h.slotFrom_eq, hstart]
    exact hp
  · rcases hat with hu | ⟨hnone, hno⟩
    · exact .inl hu
    · exact .inr ⟨hnone, fun u hu hname => hno u (Table.hasKey_iff.mpr ⟨hu, hname⟩)⟩

/-- **Writing the slot of a path.** -/
theorem Table.put (h : Table d) {u : Under} (hu : Whole d u) {p : Nat} (hp : p < d.names.length)
    (hreach : Reached d.slot d.names.length (home d.names.length (d.pathOf u)) p)
    (hat : (∃ v, d.slot p = some v ∧ d.pathOf v = d.pathOf u) ∨
      (d.slot p = none ∧ ∀ v, d.Has v → d.pathOf v ≠ d.pathOf u)) :
    Table (d.setSlot p u) ∧ ∀ v, (d.setSlot p u).Has v ↔
      v = u ∨ (d.Has v ∧ d.pathOf v ≠ d.pathOf u) := by
  have honly : ∀ q v, q < d.names.length → d.slot q = some v → d.pathOf v = d.pathOf u → q = p := by
    intro q v hq hv hname
    rcases hat with ⟨w, hw, hwname⟩ | ⟨-, hno⟩
    · exact h.keyed.unique q p v w hq hp hv hw (hname.trans hwname.symm)
    · exact absurd hname (hno v ⟨q, hv⟩)
  have hslot := d.setSlot_slot u hp
  have hhas : ∀ v, (d.setSlot p u).Has v ↔ v = u ∨ (d.Has v ∧ d.pathOf v ≠ d.pathOf u) := by
    intro v
    simp only [Doc.Has, hslot]
    constructor
    · rintro ⟨i, hi⟩
      by_cases hip : i = p
      · subst hip
        rw [update_self] at hi
        exact .inl (Option.some.inj hi).symm
      · rw [update_of_ne hip] at hi
        exact .inr ⟨⟨i, hi⟩, fun hname => hip (honly i v (Doc.slot_lt hi) hi hname)⟩
    · rintro (rfl | ⟨⟨i, hi⟩, hname⟩)
      · exact ⟨p, update_self ..⟩
      · refine ⟨i, ?_⟩
        have hip : i ≠ p := by
          rintro rfl
          rcases hat with ⟨w, hw, hwname⟩ | ⟨hnone, -⟩
          · cases hw.symm.trans hi
            exact hname hwname
          · cases hnone.symm.trans hi
        rwa [update_of_ne hip]
  refine ⟨⟨?_, ?_, ?_⟩, hhas⟩
  · obtain ⟨k, hk⟩ := h.room
    exact ⟨k, (d.setSlot_length p u).trans hk⟩
  · intro i v hv
    rcases (hhas v).mp ⟨i, hv⟩ with rfl | ⟨⟨j, hj⟩, -⟩
    · exact ⟨hu.pair, hu.length, hu.hash⟩
    · exact ⟨(h.whole j v hj).pair, (h.whole j v hj).length, (h.whole j v hj).hash⟩
  · rw [hslot, d.setSlot_length p u, d.setSlot_pathOf p u]
    exact h.keyed.put hreach honly

end Table

-- ── Growing the table ────

theorem Table.blank {d : Doc} {k : Nat} (h : d.names = List.replicate (2 ^ k) none) :
    Table d ∧ d.taken = 0 ∧ ∀ u, ¬ d.Has u := by
  have hslot : d.slot = fun _ => none := by
    funext i
    rw [Doc.slot, h, getElem?_replicate]
    split <;> rfl
  refine ⟨⟨⟨k, by rw [h, length_replicate]⟩, ?_, ?_⟩, ?_, ?_⟩
  · intro i u hu
    rw [hslot] at hu
    cases hu
  · rw [hslot]
    exact Keyed.empty ..
  · rw [Doc.taken, h, countP_replicate]
    rfl
  · rintro u ⟨i, hi⟩
    rw [hslot] at hi
    cases hi

/-- **The loop of `grow_names`** moves the slots that are left into the new table. -/
theorem moveSlots (slots : List (Option Under)) {made : Doc} (h : Table made)
    (hroom : made.taken + slots.countP Option.isSome < made.names.length)
    (hwhole : ∀ u, some u ∈ slots → Whole made u)
    (hnew : ∀ u, some u ∈ slots → ∀ v, made.Has v → made.pathOf v ≠ made.pathOf u)
    (hdistinct : slots.Pairwise fun a b =>
      ∀ u v, a = some u → b = some v → made.pathOf u ≠ made.pathOf v) :
    ∃ names, slots.foldl moveSlot made = made.withNames names ∧
      names.length = made.names.length ∧ Table (made.withNames names) ∧
      (made.withNames names).taken = made.taken + slots.countP Option.isSome ∧
      ∀ u, (made.withNames names).Has u ↔ made.Has u ∨ some u ∈ slots := by
  induction slots generalizing made with
  | nil => exact ⟨made.names, rfl, rfl, h, rfl, fun u => by simp [Doc.withNames]⟩
  | cons slot slots ih =>
    rw [pairwise_cons] at hdistinct
    rw [foldl_cons]
    cases slot with
    | none =>
      obtain ⟨names, hfold, hlen, htable, htaken, hhas⟩ := ih h hroom
        (fun u hu => hwhole u (mem_cons_of_mem _ hu))
        (fun u hu => hnew u (mem_cons_of_mem _ hu)) hdistinct.2
      refine ⟨names, hfold, hlen, htable, htaken, ?_⟩
      intro u
      rw [hhas u]
      simp
    | some u =>
      rw [countP_cons_of_pos (by simp)] at hroom ⊢
      have hu := hwhole u mem_cons_self
      obtain ⟨p, hp, hlt, hreach, hat⟩ := h.find (by omega) (made.pathOf u)
      have hnone : made.slot p = none := by
        rcases hat with ⟨v, hv, hname⟩ | ⟨hnone, -⟩
        · exact absurd hname (hnew u mem_cons_self v ⟨p, hv⟩)
        · exact hnone
      obtain ⟨htable, hhas⟩ := h.put hu hlt hreach hat
      have htaken := Doc.taken_setSlot (d := made) u hlt
      rw [if_pos hnone] at htaken
      have hmove : moveSlot made (some u) = made.setSlot p u := by
        rw [moveSlot, hu.hash, hp]
      rw [hmove]
      obtain ⟨names, hfold, hlen, htable', htaken', hhas'⟩ := ih htable
        (by rw [htaken, Doc.setSlot_length]; omega)
        (fun v hv => by
          have hw := hwhole v (mem_cons_of_mem _ hv)
          exact ⟨hw.pair, hw.length, hw.hash⟩)
        (fun v hv w hw => by
          rcases (hhas w).mp hw with rfl | ⟨hw, -⟩
          · exact hdistinct.1 (some v) hv w v rfl rfl
          · exact hnew v (mem_cons_of_mem _ hv) w hw)
        hdistinct.2
      refine ⟨names, hfold, hlen.trans (made.setSlot_length p u), htable', ?_, ?_⟩
      · exact htaken'.trans (by omega)
      · intro v
        refine (hhas' v).trans ?_
        rw [hhas v]
        constructor
        · rintro ((rfl | ⟨hv, -⟩) | hv)
          · exact .inr mem_cons_self
          · exact .inl hv
          · exact .inr (mem_cons_of_mem _ hv)
        · rintro (hv | hv)
          · exact .inl (.inr ⟨hv, hnew u mem_cons_self v hv⟩)
          · rcases mem_cons.mp hv with hv | hv
            · cases hv
              exact .inl (.inl rfl)
            · exact .inr hv

/-- What the work on the table leaves alone. -/
structure Frame (d d' : Doc) : Prop where
  pairs : d'.pairs = d.pairs
  empties : d'.empties = d.empties
  indexed : d'.indexed = d.indexed

theorem Frame.refl (d : Doc) : Frame d d := ⟨rfl, rfl, rfl⟩

theorem Frame.trans {d e f : Doc} (h : Frame d e) (h' : Frame e f) : Frame d f :=
  ⟨h'.pairs.trans h.pairs, h'.empties.trans h.empties, h'.indexed.trans h.indexed⟩

variable {d' : Doc} {notes : List (Text × Int)} {path : Text}

theorem Frame.keyAt {d : Doc} (h : Frame d d') (i : Nat) : d'.keyAt i = d.keyAt i := by
  rw [Doc.keyAt, h.pairs, Doc.keyAt]

theorem Frame.pathOf {d : Doc} (h : Frame d d') (u : Under) : d'.pathOf u = d.pathOf u := by
  rw [Doc.pathOf, h.keyAt, Doc.pathOf]

/-- **`grow_names`** keeps every slot, and leaves room for one more path. -/
theorem growNames_spec {d : Doc} (h : d.names = [] ∨ Table d) :
    Frame d (growNames d) ∧ (growNames d).namesCount = d.namesCount ∧ Table (growNames d) ∧
      (growNames d).taken = d.taken ∧
      d.names.length / 2 + 1 ≤ (growNames d).names.length / 2 ∧
      ∀ u, (growNames d).Has u ↔ d.Has u := by
  obtain ⟨k, hk, hmore⟩ : ∃ k, (if d.names.length == 0 then 64 else d.names.length * 2) = 2 ^ k ∧
      d.names.length / 2 + 1 ≤ 2 ^ k / 2 := by
    rcases h with h | h
    · exact ⟨6, by simp [h], by simp [h]⟩
    · have hpos := h.room_pos
      obtain ⟨k, hk⟩ := h.room
      refine ⟨k + 1, by simp [hk, pow_succ], ?_⟩
      omega
  have hslots : ∀ u, some u ∈ d.names → d.Has u := by
    intro u hu
    obtain ⟨i, hi, hget⟩ := getElem_of_mem hu
    exact ⟨i, Doc.slot_eq.mpr (by rw [getElem?_eq_getElem hi, hget])⟩
  have hwhole : ∀ u, some u ∈ d.names → Whole d u := by
    intro u hu
    obtain ⟨i, hi⟩ := hslots u hu
    rcases h with h | h
    · rw [h] at hu
      cases hu
    · exact h.whole i u hi
  have hdistinct : d.names.Pairwise fun a b =>
      ∀ u v, a = some u → b = some v → d.pathOf u ≠ d.pathOf v := by
    rw [pairwise_iff_getElem]
    intro i j hi hj hij u v hu hv hname
    rcases h with h | h
    · rw [h] at hi
      cases hi
    · have hiu : d.slot i = some u := Doc.slot_eq.mpr (by rw [getElem?_eq_getElem hi, hu])
      have hjv : d.slot j = some v := Doc.slot_eq.mpr (by rw [getElem?_eq_getElem hj, hv])
      exact absurd (h.keyed.unique i j u v hi hj hiu hjv hname) (Nat.ne_of_lt hij)
  obtain ⟨hblank, hnone, hempty⟩ := Table.blank (d := d.withNames (List.replicate (2 ^ k) none)) rfl
  have hlen : (d.withNames (List.replicate (2 ^ k) none)).names.length = 2 ^ k := length_replicate
  have hle : d.names.countP Option.isSome ≤ d.names.length := countP_le_length
  obtain ⟨names, hfold, hnames, htable, htaken, hhas⟩ := moveSlots d.names hblank (by omega)
    (fun u hu => ⟨(hwhole u hu).pair, (hwhole u hu).length, (hwhole u hu).hash⟩)
    (fun u _ v hv => absurd hv (hempty v)) hdistinct
  have hgrow : growNames d = d.withNames names := by
    rw [growNames, hk]
    exact hfold
  rw [hgrow]
  refine ⟨⟨rfl, rfl, rfl⟩, rfl, htable, ?_, ?_, ?_⟩
  · exact htaken.trans (by rw [hnone, Nat.zero_add, Doc.taken])
  · exact hmore.trans_eq (by rw [← hlen, ← hnames]; rfl)
  · intro u
    refine (hhas u).trans ⟨?_, ?_⟩
    · rintro (hu | hu)
      · exact absurd hu (hempty u)
      · exact hslots u hu
    · rintro ⟨i, hi⟩
      exact .inr (mem_of_getElem? (Doc.slot_eq.mp hi))

-- ── What was noted ────

/-- The largest number that was noted under a path, or -1. -/
def largestOf (notes : List (Text × Int)) (path : Text) : Int :=
  ((notes.filter fun n => n.1 == path).map Prod.snd).foldl max (-1)

theorem largestOf_concat_self (notes : List (Text × Int)) (path : Text) (number : Int) :
    largestOf (notes ++ [(path, number)]) path = max (largestOf notes path) number := by
  simp [largestOf]

theorem largestOf_concat_of_ne {name : Text} (number : Int) (h : path ≠ name) :
    largestOf (notes ++ [(path, number)]) name = largestOf notes name := by
  simp [largestOf, h]

theorem largestOf_eq_neg_one (h : path ∉ notes.map Prod.fst) : largestOf notes path = -1 := by
  have hnone : (notes.filter fun n => n.1 == path) = [] := by
    rw [filter_eq_nil_iff]
    intro n hn heq
    exact h (List.mem_map.mpr ⟨n, hn, by simpa using heq⟩)
  rw [largestOf, hnone]
  rfl

/-- The table of a document holds what was noted: each path once, with the largest number
    noted under it.  Half of its slots are free. -/
structure Represents (d : Doc) (notes : List (Text × Int)) : Prop where
  table : d.names = [] ∨ Table d
  counted : d.taken = d.namesCount
  few : d.namesCount ≤ d.names.length / 2
  noted : ∀ u, d.Has u → d.pathOf u ∈ notes.map Prod.fst ∧ u.largest = largestOf notes (d.pathOf u)
  found : ∀ path ∈ notes.map Prod.fst, ∃ u, d.Has u ∧ d.pathOf u = path

theorem Represents.empty {d : Doc} (hnames : d.names = []) (hcount : d.namesCount = 0) :
    Represents d [] := by
  refine ⟨.inl hnames, ?_, ?_, ?_, ?_⟩
  · rw [Doc.taken, hnames, hcount]
    rfl
  · rw [hcount]
    exact Nat.zero_le _
  · rintro u ⟨i, hi⟩
    rw [Doc.slot, hnames] at hi
    cases hi
  · intro path hpath
    cases hpath

theorem Represents.append {d : Doc} (h : Represents d notes) {more : List Pair}
    (hpairs : d'.pairs = d.pairs ++ more) (hnames : d'.names = d.names)
    (hcount : d'.namesCount = d.namesCount) : Represents d' notes := by
  have hslot : d'.slot = d.slot := by
    funext i
    rw [Doc.slot, hnames, Doc.slot]
  have hhas : ∀ u, d'.Has u ↔ d.Has u := by
    intro u
    rw [Doc.Has, hslot, Doc.Has]
  have hpath : ∀ u, d.Has u → d'.pathOf u = d.pathOf u := by
    rintro u ⟨i, hi⟩
    rcases h.table with ht | ht
    · rw [Doc.slot, ht] at hi
      cases hi
    · rw [Doc.pathOf, Doc.pathOf, Doc.keyAt, Doc.keyAt, hpairs,
        getElem?_append_left (ht.whole i u hi).pair]
  refine ⟨?_, ?_, ?_, ?_, ?_⟩
  · rcases h.table with ht | ht
    · exact .inl (hnames.trans ht)
    · refine .inr ⟨?_, ?_, ?_⟩
      · rw [hnames]
        exact ht.room
      · intro i u hu
        rw [hslot] at hu
        have hw := ht.whole i u hu
        have hp := hpath u ⟨i, hu⟩
        refine ⟨?_, hp ▸ hw.length, hp ▸ hw.hash⟩
        rw [hpairs, length_append]
        exact Nat.lt_add_right _ hw.pair
      · rw [hnames, hslot]
        exact ht.keyed.congr fun i u _ hu => hpath u ⟨i, hu⟩
  · rw [hcount, ← h.counted, Doc.taken, hnames, Doc.taken]
  · rw [hcount, hnames]
    exact h.few
  · intro u hu
    rw [hhas u] at hu
    rw [hpath u hu]
    exact h.noted u hu
  · intro path hmem
    obtain ⟨u, hu, hname⟩ := h.found path hmem
    exact ⟨u, (hhas u).mpr hu, (hpath u hu).trans hname⟩

/-- **The slot of a path** tells what was noted under it. -/
theorem Represents.find {d : Doc} (h : Represents d notes) (hnames : d.names ≠ []) (name : Text) :
    match d.slot (slotOf d name (hashMore hashStart name)) with
    | none => name ∉ notes.map Prod.fst
    | some u => u.largest = largestOf notes name := by
  have ht := h.table.resolve_left hnames
  have hfree : d.taken < d.names.length := by
    have := ht.room_pos
    have := h.few
    rw [h.counted]
    omega
  obtain ⟨p, hp, -, -, hat⟩ := ht.find hfree name
  rw [hp]
  rcases hat with ⟨u, hu, hname⟩ | ⟨hnone, hno⟩
  · rw [hu]
    have hlargest := (h.noted u ⟨p, hu⟩).2
    rwa [hname] at hlargest
  · rw [hnone]
    intro hmem
    obtain ⟨u, hu, hname⟩ := h.found name hmem
    exact hno u hu hname

theorem Represents.grow {d : Doc} (h : Represents d notes) :
    Represents (growNames d) notes := by
  obtain ⟨hframe, hcount, htable, htaken, hroom, hhas⟩ := growNames_spec h.table
  refine ⟨.inr htable, ?_, ?_, ?_, ?_⟩
  · rw [htaken, hcount, h.counted]
  · have := h.few
    omega
  · intro u hu
    rw [hframe.pathOf]
    exact h.noted u ((hhas u).mp hu)
  · intro path hmem
    obtain ⟨u, hu, hname⟩ := h.found path hmem
    exact ⟨u, (hhas u).mpr hu, (hframe.pathOf u).trans hname⟩

/-- The table with room for one more path, as `index_pair` leaves it before it writes. -/
theorem Represents.room {d : Doc} (h : Represents d notes)
    (hd : d' = if d.names.length / 2 < d.namesCount + 1 then growNames d else d) :
    Represents d' notes ∧ Frame d d' ∧ d'.namesCount + 1 ≤ d'.names.length / 2 := by
  subst hd
  split
  case isTrue hfull =>
    obtain ⟨hframe, hcount, -, -, hroom, -⟩ := growNames_spec h.table
    refine ⟨h.grow, hframe, ?_⟩
    have := h.few
    omega
  case isFalse hroom => exact ⟨h, Frame.refl d, Nat.not_lt.mp hroom⟩

/-- The slot that was written is the one that noting the path asks for. -/
theorem Represents.written {d : Doc} (h : Represents d notes) {u : Under} {number : Int}
    (hpathOf : d'.pathOf = d.pathOf) (hpath : d.pathOf u = path)
    (hlargest : u.largest = max (largestOf notes path) number)
    (hhas : ∀ v, d'.Has v ↔ v = u ∨ (d.Has v ∧ d.pathOf v ≠ d.pathOf u)) (htable : Table d')
    (hcounted : d'.taken = d'.namesCount) (hfew : d'.namesCount ≤ d'.names.length / 2) :
    Represents d' (notes ++ [(path, number)]) := by
  rw [hpath] at hhas
  refine ⟨.inr htable, hcounted, hfew, ?_, ?_⟩
  · intro v hv
    rw [hpathOf]
    rcases (hhas v).mp hv with rfl | ⟨hv, hne⟩
    · rw [hpath, largestOf_concat_self]
      exact ⟨by simp, hlargest⟩
    · obtain ⟨hmem, hlargest⟩ := h.noted v hv
      rw [largestOf_concat_of_ne number (Ne.symm hne), map_append]
      exact ⟨mem_append_left _ hmem, hlargest⟩
  · intro name hmem
    rw [hpathOf]
    by_cases hne : name = path
    · exact ⟨u, (hhas u).mpr (.inl rfl), hpath.trans hne.symm⟩
    · have hold : name ∈ notes.map Prod.fst := by simpa [hne] using hmem
      obtain ⟨v, hv, rfl⟩ := h.found name hold
      exact ⟨v, (hhas v).mpr (.inr ⟨hv, hne⟩), rfl⟩

/-- **`index_pair` notes a path**: the table holds it with the largest number under it. -/
theorem Represents.note {d : Doc} (h : Represents d notes) {index length : Nat}
    {hash : UInt64} (hindex : index < d.pairs.length) (hlen : length = path.length)
    (hpath : (d.keyAt index).take length = path) (hhash : hash = hashMore hashStart path)
    (number : Int) :
    Frame d (d.note index length hash number) ∧
      Represents (d.note index length hash number) (notes ++ [(path, number)]) := by
  subst hhash
  rw [Doc.note]
  generalize hd : (if d.names.length / 2 < d.namesCount + 1 then growNames d else d) = made
  obtain ⟨hmade, hframe, hroom⟩ := h.room hd.symm
  have hpath' : (made.keyAt index).take length = path := by rw [hframe.keyAt, hpath]
  have ht : Table made := by
    rcases hmade.table with ht | ht
    · rw [ht] at hroom
      cases hroom
    · exact ht
  obtain ⟨p, hp, hlt, hreach, hat⟩ := ht.find (by rw [hmade.counted]; omega) path
  simp only [hpath', hp]
  rcases hat with ⟨u, hu, hname⟩ | ⟨hnone, hno⟩
  · -- the path has a slot, which takes the larger number
    simp only [hu]
    let w : Under := { u with largest := max u.largest number }
    have hpathOf : made.pathOf w = path := hname
    have hw := ht.whole p u hu
    obtain ⟨htable, hhas⟩ := ht.put (u := w) ⟨hw.pair, hw.length, hw.hash⟩ hlt
      (hpathOf ▸ hreach) (.inl ⟨u, hu, hname.trans hpathOf.symm⟩)
    have htaken := Doc.taken_setSlot w hlt
    rw [if_neg (by rw [hu]; simp)] at htaken
    have hlargest := (hmade.noted u ⟨p, hu⟩).2
    rw [hname] at hlargest
    refine ⟨⟨hframe.pairs, hframe.empties, hframe.indexed⟩,
      hmade.written rfl hpathOf (by rw [← hlargest]) hhas htable ?_ ?_⟩
    · exact htaken.trans hmade.counted
    · rw [Doc.setSlot_length]
      exact hmade.few
  · -- the path gets the free slot
    simp only [hnone]
    let w : Under :=
      { pair := index, length, hash := hashMore hashStart path, largest := max (-1) number }
    have hpathOf : made.pathOf w = path := hpath'
    have hw : Whole made w := by
      refine ⟨?_, hlen.trans (by rw [hpathOf]), by rw [hpathOf]⟩
      rw [hframe.pairs]
      exact hindex
    obtain ⟨htable, hhas⟩ := ht.put hw hlt (hpathOf ▸ hreach)
      (.inr ⟨hnone, fun v hv => hpathOf ▸ hno v hv⟩)
    have htaken := Doc.taken_setSlot w hlt
    rw [if_pos hnone] at htaken
    have hfresh : path ∉ notes.map Prod.fst := by
      intro hmem
      obtain ⟨v, hv, hname⟩ := hmade.found path hmem
      exact hno v hv hname
    refine ⟨⟨hframe.pairs, hframe.empties, hframe.indexed⟩,
      hmade.written rfl hpathOf (by rw [largestOf_eq_neg_one hfresh]) hhas ?_ ?_ ?_⟩
    · refine ⟨htable.room, ?_, htable.keyed⟩
      intro i v hv
      exact ⟨(htable.whole i v hv).pair, (htable.whole i v hv).length, (htable.whole i v hv).hash⟩
    · exact htaken.trans (by rw [hmade.counted])
    · exact hroom.trans_eq (by rw [← made.setSlot_length p w])

end AnticToml
