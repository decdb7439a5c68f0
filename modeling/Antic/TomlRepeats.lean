import Antic.TomlNames

/-! # The number of the next `[[name]]` table — `toml.c`

    What `repeats` gives, said of the keys alone: one past the largest number that follows
    the name and a dot in a key (`largest`).

    * **`Noted.repeats`** — the count through the table is that number. -/

namespace AnticToml

open AnticDeps List

-- ── Numbers ────

variable {rest name key : Text}

theorem digitsValue_decimal (n : Nat) (hrest : ∀ c ∈ rest.head?, isDigit c = false) :
    digitsValue (decimal n ++ rest) = n := by
  have htake : (decimal n ++ rest).takeWhile isDigit = decimal n := by
    rw [takeWhile_append_of_pos (isDigit_of_mem_decimal n)]
    cases rest with
    | nil => simp
    | cons c rest => rw [takeWhile_cons_of_neg (by simp [hrest c rfl]), append_nil]
  rw [digitsValue, htake, decimal_value]

theorem isDigit_apart {c : UInt8} (h : isDigit c = true) :
    isSpace c = false ∧ (c == minus) = false ∧ (c == 43) = false := by
  have hle : 48 ≤ c.toNat := by
    simp only [isDigit, Bool.and_eq_true, decide_eq_true_eq] at h
    exact UInt8.le_iff_toNat_le.mp h.1
  have hne : ∀ b : UInt8, b.toNat < 48 → (c == b) = false := by
    intro b hb
    rw [beq_eq_false_iff_ne]
    rintro rfl
    omega
  refine ⟨?_, hne minus (by decide), hne 43 (by decide)⟩
  rw [isSpace, hne space (by decide), Bool.false_or, Bool.and_eq_false_iff]
  right
  rw [decide_eq_false_iff_not, UInt8.le_iff_toNat_le]
  change ¬ c.toNat ≤ 13
  omega

/-- **`strtoll` reads a number back**, up to the first byte that is no digit. -/
theorem strtoll_decimal {n : Nat} (hn : (n : Int) ≤ int64Max)
    (hrest : ∀ c ∈ rest.head?, isDigit c = false) : strtoll (decimal n ++ rest) = n := by
  have hvalue := digitsValue_decimal n hrest
  cases hd : decimal n with
  | nil => exact absurd hd (decimal_ne_nil n)
  | cons c digits =>
    have hc := isDigit_of_mem_decimal n c (by rw [hd]; exact mem_cons_self)
    obtain ⟨hspace, hminus, hplus⟩ := isDigit_apart hc
    rw [hd, cons_append] at hvalue
    rw [strtoll, cons_append, dropWhile_cons_of_neg (by simp [hspace])]
    simp only [hminus, hplus, Bool.false_eq_true, if_false, hvalue]
    rw [Int.min_eq_left hn, Int.max_eq_right]
    exact Int.le_trans (by decide) (Int.natCast_nonneg n)

theorem strtoll_le (text : Text) : strtoll text ≤ int64Max := by
  exact Int.max_le.mpr ⟨by decide, Int.min_le_right _ _⟩

-- ── The notes of a key ────

/-- What `index_pair` notes of a key from byte `p` on: each path that ends before a dot,
    with the number after the dot. -/
def notesFrom (key : Text) : (p : Nat) → Text → List (Text × Int)
  | _, [] => []
  | p, c :: rest =>
    if !isName c then []
    else if c != dot || p == 0 then notesFrom key (p + 1) rest
    else (key.take p, strtoll rest) :: notesFrom key (p + 1) rest

/-- What `index_pair` notes of a key. -/
def notesOf (key : Text) : List (Text × Int) := notesFrom key 0 key

/-- The number that follows a name and a dot in a key. -/
def numberAfter (name key : Text) : Option Int :=
  if (name ++ [dot]).isPrefixOf key then some (strtoll (key.drop (name.length + 1))) else none

/-- The largest number that follows a name and a dot in any of the keys, or -1. -/
def largest (keys : List Text) (name : Text) : Int :=
  (keys.filterMap (numberAfter name)).foldl max (-1)

theorem drop_name (name : Text) (c : UInt8) (rest : Text) :
    (name ++ c :: rest).drop (name.length + 1) = rest := by
  rw [← drop_drop, drop_left]
  rfl

theorem numberAfter_eq_some {n : Int} :
    numberAfter name key = some n ↔ ∃ rest, key = name ++ dot :: rest ∧ n = strtoll rest := by
  rw [numberAfter]
  constructor
  · intro h
    split at h
    case isTrue hprefix =>
      obtain ⟨rest, rfl⟩ := isPrefixOf_iff_prefix.mp hprefix
      rw [append_assoc, singleton_append, drop_name] at h
      exact ⟨rest, by simp, (Option.some.inj h).symm⟩
    case isFalse => cases h
  · rintro ⟨rest, rfl, rfl⟩
    rw [if_pos (List.isPrefixOf_iff_prefix.2 ⟨rest, by simp⟩), drop_name]

theorem numberAfter_eq_none (h : ∀ rest, key ≠ name ++ dot :: rest) :
    numberAfter name key = none := by
  cases hn : numberAfter name key with
  | none => rfl
  | some n =>
    obtain ⟨rest, hkey, -⟩ := numberAfter_eq_some.mp hn
    exact absurd hkey (h rest)

theorem le_length_of_mem_notesFrom {p : Nat} (hrest : key.drop p = rest) :
    ∀ note ∈ notesFrom key p rest, p ≤ note.1.length := by
  induction rest generalizing p with
  | nil =>
    intro note hnote
    cases hnote
  | cons c rest ih =>
    have hnext : key.drop (p + 1) = rest := by
      rw [← drop_drop, hrest]
      rfl
    intro note hnote
    rw [notesFrom] at hnote
    split at hnote
    · cases hnote
    · split at hnote
      · exact Nat.le_of_succ_le (ih hnext note hnote)
      · rcases mem_cons.mp hnote with rfl | hnote
        · have hlen := congrArg List.length hrest
          rw [length_drop, length_cons] at hlen
          simp only [length_take]
          omega
        · exact Nat.le_of_succ_le (ih hnext note hnote)

theorem notesFrom_filter_of_lt {p : Nat} (hrest : key.drop p = rest) (hp : name.length < p) :
    (notesFrom key p rest).filter (fun n => n.1 == name) = [] := by
  rw [filter_eq_nil_iff]
  intro note hnote heq
  have hle := le_length_of_mem_notesFrom hrest note hnote
  rw [beq_iff_eq] at heq
  rw [heq] at hle
  omega

/-- **The notes of a key under a name** are the number that follows it, if one does. -/
theorem notesFrom_filter (hname : ∀ c ∈ name, isName c = true) (hne : name ≠ []) {p : Nat}
    (hrest : key.drop p = rest) (hp : p ≤ name.length) :
    ((notesFrom key p rest).filter fun n => n.1 == name).map Prod.snd
      = (numberAfter name key).toList := by
  have hpos : name.length ≠ 0 := fun h => hne (length_eq_zero_iff.mp h)
  induction rest generalizing p with
  | nil =>
    have hshort : key.length ≤ p := drop_eq_nil_iff.mp hrest
    rw [numberAfter_eq_none]
    · rfl
    · rintro rest rfl
      rw [length_append, length_cons] at hshort
      omega
  | cons c rest ih =>
    have hnext : key.drop (p + 1) = rest := by
      rw [← drop_drop, hrest]
      rfl
    have hkey : key = key.take p ++ c :: rest := by
      rw [← hrest, take_append_drop]
    have hlen : (key.take p).length = p := by
      have := congrArg List.length hrest
      rw [length_drop, length_cons] at this
      rw [length_take]
      omega
    -- where the name and a dot begin the key, byte `p` is one of theirs
    have hbyte : ∀ tail, key = name ++ dot :: tail → (name ++ [dot])[p]? = some c := by
      intro tail h
      have hat : key[p]? = some c := by
        rw [hkey, getElem?_append_right (Nat.le_of_eq hlen), hlen, Nat.sub_self]
        rfl
      have hsplit : name ++ dot :: tail = (name ++ [dot]) ++ tail := by simp
      have hlt : p < (name ++ [dot]).length := by
        rw [length_append, length_singleton]
        omega
      rw [← getElem?_append_left hlt, ← hsplit, ← h, hat]
    rw [notesFrom]
    by_cases hc : isName c = true
    · rw [if_neg (by simp [hc])]
      rcases Nat.lt_or_eq_of_le hp with hlt | heq
      · split
        · exact ih hnext hlt
        · rw [filter_cons_of_neg, ih hnext hlt]
          rw [beq_iff_eq]
          intro h
          have hlen' : (key.take p).length = name.length := congrArg List.length h
          omega
      · subst heq
        split
        case isTrue hdot =>
          rw [notesFrom_filter_of_lt hnext (Nat.lt_succ_self _), numberAfter_eq_none]
          · rfl
          · intro tail h
            have hdot' := hbyte tail h
            rw [getElem?_append_right (Nat.le_refl _), Nat.sub_self] at hdot'
            simp only [getElem?_cons_zero, Option.some.injEq] at hdot'
            subst hdot'
            simp [hpos] at hdot
        case isFalse hdot =>
          have hcdot : c = dot := by
            by_contra hcd
            simp [hcd] at hdot
          subst hcdot
          by_cases htake : key.take name.length = name
          · rw [filter_cons_of_pos (by simp [htake]),
              notesFrom_filter_of_lt hnext (Nat.lt_succ_self _)]
            rw [numberAfter_eq_some.mpr ⟨rest, by rw [hkey, htake], rfl⟩]
            rfl
          · rw [filter_cons_of_neg (by simp [htake]),
              notesFrom_filter_of_lt hnext (Nat.lt_succ_self _), numberAfter_eq_none]
            · rfl
            · rintro tail rfl
              exact htake take_left
    · rw [if_pos (by simp [hc]), numberAfter_eq_none]
      · rfl
      · intro tail h
        refine hc ?_
        rcases mem_append.mp (mem_of_getElem? (hbyte tail h)) with hmem | hmem
        · exact hname c hmem
        · rw [mem_singleton.mp hmem]
          rfl

/-- The numbers noted under a name are those that follow it in the keys. -/
theorem largestOf_notes (keys : List Text) (hname : ∀ c ∈ name, isName c = true)
    (hne : name ≠ []) : largestOf (keys.flatMap notesOf) name = largest keys name := by
  have hnotes : ((keys.flatMap notesOf).filter fun n => n.1 == name).map Prod.snd
      = keys.filterMap (numberAfter name) := by
    induction keys with
    | nil => rfl
    | cons key keys ih =>
      rw [flatMap_cons, filter_append, map_append, ih]
      have hkey := notesFrom_filter hname hne (drop_zero : key.drop 0 = key) (Nat.zero_le _)
      rw [notesOf, hkey, filterMap_cons]
      cases numberAfter name key <;> rfl
  rw [largestOf, hnotes, largest]

-- ── The loops over a key and over the pairs ────

/-- **The loop of `index_pair`** notes what follows every dot of the key. -/
theorem indexFrom_represents {index : Nat} (rest : Text) {hash : UInt64} {start p : Nat}
    {d : Doc} {notes : List (Text × Int)} (h : Represents d notes)
    (hindex : index < d.pairs.length) (hkey : d.keyAt index = key) (hrest : key.drop p = rest)
    (hstart : start ≤ p) (hhash : hash = hashMore hashStart (key.take start)) :
    Frame d (indexFrom index key hash start p rest d) ∧
      Represents (indexFrom index key hash start p rest d) (notes ++ notesFrom key p rest) := by
  induction rest generalizing hash start p d notes with
  | nil => exact ⟨Frame.refl d, by rwa [notesFrom, append_nil]⟩
  | cons c rest ih =>
    have hnext : key.drop (p + 1) = rest := by
      rw [← drop_drop, hrest]
      rfl
    rw [indexFrom, notesFrom]
    split
    · exact ⟨Frame.refl d, by rwa [append_nil]⟩
    · split
      · exact ih h hindex hkey hnext (Nat.le_succ_of_le hstart) hhash
      · have hmore : hashMore hash ((key.drop start).take (p - start))
            = hashMore hashStart (key.take p) := by
          have htake : key.take p = key.take start ++ (key.drop start).take (p - start) := by
            rw [← take_add, Nat.add_sub_cancel' hstart]
          rw [hhash, htake, hashMore, hashMore, hashMore, foldl_append]
        have hlen : p = (key.take p).length := by
          have := congrArg List.length hrest
          rw [length_drop, length_cons] at this
          rw [length_take]
          omega
        obtain ⟨hframe, hnoted⟩ := h.note hindex hlen (by rw [hkey]) hmore (strtoll rest)
        obtain ⟨hframe', hdone⟩ := ih hnoted (by rw [hframe.pairs]; exact hindex)
          (by rw [hframe.keyAt, hkey]) hnext (Nat.le_succ p : p ≤ p + 1) hmore
        rw [append_assoc, singleton_append] at hdone
        exact ⟨hframe.trans hframe', hdone⟩

/-- The keys of a document. -/
def Doc.keys (d : Doc) : List Text := d.pairs.map Pair.key

/-- The table holds the notes of the pairs that are indexed. -/
structure Noted (d : Doc) : Prop where
  indexed : d.indexed ≤ d.pairs.length
  noted : Represents d ((d.keys.take d.indexed).flatMap notesOf)

theorem Noted.empty : Noted {} := ⟨Nat.le_refl 0, Represents.empty rfl rfl⟩

/-- **`index_pair`**, in a turn of the loop of `repeats`. -/
theorem Noted.step {d : Doc} (h : Noted d) (hlt : d.indexed < d.pairs.length) :
    Noted { indexPair d d.indexed with indexed := d.indexed + 1 } ∧
      (indexPair d d.indexed).pairs = d.pairs ∧ (indexPair d d.indexed).empties = d.empties := by
  have hkeyAt : d.keyAt d.indexed = d.pairs[d.indexed].key := by
    rw [Doc.keyAt, getElem?_eq_getElem hlt]
    rfl
  have hpair : Frame d (indexPair d d.indexed) ∧ Represents (indexPair d d.indexed)
      ((d.keys.take d.indexed).flatMap notesOf ++ notesOf (d.keyAt d.indexed)) :=
    indexFrom_represents (d.keyAt d.indexed) h.noted hlt rfl drop_zero (Nat.le_refl 0) rfl
  obtain ⟨hframe, hdone⟩ := hpair
  refine ⟨⟨?_, ?_⟩, hframe.pairs, hframe.empties⟩
  · change d.indexed + 1 ≤ (indexPair d d.indexed).pairs.length
    rw [hframe.pairs]
    exact hlt
  · have hkeys : (indexPair d d.indexed).keys = d.keys := by
      rw [Doc.keys, hframe.pairs, Doc.keys]
    have hnotes : (d.keys.take (d.indexed + 1)).flatMap notesOf
        = (d.keys.take d.indexed).flatMap notesOf ++ notesOf (d.keyAt d.indexed) := by
      have hget : d.keys[d.indexed]? = some (d.keyAt d.indexed) := by
        rw [Doc.keys, getElem?_map, getElem?_eq_getElem hlt, hkeyAt]
        rfl
      rw [take_add_one, hget, flatMap_append]
      simp
    change Represents _ (((indexPair d d.indexed).keys.take (d.indexed + 1)).flatMap notesOf)
    rw [hkeys, hnotes]
    exact hdone.append (append_nil _).symm rfl rfl

/-- **The loop of `repeats`** leaves no pair that is not indexed. -/
theorem Noted.pending {d : Doc} (h : Noted d) :
    Noted (indexPending d) ∧ (indexPending d).pairs = d.pairs ∧
      (indexPending d).empties = d.empties ∧ (indexPending d).indexed = d.pairs.length := by
  have hloop : ∀ n, n ≤ d.pairs.length - d.indexed →
      let made := (List.range n).foldl
        (fun d _ => { indexPair d d.indexed with indexed := d.indexed + 1 }) d
      Noted made ∧ made.pairs = d.pairs ∧ made.empties = d.empties ∧
        made.indexed = d.indexed + n := by
    intro n
    induction n with
    | zero => exact fun _ => ⟨h, rfl, rfl, rfl⟩
    | succ n ih =>
      intro hn
      rw [range_succ, foldl_append]
      obtain ⟨hmade, hpairs, hempties, hindexed⟩ := ih (Nat.le_of_succ_le hn)
      obtain ⟨hstep, hpairs', hempties'⟩ := hmade.step (by rw [hindexed, hpairs]; omega)
      exact ⟨hstep, hpairs'.trans hpairs, hempties'.trans hempties, by
        rw [foldl_cons, foldl_nil, hindexed]
        rfl⟩
  obtain ⟨hnoted, hpairs, hempties, hindexed⟩ := hloop _ (Nat.le_refl _)
  refine ⟨hnoted, hpairs, hempties, hindexed.trans ?_⟩
  rw [Nat.add_sub_cancel' h.indexed]

/-- The number of the next `[[name]]` table after these keys. -/
def nextNumber (keys : List Text) (name : Text) : Int :=
  if largest keys name = int64Max then -1 else largest keys name + 1

/-- **The hash-indexed count** is one past the largest number that follows the name and a
    dot over all keys read so far. -/
theorem Noted.repeats {d : Doc} (h : Noted d) (hname : ∀ c ∈ name, isName c = true)
    (hne : name ≠ []) :
    Noted (repeats d name).1 ∧ (repeats d name).1.pairs = d.pairs ∧
      (repeats d name).1.empties = d.empties ∧ (repeats d name).2 = nextNumber d.keys name := by
  obtain ⟨hnoted, hpairs, hempties, hindexed⟩ := h.pending
  have hkeys : (indexPending d).keys.take (indexPending d).indexed = d.keys := by
    rw [hindexed, Doc.keys, hpairs, Doc.keys, ← length_map (f := Pair.key), take_length]
  have hrep := hnoted.noted
  rw [hkeys] at hrep
  have hlargest := largestOf_notes d.keys hname hne
  rw [AnticToml.repeats]
  by_cases hnames : (indexPending d).names = []
  · have hnone : largestOf (d.keys.flatMap notesOf) name = -1 := by
      refine largestOf_eq_neg_one ?_
      intro hmem
      obtain ⟨u, ⟨i, hi⟩, -⟩ := hrep.found name hmem
      rw [Doc.slot, hnames] at hi
      cases hi
    simp only [hnames, length_nil, beq_self_eq_true, if_true]
    refine ⟨hnoted, hpairs, hempties, ?_⟩
    rw [nextNumber, ← hlargest, hnone]
    rfl
  · rw [if_neg (by simpa using hnames)]
    have hfind := hrep.find hnames name
    rcases hslot : (indexPending d).slot
      (slotOf (indexPending d) name (hashMore hashStart name)) with - | u
    · rw [hslot] at hfind
      refine ⟨hnoted, hpairs, hempties, ?_⟩
      rw [nextNumber, ← hlargest, largestOf_eq_neg_one hfind]
      rfl
    · rw [hslot] at hfind
      refine ⟨hnoted, hpairs, hempties, ?_⟩
      rw [nextNumber, ← hlargest, ← hfind]
      simp only [beq_iff_eq]

end AnticToml
