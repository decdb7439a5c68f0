import Antic.TomlReads
import Antic.TomlRepeats

/-! # The numbers of the `[[name]]` tables — `toml.c`

    A text is read header by header.  A section is a header with the table it opened and the keys of
    the pairs below it (`Section`), and a state of the read tells the sections so far (`progress`).

    * **`Progress.Sound`** — what every state of a read holds: a `[[name]]` header opened the number
      past the largest one under the name, and no key read before it lies at or under its table.
    * **`array_tables_numbered`** — so the `k`-th `[[name]]` header opens `name.k` where every
      earlier one has a pair and no other key lies under the name. -/

namespace AnticToml

open AnticDeps Contracts List

-- ── Sections ────

/-- A header, the table that it opened and the keys of the pairs below it.  What stands
    before the first header is a section without a name. -/
structure Section where
  array : Bool
  name : Text
  table : Text
  keys : List Text
deriving DecidableEq, Repr

/-- The section of a `[[name]]` header. -/
def Section.opens (s : Section) (name : Text) : Bool := s.array && s.name == name

/-- The keys below the headers, in the order of the text. -/
def keysOf (sections : List Section) : List Text := sections.flatMap Section.keys

/-- A state at the head of the loop of `anti_rt_toml_read`, with the sections read so far. -/
structure Progress where
  reader : Reader
  doc : Doc
  done : List Section
  current : Section
deriving DecidableEq, Repr

def Progress.sections (s : Progress) : List Section := s.done ++ [s.current]

/-- The state before the first byte. -/
def Progress.start (text : Text) : Progress where
  reader := { rest := text }
  doc := {}
  done := []
  current := { array := false, name := [], table := [], keys := [] }

/-- The state after a header, which ends the section before it. -/
def Progress.header (s : Progress) (x : Reader × Doc) (array : Bool) (name : Text) : Progress where
  reader := x.1
  doc := x.2
  done := s.sections
  current := { array, name, table := x.1.table, keys := [] }

/-- The state after a pair, whose keys are new in the section. -/
def Progress.pair (s : Progress) (x : Reader × Doc) : Progress where
  reader := x.1
  doc := x.2
  done := s.done
  current := { s.current with keys := s.current.keys ++ x.2.keys.drop s.doc.keys.length }

/-- A turn of the loop of `anti_rt_toml_read`. -/
def Progress.step (s : Progress) : Except Stop Progress := do
  let r := skipBlank s.reader
  let x ← turn r s.doc
  if r.atHeader then
    let (array, name, _) ← headerName r
    return s.header x array name
  else return s.pair x

/-- The state after so many turns. -/
def progress (text : Text) : Nat → Except Stop Progress
  | 0 => .ok (Progress.start text)
  | n + 1 => do (← progress text n).step

/-- The key lies under the table. -/
def Below (table key : Text) : Prop := table ++ [dot] <+: key

/-- The key is the path of the table or lies under it. -/
def AtOrBelow (table key : Text) : Prop := key = table ∨ Below table key

/-- What a `[[name]]` header opened, after the keys read before it. -/
structure Opened (before : List Text) (s : Section) : Prop where
  number : ∃ n : Nat, (n : Int) = nextNumber before s.name ∧ s.table = numbered s.name n
  fresh : ∀ key ∈ before, ¬ AtOrBelow s.table key
  below : ∀ key ∈ s.keys, Below s.table key

/-- Every `[[name]]` header of these sections opened its number. -/
def AllOpened (sections : List Section) : Prop :=
  ∀ (i : Nat) (s : Section), sections[i]? = some s → s.array = true →
    Opened (keysOf (sections.take i)) s

-- ── Numbers under a name ────

theorem largest_append (keys more : List Text) (name : Text) : largest (keys ++ more) name
      = (more.filterMap (numberAfter name)).foldl max (largest keys name) := by
  rw [largest, filterMap_append, foldl_append, largest]

theorem le_foldl_max (l : List Int) (n : Int) : n ≤ l.foldl max n := by
  induction l generalizing n with
  | nil => exact Int.le_refl n
  | cons m l ih => exact Int.le_trans (Int.le_max_left n m) (ih (max n m))

theorem le_foldl_max_of_mem {l : List Int} {m : Int} (h : m ∈ l) (n : Int) :
    m ≤ l.foldl max n := by
  induction l generalizing n with
  | nil => cases h
  | cons k l ih =>
    rcases mem_cons.mp h with rfl | h
    · exact Int.le_trans (Int.le_max_right n m) (le_foldl_max l (max n m))
    · exact ih h (max n k)

theorem foldl_max_le {l : List Int} {n m : Int} (hn : n ≤ m) (h : ∀ k ∈ l, k ≤ m) :
    l.foldl max n ≤ m := by
  induction l generalizing n with
  | nil => exact hn
  | cons k l ih =>
    refine ih (Int.max_le.mpr ⟨hn, h k mem_cons_self⟩) ?_
    intro j hj
    exact h j (mem_cons_of_mem _ hj)

theorem largest_le (keys : List Text) (name : Text) : largest keys name ≤ int64Max := by
  refine foldl_max_le (by decide) ?_
  intro n hn
  obtain ⟨key, -, hkey⟩ := mem_filterMap.mp hn
  obtain ⟨rest, -, rfl⟩ := numberAfter_eq_some.mp hkey
  exact strtoll_le rest

variable {keys : List Text} {name : Text} {done : List Section}

theorem nextNumber_eq {n : Nat} (h : (n : Int) = nextNumber keys name) :
    (n : Int) = largest keys name + 1 ∧ (n : Int) ≤ int64Max := by
  rw [nextNumber] at h
  split at h
  case isTrue => omega
  case isFalse hne =>
    refine ⟨h, ?_⟩
    have := largest_le keys name
    omega

theorem isDigit_dot : isDigit dot = false := rfl

/-- The number of a table is read back from the keys at and under it. -/
theorem numberAfter_of_atOrBelow {key : Text} {n : Nat} (hn : (n : Int) ≤ int64Max)
    (h : AtOrBelow (numbered name n) key) : numberAfter name key = some (n : Int) := by
  rw [numberAfter_eq_some]
  rcases h with rfl | ⟨rest, rfl⟩
  · refine ⟨decimal n, rfl, ?_⟩
    have hread : strtoll (decimal n ++ []) = n := strtoll_decimal hn (by simp)
    rw [append_nil] at hread
    exact hread.symm
  · refine ⟨decimal n ++ dot :: rest, by simp [numbered], ?_⟩
    refine (strtoll_decimal hn ?_).symm
    intro c hc
    cases hc
    exact isDigit_dot

/-- **No key lies at or under the table of the next number.** -/
theorem not_atOrBelow_next {n : Nat} (h : (n : Int) = nextNumber keys name) :
    ∀ key ∈ keys, ¬ AtOrBelow (numbered name n) key := by
  obtain ⟨hnext, hle⟩ := nextNumber_eq h
  intro key hkey hbelow
  have hmem : (n : Int) ∈ keys.filterMap (numberAfter name) :=
    mem_filterMap.mpr ⟨key, hkey, numberAfter_of_atOrBelow hle hbelow⟩
  have : (n : Int) ≤ largest keys name := le_foldl_max_of_mem hmem _
  omega

-- ── What a header opens ────

theorem headerName_reads (r : Reader) : Reads (headerName r) fun x =>
    Past 0 r.next x.2.2 ∧ x.2.1 ≠ [] ∧ ∀ c ∈ x.2.1, isName c = true := by
  have hskip : Past 0 r.next
      (skipSpaces (if r.next.peek == some openBracket then r.next.next else r.next)) := by
    split
    · exact (next_past_zero _).trans (skipSpaces_past _)
    · exact skipSpaces_past _
  refine Gives.ite (fun _ => Gives.throw rfl) ?_
  intro hlen
  refine Gives.bind (expect_reads _ _) ?_
  intro r' hr'
  have hname := hskip.trans ((Past.of_suffix (dropWhile_suffix isName)).trans
    ((skipSpaces_past _).trans hr'))
  refine Gives.bind (R := fun r'' => Past 0 r' r'') ?_ ?_
  · refine Gives.ite ?_ ?_
    · intro
      refine Gives.weaken (expect_reads r' closeBracket) ?_
      intro r'' hr''
      exact hr''.weaken (Nat.zero_le _)
    · intro
      exact Gives.pure (Past.refl r')
  · intro r'' hr''
    refine Gives.pure ⟨(hname.trans hr'').weaken (Nat.zero_le _), ?_, ?_⟩
    · intro hnil
      refine hlen ?_
      rw [Bool.or_eq_true]
      left
      rw [beq_iff_eq, length_eq_zero_iff]
      exact hnil
    · intro c hc
      exact List.all_eq_true.mp all_takeWhile c hc

theorem Noted.adds {path : Text} {d d' : Doc} (h : Noted d) (hadds : Adds path d d') :
    Noted d' := by
  obtain ⟨more, hpairs, -⟩ := hadds.pairs
  have hkeys : d'.keys = d.keys ++ more.map Pair.key := by
    rw [Doc.keys, hpairs, map_append, Doc.keys]
  refine ⟨?_, ?_⟩
  · rw [hadds.indexed, hpairs, length_append]
    exact Nat.le_add_right_of_le h.indexed
  · have hle : d.indexed ≤ d.keys.length := by
      rw [Doc.keys, length_map]
      exact h.indexed
    rw [hadds.indexed, hkeys, take_append_of_le_length hle]
    exact h.noted.append hpairs hadds.names hadds.namesCount

theorem endTable_adds (path : Text) (d : Doc) (r : Reader) : Adds path d (endTable d r) :=
  ite_addEmpty_adds _ path d r r.table .table

theorem endTable_pairs (d : Doc) (r : Reader) : (endTable d r).pairs = d.pairs := by
  rw [endTable]
  split <;> rfl

/-- What a header leaves: the pairs as they were, and the table it opened. -/
structure HeaderLeaves (r : Reader) (d : Doc) (x : Reader × Doc) : Prop where
  rest : x.1.rest.length ≤ r.next.rest.length
  noted : Noted x.2
  pairs : x.2.pairs = d.pairs
  opened : ∃ array name after, headerName r = .ok (array, name, after) ∧
    (array = true → ∃ n : Nat, (n : Int) = nextNumber d.keys name ∧ x.1.table = numbered name n)

/-- **`read_header`** opens the table of the next number. -/
theorem readHeader_reads {r : Reader} {d : Doc} (h : Noted d) :
    Reads (readHeader r d) (HeaderLeaves r d) := by
  have hended : Noted (endTable d r) := h.adds (endTable_adds [] d r)
  have hpairs := endTable_pairs d r
  have hname := headerName_reads r
  cases hr : headerName r with
  | error e =>
    have he := hname.of_error hr
    subst he
    rw [readHeader, hr]
    exact Gives.throw rfl
  | ok x =>
    obtain ⟨array, name, after⟩ := x
    obtain ⟨hpast, hne, hbytes⟩ := hname.of_ok hr
    obtain ⟨hnoted, hpairs', -, hnext⟩ := hended.repeats hbytes hne
    have hkeys : (endTable d r).keys = d.keys := by rw [Doc.keys, hpairs, Doc.keys]
    rw [hkeys] at hnext
    rw [readHeader, hr]
    simp only [bind, Except.bind]
    generalize repeats (endTable d r) name = y at hnoted hpairs' hnext ⊢
    refine Gives.ite ?_ ?_
    · intro harray
      refine Gives.ite (fun _ => Gives.throw rfl) ?_
      intro hneg
      refine Gives.ite (fun _ => Gives.throw rfl) ?_
      intro
      refine Gives.pure ⟨hpast.rest, hnoted, hpairs'.trans hpairs, array, name, after, hr, ?_⟩
      intro
      refine ⟨_, ?_, rfl⟩
      exact (Int.toNat_of_nonneg (Int.not_lt.mp hneg)).trans hnext
    · intro harray
      refine Gives.pure ⟨hpast.rest, hended, hpairs, array, name, after, hr, ?_⟩
      intro h
      exact absurd h harray

-- ── The states of a read ────

/-- What every state of a read holds. -/
structure Progress.Sound (s : Progress) : Prop where
  noted : Noted s.doc
  keys : s.doc.keys = keysOf s.sections
  table : s.reader.table = s.current.table
  opened : AllOpened s.sections

theorem Progress.start_sound (text : Text) : (Progress.start text).Sound := by
  refine ⟨Noted.empty, rfl, rfl, ?_⟩
  intro i sec hsec harray
  cases i with
  | zero =>
    cases hsec
    cases harray
  | succ i => cases hsec

theorem AllOpened.concat {current : Section} (hdone : AllOpened done)
    (hcurrent : current.array = true → Opened (keysOf done) current) :
    AllOpened (done ++ [current]) := by
  intro i sec hsec harray
  rcases Nat.lt_trichotomy i done.length with hi | rfl | hi
  · rw [getElem?_append_left hi] at hsec
    rw [take_append_of_le_length (Nat.le_of_lt hi)]
    exact hdone i sec hsec harray
  · rw [getElem?_append_right (Nat.le_refl _), Nat.sub_self] at hsec
    cases hsec
    rw [take_left]
    exact hcurrent harray
  · rw [getElem?_eq_none (by rw [length_append, length_singleton]; omega)] at hsec
    cases hsec

theorem AllOpened.left {more : List Section} (h : AllOpened (done ++ more)) :
    AllOpened done := by
  intro i sec hsec harray
  have hi : i < done.length := (List.getElem?_eq_some_iff.mp hsec).1
  have hopened := h i sec (by rw [getElem?_append_left hi, hsec]) harray
  rwa [take_append_of_le_length (Nat.le_of_lt hi)] at hopened

theorem AllOpened.last {current : Section} (h : AllOpened (done ++ [current]))
    (harray : current.array = true) : Opened (keysOf done) current := by
  have hopened := h done.length current (by simp) harray
  rwa [take_left] at hopened

variable {s : Progress}

theorem Progress.Sound.header (h : s.Sound) {r : Reader} {x : Reader × Doc}
    (hx : HeaderLeaves r s.doc x) {array : Bool} {after : Reader}
    (hname : headerName r = .ok (array, name, after)) : (s.header x array name).Sound := by
  have hkeys : x.2.keys = s.doc.keys := by rw [Doc.keys, hx.pairs, Doc.keys]
  refine ⟨hx.noted, ?_, rfl, h.opened.concat ?_⟩
  · change x.2.keys = keysOf (s.sections ++ [_])
    rw [hkeys, h.keys, keysOf, keysOf, flatMap_append]
    exact (append_nil _).symm
  · intro harray
    obtain ⟨array', name', after', hname', hopened⟩ := hx.opened
    cases hname.symm.trans hname'
    obtain ⟨n, hn, htable⟩ := hopened harray
    rw [h.keys] at hn
    refine ⟨⟨n, hn, htable⟩, ?_, ?_⟩
    · change ∀ key ∈ keysOf s.sections, ¬ AtOrBelow x.1.table key
      rw [htable]
      exact not_atOrBelow_next hn
    · intro key hkey
      cases hkey

theorem numbered_ne_nil (name : Text) (n : Nat) : numbered name n ≠ [] := by
  simp [numbered]

theorem Progress.Sound.pair (h : s.Sound) {x : Reader × Doc} {key : Text}
    (htable : x.1.table = s.reader.table)
    (hadds : Adds (pairPath s.reader.table key) s.doc x.2) : (s.pair x).Sound := by
  obtain ⟨more, hpairs, hmore⟩ := hadds.pairs
  have hkeys : x.2.keys = s.doc.keys ++ more.map Pair.key := by
    rw [Doc.keys, hpairs, map_append, Doc.keys]
  have hdrop : x.2.keys.drop s.doc.keys.length = more.map Pair.key := by
    rw [hkeys, drop_left]
  have hcurrent : (s.pair x).current
      = { s.current with keys := s.current.keys ++ more.map Pair.key } := by
    rw [Progress.pair, hdrop]
  refine ⟨h.noted.adds hadds, ?_, ?_, h.opened.left.concat ?_⟩
  · change x.2.keys = keysOf (s.done ++ [(s.pair x).current])
    rw [hcurrent, hkeys, h.keys]
    simp [keysOf, Progress.sections]
  · exact htable.trans h.table
  · rw [hcurrent]
    intro harray
    obtain ⟨hnumber, hfresh, hbelow⟩ := h.opened.last harray
    refine ⟨hnumber, hfresh, ?_⟩
    intro k hk
    rcases mem_append.mp hk with hk | hk
    · exact hbelow k hk
    · obtain ⟨p, hp, rfl⟩ := List.mem_map.mp hk
      obtain ⟨n, -, hn⟩ := hnumber
      have hpath : pairPath s.reader.table key = s.current.table ++ dot :: cstr key := by
        have hne : ¬ (s.current.table.length == 0) = true := by
          rw [beq_iff_eq, length_eq_zero_iff, hn]
          exact numbered_ne_nil _ n
        rw [h.table, pairPath, if_neg hne]
      refine IsPrefix.trans ?_ (hpath ▸ hmore p hp)
      exact ⟨cstr key, by simp⟩

theorem Progress.step_cases {t : Progress} (h : s.step = .ok t) :
    (∃ x array name after, readHeader (skipBlank s.reader) s.doc = .ok x ∧
      headerName (skipBlank s.reader) = .ok (array, name, after) ∧ t = s.header x array name) ∨
    ∃ x, readPair (skipBlank s.reader) s.doc = .ok x ∧ t = s.pair x := by
  rw [Progress.step] at h
  cases hx : turn (skipBlank s.reader) s.doc with
  | error e =>
    rw [hx] at h
    cases h
  | ok x =>
    rw [hx] at h
    rw [turn] at hx
    by_cases hhead : (skipBlank s.reader).atHeader = true
    · rw [if_pos hhead] at hx
      simp only [hhead] at h
      cases hname : headerName (skipBlank s.reader) with
      | error e =>
        rw [hname] at h
        cases h
      | ok y =>
        obtain ⟨array, name, after⟩ := y
        rw [hname] at h
        cases h
        exact .inl ⟨x, array, name, after, hx, rfl, rfl⟩
    · rw [if_neg hhead] at hx
      simp only [hhead] at h
      split at hx
      · cases h
        exact .inr ⟨x, hx, rfl⟩
      · cases hx

/-- **One turn of the read** keeps the states sound. -/
theorem Progress.Sound.step {t : Progress} (h : s.Sound) (hstep : s.step = .ok t) :
    t.Sound := by
  rcases Progress.step_cases hstep with ⟨x, array, name, after, hx, hname, rfl⟩ | ⟨x, hx, rfl⟩
  · exact h.header ((readHeader_reads h.noted).of_ok hx) hname
  · obtain ⟨hpast, key, hadds⟩ := (readPair_reads _ _).of_ok hx
    exact h.pair hpast.table hadds

theorem progress_sound (text : Text) (n : Nat) (h : progress text n = .ok s) : s.Sound := by
  induction n generalizing s with
  | zero =>
    cases h
    exact Progress.start_sound text
  | succ n ih =>
    rw [progress] at h
    cases hp : progress text n with
    | error e =>
      rw [hp] at h
      cases h
    | ok t =>
      rw [hp] at h
      exact (ih hp).step h

-- ── The text from its first byte to its last ────

theorem turn_progress (h : s.Sound) : Reads (turn (skipBlank s.reader) s.doc) fun x =>
      x.1.rest.length < s.reader.rest.length ∧
        ∃ t, s.step = .ok t ∧ t.reader = x.1 ∧ t.doc = x.2 := by
  have hskip := (skipBlank_past s.reader).rest
  have hturn : turn (skipBlank s.reader) s.doc
      = if (skipBlank s.reader).atHeader then readHeader (skipBlank s.reader) s.doc
        else if (skipBlank s.reader).peek.any isBare || (skipBlank s.reader).atQuote then
          readPair (skipBlank s.reader) s.doc
        else .error .failed := rfl
  cases hx : turn (skipBlank s.reader) s.doc with
  | error e =>
    rw [hx] at hturn
    refine Gives.throw ?_
    split at hturn
    · exact (readHeader_reads h.noted).of_error hturn.symm
    · split at hturn
      · exact (readPair_reads _ _).of_error hturn.symm
      · cases hturn
        rfl
  | ok x =>
    rw [hx] at hturn
    refine Gives.pure ?_
    by_cases hhead : (skipBlank s.reader).atHeader = true
    · rw [if_pos hhead] at hturn
      have hleaves := (readHeader_reads h.noted).of_ok hturn.symm
      obtain ⟨array, name, after, hname, -⟩ := hleaves.opened
      refine ⟨?_, s.header x array name, ?_, rfl, rfl⟩
      · have := (next_past (by simpa [Reader.atHeader] using hhead)).rest
        have := hleaves.rest
        omega
      · rw [Progress.step, hx]
        simp only [hhead, hname]
        rfl
    · rw [if_neg hhead] at hturn
      refine ⟨?_, s.pair x, ?_, rfl, rfl⟩
      · split at hturn
        · have := ((readPair_reads _ _).of_ok hturn.symm).1.rest
          omega
        · cases hturn
      · rw [Progress.step, hx]
        simp only [hhead]
        rfl

/-- The document that a state at the end of the text gives. -/
def Progress.Ends (s : Progress) (doc : Doc) : Prop :=
  (skipBlank s.reader).peek = none ∧ doc = endTable s.doc (skipBlank s.reader)

theorem readFrom_progress {text : Text} (fuel : Nat) {n : Nat} (h : progress text n = .ok s)
    (hfuel : s.reader.rest.length < fuel) :
    Reads (readFrom fuel s.reader s.doc) fun doc =>
      ∃ m t, progress text m = .ok t ∧ t.Ends doc := by
  induction fuel generalizing n s with
  | zero => cases hfuel
  | succ fuel ih =>
    refine Gives.ite ?_ ?_
    · intro hend
      exact Gives.pure ⟨n, s, h, by simpa using hend, rfl⟩
    · intro
      refine Gives.bind (turn_progress (progress_sound text n h)) ?_
      rintro ⟨reader, doc⟩ ⟨hlt, t, hstep, rfl, rfl⟩
      have hshort : t.reader.rest.length < s.reader.rest.length := hlt
      refine ih (n := n + 1) ?_ (by omega)
      rw [progress, h]
      exact hstep

/-- **`anti_rt_toml_read` ends**: it refuses the text, or its document is the one that the
    states of the read come to. -/
theorem tomlRead_reads (text : Text) : Reads (tomlRead text) fun doc =>
    ∃ n s, progress text n = .ok s ∧ s.Ends doc :=
  readFrom_progress (text.length + 1) (n := 0) rfl (Nat.lt_succ_self _)

-- ── Counting the headers ────

/-- Under the name stand the tables of its `[[name]]` headers alone, and each of them has a pair. -/
def Alone (sections : List Section) (name : Text) : Prop :=
  ∀ s ∈ sections, (s.opens name = true → s.keys ≠ []) ∧
    (s.opens name = false → ∀ key ∈ s.keys, ¬ Below name key)

theorem largest_of_not_below {more : List Text} (h : ∀ key ∈ more, ¬ Below name key) :
    largest (keys ++ more) name = largest keys name := by
  have hnone : more.filterMap (numberAfter name) = [] := by
    rw [filterMap_eq_nil_iff]
    intro key hkey
    refine numberAfter_eq_none ?_
    rintro rest rfl
    exact h _ hkey ⟨rest, by simp⟩
  rw [largest_append, hnone]
  rfl

theorem largest_of_below {more : List Text} {n : Nat} (hn : (n : Int) = nextNumber keys name)
    (hne : more ≠ []) (h : ∀ key ∈ more, Below (numbered name n) key) :
    largest (keys ++ more) name = n := by
  obtain ⟨hnext, hle⟩ := nextNumber_eq hn
  have hall : ∀ key ∈ more, numberAfter name key = some (n : Int) := by
    intro key hkey
    exact numberAfter_of_atOrBelow hle (.inr (h key hkey))
  rw [largest_append]
  refine Int.le_antisymm (foldl_max_le (by omega) ?_) ?_
  · intro k hk
    obtain ⟨key, hkey, hk'⟩ := mem_filterMap.mp hk
    rw [hall key hkey] at hk'
    exact Int.le_of_eq (Option.some.inj hk').symm
  · obtain ⟨key, hkey⟩ := exists_mem_of_ne_nil more hne
    exact le_foldl_max_of_mem (mem_filterMap.mpr ⟨key, hkey, hall key hkey⟩) _

/-- **The numbers count the headers** of a name that stands alone. -/
theorem largest_of_alone {sections : List Section} (h : AllOpened sections)
    (halone : Alone sections name) : largest (keysOf sections) name
      = (sections.countP fun s => s.opens name : Nat) - 1 := by
  induction sections using List.reverseRecOn with
  | nil => rfl
  | append_singleton done current ih =>
    have hdone := ih h.left fun s hs => halone s (mem_append_left _ hs)
    obtain ⟨hpair, hother⟩ := halone current (by simp)
    have hkeys : keysOf (done ++ [current]) = keysOf done ++ current.keys := by
      simp [keysOf]
    rw [hkeys, countP_append, countP_singleton]
    by_cases hopens : current.opens name = true
    · have hboth : current.array = true ∧ current.name = name := by
        simpa [Section.opens] using hopens
      obtain ⟨harray, rfl⟩ := hboth
      obtain ⟨⟨n, hn, htable⟩, -, hbelow⟩ := h.last harray
      rw [htable] at hbelow
      rw [largest_of_below hn (hpair hopens) hbelow, if_pos hopens]
      have := (nextNumber_eq hn).1
      omega
    · rw [Bool.not_eq_true] at hopens
      rw [largest_of_not_below (hother hopens), hdone, if_neg (by simp [hopens]), Nat.add_zero]

/-- The keys of a section are apart from those of every `[[name]]` header after it. -/
theorem AllOpened.pairwise {sections : List Section} (h : AllOpened sections) :
    sections.Pairwise fun a b => b.array = true → ∀ key ∈ a.keys, key ∉ b.keys := by
  rw [pairwise_iff_getElem]
  intro i j hi hj hij harray key ha hb
  obtain ⟨-, hfresh, hbelow⟩ := h j sections[j] (getElem?_eq_getElem hj) harray
  refine hfresh key ?_ (.inr (hbelow key hb))
  have hmem : sections[i] ∈ sections.take j := by
    rw [mem_take_iff_getElem]
    exact ⟨i, by omega, rfl⟩
  exact mem_flatMap.mpr ⟨_, hmem, ha⟩

-- ── The numbers of a text ────

/-- **The numbers of the `[[name]]` tables.**  In every state of a read, a `[[name]]`
    header opened the number that is one past the largest one after the name and a dot in
    the keys before it.  No key before it lies at or under its table, and the keys below
    it lie under the table, so two headers share no key.  Where every `[[name]]` header so
    far has a pair and nothing else lies under the name, the header opened its own count.
    The count through the hash table is the one over all keys read so far. -/
theorem array_tables_numbered (text : Text) :
    (∀ doc, tomlRead text = .ok doc → ∃ n s, progress text n = .ok s ∧ s.Ends doc) ∧
    ∀ n s, progress text n = .ok s → AllOpened s.sections ∧
      (∀ i sec, s.sections[i]? = some sec → sec.array = true → Alone (s.sections.take i) sec.name →
        sec.table = numbered sec.name ((s.sections.take i).countP fun t => t.opens sec.name)) ∧
      (s.sections.Pairwise fun a b => b.array = true → ∀ key ∈ a.keys, key ∉ b.keys) ∧
      s.doc.keys = keysOf s.sections ∧
      ∀ name, name ≠ [] → (∀ c ∈ name, isName c = true) →
        (repeats s.doc name).2 = nextNumber s.doc.keys name := by
  refine ⟨fun doc hdoc => (tomlRead_reads text).of_ok hdoc, ?_⟩
  intro n s hs
  have hsound := progress_sound text n hs
  refine ⟨hsound.opened, ?_, hsound.opened.pairwise, hsound.keys, ?_⟩
  · intro i sec hsec harray halone
    obtain ⟨⟨k, hk, htable⟩, -, -⟩ := hsound.opened i sec hsec harray
    have hprefix : AllOpened (s.sections.take i) := by
      have := hsound.opened
      rw [← take_append_drop i s.sections] at this
      exact this.left
    have hcount := largest_of_alone hprefix halone
    have hnext := (nextNumber_eq hk).1
    rw [htable]
    congr 1
    omega
  · intro name hne hbytes
    exact (hsound.noted.repeats hbytes hne).2.2.2

/-- Two tables of one name, with a quoted key and a dotted header between them. -/
def twoTables : Text := bytesOf "[[a]]\n'b.c'=1\n[a.x]\n[[a]]\ny=2"

/-- The two `[[a]]` headers open `a.0` and `a.1`. -/
theorem twoTables_numbered : ∃ s, progress twoTables 5 = .ok s ∧ AllOpened s.sections ∧
    s.sections.map Section.table = [[], bytesOf "a.0", bytesOf "a.x", bytesOf "a.1"] ∧
    s.doc.keys = [bytesOf "a.0.b.c", bytesOf "a.1.y"] := by
  have hvalue : ((progress twoTables 5).toOption.map fun s =>
      (s.sections.map Section.table, s.doc.keys))
      = some ([[], bytesOf "a.0", bytesOf "a.x", bytesOf "a.1"],
        [bytesOf "a.0.b.c", bytesOf "a.1.y"]) := by decide +kernel
  cases hs : progress twoTables 5 with
  | error e =>
    rw [hs] at hvalue
    cases hvalue
  | ok s =>
    rw [hs] at hvalue
    have hboth := Prod.mk.inj (Option.some.inj hvalue)
    exact ⟨s, rfl, ((array_tables_numbered twoTables).2 5 s hs).1, hboth.1, hboth.2⟩

/-- A header of another kind gives the name a number. -/
def otherText : Text := bytesOf "[a.5]\nx=1\n[[a]]\ny=1"

/-- The first `[[a]]` header of a text that is accepted opens `a.6`, and no `a.0`. -/
theorem otherText_opens_six :
    (tomlRead otherText).toOption.map Doc.keys = some [bytesOf "a.5.x", bytesOf "a.6.y"] ∧
    ¬ ∀ text n s, progress text n = .ok s → ∀ i sec, s.sections[i]? = some sec → sec.array = true →
      sec.table = numbered sec.name ((s.sections.take i).countP fun t => t.opens sec.name) := by
  refine ⟨by decide +kernel, ?_⟩
  intro h
  have hvalue : (progress otherText 4).toOption.map Progress.sections
      = some [⟨false, [], [], []⟩, ⟨false, bytesOf "a.5", bytesOf "a.5", [bytesOf "a.5.x"]⟩,
        ⟨true, bytesOf "a", bytesOf "a.6", [bytesOf "a.6.y"]⟩] := by decide +kernel
  cases hs : progress otherText 4 with
  | error e =>
    rw [hs] at hvalue
    cases hvalue
  | ok s =>
    rw [hs] at hvalue
    have hsections := Option.some.inj hvalue
    have hfirst := h otherText 4 s hs 2
    rw [hsections] at hfirst
    exact absurd (hfirst _ rfl rfl) (by decide)

end AnticToml
