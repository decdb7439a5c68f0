import Antic.ListWalks
import Antic.Patterns

/-! # Patches of a byte sequence — `anti_rt_bytes_patch`

    The walk that writes searches data that it has changed, and reads the bytes that it looks
    for again at each place.  A write goes into a place that the walk has passed, and a search
    from behind it reads only what stands from there on, so the walk takes the greedy places
    of the original data as long as no write reaches the bytes that it looks for. -/

namespace AnticPattern

open ListWalks List

-- ── Regions ────

@[simp] theorem Region.length_bytes (r : Region) (memory : Memory) :
    (r.bytes memory).length = r.length := by
  simp [Region.bytes]

theorem Region.getElem?_bytes (r : Region) (memory : Memory) {k : ℕ} (hk : k < r.length) :
    (r.bytes memory)[k]? = some (memory (r.start + k)) := by
  simp [Region.bytes, hk]

theorem Region.bytes_congr {r s : Region} {memory other : Memory} (hlength : r.length = s.length)
    (h : ∀ k < r.length, memory (r.start + k) = other (s.start + k)) :
    r.bytes memory = s.bytes other := by
  rw [Region.bytes, Region.bytes, ← hlength]
  exact map_congr_left fun k hk => h k (mem_range.mp hk)

/-- The bytes of a region stand at a place of the data: byte by byte. -/
theorem stands_bytes {data find : Region} {memory other : Memory} {i : ℕ}
    (hs : Stands (data.bytes memory) (find.bytes other) i) {u : ℕ} (hu : u < find.length) :
    memory (data.start + i + u) = other (find.start + u) := by
  have hget := prefix_iff_getElem?.mp hs u (by simpa using hu)
  have hfind : find.bytes other ≠ [] := by
    rw [← length_pos_iff, Region.length_bytes]
    omega
  have hbound := hs.bound hfind
  simp only [Region.length_bytes] at hbound
  rw [getElem?_drop, Region.getElem?_bytes _ _ (by omega), ← Nat.add_assoc] at hget
  have hread := Region.getElem?_bytes find other hu
  rw [getElem?_eq_getElem (by simpa using hu)] at hread
  exact Option.some.inj (hget.trans hread)

-- ── Writes ────

/-- The byte that a write puts at an index of its place. -/
def byteAt (bytes : Bytes) (offset i : ℕ) : UInt8 := bytes.getD (i - offset) 0

/-- The indexes of a place that a write reaches. -/
def Reached (bytes : Bytes) (offset i : ℕ) : Prop := offset ≤ i ∧ i < offset + bytes.length

section Writes

variable (memory : Memory) {place offset : ℕ} {bytes : Bytes}

theorem copyTo_reached {i : ℕ} (hi : Reached bytes offset i) :
    copyTo memory (place + offset) bytes (place + i) = byteAt bytes offset i := by
  obtain ⟨hle, hlt⟩ := hi
  have hindex : place + i - (place + offset) = i - offset := by omega
  have hin : i - offset < bytes.length := by omega
  rw [copyTo, if_pos (by omega), hindex, byteAt]
  simp [getD_eq_getElem?_getD, hin]

theorem copyTo_else {x : ℕ} (hx : ∀ i, Reached bytes offset i → x ≠ place + i) :
    copyTo memory (place + offset) bytes x = memory x := by
  unfold copyTo
  split_ifs with hle
  · have hout : bytes.length ≤ x - (place + offset) := by
      by_contra hlt
      exact hx (x - place) ⟨by omega, by omega⟩ (by omega)
    simp [getD_eq_getElem?_getD, getElem?_eq_none hout]
  · rfl

/-- A write that reaches nothing of a region leaves its bytes. -/
theorem bytes_copyTo {r : Region} (h : ¬ r.Meets ⟨place + offset, bytes.length⟩) :
    r.bytes (copyTo memory (place + offset) bytes) = r.bytes memory := by
  refine Region.bytes_congr rfl fun k hk => copyTo_else memory fun i hi heq => h ?_
  obtain ⟨hle, hlt⟩ := hi
  simp only [Region.Meets]
  omega

/-- **A write is not read from behind its place.** -/
theorem drop_bytes_copyTo (data : Region) {q k : ℕ} (hk : q + offset + bytes.length ≤ k) :
    (data.bytes (copyTo memory (data.start + q + offset) bytes)).drop k =
      (data.bytes memory).drop k := by
  ext1 j
  rw [getElem?_drop, getElem?_drop]
  by_cases hj : k + j < data.length
  · rw [Region.getElem?_bytes _ _ hj, Region.getElem?_bytes _ _ hj, copyTo_else]
    rintro i ⟨hle, hlt⟩
    omega
  · rw [getElem?_eq_none (by simp; omega), getElem?_eq_none (by simp; omega)]

end Writes

/-- The writes of a list of places, in their order. -/
def writeAll (memory : Memory) (bytes : Bytes) (data : Region) (offset : ℕ) (places : List ℕ) :
    Memory :=
  places.foldl (fun memory q => copyTo memory (data.start + q + offset) bytes) memory

@[simp] theorem writeAll_nil (memory : Memory) (bytes : Bytes) (data : Region) (offset : ℕ) :
    writeAll memory bytes data offset [] = memory := rfl

@[simp] theorem writeAll_cons (memory : Memory) (bytes : Bytes) (data : Region) (offset q : ℕ)
    (places : List ℕ) :
    writeAll memory bytes data offset (q :: places) =
      writeAll (copyTo memory (data.start + q + offset) bytes) bytes data offset places := rfl

/-- No two of the places overlap, and they stand from left to right. -/
def Apart (length : ℕ) (places : List ℕ) : Prop := places.Pairwise fun p q => p + length ≤ q

section WriteAll

variable {memory : Memory} {bytes : Bytes} {data : Region} {offset length : ℕ} {places : List ℕ}

theorem writeAll_else {x : ℕ}
    (hx : ∀ q ∈ places, ∀ i, Reached bytes offset i → x ≠ data.start + q + i) :
    writeAll memory bytes data offset places x = memory x := by
  induction places generalizing memory with
  | nil => rfl
  | cons q places ih =>
    rw [writeAll_cons, ih fun r hr => hx r (mem_cons_of_mem q hr)]
    exact copyTo_else memory (hx q (mem_cons_self ..))

/-- Places apart keep what is written into each of them. -/
theorem writeAll_reached (hfits : offset + bytes.length ≤ length) (hapart : Apart length places)
    {q i : ℕ} (hq : q ∈ places) (hi : Reached bytes offset i) :
    writeAll memory bytes data offset places (data.start + q + i) = byteAt bytes offset i := by
  induction places generalizing memory with
  | nil => cases hq
  | cons p places ih =>
    obtain ⟨hp, hrest⟩ := pairwise_cons.mp hapart
    rw [writeAll_cons]
    rcases mem_cons.mp hq with rfl | hq
    · rw [writeAll_else, copyTo_reached memory hi]
      rintro r hr j ⟨hle, hlt⟩
      have := hp r hr
      have := hi.2
      omega
    · exact ih hrest hq

/-- What the writes change lies in a place, and holds the byte that the write has there. -/
theorem writeAll_changed (hfits : offset + bytes.length ≤ length) (hapart : Apart length places)
    {x : ℕ} (hx : writeAll memory bytes data offset places x ≠ memory x) :
    ∃ q ∈ places, ∃ i, Reached bytes offset i ∧ x = data.start + q + i ∧
      writeAll memory bytes data offset places x = byteAt bytes offset i := by
  by_contra hnone
  refine hx (writeAll_else fun q hq i hi heq => hnone ⟨q, hq, i, hi, heq, ?_⟩)
  rw [heq]
  exact writeAll_reached hfits hapart hq hi

end WriteAll

-- ── The search for the next place ────

variable {find data : Bytes} {start : ℕ}

theorem stands_iff (data : Bytes) (hfind : find ≠ []) (i : ℕ) :
    (data[i]? = find[0]? ∧ (data.drop i).take find.length = find) ↔ Stands data find i := by
  rw [Stands, prefix_iff_eq_take]
  constructor
  · rintro ⟨-, h⟩
    exact h.symm
  · intro h
    refine ⟨?_, h.symm⟩
    have hpos := length_pos_iff.mpr hfind
    calc data[i]? = ((data.drop i).take find.length)[0]? := by
          rw [getElem?_take_of_lt hpos, getElem?_drop, Nat.add_zero]
      _ = find[0]? := by rw [← h]

theorem findLoop_spec (data : Bytes) (hfind : find ≠ []) (turns start : ℕ) :
    match findLoop data find turns start with
    | some i => IsFirst data find start i
    | none => ∀ j, start ≤ j → j < start + turns → ¬ Stands data find j := by
  induction turns generalizing start with
  | zero =>
    intro j hj hlt
    omega
  | succ turns ih =>
    have hhere := stands_iff data hfind start
    rw [findLoop]
    by_cases hs : Stands data find start
    · rw [if_pos (hhere.mpr hs)]
      exact ⟨le_rfl, hs, fun j hj hlt => absurd hlt (Nat.not_lt.mpr hj)⟩
    · rw [if_neg (fun h => hs (hhere.mp h))]
      have hrest := ih (start + 1)
      have hlater : ∀ j, start ≤ j → Stands data find j → start + 1 ≤ j := by
        intro j hj hj'
        rcases hj.eq_or_lt with rfl | hlt
        · exact absurd hj' hs
        · exact hlt
      cases hfound : findLoop data find turns (start + 1) with
      | none =>
        rw [hfound] at hrest
        intro j hj hlt hj'
        exact hrest j (hlater j hj hj') (by omega) hj'
      | some i =>
        rw [hfound] at hrest
        refine ⟨by have := hrest.after; omega, hrest.stands, fun j hj hlt hj' => ?_⟩
        exact hrest.least j (hlater j hj hj') hlt hj'

/-- The search finds the first place at or after its start, or there is none. -/
theorem findBytes_spec (data : Bytes) (hfind : find ≠ []) (start : ℕ) :
    match findBytes data find start with
    | some i => IsFirst data find start i
    | none => ∀ j, start ≤ j → ¬ Stands data find j := by
  have hspec := findLoop_spec data hfind (data.length + 1 - find.length - start) start
  rw [findBytes]
  cases hfound : findLoop data find (data.length + 1 - find.length - start) start with
  | some i =>
    rw [hfound] at hspec
    exact hspec
  | none =>
    rw [hfound] at hspec
    intro j hj hs
    have hbound := hs.bound hfind
    exact hspec j hj (by omega) hs

theorem findBytes_of_isFirst (hfind : find ≠ []) {i : ℕ} (h : IsFirst data find start i) :
    findBytes data find start = some i := by
  have hspec := findBytes_spec data hfind start
  cases hfound : findBytes data find start with
  | none =>
    rw [hfound] at hspec
    exact absurd h.stands (hspec i h.after)
  | some j =>
    rw [hfound] at hspec
    rw [h.unique hspec]

theorem findBytes_of_none (hfind : find ≠ []) (h : ∀ j, start ≤ j → ¬ Stands data find j) :
    findBytes data find start = none := by
  have hspec := findBytes_spec data hfind start
  cases hfound : findBytes data find start with
  | none => rfl
  | some j =>
    rw [hfound] at hspec
    exact absurd hspec.stands (h j hspec.after)

-- ── The walk that counts ────

theorem countPlaces_greedy (hfind : find ≠ []) {P : List ℕ} (h : GreedyFrom data find start P)
    (fuel total : ℕ) (hfuel : P.length < fuel) :
    countPlaces data find fuel start total = some (total + P.length) := by
  induction h generalizing fuel total with
  | done start hnone =>
    obtain _ | fuel := fuel
    · cases hfuel
    simp [countPlaces, findBytes_of_none hfind hnone]
  | step start i rest hi _ ih =>
    obtain _ | fuel := fuel
    · cases hfuel
    rw [length_cons] at hfuel
    rw [countPlaces, findBytes_of_isFirst hfind hi]
    simp only [ih fuel (total + 1) (by omega), length_cons]
    congr 1
    omega

theorem fitsSpan_iff (offset length span : ℤ) :
    fitsSpan offset length span = true ↔ 0 ≤ offset ∧ 0 ≤ length ∧ offset + length ≤ span := by
  simp only [fitsSpan, Bool.and_eq_true, decide_eq_true_eq]
  constructor
  · rintro ⟨⟨⟨h1, h2⟩, -⟩, h4⟩
    exact ⟨h1, h2, by omega⟩
  · rintro ⟨h1, h2, h3⟩
    exact ⟨⟨⟨h1, h2⟩, by omega⟩, by omega⟩

-- ── The walk that writes ────

/-- A stretch of the walk that writes: the places that it takes from a start on, each the
    first one in the memory that the writes before it have left. -/
inductive Writes (data find bytes : Region) (offset : ℕ) :
    Memory → ℕ → List ℕ → Memory → Prop where
  | done (memory : Memory) (start : ℕ) : Writes data find bytes offset memory start [] memory
  | write (memory : Memory) (start i : ℕ) (rest : List ℕ) (after : Memory) :
      IsFirst (data.bytes memory) (find.bytes memory) start i →
      ¬ bytes.Meets ⟨data.start + i + offset, bytes.length⟩ →
      Writes data find bytes offset (copyTo memory (data.start + i + offset) (bytes.bytes memory))
        (i + find.length) rest after →
      Writes data find bytes offset memory start (i :: rest) after

/-- Where the limit leaves room, the walk goes on until the bytes stand nowhere behind. -/
def Stops (data find : Region) (limit : ℤ) (taken start : ℕ) (places : List ℕ) (after : Memory) :
    Prop :=
  limit ≤ 0 ∨ ((taken + places.length : ℕ) : ℤ) < limit →
    ∀ j, start ≤ j → (∀ q ∈ places, q + find.length ≤ j) →
      ¬ Stands (data.bytes after) (find.bytes after) j

section Walk

variable {data find bytes : Region} {offset : ℕ} {memory after : Memory} {places : List ℕ}

theorem Writes.start_le (h : Writes data find bytes offset memory start places after) :
    ∀ q ∈ places, start ≤ q := by
  induction h with
  | done => simp
  | write memory start i rest after hi _ _ ih =>
    have := hi.after
    intro q hq
    rcases mem_cons.mp hq with rfl | hq
    · exact this
    · exact (by omega : start ≤ i + find.length).trans (ih q hq)

theorem Writes.apart (h : Writes data find bytes offset memory start places after) :
    Apart find.length places := by
  induction h with
  | done => exact Pairwise.nil
  | write memory start i rest after hi _ hrest ih => exact pairwise_cons.mpr ⟨hrest.start_le, ih⟩

theorem Writes.eq_writeAll (h : Writes data find bytes offset memory start places after) :
    after = writeAll memory (bytes.bytes memory) data offset places := by
  induction h with
  | done => rfl
  | write memory start i rest after hi hmeets _ ih =>
    have hkept : bytes.bytes (copyTo memory (data.start + i + offset) (bytes.bytes memory)) =
        bytes.bytes memory := bytes_copyTo memory (by simpa using hmeets)
    rw [ih, hkept, writeAll_cons]

theorem writePlace_eq (data bytes : Region) (offset : ℕ) (memory : Memory) (i : ℕ) :
    writePlace data bytes offset memory i =
      if bytes.Meets ⟨data.start + i + offset, bytes.length⟩ then none
      else some (copyTo memory (data.start + i + offset) (bytes.bytes memory)) := by
  unfold writePlace
  split_ifs with hpos hmeets hmeets
  · rfl
  · rfl
  · simp only [Region.Meets] at hmeets
    omega
  · congr 1
    funext x
    have hnil : bytes.bytes memory = [] := length_eq_zero_iff.mp (by simp; omega)
    simp [copyTo, hnil]

/-- What the walk gives comes from such a stretch. -/
theorem patchPlaces_sound (hfind : 0 < find.length) {limit : ℤ} {fuel taken : ℕ} {n : ℤ}
    (h : patchPlaces data find bytes offset limit fuel memory start 0 taken = some (n, after)) :
    ∃ places, Writes data find bytes offset memory start places after ∧
      n = (taken + places.length : ℕ) ∧ Stops data find limit taken start places after := by
  induction fuel generalizing memory start taken with
  | zero => cases h
  | succ fuel ih =>
    have hne : find.bytes memory ≠ [] := by
      rw [← length_pos_iff]
      simpa using hfind
    have hspec := findBytes_spec (data.bytes memory) hne start
    rw [patchPlaces] at h
    cases hfound : findBytes (data.bytes memory) (find.bytes memory) start with
    | none =>
      rw [hfound] at h hspec
      obtain ⟨rfl, rfl⟩ := Prod.mk.inj (Option.some.inj h)
      exact ⟨[], .done _ _, by simp, fun _ j hj _ => hspec j hj⟩
    | some i =>
      rw [hfound] at h hspec
      simp only at h hspec
      by_cases hroom : limit ≤ 0 ∨ (taken : ℤ) < limit
      · rw [if_pos hroom, if_neg (by omega), writePlace_eq] at h
        by_cases hmeets : bytes.Meets ⟨data.start + i + offset, bytes.length⟩
        · rw [if_pos hmeets] at h
          cases h
        · rw [if_neg hmeets, Option.bind_some] at h
          obtain ⟨places, hwrites, hn, hstops⟩ := ih h
          refine ⟨i :: places, .write _ _ _ _ _ hspec hmeets hwrites, ?_, ?_⟩
          · rw [hn, length_cons]
            congr 1
            omega
          · intro hmore j _ hbehind
            rw [length_cons] at hmore
            refine hstops ?_ j (hbehind i (mem_cons_self ..))
              fun q hq => hbehind q (mem_cons_of_mem i hq)
            rcases hmore with hmore | hmore
            · exact .inl hmore
            · exact .inr (by push_cast at hmore ⊢; omega)
      · rw [if_neg hroom] at h
        obtain ⟨rfl, rfl⟩ := Prod.mk.inj (Option.some.inj h)
        exact ⟨[], .done _ _, by simp, fun hmore => absurd (by simpa using hmore) hroom⟩

/-- Such a stretch that ends where the limit or the data ends is what the walk gives. -/
theorem patchPlaces_complete (hfind : 0 < find.length) {limit : ℤ} {fuel taken : ℕ}
    (h : Writes data find bytes offset memory start places after)
    (hstops : Stops data find limit taken start places after)
    (hlimit : 0 < limit → ((taken + places.length : ℕ) : ℤ) ≤ limit)
    (hfuel : places.length < fuel) :
    patchPlaces data find bytes offset limit fuel memory start 0 taken =
      some (((taken + places.length : ℕ) : ℤ), after) := by
  have hne : ∀ memory, find.bytes memory ≠ [] := fun memory => by
    rw [← length_pos_iff]
    simpa using hfind
  induction h generalizing fuel taken with
  | done memory start =>
    obtain _ | fuel := fuel
    · cases hfuel
    rw [patchPlaces]
    cases hfound : findBytes (data.bytes memory) (find.bytes memory) start with
    | none => simp
    | some i =>
      have hspec := findBytes_spec (data.bytes memory) (hne memory) start
      rw [hfound] at hspec
      have hroom : ¬ (limit ≤ 0 ∨ (taken : ℤ) < limit) := fun hroom =>
        hstops (by simpa using hroom) i hspec.after (by simp) hspec.stands
      simp [hroom]
  | write memory start i rest after hi hmeets _ ih =>
    obtain _ | fuel := fuel
    · cases hfuel
    rw [length_cons] at hfuel hlimit
    have hroom : limit ≤ 0 ∨ (taken : ℤ) < limit := by
      by_cases hpos : 0 < limit
      · have := hlimit hpos
        push_cast at this
        omega
      · exact .inl (by omega)
    have hcount : taken + 1 + rest.length = taken + (i :: rest).length := by
      rw [length_cons]
      omega
    rw [patchPlaces, findBytes_of_isFirst (hne memory) hi]
    simp only [if_pos hroom]
    rw [if_neg (by omega), writePlace_eq, if_neg hmeets, Option.bind_some, ← hcount]
    refine ih ?_ (fun hpos => ?_) (by omega)
    · intro hmore j hj hbehind
      refine hstops ?_ j (by have := hi.after; omega) fun q hq => ?_
      · rw [length_cons]
        rcases hmore with hmore | hmore
        · exact .inl hmore
        · exact .inr (by push_cast at hmore ⊢; omega)
      · rcases mem_cons.mp hq with rfl | hq
        · exact hj
        · exact hbehind q hq
    · have := hlimit hpos
      push_cast at this ⊢
      omega

/-- The places that a negative limit passes over. -/
theorem patchPlaces_skip (bytes : Region) (offset : ℕ) (hfind : 0 < find.length) {limit : ℤ}
    (hlimit : limit ≤ 0) (skip : ℕ) {P : List ℕ}
    (h : GreedyFrom (data.bytes memory) (find.bytes memory) start P)
    (hskip : skip ≤ P.length) (fuel : ℕ) :
    ∃ behind, GreedyFrom (data.bytes memory) (find.bytes memory) behind (P.drop skip) ∧
      (skip = 0 → behind = start) ∧
      patchPlaces data find bytes offset limit (fuel + skip) memory start skip 0 =
        patchPlaces data find bytes offset limit fuel memory behind 0 0 := by
  induction skip generalizing start P with
  | zero => exact ⟨start, h, fun _ => rfl, rfl⟩
  | succ skip ih =>
    cases h with
    | done => simp at hskip
    | step _ i rest hi hrest =>
      rw [Region.length_bytes] at hrest
      obtain ⟨behind, hbehind, -, heq⟩ := ih hrest (by simpa using hskip)
      refine ⟨behind, hbehind, by simp, ?_⟩
      rw [← Nat.add_assoc, patchPlaces, findBytes_of_isFirst
        (by rw [← length_pos_iff]; simpa using hfind) hi]
      simp only [if_pos (Or.inl hlimit : limit ≤ 0 ∨ ((0 : ℕ) : ℤ) < limit)]
      rw [if_pos (by push_cast; omega), ← heq]
      congr 1
      push_cast
      omega

end Walk

end AnticPattern
