import Antic.BytePatches

/-! # The walk over the matches of a pattern

    A search goes on at the end of the match before it, and after an empty match it asks
    for another at the same place first.  The place and that question together give a
    number that each match makes smaller, so the walk ends.  What `advance` gives is what a
    limit takes of the matches of the walk. -/

namespace AnticPattern

open ListWalks

/-- What PCRE2 promises of a pattern over a subject. -/
structure Promises (p : Pattern) (s : Bytes) : Prop where
  /-- No search fails. -/
  cheap : ∀ place options, place ≤ s.length → p.search s place options ≠ .expensive
  /-- A match lies in the subject, at or after the place of its search. -/
  bounds : ∀ place options start stop groups, place ≤ s.length →
    p.search s place options = .found start stop groups →
      place ≤ start ∧ start ≤ stop ∧ stop ≤ s.length
  /-- A retry never gives the empty match at its place. -/
  retried : ∀ place options start stop groups, place ≤ s.length →
    p.search s place options = .found start stop groups → options.retry = true →
      ¬ (start = place ∧ stop = place)

-- ── One search ────

theorem le_passContinuation (rest : Bytes) (k : ℕ) : k ≤ passContinuation rest k := by
  induction rest generalizing k with
  | nil => exact le_rfl
  | cons b rest ih =>
    rw [passContinuation]
    split_ifs
    · have := ih (k + 1)
      omega
    · exact le_rfl

theorem lt_nextCharacter (p : Pattern) (s : Bytes) (k : ℕ) : k < nextCharacter p s k := by
  unfold nextCharacter
  split_ifs
  · omega
  · omega
  · have := le_passContinuation (s.drop (k + 1)) (k + 1)
    omega

/-- The bookkeeping of `advance`, which no search reads. -/
def Cursor.keep (c : Cursor) (last : ℕ) (skip left : ℤ) : Cursor :=
  { c with last := last, skip := skip, left := left }

@[simp] theorem searchOptions_retry (s : Bytes) (c : Cursor) :
    (searchOptions s c).retry = c.options.retry := rfl

theorem search_keep (p : Pattern) (s : Bytes) (fuel : ℕ) (c : Cursor) (last : ℕ) (skip left : ℤ) :
    search p s fuel (c.keep last skip left) =
      (search p s fuel c).map fun r => (r.1, r.2.keep last skip left) := by
  induction fuel generalizing c with
  | zero => rfl
  | succ fuel ih =>
    have hoptions : searchOptions s (c.keep last skip left) = searchOptions s c := rfl
    have hplace : (c.keep last skip left).place = c.place := rfl
    rw [search, search, hoptions, hplace]
    by_cases hover : c.place > s.length
    · rw [if_pos hover, if_pos hover]
      rfl
    · rw [if_neg hover, if_neg hover]
      cases hanswer : p.search s c.place (searchOptions s c) with
      | noMatch =>
        by_cases hretry : c.options.retry = false
        · simp [hanswer, hretry, Cursor.keep]
        · simp only [hanswer, searchOptions_retry, hretry]
          exact ih { c with options := ⟨true, false⟩, place := nextCharacter p s c.place }
      | expensive => simp [hanswer, Cursor.keep]
      | found start stop groups => simp [hanswer, Cursor.keep]

/-- What a search of a cursor finds: a match that the walk has not passed, and the cursor
    at the end of it. -/
structure Next (s : Bytes) (c : Cursor) (f : Found) (c' : Cursor) : Prop where
  after : c.place ≤ f.start
  ordered : f.start ≤ f.stop
  inside : f.stop ≤ s.length
  fresh : c.options.retry = true → ¬ (f.start = c.place ∧ f.stop = c.place)
  place : c'.place = f.stop
  retry : c'.options.retry = true ↔ f.stop = f.start

variable {p : Pattern} {s : Bytes} {c : Cursor} {M : List Found}

/-- **One search ends**, with `DONE` or the next match. -/
theorem search_spec (hp : Promises p s) (fuel : ℕ) (c : Cursor) :
    (∃ c', search p s (fuel + 2) c = some (.ok none, c')) ∨
      ∃ f c', search p s (fuel + 2) c = some (.ok (some f), c') ∧ Next s c f c' := by
  -- a turn that is no retry is the last one
  have hlast : ∀ fuel (c : Cursor), c.options.retry = false →
      (∃ c', search p s (fuel + 1) c = some (.ok none, c')) ∨
        ∃ f c', search p s (fuel + 1) c = some (.ok (some f), c') ∧ Next s c f c' := by
    intro fuel c hretry
    rw [search]
    by_cases hover : c.place > s.length
    · exact Or.inl ⟨c, if_pos hover⟩
    · rw [if_neg hover]
      cases hanswer : p.search s c.place (searchOptions s c) with
      | noMatch => simp [hanswer, hretry]
      | expensive => exact absurd hanswer (hp.cheap _ _ (Nat.not_lt.mp hover))
      | found start stop groups =>
        obtain ⟨h1, h2, h3⟩ := hp.bounds _ _ _ _ _ (Nat.not_lt.mp hover) hanswer
        simp only [hanswer]
        refine Or.inr ⟨_, _, rfl, h1, h2, h3, ?_, rfl, by simp⟩
        intro h
        rw [hretry] at h
        cases h
  by_cases hretry : c.options.retry = false
  · exact hlast (fuel + 1) c hretry
  · rw [search]
    by_cases hover : c.place > s.length
    · exact Or.inl ⟨c, if_pos hover⟩
    · rw [if_neg hover]
      cases hanswer : p.search s c.place (searchOptions s c) with
      | noMatch =>
        simp only [hanswer, searchOptions_retry, hretry]
        have hnext := lt_nextCharacter p s c.place
        rcases hlast fuel { c with options := ⟨true, false⟩, place := nextCharacter p s c.place } rfl
          with hdone | ⟨f, c', hf, hspec⟩
        · exact Or.inl hdone
        · have hafter : nextCharacter p s c.place ≤ f.start := hspec.after
          exact Or.inr ⟨f, c', hf, by omega, hspec.ordered, hspec.inside, by omega, hspec.place,
            hspec.retry⟩
      | expensive => exact absurd hanswer (hp.cheap _ _ (Nat.not_lt.mp hover))
      | found start stop groups =>
        obtain ⟨h1, h2, h3⟩ := hp.bounds _ _ _ _ _ (Nat.not_lt.mp hover) hanswer
        have hretried := hp.retried _ _ _ _ _ (Nat.not_lt.mp hover) hanswer
        simp only [hanswer]
        exact Or.inr ⟨_, _, rfl, h1, h2, h3, hretried, rfl, by simp⟩

-- ── The matches of a walk ────

/-- `search` called from a cursor until `DONE` gives these matches. -/
inductive Searches (p : Pattern) (s : Bytes) : Cursor → List Found → Prop where
  | done (c c' : Cursor) : search p s (searchTurns s) c = some (.ok none, c') → Searches p s c []
  | found (c c' : Cursor) (f : Found) (rest : List Found) :
      search p s (searchTurns s) c = some (.ok (some f), c') → Searches p s c' rest →
      Searches p s c (f :: rest)

/-- What is left of a walk: each match makes it smaller. -/
def potential (s : Bytes) (c : Cursor) : ℕ :=
  2 * (s.length + 1 - c.place) + if c.options.retry then 0 else 1

theorem Next.potential_lt {c' : Cursor} {f : Found} (h : Next s c f c') :
    potential s c' < potential s c := by
  obtain ⟨hafter, hordered, hinside, hfresh, hplace, hretry⟩ := h
  unfold potential
  rw [hplace]
  by_cases hstay : f.stop = c.place
  · -- an empty match where the search started: the next one is a retry
    have hstart : f.start = c.place := by omega
    have hold : c.options.retry = false := by
      by_contra h
      exact hfresh (Bool.eq_true_of_not_eq_false h) ⟨hstart, hstay⟩
    have hnew : c'.options.retry = true := hretry.mpr (by omega)
    rw [hold, hnew, hstay]
    simp
  · split_ifs <;> omega

theorem Next.potential_ge {c' : Cursor} {f : Found} (h : Next s c f c') : 2 ≤ potential s c := by
  obtain ⟨hafter, hordered, hinside, -, -, -⟩ := h
  unfold potential
  omega

theorem exists_searches (hp : Promises p s) (c : Cursor) : ∃ M, Searches p s c M := by
  generalize hn : potential s c = n
  induction n using Nat.strong_induction_on generalizing c with
  | h n ih =>
    rcases search_spec hp s.length c with ⟨c', hdone⟩ | ⟨f, c', hf, hspec⟩
    · exact ⟨[], .done c c' hdone⟩
    · have hless := hspec.potential_lt
      obtain ⟨rest, hrest⟩ := ih (potential s c') (by omega) c' rfl
      exact ⟨f :: rest, .found c c' f rest hf hrest⟩

theorem Searches.unique {N : List Found} (hM : Searches p s c M) (hN : Searches p s c N) :
    M = N := by
  induction hM generalizing N with
  | done c c' hdone =>
    cases hN with
    | done => rfl
    | found _ d f rest hf => rw [hdone] at hf; cases hf
  | found c c' f rest hf _ ih =>
    cases hN with
    | done _ d hdone => rw [hdone] at hf; cases hf
    | found _ d g others hg hothers =>
      rw [hg] at hf
      cases hf
      rw [ih hothers]

/-- The induction over the matches of a walk, each one with what its search promises. -/
theorem Searches.next_induction (hp : Promises p s) {motive : Cursor → List Found → Prop}
    (hdone : ∀ c, motive c [])
    (hfound : ∀ c c' f rest, Next s c f c' → motive c' rest → motive c (f :: rest))
    (h : Searches p s c M) : motive c M := by
  induction h with
  | done c c' _ => exact hdone c
  | found c c' f rest hf _ ih =>
    rcases search_spec hp s.length c with ⟨d, hd⟩ | ⟨g, d, hg, hspec⟩
    · rw [searchTurns, hd] at hf
      cases hf
    · rw [searchTurns, hg] at hf
      cases hf
      exact hfound c _ f rest hspec ih

theorem Searches.length_lt (hp : Promises p s) (h : Searches p s c M) : M.length < walkTurns s := by
  have hpotential : M.length < max 1 (potential s c) := by
    refine Searches.next_induction hp (motive := fun c M => M.length < max 1 (potential s c)) ?_ ?_ h
    · intro c
      simp
    · intro c c' f rest hspec ih
      have h1 := hspec.potential_lt
      have h2 := hspec.potential_ge
      rw [List.length_cons]
      omega
  unfold potential at hpotential
  unfold walkTurns
  split_ifs at hpotential <;> omega

/-- The matches from a cursor on lie behind its place, and none is the empty match there
    that the cursor has had. -/
theorem Searches.behind (hp : Promises p s) (h : Searches p s c M) :
    ∀ f ∈ M, c.place ≤ f.start ∧ f.start ≤ f.stop ∧ f.stop ≤ s.length ∧
      (c.options.retry = true → ¬ (f.start = c.place ∧ f.stop = c.place)) := by
  refine Searches.next_induction hp (motive := fun c M => ∀ f ∈ M, c.place ≤ f.start ∧
    f.start ≤ f.stop ∧ f.stop ≤ s.length ∧
      (c.options.retry = true → ¬ (f.start = c.place ∧ f.stop = c.place))) ?_ ?_ h
  · simp
  · intro c c' f rest hspec ih g hg
    have hordered := hspec.ordered
    have hafter := hspec.after
    have hplace := hspec.place
    rcases List.mem_cons.mp hg with rfl | hg
    · exact ⟨hspec.after, hspec.ordered, hspec.inside, hspec.fresh⟩
    · obtain ⟨h1, h2, h3, h4⟩ := ih g hg
      refine ⟨by omega, h2, h3, fun hretry hsame => ?_⟩
      exact hspec.fresh hretry ⟨by omega, by omega⟩

/-- **The matches go forward**: each one starts at or after the end of those before it, no
    end lies before another, and no span comes twice. -/
theorem Searches.forward (hp : Promises p s) (h : Searches p s c M) :
    M.Pairwise fun f g => f.stop ≤ g.start ∧ f.stop ≤ g.stop ∧ (f.start, f.stop) ≠ (g.start, g.stop) := by
  induction h with
  | done => exact List.Pairwise.nil
  | found c c' f rest hf hrest ih =>
    refine List.Pairwise.cons (fun g hg => ?_) ih
    rcases search_spec hp s.length c with ⟨d, hd⟩ | ⟨f', d, hd, hspec⟩
    · rw [searchTurns, hd] at hf
      cases hf
    · rw [searchTurns, hd] at hf
      cases hf
      obtain ⟨h1, h2, -, h4⟩ := hrest.behind hp g hg
      have hplace := hspec.place
      refine ⟨by omega, by omega, fun hsame => ?_⟩
      rw [Prod.mk.injEq] at hsame
      exact h4 (hspec.retry.mpr (by omega)) ⟨by omega, by omega⟩

theorem Searches.keep (h : Searches p s c M) (last : ℕ) (skip left : ℤ) :
    Searches p s (c.keep last skip left) M := by
  induction h with
  | done c c' hdone =>
    refine .done _ (c'.keep last skip left) ?_
    rw [search_keep, hdone]
    rfl
  | found c c' f rest hf _ ih =>
    refine .found _ (c'.keep last skip left) f rest ?_ ih
    rw [search_keep, hf]
    rfl

end AnticPattern
