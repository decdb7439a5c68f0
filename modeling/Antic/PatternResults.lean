import Antic.PatternWalks

/-! # Replace and patch over the matches of a walk

    `anti_rt_regex_begin` turns a limit into matches to pass over and matches to take, so `advance`
    gives what the limit takes of the walk.  `replace` puts the expansions in the place of these
    spans.  `patch` has found every place, or a failure, before its first write. -/

namespace AnticPattern

open ListWalks List Option

-- ── What advance gives ────

/-- The match of the walk that a `Match` holds. -/
def Match.found (m : Match) : Found := ⟨m.all.1, m.all.2, m.origin, m.options, m.ov⟩

theorem fill_found (p : Pattern) (s : Bytes) (c : Cursor) {f : Found} (h : f.start ≤ f.stop) :
    (fill p s c f).found = f := by
  simp [fill, Match.found, max_eq_right h]

variable {p : Pattern} {s : Bytes} {c : Cursor} {M : List Found}

theorem search_bookkeeping {fuel : ℕ} {c' : Cursor} {r : Except Int (Option Found)}
    (h : search p s fuel c = some (r, c')) :
    c'.last = c.last ∧ c'.skip = c.skip ∧ c'.left = c.left := by
  have hkeep := search_keep p s fuel c c.last c.skip c.left
  have hsame : c.keep c.last c.skip c.left = c := rfl
  rw [hsame, h, map_some, some.injEq, Prod.mk.injEq] at hkeep
  rw [hkeep.2]
  exact ⟨rfl, rfl, rfl⟩

/-- **One call of `advance`** passes over the matches to skip and takes the next one. -/
theorem advance_spec (hp : Promises p s) (h : Searches p s c M) (hskip : 0 ≤ c.skip)
    (hleft : c.left ≠ 0) (fuel : ℕ) (hfuel : M.length < fuel) :
    match M.drop c.skip.toNat with
    | [] => ∃ c', advance p s fuel c = some (.ok none, c')
    | f :: rest => ∃ m c', advance p s fuel c = some (.ok (some m), c') ∧ m.found = f ∧
        Searches p s c' rest ∧ c'.skip = 0 ∧
        c'.left = if c.left > 0 then c.left - 1 else c.left := by
  induction M generalizing c fuel with
  | nil =>
    obtain _ | fuel := fuel
    · cases hfuel
    cases h with
    | done _ c' hdone =>
      rw [drop_nil]
      exact ⟨c', by simp [advance, hleft, hdone]⟩
  | cons f M ih =>
    obtain _ | fuel := fuel
    · cases hfuel
    rw [length_cons] at hfuel
    have hordered := (h.behind hp f mem_cons_self).2.1
    cases h with
    | found _ c' _ _ hf hrest =>
      obtain ⟨hlast, hskip', hleft'⟩ := search_bookkeeping hf
      by_cases hpass : c'.skip > 0
      · -- a match that is passed over
        have hone : c.skip.toNat = (c'.skip - 1).toNat + 1 := by omega
        have hstep : advance p s (fuel + 1) c =
            advance p s fuel (c'.keep c'.last (c'.skip - 1) c'.left) := by
          rw [advance, if_neg hleft, hf]
          simp [hpass, Cursor.keep]
        have hnext := ih (hrest.keep c'.last (c'.skip - 1) c'.left)
          (show 0 ≤ c'.skip - 1 by omega) (show c'.left ≠ 0 by omega) fuel (by omega)
        rw [hone, drop_succ_cons, hstep, ← hleft']
        exact hnext
      · -- a match that is taken
        have hzero : c.skip.toNat = 0 := by omega
        rw [hzero, drop_zero]
        refine ⟨fill p s (c'.keep c'.last c'.skip (if c'.left > 0 then c'.left - 1 else c'.left)) f,
          c'.keep f.stop c'.skip (if c'.left > 0 then c'.left - 1 else c'.left), ?_,
          fill_found _ _ _ hordered, hrest.keep _ _ _, ?_, ?_⟩
        · rw [advance, if_neg hleft, hf]
          by_cases hpos : c'.left > 0 <;> simp [hpass, hpos, Cursor.keep]
        · show c'.skip = 0
          omega
        · show (if c'.left > 0 then c'.left - 1 else c'.left) = _
          rw [hleft']

/-- `advance` called from a cursor until `DONE` gives these matches. -/
inductive Advances (p : Pattern) (s : Bytes) : Cursor → List Match → Prop where
  | done (c c' : Cursor) : advance p s (walkTurns s) c = some (.ok none, c') → Advances p s c []
  | found (c c' : Cursor) (m : Match) (rest : List Match) :
      advance p s (walkTurns s) c = some (.ok (some m), c') → Advances p s c' rest →
      Advances p s c (m :: rest)

/-- What a cursor takes of the matches from it on. -/
def takenBy (c : Cursor) (M : List Found) : List Found :=
  if 0 ≤ c.left then (M.drop c.skip.toNat).take c.left.toNat else M.drop c.skip.toNat

theorem advances_of_searches (hp : Promises p s) (h : Searches p s c M) (hskip : 0 ≤ c.skip) :
    ∃ ms, Advances p s c ms ∧ ms.map Match.found = takenBy c M := by
  generalize hn : M.length = n
  induction n using Nat.strong_induction_on generalizing c M with
  | h n ih =>
    by_cases hleft : c.left = 0
    · refine ⟨[], .done c c ?_, by simp [takenBy, hleft]⟩
      rw [walkTurns, advance, if_pos hleft]
    · have hspec := advance_spec hp h hskip hleft (walkTurns s) (h.length_lt hp)
      cases htaken : M.drop c.skip.toNat with
      | nil =>
        rw [htaken] at hspec
        obtain ⟨c', hc'⟩ := hspec
        exact ⟨[], .done c c' hc', by simp [takenBy, htaken]⟩
      | cons f rest =>
        rw [htaken] at hspec
        obtain ⟨m, c', hadvance, hm, hrest, hskip', hleft'⟩ := hspec
        have hshort : rest.length < n := by
          have := congrArg List.length htaken
          rw [length_drop, length_cons] at this
          omega
        obtain ⟨ms, hms, hmap⟩ := ih rest.length hshort hrest (by omega) rfl
        refine ⟨m :: ms, .found c c' m ms hadvance hms, ?_⟩
        rw [map_cons, hm, hmap, takenBy, takenBy, htaken, hskip', hleft']
        by_cases hpos : c.left > 0
        · have hone : c.left.toNat = (c.left - 1).toNat + 1 := by omega
          rw [if_pos hpos, if_pos (by omega), if_pos (by omega), hone, take_succ_cons]
          rfl
        · rw [if_neg hpos, if_neg (by omega), if_neg (by omega)]
          rfl

theorem countLoop_searches (h : Searches p s c M) (fuel : ℕ) (total : ℤ)
    (hfuel : M.length < fuel) : countLoop p s fuel c total = some (.ok (total + M.length)) := by
  induction h generalizing fuel total with
  | done c c' hdone =>
    obtain _ | fuel := fuel
    · cases hfuel
    simp [countLoop, hdone]
  | found c c' f rest hf _ ih =>
    obtain _ | fuel := fuel
    · cases hfuel
    rw [length_cons] at hfuel ⊢
    rw [countLoop, hf]
    simp only [bind_eq_bind, bind_some, ih fuel (total + 1) (by omega)]
    congr 2
    push_cast
    omega

/-- **A walk begins** at a cursor that takes what the limit takes of all matches. -/
theorem regexBegin_spec (hp : Promises p s) (h : Searches p s cursorReset M) (limit : ℤ)
    (check : Bool) :
    ∃ c, regexBegin p s limit check = some (.ok c) ∧ Searches p s c M ∧ 0 ≤ c.skip ∧
      takenBy c M = limited limit M := by
  have hcount : countAll p s = some (.ok (M.length : ℤ)) := by
    rw [countAll, countLoop_searches h _ _ (h.length_lt hp), zero_add]
  have htotal : ∃ total : ℤ, (if limit < 0 ∨ check = true then countAll p s else some (.ok 0)) =
      some (.ok total) ∧ (limit < 0 → total = M.length) := by
    by_cases hboth : limit < 0 ∨ check = true
    · exact ⟨M.length, by rw [if_pos hboth, hcount], fun _ => rfl⟩
    · exact ⟨0, if_neg hboth, fun hneg => absurd (Or.inl hneg) hboth⟩
  obtain ⟨total, htotal, hlength⟩ := htotal
  rw [regexBegin, htotal]
  simp only [bind_eq_bind, bind_some]
  rcases lt_trichotomy limit 0 with hneg | rfl | hpos
  · have hnot : ¬ limit > 0 := by omega
    rw [if_neg hnot, if_pos hneg, hlength hneg]
    refine ⟨_, rfl, h.keep 0 _ (-1), ?_, ?_⟩
    · dsimp only
      split_ifs <;> omega
    · rw [limited_eq, if_neg hnot]
      simp [takenBy, cursorReset, hneg]
  · refine ⟨cursorReset, by simp, h, le_rfl, ?_⟩
    simp [takenBy, cursorReset, limited]
  · rw [if_pos hpos]
    refine ⟨_, rfl, h.keep 0 0 limit, le_rfl, ?_⟩
    rw [limited_eq, if_pos hpos]
    simp [takenBy, cursorReset, hpos.le]

theorem limited_sublist (limit : ℤ) (M : List Found) : (limited limit M).Sublist M := by
  unfold limited
  split_ifs
  · exact Sublist.refl M
  · exact take_sublist _ _
  · exact drop_sublist _ _

/-- **Under a limit `advance` gives what the limit takes of all matches.** -/
theorem advances_limited (hp : Promises p s) (h : Searches p s cursorReset M) (limit : ℤ)
    (check : Bool) :
    ∃ c ms, regexBegin p s limit check = some (.ok c) ∧ Advances p s c ms ∧
      ms.map Match.found = limited limit M ∧ ms.length < walkTurns s := by
  obtain ⟨c, hbegin, hsearches, hskip, htaken⟩ := regexBegin_spec hp h limit check
  obtain ⟨ms, hms, hmap⟩ := advances_of_searches hp hsearches hskip
  refine ⟨c, ms, hbegin, hms, hmap.trans htaken, ?_⟩
  have hle := (limited_sublist limit M).length_le
  have hsame := congrArg List.length (hmap.trans htaken)
  have hbound := h.length_lt hp
  rw [length_map] at hsame
  omega

-- ── The expansion of a template ────

theorem length_dropWhile_le (q : UInt8 → Bool) (l : Bytes) : (l.dropWhile q).length ≤ l.length :=
  (dropWhile_sublist q).length_le

/-- What stands behind the braces of a group lies behind its name. -/
theorem length_behind_lt {q : UInt8 → Bool} {l behind : Bytes} {b : UInt8}
    (h : l.dropWhile q = b :: behind) : behind.length < l.length := by
  have hle := length_dropWhile_le q l
  rw [h, length_cons] at hle
  omega

theorem regexPiece_shorter {template rest : Bytes} {piece : Piece}
    (h : regexPiece template = some (piece, rest)) : rest.length < template.length := by
  unfold regexPiece at h
  split at h
  · cases h
  · rename_i c tail
    rw [length_cons]
    split at h
    · -- text up to the next `$`
      cases h
      have := length_dropWhile_le (· ≠ 36) tail
      omega
    · split at h
      · cases h
        simp
      · rename_i d more
        rw [length_cons]
        split_ifs at h
        · cases h
          omega
        · -- the digits of a number
          cases h
          have := length_dropWhile_le isDigit (d :: more)
          rw [length_cons] at this
          omega
        · -- a group in braces, or a lone `$`
          split at h
          · cases h
            simp
          · split_ifs at h
            · split at h <;> cases h
              · have := length_behind_lt ‹_›
                omega
              · simp
            · dsimp only at h
              split at h <;> cases h
              · have := length_behind_lt ‹_›
                omega
              · simp
            · cases h
              simp
        · cases h
          simp

/-- **A template ends**: the loop of `expand` reads all its pieces. -/
theorem exists_expand (p : Pattern) (s : Bytes) (ov : Ovector) (template : Bytes) :
    ∃ text, expand p s ov template = some text := by
  have hloop : ∀ fuel template, template.length < fuel →
      ∃ text, expandLoop p s ov fuel template = some text := by
    intro fuel
    induction fuel with
    | zero => intro template h; omega
    | succ fuel ih =>
      intro template h
      rw [expandLoop]
      cases hpiece : regexPiece template with
      | none => exact ⟨[], rfl⟩
      | some pair =>
        obtain ⟨piece, rest⟩ := pair
        have hshorter := regexPiece_shorter hpiece
        obtain ⟨text, htext⟩ := ih rest (by omega)
        exact ⟨expandPiece p s ov piece ++ text, by simp [htext]⟩
  exact hloop _ _ (Nat.lt_succ_self _)

-- ── Replace ────

/-- The subject from a place on, with a text in the place of each match. -/
def exchanged (s : Bytes) (texts : Found → Bytes) : ℕ → List Found → Bytes
  | place, [] => sliceOf s (place, s.length)
  | place, f :: rest => sliceOf s (place, f.start) ++ texts f ++ exchanged s texts f.stop rest

/-- The bytes of a match. -/
def Found.bytes (s : Bytes) (f : Found) : Bytes := sliceOf s (f.start, f.stop)

theorem sliceOf_append_drop (s : Bytes) {i j : ℕ} (h : i ≤ j) :
    sliceOf s (i, j) ++ s.drop j = s.drop i := by
  have hdrop : s.drop j = (s.drop i).drop (j - i) := by
    rw [drop_drop, Nat.add_sub_cancel' h]
  rw [sliceOf, hdrop]
  exact take_append_drop _ _

/-- Its own bytes in the place of each match give the subject again. -/
theorem exchanged_bytes {place : ℕ} (hinside : ∀ f ∈ M, place ≤ f.start ∧ f.start ≤ f.stop)
    (hforward : M.Pairwise fun f g => f.stop ≤ g.start) :
    exchanged s (Found.bytes s) place M = s.drop place := by
  induction M generalizing place with
  | nil => rw [exchanged, sliceOf, ← length_drop, take_length]
  | cons f M ih =>
    obtain ⟨hplace, hordered⟩ := hinside f mem_cons_self
    obtain ⟨hbefore, hforward⟩ := pairwise_cons.mp hforward
    have hrest : ∀ g ∈ M, f.stop ≤ g.start ∧ g.start ≤ g.stop := by
      intro g hg
      exact ⟨hbefore g hg, (hinside g (mem_cons_of_mem f hg)).2⟩
    rw [exchanged, ih hrest hforward, Found.bytes, append_assoc,
      sliceOf_append_drop s hordered, sliceOf_append_drop s hplace]

theorem replaceLoop_advances {template : Bytes} {texts : Found → Bytes}
    (htexts : ∀ f : Found, expand p s f.ov template = some (texts f)) {ms : List Match}
    (h : Advances p s c ms) (fuel place : ℕ) (out : Bytes) (hfuel : ms.length < fuel) :
    replaceLoop p s template fuel c place out =
      some (.ok (out ++ exchanged s texts place (ms.map Match.found))) := by
  induction h generalizing fuel place out with
  | done c c' hdone =>
    obtain _ | fuel := fuel
    · cases hfuel
    simp [replaceLoop, hdone, exchanged]
  | found c c' m rest hm _ ih =>
    obtain _ | fuel := fuel
    · cases hfuel
    rw [length_cons] at hfuel
    have htext : expand p s m.ov template = some (texts m.found) := htexts m.found
    rw [replaceLoop, hm]
    simp only [bind_eq_bind, bind_some, htext]
    rw [ih fuel _ _ (by omega), map_cons, exchanged]
    simp only [Match.found, append_assoc]

-- ── Patch ────

/-- The spans of a group in the matches where it took part. -/
def groupSpans (group : ℕ) (M : List Found) : List (ℕ × ℕ) :=
  M.filterMap fun f => f.ov.getD group none

theorem placesLoop_advances {ms : List Match} (h : Advances p s c ms) (length group : ℕ)
    (offset : ℤ) (fuel : ℕ) (offsets : List ℕ) (hfuel : ms.length < fuel) :
    placesLoop p s length group offset fuel c offsets =
      if ∀ span ∈ groupSpans group (ms.map Match.found),
          fitsSpan offset length ((span.2 : ℤ) - span.1) = true then
        some (.ok (offsets ++
          (groupSpans group (ms.map Match.found)).map fun span => span.1 + offset.toNat))
      else some (.error misfit) := by
  induction h generalizing fuel offsets with
  | done c c' hdone =>
    obtain _ | fuel := fuel
    · cases hfuel
    simp [placesLoop, hdone, groupSpans]
  | found c c' m rest hm _ ih =>
    obtain _ | fuel := fuel
    · cases hfuel
    rw [length_cons] at hfuel
    rw [placesLoop, hm]
    simp only [bind_eq_bind, bind_some]
    cases hgroup : m.ov.getD group none with
    | none =>
      have hspans : groupSpans group ((m :: rest).map Match.found) =
          groupSpans group (rest.map Match.found) :=
        filterMap_cons_none hgroup
      simp only [hspans]
      exact ih fuel offsets (by omega)
    | some span =>
      obtain ⟨start, stop⟩ := span
      have hspans : groupSpans group ((m :: rest).map Match.found) =
          (start, stop) :: groupSpans group (rest.map Match.found) :=
        filterMap_cons_some hgroup
      rw [hspans]
      simp only [forall_mem_cons]
      by_cases hfits : fitsSpan offset length ((stop : ℤ) - start) = true
      · simp only [hfits, not_true_eq_false, if_false, true_and]
        rw [ih fuel _ (by omega), map_cons, append_assoc]
        rfl
      · simp [hfits]

@[simp] theorem writeAt_nil (data : Bytes) (place : ℕ) : writeAt data place [] = data := by
  ext1 k
  simp [writeAt]

/-- Bytes that are empty change nothing, so the test before the writes only saves them. -/
theorem writes_eq (s bytes : Bytes) (offset : ℕ) (spans : List (ℕ × ℕ)) : (if bytes.length > 0 then
        (spans.map fun span => span.1 + offset).foldl (fun data place => writeAt data place bytes) s
      else s) = spans.foldl (fun data span => writeAt data (span.1 + offset) bytes) s := by
  rcases bytes with - | ⟨b, bytes⟩
  · simp
  · rw [if_pos (by simp), foldl_map]

/-- The places are all found, or a failure is, before the first write. -/
theorem regexPatch_spec (hp : Promises p s) (h : Searches p s cursorReset M) (bytes : Bytes)
    (into : ℤ) (name : Bytes) (offset limit : ℤ) :
    match patchGroup p into name with
    | none => regexPatch p s bytes into name offset limit = some (missing, s)
    | some group =>
      let spans := groupSpans group (limited limit M)
      if 0 ≤ offset ∧ ∀ span ∈ spans, offset + bytes.length ≤ (span.2 : ℤ) - span.1 then
        regexPatch p s bytes into name offset limit = some ((spans.length : ℤ),
            spans.foldl (fun data span => writeAt data (span.1 + offset.toNat) bytes) s)
      else regexPatch p s bytes into name offset limit = some (misfit, s) := by
  cases hgroup : patchGroup p into name with
  | none => simp [regexPatch, hgroup]
  | some group =>
    dsimp only
    by_cases hoffset : offset < 0
    · rw [if_neg (fun hboth => absurd hoffset (by omega)), regexPatch]
      simp only [hgroup, hoffset, if_true]
    · obtain ⟨c, ms, hbegin, hms, hmap, hlength⟩ := advances_limited hp h limit false
      have hplaces := placesLoop_advances hms bytes.length group offset (walkTurns s) [] hlength
      rw [hmap] at hplaces
      have hfits : (∀ span ∈ groupSpans group (limited limit M),
            fitsSpan offset bytes.length ((span.2 : ℤ) - span.1) = true) ↔
          0 ≤ offset ∧ ∀ span ∈ groupSpans group (limited limit M),
            offset + bytes.length ≤ (span.2 : ℤ) - span.1 := by
        simp only [fitsSpan_iff]
        constructor
        · intro hall
          exact ⟨by omega, fun span hspan => (hall span hspan).2.2⟩
        · rintro ⟨hle, hall⟩ span hspan
          exact ⟨hle, by omega, hall span hspan⟩
      rw [if_congr hfits rfl rfl] at hplaces
      rw [regexPatch]
      simp only [hgroup, hoffset, if_false, hbegin, bind_eq_bind, bind_some, hplaces]
      by_cases hall : 0 ≤ offset ∧ ∀ span ∈ groupSpans group (limited limit M),
          offset + bytes.length ≤ (span.2 : ℤ) - span.1
      · rw [if_pos hall, if_pos hall]
        simp only [bind_some, nil_append, length_map, writes_eq]
      · rw [if_neg hall, if_neg hall]
        rfl

-- ── The walk as a whole ────

theorem regexReplace_spec (hp : Promises p s) (h : Searches p s cursorReset M) (template : Bytes)
    (limit : ℤ) {texts : Found → Bytes}
    (htexts : ∀ f : Found, expand p s f.ov template = some (texts f)) :
    regexReplace p s template limit = some (.ok (exchanged s texts 0 (limited limit M))) := by
  obtain ⟨c, ms, hbegin, hms, hmap, hlength⟩ := advances_limited hp h limit false
  rw [regexReplace, hbegin]
  simp only [bind_eq_bind, bind_some]
  rw [replaceLoop_advances htexts hms _ 0 [] hlength, hmap, nil_append]

/-- **The walk over the matches ends, and replace and patch rest on its list.**  The searches give
    one list of matches that go forward.  Under each limit `advance` gives what the limit takes of
    it, `replace` exchanges these spans for their expansions and keeps every other byte, and `patch`
    fails without a write or writes into the group of each of them where it took part. -/
theorem walk_matches {p : Pattern} {s : Bytes} (hp : Promises p s) :
    ∃ M, Searches p s cursorReset M ∧ (∀ N, Searches p s cursorReset N → N = M) ∧
      (M.Pairwise fun f g => f.stop ≤ g.stop ∧ f.stop ≤ g.start) ∧
      (M.map fun f => (f.start, f.stop)).Nodup ∧
      ∀ limit : ℤ, (∀ check, ∃ c ms, regexBegin p s limit check = some (.ok c) ∧ Advances p s c ms ∧
          ms.map Match.found = limited limit M) ∧
        (exchanged s (Found.bytes s) 0 (limited limit M) = s ∧ ∀ template, ∃ texts : Found → Bytes,
            (∀ f : Found, expand p s f.ov template = some (texts f)) ∧
            regexReplace p s template limit = some (.ok (exchanged s texts 0 (limited limit M)))) ∧
        ∀ bytes into name offset,
          match patchGroup p into name with
          | none => regexPatch p s bytes into name offset limit = some (missing, s)
          | some group =>
            let spans := groupSpans group (limited limit M)
            if 0 ≤ offset ∧ ∀ span ∈ spans, offset + bytes.length ≤ (span.2 : ℤ) - span.1 then
              regexPatch p s bytes into name offset limit = some ((spans.length : ℤ),
                  spans.foldl (fun data span => writeAt data (span.1 + offset.toNat) bytes) s)
            else regexPatch p s bytes into name offset limit = some (misfit, s) := by
  obtain ⟨M, hM⟩ := exists_searches hp cursorReset
  have hforward := hM.forward hp
  refine ⟨M, hM, fun N hN => hN.unique hM, ?_, ?_, fun limit => ⟨fun check => ?_, ⟨?_, fun template => ?_⟩, ?_⟩⟩
  · exact hforward.imp fun h => ⟨h.2.1, h.1⟩
  · exact pairwise_map.mpr (hforward.imp fun h => h.2.2)
  · obtain ⟨c, ms, hbegin, hms, hmap, -⟩ := advances_limited hp hM limit check
    exact ⟨c, ms, hbegin, hms, hmap⟩
  · have hsub := limited_sublist limit M
    refine exchanged_bytes (fun f hf => ?_) ((hforward.sublist hsub).imp fun h => h.1)
    exact ⟨Nat.zero_le _, (hM.behind hp f (hsub.subset hf)).2.1⟩
  · choose texts htexts using fun f : Found => exists_expand p s f.ov template
    exact ⟨texts, htexts, regexReplace_spec hp hM template limit htexts⟩
  · intro bytes into name offset
    exact regexPatch_spec hp hM bytes into name offset limit

/-- The pattern `a*`: the run of `a` where the search starts. -/
def starPattern : Pattern where
  search s place options :=
    let run := ((s.drop place).takeWhile (· = 97)).length
    if options.retry = true ∧ run = 0 then .noMatch else .found place (place + run) []
  isBytes := true
  crlfNewline := false
  groupCount := 0
  groupNumber _ := none
  scan _ := []

theorem starPattern_promises (s : Bytes) : Promises starPattern s where
  cheap place options _ := by
    simp only [starPattern]
    split_ifs <;> simp
  bounds place options start stop groups hplace h := by
    have hrun : ((s.drop place).takeWhile (· = 97)).length ≤ s.length - place := by
      rw [← length_drop]
      exact (takeWhile_sublist _).length_le
    simp only [starPattern] at h
    split_ifs at h
    cases h
    omega
  retried place options start stop groups hplace h hretry := by
    rintro ⟨rfl, hstop⟩
    simp only [starPattern] at h
    split_ifs at h with hboth
    cases h
    exact hboth ⟨hretry, by omega⟩

/-- The walk of `a*` over `baac`. -/
theorem walk_matches_star : ∃ M, Searches starPattern [98, 97, 97, 99] cursorReset M ∧
      (M.map fun f => (f.start, f.stop)).Nodup := by
  obtain ⟨M, hM, -, -, hnodup, -⟩ := walk_matches (starPattern_promises [98, 97, 97, 99])
  exact ⟨M, hM, hnodup⟩

end AnticPattern
