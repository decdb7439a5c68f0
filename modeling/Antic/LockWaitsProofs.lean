import Antic.LockWaits

/-! # What `find_waits` marks and `warn_waits` says

    `Reaches` is the least set of functions that hold a wait or call one of them; the
    rounds of `find_waits` mark it, and the walk of `first_wait` is the walk by depth of
    `DepthFirst`.  A warning stands at a position for the first site of the table there,
    and the table holds the sites of copies of other modules' generics as well. -/

namespace AnticLockWaits

open AnticLockOrder DepthFirst List

variable {fnCount : Nat} {w : LockWalk fnCount}

/-- The function reaches a wait, or a library function that waits, by calls by name. -/
inductive Reaches (w : LockWalk fnCount) : Fin fnCount → Prop where
  | wait {f : Fin fnCount} {s : WaitSite fnCount} : s ∈ (w f).sites → s.callee = none → Reaches w f
  | call {f c : Fin fnCount} {s : WaitSite fnCount} : s ∈ (w f).sites → s.callee = some c →
      Reaches w c → Reaches w f

/-- The site reaches a wait. -/
def SiteReaches (w : LockWalk fnCount) (s : WaitSite fnCount) : Prop :=
  ∀ c, s.callee = some c → Reaches w c

-- ── The marks ────

variable {f : Fin fnCount} {pos : Pos}

theorem reaches_iff_answers : Reaches w f ↔ Answers (fun c => (w c).sites) readSite f := by
  constructor
  · intro h
    induction h with
    | @wait f s hs hnone => exact .here hs (by rw [readSite, hnone])
    | @call f c s hs hsome _ ih => exact .there hs (by rw [readSite, hsome]) ih
  · intro h
    induction h with
    | @here f s a hs hread =>
      cases hc : s.callee with
      | none => exact .wait hs hc
      | some c =>
        rw [readSite, hc] at hread
        exact nomatch hread
    | @there f c s hs hread _ ih =>
      cases hc : s.callee with
      | none =>
        rw [readSite, hc] at hread
        exact nomatch hread
      | some d =>
        rw [readSite, hc] at hread
        obtain rfl := Sum.inr.inj hread
        exact .call hs hc ih

theorem markWaits_iff : markWaits w f = true ↔ Reaches w f := by
  constructor
  · refine rounds_sound (fun m f hm htest => ?_) (fun _ h => nomatch h) f
    obtain ⟨s, hs, hwaits⟩ := List.any_eq_true.1 htest
    cases hc : s.callee with
    | none => exact .wait hs hc
    | some c =>
      rw [siteWaits, hc] at hwaits
      exact .call hs hc (hm c hwaits)
  · have hcard : (Finset.univ.filter fun f : Fin fnCount =>
        (fun _ => false : Fin fnCount → Bool) f = false).card < fnCount + 1 := by
      refine Nat.lt_succ_of_le ((Finset.card_le_univ _).trans ?_)
      rw [Fintype.card_fin]
    have hclosed : ∀ f, reachesWait w (markWaits w) f = true → markWaits w f = true :=
      rounds_closed mem_finRange hcard
    intro h
    induction h with
    | @wait f s hs hnone => exact hclosed f (List.any_eq_true.2 ⟨s, hs, by rw [siteWaits, hnone]⟩)
    | @call f c s hs hsome _ ih =>
      exact hclosed f (List.any_eq_true.2 ⟨s, hs, by rw [siteWaits, hsome]; exact ih⟩)

theorem turns_le : turns (fun c => (w c).sites) {f} [(w f).sites] ≤ walkTurns w := by
  rw [turns_start, walkTurns, Fin.sum_univ_def]

/-- The walk of a marked function finds the first wait of the walk by depth. -/
theorem firstWait_spec (h : markWaits w f = true) : ∃ o E, firstWait w (markWaits w) f = some o ∧
      Dfs (fun c => (w c).sites) readSite {f} (w f).sites E (some o) :=
  walk_spec (fun _ => markWaits_iff.trans reaches_iff_answers)
    (reaches_iff_answers.1 (markWaits_iff.1 h)) turns_le

/-- The second loop leaves every mark and gives each marked function its wait. -/
theorem giveWait_fold : ∀ (fns : List (Fin fnCount)) (r : Waits fnCount), r.waits = markWaits w →
      (fns.foldl (giveWait w) r).waits = markWaits w ∧
      ∀ f, (f ∈ fns ∨ firstWait w (markWaits w) f = some (r.wait f)) → markWaits w f = true →
          firstWait w (markWaits w) f = some ((fns.foldl (giveWait w) r).wait f) := by
  intro fns
  induction fns with
  | nil =>
    intro r hr
    exact ⟨hr, fun f h _ => h.resolve_left not_mem_nil⟩
  | cons g fns ih =>
    intro r hr
    by_cases hg : markWaits w g = true
    · obtain ⟨o, E, ho, -⟩ := firstWait_spec hg
      have hgive : giveWait w r g = { r with wait := Function.update r.wait g o } := by
        simp only [giveWait, hr, hg, if_true, ho]
      rw [foldl_cons, hgive]
      obtain ⟨hmarks, hwaits⟩ := ih { r with wait := Function.update r.wait g o } hr
      refine ⟨hmarks, fun f hf hm => hwaits f ?_ hm⟩
      by_cases hfg : f = g
      · rw [hfg]
        exact .inr (ho.trans (congrArg some (Function.update_self g o r.wait).symm))
      · simp only [Function.update_of_ne hfg]
        exact hf.imp_left fun hmem => (mem_cons.1 hmem).resolve_left hfg
    · have hgive : giveWait w r g = r := by
        simp only [giveWait, hr, if_neg hg]
      rw [foldl_cons, hgive]
      obtain ⟨hmarks, hwaits⟩ := ih r hr
      refine ⟨hmarks, fun f hf hm => hwaits f ?_ hm⟩
      refine hf.imp_left fun hmem => (mem_cons.1 hmem).resolve_left ?_
      rintro rfl
      exact hg hm

theorem findWaits_waits : (findWaits w).waits f = true ↔ Reaches w f := by
  rw [findWaits, (giveWait_fold _ _ rfl).1]
  exact markWaits_iff

theorem findWaits_wait (h : (findWaits w).waits f = true) :
    ∃ E, Dfs (fun c => (w c).sites) readSite {f} (w f).sites E (some ((findWaits w).wait f)) := by
  have hm : markWaits w f = true := markWaits_iff.2 (findWaits_waits.1 h)
  obtain ⟨o, E, ho, hd⟩ := firstWait_spec hm
  have hgiven := (giveWait_fold (List.finRange fnCount) ⟨markWaits w, fun _ => ⟨.recv, 0, []⟩⟩
    rfl).2 f (.inl (mem_finRange f)) hm
  rw [ho] at hgiven
  rw [findWaits, ← Option.some.inj hgiven]
  exact ⟨E, hd⟩

theorem siteWait_isSome {s : WaitSite fnCount} :
    (siteWait (findWaits w) s).isSome = true ↔ SiteReaches w s := by
  unfold siteWait SiteReaches
  cases hc : s.callee with
  | none => simp
  | some c =>
    by_cases h : (findWaits w).waits c = true
    · simp [h, findWaits_waits.1 h]
    · have hno : ¬ Reaches w c := fun hr => h (findWaits_waits.2 hr)
      simp [h, hno]

-- ── The warnings ────

/-- A site at `pos` that holds a lock and reaches a wait. -/
def DueAt (w : LockWalk fnCount) (pos : Pos) (s : WaitSite fnCount) : Prop :=
  s.held = true ∧ s.pos = pos ∧ SiteReaches w s

/-- A function of the module itself has such a site. -/
def Due (w : LockWalk fnCount) (pos : Pos) : Prop :=
  ∃ f, (w f).home = none ∧ ∃ s ∈ (w f).sites, DueAt w pos s

/-- The first such site of the table is of a copy of another module's generic. -/
def Hidden (w : LockWalk fnCount) (pos : Pos) : Prop :=
  ∃ before f s after, w.table = before ++ (f, s) :: after ∧ f.home ≠ none ∧ DueAt w pos s ∧
    ∀ e ∈ before, ¬ DueAt w pos e.2

theorem due_iff : Due w pos ↔ ∃ e ∈ w.table, e.1.home = none ∧ DueAt w pos e.2 := by
  constructor
  · rintro ⟨f, hf, s, hs, hdue⟩
    exact ⟨(w f, s), mem_flatMap.2 ⟨f, mem_finRange f, List.mem_map_of_mem hs⟩, hf, hdue⟩
  · rintro ⟨e, he, hf, hdue⟩
    obtain ⟨f, -, he⟩ := mem_flatMap.1 he
    obtain ⟨s, hs, rfl⟩ := List.mem_map.1 he
    exact ⟨f, hf, s, hs, hdue⟩

theorem warnedBefore_iff {i : Nat} {s : WaitSite fnCount} :
    warnedBefore w (findWaits w) i s = true ↔ ∃ e ∈ w.table.take i, DueAt w s.pos e.2 := by
  rw [warnedBefore, List.any_eq_true]
  refine exists_congr fun e => and_congr_right fun _ => ?_
  rw [Bool.and_eq_true, siteWait_isSome]
  simp only [Bool.and_eq_true, beq_iff_eq, and_assoc]
  refine and_congr_right fun _ => ?_
  constructor
  · rintro ⟨hline, hcolumn, hreach⟩
    exact ⟨by cases he : e.2.pos; cases hs : s.pos; simp_all, hreach⟩
  · rintro ⟨hpos, hreach⟩
    exact ⟨by rw [hpos], by rw [hpos], hreach⟩

theorem warnWait_pos (s : WaitSite fnCount) (o : WaitOrigin) : (warnWait s o).pos = s.pos := by
  unfold warnWait
  cases s.symbol <;> rfl

/-- A warning is given for a site of the module that is due and the first at its position. -/
theorem warnSite_iff {i : Nat} {e : Function_ fnCount × WaitSite fnCount} :
    (∃ x, warnSite w (findWaits w) (e, i) = some x ∧ x.pos = pos) ↔
      e.1.home = none ∧ DueAt w pos e.2 ∧ ∀ k ∈ w.table.take i, ¬ DueAt w pos k.2 := by
  have hbefore : warnedBefore w (findWaits w) i e.2 = false ↔
      ∀ k ∈ w.table.take i, ¬ DueAt w e.2.pos k.2 := by
    rw [← Bool.not_eq_true, warnedBefore_iff]
    simp
  by_cases hpos : e.2.pos = pos
  · subst hpos
    rw [← hbefore, DueAt, ← siteWait_isSome]
    unfold warnSite
    cases hhome : e.1.home with
    | some m => simp
    | none =>
      cases ho : siteWait (findWaits w) e.2 with
      | none => simp
      | some o =>
        cases hheld : e.2.held <;> cases hb : warnedBefore w (findWaits w) i e.2 <;>
          simp [warnWait_pos]
  · refine iff_of_false ?_ fun h => hpos h.2.1.2.1
    rintro ⟨x, hx, hxpos⟩
    unfold warnSite at hx
    split at hx
    · exact nomatch hx
    split at hx
    · exact nomatch hx
    split at hx
    · obtain rfl := Option.some.inj hx
      exact hpos ((warnWait_pos _ _).symm.trans hxpos)
    · exact nomatch hx

/-- The warnings at a position. -/
def warningsAt (w : LockWalk fnCount) (pos : Pos) : Nat :=
  ((warnWaits 0 w (findWaits w)).map Warning.pos).count pos

/-- Sites that are not due, or stand behind one that is, give no warning there. -/
theorem count_zero {l : List ((Function_ fnCount × WaitSite fnCount) × Nat)}
    (h : ∀ x ∈ l, DueAt w pos x.1.2 → ∃ k ∈ w.table.take x.2, DueAt w pos k.2) :
    ((l.filterMap (warnSite w (findWaits w))).map Warning.pos).count pos = 0 := by
  refine count_eq_zero.2 fun hmem => ?_
  obtain ⟨y, hy, hypos⟩ := List.mem_map.1 hmem
  obtain ⟨⟨e, i⟩, hx, hsome⟩ := mem_filterMap.1 hy
  obtain ⟨-, hdue, hfirst⟩ := warnSite_iff.1 ⟨y, hsome, hypos⟩
  obtain ⟨k, hk, hkdue⟩ := h _ hx hdue
  exact hfirst k hk hkdue

theorem warningsAt_first {before after : List (Function_ fnCount × WaitSite fnCount)}
    {e : Function_ fnCount × WaitSite fnCount} (htable : w.table = before ++ e :: after)
    (hdue : DueAt w pos e.2) (hfirst : ∀ k ∈ before, ¬ DueAt w pos k.2) :
    warningsAt w pos = if e.1.home = none then 1 else 0 := by
  have htake : w.table.take before.length = before := by
    rw [htable, take_left]
  have hbefore : ((before.zipIdx.filterMap (warnSite w (findWaits w))).map
      Warning.pos).count pos = 0 := by
    refine count_zero fun x hx hxdue => ?_
    exact absurd hxdue (hfirst _ (fst_mem_of_mem_zipIdx hx))
  have hafter : (((after.zipIdx (before.length + 1)).filterMap (warnSite w (findWaits w))).map
      Warning.pos).count pos = 0 := by
    refine count_zero fun x hx _ => ⟨e, ?_, hdue⟩
    have hlt : before.length < x.2 := le_snd_of_mem_zipIdx hx
    have hget : (w.table.take x.2)[before.length]? = some e := by
      rw [htable, getElem?_take, if_pos hlt, getElem?_append_right le_rfl]
      simp
    exact mem_of_getElem? hget
  have hthis : (((warnSite w (findWaits w) (e, before.length)).toList).map
      Warning.pos).count pos = if e.1.home = none then 1 else 0 := by
    by_cases hhome : e.1.home = none
    · obtain ⟨x, hx, hxpos⟩ := warnSite_iff.2 ⟨hhome, hdue, by rwa [htake]⟩
      rw [hx, if_pos hhome]
      simp [hxpos]
    · rw [if_neg hhome]
      cases hx : warnSite w (findWaits w) (e, before.length) with
      | none => rfl
      | some x =>
        refine count_eq_zero.2 fun hmem => hhome ?_
        have hxpos : pos = x.pos := by simpa using hmem
        exact (warnSite_iff.1 ⟨x, hx, hxpos.symm⟩).1
  have hsplit : w.table.zipIdx =
      before.zipIdx ++ (e, before.length) :: after.zipIdx (before.length + 1) := by
    rw [htable, zipIdx_append, zipIdx_cons, Nat.zero_add]
  have hcons : ((e, before.length) :: after.zipIdx (before.length + 1)).filterMap
      (warnSite w (findWaits w)) = (warnSite w (findWaits w) (e, before.length)).toList ++
        (after.zipIdx (before.length + 1)).filterMap (warnSite w (findWaits w)) := by
    rw [filterMap_cons]
    cases warnSite w (findWaits w) (e, before.length) <;> rfl
  rw [warningsAt, warnWaits, if_neg (Nat.lt_irrefl 0), hsplit, filterMap_append, hcons,
    map_append, map_append, count_append, count_append, hbefore, hafter,
    hthis, Nat.zero_add, Nat.add_zero]

theorem warningsAt_none (h : ∀ e ∈ w.table, ¬ DueAt w pos e.2) : warningsAt w pos = 0 := by
  exact count_zero fun x hx hdue => absurd hdue (h _ (fst_mem_of_mem_zipIdx hx))

open Classical in
theorem exists_first (h : ∃ e ∈ w.table, DueAt w pos e.2) :
    ∃ before e after, w.table = before ++ e :: after ∧ DueAt w pos e.2 ∧
      ∀ k ∈ before, ¬ DueAt w pos k.2 := by
  obtain ⟨e, he⟩ : ∃ e, w.table.find? (fun e => decide (DueAt w pos e.2)) = some e := by
    rw [← Option.isSome_iff_exists, find?_isSome]
    obtain ⟨e, he, hdue⟩ := h
    exact ⟨e, he, decide_eq_true hdue⟩
  obtain ⟨hdue, before, after, htable, hfirst⟩ := find?_eq_some_iff_append.1 he
  exact ⟨before, e, after, htable, of_decide_eq_true hdue, fun k hk => by
    simpa using hfirst k hk⟩

-- ── The property ────

/-- `find_waits` and `warn_waits` warn of every wait once. -/
structure WarnsOnce (w : LockWalk fnCount) : Prop where
  /-- A function is marked iff it reaches a wait. -/
  marked : ∀ f, (findWaits w).waits f = true ↔ Reaches w f
  /-- Its record is the first wait of the walk by depth over its sites. -/
  origin : ∀ f, (findWaits w).waits f = true →
    ∃ E, Dfs (fun c => (w c).sites) readSite {f} (w f).sites E (some ((findWaits w).wait f))
  /-- A position of the module has one warning where one is due, and none elsewhere. -/
  once : ∀ pos, (Due w pos → warningsAt w pos = 1) ∧ (¬ Due w pos → warningsAt w pos = 0)

/-- **Exactly when every wait is warned of once**: where the first site due at a
    position of the module is of the module itself. -/
theorem warns_once_iff (w : LockWalk fnCount) :
    WarnsOnce w ↔ ∀ pos, Due w pos → ¬ Hidden w pos := by
  constructor
  · rintro h pos hdue ⟨before, f, s, after, htable, hf, hs, hfirst⟩
    have hone := (h.once pos).1 hdue
    rw [warningsAt_first htable hs hfirst, if_neg hf] at hone
    exact nomatch hone
  · intro h
    refine ⟨fun _ => findWaits_waits, fun _ => findWaits_wait, fun pos => ?_⟩
    by_cases hany : ∃ e ∈ w.table, DueAt w pos e.2
    · obtain ⟨before, e, after, htable, hdue, hfirst⟩ := exists_first hany
      rw [warningsAt_first htable hdue hfirst]
      by_cases hhome : e.1.home = none
      · rw [if_pos hhome]
        have hmem : e ∈ w.table := by rw [htable]; simp
        exact ⟨fun _ => rfl, fun hno => absurd (due_iff.2 ⟨e, hmem, hhome, hdue⟩) hno⟩
      · rw [if_neg hhome]
        have hhidden : Hidden w pos := ⟨before, e.1, e.2, after, htable, hhome, hdue, hfirst⟩
        exact ⟨fun hdue => absurd hhidden (h pos hdue), fun _ => rfl⟩
    · have hnone : ∀ e ∈ w.table, ¬ DueAt w pos e.2 := fun e he hdue => hany ⟨e, he, hdue⟩
      rw [warningsAt_none hnone]
      refine ⟨fun hdue => ?_, fun _ => rfl⟩
      obtain ⟨e, he, -, hdue⟩ := due_iff.1 hdue
      exact absurd hdue (hnone e he)

/-- A `recv` at line 5, column 9, inside a `sync`. -/
def recvSite : WaitSite 2 := ⟨⟨5, 9⟩, none, none, ⟨.recv, 5, []⟩, true, ⟨4, 5⟩, 1, none⟩

local instance neZero_two : NeZero 2 := ⟨by decide⟩

/-- The copy of a generic of another module, and after it an anonymous function of the
    module with a `recv` on the same line and column of its own source. -/
def besideCopy : LockWalk 2 := fun f =>
  if f = 0 then ⟨some [97], [recvSite]⟩ else ⟨none, [recvSite]⟩

theorem besideCopy_not_warned : ¬ WarnsOnce besideCopy := by
  intro h
  have hdue : Due besideCopy ⟨5, 9⟩ :=
    ⟨1, rfl, recvSite, by simp [besideCopy], rfl, rfl, fun _ hc => nomatch hc⟩
  have hone := (h.once ⟨5, 9⟩).1 hdue
  exact absurd hone (by decide)

end AnticLockWaits
