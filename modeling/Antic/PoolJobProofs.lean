import Antic.Pool
import Mathlib.Data.List.Perm.Subperm
import Mathlib.Data.List.Range

/-! # The jobs of `dispatch` and `join`

    A job stands in the queue until somebody takes it, and in the list of the jobs in flight until
    it has ended.  `JobsOk` says so of the links of both lists, and of the history of the run. -/

namespace AnticPool

open Interleaving LinkedLists List Function

section History

variable {O R : Type}

/-- The jobs that were started. -/
def jobStarts (h : List (Event O R)) : List Nat :=
  h.filterMap fun
    | .jobStart n => some n
    | _ => none

/-- The jobs that have ended. -/
def jobEnds (h : List (Event O R)) : List Nat :=
  h.filterMap fun
    | .jobEnd n _ => some n
    | _ => none

/-- An event that is about a job. -/
def Event.aboutJob : Event O R → Bool
  | .dispatched _ _ | .jobStart _ | .jobEnd _ _ | .joined _ _ | .endless => true
  | _ => false

variable {h evs : List (Event O R)}

@[simp] theorem jobStarts_append : jobStarts (h ++ evs) = jobStarts h ++ jobStarts evs :=
  filterMap_append

@[simp] theorem jobEnds_append : jobEnds (h ++ evs) = jobEnds h ++ jobEnds evs := filterMap_append

theorem jobStarts_nil (hevs : ∀ ev ∈ evs, ev.aboutJob = false) : jobStarts evs = [] := by
  refine filterMap_eq_nil_iff.2 fun ev hev => ?_
  have := hevs ev hev
  cases ev with
  | jobStart n => cases this
  | _ => rfl

theorem jobEnds_nil (hevs : ∀ ev ∈ evs, ev.aboutJob = false) : jobEnds evs = [] := by
  refine filterMap_eq_nil_iff.2 fun ev hev => ?_
  have := hevs ev hev
  cases ev with
  | jobEnd n r => cases this
  | _ => rfl

theorem mem_jobEnds {n : Nat} : n ∈ jobEnds h ↔ ∃ r, .jobEnd n r ∈ h := by
  rw [jobEnds, mem_filterMap]
  constructor
  · rintro ⟨ev, hev, hn⟩
    cases ev with
    | jobEnd m r =>
      cases hn
      exact ⟨r, hev⟩
    | _ => cases hn
  · rintro ⟨r, hr⟩
    exact ⟨_, hr, rfl⟩

end History

section Jobs

variable {τ J O R : Type}

/-- The work is about a job. -/
def Work.aboutJob : Work J → Bool
  | .join _ | .leaving _ | .job _ => true
  | _ => false

/-- What holds of the jobs at every time. -/
structure JobsOk (h : List (Event O R)) (s : State τ J O R) (has : Work J → Prop) :
    Prop where
  /-- The queue holds the jobs not yet taken, and ends at `queued_last`. -/
  queue : ∃ l, Chain s.next s.queued l ∧ l.Nodup ∧ s.queuedLast = l.getLast? ∧
    ∀ a, a ∈ l ↔ s.allocated a = true ∧ s.serial a ∉ jobStarts h
  flight : ∃ l, Chain s.live s.inFlight l ∧ l.Nodup ∧
    ∀ a, a ∈ l ↔ s.allocated a = true ∧ s.done a = false
  objects : ∀ a b, s.allocated a = true → s.done a = false → s.allocated b = true →
    s.done b = false → s.object a = s.object b → a = b
  serials : ∀ a b, s.allocated a = true → s.allocated b = true → s.serial a = s.serial b → a = b
  serial_lt : ∀ a, s.allocated a = true → s.serial a < s.dispatches
  born : ∀ a, s.allocated a = true → .dispatched (s.serial a) (s.object a) ∈ h
  done : ∀ a, s.allocated a = true → (s.done a = true ↔ s.serial a ∈ jobEnds h)
  result : ∀ a, s.allocated a = true → s.done a = true → .jobEnd (s.serial a) (s.result a) ∈ h
  running : ∀ a, s.allocated a = true → s.serial a ∈ jobStarts h → s.done a = false → has (.job a)
  job : ∀ a, has (.job a) → s.allocated a = true ∧ s.done a = false ∧ s.serial a ∈ jobStarts h
  join : ∀ a, has (.join a) → s.allocated a = true
  leaving : ∀ a, has (.leaving a) → s.allocated a = true ∧ s.done a = true ∧ ¬ has (.join a)
  starts : (jobStarts h).Nodup ∧ ∀ n ∈ jobStarts h, n < s.dispatches
  started : ∀ n ∈ jobStarts h, ∃ o, .dispatched n o ∈ h
  ends : (jobEnds h).Nodup ∧ ∀ n ∈ jobEnds h, n ∈ jobStarts h
  joined : ∀ n r, .joined n r ∈ h → .jobEnd n r ∈ h
  dispatched : ∀ n o, .dispatched n o ∈ h → n ∈ jobEnds h ∨
    ∃ a, s.allocated a = true ∧ s.serial a = n ∧ s.object a = o
  endless : .endless ∉ h

variable {h evs : List (Event O R)} {s s' : State τ J O R} {has has' : Work J → Prop}

/-- What the memory of the jobs is. -/
structure SameJobs (s s' : State τ J O R) : Prop where
  queued : s'.queued = s.queued
  queuedLast : s'.queuedLast = s.queuedLast
  inFlight : s'.inFlight = s.inFlight
  next : s'.next = s.next
  live : s'.live = s.live
  done : s'.done = s.done
  object : s'.object = s.object
  result : s'.result = s.result
  allocated : s'.allocated = s.allocated
  serial : s'.serial = s.serial
  dispatches : s'.dispatches = s.dispatches

theorem SameJobs.refl (s : State τ J O R) : SameJobs s s :=
  ⟨rfl, rfl, rfl, rfl, rfl, rfl, rfl, rfl, rfl, rfl, rfl⟩

variable (hj : JobsOk h s has)
include hj

/-- What holds of the jobs is a fact about this memory. -/
theorem JobsOk.same (hs : SameJobs s s') : JobsOk h s' has := by
  cases s
  cases s'
  obtain ⟨rfl, rfl, rfl, rfl, rfl, rfl, rfl, rfl, rfl, rfl, rfl⟩ := hs
  exact ⟨hj.queue, hj.flight, hj.objects, hj.serials, hj.serial_lt, hj.born, hj.done, hj.result,
    hj.running, hj.job, hj.join, hj.leaving, hj.starts, hj.started, hj.ends, hj.joined,
    hj.dispatched, hj.endless⟩

theorem JobsOk.frame (hevs : ∀ ev ∈ evs, ev.aboutJob = false) (hs : SameJobs s s')
    (hhas : ∀ z, z.aboutJob = true → (has' z ↔ has z)) : JobsOk (h ++ evs) s' has' := by
  have hstarts : jobStarts (h ++ evs) = jobStarts h := by
    rw [jobStarts_append, jobStarts_nil hevs, append_nil]
  have hends : jobEnds (h ++ evs) = jobEnds h := by
    rw [jobEnds_append, jobEnds_nil hevs, append_nil]
  have hold : ∀ {ev : Event O R}, ev.aboutJob = true → ev ∈ h ++ evs → ev ∈ h := by
    intro ev hev hmem
    refine (mem_append.1 hmem).resolve_right fun hmem => ?_
    rw [hevs ev hmem] at hev
    cases hev
  have hjob : ∀ a, has' (.job a) ↔ has (.job a) := fun a => hhas _ rfl
  have hjoin : ∀ a, has' (.join a) ↔ has (.join a) := fun a => hhas _ rfl
  have hleave : ∀ a, has' (.leaving a) ↔ has (.leaving a) := fun a => hhas _ rfl
  have hkept : JobsOk (h ++ evs) s has' := by
    constructor
    · rw [hstarts]
      exact hj.queue
    · exact hj.flight
    · exact hj.objects
    · exact hj.serials
    · exact hj.serial_lt
    · exact fun a ha => mem_append_left _ (hj.born a ha)
    · rw [hends]
      exact hj.done
    · exact fun a h1 h2 => mem_append_left _ (hj.result a h1 h2)
    · rw [hstarts]
      exact fun a h1 h2 h3 => (hjob a).2 (hj.running a h1 h2 h3)
    · rw [hstarts]
      exact fun a ha => hj.job a ((hjob a).1 ha)
    · exact fun a ha => hj.join a ((hjoin a).1 ha)
    · intro a ha
      obtain ⟨h1, h2, h3⟩ := hj.leaving a ((hleave a).1 ha)
      exact ⟨h1, h2, fun hja => h3 ((hjoin a).1 hja)⟩
    · rw [hstarts]
      exact hj.starts
    · rw [hstarts]
      exact fun n hn => (hj.started n hn).imp fun o ho => mem_append_left _ ho
    · rw [hends, hstarts]
      exact hj.ends
    · exact fun n r hmem => mem_append_left _ (hj.joined n r (hold rfl hmem))
    · rw [hends]
      exact fun n o hmem => hj.dispatched n o (hold rfl hmem)
    · exact fun hmem => hj.endless (hold rfl hmem)
  exact hkept.same hs

theorem JobsOk.length_lt {l : List J} (hnodup : l.Nodup)
    (hl : ∀ a ∈ l, s.allocated a = true) : l.length < s.dispatches + 1 := by
  have hmap : (l.map s.serial).Nodup :=
    Nodup.map_on (fun a ha b hb hab => hj.serials a b (hl a ha) (hl b hb) hab) hnodup
  have hsub : l.map s.serial ⊆ List.range s.dispatches := by
    intro n hn
    obtain ⟨a, ha, rfl⟩ := List.mem_map.1 hn
    exact mem_range.2 (hj.serial_lt a (hl a ha))
  have := (hmap.subperm hsub).length_le
  rw [length_map, length_range] at this
  omega

/-! ## A job is dispatched -/

omit hj in
/-- The walk of `anti_rt_dispatch` tells whether a job of the object is in the list. -/
theorem flying_eq [DecidableEq O] (object : O) {l : List J} {head : Option J}
    (hl : Chain s.live head l) : ∀ {fuel : Nat}, l.length < fuel →
    ∃ b, flying s object fuel head = some b ∧ (b = true ↔ ∃ a ∈ l, s.object a = object) := by
  induction hl with
  | nil =>
    intro fuel hfuel
    cases fuel with
    | zero => cases hfuel
    | succ fuel => exact ⟨false, rfl, by simp⟩
  | @cons a l _ ih =>
    intro fuel hfuel
    cases fuel with
    | zero => cases hfuel
    | succ fuel =>
      rw [flying]
      by_cases ha : s.object a = object
      · exact ⟨true, if_pos ha, by simp [ha]⟩
      · obtain ⟨b, hb, hiff⟩ := ih (Nat.lt_of_succ_lt_succ hfuel)
        exact ⟨b, (if_neg ha).trans hb, by simp [hiff, ha]⟩

/-- **A dispatch gives no job exactly where the object is in flight.** -/
theorem JobsOk.flying_iff [DecidableEq O] (object : O) :
    ∃ b, flying s object (s.dispatches + 1) s.inFlight = some b ∧
      (b = true ↔ ∃ a, s.allocated a = true ∧ s.done a = false ∧ s.object a = object) := by
  obtain ⟨l, hchain, hnodup, hmem⟩ := hj.flight
  obtain ⟨b, hb, hiff⟩ := flying_eq object hchain
    (hj.length_lt hnodup fun a ha => ((hmem a).1 ha).1)
  refine ⟨b, hb, hiff.trans ⟨?_, ?_⟩⟩
  · rintro ⟨a, ha, ho⟩
    obtain ⟨h1, h2⟩ := (hmem a).1 ha
    exact ⟨a, h1, h2, ho⟩
  · rintro ⟨a, h1, h2, ho⟩
    exact ⟨a, (hmem a).2 ⟨h1, h2⟩, ho⟩

variable [DecidableEq J]

theorem JobsOk.enqueue_queue {a : J} (object : O) (r : R) (hfree : s.allocated a = false) :
    ∃ l, Chain (enqueue s a object r).next (enqueue s a object r).queued l ∧ l.Nodup ∧
      (enqueue s a object r).queuedLast = l.getLast? ∧
      ∀ b, b ∈ l ↔ b = a ∨ s.allocated b = true ∧ s.serial b ∉ jobStarts h := by
  obtain ⟨l, hchain, hnodup, hlast, hmem⟩ := hj.queue
  have ha : a ∉ l := by
    intro h
    rw [((hmem a).1 h).1] at hfree
    cases hfree
  have hchain' : Chain (update s.next a none) s.queued l := by
    refine hchain.congr fun b hb => update_of_ne ?_ _ _
    rintro rfl
    exact ha hb
  obtain ⟨hnil, hsnoc⟩ := hchain'.snoc hnodup (update_self ..) ha
  refine ⟨l ++ [a], ?_, ?_, by simp [enqueue], fun b => ?_⟩
  · unfold enqueue
    cases hq : s.queuedLast with
    | none =>
      have hl : l = [] := getLast?_eq_none_iff.1 (hlast ▸ hq)
      rw [hl]
      exact hnil hl
    | some last => exact hsnoc last (hlast ▸ hq)
  · refine nodup_append.2 ⟨hnodup, nodup_singleton _, fun b hb c hc hbc => ?_⟩
    rw [mem_singleton.1 hc] at hbc
    exact ha (hbc ▸ hb)
  · rw [mem_append, mem_singleton, hmem, or_comm]

/-- The job `a` is new, and every other one is what it was. -/
structure Dispatched (s s' : State τ J O R) (a : J) (object : O) : Prop where
  free : s.allocated a = false
  allocated : s'.allocated a = true
  serial : s'.serial a = s.dispatches
  done : s'.done a = false
  object : s'.object a = object
  allocated_of : ∀ {b}, b ≠ a → s'.allocated b = s.allocated b
  serial_of : ∀ {b}, b ≠ a → s'.serial b = s.serial b
  done_of : ∀ {b}, b ≠ a → s'.done b = s.done b
  object_of : ∀ {b}, b ≠ a → s'.object b = s.object b
  result_of : ∀ {b}, b ≠ a → s'.result b = s.result b

omit hj in
theorem enqueue_dispatched {a : J} (object : O) (r : R) (hfree : s.allocated a = false) :
    Dispatched s (enqueue s a object r) a object := by
  refine ⟨hfree, update_self .., update_self .., update_self .., update_self .., ?_, ?_, ?_, ?_, ?_⟩
  all_goals exact fun hba => update_of_ne hba _ _

section Dispatched

omit hj
variable {a b : J} {object : O} (hd : Dispatched s s' a object)
include hd

omit [DecidableEq J] in
theorem Dispatched.ne (hb : s.allocated b = true) : b ≠ a := by
  rintro rfl
  rw [hd.free] at hb
  cases hb

omit [DecidableEq J] in
theorem Dispatched.old (hb : s.allocated b = true) : s'.allocated b = true :=
  (hd.allocated_of (hd.ne hb)).trans hb

theorem Dispatched.cases (hb : s'.allocated b = true) : b = a ∨ b ≠ a ∧ s.allocated b = true := by
  by_cases hba : b = a
  · exact Or.inl hba
  · exact Or.inr ⟨hba, (hd.allocated_of hba).symm.trans hb⟩

/-- A list of the jobs with a property gets the new job, which has it. -/
theorem Dispatched.mem_iff {p p' : J → Prop} (hnew : p' a) (hold : ∀ {b}, b ≠ a → (p' b ↔ p b)) :
    (b = a ∨ s.allocated b = true ∧ p b) ↔ s'.allocated b = true ∧ p' b := by
  constructor
  · rintro (rfl | ⟨hb, hs⟩)
    · exact ⟨hd.allocated, hnew⟩
    · exact ⟨hd.old hb, (hold (hd.ne hb)).2 hs⟩
  · rintro ⟨hb, hs⟩
    rcases hd.cases hb with rfl | ⟨hba, hb⟩
    · exact Or.inl rfl
    · exact Or.inr ⟨hb, (hold hba).1 hs⟩

include hj

theorem JobsOk.dispatched_objects
    (hobject : ∀ b, s.allocated b = true → s.done b = false → s.object b ≠ object) {c : J}
    (hb : s'.allocated b = true) (hbd : s'.done b = false) (hc : s'.allocated c = true)
    (hcd : s'.done c = false) (hbc : s'.object b = s'.object c) : b = c := by
  rcases hd.cases hb with rfl | ⟨hba, hb⟩
  · rcases hd.cases hc with rfl | ⟨hca, hc⟩
    · rfl
    · rw [hd.object, hd.object_of hca] at hbc
      rw [hd.done_of hca] at hcd
      exact absurd hbc.symm (hobject c hc hcd)
  · rw [hd.done_of hba] at hbd
    rcases hd.cases hc with rfl | ⟨hca, hc⟩
    · rw [hd.object, hd.object_of hba] at hbc
      exact absurd hbc (hobject b hb hbd)
    · rw [hd.done_of hca] at hcd
      rw [hd.object_of hba, hd.object_of hca] at hbc
      exact hj.objects b c hb hbd hc hcd hbc

theorem JobsOk.dispatched_serials {c : J} (hb : s'.allocated b = true)
    (hc : s'.allocated c = true) (hbc : s'.serial b = s'.serial c) : b = c := by
  rcases hd.cases hb with rfl | ⟨hba, hb⟩
  · rcases hd.cases hc with rfl | ⟨hca, hc⟩
    · rfl
    · rw [hd.serial, hd.serial_of hca] at hbc
      have := hj.serial_lt c hc
      omega
  · rcases hd.cases hc with rfl | ⟨hca, hc⟩
    · rw [hd.serial, hd.serial_of hba] at hbc
      have := hj.serial_lt b hb
      omega
    · rw [hd.serial_of hba, hd.serial_of hca] at hbc
      exact hj.serials b c hb hc hbc

end Dispatched

/-- **A dispatch keeps what holds of the jobs**, where no job of the object is in flight. -/
theorem JobsOk.enqueue {a : J} {object : O} (r : R) (hfree : s.allocated a = false)
    (hobject : ∀ b, s.allocated b = true → s.done b = false → s.object b ≠ object) :
    JobsOk (h ++ [.dispatched s.dispatches object]) (enqueue s a object r) has := by
  have hd := enqueue_dispatched object r hfree
  have hstarts : jobStarts (h ++ [.dispatched s.dispatches object]) = jobStarts h := by
    rw [jobStarts_append]
    exact append_nil _
  have hends : jobEnds (h ++ [.dispatched s.dispatches object]) = jobEnds h := by
    rw [jobEnds_append]
    exact append_nil _
  have hnew : s.dispatches ∉ jobStarts h := fun hmem => Nat.lt_irrefl _ (hj.starts.2 _ hmem)
  constructor
  · obtain ⟨l, h1, h2, h3, h4⟩ := hj.enqueue_queue object r hfree
    refine ⟨l, h1, h2, h3, fun b => (h4 b).trans ?_⟩
    rw [hstarts]
    apply hd.mem_iff
    · rwa [hd.serial]
    · intro c hca
      rw [hd.serial_of hca]
  · obtain ⟨l, hchain, hnodup, hmem⟩ := hj.flight
    have ha : a ∉ l := fun h => hd.ne ((hmem a).1 h).1 rfl
    refine ⟨a :: l, hchain.push ha, nodup_cons.2 ⟨ha, hnodup⟩, fun b => ?_⟩
    rw [mem_cons, hmem b]
    apply hd.mem_iff hd.done
    intro c hca
    rw [hd.done_of hca]
  · exact fun b c => hj.dispatched_objects hd hobject
  · exact fun b c => hj.dispatched_serials hd
  · intro b hb
    show _ < s.dispatches + 1
    rcases hd.cases hb with rfl | ⟨hba, hb⟩
    · rw [hd.serial]
      exact Nat.lt_succ_self _
    · rw [hd.serial_of hba]
      exact Nat.lt_succ_of_lt (hj.serial_lt b hb)
  · intro b hb
    rcases hd.cases hb with rfl | ⟨hba, hb⟩
    · rw [hd.serial, hd.object]
      exact mem_append_right _ (mem_singleton.2 rfl)
    · rw [hd.serial_of hba, hd.object_of hba]
      exact mem_append_left _ (hj.born b hb)
  · intro b hb
    rw [hends]
    rcases hd.cases hb with rfl | ⟨hba, hb⟩
    · rw [hd.serial, hd.done]
      exact ⟨fun h => (nomatch h), fun hmem => absurd (hj.ends.2 _ hmem) hnew⟩
    · rw [hd.serial_of hba, hd.done_of hba]
      exact hj.done b hb
  · intro b hb hdone
    rcases hd.cases hb with rfl | ⟨hba, hb⟩
    · rw [hd.done] at hdone
      cases hdone
    · rw [hd.done_of hba] at hdone
      rw [hd.serial_of hba, hd.result_of hba]
      exact mem_append_left _ (hj.result b hb hdone)
  · intro b hb hs hdone
    rw [hstarts] at hs
    rcases hd.cases hb with rfl | ⟨hba, hb⟩
    · rw [hd.serial] at hs
      exact absurd hs hnew
    · rw [hd.serial_of hba] at hs
      rw [hd.done_of hba] at hdone
      exact hj.running b hb hs hdone
  · intro b hb
    obtain ⟨h1, h2, h3⟩ := hj.job b hb
    rw [hstarts, hd.done_of (hd.ne h1), hd.serial_of (hd.ne h1)]
    exact ⟨hd.old h1, h2, h3⟩
  · exact fun b hb => hd.old (hj.join b hb)
  · intro b hb
    obtain ⟨h1, h2, h3⟩ := hj.leaving b hb
    rw [hd.done_of (hd.ne h1)]
    exact ⟨hd.old h1, h2, h3⟩
  · rw [hstarts]
    exact ⟨hj.starts.1, fun n hn => Nat.lt_succ_of_lt (hj.starts.2 n hn)⟩
  · rw [hstarts]
    exact fun n hn => (hj.started n hn).imp fun o ho => mem_append_left _ ho
  · rw [hends, hstarts]
    exact hj.ends
  · intro n r' hmem
    have hmem : Event.joined n r' ∈ h := by simpa using hmem
    exact mem_append_left _ (hj.joined n r' hmem)
  · intro n o hmem
    rw [hends]
    rcases mem_append.1 hmem with hmem | hmem
    · refine (hj.dispatched n o hmem).imp id ?_
      rintro ⟨b, hb, rfl, rfl⟩
      exact ⟨b, hd.old hb, hd.serial_of (hd.ne hb), hd.object_of (hd.ne hb)⟩
    · cases mem_singleton.1 hmem
      exact Or.inr ⟨a, hd.allocated, hd.serial, hd.object⟩
  · intro hmem
    have hmem : Event.endless ∈ h := by simpa using hmem
    exact hj.endless hmem

/-! ## A job is taken, ends, and is joined -/

/-- What a section that takes a job off the queue leaves. -/
structure SameButQueue (s s' : State τ J O R) : Prop where
  inFlight : s'.inFlight = s.inFlight
  live : s'.live = s.live
  done : s'.done = s.done
  object : s'.object = s.object
  result : s'.result = s.result
  allocated : s'.allocated = s.allocated
  serial : s'.serial = s.serial
  dispatches : s'.dispatches = s.dispatches

/-- A job leaves the queue, at its head or from between two others, and starts. -/
theorem JobsOk.take {l : List J} {a : J} (hchain : Chain s.next s.queued l) (ha : a ∈ l)
    (hchain' : Chain s'.next s'.queued (l.erase a))
    (hlast : s'.queuedLast = (l.erase a).getLast?) (hs : SameButQueue s s')
    (hjob : ∀ b, has' (.job b) ↔ b = a ∨ has (.job b))
    (hjoin : ∀ b, has' (.join b) ↔ has (.join b))
    (hleave : ∀ b, has' (.leaving b) ↔ has (.leaving b)) :
    JobsOk (h ++ [.jobStart (s.serial a)]) s' has' := by
  obtain ⟨l', hl', hnodup, _, hmem⟩ := hj.queue
  have hll : l' = l := hl'.unique hchain
  subst hll
  obtain ⟨halloc, hnot⟩ := (hmem a).1 ha
  have hstarts : jobStarts (h ++ [.jobStart (s.serial a)]) = jobStarts h ++ [s.serial a] := by
    rw [jobStarts_append]
    rfl
  have hends : jobEnds (h ++ [.jobStart (s.serial a)]) = jobEnds h := by
    rw [jobEnds_append]
    exact append_nil _
  have hadone : s.done a = false := by
    by_contra hd
    exact hnot (hj.ends.2 _ ((hj.done a halloc).1 (by simpa using hd)))
  refine JobsOk.same (s := { s with queued := s'.queued
                                    queuedLast := s'.queuedLast
                                    next := s'.next }) ?_
    ⟨rfl, rfl, hs.inFlight, rfl, hs.live, hs.done, hs.object, hs.result, hs.allocated, hs.serial,
      hs.dispatches⟩
  constructor
  · refine ⟨l'.erase a, hchain', hnodup.erase a, hlast, fun b => ?_⟩
    rw [hnodup.mem_erase_iff, hmem b, hstarts, mem_append, mem_singleton]
    constructor
    · rintro ⟨hba, hb, hbs⟩
      exact ⟨hb, fun h => h.elim hbs fun heq => hba (hj.serials b a hb halloc heq)⟩
    · rintro ⟨hb, hbs⟩
      refine ⟨?_, hb, fun h => hbs (Or.inl h)⟩
      rintro rfl
      exact hbs (Or.inr rfl)
  · exact hj.flight
  · exact hj.objects
  · exact hj.serials
  · exact hj.serial_lt
  · exact fun b hb => mem_append_left _ (hj.born b hb)
  · rw [hends]
    exact hj.done
  · exact fun b h1 h2 => mem_append_left _ (hj.result b h1 h2)
  · rw [hstarts]
    intro b hb hbs hd
    rcases mem_append.1 hbs with hbs | hbs
    · exact (hjob b).2 (Or.inr (hj.running b hb hbs hd))
    · exact (hjob b).2 (Or.inl (hj.serials b a hb halloc (mem_singleton.1 hbs)))
  · rw [hstarts]
    intro b hb
    rcases (hjob b).1 hb with rfl | hb
    · exact ⟨halloc, hadone, mem_append_right _ (mem_singleton.2 rfl)⟩
    · obtain ⟨h1, h2, h3⟩ := hj.job b hb
      exact ⟨h1, h2, mem_append_left _ h3⟩
  · exact fun b hb => hj.join b ((hjoin b).1 hb)
  · intro b hb
    obtain ⟨h1, h2, h3⟩ := hj.leaving b ((hleave b).1 hb)
    exact ⟨h1, h2, fun hjb => h3 ((hjoin b).1 hjb)⟩
  · rw [hstarts]
    refine ⟨nodup_append.2 ⟨hj.starts.1, nodup_singleton _, ?_⟩, fun n hn => ?_⟩
    · intro n hn m hm hnm
      rw [mem_singleton.1 hm] at hnm
      exact hnot (hnm ▸ hn)
    · rcases mem_append.1 hn with hn | hn
      · exact hj.starts.2 n hn
      · rw [mem_singleton.1 hn]
        exact hj.serial_lt a halloc
  · rw [hstarts]
    intro n hn
    rcases mem_append.1 hn with hn | hn
    · exact (hj.started n hn).imp fun o ho => mem_append_left _ ho
    · rw [mem_singleton.1 hn]
      exact ⟨_, mem_append_left _ (hj.born a halloc)⟩
  · rw [hends, hstarts]
    exact ⟨hj.ends.1, fun n hn => mem_append_left _ (hj.ends.2 n hn)⟩
  · intro n r hm
    have hm : Event.joined n r ∈ h := by simpa using hm
    exact mem_append_left _ (hj.joined n r hm)
  · rw [hends]
    intro n o hm
    have hm : Event.dispatched n o ∈ h := by simpa using hm
    exact hj.dispatched n o hm
  · intro hm
    have hm : Event.endless ∈ h := by simpa using hm
    exact hj.endless hm

/-- **The end of a job keeps what holds of the jobs**: it leaves the list of the jobs in flight. -/
theorem JobsOk.finish {a : J} {r : R} (ha : has (.job a)) {s' : State τ J O R}
    (hfinish : finishOne s a r = some s')
    (hjob : ∀ b, has' (.job b) ↔ has (.job b) ∧ b ≠ a)
    (hjoin : ∀ b, has' (.join b) → has (.join b))
    (hleave : ∀ b, has' (.leaving b) → has (.leaving b) ∨ b = a ∧ ¬ has' (.join a)) :
    JobsOk (h ++ [.jobEnd (s.serial a) r]) s' has' := by
  obtain ⟨halloc, hnotdone, hstarted⟩ := hj.job a ha
  obtain ⟨l, hchain, hnodup, hmem⟩ := hj.flight
  obtain ⟨inFlight, live, hunlink, hchain', _⟩ := unlink_eq (a := a) hchain hnodup
    (hj.length_lt hnodup fun b hb => ((hmem b).1 hb).1)
  have hs' : { s with inFlight := inFlight
                      live := live
                      done := update s.done a true
                      result := update s.result a r } = s' := by
    simpa [finishOne, hunlink] using hfinish
  subst hs'
  have hstarts : jobStarts (h ++ [.jobEnd (s.serial a) r]) = jobStarts h := by
    rw [jobStarts_append]
    exact append_nil _
  have hends : jobEnds (h ++ [.jobEnd (s.serial a) r]) = jobEnds h ++ [s.serial a] := by
    rw [jobEnds_append]
    rfl
  have hnotended : s.serial a ∉ jobEnds h := by
    intro hm
    rw [(hj.done a halloc).2 hm] at hnotdone
    cases hnotdone
  have hdone : ∀ {b}, b ≠ a → update s.done a true b = s.done b :=
    fun hba => update_of_ne hba _ _
  have hself : update s.done a true a = true := update_self ..
  have hback : ∀ {b}, update s.done a true b = false → b ≠ a ∧ s.done b = false := by
    intro b hd
    by_cases hba : b = a
    · rw [hba, hself] at hd
      cases hd
    · exact ⟨hba, hdone hba ▸ hd⟩
  constructor
  · rw [hstarts]
    exact hj.queue
  · refine ⟨l.erase a, hchain', hnodup.erase a, fun b => ?_⟩
    show _ ↔ s.allocated b = true ∧ update s.done a true b = false
    rw [hnodup.mem_erase_iff, hmem b]
    constructor
    · rintro ⟨hba, hb, hd⟩
      exact ⟨hb, (hdone hba).trans hd⟩
    · rintro ⟨hb, hd⟩
      exact ⟨(hback hd).1, hb, (hback hd).2⟩
  · exact fun b c hb hbd hc hcd => hj.objects b c hb (hback hbd).2 hc (hback hcd).2
  · exact hj.serials
  · exact hj.serial_lt
  · exact fun b hb => mem_append_left _ (hj.born b hb)
  · intro b hb
    show update s.done a true b = true ↔ _
    rw [hends, mem_append, mem_singleton]
    by_cases hba : b = a
    · rw [hba, hself]
      simp
    · rw [hdone hba, hj.done b hb]
      exact ⟨Or.inl, fun h => h.resolve_right fun heq => hba (hj.serials b a hb halloc heq)⟩
  · intro b hb hd
    by_cases hba : b = a
    · rw [hba]
      refine mem_append_right _ (mem_singleton.2 ?_)
      show Event.jobEnd (s.serial a) (update s.result a r a) = _
      rw [update_self]
    · refine mem_append_left _ ?_
      show Event.jobEnd (s.serial b) (update s.result a r b) ∈ h
      rw [update_of_ne hba]
      exact hj.result b hb ((hdone hba).symm.trans hd)
  · intro b hb hbs hd
    rw [hstarts] at hbs
    exact (hjob b).2 ⟨hj.running b hb hbs (hback hd).2, (hback hd).1⟩
  · intro b hb
    obtain ⟨hb, hba⟩ := (hjob b).1 hb
    obtain ⟨h1, h2, h3⟩ := hj.job b hb
    rw [hstarts]
    exact ⟨h1, (hdone hba).trans h2, h3⟩
  · exact fun b hb => hj.join b (hjoin b hb)
  · intro b hb
    rcases hleave b hb with hb | ⟨rfl, hno⟩
    · obtain ⟨h1, h2, h3⟩ := hj.leaving b hb
      refine ⟨h1, ?_, fun hjb => h3 (hjoin b hjb)⟩
      by_cases hba : b = a
      · rw [hba]
        exact hself
      · exact (hdone hba).trans h2
    · exact ⟨halloc, hself, hno⟩
  · rw [hstarts]
    exact hj.starts
  · rw [hstarts]
    exact fun n hn => (hj.started n hn).imp fun o ho => mem_append_left _ ho
  · rw [hends, hstarts]
    refine ⟨nodup_append.2 ⟨hj.ends.1, nodup_singleton _, ?_⟩, fun n hn => ?_⟩
    · intro n hn m hm hnm
      rw [mem_singleton.1 hm] at hnm
      exact hnotended (hnm ▸ hn)
    · rcases mem_append.1 hn with hn | hn
      · exact hj.ends.2 n hn
      · rw [mem_singleton.1 hn]
        exact hstarted
  · intro n r' hm
    have hm : Event.joined n r' ∈ h := by simpa using hm
    exact mem_append_left _ (hj.joined n r' hm)
  · intro n o hm
    have hm : Event.dispatched n o ∈ h := by simpa using hm
    rw [hends]
    exact (hj.dispatched n o hm).imp (mem_append_left _) id
  · intro hm
    have hm : Event.endless ∈ h := by simpa using hm
    exact hj.endless hm

theorem JobsOk.finish_ends (a : J) (r : R) : ∃ inFlight live, finishOne s a r =
      some { s with inFlight := inFlight
                    live := live
                    done := update s.done a true
                    result := update s.result a r } := by
  obtain ⟨l, hchain, hnodup, hmem⟩ := hj.flight
  obtain ⟨inFlight, live, hunlink, _⟩ := unlink_eq (a := a) hchain hnodup
    (hj.length_lt hnodup fun b hb => ((hmem b).1 hb).1)
  exact ⟨inFlight, live, by simp only [finishOne, hunlink]; rfl⟩

omit [DecidableEq J] in
/-- A thread calls `join`, or a join sees its job done: the memory stays. -/
theorem JobsOk.joins (hs : SameJobs s s') (hjob : ∀ b, has' (.job b) ↔ has (.job b))
    (hjoin : ∀ b, has' (.join b) → s.allocated b = true)
    (hleave : ∀ b, has' (.leaving b) →
      s.allocated b = true ∧ s.done b = true ∧ ¬ has' (.join b)) : JobsOk h s' has' := by
  have hkept : JobsOk h s has' :=
    { hj with
      running := fun a h1 h2 h3 => (hjob a).2 (hj.running a h1 h2 h3)
      job := fun a ha => hj.job a ((hjob a).1 ha)
      join := hjoin
      leaving := hleave }
  exact hkept.same hs

/-- The thread that joined a job frees it with the result it read. -/
theorem JobsOk.leave {a : J} (ha : has (.leaving a)) (hjob : ∀ b, has' (.job b) ↔ has (.job b))
    (hjoin : ∀ b, has' (.join b) ↔ has (.join b))
    (hleave : ∀ b, has' (.leaving b) ↔ has (.leaving b) ∧ b ≠ a) :
    JobsOk (h ++ [.joined (s.serial a) (s.result a)])
      { s with allocated := update s.allocated a false } has' := by
  obtain ⟨halloc, hdone, hnojoin⟩ := hj.leaving a ha
  have hstarts : jobStarts (h ++ [.joined (s.serial a) (s.result a)]) = jobStarts h := by
    rw [jobStarts_append]
    exact append_nil _
  have hends : jobEnds (h ++ [.joined (s.serial a) (s.result a)]) = jobEnds h := by
    rw [jobEnds_append]
    exact append_nil _
  have hended : s.serial a ∈ jobEnds h := (hj.done a halloc).1 hdone
  have hback : ∀ {b}, update s.allocated a false b = true →
      b ≠ a ∧ s.allocated b = true := by
    intro b hb
    by_cases hba : b = a
    · rw [hba, update_self] at hb
      cases hb
    · exact ⟨hba, by rwa [update_of_ne hba] at hb⟩
  have hforth : ∀ {b}, b ≠ a → s.allocated b = true →
      update s.allocated a false b = true := by
    intro b hba hb
    rwa [update_of_ne hba]
  constructor
  · obtain ⟨l, h1, h2, h3, hmem⟩ := hj.queue
    refine ⟨l, h1, h2, h3, fun b => ?_⟩
    rw [hmem b, hstarts]
    constructor
    · rintro ⟨hb, hbs⟩
      refine ⟨hforth ?_ hb, hbs⟩
      rintro rfl
      exact hbs (hj.ends.2 _ hended)
    · rintro ⟨hb, hbs⟩
      exact ⟨(hback hb).2, hbs⟩
  · obtain ⟨l, h1, h2, hmem⟩ := hj.flight
    refine ⟨l, h1, h2, fun b => ?_⟩
    rw [hmem b]
    constructor
    · rintro ⟨hb, hd⟩
      refine ⟨hforth ?_ hb, hd⟩
      rintro rfl
      rw [hdone] at hd
      cases hd
    · rintro ⟨hb, hd⟩
      exact ⟨(hback hb).2, hd⟩
  · exact fun b c hb hbd hc hcd => hj.objects b c (hback hb).2 hbd (hback hc).2 hcd
  · exact fun b c hb hc => hj.serials b c (hback hb).2 (hback hc).2
  · exact fun b hb => hj.serial_lt b (hback hb).2
  · exact fun b hb => mem_append_left _ (hj.born b (hback hb).2)
  · rw [hends]
    exact fun b hb => hj.done b (hback hb).2
  · exact fun b hb hd => mem_append_left _ (hj.result b (hback hb).2 hd)
  · rw [hstarts]
    exact fun b hb hbs hd => (hjob b).2 (hj.running b (hback hb).2 hbs hd)
  · intro b hb
    obtain ⟨h1, h2, h3⟩ := hj.job b ((hjob b).1 hb)
    rw [hstarts]
    refine ⟨hforth ?_ h1, h2, h3⟩
    rintro rfl
    rw [hdone] at h2
    cases h2
  · intro b hb
    have hb := (hjoin b).1 hb
    refine hforth ?_ (hj.join b hb)
    rintro rfl
    exact hnojoin hb
  · intro b hb
    obtain ⟨hb, hba⟩ := (hleave b).1 hb
    obtain ⟨h1, h2, h3⟩ := hj.leaving b hb
    exact ⟨hforth hba h1, h2, fun hjb => h3 ((hjoin b).1 hjb)⟩
  · rw [hstarts]
    exact hj.starts
  · rw [hstarts]
    exact fun n hn => (hj.started n hn).imp fun o ho => mem_append_left _ ho
  · rw [hends, hstarts]
    exact hj.ends
  · intro n r hm
    refine mem_append_left _ ?_
    rcases mem_append.1 hm with hm | hm
    · exact hj.joined n r hm
    · cases mem_singleton.1 hm
      exact hj.result a halloc hdone
  · intro n o hm
    have hm : Event.dispatched n o ∈ h := by simpa using hm
    rw [hends]
    rcases hj.dispatched n o hm with hn | ⟨b, hb, rfl, rfl⟩
    · exact Or.inl hn
    · by_cases hba : b = a
      · exact Or.inl (hba ▸ hended)
      · exact Or.inr ⟨b, hforth hba hb, rfl, rfl⟩
  · intro hm
    have hm : Event.endless ∈ h := by simpa using hm
    exact hj.endless hm

end Jobs

end AnticPool
