import Antic.ConcurrentLockProofs

/-! # The calls of a map, thread by thread

    One rule for each instruction, and by them one theorem for each call: what
    the call answers, and the calls on parts that it was. -/

namespace AnticShared

open AnticCollection SharedCode Histories Interleaving List Function

variable {ι K V : Type} [BEq K] [DecidableEq ι] {hash : K → UInt64} {seed : UInt64} {t : ι}
  {R : Type} {post : R → View (Store ι K V) → Prop} {v : View (Store ι K V)}
  {f : Fin PARTS → List (Note ι K V)} {L : Set (Fin PARTS)} {P : Fin PARTS → Part K V}

/-! ## The instructions -/

/-- The code is safe for the thread `t`. -/
def Safely (hash : K → UInt64) (seed : UInt64) (t : ι) (c : Op ι K V R)
    (post : R → View (Store ι K V) → Prop) (v : View (Store ι K V)) : Prop :=
  c.Safe exec (fun i m => ready m i) (Rely t) (may hash seed t) post v

variable {i : Fin PARTS} {test : K × V → Bool} {is : List (Fin PARTS)}
  {w : Fin PARTS → Walk K V} {change : K × V → K × V}

theorem sync_safe {s : Section K V} {k : s.out → Op ι K V R} (hat : At t v f ∅ P)
    (hfits : s.Fits hash seed i)
    (hk : ∀ v' p P', At t v' (update f i (f i ++ s.notes t p)) ∅ P' →
      Safely hash seed t (k (s.run p).2) post v') :
    Safely hash seed t (sync t i s >>= k) post v := by
  intro v' hv hready
  exact ⟨⟨rfl, hfits⟩, hk _ _ _ ((hat.goes hv).run i s)⟩

theorem inside_safe {s : Section K V} {k : s.out → Op ι K V R} (hat : At t v f L P)
    (hi : i ∈ L) (hfits : s.Fits hash seed i)
    (hk : ∀ v', At t v' (update f i (f i ++ s.notes t (P i))) L
      (update P i (s.run (P i)).1.1) → v.moments ⊆ v'.moments →
      Safely hash seed t (k (s.run (P i)).2) post v') :
    Safely hash seed t (inside t i s >>= k) post v := by
  intro v' hv hready
  have hat' := hat.goes hv
  have hrun := hat'.run i s
  rw [hat'.parts i hi] at hrun
  have hnext := hk _ hrun fun m hm => mem_cons_of_mem _ (hv.moments hm)
  rw [← hat'.parts i hi] at hnext
  exact ⟨⟨rfl, hfits, (hat'.holds i).2 hi⟩, hnext⟩

theorem lock_safe {k : Unit → Op ι K V R} (hat : At t v f L P)
    (hk : ∀ v' P', At t v' f (insert i L) P' → Safely hash seed t (k ()) post v') :
    Safely hash seed t (lock t i >>= k) post v := by
  intro v' hv hready
  exact ⟨rfl, hk _ _ ((hat.goes hv).lock i)⟩

theorem unlock_safe {k : Unit → Op ι K V R} (hat : At t v f (insert i L) P) (hi : i ∉ L)
    (hk : ∀ v', At t v' f L P → v.moments ⊆ v'.moments → Safely hash seed t (k ()) post v') :
    Safely hash seed t (unlock t i >>= k) post v := by
  intro v' hv hready
  have hat' := hat.goes hv
  exact ⟨⟨rfl, (hat'.holds i).2 (Set.mem_insert _ _)⟩,
    hk _ (hat'.unlock hi) fun m hm => mem_cons_of_mem _ (hv.moments hm)⟩

omit [DecidableEq ι] in
theorem done_safe {r : R} (h : post r v) : Safely hash seed t (pure r) post v := h

/-! ## Counting -/

/-- The number of a thread's calls on parts. -/
def total (f : Fin PARTS → List (Note ι K V)) : Nat := ∑ i, (f i).length

/-- The number of entries that a test accepts. -/
def Store.matching (m : Store ι K V) (test : K × V → Bool) : Nat :=
  ∑ i, (m.parts i).entries.countP test

omit [BEq K] [DecidableEq ι] in
theorem total_update (f : Fin PARTS → List (Note ι K V)) (i : Fin PARTS) (l : List (Note ι K V)) :
    total (update f i (f i ++ l)) = total f + l.length := by
  have hsum := sum_update f i (f i ++ l) List.length
  rw [length_append] at hsum
  show ∑ j, (update f i (f i ++ l) j).length = ∑ j, (f j).length + l.length
  omega

omit [BEq K] [DecidableEq ι] in
theorem total_nil : total (fun _ => [] : Fin PARTS → List (Note ι K V)) = 0 :=
  Finset.sum_eq_zero fun _ _ => rfl

omit [DecidableEq ι] in
theorem updateEach_count (test : K × V → Bool) (change : K × V → K × V) (es : List (K × V))
    (p : Part K V) :
    (updateNotes t test change es p).length = (Part.updateEach test change es p).2 := by
  induction es generalizing p with
  | nil => rfl
  | cons e es ih =>
    rw [Part.updateEach, updateNotes]
    cases test e with
    | false => exact ih p
    | true => exact congrArg (· + 1) (ih (p.updateEntry change e))

omit [DecidableEq ι] in
theorem removeEach_count (test : K × V → Bool) (es : List (K × V)) (p : Part K V) :
    (es.filter test).length = (Part.removeEach test es p).2 := by
  induction es generalizing p with
  | nil => rfl
  | cons e es ih =>
    rw [Part.removeEach, filter_cons]
    cases test e with
    | false => exact ih p
    | true => exact congrArg (· + 1) (ih (p.removeEntry e))

omit [BEq K] in
theorem find_isSome (w : Walk K V) (test : K × V → Bool) (l : List (K × V)) :
    ((w.order l).find? test).isSome = l.any test := by
  rw [isSome_find?, (w.perm l).any_eq]

omit [DecidableEq ι] in
/-- `update_in` takes the one entry it finds, or leaves the part. -/
theorem updateIn_run (t : ι) (w : Walk K V) (test : K × V → Bool)
    (change : K × V → K × V) (p : Part K V) :
    ((Section.updateIn w test change).run p).2 = p.entries.any test ∧
    ((Section.updateIn w test change).notes t p).length = (p.entries.any test).toNat ∧
    (p.entries.any test = false → ((Section.updateIn w test change).run p).1.1 = p ∧
      (Section.updateIn w test change).notes t p = []) := by
  rw [← find_isSome w]
  show (p.updateIn w test change).2 = _ ∧ _ ∧ (_ → (p.updateIn w test change).1 = p ∧ _)
  rw [Part.updateIn, Section.notes]
  cases (w.order p.entries).find? test with
  | none => exact ⟨rfl, rfl, fun _ => ⟨rfl, rfl⟩⟩
  | some e =>
    refine ⟨rfl, rfl, ?_⟩
    rintro ⟨⟩

omit [DecidableEq ι] in
/-- `remove_in` takes the one entry it finds, or leaves the part. -/
theorem removeIn_run (t : ι) (w : Walk K V) (test : K × V → Bool) (p : Part K V) :
    ((Section.removeIn w test).notes t p).length = (p.removeIn w test).2.toList.length ∧
    (p.removeIn w test).2.isSome = p.entries.any test ∧
    ((p.removeIn w test).2 = none → ((Section.removeIn w test).run p).1.1 = p ∧
      (Section.removeIn w test).notes t p = []) := by
  rw [← find_isSome w]
  show _ ∧ _ ∧ (_ → (p.removeIn w test).1.1 = p ∧ _)
  rw [Part.removeIn, Section.notes]
  cases (w.order p.entries).find? test with
  | none => exact ⟨rfl, rfl, fun _ => ⟨rfl, rfl⟩⟩
  | some e =>
    refine ⟨rfl, rfl, ?_⟩
    rintro ⟨⟩

/-! ## The loops inside every lock -/

/-- Whether a part has an entry that a test accepts. -/
def anyMatch (P : Fin PARTS → Part K V) (test : K × V → Bool) (is : List (Fin PARTS)) : Bool :=
  is.any fun i => (P i).entries.any test

theorem matchesFrom_safe {n : Nat} (hL : ∀ i ∈ is, i ∈ L) (hat : At t v f L P) :
    Safely hash seed t (matchesFrom t test is n) (fun r x => At t x f L P ∧
        r = n + (is.map fun i => (P i).entries.countP test).sum) v := by
  induction is generalizing n v with
  | nil => exact done_safe ⟨hat, rfl⟩
  | cons i is ih =>
    refine inside_safe hat (hL i mem_cons_self) trivial fun v' hat' _ => ?_
    have hnotes : (Section.count test).notes t (P i) = [] := rfl
    have hrun : ((Section.count test).run (P i)).1.1 = P i := rfl
    rw [hnotes, hrun, append_nil, update_eq_self, update_eq_self] at hat'
    refine (ih (fun j hj => hL j (mem_cons_of_mem _ hj)) hat').mono fun r x h => ?_
    rw [map_cons, sum_cons, ← Nat.add_assoc]
    exact h

theorem updateLocked_safe (hL : ∀ i ∈ is, i ∈ L) (hat : At t v f L P) :
    Safely hash seed t (updateLocked t w test change is)
      (fun _ x => ∃ f' P', At t x f' L P' ∧ v.moments ⊆ x.moments ∧
        total f' = total f + (anyMatch P test is).toNat) v := by
  induction is generalizing v with
  | nil => exact done_safe ⟨f, P, hat, fun _ h => h, (Nat.add_zero _).symm⟩
  | cons i is ih =>
    refine inside_safe hat (hL i mem_cons_self) trivial fun v' hat' hsub => ?_
    obtain ⟨hfound, hlength, hsame⟩ := updateIn_run t (w i) test change (P i)
    rw [hfound]
    cases hany : (P i).entries.any test with
    | true =>
      have hmatch : anyMatch P test (i :: is) = true := by
        rw [anyMatch, any_cons, hany, Bool.true_or]
      refine done_safe ⟨_, _, hat', hsub, ?_⟩
      rw [total_update, hlength, hany, hmatch]
    | false =>
      obtain ⟨hrun, hnotes⟩ := hsame hany
      have hmatch : anyMatch P test (i :: is) = anyMatch P test is := by
        rw [anyMatch, any_cons, hany, Bool.false_or, ← anyMatch]
      rw [hrun, hnotes, append_nil, update_eq_self, update_eq_self] at hat'
      rw [hmatch]
      refine (ih (fun j hj => hL j (mem_cons_of_mem _ hj)) hat').mono ?_
      rintro r x ⟨f', P', hx, hmoments, htotal⟩
      exact ⟨f', P', hx, fun _ hm => hmoments (hsub hm), htotal⟩

theorem removeLocked_safe (hL : ∀ i ∈ is, i ∈ L) (hat : At t v f L P) :
    Safely hash seed t (removeLocked t w test is)
      (fun r x => ∃ f' P', At t x f' L P' ∧ v.moments ⊆ x.moments ∧
        total f' = total f + r.toList.length ∧ r.isSome = anyMatch P test is) v := by
  induction is generalizing v with
  | nil => exact done_safe ⟨f, P, hat, fun _ h => h, (Nat.add_zero _).symm, rfl⟩
  | cons i is ih =>
    refine inside_safe hat (hL i mem_cons_self) trivial fun v' hat' hsub => ?_
    obtain ⟨hlength, hany, hsame⟩ := removeIn_run t (w i) test (P i)
    rw [show ((Section.removeIn (w i) test).run (P i)).2 = ((P i).removeIn (w i) test).2 from rfl]
    cases hfound : ((P i).removeIn (w i) test).2 with
    | some e =>
      rw [hfound] at hlength hany
      refine done_safe ⟨_, _, hat', hsub, ?_, ?_⟩
      · rw [total_update, hlength]
      · rw [anyMatch, any_cons, ← hany]
        rfl
    | none =>
      obtain ⟨hrun, hnotes⟩ := hsame hfound
      rw [hfound] at hany
      have hmatch : anyMatch P test (i :: is) = anyMatch P test is := by
        rw [anyMatch, any_cons, ← hany, ← anyMatch]
        rfl
      rw [hrun, hnotes, append_nil, update_eq_self, update_eq_self] at hat'
      rw [hmatch]
      refine (ih (fun j hj => hL j (mem_cons_of_mem _ hj)) hat').mono ?_
      rintro r x ⟨f', P', hx, hmoments, htotal⟩
      exact ⟨f', P', hx, fun _ hm => hmoments (hsub hm), htotal⟩

/-- `locked_from`: what the code finds with the locks held, it leaves with them given back. -/
theorem lockedFrom_safe {c : Op ι K V R}
    {Q : R → (Fin PARTS → List (Note ι K V)) → List (Store ι K V) → Prop}
    (hQ : ∀ r f S S', S ⊆ S' → Q r f S → Q r f S') (hnodup : is.Nodup)
    (hfree : ∀ i ∈ is, i ∉ L) (hat : At t v f L P)
    (hc : ∀ v' P', At t v' f (L ∪ {i | i ∈ is}) P' → Safely hash seed t c
      (fun r x => ∃ f' P'', At t x f' (L ∪ {i | i ∈ is}) P'' ∧ Q r f' x.moments) v') :
    Safely hash seed t (lockedFrom t c is)
      (fun r x => ∃ f' P', At t x f' L P' ∧ Q r f' x.moments) v := by
  induction is generalizing L v P with
  | nil =>
    have hempty : L ∪ {i | i ∈ ([] : List (Fin PARTS))} = L := by
      ext i
      simp
    rw [hempty] at hc
    exact hc v P hat
  | cons i is ih =>
    obtain ⟨hi, hnodup⟩ := nodup_cons.1 hnodup
    have hset : insert i L ∪ {j | j ∈ is} = L ∪ {j | j ∈ i :: is} := by
      ext j
      simp only [Set.mem_union, Set.mem_insert_iff, Set.mem_ofPred_eq, mem_cons]
      constructor
      · rintro ((h | h) | h)
        · exact .inr (.inl h)
        · exact .inl h
        · exact .inr (.inr h)
      · rintro (h | h | h)
        · exact .inl (.inr h)
        · exact .inl (.inl h)
        · exact .inr h
    refine lock_safe hat fun v' P' hat' => ?_
    have hfree' : ∀ j ∈ is, j ∉ insert i L := by
      rintro j hj (rfl | hjL)
      · exact hi hj
      · exact hfree j (mem_cons_of_mem _ hj) hjL
    rw [← hset] at hc
    refine Code.Safe.bind ?_ (ih hnodup hfree' hat' hc)
    rintro r x ⟨f', P'', hx, hq⟩
    exact unlock_safe hx (hfree i mem_cons_self) fun y hy hsub =>
      done_safe ⟨f', P'', hy, hQ r f' _ _ hsub hq⟩

/-! ## The calls -/

/-- What a call answers, by the calls on parts that it was and the memory at the
    moments of the call. -/
def Tells (hash : K → UInt64) (seed : UInt64) (t : ι) :
    Call K V → Answer K V → (Fin PARTS → List (Note ι K V)) → List (Store ι K V) → Prop
  | .key k op, .key a, f, _ =>
    ∃ stamp, f = update (fun _ => []) (partOf hash seed k) [⟨t, k, op, a, stamp⟩]
  | .updateAll _ _ _, .number n, f, _ => total f = n
  | .updateFirst _ _ _, .flag b, f, _ => total f = b.toNat
  | .updateOne _ test _, .finished, f, S =>
    (∃ m ∈ S, m.matching (test 0) = 1) ∧ total f ≤ 1 ∧ (test 1 = test 0 → total f = 1)
  | .updateOne _ test _, .notOne n, f, S => (∃ m ∈ S, m.matching (test 0) = n) ∧ n ≠ 1 ∧ total f = 0
  | .removeAll _ _, .number n, f, _ => total f = n
  | .removeFirst _ _, .entry e, f, _ => total f = e.toList.length
  | .removeOne _ test, .entry (some _), f, S => (∃ m ∈ S, m.matching (test 0) = 1) ∧ total f = 1
  | .removeOne _ test, .notOne n, f, S =>
    (∃ m ∈ S, m.matching (test 0) = n) ∧ total f = 0 ∧ (test 1 = test 0 → n ≠ 1)
  | .clear, .finished, _, _ => True
  | _, _, _, _ => False

/-- What a call leaves: no lock held, and an answer that its calls on parts bear out. -/
def Answered (hash : K → UInt64) (seed : UInt64) (t : ι) (c : Call K V) (r : Answer K V)
    (v : View (Store ι K V)) : Prop :=
  ∃ f P, At t v f ∅ P ∧ Tells hash seed t c r f v.moments

theorem keyCall_safe (k : K) (op : KeyOp V) (hat : At t v (fun _ => []) ∅ P) :
    Safely hash seed t (keyCall hash seed t k op) (Answered hash seed t (.key k op)) v := by
  refine sync_safe hat rfl fun v' p P' hat' => ?_
  exact done_safe ⟨_, _, hat', _, rfl⟩

theorem updateAll_safe (w' test' change') {n : Nat} (hat : At t v f ∅ P) (hn : total f = n) :
    Safely hash seed t (updateAll t w test change is n)
      (Answered hash seed t (.updateAll w' test' change')) v := by
  induction is generalizing v f P n with
  | nil => exact done_safe ⟨f, P, hat, hn⟩
  | cons i is ih =>
    refine sync_safe hat trivial fun v' p P' hat' => ih hat' ?_
    rw [total_update, hn]
    exact congrArg (n + ·) (updateEach_count test change _ p)

theorem updateFirst_safe (w' test' change') (hat : At t v f ∅ P) (hn : total f = 0) :
    Safely hash seed t (updateFirst t w test change is)
      (Answered hash seed t (.updateFirst w' test' change')) v := by
  induction is generalizing v f P with
  | nil => exact done_safe ⟨f, P, hat, hn⟩
  | cons i is ih =>
    refine sync_safe hat trivial fun v' p P' hat' => ?_
    obtain ⟨hfound, hlength, -⟩ := updateIn_run t (w i) test change p
    have htotal := total_update f i ((Section.updateIn (w i) test change).notes t p)
    rw [hn, hlength, Nat.zero_add] at htotal
    rw [hfound]
    cases hany : p.entries.any test with
    | true =>
      rw [hany] at htotal
      exact done_safe ⟨_, _, hat', htotal⟩
    | false =>
      rw [hany] at htotal
      exact ih hat' htotal

theorem removeAll_safe (w' test') {n : Nat} (hat : At t v f ∅ P) (hn : total f = n) :
    Safely hash seed t (removeAll t w test is n)
      (Answered hash seed t (.removeAll w' test')) v := by
  induction is generalizing v f P n with
  | nil => exact done_safe ⟨f, P, hat, hn⟩
  | cons i is ih =>
    refine sync_safe hat trivial fun v' p P' hat' => ih hat' ?_
    rw [total_update, hn]
    have hcount := removeEach_count test ((w i).order p.entries) p
    rw [← length_map (removeNote t)] at hcount
    exact congrArg (n + ·) hcount

theorem removeFirst_safe (w' test') (hat : At t v f ∅ P) (hn : total f = 0) :
    Safely hash seed t (removeFirst t w test is)
      (Answered hash seed t (.removeFirst w' test')) v := by
  induction is generalizing v f P with
  | nil => exact done_safe ⟨f, P, hat, hn⟩
  | cons i is ih =>
    refine sync_safe hat trivial fun v' p P' hat' => ?_
    obtain ⟨hlength, -, -⟩ := removeIn_run t (w i) test p
    have htotal := total_update f i ((Section.removeIn (w i) test).notes t p)
    rw [hn, hlength, Nat.zero_add] at htotal
    rw [show ((Section.removeIn (w i) test).run p).2 = (p.removeIn (w i) test).2 from rfl]
    cases hfound : (p.removeIn (w i) test).2 with
    | some e =>
      rw [hfound] at htotal
      exact done_safe ⟨_, _, hat', htotal⟩
    | none =>
      rw [hfound] at htotal
      exact ih hat' htotal

theorem clear_safe (hat : At t v f ∅ P) :
    Safely hash seed t (clear t is) (Answered hash seed t (.clear : Call K V)) v := by
  induction is generalizing v f P with
  | nil => exact done_safe ⟨f, P, hat, trivial⟩
  | cons i is ih => exact sync_safe hat trivial fun v' p P' hat' => ih hat'

/-! ### The calls that hold every lock -/

theorem whole_safe {c : Op ι K V R}
    {Q : R → (Fin PARTS → List (Note ι K V)) → List (Store ι K V) → Prop}
    (hQ : ∀ r f S S', S ⊆ S' → Q r f S → Q r f S') (hat : At t v f ∅ P)
    (hc : ∀ v' P', At t v' f Set.univ P' → Safely hash seed t c
      (fun r x => ∃ f' P'', At t x f' Set.univ P'' ∧ Q r f' x.moments) v') :
    Safely hash seed t (whole t c) (fun r x => ∃ f' P', At t x f' ∅ P' ∧ Q r f' x.moments) v := by
  have hall : ∅ ∪ {i | i ∈ List.finRange PARTS} = (Set.univ : Set (Fin PARTS)) := by
    ext i
    simp [mem_finRange]
  refine lockedFrom_safe hQ (nodup_finRange _) (fun _ _ => Set.notMem_empty _) hat ?_
  rw [hall]
  exact hc

theorem matches_safe (hat : At t v f Set.univ P) :
    Safely hash seed t (matchesFrom t test (List.finRange PARTS) 0)
      (fun n x => At t x f Set.univ P ∧ (∃ m ∈ x.moments, m.matching test = n) ∧
        n = ∑ i, (P i).entries.countP test) v := by
  refine (matchesFrom_safe (fun _ _ => Set.mem_univ _) hat).mono ?_
  rintro n x ⟨hx, hn⟩
  have hsum : n = ∑ i, (P i).entries.countP test := by
    rw [hn, Nat.zero_add, Fin.sum_univ_def]
  refine ⟨hx, ⟨x.now, hx.mem, ?_⟩, hsum⟩
  rw [hsum, Store.matching]
  exact Finset.sum_congr rfl fun i _ => by rw [hx.parts i (Set.mem_univ i)]

omit [BEq K] in
theorem anyMatch_of_one (h : 1 = ∑ i, (P i).entries.countP test) :
    anyMatch P test (List.finRange PARTS) = true := by
  by_contra hno
  have hno : anyMatch P test (List.finRange PARTS) = false := by simpa using hno
  have hzero : ∑ i, (P i).entries.countP test = 0 := by
    refine Finset.sum_eq_zero fun i _ => countP_eq_zero.2 fun e he htest => ?_
    have hi := List.any_eq_false.1 hno i (mem_finRange i)
    exact hi (List.any_eq_true.2 ⟨e, he, htest⟩)
  rw [hzero] at h
  cases h

/-- What `update_one` does with every lock held: it gives the number of matches. -/
structure UpdatedOne (test : Fin 2 → K × V → Bool) (n : Nat)
    (f : Fin PARTS → List (Note ι K V)) (S : List (Store ι K V)) : Prop where
  counted : ∃ m ∈ S, m.matching (test 0) = n
  le : total f ≤ 1
  zero : n ≠ 1 → total f = 0
  one : n = 1 → test 1 = test 0 → total f = 1

theorem updateOne_safe (w : Fin PARTS → Walk K V) (test : Fin 2 → K × V → Bool)
    (change : K × V → K × V) (hat : At t v (fun _ => []) ∅ P) :
    Safely hash seed t (updateOne t w test change)
      (Answered hash seed t (.updateOne w test change)) v := by
  refine Code.Safe.bind ?_ (whole_safe (Q := UpdatedOne test) ?_ hat ?_)
  · -- the answer
    rintro n x ⟨f', P', hx, h⟩
    show Safely hash seed t (if n ≠ 1 then pure (Answer.notOne n) else pure Answer.finished) _ x
    by_cases hn : n ≠ 1
    · rw [if_pos hn]
      exact done_safe ⟨f', P', hx, h.counted, hn, h.zero hn⟩
    · rw [if_neg hn]
      have hn : n = 1 := not_not.1 hn
      exact done_safe ⟨f', P', hx, hn ▸ h.counted, h.le, h.one hn⟩
  · intro n f' S S' hsub h
    obtain ⟨m, hm, hn⟩ := h.counted
    exact ⟨⟨m, hsub hm, hn⟩, h.le, h.zero, h.one⟩
  · -- the code under the locks
    intro v' P' hat'
    refine Code.Safe.bind ?_ (matches_safe hat')
    rintro n x ⟨hx, ⟨m, hm, hmatch⟩, hsum⟩
    show Safely hash seed t (if n = 1 then updateLocked t w (test 1) change
      (List.finRange PARTS) >>= fun _ => pure n else pure n) _ x
    by_cases hn : n = 1
    · rw [if_pos hn]
      refine Code.Safe.bind ?_ (updateLocked_safe (fun _ _ => Set.mem_univ _) hx)
      rintro _ y ⟨f', P'', hy, hsub, htotal⟩
      rw [total_nil, Nat.zero_add] at htotal
      refine done_safe ⟨f', P'', hy, ⟨m, hsub hm, hmatch⟩, ?_, fun h => absurd hn h, ?_⟩
      · rw [htotal]
        exact Bool.toNat_le _
      · intro _ hsame
        rw [htotal, hsame, anyMatch_of_one (hn ▸ hsum)]
        rfl
    · rw [if_neg hn]
      refine done_safe ⟨_, P', hx, ⟨m, hm, hmatch⟩, ?_, fun _ => total_nil, fun h => absurd h hn⟩
      rw [total_nil]
      exact Nat.zero_le _

/-- What `remove_one` does with every lock held: it gives the number of matches,
    and what it took. -/
structure RemovedOne (test : Fin 2 → K × V → Bool) (r : Nat × Option (K × V))
    (f : Fin PARTS → List (Note ι K V)) (S : List (Store ι K V)) : Prop where
  counted : ∃ m ∈ S, m.matching (test 0) = r.1
  total_eq : total f = r.2.toList.length
  one : r.2 ≠ none → r.1 = 1
  found : r.2 = none → test 1 = test 0 → r.1 ≠ 1

theorem removeOne_safe (w : Fin PARTS → Walk K V) (test : Fin 2 → K × V → Bool)
    (hat : At t v (fun _ => []) ∅ P) :
    Safely hash seed t (removeOne t w test) (Answered hash seed t (.removeOne w test)) v := by
  refine Code.Safe.bind ?_ (whole_safe (Q := RemovedOne test) ?_ hat ?_)
  · -- the answer
    rintro ⟨n, taken⟩ x ⟨f', P', hx, h⟩
    cases taken with
    | none => exact done_safe ⟨f', P', hx, h.counted, h.total_eq, h.found rfl⟩
    | some e =>
      have hn : n = 1 := h.one nofun
      exact done_safe ⟨f', P', hx, hn ▸ h.counted, h.total_eq⟩
  · intro r f' S S' hsub h
    obtain ⟨m, hm, hn⟩ := h.counted
    exact ⟨⟨m, hsub hm, hn⟩, h.total_eq, h.one, h.found⟩
  · -- the code under the locks
    intro v' P' hat'
    refine Code.Safe.bind ?_ (matches_safe hat')
    rintro n x ⟨hx, ⟨m, hm, hmatch⟩, hsum⟩
    show Safely hash seed t (if n = 1 then removeLocked t w (test 1)
      (List.finRange PARTS) >>= fun taken => pure (n, taken) else pure (n, none)) _ x
    by_cases hn : n = 1
    · rw [if_pos hn]
      refine Code.Safe.bind ?_ (removeLocked_safe (fun _ _ => Set.mem_univ _) hx)
      rintro taken y ⟨f', P'', hy, hsub, htotal, hfound⟩
      rw [total_nil, Nat.zero_add] at htotal
      refine done_safe ⟨f', P'', hy, ⟨m, hsub hm, hmatch⟩, htotal, fun _ => hn, ?_⟩
      intro hnone hsame
      rw [show taken = none from hnone, hsame, anyMatch_of_one (hn ▸ hsum)] at hfound
      cases hfound
    · rw [if_neg hn]
      exact done_safe ⟨_, P', hx, ⟨m, hm, hmatch⟩, total_nil, fun h => absurd rfl h, fun _ _ => hn⟩

theorem body_safe {m : Store ι K V} (hidle : ∀ i, m.holder i ≠ some t) (c : Call K V) :
    Safely hash seed t (body hash seed t c) (Answered hash seed t c) (.start m) := by
  have hat : At t (.start m) (fun _ => []) ∅ m.parts := .start hidle _
  cases c with
  | key k op => exact keyCall_safe k op hat
  | updateAll w test change => exact updateAll_safe w test change hat total_nil
  | updateFirst w test change => exact updateFirst_safe w test change hat total_nil
  | updateOne w test change => exact updateOne_safe w test change hat
  | removeAll w test => exact removeAll_safe w test hat total_nil
  | removeFirst w test => exact removeFirst_safe w test hat total_nil
  | removeOne w test => exact removeOne_safe w test hat
  | clear => exact clear_safe hat

end AnticShared
