import Antic.ObjectLock
import Mathlib.Data.List.Perm.Basic

/-! # The lock of an object excludes, and its owner takes it again

    `Agrees` says, for one thread and one object, what the word, the owner and the depth
    are at each place of the thread, by how many takes of the lock the thread holds.  A
    step of another thread changes none of it, since that thread would hold the word. -/

namespace AnticLock

open Interleaving List Function

variable {τ ω : Type*} [DecidableEq τ] [LinearOrder ω]

/-! ## What a thread holds -/

/-- The takes of a block that is being taken or given back. -/
def Place.pending : Place ω → List ω
  | .rest => []
  | .locking _ taken _ _ _ => taken
  | .unlocking o others .leave => o :: others
  | .unlocking _ others _ => others

/-- How often the thread has taken the lock of the object and not given it back. -/
def Objects.takes (s : Objects τ ω) (t : τ) (o : ω) : Nat :=
  ((s.nest t).flatMap Block.takes).count o + (s.place t).pending.count o

/-- What a thread does with one object. -/
inductive Stage where
  | away
  | entering
  | owning
  | beginning
  | disowning
  | releasing

/-- What the thread at the place does with the object. -/
def Place.stage (o : ω) : Place ω → Stage
  | .locking _ _ x _ .word => if x = o then .entering else .away
  | .locking _ _ x _ .own => if x = o then .owning else .away
  | .locking _ _ x _ .begin => if x = o then .beginning else .away
  | .unlocking x _ .disown => if x = o then .disowning else .away
  | .unlocking x _ .release => if x = o then .releasing else .away
  | _ => .away

/-- The thread `t` has taken the lock `n` times and is at the stage. -/
def Agrees (t : τ) (n : Nat) (pc : WordPc) (owner : Option τ) (depth : Int) : Stage → Prop
  | .away =>
    (n = 0 → pc = .out ∧ owner ≠ some t) ∧
    (0 < n → pc = .held ∧ owner = some t ∧ depth = n)
  | .entering =>
    n = 0 ∧ owner ≠ some t ∧ (pc = .compare ∨ pc = .exchange ∨ pc = .wait ∨ pc = .asleep)
  | .owning => n = 0 ∧ owner ≠ some t ∧ pc = .held
  | .beginning => n = 0 ∧ owner = some t ∧ pc = .held
  | .disowning => n = 0 ∧ owner = some t ∧ pc = .held
  | .releasing => n = 0 ∧ owner ≠ some t ∧ (pc = .held ∨ pc = .wake)

omit [DecidableEq τ] in
theorem Agrees.held {t : τ} {n : Nat} {pc : WordPc} {owner : Option τ} {depth : Int}
    {stage : Stage} (h : Agrees t n pc owner depth stage) (howner : owner = some t) :
    pc = .held := by
  cases stage with
  | away =>
    rcases Nat.eq_zero_or_pos n with hn | hn
    · exact absurd howner (h.1 hn).2
    · exact (h.2 hn).1
  | entering | owning | releasing => exact absurd howner h.2.1
  | beginning | disowning => exact h.2.2

omit [DecidableEq τ] in
/-- A step of another thread keeps what a thread finds, unless that thread holds the word. -/
theorem Agrees.other {t : τ} {n : Nat} {pc pc' : WordPc} {owner owner' : Option τ}
    {depth depth' : Int} {stage : Stage} (h : Agrees t n pc owner depth stage)
    (hpc : pc' = pc ∨ (pc = .asleep ∧ pc' = .exchange))
    (howner : owner' = some t ↔ owner = some t) (hdepth : pc = .held → depth' = depth) :
    Agrees t n pc' owner' depth' stage := by
  have same : pc ≠ .asleep → pc' = pc := fun hne => hpc.resolve_right fun h => hne h.1
  cases stage with
  | away =>
    refine ⟨fun hn => ?_, fun hn => ?_⟩
    · obtain ⟨hout, hno⟩ := h.1 hn
      exact ⟨(same (by rw [hout]; decide)).trans hout, fun h => hno (howner.1 h)⟩
    · obtain ⟨hheld, hown, hd⟩ := h.2 hn
      exact ⟨(same (by rw [hheld]; decide)).trans hheld, howner.2 hown, (hdepth hheld).trans hd⟩
  | entering =>
    obtain ⟨hn, hno, hat⟩ := h
    refine ⟨hn, fun h => hno (howner.1 h), ?_⟩
    rcases hpc with rfl | ⟨_, hpc⟩
    · exact hat
    · exact .inr (.inl hpc)
  | owning =>
    obtain ⟨hn, hno, hheld⟩ := h
    exact ⟨hn, fun h => hno (howner.1 h), (same (by rw [hheld]; decide)).trans hheld⟩
  | beginning | disowning =>
    obtain ⟨hn, hown, hheld⟩ := h
    exact ⟨hn, howner.2 hown, (same (by rw [hheld]; decide)).trans hheld⟩
  | releasing =>
    obtain ⟨hn, hno, hat⟩ := h
    refine ⟨hn, fun h => hno (howner.1 h), ?_⟩
    have hne : pc ≠ .asleep := by
      rintro rfl
      rcases hat with hat | hat <;> cases hat
    rw [same hne]
    exact hat

/-! ## What a step does at the word -/

theorem wordStep_other {w w' : Word τ} {t u : τ} (h : WordStep w t w') (hu : u ≠ t) :
    w'.pc u = w.pc u ∨ (w.pc u = .asleep ∧ w'.pc u = .exchange) := by
  cases h with
  | @wake v hpc hv =>
    rw [put_pc_of_ne hu]
    by_cases huv : u = v
    · rw [huv, put_pc_self]
      exact .inr ⟨hv, rfl⟩
    · exact .inl (put_pc_of_ne huv)
  | call _ | take _ _ | found _ _ | exchange _ | sleep _ _ | back _ _ | spurious _ | release _
  | idle _ _ => exact .inl (put_pc_of_ne hu)

/-- Where a step of the thread leaves it. -/
def WordNext : WordPc → WordPc → Prop
  | .out, q => q = .compare
  | .held, q => q = .wake ∨ q = .out
  | .wake, q => q = .out
  | _, q => q = .held ∨ q = .exchange ∨ q = .wait ∨ q = .asleep

theorem wordStep_self {w w' : Word τ} {t : τ} (h : WordStep w t w') :
    WordNext (w.pc t) (w'.pc t) := by
  cases h with
  | call hpc => rw [hpc, put_pc_self]; rfl
  | take hpc _ => rw [hpc, put_pc_self]; exact .inl rfl
  | found hpc _ =>
    rw [hpc, put_pc_self]
    split
    · exact .inr (.inr (.inl rfl))
    · exact .inr (.inl rfl)
  | exchange hpc =>
    rw [hpc, put_pc_self]
    split
    · exact .inl rfl
    · exact .inr (.inr (.inl rfl))
  | sleep hpc _ => rw [hpc, put_pc_self]; exact .inr (.inr (.inr rfl))
  | back hpc _ => rw [hpc, put_pc_self]; exact .inr (.inl rfl)
  | spurious hpc => rw [hpc, put_pc_self]; exact .inr (.inl rfl)
  | release hpc =>
    rw [hpc, put_pc_self]
    split
    · exact .inl rfl
    · exact .inr rfl
  | wake hpc _ => rw [hpc, put_pc_self]; rfl
  | idle hpc _ => rw [hpc, put_pc_self]; rfl

/-! ## The invariant -/

structure ObjectInv (s : Objects τ ω) : Prop where
  words : ∀ o, WordInv (s.word o)
  agrees : ∀ t o, Agrees t (s.takes t o) ((s.word o).pc t) (s.owner o) (s.depth o)
    ((s.place t).stage o)
  /-- The owner that a thread has read is still there when it counts. -/
  again : ∀ t e taken o rest, s.place t = .locking e taken o rest .deepen → s.owner o = some t
  blocks : ∀ t e taken o rest p, s.place t = .locking e taken o rest p →
    taken ++ o :: rest = e.takes

/-- What a step of `t` at `o` leaves alone: other objects, and the places of others. -/
structure Frame (s : Objects τ ω) (t : τ) (o : ω) (s' : Objects τ ω) : Prop where
  word : ∀ x, x ≠ o → s'.word x = s.word x
  owner : ∀ x, x ≠ o → s'.owner x = s.owner x
  depth : ∀ x, x ≠ o → s'.depth x = s.depth x
  place : ∀ u, u ≠ t → s'.place u = s.place u
  nest : ∀ u, u ≠ t → s'.nest u = s.nest u
  takes : ∀ x, x ≠ o → s'.takes t x = s.takes t x
  stage : ∀ x, x ≠ o → (s.place t).stage x = .away ∧ (s'.place t).stage x = .away

/-- A step at one object keeps the invariant, if the thread agrees with the object after
    it and every other one finds there what it found before. -/
theorem ObjectInv.frame {s s' : Objects τ ω} {t : τ} {o : ω} (h : ObjectInv s)
    (hf : Frame s t o s') (hword : WordInv (s'.word o))
    (hself : Agrees t (s'.takes t o) ((s'.word o).pc t) (s'.owner o) (s'.depth o)
      ((s'.place t).stage o))
    (hother : ∀ u, u ≠ t → ((s'.word o).pc u = (s.word o).pc u ∨
        ((s.word o).pc u = .asleep ∧ (s'.word o).pc u = .exchange)) ∧
      (s'.owner o = some u ↔ s.owner o = some u) ∧
      ((s.word o).pc u = .held → s'.depth o = s.depth o))
    (hagain : ∀ e taken x rest, s'.place t = .locking e taken x rest .deepen → s'.owner x = some t)
    (hblocks : ∀ e taken x rest p, s'.place t = .locking e taken x rest p →
      taken ++ x :: rest = e.takes) : ObjectInv s' := by
  have howner : ∀ u x, u ≠ t → s.owner x = some u → s'.owner x = some u := by
    intro u x hu hx
    by_cases hxo : x = o
    · rw [hxo] at hx ⊢
      exact (hother u hu).2.1.2 hx
    · rw [hf.owner x hxo]
      exact hx
  refine ⟨fun x => ?_, fun u x => ?_, fun u e taken x rest hplace => ?_,
    fun u e taken x rest p hplace => ?_⟩
  · by_cases hx : x = o
    · rw [hx]
      exact hword
    · rw [hf.word x hx]
      exact h.words x
  · by_cases hx : x = o
    · rw [hx]
      by_cases hu : u = t
      · rw [hu]
        exact hself
      · obtain ⟨hpc, hown, hdepth⟩ := hother u hu
        have hagrees := (h.agrees u o).other hpc hown hdepth
        rw [Objects.takes, hf.place u hu, hf.nest u hu]
        exact hagrees
    · rw [hf.word x hx, hf.owner x hx, hf.depth x hx]
      by_cases hu : u = t
      · rw [hu, hf.takes x hx, (hf.stage x hx).2, ← (hf.stage x hx).1]
        exact h.agrees t x
      · rw [Objects.takes, hf.place u hu, hf.nest u hu]
        exact h.agrees u x
  · by_cases hu : u = t
    · rw [hu] at hplace ⊢
      exact hagain e taken x rest hplace
    · rw [hf.place u hu] at hplace
      exact howner u x hu (h.again u e taken x rest hplace)
  · by_cases hu : u = t
    · rw [hu] at hplace
      exact hblocks e taken x rest p hplace
    · rw [hf.place u hu] at hplace
      exact h.blocks u e taken x rest p hplace

omit [DecidableEq τ] in
/-- Another thread finds the owner and the depth of a word that `t` holds as they were. -/
theorem ObjectInv.others {s : Objects τ ω} {t u : τ} {o : ω} (h : ObjectInv s)
    (hheld : (s.word o).pc t = .held) (hu : u ≠ t) :
    (s.word o).pc u ≠ .held ∧ s.owner o ≠ some u := by
  have hpc : (s.word o).pc u ≠ .held := fun hpc => hu ((h.words o).one u t hpc hheld)
  exact ⟨hpc, fun hown => hpc ((h.agrees u o).held hown)⟩

omit [DecidableEq τ] in
theorem ObjectInv.start : ObjectInv (Objects.free : Objects τ ω) where
  words _ := .start
  agrees _ _ := ⟨fun _ => ⟨rfl, fun h => nomatch h⟩, fun h => absurd h (Nat.lt_irrefl 0)⟩
  again _ _ _ _ _ h := nomatch h
  blocks _ _ _ _ _ _ h := nomatch h

/-! ## Between two objects -/

/-- The thread comes to a place between objects, with `pending` of its block taken. -/
structure Arrives (s : Objects τ ω) (t : τ) (pending : List ω) (s' : Objects τ ω) : Prop where
  word : s'.word = s.word
  owner : s'.owner = s.owner
  depth : s'.depth = s.depth
  place : ∀ u, u ≠ t → s'.place u = s.place u
  nest : ∀ u, u ≠ t → s'.nest u = s.nest u
  takes : ∀ x, s'.takes t x = ((s.nest t).flatMap Block.takes).count x + pending.count x
  stage : ∀ x, (s'.place t).stage x = .away
  again : ∀ e taken o rest, s'.place t ≠ .locking e taken o rest .deepen
  blocks : ∀ e taken o rest p, s'.place t = .locking e taken o rest p → taken ++ o :: rest = e.takes

theorem Arrives.at_place {s : Objects τ ω} {t : τ} {pending : List ω} {p : Place ω}
    {nest : τ → List (Block ω)} (hnest : ∀ u, u ≠ t → nest u = s.nest u)
    (htakes : ∀ x, ((nest t).flatMap Block.takes).count x + p.pending.count x =
      ((s.nest t).flatMap Block.takes).count x + pending.count x)
    (hstage : ∀ x, p.stage x = .away)
    (hagain : ∀ e taken o rest, p ≠ .locking e taken o rest .deepen)
    (hblocks : ∀ e taken o rest q, p = .locking e taken o rest q → taken ++ o :: rest = e.takes) :
    Arrives s t pending { s with place := update s.place t p, nest } := by
  refine ⟨rfl, rfl, rfl, fun u hu => update_of_ne hu .., hnest, ?_, ?_, ?_, ?_⟩
  · simpa [Objects.takes] using htakes
  · simpa using hstage
  · simpa using hagain
  · simpa using hblocks

theorem arrives_nextLock (s : Objects τ ω) (t : τ) {e : Block ω} {taken rest : List ω}
    (h : taken ++ rest = e.takes) : Arrives s t taken (s.nextLock t e taken rest) := by
  cases rest with
  | nil =>
    refine Arrives.at_place (fun u hu => update_of_ne hu ..) (fun x => ?_)
      (fun _ => rfl) (fun _ _ _ _ => nofun) fun _ _ _ _ _ => nofun
    rw [update_self, flatMap_cons, count_append, ← h, append_nil, Nat.add_comm (taken.count x)]
    rfl
  | cons o rest =>
    refine Arrives.at_place (fun _ _ => rfl) (fun _ => rfl) (fun _ => rfl)
      (fun _ _ _ _ => nofun) fun _ _ _ _ _ heq => ?_
    cases heq
    exact h

theorem arrives_nextUnlock (s : Objects τ ω) (t : τ) (rest : List ω) :
    Arrives s t rest (s.nextUnlock t rest) := by
  cases rest with
  | nil | cons o rest =>
    exact Arrives.at_place (fun _ _ => rfl) (fun _ => rfl) (fun _ => rfl)
      (fun _ _ _ _ => nofun) fun _ _ _ _ _ => nofun

theorem gives_perm (e : Block ω) : e.gives.Perm e.takes := by
  cases e with
  | one o => exact .refl _
  | two a b =>
    by_cases hab : a = b
    · simp [Block.gives, Block.takes, hab]
    · by_cases hle : a ≤ b
      · simp [Block.gives, Block.takes, hab, hle, Ne.symm hab, Perm.swap]
      · simp [Block.gives, Block.takes, hab, hle, Ne.symm hab]

/-! ## Each step keeps the invariant -/

section Step

variable {s : Objects τ ω} {t : τ}

/-- A thread that touches no object and holds as much as before. -/
theorem ObjectInv.move {s' : Objects τ ω} (h : ObjectInv s) (hword : s'.word = s.word)
    (howner : s'.owner = s.owner) (hdepth : s'.depth = s.depth)
    (hplace : ∀ u, u ≠ t → s'.place u = s.place u) (hnest : ∀ u, u ≠ t → s'.nest u = s.nest u)
    (htakes : ∀ x, s'.takes t x = s.takes t x)
    (hstage : ∀ x, (s'.place t).stage x = (s.place t).stage x)
    (hagain : ∀ e taken o rest, s'.place t = .locking e taken o rest .deepen → s.owner o = some t)
    (hblocks : ∀ e taken o rest p, s'.place t = .locking e taken o rest p →
      taken ++ o :: rest = e.takes) : ObjectInv s' := by
  refine ⟨fun o => hword ▸ h.words o, fun u o => ?_, fun u e taken o rest hu => ?_,
    fun u e taken o rest p hu => ?_⟩
  · rw [hword, howner, hdepth]
    by_cases hut : u = t
    · rw [hut, htakes, hstage]
      exact h.agrees t o
    · rw [Objects.takes, hplace u hut, hnest u hut]
      exact h.agrees u o
  · rw [howner]
    by_cases hut : u = t
    · rw [hut] at hu ⊢
      exact hagain e taken o rest hu
    · rw [hplace u hut] at hu
      exact h.again u e taken o rest hu
  · by_cases hut : u = t
    · rw [hut] at hu
      exact hblocks e taken o rest p hu
    · rw [hplace u hut] at hu
      exact h.blocks u e taken o rest p hu

/-- At most the word, the owner and the depth of `o` change. -/
structure ChangesAt (s : Objects τ ω) (o : ω) (s₁ : Objects τ ω) : Prop where
  word : ∀ x, x ≠ o → s₁.word x = s.word x
  owner : ∀ x, x ≠ o → s₁.owner x = s.owner x
  depth : ∀ x, x ≠ o → s₁.depth x = s.depth x
  place : s₁.place = s.place
  nest : s₁.nest = s.nest

omit [DecidableEq τ] in
theorem setWord_changes (o : ω) (w : Word τ) : ChangesAt s o (s.setWord o w) :=
  ⟨fun _ hx => update_of_ne hx .., fun _ _ => rfl, fun _ _ => rfl, rfl, rfl⟩

omit [DecidableEq τ] in
theorem setOwner_changes (o : ω) (owner : Option τ) : ChangesAt s o (s.setOwner o owner) :=
  ⟨fun _ _ => rfl, fun _ hx => update_of_ne hx .., fun _ _ => rfl, rfl, rfl⟩

omit [DecidableEq τ] in
theorem setDepth_changes (o : ω) (depth : Int) : ChangesAt s o (s.setDepth o depth) :=
  ⟨fun _ _ => rfl, fun _ _ => rfl, fun _ hx => update_of_ne hx .., rfl, rfl⟩

omit [DecidableEq τ] in
/-- The frame of a step that changes the depth or the word of `o` and then arrives. -/
theorem Arrives.frame {s₁ s' : Objects τ ω} {o : ω} {pending : List ω}
    (ha : Arrives s₁ t pending s') (hs : ChangesAt s o s₁)
    (hpending : ∀ x, x ≠ o → pending.count x = (s.place t).pending.count x)
    (hstage : ∀ x, x ≠ o → (s.place t).stage x = .away) : Frame s t o s' where
  word x hx := ha.word ▸ hs.word x hx
  owner x hx := ha.owner ▸ hs.owner x hx
  depth x hx := ha.depth ▸ hs.depth x hx
  place u hu := hs.place ▸ ha.place u hu
  nest u hu := hs.nest ▸ ha.nest u hu
  takes x hx := by rw [ha.takes, hs.nest, hpending x hx, Objects.takes]
  stage x hx := ⟨hstage x hx, ha.stage x⟩

/-- The frame of a step that changes what stands at `o` and goes to another place at it. -/
theorem goto_frame {s₁ : Objects τ ω} {o : ω} {p : Place ω} (hs : ChangesAt s o s₁)
    (hpending : ∀ x, x ≠ o → p.pending.count x = (s.place t).pending.count x)
    (hstage : ∀ x, x ≠ o → (s.place t).stage x = .away ∧ p.stage x = .away) :
    Frame s t o (s₁.goto t p) where
  word := hs.word
  owner := hs.owner
  depth := hs.depth
  place u hu := by
    rw [← hs.place]
    exact update_of_ne hu ..
  nest u _ := by rw [← hs.nest]; rfl
  takes x hx := by
    rw [Objects.takes, Objects.takes, ← hpending x hx, ← hs.nest]
    show _ + (update s₁.place t p t).pending.count x = _
    rw [update_self]
    rfl
  stage x hx := by
    refine ⟨(hstage x hx).1, ?_⟩
    show (update s₁.place t p t).stage x = _
    rw [update_self]
    exact (hstage x hx).2

omit [LinearOrder ω] in
theorem goto_place (s : Objects τ ω) (t : τ) (p : Place ω) : (s.goto t p).place t = p :=
  update_self ..

theorem ObjectInv.goto (h : ObjectInv s) {s₁ : Objects τ ω} {o : ω} {p : Place ω}
    (hs : ChangesAt s o s₁)
    (hpending : ∀ x, x ≠ o → p.pending.count x = (s.place t).pending.count x)
    (hstage : ∀ x, x ≠ o → (s.place t).stage x = .away ∧ p.stage x = .away)
    (hinv : WordInv (s₁.word o))
    (hself : Agrees t (((s.nest t).flatMap Block.takes).count o + p.pending.count o)
      ((s₁.word o).pc t) (s₁.owner o) (s₁.depth o) (p.stage o))
    (hother : ∀ u, u ≠ t → ((s₁.word o).pc u = (s.word o).pc u ∨
        ((s.word o).pc u = .asleep ∧ (s₁.word o).pc u = .exchange)) ∧
      (s₁.owner o = some u ↔ s.owner o = some u) ∧
      ((s.word o).pc u = .held → s₁.depth o = s.depth o))
    (hdeepen : ∀ e taken x rest, p ≠ .locking e taken x rest .deepen)
    (hblocks : ∀ e taken x rest q, p = .locking e taken x rest q → taken ++ x :: rest = e.takes) :
    ObjectInv (s₁.goto t p) := by
  refine h.frame (goto_frame hs hpending hstage) hinv ?_ hother
    (fun e taken x rest heq => ?_) (fun e taken x rest q heq => ?_)
  · rw [Objects.takes, goto_place]
    show Agrees t (((s₁.nest t).flatMap Block.takes).count o + _) _ _ _ _
    rw [hs.nest]
    exact hself
  · rw [goto_place] at heq
    exact absurd heq (hdeepen e taken x rest)
  · rw [goto_place] at heq
    exact hblocks e taken x rest q heq

theorem count_append_singleton_of_ne {x o : ω} (h : x ≠ o) (taken : List ω) :
    (taken ++ [o]).count x = taken.count x := by
  rw [count_append, count_singleton, if_neg (by simpa using h.symm), Nat.add_zero]

omit [DecidableEq τ] in
theorem setWord_word (s : Objects τ ω) (o : ω) (w : Word τ) : (s.setWord o w).word o = w :=
  update_self ..

omit [DecidableEq τ] in
theorem setOwner_owner (s : Objects τ ω) (o : ω) (owner : Option τ) :
    (s.setOwner o owner).owner o = owner :=
  update_self ..

theorem locking_stage {e : Block ω} {taken rest : List ω} {o x : ω} (p : LockAt) (h : x ≠ o) :
    (Place.locking e taken o rest p).stage x = .away := by
  cases p <;> first | rfl | exact if_neg (Ne.symm h)

theorem unlocking_stage {rest : List ω} {o x : ω} (p : UnlockAt) (h : x ≠ o) :
    (Place.unlocking o rest p).stage x = .away := by
  cases p <;> first | rfl | exact if_neg (Ne.symm h)

variable {e : Block ω} {taken rest : List ω} {o : ω}

variable (h : ObjectInv s)
include h

theorem ObjectInv.lock (e : Block ω) (hplace : s.place t = .rest) :
    ObjectInv (s.nextLock t e [] e.takes) := by
  have ha := arrives_nextLock s t (nil_append e.takes)
  refine h.move ha.word ha.owner ha.depth ha.place ha.nest (fun x => ?_) (fun x => ?_)
    (fun e' taken o rest heq => absurd heq (ha.again _ _ _ _)) ha.blocks
  · rw [ha.takes, Objects.takes, hplace]
    rfl
  · rw [ha.stage, hplace]
    rfl

theorem ObjectInv.readAgain (hplace : s.place t = .locking e taken o rest .enter)
    (howner : s.owner o = some t) : ObjectInv (s.goto t (.locking e taken o rest .deepen)) := by
  have hgoto := goto_place s t (.locking e taken o rest .deepen)
  refine h.move rfl rfl rfl (fun u hu => update_of_ne hu ..) (fun _ _ => rfl)
    (fun x => ?_) (fun x => ?_) (fun _ _ _ _ heq => ?_) (fun _ _ _ _ _ heq => ?_)
  · rw [Objects.takes, Objects.takes, hgoto, hplace]
    rfl
  · rw [hgoto, hplace]
    rfl
  · rw [hgoto] at heq
    cases heq
    exact howner
  · rw [hgoto] at heq
    cases heq
    exact h.blocks t e taken o rest .enter hplace

theorem ObjectInv.unlock {nest : List (Block ω)} (hplace : s.place t = .rest)
    (hnest : s.nest t = e :: nest) :
    ObjectInv ({ s with nest := update s.nest t nest }.nextUnlock t e.gives) := by
  have ha := arrives_nextUnlock { s with nest := update s.nest t nest } t e.gives
  refine h.move ha.word ha.owner ha.depth ha.place (fun u hu => ?_) (fun x => ?_) (fun x => ?_)
    (fun e' taken o rest heq => absurd heq (ha.again _ _ _ _)) ha.blocks
  · exact (ha.nest u hu).trans (update_of_ne hu ..)
  · rw [ha.takes, Objects.takes, hplace, hnest, flatMap_cons, count_append,
      (gives_perm e).count_eq x]
    show (List.flatMap _ (update s.nest t nest t)).count x + _ = _ + 0
    rw [update_self, Nat.add_zero, Nat.add_comm]
  · rw [ha.stage, hplace]
    rfl

omit [DecidableEq τ] in
theorem ObjectInv.at_ {p : Place ω} {stage : Stage} (hplace : s.place t = p)
    (hstage : p.stage o = stage) :
    Agrees t (s.takes t o) ((s.word o).pc t) (s.owner o) (s.depth o) stage := by
  have hagrees := h.agrees t o
  rwa [hplace, hstage] at hagrees

/-- A thread that holds an object goes on to the next one, its take of this one counted. -/
theorem ObjectInv.counted {p : LockAt} {depth : Int}
    (hplace : s.place t = .locking e taken o rest p) (hheld : (s.word o).pc t = .held)
    (hown : s.owner o = some t)
    (hdepth : depth = (((s.nest t).flatMap Block.takes).count o + (taken.count o + 1) : ℕ)) :
    ObjectInv ((s.setDepth o depth).nextLock t e (taken ++ [o]) rest) := by
  have hblock : taken ++ [o] ++ rest = e.takes := by
    rw [append_assoc]
    exact h.blocks t e taken o rest p hplace
  have ha := arrives_nextLock (s.setDepth o depth) t hblock
  refine h.frame (ha.frame (setDepth_changes ..) (fun x hx => ?_) fun x hx => ?_)
    (ha.word ▸ h.words o) ?_ (fun u hu => ?_) (fun _ _ _ _ heq => absurd heq (ha.again _ _ _ _))
    ha.blocks
  · rw [hplace]
    exact count_append_singleton_of_ne hx taken
  · rw [hplace]
    exact locking_stage _ hx
  · rw [ha.stage, ha.word, ha.owner, ha.depth, ha.takes, count_append, count_singleton_self]
    refine ⟨fun hn => absurd hn (Nat.succ_ne_zero _), fun _ => ⟨hheld, hown, ?_⟩⟩
    exact (update_self ..).trans hdepth
  · obtain ⟨hpc, _⟩ := h.others hheld hu
    rw [ha.word, ha.owner]
    exact ⟨.inl rfl, Iff.rfl, fun hu => absurd hu hpc⟩

theorem ObjectInv.deepen (hplace : s.place t = .locking e taken o rest .deepen) :
    ObjectInv ((s.setDepth o (s.depth o + 1)).nextLock t e (taken ++ [o]) rest) := by
  have haway := h.at_ (o := o) hplace rfl
  have hpos : 0 < s.takes t o := by
    by_contra hn
    exact (haway.1 (Nat.eq_zero_of_not_pos hn)).2 (h.again t e taken o rest hplace)
  obtain ⟨hheld, hown, hdepth⟩ := haway.2 hpos
  refine h.counted hplace hheld hown ?_
  rw [hdepth, Objects.takes, hplace]
  rfl

theorem ObjectInv.hold {w : Word τ} (hplace : s.place t = .locking e taken o rest .enter)
    (howner : s.owner o ≠ some t) (hw : WordStep (s.word o) t w) :
    ObjectInv ((s.setWord o w).goto t (.locking e taken o rest .word)) := by
  have haway := h.at_ (o := o) hplace rfl
  have hzero : s.takes t o = 0 := by
    by_contra hn
    exact howner (haway.2 (Nat.pos_of_ne_zero hn)).2.1
  have hnext := wordStep_self hw
  rw [(haway.1 hzero).1] at hnext
  refine h.goto (setWord_changes o w) (fun x _ => ?_)
    (fun x hx => ⟨?_, locking_stage _ hx⟩) ?_ ?_ (fun u hu => ?_) (fun _ _ _ _ => ?_)
    (fun _ _ _ _ _ heq => ?_)
  · rw [hplace]
    rfl
  · rw [hplace]
    exact locking_stage _ hx
  · rw [setWord_word]
    exact (h.words o).step hw
  · rw [setWord_word]
    show Agrees t _ _ _ _ (if o = o then _ else _)
    rw [if_pos rfl]
    refine ⟨?_, howner, .inl hnext⟩
    rw [← hzero, Objects.takes, hplace]
    rfl
  · rw [setWord_word]
    exact ⟨wordStep_other hw hu, Iff.rfl, fun _ => rfl⟩
  · exact fun h => nomatch h
  · cases heq
    exact h.blocks t e taken o rest .enter hplace

theorem ObjectInv.word {w : Word τ} (hplace : s.place t = .locking e taken o rest .word)
    (hw : WordStep (s.word o) t w) :
    ObjectInv ((s.setWord o w).goto t
      (.locking e taken o rest (if w.pc t = .held then .own else .word))) := by
  obtain ⟨hzero, howner, hat⟩ := h.at_ hplace (if_pos rfl : _ = Stage.entering)
  have hnext := wordStep_self hw
  refine h.goto (setWord_changes o w) (fun x _ => ?_)
    (fun x hx => ⟨?_, locking_stage _ hx⟩) ?_ ?_ (fun u hu => ?_) (fun _ _ _ _ => ?_)
    (fun _ _ _ _ _ heq => ?_)
  · rw [hplace]
    rfl
  · rw [hplace]
    exact locking_stage _ hx
  · rw [setWord_word]
    exact (h.words o).step hw
  · have htakes : ((s.nest t).flatMap Block.takes).count o + taken.count o = 0 := by
      rw [← hzero, Objects.takes, hplace]
      rfl
    rw [setWord_word]
    split
    · next hheld =>
        show Agrees t _ _ _ _ (if o = o then _ else _)
        rw [if_pos rfl]
        exact ⟨htakes, howner, hheld⟩
    · next hheld =>
        show Agrees t _ _ _ _ (if o = o then _ else _)
        rw [if_pos rfl]
        refine ⟨htakes, howner, .inr ?_⟩
        rcases hat with hat | hat | hat | hat
        all_goals
          rw [hat] at hnext
          exact hnext.resolve_left hheld
  · rw [setWord_word]
    exact ⟨wordStep_other hw hu, Iff.rfl, fun _ => rfl⟩
  · split <;> exact fun h => nomatch h
  · split at heq <;> cases heq <;> exact h.blocks t e taken o rest .word hplace

theorem ObjectInv.own (hplace : s.place t = .locking e taken o rest .own) :
    ObjectInv ((s.setOwner o (some t)).goto t (.locking e taken o rest .begin)) := by
  obtain ⟨hzero, _, hheld⟩ := h.at_ hplace (if_pos rfl : _ = Stage.owning)
  refine h.goto (setOwner_changes o (some t)) (fun x _ => ?_)
    (fun x hx => ⟨?_, locking_stage _ hx⟩) (h.words o) ?_ (fun u hu => ?_) (fun _ _ _ _ => ?_)
    (fun _ _ _ _ _ heq => ?_)
  · rw [hplace]
    rfl
  · rw [hplace]
    exact locking_stage _ hx
  · rw [setOwner_owner]
    show Agrees t _ _ _ _ (if o = o then _ else _)
    rw [if_pos rfl]
    refine ⟨?_, rfl, hheld⟩
    rw [← hzero, Objects.takes, hplace]
    rfl
  · obtain ⟨_, hno⟩ := h.others hheld hu
    rw [setOwner_owner]
    refine ⟨.inl rfl, ⟨fun heq => ?_, fun heq => absurd heq hno⟩, fun _ => rfl⟩
    exact absurd (Option.some.inj heq).symm hu
  · exact fun h => nomatch h
  · cases heq
    exact h.blocks t e taken o rest .own hplace

theorem ObjectInv.begin (hplace : s.place t = .locking e taken o rest .begin) :
    ObjectInv ((s.setDepth o 1).nextLock t e (taken ++ [o]) rest) := by
  obtain ⟨hzero, hown, hheld⟩ := h.at_ hplace (if_pos rfl : _ = Stage.beginning)
  refine h.counted hplace hheld hown ?_
  rw [Objects.takes, hplace] at hzero
  exact congrArg (fun n : ℕ => ((n + 1 : ℕ) : Int)) hzero.symm

theorem ObjectInv.leave (hplace : s.place t = .unlocking o rest .leave) :
    ObjectInv (if 0 < s.depth o - 1 then (s.setDepth o (s.depth o - 1)).nextUnlock t rest
      else (s.setDepth o (s.depth o - 1)).goto t (.unlocking o rest .disown)) := by
  have haway := h.at_ (o := o) hplace rfl
  have htakes : s.takes t o = ((s.nest t).flatMap Block.takes).count o + rest.count o + 1 := by
    rw [Objects.takes, hplace, Nat.add_assoc]
    exact congrArg _ count_cons_self
  obtain ⟨hheld, hown, hdepth⟩ := haway.2 (by omega)
  have hother : ∀ u, u ≠ t → (s.word o).pc u = .held → (s.setDepth o (s.depth o - 1)).depth o =
      s.depth o := fun u hu hpc => absurd hpc (h.others hheld hu).1
  have hpending : ∀ x, x ≠ o → rest.count x = (s.place t).pending.count x := by
    intro x hx
    rw [hplace]
    exact (count_cons_of_ne (Ne.symm hx)).symm
  split
  · next hmore =>
      have ha := arrives_nextUnlock (s.setDepth o (s.depth o - 1)) t rest
      refine h.frame (ha.frame (setDepth_changes ..) hpending fun x hx => ?_)
        (ha.word ▸ h.words o) ?_ (fun u hu => ?_)
        (fun _ _ _ _ heq => absurd heq (ha.again _ _ _ _)) ha.blocks
      · rw [hplace]
        rfl
      · rw [ha.stage, ha.word, ha.owner, ha.depth, ha.takes]
        refine ⟨fun hn => ?_, fun _ => ⟨hheld, hown, ?_⟩⟩
        · have hn : ((s.nest t).flatMap Block.takes).count o + rest.count o = 0 := hn
          omega
        · show update s.depth o (s.depth o - 1) o =
            ((((s.nest t).flatMap Block.takes).count o + rest.count o : Nat) : Int)
          rw [update_self]
          omega
      · rw [ha.word, ha.owner, ha.depth]
        exact ⟨.inl rfl, Iff.rfl, hother u hu⟩
  · next hlast =>
      refine h.goto (setDepth_changes o (s.depth o - 1)) hpending
        (fun x hx => ⟨?_, unlocking_stage _ hx⟩) (h.words o) ?_
        (fun u hu => ⟨.inl rfl, Iff.rfl, hother u hu⟩) (fun _ _ _ _ => ?_)
        (fun _ _ _ _ _ heq => ?_)
      · rw [hplace]
        rfl
      · show Agrees t _ _ _ _ (if o = o then _ else _)
        rw [if_pos rfl]
        refine ⟨?_, hown, hheld⟩
        show ((s.nest t).flatMap Block.takes).count o + rest.count o = 0
        omega
      · exact fun h => nomatch h
      · cases heq

theorem ObjectInv.disown (hplace : s.place t = .unlocking o rest .disown) :
    ObjectInv ((s.setOwner o none).goto t (.unlocking o rest .release)) := by
  obtain ⟨hzero, _, hheld⟩ := h.at_ hplace (if_pos rfl : _ = Stage.disowning)
  refine h.goto (setOwner_changes o none) (fun x _ => ?_)
    (fun x hx => ⟨?_, unlocking_stage _ hx⟩) (h.words o) ?_ (fun u hu => ?_) (fun _ _ _ _ => ?_)
    (fun _ _ _ _ _ heq => ?_)
  · rw [hplace]
    rfl
  · rw [hplace]
    exact unlocking_stage _ hx
  · rw [setOwner_owner]
    show Agrees t _ _ _ _ (if o = o then _ else _)
    rw [if_pos rfl]
    refine ⟨?_, fun h => (nomatch h), .inl hheld⟩
    rw [← hzero, Objects.takes, hplace]
    rfl
  · obtain ⟨_, hno⟩ := h.others hheld hu
    rw [setOwner_owner]
    exact ⟨.inl rfl, ⟨fun heq => (nomatch heq), fun heq => absurd heq hno⟩, fun _ => rfl⟩
  · exact fun h => nomatch h
  · cases heq

theorem ObjectInv.release {w : Word τ} (hplace : s.place t = .unlocking o rest .release)
    (hw : WordStep (s.word o) t w) :
    ObjectInv (if w.pc t = .out then (s.setWord o w).nextUnlock t rest else s.setWord o w) := by
  obtain ⟨hzero, howner, hat⟩ := h.at_ hplace (if_pos rfl : _ = Stage.releasing)
  have hnext : w.pc t = .out ∨ w.pc t = .wake := by
    have hnext := wordStep_self hw
    rcases hat with hat | hat
    · rw [hat] at hnext
      exact hnext.symm
    · rw [hat] at hnext
      exact .inl hnext
  have htakes : ((s.nest t).flatMap Block.takes).count o + rest.count o = 0 := by
    rw [← hzero, Objects.takes, hplace]
    rfl
  split
  · next hout =>
      have ha := arrives_nextUnlock (s.setWord o w) t rest
      refine h.frame (ha.frame (setWord_changes ..) (fun x hx => ?_) fun x hx => ?_) ?_ ?_
        (fun u hu => ?_) (fun _ _ _ _ heq => absurd heq (ha.again _ _ _ _)) ha.blocks
      · rw [hplace]
        rfl
      · rw [hplace]
        exact unlocking_stage _ hx
      · rw [ha.word, setWord_word]
        exact (h.words o).step hw
      · rw [ha.stage, ha.word, ha.owner, ha.depth, ha.takes, setWord_word]
        exact ⟨fun _ => ⟨hout, howner⟩, fun hn => absurd htakes (Nat.ne_of_gt hn)⟩
      · rw [ha.word, ha.owner, ha.depth, setWord_word]
        exact ⟨wordStep_other hw hu, Iff.rfl, fun _ => rfl⟩
  · next hmore =>
      refine h.frame (o := o) ⟨fun x hx => update_of_ne hx .., fun _ _ => rfl,
        fun _ _ => rfl, fun _ _ => rfl, fun _ _ => rfl, fun _ _ => rfl, fun x hx => ?_⟩ ?_ ?_
        (fun u hu => ?_) (fun e taken x rest heq => h.again t e taken x rest heq)
        (fun e taken x rest p heq => h.blocks t e taken x rest p heq)
      · have hstage : (Place.unlocking o rest .release).stage x = .away :=
          unlocking_stage .release hx
        rw [← hplace] at hstage
        exact ⟨hstage, hstage⟩
      · rw [setWord_word]
        exact (h.words o).step hw
      · rw [setWord_word]
        show Agrees t _ _ _ _ ((s.place t).stage o)
        rw [hplace]
        show Agrees t _ _ _ _ (if o = o then _ else _)
        rw [if_pos rfl]
        exact ⟨hzero, howner, .inr (hnext.resolve_left hmore)⟩
      · rw [setWord_word]
        exact ⟨wordStep_other hw hu, Iff.rfl, fun _ => rfl⟩

theorem ObjectInv.step {s' : Objects τ ω} (hs : ObjectStep s t s') : ObjectInv s' := by
  cases hs with
  | lock e hplace => exact h.lock e hplace
  | again hplace howner => exact h.readAgain hplace howner
  | deepen hplace => exact h.deepen hplace
  | hold hplace howner hw => exact h.hold hplace howner hw
  | word hplace hw => exact h.word hplace hw
  | own hplace => exact h.own hplace
  | begin hplace => exact h.begin hplace
  | unlock hplace hnest => exact h.unlock hplace hnest
  | leave hplace => exact h.leave hplace
  | disown hplace => exact h.disown hplace
  | release hplace hw => exact h.release hplace hw

end Step

theorem ObjectInv.run {s : Objects τ ω} {ts : List τ} (h : Runs ObjectStep Objects.free ts s) :
    ObjectInv s :=
  h.invariant (fun _ s => ObjectInv s) .start fun _ _ _ _ h hs => h.step hs

/-! ## The locks exclude -/

/-- A word has one holder, and nobody sleeps behind a free word without a wake or an
    exchange with 2 to come. -/
structure WordExcludes (w : Word τ) : Prop where
  one : ∀ t u, w.pc t = .held → w.pc u = .held → t = u
  awake : ∀ t, w.pc t = .asleep → w.value = 0 → w.WakePending ∨ w.Raising

structure ObjectsExclude (s : Objects τ ω) : Prop where
  words : ∀ o, WordExcludes (s.word o)
  one : ∀ t u o, 0 < s.takes t o → 0 < s.takes u o → t = u
  /-- The depth is the number of takes of the thread that has the lock. -/
  depth : ∀ t o, 0 < s.takes t o → s.depth o = s.takes t o
  /-- Between its calls a thread has taken a lock once for each block around it. -/
  nested : ∀ t o, s.place t = .rest → s.takes t o = (s.nest t).countP fun e => o ∈ e.takes
  /-- A thread that has the lock finds itself as its owner, and is at no word. -/
  again : ∀ t o, 0 < s.takes t o →
    s.owner o = some t ∧ ∀ e taken rest, s.place t ≠ .locking e taken o rest .word
  owner : ∀ t o, s.owner o = some t → (s.word o).pc t = .held

omit [DecidableEq τ] in
theorem WordInv.excludes {w : Word τ} (h : WordInv w) : WordExcludes w :=
  ⟨h.one, fun t ht hzero => (h.awake t ht).resolve_left (by omega)⟩

theorem count_takes (e : Block ω) (o : ω) : e.takes.count o = if o ∈ e.takes then 1 else 0 := by
  have hnodup : e.takes.Nodup := by
    cases e with
    | one o => exact pairwise_singleton _ _
    | two a b =>
      by_cases hab : a = b
      · simp [Block.takes, hab]
      · by_cases hle : a ≤ b
        · simp [Block.takes, hle, Ne.symm hab, hab]
        · simp [Block.takes, hle, hab, Ne.symm hab]
  exact hnodup.count

theorem count_blocks (blocks : List (Block ω)) (o : ω) :
    (blocks.flatMap Block.takes).count o = blocks.countP fun e => o ∈ e.takes := by
  induction blocks with
  | nil => rfl
  | cons e blocks ih =>
    rw [flatMap_cons, count_append, ih, count_takes, countP_cons, Nat.add_comm]
    simp only [decide_eq_true_eq]

omit [DecidableEq τ] in
theorem ObjectInv.excludes {s : Objects τ ω} (h : ObjectInv s) : ObjectsExclude s := by
  have held : ∀ t o, 0 < s.takes t o →
      (s.word o).pc t = .held ∧ s.owner o = some t ∧ s.depth o = s.takes t o ∧
        (s.place t).stage o = .away := by
    intro t o hpos
    have hagrees := h.agrees t o
    cases hstage : (s.place t).stage o with
    | away =>
      rw [hstage] at hagrees
      obtain ⟨hpc, hown, hdepth⟩ := hagrees.2 hpos
      exact ⟨hpc, hown, hdepth, rfl⟩
    | entering | owning | beginning | disowning | releasing =>
      rw [hstage] at hagrees
      exact absurd hagrees.1 (Nat.ne_of_gt hpos)
  refine ⟨fun o => (h.words o).excludes, fun t u o ht hu => ?_, fun t o ht => ?_,
    fun t o hplace => ?_, fun t o ht => ⟨?_, fun e taken rest hplace => ?_⟩, fun t o ho => ?_⟩
  · exact (h.words o).one t u (held t o ht).1 (held u o hu).1
  · exact (held t o ht).2.2.1
  · rw [Objects.takes, hplace, count_blocks]
    rfl
  · exact (held t o ht).2.1
  · have hstage := (held t o ht).2.2.2
    rw [hplace] at hstage
    exact absurd ((if_pos rfl).symm.trans hstage) (fun h => nomatch h)
  · exact (h.agrees t o).held ho

/-- The word excludes and loses no wake, and over it the locks of objects exclude, in
    every state that any number of threads reach. -/
theorem locks_exclude : (∀ ts (w : Word τ), Runs WordStep Word.free ts w → WordExcludes w) ∧
    ∀ ts (s : Objects τ ω), Runs ObjectStep Objects.free ts s → ObjectsExclude s :=
  ⟨fun _ _ h => (WordInv.run h).excludes, fun _ _ h => (ObjectInv.run h).excludes⟩

/-! ## Two runs -/

/-- One thread gives the word back, which wakes one of two that sleep. -/
theorem one_of_two_woken : ∃ ts, ∃ w : Word (Fin 3), Runs WordStep Word.free ts w ∧
    w.value = 0 ∧ w.pc 2 = .asleep ∧ ∀ t, w.pc t ≠ .wake := by
  have h1 : Runs WordStep (Word.free : Word (Fin 3)) _ _ := .snoc .start (.call (t := 0) rfl)
  have h2 := Runs.snoc h1 (.take (t := 0) rfl rfl)
  have h3 := Runs.snoc h2 (.call (t := 1) rfl)
  have h4 := Runs.snoc h3 (.found (t := 1) rfl (by decide))
  have h5 := Runs.snoc h4 (.exchange (t := 1) rfl)
  have h6 := Runs.snoc h5 (.sleep (t := 1) rfl rfl)
  have h7 := Runs.snoc h6 (.call (t := 2) rfl)
  have h8 := Runs.snoc h7 (.found (t := 2) rfl (by decide))
  have h9 := Runs.snoc h8 (.sleep (t := 2) rfl rfl)
  have h10 := Runs.snoc h9 (.release (t := 0) rfl)
  have h11 := Runs.snoc h10 (.wake (t := 0) (u := 1) rfl rfl)
  exact ⟨_, _, h11, rfl, rfl, by decide⟩

/-- The thread that was woken has not taken the word yet, and no wake is to come. -/
theorem asleep_without_wake : ¬ ∀ ts (w : Word (Fin 3)), Runs WordStep Word.free ts w →
    ∀ t, w.pc t = .asleep → w.value = 0 → w.WakePending := by
  intro h
  obtain ⟨ts, w, hrun, hzero, hasleep, hnone⟩ := one_of_two_woken
  obtain ⟨t, ht⟩ := h ts w hrun 2 hasleep hzero
  exact hnone t ht

/-- A thread takes the lock of one object, and the locks of two with it among them. -/
theorem nested_takes_exclude : ∃ s : Objects Bool Nat, s.takes true 5 = 2 ∧ s.depth 5 = 2 ∧
    ObjectsExclude s := by
  have h1 : Runs ObjectStep (Objects.free : Objects Bool Nat) _ _ :=
    .snoc .start (.lock (t := true) (.one 5) rfl)
  have h2 := Runs.snoc h1 (.hold (t := true) rfl (fun h => nomatch h) (.call rfl))
  have h3 := Runs.snoc h2 (.word (t := true) rfl (.take rfl rfl))
  have h4 := Runs.snoc h3 (.own (t := true) rfl)
  have h5 := Runs.snoc h4 (.begin (t := true) rfl)
  have h6 := Runs.snoc h5 (.lock (t := true) (.two 7 5) rfl)
  have h7 := Runs.snoc h6 (.again (t := true) rfl rfl)
  have h8 := Runs.snoc h7 (.deepen (t := true) rfl)
  have hexclude := locks_exclude.2 _ _ h8
  exact ⟨_, rfl, hexclude.depth true 5 (by decide), hexclude⟩

end AnticLock
