import Antic.Channels

/-! # A channel delivers every value once and in order

    The route: `Step.chan` says all that a step can do to one channel, and shows of it; the ring
    facts say what a put and a take do to the values in the ring; and the invariant of a run is that
    the values sent are those received, followed by those in the ring. -/

namespace AnticSync

open Interleaving List Function

/-! ## The ring -/

section Ring

variable {V : Type*} {ch : Channel V}

/-- The bounds of the ring. -/
structure Channel.Ok (ch : Channel V) : Prop where
  head_lt : ch.head < ch.capacity
  count_le : ch.count ≤ ch.capacity
  fits : ch.size = 0 ∨ ch.capacity ≤ int64Max / 2 / ch.size

theorem chanNew_ok {size capacity : Nat} {values : Nat → V}
    (h : chanNew size capacity values = some ch) :
    ch.Ok ∧ ch.count = 0 ∧ ch.closed = false := by
  simp only [chanNew] at h
  split at h
  · cases h
  · next hc =>
      split at h
      · next hf =>
          cases h
          exact ⟨⟨by simp only; omega, Nat.zero_le _, hf⟩, rfl, rfl⟩
      · cases h

theorem Channel.Ok.take (h : ch.Ok) : ch.take.Ok := by
  refine ⟨?_, ?_, h.fits⟩
  · exact Nat.mod_lt _ (Nat.lt_of_le_of_lt (Nat.zero_le _) h.head_lt)
  · exact Nat.le_trans (Nat.sub_le _ _) h.count_le

theorem Channel.Ok.put (h : ch.Ok) (hc : ch.count ≠ ch.capacity) (v : V) : (ch.put v).Ok := by
  refine ⟨h.head_lt, ?_, h.fits⟩
  have := h.count_le
  show ch.count + 1 ≤ ch.capacity
  omega

theorem Channel.Ok.close (h : ch.Ok) : ch.close.Ok := ⟨h.head_lt, h.count_le, h.fits⟩

theorem ring_ne {head cap i j : Nat} (hij : i < j) (hj : j - i < cap) :
    (head + i) % cap ≠ (head + j) % cap := by
  intro h
  have hd := (Nat.modEq_iff_dvd' (by omega : head + i ≤ head + j)).1 h
  have hlt : head + j - (head + i) < cap := by omega
  have := Nat.eq_zero_of_dvd_of_lt hd hlt
  omega

theorem Channel.slot_free (hc : ch.count < ch.capacity) : ch.slot ∉ ch.slots := by
  intro h
  obtain ⟨i, hi, he⟩ := List.mem_map.1 h
  have hi := mem_range.1 hi
  exact ring_ne hi (by omega) he

theorem Channel.contents_put (hc : ch.count < ch.capacity) (v : V) :
    (ch.put v).contents = ch.contents ++ [v] := by
  have hslots : (ch.put v).slots = ch.slots ++ [ch.slot] := by
    show (List.range (ch.count + 1)).map _ = _
    rw [range_succ, map_append]
    rfl
  rw [Channel.contents, hslots, map_append]
  congr 1
  · refine map_congr_left fun i hi => ?_
    have hne : i ≠ ch.slot := fun he => Channel.slot_free hc (he ▸ hi)
    exact update_of_ne hne _ _
  · exact congrArg (· :: []) (update_self ..)

theorem Channel.contents_take (h : ch.Ok) (hc : 0 < ch.count) :
    ch.contents = ch.oldest :: ch.take.contents := by
  obtain ⟨n, hn⟩ : ∃ n, ch.count = n + 1 := ⟨ch.count - 1, by omega⟩
  have hslots : ch.slots = ch.head :: ch.take.slots := by
    have htake : ch.take.slots =
        (List.range n).map fun i => ((ch.head + 1) % ch.capacity + i) % ch.capacity := by
      rw [Channel.slots, show ch.take.count = n by simp [Channel.take, hn]]
      rfl
    rw [htake, Channel.slots, hn, range_succ_eq_map, map_cons,
      List.map_map, Nat.add_zero, Nat.mod_eq_of_lt h.head_lt]
    congr 1
    refine map_congr_left fun i _ => ?_
    rw [Nat.mod_add_mod, comp_apply, Nat.succ_eq_add_one]
    congr 1
    omega
  rw [Channel.contents, hslots]
  rfl

theorem Channel.contents_of_empty (hc : ch.count = 0) : ch.contents = [] := by
  rw [Channel.contents, Channel.slots, hc]
  rfl

end Ring

/-! ## What a step does to a channel -/

section Chan

variable {τ ι V : Type*}

/-- The step puts into, takes from or closes channel `c`. -/
def Act.touches (c : ι) : Act τ ι V → Prop
  | .put _ d _ | .take _ d _ | .close _ d => d = c
  | _ => False

/-- All that a step can do to one channel. -/
inductive ChanStep (c : ι) (ch : Channel V) : Act τ ι V → Channel V → Prop where
  | put (t : τ) (v : V) : ch.count ≠ ch.capacity → ch.closed = false →
      ChanStep c ch (.put t c v) (ch.put v)
  | take (t : τ) : 0 < ch.count → ChanStep c ch (.take t c ch.oldest) ch.take
  | close (t : τ) : ChanStep c ch (.close t c) ch.close
  | keep (a : Act τ ι V) : ¬ a.touches c → ChanStep c ch a ch

variable [DecidableEq ι] {s s' : State τ ι V} {a : Act τ ι V}

theorem ChanStep.on_update {c d : ι} {ch : Channel V}
    (h : ChanStep d (s.chans d) a ch) (ht : ∀ c, a.touches c → c = d) :
    ChanStep c (s.chans c) a (update s.chans d ch c) := by
  by_cases hcd : c = d
  · subst hcd
    rw [update_self]
    exact h
  · rw [update_of_ne hcd]
    exact .keep a fun hc => hcd (ht c hc)

variable [DecidableEq τ]

theorem Step.chan (h : Step s a s') (c : ι) :
    ChanStep c (s.chans c) a (s'.chans c) := by
  cases h with
  | sendPut t d v w pcs _ _ hcount hclosed _ =>
    exact ChanStep.on_update (.put t v hcount hclosed) fun _ h => h.symm
  | recvTake t d w pcs _ _ hcount _
  | heldTake t d pcs _ hcount _
  | armTake t arms start k d pcs _ _ _ hcount _ =>
    exact ChanStep.on_update (.take t hcount) fun _ h => h.symm
  | close t d _ => exact ChanStep.on_update (.close t) fun _ h => h.symm
  | _ => exact .keep _ (fun h => h)

/-- A step that answers that a channel is closed and empty found it so. -/
theorem Step.ended {t : τ} {c : ι} (h : Step s (.ended t c) s') :
    (s.chans c).closed = true ∧ (s.chans c).count = 0 := by
  cases h with
  | recvEnded _ _ w _ _ hcount hclosed => exact ⟨hclosed, hcount⟩
  | armEnded _ arms start k _ _ _ _ hcount hclosed => exact ⟨hclosed, hcount⟩

theorem Step.close_again {t : τ} {c : ι} (h : Step s (.close t c) s')
    (hclosed : (s.chans c).closed = true) : s'.chans = s.chans := by
  funext d
  have hd := h.chan d
  generalize s'.chans d = ch at hd
  cases hd with
  | close =>
    show { s.chans c with closed := true } = s.chans c
    rw [← hclosed]
  | keep => rfl

end Chan

/-! ## A run -/

section Run

variable {τ ι V : Type*} [DecidableEq ι]

/-- The value that a step puts into channel `c`. -/
def Act.sentTo (c : ι) : Act τ ι V → Option V
  | .put _ d v => if d = c then some v else none
  | _ => none

/-- The value that a step takes from channel `c`. -/
def Act.receivedFrom (c : ι) : Act τ ι V → Option V
  | .take _ d v => if d = c then some v else none
  | _ => none

/-- The values put into channel `c`, in the order of their put steps. -/
def sent (c : ι) (acts : List (Act τ ι V)) : List V := acts.filterMap (Act.sentTo c)

/-- The values taken from channel `c`, in the order of their take steps. -/
def received (c : ι) (acts : List (Act τ ι V)) : List V := acts.filterMap (Act.receivedFrom c)

theorem sent_snoc (c : ι) (acts : List (Act τ ι V)) (a : Act τ ι V) :
    sent c (acts ++ [a]) = sent c acts ++ (a.sentTo c).toList := by
  cases h : a.sentTo c with
  | none => simp [sent, h]
  | some v => simp [sent, h]

theorem received_snoc (c : ι) (acts : List (Act τ ι V)) (a : Act τ ι V) :
    received c (acts ++ [a]) = received c acts ++ (a.receivedFrom c).toList := by
  cases h : a.receivedFrom c with
  | none => simp [received, h]
  | some v => simp [received, h]

/-- What holds of a channel after a run. -/
structure Delivered (c : ι) (acts : List (Act τ ι V)) (ch : Channel V) : Prop where
  ok : ch.Ok
  order : sent c acts = received c acts ++ ch.contents
  closed : ∀ t, .close t c ∈ acts → ch.closed = true
  late : ∀ before after t, acts = before ++ .close t c :: after → sent c acts = sent c before

variable {acts : List (Act τ ι V)} {ch' : Channel V}

theorem Delivered.order_step {c : ι} {ch : Channel V} {a : Act τ ι V}
    (h : Delivered c acts ch) (hs : ChanStep c ch a ch') :
    ch'.Ok ∧ sent c (acts ++ [a]) = received c (acts ++ [a]) ++ ch'.contents := by
  obtain ⟨hok, horder, _, _⟩ := h
  rw [sent_snoc, received_snoc, horder]
  cases hs with
  | put t v hcount hopen =>
    have hlt : ch.count < ch.capacity := by
      have := hok.count_le
      omega
    refine ⟨hok.put hcount v, ?_⟩
    rw [Channel.contents_put hlt]
    simp [Act.sentTo, Act.receivedFrom]
  | take t hcount =>
    refine ⟨hok.take, ?_⟩
    rw [Channel.contents_take hok hcount]
    simp [Act.sentTo, Act.receivedFrom]
  | close t =>
    refine ⟨hok.close, ?_⟩
    simp [Act.sentTo, Act.receivedFrom, Channel.close, Channel.contents, Channel.slots]
  | keep _ hnot =>
    refine ⟨hok, ?_⟩
    have h1 : a.sentTo c = none := by
      cases a <;> simp_all [Act.sentTo, Act.touches]
    have h2 : a.receivedFrom c = none := by
      cases a <;> simp_all [Act.receivedFrom, Act.touches]
    simp [h1, h2]

theorem ChanStep.closed {c : ι} {ch : Channel V} {a : Act τ ι V}
    (hs : ChanStep c ch a ch') (hclosed : ch.closed = true) :
    ch'.closed = true ∧ a.sentTo c = none := by
  cases hs with
  | put t v _ hopen =>
    rw [hclosed] at hopen
    exact absurd hopen (by decide)
  | take t _ => exact ⟨hclosed, rfl⟩
  | close t => exact ⟨rfl, rfl⟩
  | keep _ hnot =>
    refine ⟨hclosed, ?_⟩
    cases a <;> simp_all [Act.sentTo, Act.touches]

theorem Delivered.step {c : ι} {ch : Channel V} {a : Act τ ι V}
    (h : Delivered c acts ch) (hs : ChanStep c ch a ch') :
    Delivered c (acts ++ [a]) ch' := by
  obtain ⟨hok, horder⟩ := h.order_step hs
  refine ⟨hok, horder, fun t ht => ?_, fun before after t he => ?_⟩
  · rcases mem_append.1 ht with ht | ht
    · exact (hs.closed (h.closed t ht)).1
    · obtain rfl := mem_singleton.1 ht
      cases hs with
      | close => rfl
      | keep _ hnot => exact absurd rfl hnot
  · rw [sent_snoc]
    -- the close is the new step, or the new step comes after it
    rcases eq_nil_or_concat after with rfl | ⟨rest, last, rfl⟩
    · obtain ⟨rfl, hl⟩ := append_inj' he rfl
      cases hl
      simp [Act.sentTo]
    · rw [concat_eq_append, ← cons_append, ← append_assoc] at he
      obtain ⟨hacts, _⟩ := append_inj' he rfl
      have hclosed := h.closed t (by rw [hacts]; simp)
      rw [(hs.closed hclosed).2, ← h.late before rest t hacts]
      simp

variable [DecidableEq τ]

/-- After every run the values sent are those received, then those in the ring. -/
theorem delivered {s₀ s : State τ ι V} (hstart : Starts s₀)
    (hrun : Runs Goes s₀ acts s) (c : ι) : Delivered c acts (s.chans c) := by
  refine hrun.invariant (fun acts s => Delivered c acts (s.chans c)) ?_ ?_
  · obtain ⟨size, capacity, values, hnew⟩ := hstart.chans c
    obtain ⟨hok, hcount, _⟩ := chanNew_ok hnew
    refine ⟨hok, ?_, fun t ht => absurd ht not_mem_nil, ?_⟩
    · rw [Channel.contents_of_empty hcount]
      rfl
    · intro before after t he
      exact absurd he.symm (by simp)
  · intro acts s a s' h hs
    exact h.step (hs.2.chan c)

/-- **A channel delivers every value exactly once and in order**, whatever the threads do: what was
    received is a prefix of what was sent, the ring stays in its bounds, a put finds a free slot of
    an open channel, an answer that the channel is at its end is true, nothing is put after a
    `close`, and a second `close` changes no channel. -/
theorem channel_delivers {s₀ s : State τ ι V} {acts : List (Act τ ι V)}
    (hstart : Starts s₀) (hrun : Runs Goes s₀ acts s) (c : ι) :
    received c acts <+: sent c acts ∧
    (s.chans c).head < (s.chans c).capacity ∧
    (s.chans c).count ≤ (s.chans c).capacity ∧
    (∀ t v s', Goes s (.put t c v) s' →
      (s.chans c).slot ∉ (s.chans c).slots ∧ (s.chans c).closed = false ∧
      s'.chans c = (s.chans c).put v) ∧
    (∀ t s', Goes s (.ended t c) s' → (s.chans c).closed = true ∧ (s.chans c).count = 0) ∧
    (∀ before after t, acts = before ++ .close t c :: after → sent c acts = sent c before) ∧
    (∀ t s', Goes s (.close t c) s' → (s.chans c).closed = true →
      s'.chans = s.chans) := by
  have hd := delivered hstart hrun c
  refine ⟨⟨_, hd.order.symm⟩, hd.ok.head_lt, hd.ok.count_le, ?_, ?_, hd.late, ?_⟩
  · intro t v s' hs
    have hc := hs.2.chan c
    generalize s'.chans c = ch at hc
    cases hc with
    | put _ _ hcount hopen =>
      have hlt : (s.chans c).count < (s.chans c).capacity := by
        have := hd.ok.count_le
        omega
      exact ⟨Channel.slot_free hlt, hopen, rfl⟩
    | keep _ hnot => exact absurd rfl hnot
  · exact fun t s' hs => hs.2.ended
  · exact fun t s' hs hclosed => hs.2.close_again hclosed

end Run

/-- Two threads and one channel of one value of eight bytes. -/
def oneSlot : State Bool Unit Nat where
  chans := fun _ => ⟨8, 1, 0, 0, false, fun _ => 0⟩
  pcs := fun _ => .outside
  waiting := 0
  holder := none
  turn := fun _ => 0
  stopped := false

theorem oneSlot_starts : Starts oneSlot :=
  ⟨fun _ => ⟨8, 1, fun _ => 0, rfl⟩, fun _ => rfl, rfl, rfl⟩

theorem oneSlot_sends : ∃ s,
    Runs Goes oneSlot [.silent, .put true () 7, .silent, .take false () 7] s := by
  have hcall : Goes oneSlot .silent (oneSlot.goto true (.send () 7 .entering)) :=
    ⟨rfl, .call true _ rfl rfl⟩
  have hput := Step.sendPut (s := oneSlot.goto true (.send () 7 .entering)) true () 7
    .entering _ rfl (by decide) (by decide) rfl
    (Or.inl ⟨fun t => by cases t <;> rfl, rfl⟩)
  have h2 := Runs.snoc (.snoc .start hcall) ⟨rfl, hput⟩
  have h3 := h2.snoc ⟨rfl, Step.call false (.recv () .entering) rfl rfl⟩
  have h4 := h3.snoc ⟨rfl, Step.recvTake false () .entering _ rfl (by decide) (by decide)
    (Or.inl ⟨fun t => by cases t <;> rfl, rfl⟩)⟩
  exact ⟨_, h4⟩

/-- One thread sends a value, and the other takes it. -/
theorem oneSlot_delivers : ∃ s,
    Runs Goes oneSlot [.silent, .put true () 7, .silent, .take false () 7] s ∧
    received () [Act.silent, .put true () 7, .silent, .take false () 7] <+:
      sent () [Act.silent, .put true () 7, .silent, .take false () 7] := by
  obtain ⟨s, hrun⟩ := oneSlot_sends
  exact ⟨s, hrun, (channel_delivers oneSlot_starts hrun ()).1⟩

end AnticSync
