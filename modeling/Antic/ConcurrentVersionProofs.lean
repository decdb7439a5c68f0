import Antic.ConcurrentPartProofs

/-! # The versions of a map

    A change stamps its entry with a version above every version its part gave
    before.  So a version that `get_versioned` gave names one state of one
    entry, and `set_if_version` writes where the entry is in that state. -/

namespace AnticShared

open AnticCollection SharedCode Histories Interleaving

variable {ι K V : Type} [BEq K]

/-- What a call of one key does to its cell: it stamps a value, it removes the
    entry, or it leaves the cell. -/
theorem KeyOp.step_cases (op : KeyOp V) (n : Nat) (c : Cell V) :
    (∃ v, (op.step n c).1 = some (v, n) ∧ (op.step n c).2.2 = true) ∨
    (op = .remove ∧ (op.step n c).1 = none ∧ (op.step n c).2.2 = false) ∨
    (op ≠ .remove ∧ (op.step n c).1 = c ∧ (op.step n c).2.2 = false) := by
  cases op with
  | get => exact .inr (.inr ⟨nofun, rfl, rfl⟩)
  | contains => exact .inr (.inr ⟨nofun, rfl, rfl⟩)
  | set v => exact .inl ⟨v, rfl, rfl⟩
  | add v =>
    cases c with
    | none => exact .inl ⟨v, rfl, rfl⟩
    | some c => exact .inr (.inr ⟨nofun, rfl, rfl⟩)
  | remove => exact .inr (.inl ⟨rfl, rfl, rfl⟩)
  | update change =>
    cases c with
    | none => exact .inr (.inr ⟨nofun, rfl, rfl⟩)
    | some c => exact .inl ⟨change c.1, rfl, rfl⟩
  | getVersioned => exact .inr (.inr ⟨nofun, rfl, rfl⟩)
  | setIfVersion v version =>
    cases c with
    | none => exact .inr (.inr ⟨nofun, rfl, rfl⟩)
    | some c =>
      by_cases hsame : (c.2 : Int) = version
      · refine .inl ⟨v, ?_, ?_⟩
        · rw [KeyOp.step, if_pos hsame]
        · rw [KeyOp.step, if_pos hsame]
      · refine .inr (.inr ⟨nofun, ?_, ?_⟩)
        · rw [KeyOp.step, if_neg hsame]
        · rw [KeyOp.step, if_neg hsame]

variable {h : List (Note ι K V)} {b b' : Book K (Cell V)}

theorem version_le (hrun : Runs (cells V).Step (cells V).empty h b) :
    ∀ k v n, b.cells k = some (v, n) → n ≤ b.clock := by
  induction hrun with
  | start => exact fun _ _ _ hk => nomatch hk
  | @snoc h₀ b₁ b₂ e _ hs ih =>
    intro k v n hk
    have hle := hs.clock_le
    cases hs with
    | call t x o m hfresh =>
      have hk : (if x == k then ((o.step m (b₁.cells x)).1 : Cell V) else b₁.cells k) =
        some (v, n) := hk
      split at hk
      · rcases o.step_cases m (b₁.cells x) with ⟨w, hc, hused⟩ | ⟨-, hc, -⟩ | ⟨-, hc, -⟩
        · rw [hc] at hk
          cases hk
          show n ≤ if (o.step n (b₁.cells x)).2.2 then n else b₁.clock
          rw [if_pos hused]
        · rw [hc] at hk
          cases hk
        · rw [hc] at hk
          exact Nat.le_trans (ih x v n hk) hle
      · exact Nat.le_trans (ih k v n hk) hle

/-- The call changed the entry of `k`, or took it out. -/
def Touches (k : K) (e : Note ι K V) : Prop :=
  (e.key == k) = true ∧ ((∃ n, e.stamp = some n) ∨ ∃ v, e.op = .remove ∧ e.answer = .value (some v))

variable {e : Note ι K V}

theorem not_touches {k : K} (hstamp : e.stamp = none)
    (hop : e.op = .remove → e.answer = .value none) : ¬ Touches k e := by
  rintro ⟨-, ⟨n, hn⟩ | ⟨v, hremove, hv⟩⟩
  · rw [hstamp] at hn
    cases hn
  · rw [hop hremove] at hv
    cases hv

/-- A call leaves the cell of `k`, or it touches the entry and the cell is empty
    or of a version above the clock. -/
theorem touch_cases {b b' : Book K (Cell V)} (hs : (cells V).Step b e b')
    (hcongr : Respects b.cells) (k : K) :
    (¬ Touches k e ∧ b'.cells k = b.cells k) ∨
    (Touches k e ∧ (b'.cells k = none ∨ ∃ w m, b'.cells k = some (w, m) ∧ b.clock < m)) := by
  cases hs with
  | call t x o n hfresh =>
    have hcell : ((cells V).book b x o n).cells k =
      if x == k then ((o.step n (b.cells x)).1 : Cell V) else b.cells k := rfl
    by_cases hx : (x == k) = true
    · rw [if_pos hx] at hcell
      rw [hcell]
      rcases o.step_cases n (b.cells x) with ⟨w, hc, hused⟩ | ⟨rfl, hc, -⟩ | ⟨hne, hc, hused⟩
      · refine .inr ⟨⟨hx, .inl ⟨n, if_pos hused⟩⟩, .inr ⟨w, n, hc, hfresh⟩⟩
      · cases hold : b.cells x with
        | none =>
          refine .inl ⟨not_touches rfl fun _ => rfl, ?_⟩
          rw [← hcongr x k hx, hold]
          rfl
        | some c => exact .inr ⟨⟨hx, .inr ⟨c.1, rfl, rfl⟩⟩, .inl rfl⟩
      · refine .inl ⟨not_touches ?_ fun h => absurd h hne, ?_⟩
        · show (if (o.step n (b.cells x)).2.2 then some n else none) = none
          rw [hused]
          rfl
        · rw [hc, hcongr x k hx]
    · -- the call is of another key
      rw [if_neg hx] at hcell
      exact .inl ⟨fun h => hx h.1, hcell⟩

/-- What becomes of a cell of the version `n`: it stays while no call touches it,
    and after a call that did, it is empty or of a later version. -/
structure Since (k : K) (v : V) (n clock : Nat) (h : List (Note ι K V)) (c : Cell V) :
    Prop where
  kept : (∀ e ∈ h, ¬ Touches k e) → c = some (v, n)
  touched : ∀ e ∈ h, Touches k e → c = none ∨ ∃ w m, c = some (w, m) ∧ clock < m

theorem since [EquivBEq K] {k : K} {v : V} {n : Nat} (hrun : Runs (cells V).Step b h b')
    (hcongr : Respects b.cells) (hk : b.cells k = some (v, n)) :
    Since k v n b.clock h (b'.cells k) := by
  induction hrun with
  | start => exact ⟨fun _ => hk, fun _ he => absurd he List.not_mem_nil⟩
  | @snoc h₀ b₁ b₂ e hrun hs ih =>
    have hle : b.clock ≤ b₁.clock := (ticks hrun).clock_le
    rcases touch_cases hs (respects hrun hcongr) k with ⟨hno, hsame⟩ | ⟨htouch, hnew⟩
    · rw [hsame]
      refine ⟨fun h => ih.kept fun x hx => h x (List.mem_append_left _ hx), ?_⟩
      intro x hx hxk
      rcases List.mem_append.1 hx with hx | hx
      · exact ih.touched x hx hxk
      · rw [List.mem_singleton.1 hx] at hxk
        exact absurd hxk hno
    · refine ⟨fun h => ?_, fun x _ _ => ?_⟩
      · exact absurd htouch (h e (List.mem_append_right _ (List.mem_singleton_self e)))
      · rcases hnew with hnone | ⟨w, m, hm, hlt⟩
        · exact .inl hnone
        · exact .inr ⟨w, m, hm, Nat.lt_of_le_of_lt hle hlt⟩

theorem setIfVersion_ok {b b' : Book K (Cell V)} {x : V} {n : Nat}
    (hs : (cells V).Step b e b') (hop : e.op = .setIfVersion x n) :
    e.answer = .outcome (.ok ()) ↔ ∃ w, b.cells e.key = some (w, n) := by
  cases hs with
  | call t k o m hfresh =>
    cases (show o = .setIfVersion x n from hop)
    show ((KeyOp.setIfVersion x (n : Int)).step m (b.cells k)).2.1 = _ ↔
      ∃ w, b.cells k = some (w, n)
    cases b.cells k with
    | none => exact ⟨nofun, nofun⟩
    | some c =>
      obtain ⟨w, now⟩ := c
      by_cases hsame : (now : Int) = n
      · rw [KeyOp.step, if_pos hsame, Int.ofNat_inj.1 hsame]
        exact ⟨fun _ => ⟨w, rfl⟩, fun _ => rfl⟩
      · rw [KeyOp.step, if_neg hsame]
        exact ⟨nofun, fun ⟨_, h⟩ => absurd (congrArg Nat.cast (Prod.mk.inj
          (Option.some.inj h)).2) hsame⟩

theorem getVersioned_some [EquivBEq K] {b b' : Book K (Cell V)} {v : V} {n : Nat}
    (hs : (cells V).Step b e b') (hop : e.op = .getVersioned)
    (hanswer : e.answer = .versioned (some (v, n))) :
    b.cells e.key = some (v, n) ∧ b'.cells e.key = some (v, n) ∧ b'.clock = b.clock := by
  cases hs with
  | call t k o m hfresh =>
    cases (show o = .getVersioned from hop)
    have hk : b.cells k = some (v, n) := KeyAnswer.versioned.inj hanswer
    refine ⟨hk, ?_, rfl⟩
    show (if k == k then b.cells k else b.cells k) = _
    rw [if_pos BEq.rfl]
    exact hk

/-- **Optimistic writes**: after a `get_versioned` of a key that gave the version
    `n`, a `set_if_version` with `n` succeeds where the entry is there and no call
    touched it in between, and only there. -/
theorem set_if_version_iff [EquivBEq K] {before mid : List (Note ι K V)}
    {got tried : Note ι K V} {v x : V} {n : Nat}
    (hrun : Runs (cells V).Step (cells V).empty (before ++ [got] ++ mid ++ [tried]) b')
    (hgot : got.op = .getVersioned) (hanswer : got.answer = .versioned (some (v, n)))
    (htried : tried.op = .setIfVersion x n) (hkey : (got.key == tried.key) = true) :
    tried.answer = .outcome (.ok ()) ↔
      (∃ b, Runs (cells V).Step (cells V).empty (before ++ [got] ++ mid) b ∧
        (b.cells tried.key).isSome) ∧
      ∀ e ∈ mid, ¬ Touches tried.key e := by
  obtain ⟨b₂, hrun₂, hs₂⟩ := hrun.last
  obtain ⟨b₁, hrun₁, hmid⟩ := hrun₂.cut rfl
  obtain ⟨b₀, hrun₀, hs₀⟩ := hrun₁.last
  obtain ⟨hk₀, hk₁, hclock⟩ := getVersioned_some hs₀ hgot hanswer
  have hcongr : Respects b₁.cells := respects hrun₁ fun _ _ _ => rfl
  have hle : n ≤ b₁.clock := version_le hrun₁ _ _ _ hk₁
  rw [hcongr _ _ hkey] at hk₁
  have hsince := since hmid hcongr hk₁
  rw [setIfVersion_ok hs₂ htried]
  constructor
  · rintro ⟨w, hw⟩
    refine ⟨⟨b₂, hrun₂, hw ▸ rfl⟩, fun e he htouch => ?_⟩
    rcases hsince.touched e he htouch with hnone | ⟨w', m, hm, hlt⟩
    · rw [hnone] at hw
      cases hw
    · rw [hm] at hw
      cases hw
      exact absurd hle (Nat.not_le_of_lt hlt)
  · rintro ⟨-, hno⟩
    exact ⟨v, hsince.kept hno⟩

end AnticShared
