import Antic.Contracts
import Antic.Toml

/-! # What the readers of the TOML subset take and add — `toml.c`

    Every reader leaves the table of the last header alone and goes past bytes of the
    text, so its loops end (`tomlRead_ends`).  A pair is added under the path that its
    reader was given (`Adds`). -/

namespace AnticToml

open AnticDeps Contracts List

/-- The read went past `n` bytes or more, below the same header. -/
structure Past (n : Nat) (r r' : Reader) : Prop where
  table : r'.table = r.table
  tableStart : r'.tableStart = r.tableStart
  rest : r'.rest.length + n ≤ r.rest.length

/-- The pairs that were added stand under a path, and the table of paths is as before. -/
structure Adds (path : Text) (d d' : Doc) : Prop where
  pairs : ∃ more, d'.pairs = d.pairs ++ more ∧ ∀ p ∈ more, path <+: p.key
  names : d'.names = d.names
  namesCount : d'.namesCount = d.namesCount
  indexed : d'.indexed = d.indexed

/-- A reader refuses the text or gives such a value; it never runs out of turns. -/
abbrev Reads {α : Type} (x : Except Stop α) (Q : α → Prop) : Prop := Gives x Q (· = .failed)

section Past

variable {n m : Nat} {r r' r'' : Reader}

theorem Past.refl (r : Reader) : Past 0 r r := ⟨rfl, rfl, Nat.le_refl _⟩

theorem Past.trans (h : Past n r r') (h' : Past m r' r'') : Past (n + m) r r'' := by
  refine ⟨h'.table.trans h.table, h'.tableStart.trans h.tableStart, ?_⟩
  have := h.rest
  have := h'.rest
  omega

theorem Past.weaken (h : Past n r r') (hm : m ≤ n) : Past m r r' := by
  refine ⟨h.table, h.tableStart, ?_⟩
  have := h.rest
  omega

theorem Past.of_suffix {rest : Text} (h : rest <:+ r.rest) : Past 0 r { r with rest } :=
  ⟨rfl, rfl, h.length_le⟩

theorem skipSpaces_past (r : Reader) : Past 0 r (skipSpaces r) :=
  Past.of_suffix (dropWhile_suffix _)

theorem blankFrom_length (comment : Bool) (line : Nat) (t : Text) :
    (blankFrom comment line t).2.length ≤ t.length := by
  induction t generalizing comment line with
  | nil => cases comment <;> exact Nat.le_refl _
  | cons c rest ih =>
    rw [blankFrom]
    split
    · exact Nat.le_succ_of_le (ih false (line + 1))
    · split
      · exact Nat.le_succ_of_le (ih true line)
      · split
        · exact Nat.le_succ_of_le (ih false line)
        · split
          · exact Nat.le_succ_of_le (ih true line)
          · exact Nat.le_refl _

theorem skipBlank_past (r : Reader) : Past 0 r (skipBlank r) :=
  ⟨rfl, rfl, blankFrom_length false r.line r.rest⟩

theorem next_past {c : UInt8} (h : r.peek = some c) : Past 1 r r.next := by
  refine ⟨rfl, rfl, ?_⟩
  rw [Reader.peek] at h
  cases hr : r.rest with
  | nil =>
    rw [hr] at h
    cases h
  | cons d rest => simp [Reader.next, hr]

theorem next_past_zero (r : Reader) : Past 0 r r.next := Past.of_suffix (tail_suffix _)

theorem dropWhile_past {p : UInt8 → Bool} (h : (r.rest.takeWhile p).length ≠ 0) :
    Past 1 r { r with rest := r.rest.dropWhile p } := by
  refine ⟨rfl, rfl, ?_⟩
  have hlen := congrArg List.length (takeWhile_append_dropWhile (p := p) (l := r.rest))
  rw [length_append] at hlen
  change (r.rest.dropWhile p).length + 1 ≤ r.rest.length
  omega

end Past

theorem expect_reads (r : Reader) (c : UInt8) : Reads (expect r c) (Past 1 r) := by
  refine Gives.ite ?_ ?_
  · intro h
    exact Gives.pure (next_past (by simpa using h))
  · intro
    exact Gives.throw rfl

theorem atQuote_peek {r : Reader} (h : r.atQuote = true) : ∃ c, r.peek = some c := by
  rw [Reader.atQuote, Bool.or_eq_true, beq_iff_eq, beq_iff_eq] at h
  rcases h with h | h
  · exact ⟨_, h⟩
  · exact ⟨_, h⟩

theorem readQuoted_reads {r : Reader} (h : r.atQuote = true) :
    Reads (readQuoted r) fun x => Past 1 r x.2 := by
  obtain ⟨c, hc⟩ := atQuote_peek h
  refine Gives.ite ?_ ?_
  · intro
    exact Gives.throw rfl
  · intro
    refine Gives.pure ?_
    have hskip : Past 0 r.next { r with
        rest := r.next.rest.dropWhile (fun b => some b != r.peek && b != newline) } :=
      ⟨rfl, rfl, (dropWhile_suffix _).length_le⟩
    exact ((next_past hc).trans hskip).trans (next_past_zero _)

theorem readKey_reads (r : Reader) : Reads (readKey r) fun x => Past 1 r x.2 := by
  refine Gives.bind (R := fun x => Past 1 r x.2) ?_ ?_
  · refine Gives.ite readQuoted_reads ?_
    intro
    refine Gives.ite ?_ ?_
    · intro
      exact Gives.throw rfl
    · intro h
      exact Gives.pure (dropWhile_past (by simpa using h))
  · rintro ⟨key, r'⟩ h
    refine Gives.ite ?_ ?_
    · intro
      exact Gives.throw rfl
    · intro
      exact Gives.pure h

theorem readValue_reads (r : Reader) (stops : Text) :
    Reads (readValue r stops) fun x => Past 1 r x.2 := by
  have hspaces : Past 0 r { skipSpaces r with quoted := (skipSpaces r).atQuote } :=
    ⟨rfl, rfl, (skipSpaces_past r).rest⟩
  refine Gives.ite ?_ ?_
  · intro h
    refine Gives.weaken (readQuoted_reads h) ?_
    intro x hx
    exact (hspaces.trans hx).weaken (by omega)
  · intro
    refine Gives.ite ?_ ?_
    · intro
      exact Gives.throw rfl
    · intro h
      refine Gives.pure ((hspaces.trans (dropWhile_past ?_)).weaken (by omega))
      intro hnil
      refine h ?_
      rw [length_eq_zero_iff] at hnil
      simp only [hnil]
      rfl

-- ── Arrays and inline tables ────

section Adds

variable {path path' : Text} {d d' d'' : Doc}

theorem Adds.refl (path : Text) (d : Doc) : Adds path d d := by
  refine ⟨⟨[], (append_nil _).symm, ?_⟩, rfl, rfl, rfl⟩
  intro p hp
  cases hp

theorem Adds.trans (h : Adds path d d') (h' : Adds path d' d'') : Adds path d d'' := by
  obtain ⟨more, hpairs, hmore⟩ := h.pairs
  obtain ⟨more', hpairs', hmore'⟩ := h'.pairs
  refine ⟨⟨more ++ more', by rw [hpairs', hpairs, append_assoc], ?_⟩,
    h'.names.trans h.names, h'.namesCount.trans h.namesCount, h'.indexed.trans h.indexed⟩
  intro p hp
  rcases mem_append.mp hp with hp | hp
  · exact hmore p hp
  · exact hmore' p hp

theorem Adds.above (h : Adds path d d') (hpath : path' <+: path) : Adds path' d d' := by
  obtain ⟨more, hpairs, hmore⟩ := h.pairs
  exact ⟨⟨more, hpairs, fun p hp => hpath.trans (hmore p hp)⟩, h.names, h.namesCount, h.indexed⟩

theorem add_adds (d : Doc) (r : Reader) (key value : Text) : Adds key d (d.add r key value) := by
  refine ⟨⟨_, rfl, ?_⟩, rfl, rfl, rfl⟩
  intro p hp
  cases mem_singleton.mp hp
  exact prefix_rfl

theorem addEmpty_adds (path : Text) (d : Doc) (r : Reader) (at_ : Text) (shape : Shape) :
    Adds path d (d.addEmpty r at_ shape) :=
  ⟨(Adds.refl path d).pairs, rfl, rfl, rfl⟩

theorem ite_addEmpty_adds (c : Prop) [Decidable c] (path : Text) (d : Doc) (r : Reader)
    (at_ : Text) (shape : Shape) :
    Adds path d (if c then d.addEmpty r at_ shape else d) := by
  split
  · exact addEmpty_adds path d r at_ shape
  · exact Adds.refl path d

end Adds

/-- What the reader of a value leaves: it went past `n` bytes, and added pairs under a path. -/
def Leaves (n : Nat) (path : Text) (r : Reader) (d : Doc) (x : Reader × Doc) : Prop :=
  Past n r x.1 ∧ Adds path d x.2

theorem readValue_leaves (r : Reader) (stops key : Text) (d : Doc) : Reads (do
      let (value, r) ← readValue r stops
      return (r, d.add r key value)) (Leaves 1 key r d) := by
  refine Gives.bind (readValue_reads r stops) ?_
  rintro ⟨value, r'⟩ h
  exact Gives.pure ⟨h, add_adds d r' key value⟩

/-- What comes after an element or a pair in brackets: a comma, or their end. -/
theorem next_leaves {path : Text} {r : Reader} {d : Doc} {x : Reader × Doc} {close : UInt8}
    {loop : Reader → Doc → Except Stop (Reader × Doc)} {fuel : Nat} (h : Leaves 1 path r d x)
    (hfuel : r.rest.length < fuel + 1)
    (hloop : ∀ r d, r.rest.length < fuel → Reads (loop r d) (Leaves 0 path r d)) :
    Reads (if (skipBlank x.1).peek == some comma then loop (skipBlank x.1).next x.2
      else if (skipBlank x.1).peek == some close then loop (skipBlank x.1) x.2
      else .error .failed) (Leaves 0 path r d) := by
  have hpast := h.1.trans (skipBlank_past x.1)
  have hgoes : ∀ r', Past 1 r r' → Reads (loop r' x.2) (Leaves 0 path r d) := by
    intro r' hr'
    have hlt := hr'.rest
    refine Gives.weaken (hloop r' x.2 (by omega)) ?_
    rintro y ⟨hpast', hadds⟩
    exact ⟨(hr'.trans hpast').weaken (by omega), h.2.trans hadds⟩
  refine Gives.ite ?_ ?_
  · intro
    exact hgoes _ (hpast.trans (next_past_zero _))
  · intro
    refine Gives.ite ?_ ?_
    · intro
      exact hgoes _ hpast
    · intro
      exact Gives.throw rfl

theorem prefix_numbered (path : Text) (n : Nat) : path <+: numbered path n := prefix_append ..

/-- **The loops of `read_array` and `read_inline_table`** end, and add pairs under their path. -/
theorem loops_read (fuel : Nat) : (∀ path index r d, r.rest.length < fuel →
      Reads (arrayLoop fuel path index r d) (Leaves 0 path r d)) ∧
    (∀ path start r d, r.rest.length < fuel →
      Reads (inlineLoop fuel path start r d) (Leaves 0 path r d)) := by
  induction fuel with
  | zero => exact ⟨fun _ _ _ _ h => absurd h (Nat.not_lt_zero _),
      fun _ _ _ _ h => absurd h (Nat.not_lt_zero _)⟩
  | succ fuel ih =>
    obtain ⟨iharray, ihinline⟩ := ih
    -- a value in brackets or braces, below the path of the loop
    have hbelow : ∀ {path key : Text} {r : Reader} {d : Doc} {c : UInt8}
        {x : Except Stop (Reader × Doc)}, path <+: key → r.peek = some c →
        Reads x (Leaves 0 key r.next d) → Reads x (Leaves 1 path r d) := by
      intro path key r d c x hkey hc hx
      refine Gives.weaken hx ?_
      rintro y ⟨hpast, hadds⟩
      exact ⟨(next_past hc).trans hpast, hadds.above hkey⟩
    have hshort : ∀ {r : Reader} {c : UInt8}, r.peek = some c → r.rest.length < fuel + 1 →
        r.next.rest.length < fuel := by
      intro r c hc hr
      have := (next_past hc).rest
      omega
    have hplain : ∀ {path key : Text} {r : Reader} {d : Doc} {stops : Text}, path <+: key →
        Reads (do
          let (value, r) ← readValue r stops
          return (r, d.add r key value)) (Leaves 1 path r d) := by
      intro path key r d stops hkey
      refine Gives.weaken (readValue_leaves r stops key d) ?_
      rintro y ⟨hpast, hadds⟩
      exact ⟨hpast, hadds.above hkey⟩
    have hfrom : ∀ {path : Text} {r r' : Reader} {d : Doc}
        {x : Except Stop (Reader × Doc)}, Past 0 r r' → Reads x (Leaves 0 path r' d) →
        Reads x (Leaves 0 path r d) := by
      intro path r r' d x hr hx
      refine Gives.weaken hx ?_
      rintro y ⟨hpast, hadds⟩
      exact ⟨hr.trans hpast, hadds⟩
    constructor
    · intro path index r d hr
      have hskip := skipBlank_past r
      have hr' : (skipBlank r).rest.length < fuel + 1 := by
        have := hskip.rest
        omega
      refine hfrom hskip (Gives.ite ?_ ?_)
      · intro
        exact Gives.pure ⟨next_past_zero _, ite_addEmpty_adds _ path d _ path .array⟩
      · intro
        refine Gives.ite (fun _ => Gives.throw rfl) fun _ => ?_
        refine Gives.ite (fun _ => Gives.throw rfl) fun _ => ?_
        refine Gives.bind (R := Leaves 1 path (skipBlank r) d) ?_ ?_
        · refine Gives.ite ?_ ?_
          · intro hc
            rw [beq_iff_eq] at hc
            exact hbelow (prefix_numbered path index) hc (ihinline _ _ _ _ (hshort hc hr'))
          · intro
            exact hplain (prefix_numbered path index)
        · rintro ⟨r', d'⟩ h
          exact next_leaves h hr' fun r d hr => iharray path (index + 1) r d hr
    · intro path start r d hr
      have hskip := skipBlank_past r
      have hr' : (skipBlank r).rest.length < fuel + 1 := by
        have := hskip.rest
        omega
      refine hfrom hskip (Gives.ite ?_ ?_)
      · intro
        exact Gives.pure ⟨next_past_zero _, ite_addEmpty_adds _ path d _ path .table⟩
      · intro
        refine Gives.ite (fun _ => Gives.throw rfl) fun _ => ?_
        refine Gives.bind (readKey_reads _) ?_
        rintro ⟨name, r₁⟩ h₁
        refine Gives.bind (expect_reads _ _) ?_
        intro r₂ h₂
        have hpast₂ : Past 0 (skipBlank r) r₂ :=
          ((h₁.trans (skipSpaces_past r₁)).trans h₂).weaken (Nat.zero_le _)
        have hkey : path <+: path ++ dot :: cstr name := prefix_append ..
        refine Gives.ite (fun _ => Gives.throw rfl) fun _ => ?_
        have hspaces := hpast₂.trans (skipSpaces_past r₂)
        have hr₃ : (skipSpaces r₂).rest.length < fuel + 1 := by
          have := hspaces.rest
          omega
        refine hfrom hspaces (Gives.bind (R := Leaves 1 path (skipSpaces r₂) d) ?_ ?_)
        · refine Gives.ite ?_ ?_
          · intro hc
            rw [beq_iff_eq] at hc
            exact hbelow hkey hc (iharray _ _ _ _ (hshort hc hr₃))
          · intro
            refine Gives.ite ?_ ?_
            · intro hc
              rw [beq_iff_eq] at hc
              exact hbelow hkey hc (ihinline _ _ _ _ (hshort hc hr₃))
            · intro
              exact hplain hkey
        · rintro ⟨r', d'⟩ h
          exact next_leaves h hr₃ fun r d hr => ihinline path start r d hr

/-- **`read_pair`** ends, and adds pairs under the path of its key. -/
theorem readPair_reads (r : Reader) (d : Doc) :
    Reads (readPair r d) fun x => Past 1 r x.1 ∧ ∃ key, Adds (pairPath r.table key) d x.2 := by
  refine Gives.bind (readKey_reads r) ?_
  rintro ⟨key, r₁⟩ h₁
  refine Gives.bind (expect_reads _ _) ?_
  intro r₂ h₂
  have hpast₂ : Past 1 r (skipSpaces r₂) :=
    (((h₁.trans (skipSpaces_past r₁)).trans h₂).trans (skipSpaces_past r₂)).weaken (by omega)
  have htable : r₂.table = r.table := (((h₁.trans (skipSpaces_past r₁)).trans h₂)).table
  refine Gives.ite (fun _ => Gives.throw rfl) fun _ => ?_
  rw [htable]
  have hends : ∀ {x : Except Stop (Reader × Doc)} {r' : Reader}, Past 1 r r' →
      Reads x (Leaves 0 (pairPath r.table key) r' d) →
      Reads x fun x => Past 1 r x.1 ∧ ∃ key, Adds (pairPath r.table key) d x.2 := by
    intro x r' hr' hx
    refine Gives.weaken hx ?_
    rintro y ⟨hpast, hadds⟩
    exact ⟨(hr'.trans hpast).weaken (by omega), key, hadds⟩
  have hbracket := hpast₂.trans (next_past_zero _)
  have hfuel : (skipSpaces r₂).next.rest.length < (skipSpaces r₂).rest.length + 1 :=
    Nat.lt_succ_of_le (next_past_zero _).rest
  refine Gives.ite ?_ ?_
  · intro
    exact hends hbracket ((loops_read _).1 _ _ _ _ hfuel)
  · intro
    refine Gives.ite ?_ ?_
    · intro
      exact hends hbracket ((loops_read _).2 _ _ _ _ hfuel)
    · intro
      refine hends hpast₂ (Gives.weaken (readValue_leaves _ _ _ d) ?_)
      rintro y ⟨hpast, hadds⟩
      exact ⟨hpast.weaken (Nat.zero_le _), hadds⟩

end AnticToml
