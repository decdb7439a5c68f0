import Antic.CommandLine
import Mathlib.Data.List.Forall2
import Mathlib.Data.List.TakeWhile

/-! # The arguments of a command line come back

    First over units: what `quote` writes for an argument is read back as the argument,
    whatever blank follows.  Then over the bytes that the tools write, for any widening
    that works letter by letter: quoting and widening commute, since every letter that
    `quote` looks at is an ASCII letter. -/

namespace AnticCommandLine

open List Option

/-! ## The units of an argument come back -/

theorem takeArgument_slashes (quoted : Bool) (k n : Nat) (line : List UInt16) :
    takeArgument quoted k (List.replicate n 92 ++ line) = takeArgument quoted (k + n) line := by
  induction n generalizing k with
  | zero => rfl
  | succ n ih =>
    rw [replicate_succ, cons_append, takeArgument_slash, ih, Nat.add_assoc, Nat.add_comm 1 n]

variable {line : List UInt16}

theorem takeArgument_break (slashes : Nat) (h : Breaks line) :
    takeArgument false slashes line = (List.replicate slashes 92, line) := by
  cases line with
  | nil => rw [takeArgument]
  | cons c rest => exact takeArgument_blank slashes rest (h c rest rfl)

/-- Inside of quotes, what `quoteFrom` writes for the rest of an argument is read back,
    with the backslashes that wait. -/
theorem takeArgument_quoteFrom (slashes : Nat) (arg : List UInt16) (h : Breaks line) :
    takeArgument true 0 (quoteFrom slashes arg ++ 34 :: line) =
      (List.replicate slashes 92 ++ arg, line) := by
  induction arg generalizing slashes with
  | nil =>
    -- an even run before the quote that ends the argument
    have hnext : ∀ rest, line ≠ 34 :: rest := fun rest heq => absurd (h 34 rest heq) (by decide)
    have hhalf : 2 * slashes / 2 = slashes := by omega
    rw [quoteFrom, takeArgument_slashes, Nat.zero_add,
      takeArgument_even true _ line (by omega) fun _ => hnext, Bool.not_true,
      takeArgument_break 0 h, hhalf, replicate_zero]
  | cons c arg ih =>
    rw [quoteFrom]
    split
    · next h92 =>
        rw [ih, h92, replicate_succ', append_assoc]
        rfl
    split
    · next h34 =>
        -- an odd run before a quote of the argument
        have hhalf : (2 * slashes + 1) / 2 = slashes := by omega
        rw [append_assoc, takeArgument_slashes, Nat.zero_add, cons_append,
          cons_append, takeArgument_slash, takeArgument_odd true _ _ (by omega), ih,
          hhalf, h34]
        rfl
    · next h92 h34 =>
        rw [append_assoc, takeArgument_slashes, Nat.zero_add, cons_append,
          takeArgument_letter true _ _ h92 h34 rfl, ih]
        rfl

theorem not_special {c : UInt16} (h : isSpecial c = false) : c ≠ 34 ∧ isBlank c = false := by
  simp only [isSpecial, Bool.or_eq_false_iff, decide_eq_false_iff_not] at h
  refine ⟨h.2, ?_⟩
  rw [isBlank, Bool.or_eq_false_iff, decide_eq_false_iff_not, decide_eq_false_iff_not]
  exact ⟨h.1.1.1.1, h.1.1.1.2⟩

/-- Without a blank or a quote an argument is read as it stands. -/
theorem takeArgument_plain (slashes : Nat) (arg : List UInt16)
    (harg : ∀ c ∈ arg, isSpecial c = false) (h : Breaks line) :
    takeArgument false slashes (arg ++ line) = (List.replicate slashes 92 ++ arg, line) := by
  induction arg generalizing slashes with
  | nil => rw [nil_append, takeArgument_break slashes h, append_nil]
  | cons c arg ih =>
    obtain ⟨h34, hblank⟩ := not_special (harg c mem_cons_self)
    have ih := fun slashes => ih slashes fun d hd => harg d (mem_cons_of_mem _ hd)
    rw [cons_append]
    by_cases h92 : c = 92
    · rw [h92, takeArgument_slash, ih, replicate_succ', append_assoc]
      rfl
    · rw [takeArgument_letter false _ _ h92 h34 (by rw [hblank]; rfl), ih]
      rfl

theorem takeArgument_quote (arg : List UInt16) (h : Breaks line) :
    takeArgument false 0 (quote arg ++ line) = (arg, line) := by
  unfold quote
  split
  · next hplain =>
      rw [Bool.and_eq_true, Bool.not_eq_true', Bool.not_eq_true', List.any_eq_false] at hplain
      exact takeArgument_plain 0 arg (fun c hc => Bool.eq_false_iff.2 (hplain.2 c hc)) h
  · rw [append_assoc, cons_append, takeArgument_even false 0 _ rfl (fun h => nomatch h),
      Bool.not_false, singleton_append, takeArgument_quoteFrom 0 arg h]
    rfl

/-! ## The line comes back -/

theorem programName_plain (quoted : Bool) (name : List UInt16)
    (hname : ∀ c ∈ name, c ≠ 34 ∧ (quoted = false → isBlank c = false)) :
    programName quoted (name ++ line) =
      (name ++ (programName quoted line).1, (programName quoted line).2) := by
  induction name with
  | nil => rfl
  | cons c name ih =>
    obtain ⟨h34, hblank⟩ := hname c mem_cons_self
    have hstop : (!quoted && isBlank c) = false := by
      cases quoted with
      | true => rfl
      | false => rw [hblank rfl]; rfl
    rw [cons_append, programName, hstop, if_neg (by decide), if_neg h34,
      ih fun d hd => hname d (mem_cons_of_mem _ hd)]
    rfl

theorem programName_break (h : Breaks line) : programName false line = ([], line) := by
  cases line with
  | nil => rw [programName]
  | cons c rest =>
    rw [programName, h c rest rfl]
    rfl

/-- Backslashes double in front of a quote and at the end alone. -/
theorem quoteFrom_plain (slashes : Nat) (name : List UInt16) (h34 : 34 ∉ name)
    (hlast : name.getLast? ≠ some 92) (hempty : name = [] → slashes = 0) :
    quoteFrom slashes name = List.replicate slashes 92 ++ name := by
  induction name generalizing slashes with
  | nil => rw [hempty rfl, quoteFrom]; rfl
  | cons c name ih =>
    rw [mem_cons, not_or] at h34
    have hrest : name ≠ [] → name.getLast? ≠ some 92 := by
      intro hne
      rw [getLast?_cons_of_ne_nil hne] at hlast
      exact hlast
    have hlast' : name.getLast? ≠ some 92 := by
      cases name with
      | nil => exact fun h => nomatch h
      | cons d name => exact hrest (cons_ne_nil _ _)
    rw [quoteFrom]
    split
    · next h92 =>
        rw [ih (slashes + 1) h34.2 hlast', h92, replicate_succ', append_assoc]
        · rfl
        · rintro rfl
          exact absurd (h92 ▸ rfl) hlast
    · rw [if_neg (Ne.symm h34.1), ih 0 h34.2 hlast' fun _ => rfl]
      rfl

theorem programName_quote {name : List UInt16} (h34 : 34 ∉ name)
    (hlast : name.getLast? ≠ some 92) (h : Breaks line) :
    programName false (quote name ++ line) = (name, line) := by
  unfold quote
  split
  · next hplain =>
      rw [Bool.and_eq_true, Bool.not_eq_true', Bool.not_eq_true', List.any_eq_false] at hplain
      rw [programName_plain false name fun c hc => ?_, programName_break h, append_nil]
      obtain ⟨hmark, hblank⟩ := not_special (Bool.eq_false_iff.2 (hplain.2 c hc))
      exact ⟨hmark, fun _ => hblank⟩
  · rw [quoteFrom_plain 0 name h34 hlast fun _ => rfl, replicate_zero, nil_append,
      append_assoc, cons_append, programName, if_neg (by decide), if_pos rfl,
      Bool.not_false, programName_plain true name fun c hc => ⟨fun h => h34 (h ▸ hc), fun h => nomatch h⟩,
      singleton_append, programName, if_neg (by decide), if_pos rfl, Bool.not_true,
      programName_break h, append_nil]

theorem quote_head {α : Type} [DecidableEq α] [∀ n, OfNat α n] (arg : List α) :
    ∃ c rest, quote arg = c :: rest ∧ (c = 34 ∨ isSpecial c = false) := by
  unfold quote
  split
  · next hplain =>
      cases arg with
      | nil => cases hplain
      | cons c arg =>
        rw [Bool.and_eq_true, Bool.not_eq_true', Bool.not_eq_true', List.any_eq_false] at hplain
        exact ⟨c, arg, rfl, .inr (Bool.eq_false_iff.2 (hplain.2 c mem_cons_self))⟩
  · exact ⟨34, _, rfl, .inl rfl⟩

/-- The line after the program name. -/
def argumentLine (args : List (List UInt16)) : List UInt16 := args.flatMap fun arg => 32 :: quote arg

theorem argumentLine_breaks (args : List (List UInt16)) : Breaks (argumentLine args) := by
  cases args with
  | nil => exact .nil
  | cons arg args => exact .blank (by decide)

theorem commandLine_eq (name : List UInt16) (args : List (List UInt16)) :
    commandLine (name :: args) = quote name ++ argumentLine args := by
  induction args generalizing name with
  | nil => exact (append_nil _).symm
  | cons arg args ih =>
    show quote name ++ 32 :: commandLine (arg :: args) = _
    rw [ih]
    rfl

theorem splitRest_argumentLine (fuel : Nat) (args : List (List UInt16))
    (hfuel : args.length ≤ fuel) :
    splitRest fuel (argumentLine args) = some (args.flatMap (· ++ [0]), args.length) := by
  induction args generalizing fuel with
  | nil => exact splitRest_nil fuel rfl
  | cons arg args ih =>
    cases fuel with
    | zero => cases hfuel
    | succ fuel =>
      obtain ⟨c, rest, hquote, hc⟩ := quote_head arg
      have hblank : isBlank c = false := by
        rcases hc with rfl | hc
        · decide
        · exact (not_special hc).2
      have hdrop : (argumentLine (arg :: args)).dropWhile isBlank =
          c :: (rest ++ argumentLine args) := by
        show (32 :: quote arg ++ argumentLine args).dropWhile isBlank = _
        rw [hquote, cons_append, dropWhile_cons_of_pos (by decide),
          cons_append, dropWhile_cons_of_neg (by rw [hblank]; decide)]
      rw [splitRest_cons fuel hdrop, ← cons_append, ← hquote,
        takeArgument_quote arg (argumentLine_breaks args),
        ih fuel (Nat.le_of_succ_le_succ hfuel), flatMap_cons, length_cons]
      exact congrArg some (Prod.ext (append_cons ..) rfl)

theorem argumentLine_length (args : List (List UInt16)) :
    args.length ≤ (argumentLine args).length := by
  induction args with
  | nil => exact Nat.le_refl 0
  | cons arg args ih =>
    rw [argumentLine, flatMap_cons, length_append, length_cons, length_cons]
    exact Nat.le_trans (Nat.succ_le_succ ih) (by rw [argumentLine]; omega)

section NoNul

variable {α : Type} [DecidableEq α] [∀ n, OfNat α n]

theorem mem_quoteFrom {slashes : Nat} {arg : List α} {c : α} (h : c ∈ quoteFrom slashes arg) :
    c ∈ arg ∨ c = 92 ∨ c = 34 := by
  induction arg generalizing slashes with
  | nil => exact .inr (.inl (eq_of_mem_replicate h))
  | cons d arg ih =>
    rw [quoteFrom] at h
    split at h
    · exact (ih h).imp (mem_cons_of_mem _) id
    split at h
    · rcases mem_append.1 h with h | h
      · exact .inr (.inl (eq_of_mem_replicate h))
      rcases mem_cons.1 h with h | h
      · exact .inr (.inl h)
      rcases mem_cons.1 h with h | h
      · exact .inr (.inr h)
      · exact (ih h).imp (mem_cons_of_mem _) id
    · rcases mem_append.1 h with h | h
      · exact .inr (.inl (eq_of_mem_replicate h))
      rcases mem_cons.1 h with h | h
      · exact .inl (h ▸ mem_cons_self)
      · exact (ih h).imp (mem_cons_of_mem _) id

theorem mem_quote {arg : List α} {c : α} (h : c ∈ quote arg) : c ∈ arg ∨ c = 92 ∨ c = 34 := by
  unfold quote at h
  split at h
  · exact .inl h
  rcases mem_append.1 h with h | h
  · rcases mem_cons.1 h with h | h
    · exact .inr (.inr h)
    · exact mem_quoteFrom h
  · exact .inr (.inr (mem_singleton.1 h))

end NoNul

/-- The units of the arguments come back from their line, each with a 0 behind it. -/
theorem splitCommandLine_commandLine (name : List UInt16) (args : List (List UInt16))
    (hzero : ∀ arg ∈ name :: args, 0 ∉ arg) (h34 : 34 ∉ name)
    (hlast : name.getLast? ≠ some 92) :
    splitCommandLine (commandLine (name :: args)) =
      some ((name :: args).flatMap (· ++ [0]), (name :: args).length) := by
  have hline : ∀ c ∈ commandLine (name :: args), c ≠ 0 := by
    rintro c hc rfl
    have quoted : ∀ arg ∈ name :: args, (0 : UInt16) ∉ quote arg := by
      intro arg harg hmem
      rcases mem_quote hmem with h | h | h
      · exact hzero arg harg h
      · exact absurd h (by decide)
      · exact absurd h (by decide)
    rw [commandLine_eq] at hc
    rcases mem_append.1 hc with hc | hc
    · exact quoted name mem_cons_self hc
    · obtain ⟨arg, harg, hc⟩ := mem_flatMap.1 hc
      rcases mem_cons.1 hc with hc | hc
      · exact absurd hc (by decide)
      · exact quoted arg (mem_cons_of_mem _ harg) hc
  rw [splitCommandLine, takeWhile_eq_self_iff.2 fun c hc => decide_eq_true (hline c hc),
    commandLine_eq, programName_quote h34 hlast (argumentLine_breaks args)]
  dsimp only
  rw [splitRest_argumentLine _ args (argumentLine_length args)]
  exact congrArg some (Prod.ext (append_cons ..) rfl)

/-! ## The widened line -/

/-- The conversion of UTF-8 to UTF-16 by the system, which fails on what is no UTF-8.  An
    ASCII byte is a letter of its own, and no other letter gives an ASCII unit. -/
structure Widening (widen : List UInt8 → Option (List UInt16)) : Prop where
  nil : widen [] = some []
  empty : ∀ {text}, widen text = some [] → text = []
  ascii : ∀ xs {ys c}, 0 ∉ xs ++ c :: ys → c < 128 → widen (xs ++ c :: ys) =
      (widen xs).bind fun a => (widen ys).map fun b => a ++ c.toUInt16 :: b
  wide : ∀ {text units}, widen text = some units → (∀ c ∈ text, 128 ≤ c) → ∀ u ∈ units, 128 ≤ u

/-- A text has an ASCII byte, with others in front of the first one, or none. -/
theorem first_ascii (text : List UInt8) : (∀ c ∈ text, 128 ≤ c) ∨
    ∃ xs c ys, text = xs ++ c :: ys ∧ (∀ x ∈ xs, 128 ≤ x) ∧ c < 128 := by
  induction text with
  | nil => exact .inl fun _ h => nomatch h
  | cons c text ih =>
    by_cases hc : c < 128
    · exact .inr ⟨[], c, text, rfl, fun _ h => (nomatch h), hc⟩
    have hc : 128 ≤ c := UInt8.not_lt.1 hc
    rcases ih with h | ⟨xs, d, ys, rfl, hxs, hd⟩
    · refine .inl fun d hd => ?_
      rcases mem_cons.1 hd with rfl | hd
      · exact hc
      · exact h d hd
    · refine .inr ⟨c :: xs, d, ys, rfl, fun x hx => ?_, hd⟩
      rcases mem_cons.1 hx with rfl | hx
      · exact hc
      · exact hxs x hx

theorem toUInt16_inj {c d : UInt8} : c.toUInt16 = d.toUInt16 ↔ c = d := by
  refine ⟨fun h => UInt8.toNat_inj.1 ?_, fun h => h ▸ rfl⟩
  rw [← UInt8.toNat_toUInt16, ← UInt8.toNat_toUInt16, h]

theorem toUInt16_lt {c : UInt8} (h : c < 128) : c.toUInt16 < 128 := by
  exact UInt8.lt_iff_toNat_lt.1 h

section Widen

variable {widen : List UInt8 → Option (List UInt16)}

variable {text ys arg : List UInt8} {units : List UInt16}

/-- Following the widening of a text from one ASCII byte to the next. -/
theorem Widening.induct (hw : Widening widen) {P : List UInt8 → List UInt16 → Prop}
    (wide : ∀ text units, (∀ c ∈ text, 128 ≤ c) → (∀ u ∈ units, 128 ≤ u) →
      (units = [] ↔ text = []) → widen text = some units → P text units)
    (ascii : ∀ xs a c ys b, (∀ x ∈ xs, 128 ≤ x) → (∀ u ∈ a, 128 ≤ u) → (a = [] ↔ xs = []) →
      widen xs = some a → c < 128 → 0 ∉ xs ++ c :: ys → widen ys = some b → P ys b →
      P (xs ++ c :: ys) (a ++ c.toUInt16 :: b)) (hzero : 0 ∉ text)
    (h : widen text = some units) : P text units := by
  have empty : ∀ {text units}, widen text = some units → (units = [] ↔ text = []) := by
    intro text units h
    refine ⟨fun hu => hw.empty (hu ▸ h), fun ht => ?_⟩
    rw [ht, hw.nil] at h
    exact (some.inj h).symm
  induction hn : text.length using Nat.strong_induction_on generalizing text units with
  | _ n ih =>
    rcases first_ascii text with hwide | ⟨xs, c, ys, rfl, hxs, hc⟩
    · exact wide text units hwide (hw.wide h hwide) (empty h) h
    · rw [hw.ascii _ hzero hc] at h
      obtain ⟨a, ha, h⟩ := bind_eq_some_iff.1 h
      obtain ⟨b, hb, rfl⟩ := map_eq_some_iff.1 h
      refine ascii xs a c ys b hxs (hw.wide ha hxs) (empty ha) ha hc hzero hb ?_
      refine ih ys.length ?_ (fun hmem => hzero ?_) hb rfl
      · rw [← hn, length_append, length_cons]
        omega
      · exact mem_append_right _ (mem_cons_of_mem _ hmem)

theorem Widening.mem (hw : Widening widen) (hzero : 0 ∉ text) (h : widen text = some units)
    {d : UInt8} (hd : d < 128) : d.toUInt16 ∈ units ↔ d ∈ text := by
  have noWide : ∀ {text : List UInt8}, (∀ c ∈ text, 128 ≤ c) → d ∉ text := fun ht hmem =>
    UInt8.not_le.2 hd (ht d hmem)
  have noWide' : ∀ {units : List UInt16}, (∀ u ∈ units, 128 ≤ u) → d.toUInt16 ∉ units :=
    fun hu hmem => UInt16.not_le.2 (toUInt16_lt hd) (hu _ hmem)
  refine hw.induct (P := fun text units => d.toUInt16 ∈ units ↔ d ∈ text)
    (fun text units ht hu _ _ => ?_) (fun xs a c ys b hxs ha _ _ _ _ _ ih => ?_) hzero h
  · exact ⟨fun hmem => absurd hmem (noWide' hu), fun hmem => absurd hmem (noWide ht)⟩
  · rw [mem_append, mem_append, mem_cons, mem_cons, toUInt16_inj, ih]
    refine or_congr ?_ Iff.rfl
    exact ⟨fun hmem => absurd hmem (noWide' ha), fun hmem => absurd hmem (noWide hxs)⟩

theorem Widening.getLast (hw : Widening widen) (hzero : 0 ∉ text)
    (h : widen text = some units) (hlast : text.getLast? ≠ some 92) :
    units.getLast? ≠ some 92 := by
  revert hlast
  refine hw.induct (P := fun text units => text.getLast? ≠ some 92 → units.getLast? ≠ some 92)
    (fun text units _ hu _ _ _ hlast => ?_)
    (fun xs a c ys b _ _ _ _ _ _ hb ih hlast => ?_) hzero h
  · exact absurd (hu 92 (mem_of_getLast? hlast)) (by decide)
  · have hempty : b = [] → ys = [] := fun hb' => hw.empty (hb' ▸ hb)
    rw [getLast?_append, getLast?_cons] at hlast ⊢
    cases hys : ys.getLast? with
    | none =>
      rw [getLast?_eq_none_iff] at hys
      rw [hys, hw.nil] at hb
      rw [← some.inj hb]
      rw [hys] at hlast
      intro heq
      exact hlast (congrArg some (toUInt16_inj.1 (some.inj heq)))
    | some d =>
      rw [hys] at hlast
      have ih := ih (by rw [hys]; exact hlast)
      cases hb' : b.getLast? with
      | none =>
        rw [getLast?_eq_none_iff] at hb'
        rw [hempty hb'] at hys
        cases hys
      | some u =>
        rw [hb'] at ih
        exact ih

/-- Text that starts with an ASCII byte is widened apart from what stands before. -/
theorem Widening.append (hw : Widening widen) {xs : List UInt8} {a b : List UInt16}
    {c : UInt8} (hc : c < 128) (hzero : 0 ∉ xs ++ c :: ys) (ha : widen xs = some a)
    (hb : widen (c :: ys) = some b) : widen (xs ++ c :: ys) = some (a ++ b) := by
  have hys := hw.ascii [] (fun h => hzero (mem_append_right _ h)) hc
  rw [nil_append, hw.nil, hb, bind_some] at hys
  obtain ⟨u, hu, rfl⟩ := map_eq_some_iff.1 hys.symm
  rw [hw.ascii _ hzero hc, ha, hu]
  rfl

theorem Widening.cons (hw : Widening widen) {b : List UInt16} {c : UInt8} (hc : c < 128)
    (hzero : 0 ∉ c :: ys) (hb : widen ys = some b) :
    widen (c :: ys) = some (c.toUInt16 :: b) := by
  have h := hw.ascii [] hzero hc
  rw [nil_append, hw.nil, hb] at h
  exact h

theorem Widening.slashes (hw : Widening widen) (n : Nat) {b : List UInt16} (hzero : 0 ∉ ys)
    (hb : widen ys = some b) :
    widen (List.replicate n 92 ++ ys) = some (List.replicate n 92 ++ b) := by
  induction n with
  | zero => exact hb
  | succ n ih =>
    refine hw.cons (by decide) (fun hmem => ?_) ih
    rcases mem_append.1 (mem_cons.1 hmem |>.resolve_left (by decide)) with h | h
    · exact absurd (eq_of_mem_replicate h) (by decide)
    · exact hzero h

theorem zero_quoteFrom (slashes : Nat) (h : 0 ∉ arg) : 0 ∉ quoteFrom slashes arg := by
  intro hmem
  rcases mem_quoteFrom hmem with hmem | hmem | hmem
  · exact h hmem
  · exact absurd hmem (by decide)
  · exact absurd hmem (by decide)

/-- Letters that `quote` does not look at are written as they stand. -/
theorem quoteFrom_letters {α : Type} [DecidableEq α] [∀ n, OfNat α n] (slashes : Nat)
    {xs : List α} (ys : List α) (hxs : ∀ x ∈ xs, x ≠ 92 ∧ x ≠ 34) (hne : xs ≠ []) :
    quoteFrom slashes (xs ++ ys) = List.replicate slashes 92 ++ (xs ++ quoteFrom 0 ys) := by
  induction xs generalizing slashes with
  | nil => exact absurd rfl hne
  | cons x xs ih =>
    obtain ⟨h92, h34⟩ := hxs x mem_cons_self
    rw [cons_append, quoteFrom, if_neg h92, if_neg h34]
    cases xs with
    | nil => rfl
    | cons y xs =>
      rw [ih 0 (fun z hz => hxs z (mem_cons_of_mem _ hz)) (cons_ne_nil _ _)]
      rfl

/-- What the loop writes for an ASCII letter and the rest starts with an ASCII letter. -/
theorem quoteFrom_ascii (slashes : Nat) {c : UInt8} (hc : c < 128) (ys : List UInt8) :
    ∃ d zs, quoteFrom slashes (c :: ys) = d :: zs ∧ d < 128 := by
  have run : ∀ (n : Nat) (d : UInt8) (zs : List UInt8), d < 128 →
      ∃ e ws, List.replicate n 92 ++ d :: zs = e :: ws ∧ e < 128 := by
    intro n d zs hd
    cases n with
    | zero => exact ⟨d, zs, rfl, hd⟩
    | succ n => exact ⟨92, _, rfl, by decide⟩
  induction ys generalizing slashes c with
  | nil =>
    rw [quoteFrom]
    split
    · exact ⟨92, _, rfl, by decide⟩
    split
    · exact run _ _ _ (by decide)
    · exact run _ _ _ hc
  | cons e ys ih =>
    rw [quoteFrom]
    split
    · by_cases he : e < 128
      · exact ih (slashes + 1) he
      · have h92 : e ≠ 92 := by rintro rfl; exact he (by decide)
        have h34 : e ≠ 34 := by rintro rfl; exact he (by decide)
        rw [quoteFrom, if_neg h92, if_neg h34]
        exact ⟨92, _, rfl, by decide⟩
    split
    · exact run _ _ _ (by decide)
    · exact run _ _ _ hc

/-- Quoting and widening commute, whatever backslashes stand before. -/
theorem Widening.quoteFrom (hw : Widening widen) (hzero : 0 ∉ arg) (h : widen arg = some units) :
    ∀ slashes, widen (quoteFrom slashes arg) = some (quoteFrom slashes units) := by
  have letter : ∀ {c : UInt8}, 128 ≤ c → c ≠ 92 ∧ c ≠ 34 := fun hc =>
    ⟨by rintro rfl; exact absurd hc (by decide), by rintro rfl; exact absurd hc (by decide)⟩
  have letter' : ∀ {u : UInt16}, 128 ≤ u → u ≠ 92 ∧ u ≠ 34 := fun hu =>
    ⟨by rintro rfl; exact absurd hu (by decide), by rintro rfl; exact absurd hu (by decide)⟩
  refine hw.induct (P := fun arg units => 0 ∉ arg →
      ∀ slashes, widen (AnticCommandLine.quoteFrom slashes arg) =
        some (AnticCommandLine.quoteFrom slashes units))
    (fun text units ht hu hempty h hzero slashes => ?_)
    (fun xs a c ys b hxs ha hempty hwide hc hzero hb ih _ slashes => ?_) hzero h hzero
  · by_cases hnil : text = []
    · rw [hnil, hempty.2 hnil]
      have hrun := hw.slashes (2 * slashes) not_mem_nil hw.nil
      rw [append_nil, append_nil] at hrun
      exact hrun
    · have hunits : units ≠ [] := fun h => hnil (hempty.1 h)
      rw [← append_nil text, ← append_nil units,
        quoteFrom_letters slashes [] (fun c hc => letter (ht c hc)) hnil,
        quoteFrom_letters slashes [] (fun u hu' => letter' (hu u hu')) hunits]
      refine hw.slashes slashes ?_ ?_
      · simpa [AnticCommandLine.quoteFrom] using hzero
      · simpa [AnticCommandLine.quoteFrom] using h
  · have hysZero : 0 ∉ ys := fun h => hzero (mem_append_right _ (mem_cons_of_mem _ h))
    have ih := ih hysZero
    have hc0 : c ≠ 0 := fun h => hzero (mem_append_right _ (h ▸ mem_cons_self))
    -- the part from the ASCII letter on
    have rest : ∀ slashes, widen (AnticCommandLine.quoteFrom slashes (c :: ys)) =
        some (AnticCommandLine.quoteFrom slashes (c.toUInt16 :: b)) := by
      intro slashes
      have hquote := zero_quoteFrom 0 hysZero
      rw [AnticCommandLine.quoteFrom, AnticCommandLine.quoteFrom]
      by_cases h92 : c = 92
      · rw [if_pos h92, if_pos (h92 ▸ rfl)]
        exact ih (slashes + 1)
      have hu92 : c.toUInt16 ≠ 92 := fun h => h92 ((toUInt16_inj (d := 92)).1 h)
      rw [if_neg h92, if_neg hu92]
      by_cases h34 : c = 34
      · rw [if_pos h34, if_pos (h34 ▸ rfl)]
        have hmark : 0 ∉ 34 :: AnticCommandLine.quoteFrom 0 ys := fun h =>
          hquote ((mem_cons.1 h).resolve_left (by decide))
        refine hw.slashes (2 * slashes) (fun h => hmark ?_) ?_
        · exact (mem_cons.1 h).resolve_left (by decide)
        · refine hw.cons (c := 92) (by decide) (fun h => hmark ?_)
            (hw.cons (c := 34) (by decide) hmark (ih 0))
          exact (mem_cons.1 h).resolve_left (by decide)
      · have hu34 : c.toUInt16 ≠ 34 := fun h => h34 ((toUInt16_inj (d := 34)).1 h)
        rw [if_neg h34, if_neg hu34]
        have hmem : 0 ∉ c :: AnticCommandLine.quoteFrom 0 ys := fun h =>
          hquote ((mem_cons.1 h).resolve_left (Ne.symm hc0))
        exact hw.slashes slashes hmem (hw.cons hc hmem (ih 0))
    by_cases hnil : xs = []
    · rw [hnil, hempty.2 hnil]
      exact rest slashes
    · have haNil : a ≠ [] := fun h => hnil (hempty.1 h)
      have hxsZero : 0 ∉ xs := fun h => hzero (mem_append_left _ h)
      rw [quoteFrom_letters slashes _ (fun x hx => letter (hxs x hx)) hnil,
        quoteFrom_letters slashes _ (fun u hu => letter' (ha u hu)) haNil]
      obtain ⟨d, zs, hdzs, hd⟩ := quoteFrom_ascii 0 hc ys
      have hzs : 0 ∉ xs ++ AnticCommandLine.quoteFrom 0 (c :: ys) := by
        refine fun h => (mem_append.1 h).elim hxsZero (zero_quoteFrom 0 ?_)
        exact fun h => hzero (mem_append_right _ h)
      refine hw.slashes slashes hzs ?_
      rw [hdzs] at hzs ⊢
      exact hw.append hd hzs hwide (hdzs ▸ rest 0)

theorem Widening.isSpecial (hw : Widening widen) (hzero : 0 ∉ arg)
    (h : widen arg = some units) : units.any isSpecial = arg.any isSpecial := by
  rw [Bool.eq_iff_iff, List.any_eq_true, List.any_eq_true]
  have special : ∀ c : UInt8, c < 128 → c.toUInt16 ∈ units → c ∈ arg := fun c hc =>
    (hw.mem hzero h hc).1
  constructor
  · rintro ⟨u, hu, hspecial⟩
    simp only [AnticCommandLine.isSpecial, Bool.or_eq_true, decide_eq_true_eq] at hspecial
    rcases hspecial with (((rfl | rfl) | rfl) | rfl) | rfl
    · exact ⟨32, special 32 (by decide) hu, by decide⟩
    · exact ⟨9, special 9 (by decide) hu, by decide⟩
    · exact ⟨10, special 10 (by decide) hu, by decide⟩
    · exact ⟨11, special 11 (by decide) hu, by decide⟩
    · exact ⟨34, special 34 (by decide) hu, by decide⟩
  · rintro ⟨c, hc, hspecial⟩
    simp only [AnticCommandLine.isSpecial, Bool.or_eq_true, decide_eq_true_eq] at hspecial
    rcases hspecial with (((rfl | rfl) | rfl) | rfl) | rfl
    all_goals exact ⟨_, (hw.mem hzero h (by decide)).2 hc, by decide⟩

theorem zero_quote (h : 0 ∉ arg) : 0 ∉ quote arg := by
  intro hmem
  rcases mem_quote hmem with hmem | hmem | hmem
  · exact h hmem
  · exact absurd hmem (by decide)
  · exact absurd hmem (by decide)

theorem Widening.quote (hw : Widening widen) (hzero : 0 ∉ arg) (h : widen arg = some units) :
    widen (quote arg) = some (quote units) := by
  have hempty : units.isEmpty = arg.isEmpty := by
    cases arg with
    | nil =>
      rw [hw.nil] at h
      rw [← some.inj h]
      rfl
    | cons c arg =>
      cases units with
      | nil => exact absurd (hw.empty h) (cons_ne_nil _ _)
      | cons u units => rfl
  unfold AnticCommandLine.quote
  rw [hempty, hw.isSpecial hzero h]
  split
  · exact h
  · -- the closing quote starts a part of its own, and so does the opening one
    have hclose : widen [34] = some [34] := hw.cons (by decide) (by decide) hw.nil
    have hinner : 0 ∉ AnticCommandLine.quoteFrom 0 arg ++ [34] := by
      refine fun h => (mem_append.1 h).elim (zero_quoteFrom 0 hzero) fun h => ?_
      exact absurd (mem_singleton.1 h) (by decide)
    refine hw.cons (c := 34) (by decide) (fun h => hinner ?_)
      (hw.append (by decide) hinner (hw.quoteFrom hzero h 0) hclose)
    exact (mem_cons.1 h).resolve_left (by decide)

theorem widened_mem {args : List (List UInt8)} {units : List (List UInt16)} {u : List UInt16}
    (h : List.Forall₂ (fun arg u => widen arg = some u) args units) (hu : u ∈ units) :
    ∃ arg ∈ args, widen arg = some u := by
  induction h with
  | nil => cases hu
  | @cons arg v _ _ hv _ ih =>
    rcases mem_cons.1 hu with rfl | hu
    · exact ⟨arg, mem_cons_self, hv⟩
    · obtain ⟨a, ha, hau⟩ := ih hu
      exact ⟨a, mem_cons_of_mem _ ha, hau⟩

theorem Widening.commandLine (hw : Widening widen) {args : List (List UInt8)}
    {units : List (List UInt16)} (hzero : ∀ arg ∈ args, 0 ∉ arg)
    (h : List.Forall₂ (fun arg u => widen arg = some u) args units) :
    widen (commandLine args) = some (commandLine units) ∧ 0 ∉ commandLine args := by
  induction h with
  | nil => exact ⟨hw.nil, not_mem_nil⟩
  | @cons arg u args units harg hargs ih =>
    have hquote := hw.quote (hzero arg mem_cons_self) harg
    have hquoteZero := zero_quote (hzero arg mem_cons_self)
    obtain ⟨ih, ihZero⟩ := ih fun a ha => hzero a (mem_cons_of_mem _ ha)
    cases hargs with
    | nil => exact ⟨hquote, hquoteZero⟩
    | @cons arg' u' args units harg' hargs =>
      have hrest : 0 ∉ 32 :: AnticCommandLine.commandLine (arg' :: args) := fun h =>
        ihZero ((mem_cons.1 h).resolve_left (by decide))
      have hline : 0 ∉ AnticCommandLine.quote arg ++
          32 :: AnticCommandLine.commandLine (arg' :: args) := fun h =>
        (mem_append.1 h).elim hquoteZero hrest
      exact ⟨hw.append (by decide) hline hquote (hw.cons (by decide) hrest ih), hline⟩

end Widen

/-- Arguments arrive as they were given, and the splitter ends inside of its room on every line. -/
theorem arguments_arrive :
    (∀ widen, Widening widen → ∀ (program : List UInt8) (args : List (List UInt8))
      (units : List (List UInt16)), (∀ arg ∈ program :: args, 0 ∉ arg) → 34 ∉ program →
      program.getLast? ≠ some 92 →
      List.Forall₂ (fun arg u => widen arg = some u) (program :: args) units →
      ∃ line, widen (commandLine (program :: args)) = some line ∧
        splitCommandLine line = some (units.flatMap (· ++ [0]), units.length) ∧
        ∀ u ∈ units, 0 ∉ u) ∧
    ∀ line : List UInt16, ∃ out count, splitCommandLine line = some (out, count) ∧
      out.length ≤ 2 * line.length + 2 := by
  constructor
  · intro widen hw program args units hzero h34 hlast hunits
    have hunitsZero : ∀ u ∈ units, 0 ∉ u := by
      intro u hu hmem
      obtain ⟨arg, harg, hargu⟩ := widened_mem hunits hu
      exact hzero arg harg ((hw.mem (hzero arg harg) hargu (d := 0) (by decide)).1 hmem)
    refine ⟨_, (hw.commandLine hzero hunits).1, ?_, hunitsZero⟩
    cases hunits with
    | @cons _ name _ rest hname hrest =>
      have hprogram := hzero program mem_cons_self
      refine splitCommandLine_commandLine name rest hunitsZero (fun hmem => h34 ?_)
        (hw.getLast hprogram hname hlast)
      exact (hw.mem hprogram hname (d := 34) (by decide)).1 hmem
  · intro line
    obtain ⟨out, count, hsplit, hlength⟩ := splitCommandLine_length line
    exact ⟨out, count, hsplit, by omega⟩

/-- The widening of ASCII text. -/
def widenAscii (text : List UInt8) : Option (List UInt16) :=
  if text.all (· < 128) then some (text.map UInt8.toUInt16) else none

theorem widenAscii_widening : Widening widenAscii where
  nil := rfl
  empty h := by
    rw [widenAscii] at h
    split at h
    · exact map_eq_nil_iff.1 (some.inj h)
    · cases h
  ascii _ _ _ _ hc := by
    simp only [widenAscii, all_append, all_cons, hc, decide_true, Bool.true_and, Bool.and_eq_true]
    split
    · next h => rw [if_pos h.1, if_pos h.2, map_append, map_cons]; rfl
    · next h =>
        split
        · next hxs => rw [if_neg fun hys => h ⟨hxs, hys⟩]; rfl
        · rfl
  wide h hwide := by
    rw [widenAscii] at h
    split at h
    · next hall =>
        rw [← some.inj h]
        intro u hu
        obtain ⟨c, hc, _⟩ := List.mem_map.1 hu
        have hlt := of_decide_eq_true (List.all_eq_true.1 hall c hc)
        exact absurd hlt (UInt8.not_lt.2 (hwide c hc))
    · cases h

/-- The program `a b` gets `c\"`, the empty argument and `d\`. -/
theorem quoted_arguments_arrive : ∃ line,
    widenAscii (commandLine [[97, 32, 98], [99, 92, 34], [], [100, 92]]) = some line ∧
      splitCommandLine line = some ([97, 32, 98, 0, 99, 92, 34, 0, 0, 100, 92, 0], 4) := by
  have hunits : List.Forall₂ (fun arg u => widenAscii arg = some u)
      [[97, 32, 98], [99, 92, 34], [], [100, 92]] [[97, 32, 98], [99, 92, 34], [], [100, 92]] :=
    .cons rfl (.cons rfl (.cons rfl (.cons rfl .nil)))
  obtain ⟨line, hline, hsplit, _⟩ := arguments_arrive.1 widenAscii widenAscii_widening
    [97, 32, 98] [[99, 92, 34], [], [100, 92]] _ (by decide) (by decide) (by decide) hunits
  exact ⟨line, hline, hsplit⟩

end AnticCommandLine
