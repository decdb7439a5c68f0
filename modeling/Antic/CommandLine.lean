import Mathlib.Data.List.Basic

/-! # Arguments of a process on Windows — `platform.c`, `utf.c`

    Windows hands a process one line.  `quote` of the tools writes an argument into it
    and `anti_rt_split_command_line` of the runtime takes the line apart.  The tools
    write bytes of UTF-8, the runtime reads units of UTF-16. -/

namespace AnticCommandLine

open List

/-! ## Writing the line -/

section Quote

/-! The letters are bytes in the program; the proofs follow the same steps over units. -/

variable {α : Type} [DecidableEq α] [∀ n, OfNat α n]

/-- What `strpbrk` looks for. -/
def isSpecial (c : α) : Bool := c = 32 || c = 9 || c = 10 || c = 11 || c = 34

/-- The loop of `quote`, after a run of `slashes` backslashes. -/
def quoteFrom (slashes : Nat) : List α → List α
  | [] => List.replicate (2 * slashes) 92
  | c :: rest =>
    if c = 92 then quoteFrom (slashes + 1) rest
    else if c = 34 then List.replicate (2 * slashes) 92 ++ 92 :: 34 :: quoteFrom 0 rest
    else List.replicate slashes 92 ++ c :: quoteFrom 0 rest

/-- `quote`. -/
def quote (arg : List α) : List α :=
  if !arg.isEmpty && !arg.any isSpecial then arg else 34 :: quoteFrom 0 arg ++ [34]

/-- The line of `start`: the arguments quoted, a space between two. -/
def commandLine : List (List α) → List α
  | [] => []
  | [arg] => quote arg
  | arg :: args => quote arg ++ 32 :: commandLine args

end Quote

/-! ## Splitting the line -/

/-- `is_blank`. -/
def isBlank (c : UInt16) : Bool := c = 32 || c = 9

/-- The program name, and the rest of the line from the blank after it. -/
def programName : (quoted : Bool) → List UInt16 → List UInt16 × List UInt16
  | _, [] => ([], [])
  | quoted, c :: rest =>
    if !quoted && isBlank c then ([], c :: rest)
    else if c = 34 then programName (!quoted) rest
    else
      let (name, left) := programName quoted rest
      (c :: name, left)

/-- One argument after a run of `slashes` backslashes, and the rest of the line. -/
def takeArgument : (quoted : Bool) → (slashes : Nat) → List UInt16 → List UInt16 × List UInt16
  | _, slashes, [] => (List.replicate slashes 92, [])
  | quoted, slashes, c :: rest =>
    if c = 92 then takeArgument quoted (slashes + 1) rest
    else if c = 34 then
      if slashes % 2 = 1 then
        let (arg, left) := takeArgument quoted 0 rest
        (List.replicate (slashes / 2) 92 ++ 34 :: arg, left)
      else
        match rest with
        | d :: rest' =>
          if quoted && d = 34 then
            -- two quotes inside of quotes are one
            let (arg, left) := takeArgument quoted 0 rest'
            (List.replicate (slashes / 2) 92 ++ 34 :: arg, left)
          else
            let (arg, left) := takeArgument (!quoted) 0 (d :: rest')
            (List.replicate (slashes / 2) 92 ++ arg, left)
        | [] => (List.replicate (slashes / 2) 92, [])
    else if !quoted && isBlank c then (List.replicate slashes 92, c :: rest)
    else
      let (arg, left) := takeArgument quoted 0 rest
      (List.replicate slashes 92 ++ c :: arg, left)

/-- The loop over the arguments: the units written and the count. -/
def splitRest : (fuel : Nat) → List UInt16 → Option (List UInt16 × Nat)
  | fuel, line =>
    match line.dropWhile isBlank with
    | [] => some ([], 0)
    | c :: rest =>
      match fuel with
      | 0 => none
      | fuel + 1 =>
        let (arg, left) := takeArgument false 0 (c :: rest)
        (splitRest fuel left).map fun (out, count) => (arg ++ 0 :: out, count + 1)

/-- `anti_rt_split_command_line`: the units in `out` and the count.  The line ends at its
    first 0. -/
def splitCommandLine (line : List UInt16) : Option (List UInt16 × Nat) :=
  let line := line.takeWhile (· ≠ 0)
  let (name, left) := programName false line
  (splitRest left.length left).map fun (out, count) => (name ++ 0 :: out, count + 1)

section Take

variable (quoted : Bool) (slashes : Nat) (rest : List UInt16)

theorem takeArgument_cons (c : UInt16) : takeArgument quoted slashes (c :: rest) =
      if c = 92 then takeArgument quoted (slashes + 1) rest
      else if c = 34 then
        if slashes % 2 = 1 then
          (List.replicate (slashes / 2) 92 ++ 34 :: (takeArgument quoted 0 rest).1,
            (takeArgument quoted 0 rest).2)
        else
          match rest with
          | d :: rest' =>
            if quoted && d = 34 then
              (List.replicate (slashes / 2) 92 ++ 34 :: (takeArgument quoted 0 rest').1,
                (takeArgument quoted 0 rest').2)
            else
              (List.replicate (slashes / 2) 92 ++ (takeArgument (!quoted) 0 (d :: rest')).1,
                (takeArgument (!quoted) 0 (d :: rest')).2)
          | [] => (List.replicate (slashes / 2) 92, [])
      else if !quoted && isBlank c then (List.replicate slashes 92, c :: rest)
      else
        (List.replicate slashes 92 ++ c :: (takeArgument quoted 0 rest).1,
          (takeArgument quoted 0 rest).2) := by
  rw [takeArgument.eq_def]

theorem takeArgument_slash :
    takeArgument quoted slashes (92 :: rest) = takeArgument quoted (slashes + 1) rest := by
  rw [takeArgument_cons]
  exact if_pos rfl

/-- A quote after an odd run of backslashes is one of the argument. -/
theorem takeArgument_odd (h : slashes % 2 = 1) : takeArgument quoted slashes (34 :: rest) =
      (List.replicate (slashes / 2) 92 ++ 34 :: (takeArgument quoted 0 rest).1,
        (takeArgument quoted 0 rest).2) := by
  rw [takeArgument_cons, if_neg (by decide), if_pos rfl, if_pos h]

theorem takeArgument_even (h : slashes % 2 = 0)
    (hnext : quoted = true → ∀ rest', rest ≠ 34 :: rest') :
    takeArgument quoted slashes (34 :: rest) =
      (List.replicate (slashes / 2) 92 ++ (takeArgument (!quoted) 0 rest).1,
        (takeArgument (!quoted) 0 rest).2) := by
  rw [takeArgument_cons, if_neg (by decide), if_pos rfl, if_neg (by omega)]
  cases rest with
  | nil => exact Prod.ext (append_nil _).symm rfl
  | cons d rest =>
    dsimp only
    rw [if_neg]
    rw [Bool.and_eq_true, decide_eq_true_eq]
    rintro ⟨hquoted, rfl⟩
    exact hnext hquoted rest rfl

theorem takeArgument_letter {c : UInt16} (h92 : c ≠ 92) (h34 : c ≠ 34)
    (hblank : (!quoted && isBlank c) = false) :
    takeArgument quoted slashes (c :: rest) =
      (List.replicate slashes 92 ++ c :: (takeArgument quoted 0 rest).1,
        (takeArgument quoted 0 rest).2) := by
  rw [takeArgument_cons, if_neg h92, if_neg h34, hblank, if_neg (by decide)]

theorem takeArgument_blank {c : UInt16} (hblank : isBlank c = true) :
    takeArgument false slashes (c :: rest) = (List.replicate slashes 92, c :: rest) := by
  have h92 : c ≠ 92 := by rintro rfl; revert hblank; decide
  have h34 : c ≠ 34 := by rintro rfl; revert hblank; decide
  rw [takeArgument_cons, if_neg h92, if_neg h34, hblank]
  rfl

end Take

/-! ## The splitter ends inside its room -/

theorem takeArgument_length (quoted : Bool) (slashes : Nat) (line : List UInt16) :
    (takeArgument quoted slashes line).1.length + (takeArgument quoted slashes line).2.length
      ≤ slashes + line.length := by
  fun_induction takeArgument quoted slashes line <;>
    simp only [length_append, length_replicate, length_cons]
      at * <;> (try simp_all only []) <;> omega

theorem programName_length (quoted : Bool) (line : List UInt16) :
    (programName quoted line).1.length + (programName quoted line).2.length ≤ line.length := by
  fun_induction programName quoted line <;>
    simp_all only [length_cons, length_nil] <;> omega

/-- The line ends, or goes on with a blank. -/
def Breaks (line : List UInt16) : Prop := ∀ c rest, line = c :: rest → isBlank c = true

theorem Breaks.nil : Breaks [] := fun _ _ h => nomatch h

theorem Breaks.blank {c : UInt16} {rest : List UInt16} (h : isBlank c = true) :
    Breaks (c :: rest) := by
  rintro d _ heq
  rw [← (cons.inj heq).1]
  exact h

theorem takeArgument_breaks (quoted : Bool) (slashes : Nat) (line : List UInt16) :
    Breaks (takeArgument quoted slashes line).2 := by
  fun_induction takeArgument quoted slashes line with
  | case1 => exact .nil
  | case2 _ _ _ ih => exact ih
  | case3 _ _ _ _ _ _ heq _ ih | case4 _ _ _ _ _ _ _ _ heq _ ih | case5 _ _ _ _ _ _ _ _ heq _ ih
  | case8 _ _ _ _ _ _ _ _ _ heq ih =>
    rw [heq] at ih
    exact ih
  | case6 => exact .nil
  | case7 _ _ _ _ _ _ hblank => exact .blank (Bool.and_eq_true_iff.1 hblank).2

theorem programName_breaks (quoted : Bool) (line : List UInt16) :
    Breaks (programName quoted line).2 := by
  fun_induction programName quoted line with
  | case1 => exact .nil
  | case2 _ _ _ hblank => exact .blank (Bool.and_eq_true_iff.1 hblank).2
  | case3 _ _ _ ih => exact ih
  | case4 _ _ _ _ _ _ _ heq ih =>
    rw [heq] at ih
    exact ih

theorem splitRest_nil {line : List UInt16} (fuel : Nat) (h : line.dropWhile isBlank = []) :
    splitRest fuel line = some ([], 0) := by
  rw [splitRest.eq_def]
  dsimp only
  rw [h]

theorem splitRest_cons {line rest : List UInt16} {c : UInt16} (fuel : Nat)
    (h : line.dropWhile isBlank = c :: rest) :
    splitRest (fuel + 1) line = (splitRest fuel (takeArgument false 0 (c :: rest)).2).map fun r =>
        ((takeArgument false 0 (c :: rest)).1 ++ 0 :: r.1, r.2 + 1) := by
  rw [splitRest.eq_def]
  dsimp only
  rw [h]

theorem splitRest_length (fuel : Nat) (line : List UInt16) (hbreaks : Breaks line)
    (hfuel : line.length ≤ fuel) :
    ∃ out count, splitRest fuel line = some (out, count) ∧ out.length ≤ line.length := by
  induction fuel generalizing line with
  | zero =>
    obtain rfl := length_eq_zero_iff.1 (Nat.le_zero.1 hfuel)
    exact ⟨[], 0, splitRest_nil 0 rfl, Nat.le_refl _⟩
  | succ fuel ih =>
    cases hdrop : line.dropWhile isBlank with
    | nil => exact ⟨[], 0, splitRest_nil _ hdrop, Nat.zero_le _⟩
    | cons c rest =>
      have hless : (c :: rest).length < line.length := by
        cases line with
        | nil => cases hdrop
        | cons d line =>
          rw [dropWhile_cons_of_pos (hbreaks d line rfl)] at hdrop
          rw [← hdrop, length_cons]
          exact Nat.lt_succ_of_le (dropWhile_suffix _).length_le
      have htake := takeArgument_length false 0 (c :: rest)
      obtain ⟨out, count, hrest, hout⟩ := ih (takeArgument false 0 (c :: rest)).2
        (takeArgument_breaks false 0 _) (by omega)
      refine ⟨_, _, by rw [splitRest_cons fuel hdrop, hrest]; rfl, ?_⟩
      show (_ ++ 0 :: out).length ≤ _
      rw [length_append, length_cons]
      omega

/-- The splitter ends, and writes no more than a unit for each unit and one more. -/
theorem splitCommandLine_length (line : List UInt16) :
    ∃ out count, splitCommandLine line = some (out, count) ∧ out.length ≤ line.length + 1 := by
  have hname := programName_length false (line.takeWhile (· ≠ 0))
  obtain ⟨out, count, hrest, hout⟩ := splitRest_length _ (programName false
    (line.takeWhile (· ≠ 0))).2 (programName_breaks false _) (Nat.le_refl _)
  have hline : (line.takeWhile (· ≠ 0)).length ≤ line.length := (List.takeWhile_prefix _).length_le
  refine ⟨_, _, by rw [splitCommandLine]; dsimp only; rw [hrest]; rfl, ?_⟩
  show (_ ++ 0 :: out).length ≤ _
  rw [length_append, length_cons]
  omega

end AnticCommandLine
