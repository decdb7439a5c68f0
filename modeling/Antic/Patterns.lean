import Antic.Ascii
import Mathlib.Data.List.Basic

/-! # Searches, replace and patch — `patterns.c`

    Compiled patterns are PCRE2's, so a pattern is what PCRE2 answers about it: a function
    from the subject, the offset and the options to the spans of the groups, and the counts
    and the names of its groups.  A loop that is not bounded by a count has fuel, and `none`
    stands for a loop that goes on after it. -/

namespace AnticPattern

export Ascii (isDigit)

abbrev Bytes := List UInt8

/-! ## Statuses -/

/-- `ANTI_RT_REGEX_EXPENSIVE`. -/
def expensive : Int := -1

/-- `ANTI_RT_REGEX_MISFIT`. -/
def misfit : Int := -2

/-- `ANTI_RT_REGEX_MISSING`. -/
def missing : Int := -3

/-! ## Bytes -/

/-- `memcpy` of bytes to a place of the data. -/
def writeAt (data : Bytes) (place : Nat) (bytes : Bytes) : Bytes :=
  data.mapIdx fun k b => if place ≤ k then bytes.getD (k - place) b else b

/-- The bytes of a program, by their addresses. -/
abbrev Memory := Nat → UInt8

/-- What a pointer and a length give. -/
structure Region where
  start : Nat
  length : Nat

def Region.bytes (r : Region) (memory : Memory) : Bytes :=
  (List.range r.length).map fun k => memory (r.start + k)

/-- Two regions share an address. -/
def Region.Meets (r s : Region) : Prop :=
  max r.start s.start < min (r.start + r.length) (s.start + s.length)

instance Region.decidableMeets (r s : Region) : Decidable (r.Meets s) :=
  inferInstanceAs (Decidable (_ < _))

/-- `memcpy` of bytes to an address. -/
def copyTo (memory : Memory) (place : Nat) (bytes : Bytes) : Memory :=
  fun k => if place ≤ k then bytes.getD (k - place) (memory k) else memory k

/-- `fits_span`. -/
def fitsSpan (offset length span : Int) : Bool :=
  0 ≤ offset && 0 ≤ length && length ≤ span && offset ≤ span - length

/-- The loop of `find_bytes`, with `turns` places left. -/
def findLoop (data find : Bytes) : (turns i : Nat) → Option Nat
  | 0, _ => none
  | turns + 1, i =>
    if data[i]? = find[0]? ∧ (data.drop i).take find.length = find then some i
    else findLoop data find turns (i + 1)

/-- `find_bytes`. -/
def findBytes (data find : Bytes) (start : Nat) : Option Nat :=
  findLoop data find (data.length + 1 - find.length - start) start

/-- The loop of `anti_rt_bytes_patch` that counts the places. -/
def countPlaces (data find : Bytes) : (fuel start total : Nat) → Option Nat
  | 0, _, _ => none
  | fuel + 1, start, total =>
    match findBytes data find start with
    | none => some total
    | some i => countPlaces data find fuel (i + find.length) (total + 1)

/-- The write at a place of the data.  `memcpy` between regions that share an address has no
    meaning in C. -/
def writePlace (data bytes : Region) (offset : Nat) (memory : Memory) (i : Nat) : Option Memory :=
  if bytes.length > 0 then
    if bytes.Meets ⟨data.start + i + offset, bytes.length⟩ then none
    else some (copyTo memory (data.start + i + offset) (bytes.bytes memory))
  else some memory

/-- The loop of `anti_rt_bytes_patch` that writes.  Each turn reads `data` and `find` from the
    memory that the turns before it have left. -/
def patchPlaces (data find bytes : Region) (offset : Nat) (limit : Int) :
    (fuel : Nat) → (memory : Memory) → (start : Nat) → (skip : Int) → (places : Nat) →
    Option (Int × Memory)
  | 0, _, _, _, _ => none
  | fuel + 1, memory, start, skip, places =>
    match findBytes (data.bytes memory) (find.bytes memory) start with
    | none => some (places, memory)
    | some i =>
      if limit ≤ 0 ∨ places < limit then
        if skip > 0 then
          patchPlaces data find bytes offset limit fuel memory (i + find.length) (skip - 1) places
        else
          (writePlace data bytes offset memory i).bind fun memory =>
            patchPlaces data find bytes offset limit fuel memory (i + find.length) skip (places + 1)
      else some (places, memory)

/-- `anti_rt_bytes_patch`: its result, and the memory that it leaves. -/
def bytesPatch (memory : Memory) (data find bytes : Region) (offset limit : Int) :
    Option (Int × Memory) :=
  if ¬ fitsSpan offset bytes.length find.length then some (misfit, memory)
  else if find.length = 0 then some (0, memory)
  else do
    let total ← (if limit < 0 then
      countPlaces (data.bytes memory) (find.bytes memory) (data.length + 1) 0 0 else some 0)
    let skip : Int := if limit < 0 ∧ total + limit > 0 then total + limit else 0
    patchPlaces data find bytes offset.toNat limit (data.length + 1) memory 0 skip 0

/-! ## Patterns -/

/-- The options of a search: `PCRE2_NO_UTF_CHECK`, and the two bits of `RETRY`. -/
structure Options where
  noUtfCheck : Bool
  retry : Bool
deriving DecidableEq, Repr

/-- The spans of the groups, the whole match first.  `none` is a group that took no part. -/
abbrev Ovector := List (Option (Nat × Nat))

/-- What `pcre2_match` gives. -/
inductive Answer where
  | noMatch
  /-- A limit of PCRE2, or memory that runs out. -/
  | expensive
  /-- The whole match, and the spans of the other groups. -/
  | found (start stop : Nat) (groups : Ovector)

/-- A compiled pattern. -/
structure Pattern where
  search : Bytes → Nat → Options → Answer
  isBytes : Bool
  /-- `crlf_newline`. -/
  crlfNewline : Bool
  /-- `anti_rt_regex_group_count`. -/
  groupCount : Nat
  /-- `anti_rt_regex_group_number`. -/
  groupNumber : Bytes → Option Nat
  /-- `pcre2_substring_nametable_scan`: the groups of the name, from the first entry. -/
  scan : Bytes → List Nat

/-- `struct anti_cursor`, over a pattern and a subject.  Without a limit `left` is -1. -/
structure Cursor where
  place : Nat
  options : Options
  last : Nat
  skip : Int
  left : Int

/-- `cursor_reset`. -/
def cursorReset : Cursor := ⟨0, ⟨false, false⟩, 0, 0, -1⟩

/-- The first byte of the subject from a place on that is no continuation byte. -/
def passContinuation : Bytes → Nat → Nat
  | [], k => k
  | b :: rest, k => if b &&& 0xC0 = 0x80 then passContinuation rest (k + 1) else k

/-- `next_character`. -/
def nextCharacter (p : Pattern) (s : Bytes) (k : Nat) : Nat :=
  if k + 1 < s.length ∧ s[k]? = some 13 ∧ s[k + 1]? = some 10 ∧ p.crlfNewline then k + 2
  else if p.isBytes then k + 1
  else passContinuation (s.drop (k + 1)) (k + 1)

/-- A match, with the place and the options of the search that found it. -/
structure Found where
  start : Nat
  stop : Nat
  origin : Nat
  used : Options
  ov : Ovector

/-- The options of a search: one that starts inside a character checks the text again. -/
def searchOptions (s : Bytes) (c : Cursor) : Options :=
  let middle : Bool := match s[c.place]? with
    | some b => b &&& 0xC0 = 0x80
    | none => false
  ⟨c.options.noUtfCheck && !middle, c.options.retry⟩

/-- `search`: a match, `DONE` or a failure, and the cursor that it leaves. -/
def search (p : Pattern) (s : Bytes) :
    (fuel : Nat) → Cursor → Option (Except Int (Option Found) × Cursor)
  | 0, _ => none
  | fuel + 1, c =>
    if c.place > s.length then some (.ok none, c)
    else
      let options := searchOptions s c
      match p.search s c.place options with
      | .noMatch =>
        if options.retry = false then
          some (.ok none, { c with options := options, place := s.length + 1 })
        else
          search p s fuel { c with
            options := ⟨true, false⟩
            place := nextCharacter p s c.place }
      | .expensive => some (.error expensive, { c with options := options })
      | .found start stop groups =>
        let ov := some (start, stop) :: groups
        some (.ok (some ⟨start, stop, c.place, options, ov⟩), { c with
          place := stop
          options := ⟨true, stop = start⟩ })

/-- The turns of `search` over a subject. -/
def searchTurns (s : Bytes) : Nat := s.length + 2

/-- The loop of `count_all`. -/
def countLoop (p : Pattern) (s : Bytes) : (fuel : Nat) → Cursor → (total : Int) → Option (Except Int Int)
  | 0, _, _ => none
  | fuel + 1, c, total => do
      match ← search p s (searchTurns s) c with
      | (.ok (some _), c) => countLoop p s fuel c (total + 1)
      | (.ok none, _) => some (.ok total)
      | (.error status, _) => some (.error status)

/-- The turns of a walk over all matches of a subject. -/
def walkTurns (s : Bytes) : Nat := 2 * s.length + 3

/-- `count_all`. -/
def countAll (p : Pattern) (s : Bytes) : Option (Except Int Int) :=
  countLoop p s (walkTurns s) cursorReset 0

/-- `anti_rt_regex_begin`. -/
def regexBegin (p : Pattern) (s : Bytes) (limit : Int) (check : Bool) :
    Option (Except Int Cursor) := do
  match ← (if limit < 0 ∨ check then countAll p s else some (.ok 0)) with
  | .error status => some (.error status)
  | .ok total =>
    if limit > 0 then some (.ok { cursorReset with left := limit })
    else if limit < 0 then
      some (.ok { cursorReset with skip := if total + limit > 0 then total + limit else 0 })
    else some (.ok cursorReset)

/-- `struct anti_match`, with the ovector of its search.  Slices are pairs of offsets. -/
structure Match where
  all : Nat × Nat
  pre : Nat × Nat
  post : Nat × Nat
  count : Nat
  origin : Nat
  options : Options
  ov : Ovector

/-- `fill`. -/
def fill (p : Pattern) (s : Bytes) (c : Cursor) (f : Found) : Match where
  all := (f.start, max f.start f.stop)
  pre := (if c.last < f.start then c.last else f.start, f.start)
  post := (f.stop, max f.stop s.length)
  count := p.groupCount
  origin := f.origin
  options := f.used
  ov := f.ov

/-- `advance`: the next match, `DONE` or a failure, and the cursor that it leaves. -/
def advance (p : Pattern) (s : Bytes) :
    (fuel : Nat) → Cursor → Option (Except Int (Option Match) × Cursor)
  | 0, _ => none
  | fuel + 1, c =>
    if c.left = 0 then some (.ok none, c)
    else do
      match ← search p s (searchTurns s) c with
      | (.ok (some f), c) =>
        if c.skip > 0 then advance p s fuel { c with skip := c.skip - 1 }
        else
          let c := if c.left > 0 then { c with left := c.left - 1 } else c
          some (.ok (some (fill p s c f)), { c with last := f.stop })
      | (.ok none, c) => some (.ok none, c)
      | (.error status, c) => some (.error status, c)

/-! ## Replace -/

/-- The pieces of a template: text, and a group by its number or its name. -/
inductive Piece where
  | text (bytes : Bytes)
  | number (n : Nat)
  | name (bytes : Bytes)

def isNameStart (c : UInt8) : Bool := (97 ≤ c && c ≤ 122) || (65 ≤ c && c ≤ 90) || c = 95

/-- `NUMBER_CAP`. -/
def numberCap : Nat := 1000000000

/-- `digits_value`. -/
def digitsValue (digits : Bytes) : Nat :=
  digits.foldl (fun value c => min (value * 10 + (c.toNat - 48)) numberCap) 0

/-- `anti_rt_regex_piece`: the piece that the template starts with, and the rest. -/
def regexPiece : Bytes → Option (Piece × Bytes)
  | [] => none
  | c :: rest =>
    if c ≠ 36 then
      some (.text (c :: rest.takeWhile (· ≠ 36)), rest.dropWhile (· ≠ 36))
    else
      match rest with
      | [] => some (.text [36], [])
      | d :: more =>
        if d = 36 then some (.text [36], more)
        else if isDigit d then
          some (.number (digitsValue (rest.takeWhile isDigit)), rest.dropWhile isDigit)
        else if d = 123 then
          match more with
          | [] => some (.text [36], rest)
          | e :: _ =>
            if isDigit e then
              match more.dropWhile isDigit with
              | 125 :: behind => some (.number (digitsValue (more.takeWhile isDigit)), behind)
              | _ => some (.text [36], rest)
            else if isNameStart e then
              let inName := fun b => isNameStart b || isDigit b
              match more.dropWhile inName with
              | 125 :: behind => some (.name (more.takeWhile inName), behind)
              | _ => some (.text [36], rest)
            else some (.text [36], rest)
        else some (.text [36], rest)

/-- `ANTI_RT_REGEX_MESSAGE_ROOM`. -/
def messageRoom : Nat := 256

/-- `named_group`. -/
def namedGroup (p : Pattern) (ov : Ovector) (name : Bytes) : Option Nat :=
  if name.length = 0 ∨ messageRoom ≤ name.length then none
  else
    match p.scan name with
    | [] => none
    | first :: more => some (((first :: more).find? fun n => (ov.getD n none).isSome).getD first)

/-- The bytes of a slice of the subject. -/
def sliceOf (s : Bytes) (span : Nat × Nat) : Bytes := (s.drop span.1).take (span.2 - span.1)

/-- `group_of`: the bytes of a group. -/
def groupOf (s : Bytes) (ov : Ovector) (n : Nat) : Bytes :=
  match ov.getD n none with
  | none => []
  | some span => sliceOf s span

/-- What `expand` appends of a piece. -/
def expandPiece (p : Pattern) (s : Bytes) (ov : Ovector) : Piece → Bytes
  | .text bytes => bytes
  | .number n => if n ≤ p.groupCount then groupOf s ov n else []
  | .name bytes =>
    match namedGroup p ov bytes with
    | none => []
    | some n => if n ≤ p.groupCount then groupOf s ov n else []

/-- The loop of `expand`. -/
def expandLoop (p : Pattern) (s : Bytes) (ov : Ovector) : (fuel : Nat) → Bytes → Option Bytes
  | 0, _ => none
  | fuel + 1, template =>
    match regexPiece template with
    | none => some []
    | some (piece, rest) => do
        return expandPiece p s ov piece ++ (← expandLoop p s ov fuel rest)

/-- `expand`. -/
def expand (p : Pattern) (s : Bytes) (ov : Ovector) (template : Bytes) : Option Bytes :=
  expandLoop p s ov (template.length + 1) template

/-- The loop of `anti_rt_regex_replace`. -/
def replaceLoop (p : Pattern) (s template : Bytes) :
    (fuel : Nat) → Cursor → (rest : Nat) → (out : Bytes) → Option (Except Int Bytes)
  | 0, _, _, _ => none
  | fuel + 1, c, rest, out => do
      match ← advance p s (walkTurns s) c with
      | (.ok (some m), c) =>
        let text ← expand p s m.ov template
        replaceLoop p s template fuel c m.all.2 (out ++ sliceOf s (rest, m.all.1) ++ text)
      | (.ok none, _) => some (.ok (out ++ sliceOf s (rest, s.length)))
      | (.error status, _) => some (.error status)

/-- `anti_rt_regex_replace`. -/
def regexReplace (p : Pattern) (s template : Bytes) (limit : Int) : Option (Except Int Bytes) := do
  match ← regexBegin p s limit false with
  | .error status => some (.error status)
  | .ok c => replaceLoop p s template (walkTurns s) c 0 []

/-! ## Patch -/

/-- The group that a patch writes into: `into`, or the one of a name. -/
def patchGroup (p : Pattern) (into : Int) (name : Bytes) : Option Nat :=
  if name.length > 0 then p.groupNumber name
  else if into = 0 then if p.groupCount > 1 then none else some p.groupCount
  else if 0 ≤ into ∧ into ≤ p.groupCount then some into.toNat
  else none

/-- The loop of `anti_rt_regex_patch` that finds the places. -/
def placesLoop (p : Pattern) (s : Bytes) (length : Nat) (group : Nat) (offset : Int) :
    (fuel : Nat) → Cursor → (offsets : List Nat) → Option (Except Int (List Nat))
  | 0, _, _ => none
  | fuel + 1, c, offsets => do
      match ← advance p s (walkTurns s) c with
      | (.ok (some m), c) =>
        match m.ov.getD group none with
        | none => placesLoop p s length group offset fuel c offsets
        | some (start, stop) =>
          if ¬ fitsSpan offset length ((stop : Int) - start) then some (.error misfit)
          else
            placesLoop p s length group offset fuel c (offsets ++ [start + offset.toNat])
      | (.ok none, _) => some (.ok offsets)
      | (.error status, _) => some (.error status)

/-- `anti_rt_regex_patch`: its result, and the data that it leaves. -/
def regexPatch (p : Pattern) (data bytes : Bytes) (into : Int) (name : Bytes) (offset limit : Int) :
    Option (Int × Bytes) :=
  match patchGroup p into name with
  | none => some (missing, data)
  | some group =>
    if offset < 0 then some (misfit, data)
    else do
      match ← regexBegin p data limit false with
      | .error status => some (status, data)
      | .ok c =>
        match ← placesLoop p data bytes.length group offset (walkTurns data) c [] with
        | .error status => some (status, data)
        | .ok offsets =>
          some (offsets.length,
            if bytes.length > 0 then
              offsets.foldl (fun data place => writeAt data place bytes) data
            else data)

end AnticPattern
