import Antic.Ascii
import Antic.Versions
import Mathlib.Data.List.DropRight

/-! # The reader of the TOML subset — `toml.c`

    One pass over the bytes writes a flat list of keys.  A key is a dotted path; the
    number of a `[[name]]` table is recovered from the keys read so far, through a hash
    table of their dotted prefixes.

    * The read position is the list of the bytes that are left.
    * A path is its bytes up to the NUL, as `snprintf` writes it.
    * A slot of length 0 is `none`; `room` is the length of `names`.
    * Memory that runs out ends the run of the program, so no step models it. -/

namespace AnticToml

export Ascii (comma openBracket closeBracket openBrace closeBrace)

open AnticDeps

/-! ## The document and the reader -/

/-- `enum anti_toml_shape` of a pair. -/
inductive Shape where
  | string
  | value
  | array
  | table
deriving DecidableEq, Repr

/-- `struct pair`. -/
structure Pair where
  key : Text
  value : Text
  line : Nat
  shape : Shape
deriving DecidableEq, Repr

/-- `struct under`: a path that keys stand under, the first `length` bytes of the key of
    the pair, and the largest number that follows it and a dot, or -1. -/
structure Under where
  pair : Nat
  length : Nat
  hash : UInt64
  largest : Int
deriving DecidableEq, Repr

/-- `struct anti_toml`. -/
structure Doc where
  pairs : List Pair := []
  empties : List Pair := []
  names : List (Option Under) := []
  namesCount : Nat := 0
  indexed : Nat := 0
deriving DecidableEq, Repr

/-- `struct reader`. -/
structure Reader where
  rest : Text
  line : Nat := 1
  table : Text := []
  tableStart : Nat := 0
  quoted : Bool := false
deriving DecidableEq, Repr

/-- `failed`, and a loop of the model that ran out of turns. -/
inductive Stop where
  | failed
  | fuel
deriving DecidableEq, Repr

/-- The room of a path, with its NUL. -/
def pathRoom : Nat := 320

/-- `sizeof r->table`. -/
def tableRoom : Nat := 256

/-- `INT64_MAX`. -/
def int64Max : Int := 9223372036854775807

/-- A C string of these bytes. -/
def cstr (t : Text) : Text := t.takeWhile fun c => c != 0

/-! ## The bytes of the text -/

def space : UInt8 := 32
def tab : UInt8 := 9
def newline : UInt8 := 10
def ret : UInt8 := 13
def doubleQuote : UInt8 := 34
def numberSign : UInt8 := 35
def singleQuote : UInt8 := 39
def minus : UInt8 := 45
def equals : UInt8 := 61

/-- `peek`. -/
def Reader.peek (r : Reader) : Option UInt8 := r.rest.head?

/-- `r->pos++`. -/
def Reader.next (r : Reader) : Reader := { r with rest := r.rest.tail }

/-- `skip_spaces`. -/
def skipSpaces (r : Reader) : Reader :=
  { r with rest := r.rest.dropWhile fun c => c == space || c == tab }

/-- The loop of `skip_blank`, and the line it leaves. -/
def blankFrom : (comment : Bool) → (line : Nat) → Text → Nat × Text
  | _, line, [] => (line, [])
  | comment, line, c :: rest =>
    if c == newline then blankFrom false (line + 1) rest
    else if comment then blankFrom true line rest
    else if c == space || c == tab || c == ret then blankFrom false line rest
    else if c == numberSign then blankFrom true line rest
    else (line, c :: rest)

/-- `skip_blank`. -/
def skipBlank (r : Reader) : Reader :=
  { r with line := (blankFrom false r.line r.rest).1
           rest := (blankFrom false r.line r.rest).2 }

/-- `is_bare`. -/
def isBare (c : UInt8) : Bool :=
  isLower c || (65 ≤ c && c ≤ 90) || isDigit c || c == underscore || c == minus

/-- A byte of the name of a header. -/
def isName (c : UInt8) : Bool := isBare c || c == dot

/-- The byte is next, and the read goes past it. -/
def expect (r : Reader) (c : UInt8) : Except Stop Reader :=
  if r.peek == some c then .ok r.next else .error .failed

/-! ## The list of pairs -/

/-- `add`. -/
def Doc.add (d : Doc) (r : Reader) (key value : Text) : Doc :=
  { d with pairs := d.pairs ++
      [{ key, value, line := r.line, shape := if r.quoted then .string else .value }] }

/-- `add_empty`. -/
def Doc.addEmpty (d : Doc) (r : Reader) (path : Text) (shape : Shape) : Doc :=
  { d with empties := d.empties ++ [{ key := path, value := [], line := r.line, shape }] }

/-- `doc->count + doc->empty_count`. -/
def Doc.held (d : Doc) : Nat := d.pairs.length + d.empties.length

/-- `end_table`. -/
def endTable (d : Doc) (r : Reader) : Doc :=
  if 0 < r.table.length && d.held == r.tableStart then d.addEmpty r r.table .table else d

/-- The key of the pair at an index. -/
def Doc.keyAt (d : Doc) (i : Nat) : Text := (d.pairs[i]?.map Pair.key).getD []

/-- `anti_rt_toml_find`, with the value of the pair. -/
def tomlFind (d : Doc) (path : Text) : Option Text :=
  (d.pairs.find? fun p => p.key == path).map Pair.value

/-! ## The table of paths -/

/-- The start of FNV-1a. -/
def hashStart : UInt64 := 0xcbf29ce484222325

/-- `hash_more`. -/
def hashMore (h : UInt64) (bytes : Text) : UInt64 :=
  bytes.foldl (fun h c => (h ^^^ c.toUInt64) * 0x100000001b3) h

/-- The path of a slot. -/
def Doc.pathOf (d : Doc) (u : Under) : Text := (d.keyAt u.pair).take u.length

/-- The slot of an index, where one is taken. -/
def Doc.slot (d : Doc) (i : Nat) : Option Under := d.names[i]?.join

/-- The slot holds this path. -/
def Doc.holds (d : Doc) (name : Text) (h : UInt64) (u : Under) : Bool :=
  u.hash == h && u.length == name.length && d.pathOf u == name

/-- The loop of `slot_of` from slot `i`. -/
def slotFrom (d : Doc) (name : Text) (h : UInt64) : (turns i : Nat) → Nat
  | 0, i => i
  | turns + 1, i =>
    match d.slot i with
    | none => i
    | some u =>
      if d.holds name h u then i
      else slotFrom d name h turns ((i + 1) &&& (d.names.length - 1))

/-- `slot_of`.  A walk that finds no free slot would not end; the table keeps half its
    slots free. -/
def slotOf (d : Doc) (name : Text) (h : UInt64) : Nat :=
  slotFrom d name h d.names.length (h.toNat &&& (d.names.length - 1))

/-- Write a slot. -/
def Doc.setSlot (d : Doc) (i : Nat) (u : Under) : Doc := { d with names := d.names.set i (some u) }

/-- The document with another table. -/
def Doc.withNames (d : Doc) (names : List (Option Under)) : Doc := { d with names := names }

/-- A turn of the loop of `grow_names`. -/
def moveSlot (d : Doc) : Option Under → Doc
  | none => d
  | some u => d.setSlot (slotOf d (d.pathOf u) u.hash) u

/-- `grow_names`. -/
def growNames (d : Doc) : Doc :=
  let room := if d.names.length == 0 then 64 else d.names.length * 2
  d.names.foldl moveSlot (d.withNames (List.replicate room none))

/-- `isspace` of C. -/
def isSpace (c : UInt8) : Bool := c == space || (9 ≤ c && c ≤ 13)

/-- The value of the digits that come next. -/
def digitsValue (t : Text) : Nat :=
  (t.takeWhile isDigit).foldl (fun value c => value * 10 + (c.toNat - 48)) 0

/-- `strtoll` of C, base 10: 0 where no digit comes, and the nearest `int64_t` where the
    number is none. -/
def strtoll (text : Text) : Int :=
  let text := text.dropWhile isSpace
  let number : Int :=
    match text with
    | [] => 0
    | c :: rest =>
      if c == minus then -digitsValue rest
      else if c == 43 then digitsValue rest
      else digitsValue (c :: rest)
  max (-int64Max - 1) (min number int64Max)

/-- The turn of `index_pair` at a dot: the path of `length` bytes of the key of the pair,
    its hash, and the number after it. -/
def Doc.note (d : Doc) (index length : Nat) (h : UInt64) (number : Int) : Doc :=
  let d := if d.names.length / 2 < d.namesCount + 1 then growNames d else d
  let i := slotOf d ((d.keyAt index).take length) h
  match d.slot i with
  | none =>
    { d.setSlot i { pair := index, length, hash := h, largest := max (-1) number } with
      namesCount := d.namesCount + 1 }
  | some u => d.setSlot i { u with largest := max u.largest number }

/-- The loop of `index_pair` at byte `p` of the key, with the rest of it.  `h` is the hash
    of the bytes before `start`. -/
def indexFrom (index : Nat) (key : Text) : (h : UInt64) → (start p : Nat) → Text → Doc → Doc
  | _, _, _, [], d => d
  | h, start, p, c :: rest, d =>
    if !isName c then d
    else if c != dot || p == 0 then indexFrom index key h start (p + 1) rest d
    else
      let h := hashMore h ((key.drop start).take (p - start))
      indexFrom index key h p (p + 1) rest (d.note index p h (strtoll rest))

/-- `index_pair`. -/
def indexPair (d : Doc) (index : Nat) : Doc :=
  indexFrom index (d.keyAt index) hashStart 0 0 (d.keyAt index) d

/-- The loop of `repeats` over the pairs that are not indexed yet. -/
def indexPending (d : Doc) : Doc :=
  (List.range (d.pairs.length - d.indexed)).foldl
    (fun d _ => { indexPair d d.indexed with indexed := d.indexed + 1 }) d

/-- `repeats`, with the document it leaves. -/
def repeats (d : Doc) (name : Text) : Doc × Int :=
  let d := indexPending d
  if d.names.length == 0 then (d, 0)
  else
    match d.slot (slotOf d name (hashMore hashStart name)) with
    | none => (d, 0)
    | some u => (d, if u.largest == int64Max then -1 else u.largest + 1)

/-! ## Headers -/

/-- The brackets and the name of a header: whether it is a `[[name]]`, the name, and what
    comes after. -/
def headerName (r : Reader) : Except Stop (Bool × Text × Reader) := do
  let r := r.next
  let array := r.peek == some openBracket
  let r := skipSpaces (if array then r.next else r)
  let name := r.rest.takeWhile isName
  if name.length == 0 || tableRoom - 24 ≤ name.length then .error .failed
  else
    let r ← expect (skipSpaces { r with rest := r.rest.dropWhile isName }) closeBracket
    let r ← (if array then expect r closeBracket else .ok r)
    return (array, name, r)

/-- The table of a `[[name]]` header of this number. -/
def numbered (name : Text) (n : Nat) : Text := name ++ dot :: decimal n

/-- `read_header`. -/
def readHeader (r : Reader) (d : Doc) : Except Stop (Reader × Doc) := do
  let d := endTable d r
  let (array, name, r) ← headerName r
  if array then
    let (d, next) := repeats d name
    if next < 0 then .error .failed
    else if tableRoom - name.length ≤ (dot :: decimal next.toNat).length then .error .failed
    else return ({ r with table := numbered name next.toNat, tableStart := d.held }, d)
  else return ({ r with table := name, tableStart := d.held }, d)

/-! ## Keys and values -/

/-- A quote comes next. -/
def Reader.atQuote (r : Reader) : Bool := r.peek == some doubleQuote || r.peek == some singleQuote

/-- `read_quoted`. -/
def readQuoted (r : Reader) : Except Stop (Text × Reader) := do
  let inside := fun c => some c != r.peek && c != newline
  let text := r.next.rest.takeWhile inside
  let after := { r with rest := r.next.rest.dropWhile inside }
  if after.peek != r.peek then .error .failed else return (text, after.next)

/-- `read_key`. -/
def readKey (r : Reader) : Except Stop (Text × Reader) := do
  let (key, r) ← (if r.atQuote then readQuoted r
     else if (r.rest.takeWhile isBare).length == 0 then .error .failed
     else .ok (r.rest.takeWhile isBare, { r with rest := r.rest.dropWhile isBare }))
  if pathRoom ≤ key.length then .error .failed else return (key, r)

/-- `stops_value`.  `strchr` finds the NUL at the end of every `stops`. -/
def stopsValue (stops : Text) (c : UInt8) : Bool := c == 0 || stops.contains c

/-- A byte that a value loses at its end. -/
def isTrailing (c : UInt8) : Bool := c == space || c == tab || c == ret

/-- `read_value`. -/
def readValue (r : Reader) (stops : Text) : Except Stop (Text × Reader) := do
  let r := skipSpaces r
  let r := { r with quoted := r.atQuote }
  if r.quoted then readQuoted r
  else
    let inside := fun c => c != newline && c != numberSign && !stopsValue stops c
    let value := (r.rest.takeWhile inside).rdropWhile isTrailing
    if value.length == 0 then .error .failed
    else return (value, { r with rest := r.rest.dropWhile inside })

mutual

/-- The loop of `read_array`, at the element `index`. -/
def arrayLoop : (fuel : Nat) → (path : Text) → (index : Nat) → Reader → Doc →
    Except Stop (Reader × Doc)
  | 0, _, _, _, _ => .error .fuel
  | fuel + 1, path, index, r, d => do
      let r := skipBlank r
      if r.peek == some closeBracket then
        return (r.next, if index == 0 then d.addEmpty r path .array else d)
      else if r.peek == none || r.peek == some openBracket then .error .failed
      else
        let key := numbered path index
        if pathRoom ≤ key.length then .error .failed
        else
          let (r, d) ← (if r.peek == some openBrace then inlineLoop fuel key d.held r.next d
             else do
               let (value, r) ← readValue r [comma, closeBracket]
               return (r, d.add r key value))
          let r := skipBlank r
          if r.peek == some comma then arrayLoop fuel path (index + 1) r.next d
          else if r.peek == some closeBracket then arrayLoop fuel path (index + 1) r d
          else .error .failed

/-- The loop of `read_inline_table`. `start` is what the document held before it. -/
def inlineLoop : (fuel : Nat) → (path : Text) → (start : Nat) → Reader → Doc →
    Except Stop (Reader × Doc)
  | 0, _, _, _, _ => .error .fuel
  | fuel + 1, path, start, r, d => do
      let r := skipBlank r
      if r.peek == some closeBrace then
        return (r.next, if d.held == start then d.addEmpty r path .table else d)
      else if r.peek == none then .error .failed
      else
        let (name, r) ← readKey r
        let r ← expect (skipSpaces r) equals
        let key := path ++ dot :: cstr name
        if pathRoom ≤ key.length then .error .failed
        else
          let r := skipSpaces r
          let (r, d) ← (if r.peek == some openBracket then arrayLoop fuel key 0 r.next d
             else if r.peek == some openBrace then inlineLoop fuel key d.held r.next d
             else do
               let (value, r) ← readValue r [comma, closeBrace]
               return (r, d.add r key value))
          let r := skipBlank r
          if r.peek == some comma then inlineLoop fuel path start r.next d
          else if r.peek == some closeBrace then inlineLoop fuel path start r d
          else .error .failed

end

/-- The path of a key below the table of the last header. -/
def pairPath (table key : Text) : Text :=
  if table.length == 0 then cstr key else table ++ dot :: cstr key

/-- `read_pair`. -/
def readPair (r : Reader) (d : Doc) : Except Stop (Reader × Doc) := do
  let (key, r) ← readKey r
  let r ← expect (skipSpaces r) equals
  let path := pairPath r.table key
  if path.length == 0 || pathRoom ≤ path.length then .error .failed
  else
    let r := skipSpaces r
    if r.peek == some openBracket then arrayLoop (r.rest.length + 1) path 0 r.next d
    else if r.peek == some openBrace then inlineLoop (r.rest.length + 1) path d.held r.next d
    else do
      let (value, r) ← readValue r []
      return (r, d.add r path value)

/-! ## The document -/

/-- A header comes next. -/
def Reader.atHeader (r : Reader) : Bool := r.peek == some openBracket

/-- A turn of the loop of `anti_rt_toml_read` before the end of the text. -/
def turn (r : Reader) (d : Doc) : Except Stop (Reader × Doc) :=
  if r.atHeader then readHeader r d
  else if r.peek.any isBare || r.atQuote then readPair r d
  else .error .failed

/-- The loop of `anti_rt_toml_read`. -/
def readFrom : (fuel : Nat) → Reader → Doc → Except Stop Doc
  | 0, _, _ => .error .fuel
  | fuel + 1, r, d =>
    let r := skipBlank r
    if r.peek == none then .ok (endTable d r)
    else do
      let (r, d) ← turn r d
      readFrom fuel r d

/-- `anti_rt_toml_read`. -/
def tomlRead (text : Text) : Except Stop Doc := readFrom (text.length + 1) { rest := text } {}

end AnticToml
