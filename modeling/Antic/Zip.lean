import Antic.Inflate

/-! # The writer and the reader of a zip archive — `zip.c`

    A file is its bytes.  Sizes are those of the host, which has 64 bits: every sum
    of the reader is one of a place in the file and a few fields of at most 32 bits.
    A read outside of the file stops the reader with `outside`. -/

namespace AnticZip

open ByteFields

/-- `ZIP_LOCAL`. -/
def zipLocal : Nat := 0x04034b50

/-- `ZIP_CENTRAL`. -/
def zipCentral : Nat := 0x02014b50

/-- `ZIP_END`. -/
def zipEnd : Nat := 0x06054b50

/-- `ZIP_VERSION`. -/
def zipVersion : Nat := 20

/-- `ZIP_DATE`. -/
def zipDate : Nat := 0x0021

/-- `ZIP_TIME`. -/
def zipTime : Nat := 0

/-- `ZIP_MODE_FILE` and `ZIP_MODE_PROGRAM`. -/
def zipMode (executable : Bool) : Nat := if executable then 0o100755 else 0o100644

/-- `ZIP_MAX16`. -/
def zipMax16 : Nat := 0xffff

/-- `ZIP_MAX32`. -/
def zipMax32 : Nat := 0xffffffff

/-- One bit of `crc32_of`. -/
def crcBit (crc : BitVec 32) : BitVec 32 :=
  (crc >>> 1) ^^^ (0xedb88320#32 &&& (0#32 - (crc &&& 1#32)))

/-- One byte of `crc32_of`. -/
def crcByte (crc : BitVec 32) (byte : UInt8) : BitVec 32 :=
  Nat.iterate crcBit 8 (crc ^^^ BitVec.ofNat 32 byte.toNat)

/-- `crc32_of`. -/
def crc32Of (bytes : List UInt8) : Nat :=
  (bytes.foldl crcByte 0xffffffff#32 ^^^ 0xffffffff#32).toNat

/-! ## The writer -/

/-- `struct zip_entry`.  The content is the bytes of the entry, or those of its file,
    and none where the file cannot be read. -/
structure ZipEntry where
  name : List UInt8
  content : Option (List UInt8)
  executable : Bool

/-- Why no archive is written. -/
inductive WriteRefusal where
  /-- "%s: %zu entries are more than a zip archive holds" -/
  | count (count : Nat)
  /-- `files_read_reported` says why. -/
  | unread (index : Nat)
  /-- "%s: entry %zu is too large for a zip archive" -/
  | entry (index : Nat)
  /-- "%s: the entries are too large for a zip archive" -/
  | total
  deriving DecidableEq, Repr

/-- The local header of an entry, its name and its bytes. -/
def localRecord (name bytes : List UInt8) : List UInt8 :=
  put32 zipLocal ++ put16 zipVersion ++ put16 0 ++ put16 0 ++ put16 zipTime ++ put16 zipDate ++
    put32 (crc32Of bytes) ++ put32 bytes.length ++ put32 bytes.length ++ put16 name.length ++
    put16 0 ++ name ++ bytes

/-- The entry of the central directory, of the bytes with their local header at `offset`. -/
def centralRecord (name bytes : List UInt8) (executable : Bool) (offset : Nat) : List UInt8 :=
  put32 zipCentral ++ put16 (zipVersion ||| 3 <<< 8) ++ put16 zipVersion ++ put16 0 ++ put16 0 ++
    put16 zipTime ++ put16 zipDate ++ put32 (crc32Of bytes) ++ put32 bytes.length ++
    put32 bytes.length ++ put16 name.length ++ put16 0 ++ put16 0 ++ put16 0 ++ put16 0 ++
    put32 (zipMode executable <<< 16) ++ put32 offset ++ name

/-- The end record. -/
def endRecord (count directory start : Nat) : List UInt8 :=
  put32 zipEnd ++ put16 0 ++ put16 0 ++ put16 count ++ put16 count ++ put32 directory ++
    put32 start ++ put16 0

/-- The loop of `zip_write`, at entry `index`. -/
def writeEntries : (index : Nat) → List ZipEntry → (out directory : List UInt8) →
    Except WriteRefusal (List UInt8 × List UInt8)
  | _, [], out, directory => .ok (out, directory)
  | index, e :: entries, out, directory =>
    match e.content with
    | none => .error (.unread index)
    | some bytes =>
      if e.name.length > zipMax16 ∨ bytes.length > zipMax32 ∨ out.length > zipMax32 then
        .error (.entry index)
      else
        writeEntries (index + 1) entries (out ++ localRecord e.name bytes)
          (directory ++ centralRecord e.name bytes e.executable out.length)

/-- `zip_write`: the bytes of the archive. -/
def zipWrite (entries : List ZipEntry) : Except WriteRefusal (List UInt8) :=
  if entries.length > zipMax16 then .error (.count entries.length)
  else
    match writeEntries 0 entries [] [] with
    | .error e => .error e
    | .ok (out, directory) =>
      if out.length > zipMax32 ∨ directory.length > zipMax32 then .error .total
      else .ok (out ++ directory ++ endRecord entries.length directory.length out.length)

/-! ## The reader -/

/-- Why an archive is refused. -/
inductive Refusal where
  /-- "%s is no zip archive" -/
  | noArchive
  /-- "%s has a broken central directory" -/
  | directory
  /-- "%s has a broken entry" -/
  | entry
  /-- "%s: the data of %.*s runs past its end" -/
  | pastEnd (name : List UInt8)
  /-- "%s unpacks to more than one archive holds" -/
  | tooMuch
  /-- "%s has entries whose data overlap" -/
  | overlap
  /-- A read outside of the file. -/
  | outside
  deriving DecidableEq, Repr

abbrev Reader := Except Refusal

/-- A field of two bytes. -/
def read16 (bytes : List UInt8) (i : Nat) : Reader Nat :=
  match get16 bytes i with
  | none => .error .outside
  | some v => .ok v

/-- A field of four bytes. -/
def read32 (bytes : List UInt8) (i : Nat) : Reader Nat :=
  match get32 bytes i with
  | none => .error .outside
  | some v => .ok v

/-- The bytes from `i` on, `length` of them. -/
def slice (bytes : List UInt8) (i length : Nat) : Option (List UInt8) :=
  if i + length ≤ bytes.length then some ((bytes.drop i).take length) else none

/-- The loop of `find_end`. -/
def findEndFrom (bytes : List UInt8) : Nat → Reader Nat
  | 0 => do
      if (← read32 bytes 0) = zipEnd then pure 0 else throw .noArchive
  | i + 1 => do
      if (← read32 bytes (i + 1)) = zipEnd then pure (i + 1)
      else if bytes.length - (i + 1) > 22 + 65535 then throw .noArchive
      else findEndFrom bytes i

/-- `find_end`. -/
def findEnd (bytes : List UInt8) : Reader Nat :=
  if bytes.length < 22 then throw .noArchive else findEndFrom bytes (bytes.length - 22)

/-- `struct zip_item`. -/
structure Item where
  name : List UInt8
  offset : Nat
  packed : Nat
  size : Nat
  crc : Nat
  method : Nat
  deriving DecidableEq, Repr

/-- `struct zip_span`. -/
structure Span where
  start : Nat
  stop : Nat
  deriving DecidableEq, Repr

/-- One turn of the loop of `read_entries`: the entry at `at_`, with what the entries
    before it unpack to. -/
def readEntry (bytes : List UInt8) (stop at_ total : Nat) : Reader (Item × Span × Nat) := do
  if at_ + 46 > stop then throw .directory
  else if (← read32 bytes at_) ≠ zipCentral then throw .directory
  else do
    let nameLength ← read16 bytes (at_ + 28)
    let method ← read16 bytes (at_ + 10)
    let crc ← read32 bytes (at_ + 16)
    let packed ← read32 bytes (at_ + 20)
    let size ← read32 bytes (at_ + 24)
    let local_ ← read32 bytes (at_ + 42)
    if at_ + 46 + nameLength > stop ∨ local_ + 30 > at_ then throw .entry
    else if (← read32 bytes local_) ≠ zipLocal then throw .entry
    else do
      let offset := local_ + 30 + (← read16 bytes (local_ + 26)) + (← read16 bytes (local_ + 28))
      match slice bytes (at_ + 46) nameLength with
      | none => throw .outside
      | some name =>
        if offset + packed > at_ then throw (.pastEnd name)
        else if size > zipMax32 - total then throw .tooMuch
        else do
          let next := at_ + 46 + nameLength + (← read16 bytes (at_ + 30)) +
            (← read16 bytes (at_ + 32))
          pure (⟨name, offset, packed, size, crc, method⟩, ⟨local_, offset + packed⟩, next)

/-- The loop of `read_entries`. -/
def readEntries (bytes : List UInt8) (stop : Nat) : (left at_ total : Nat) →
    Reader (List (Item × Span))
  | 0, _, _ => pure []
  | left + 1, at_, total => do
      let (item, span, next) ← readEntry bytes stop at_ total
      let rest ← readEntries bytes stop left next (total + item.size)
      pure ((item, span) :: rest)

/-- The loop of `check_spans`, over sorted spans. -/
def apart : List Span → Bool
  | a :: b :: spans => if b.start < a.stop then false else apart (b :: spans)
  | _ => true

/-- `span_order` puts `a` before `b`, or at one place with it. -/
def spanOrder (a b : Span) : Bool := decide (a.start ≤ b.start)

/-- `check_spans`. -/
def checkSpans (spans : List Span) : Reader Unit :=
  if apart (spans.mergeSort spanOrder) then pure () else throw .overlap

/-- `struct zip_archive`. -/
structure Archive where
  bytes : List UInt8
  items : List Item

/-- `zip_read`, of the bytes of the file. -/
def zipRead (bytes : List UInt8) : Reader Archive := do
  let stop ← findEnd bytes
  let count ← read16 bytes (stop + 10)
  let at_ ← read32 bytes (stop + 16)
  let entries ← readEntries bytes stop count at_ 0
  checkSpans (entries.map Prod.snd)
  pure ⟨bytes, entries.map Prod.fst⟩

/-- What `zip_unpack` gives: the text, and why it stopped. -/
abbrev Unpacked := EStateM.Result Stop (List UInt8) Unit

/-- The check of the sum, of a text whose entry starts after `start` bytes. -/
def checkCrc (item : Item) (start : Nat) (out : List UInt8) : Unpacked :=
  if crc32Of (out.drop start) ≠ item.crc then .error .broken out else .ok () out

/-- `zip_unpack`, of an item of the archive, after the text `out`. -/
def unpackItem (a : Archive) (item : Item) (out : List UInt8) : Unpacked :=
  if item.method = 0 then
    if item.packed = item.size then
      match slice a.bytes item.offset item.size with
      | none => .error .outside out
      | some data => checkCrc item out.length (out ++ data)
    else .error .broken out
  else if item.method = 8 then
    match slice a.bytes item.offset item.packed with
    | none => .error .outside out
    | some data =>
      match inflate data item.size out with
      | .error e s => .error e s.out
      | .ok _ s =>
        if s.out.length - out.length = item.size then checkCrc item out.length s.out
        else .error .broken s.out
  else .error (.method item.method) out

/-- `zip_unpack`, of the item at the index. -/
def zipUnpack (a : Archive) (index : Nat) (out : List UInt8) : Unpacked :=
  match a.items[index]? with
  | none => .error .outside out
  | some item => unpackItem a item out

end AnticZip
