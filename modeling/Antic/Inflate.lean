import Antic.ByteFields

/-! # The decoder of deflate — `zip.c`

    The stream of one entry is decoded a bit at a time into a text that may hold bytes before.  A
    place where the code reads an array is a place where the model may stop with `outside`, and a
    loop without a bound of its own has fuel and stops with `endless`; the proofs show that neither
    happens.

    An array is a function of the index; a place of `symbol` that was never written is `none`. -/

namespace AnticZip

open ByteFields Function

/-- Why the reader of an entry stops. -/
inductive Stop where
  /-- "the data of %s is broken" -/
  | broken
  /-- "%s is packed with method %u, and the reader takes stored and deflate" -/
  | method (method : Nat)
  /-- A read outside of an array. -/
  | outside
  /-- A loop runs out of fuel. -/
  | endless
  deriving DecidableEq, Repr

/-- What `struct inflate` holds and no function changes. -/
structure Entry where
  input : List UInt8
  /-- `from`: the bytes of the text before the entry. -/
  start : Nat
  limit : Nat

/-- What `struct inflate` holds and the functions change. -/
structure Inflate where
  at_ : Nat
  bits : Nat
  held : Nat
  out : List UInt8

abbrev Decoder := EStateM Stop Inflate

/-- The entry of a table. -/
def entryOf (table : List Nat) (i : Nat) : Decoder Nat :=
  match table[i]? with
  | none => throw .outside
  | some v => pure v

/-- `emit`. -/
def emit (c : Entry) (bytes : List UInt8) : Decoder Unit := do
  let s ← get
  if bytes.length > c.limit - (s.out.length - c.start) then throw .broken
  else set { s with out := s.out ++ bytes }

/-- The loop of `need`. -/
def fill (c : Entry) (n : Nat) : Nat → Decoder Unit
  | 0 => throw .endless
  | fuel + 1 => do
      let s ← get
      if s.held < n then
        if s.at_ = c.input.length then throw .broken
        else
          match c.input[s.at_]? with
          | none => throw .outside
          | some byte => do
              set { s with bits := s.bits ||| byte.toNat <<< s.held
                           at_ := s.at_ + 1
                           held := s.held + 8 }
              fill c n fuel
      else pure ()

/-- `need`: the next `n` bits. -/
def need (c : Entry) (n : Nat) : Decoder Nat := do
  fill c n (n + 1)
  let s ← get
  set { s with bits := s.bits >>> n, held := s.held - n }
  pure (s.bits &&& (1 <<< n - 1))

/-- `struct huffman`. -/
structure Huffman where
  count : Nat → Nat
  symbol : Nat → Option Nat

/-- `h->symbol[i]`. -/
def Huffman.read (h : Huffman) (i : Int) : Decoder Nat :=
  if 0 ≤ i ∧ i < 288 then
    match h.symbol i.toNat with
    | none => throw .outside
    | some v => pure v
  else throw .outside

/-- The loop of `decode`, with `left` lengths left. -/
def decodeFrom (c : Entry) (h : Huffman) : (left : Nat) → (length code first index : Nat) →
    Decoder Nat
  | 0, _, _, _, _ => throw .broken
  | left + 1, length, code, first, index => do
      let bit ← need c 1
      let code := code ||| bit
      let count := h.count length
      if (code : Int) - count < first then h.read (index + (code - first))
      else decodeFrom c h left (length + 1) (code <<< 1) ((first + count) <<< 1) (index + count)

/-- `decode`: the next symbol. -/
def decode (c : Entry) (h : Huffman) : Decoder Nat := decodeFrom c h 15 1 0 0 0

/-! ## Tables -/

/-- `h->count[lengths[i]]++` for each `i` before `n`. -/
def countLengths (lengths : Nat → Nat) : Nat → Decoder (Nat → Nat)
  | 0 => pure fun _ => 0
  | n + 1 => do
      let count ← countLengths lengths n
      if 16 ≤ lengths n then throw .outside
      else pure (update count (lengths n) (count (lengths n) + 1))

/-- The loop over the lengths: false for a set that is more than a complete code.
    `n` lengths from `i` on are left. -/
def fitsCode (count : Nat → Nat) : (n i : Nat) → (left : Int) → Bool
  | 0, _, _ => true
  | n + 1, i, left =>
    let left := 2 * left - count i
    if left < 0 then false else fitsCode count n (i + 1) left

/-- `offsets[i + 1] = offsets[i] + h->count[i]`, from `offsets[1] = 0`. -/
def offsetsOf (count : Nat → Nat) : Nat → Nat
  | 0 | 1 => 0
  | i + 2 => offsetsOf count (i + 1) + count (i + 1)

/-- `h->symbol[offsets[lengths[i]]++] = i` for each `i` before `n` with a length. -/
def placeSymbols (lengths offsets : Nat → Nat) : Nat → Decoder ((Nat → Nat) × (Nat → Option Nat))
  | 0 => pure (offsets, fun _ => none)
  | n + 1 => do
      let (offsets, symbol) ← placeSymbols lengths offsets n
      if lengths n = 0 then pure (offsets, symbol)
      else if 16 ≤ lengths n ∨ 288 ≤ offsets (lengths n) then throw .outside
      else
        pure (update offsets (lengths n) (offsets (lengths n) + 1),
          update symbol (offsets (lengths n)) (some n))

/-- `construct`.  A table that is refused holds no symbol. -/
def construct (lengths : Nat → Nat) (n : Nat) : Decoder (Bool × Huffman) := do
  let count ← countLengths lengths n
  if fitsCode count 15 1 1 then do
    let (_, symbol) ← placeSymbols lengths (offsetsOf count) n
    pure (true, ⟨count, symbol⟩)
  else pure (false, ⟨count, fun _ => none⟩)

/-! ## Blocks -/

def base : List Nat :=
  [3, 4, 5, 6, 7, 8, 9, 10, 11, 13, 15, 17, 19, 23, 27, 31, 35, 43, 51, 59, 67, 83, 99,
    115, 131, 163, 195, 227, 258]

def extra : List Nat :=
  [0, 0, 0, 0, 0, 0, 0, 0, 1, 1, 1, 1, 2, 2, 2, 2, 3, 3, 3, 3, 4, 4, 4, 4, 5, 5, 5, 5, 0]

def dbase : List Nat :=
  [1, 2, 3, 4, 5, 7, 9, 13, 17, 25, 33, 49, 65, 97, 129, 193, 257, 385, 513, 769, 1025,
    1537, 2049, 3073, 4097, 6145, 8193, 12289, 16385, 24577]

def dextra : List Nat :=
  [0, 0, 0, 0, 1, 1, 2, 2, 3, 3, 4, 4, 5, 5, 6, 6, 7, 7, 8, 8, 9, 9, 10, 10, 11, 11, 12, 12, 13, 13]

/-- The copy of `length` bytes from `distance` bytes back. -/
def copyBack (c : Entry) (distance : Nat) : Nat → Decoder Unit
  | 0 => pure ()
  | length + 1 => do
      let s ← get
      if s.out.length < distance then throw .outside
      else
        match s.out[s.out.length - distance]? with
        | none => throw .outside
        | some byte => do
            emit c [byte]
            copyBack c distance length

/-- `codes`: the symbols of a block. -/
def codes (c : Entry) (lengths distances : Huffman) : Nat → Decoder Unit
  | 0 => throw .endless
  | fuel + 1 => do
      let symbol ← decode c lengths
      if symbol < 256 then do
        emit c [UInt8.ofNat symbol]
        codes c lengths distances fuel
      else if symbol = 256 then pure ()
      else if 29 ≤ symbol - 257 then throw .broken
      else do
        let more ← need c (← entryOf extra (symbol - 257))
        let length := (← entryOf base (symbol - 257)) + more
        let symbol ← decode c distances
        if 30 ≤ symbol then throw .broken
        else do
          let more ← need c (← entryOf dextra symbol)
          let distance := (← entryOf dbase symbol) + more
          let s ← get
          if distance > s.out.length - c.start then throw .broken
          else do
            copyBack c distance length
            codes c lengths distances fuel

/-- More turns than the bits of the input allow. -/
def Entry.fuel (c : Entry) : Nat := 8 * c.input.length + 1

/-- The sizes of the codes of a fixed block. -/
def fixedSizes (i : Nat) : Nat :=
  if i < 144 then 8 else if i < 256 then 9 else if i < 280 then 7 else 8

/-- `fixed`. -/
def fixed (c : Entry) : Decoder Unit := do
  let (_, lengths) ← construct fixedSizes 288
  let (_, distances) ← construct (fun i => if i < 30 then 5 else fixedSizes i) 30
  codes c lengths distances c.fuel

def order : List Nat := [16, 17, 18, 0, 8, 7, 9, 6, 10, 5, 11, 4, 12, 3, 13, 2, 14, 1, 15]

/-- The sizes of the code of the sizes, from `index` on, with `left` of them left. -/
def readOrder (c : Entry) : (left index : Nat) → (Nat → Nat) → Decoder (Nat → Nat)
  | 0, _, sizes => pure sizes
  | left + 1, index, sizes => do
      let value ← need c 3
      let place ← entryOf order index
      readOrder c left (index + 1) (update sizes place value)

/-- `while (times-- > 0) sizes[index++] = repeat`. -/
def repeatSize (sizes : Nat → Nat) (index size : Nat) : Nat → Decoder (Nat → Nat)
  | 0 => pure sizes
  | times + 1 =>
    if 320 ≤ index then throw .outside
    else repeatSize (update sizes index size) (index + 1) size times

/-- What a symbol above 15 repeats, and how often. -/
def readRepeat (c : Entry) (symbol index : Nat) (sizes : Nat → Nat) : Decoder (Nat × Nat) :=
  if symbol = 16 then
    if index = 0 then throw .broken
    else do
      let times ← need c 2
      pure (sizes (index - 1), times + 3)
  else if symbol = 17 then do
    let times ← need c 3
    pure (0, times + 3)
  else do
    let times ← need c 7
    pure (0, times + 11)

/-- The sizes of the codes of a dynamic block, from `index` on. -/
def readSizes (c : Entry) (lengths : Huffman) (total : Nat) :
    Nat → (index : Nat) → (Nat → Nat) → Decoder (Nat → Nat)
  | 0, _, _ => throw .endless
  | fuel + 1, index, sizes =>
    if index < total then do
      let symbol ← decode c lengths
      if symbol < 16 then
        if 320 ≤ index then throw .outside
        else readSizes c lengths total fuel (index + 1) (update sizes index symbol)
      else do
        let (size, times) ← readRepeat c symbol index sizes
        if index + times > total then throw .broken
        else do
          let sizes ← repeatSize sizes index size times
          readSizes c lengths total fuel (index + times) sizes
    else pure sizes

/-- `dynamic`. -/
def dynamic (c : Entry) : Decoder Unit := do
  let nlen := (← need c 5) + 257
  let ndist := (← need c 5) + 1
  let ncode := (← need c 4) + 4
  if nlen > 286 ∨ ndist > 30 then throw .broken
  else do
    let sizes ← readOrder c ncode 0 fun _ => 0
    let (ok, lengths) ← construct sizes 19
    if !ok then throw .broken
    else do
      let sizes ← readSizes c lengths (nlen + ndist) (nlen + ndist + 1) 0 sizes
      let (ok, lengths) ← construct sizes nlen
      if !ok then throw .broken
      else do
        let (ok, distances) ← construct (fun i => sizes (nlen + i)) ndist
        if !ok then throw .broken
        else codes c lengths distances c.fuel

/-- A field of two bytes of the input. -/
def field16 (c : Entry) (i : Nat) : Decoder Nat :=
  match get16 c.input i with
  | none => throw .outside
  | some v => pure v

/-- `stored`. -/
def stored (c : Entry) : Decoder Unit := do
  let s ← get
  set { s with bits := 0, held := 0 }
  if s.at_ + 4 > c.input.length then throw .broken
  else do
    let length ← field16 c s.at_
    let check ← field16 c (s.at_ + 2)
    if length ≠ 65535 - check then throw .broken
    else do
      set { s with bits := 0, held := 0, at_ := s.at_ + 4 }
      if s.at_ + 4 + length > c.input.length then throw .broken
      else do
        emit c ((c.input.drop (s.at_ + 4)).take length)
        let s ← get
        set { s with at_ := s.at_ + length }

/-- A block of the type. -/
def block (c : Entry) (type : Nat) : Decoder Unit :=
  if type = 0 then stored c
  else if type = 1 then fixed c
  else if type = 2 then dynamic c
  else throw .broken

/-- The blocks of `inflate`. -/
def blocks (c : Entry) : Nat → Decoder Unit
  | 0 => throw .endless
  | fuel + 1 => do
      let last ← need c 1
      let type ← need c 2
      block c type
      if last = 0 then blocks c fuel else pure ()

/-- `inflate`: the bytes of the input, decoded after the text `out`. -/
def inflate (input : List UInt8) (limit : Nat) (out : List UInt8) :
    EStateM.Result Stop Inflate Unit :=
  let c : Entry := ⟨input, out.length, limit⟩
  blocks c c.fuel ⟨0, 0, 0, out⟩

end AnticZip
