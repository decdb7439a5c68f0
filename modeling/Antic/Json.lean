import Antic.JsonGrammar

/-! # The JSON scanner — `json.c`

    A scanner is the bytes from `at` to `end`.  A read of `*s->at` where no byte is left stops with
    `outside`, and a loop without a bound of its own has fuel and stops with `endless`; the proofs
    show that neither happens.

    A function gives whether it succeeded and the scanner that it leaves, also where it fails. -/

namespace AnticJson

/-- What a run of the scanner must not come to. -/
inductive Stop where
  /-- A read outside of an array. -/
  | outside
  /-- A loop runs out of fuel. -/
  | endless
deriving DecidableEq, Repr

/-- Whether a step of the scanner succeeded, and what it left. -/
abbrev Scan := Except Stop (Bool × Bytes)

/-- `s->at < s->end`. -/
def more (s : Bytes) : Bool := !s.isEmpty

/-- `*s->at`. -/
def read : Bytes → Except Stop UInt8
  | [] => .error .outside
  | c :: _ => .ok c

/-- `s->at++`. -/
def past (s : Bytes) : Bytes := s.tail

/-- `ANTI_JSON_DEPTH`. -/
def jsonDepth : Nat := 64

/-- `x && y`. -/
def andThen (x : Scan) (y : Bytes → Scan) : Scan := do
  let (ok, s) ← x
  if ok then y s else return (false, s)

/-- `x || y`. -/
def orElse (x : Scan) (y : Bytes → Scan) : Scan := do
  let (ok, s) ← x
  if ok then return (true, s) else y s

/-! ## Tokens -/

/-- A loop over the bytes that come next and that `p` holds of. -/
def whileLoop (p : UInt8 → Bool) : (fuel : Nat) → Bytes → Except Stop Bytes
  | 0, _ => .error .endless
  | fuel + 1, s =>
    if more s then do
      if p (← read s) then whileLoop p fuel (past s) else return s
    else return s

/-- `anti_rt_json_space`. -/
def jsonSpace (s : Bytes) : Except Stop Bytes := whileLoop isWs (s.length + 1) s

/-- `anti_rt_json_take`. -/
def jsonTake (c : UInt8) (s : Bytes) : Scan := do
  let s ← jsonSpace s
  if more s then do
    if (← read s) == c then return (true, past s) else return (false, s)
  else return (false, s)

/-- The first `n` bytes at the scanner. -/
def readMany : (n : Nat) → Bytes → Except Stop Bytes
  | 0, _ => .ok []
  | n + 1, s => do
      let c ← read s
      return c :: (← readMany n (past s))

/-- `anti_rt_json_word`. -/
def jsonWord (word s : Bytes) : Scan := do
  let s ← jsonSpace s
  if word.length ≤ s.length then do
    if (← readMany word.length s) == word then return (true, s.drop word.length)
    else return (false, s)
  else return (false, s)

/-! ## Strings -/

/-- `struct sink`. -/
structure Sink where
  out : Option Bytes
  against : Option Bytes
  room : Nat
  length : Nat
  same : Bool

/-- `k->against[k->length] != b`, where `length` is below `room`. -/
def differs (against : Bytes) (length : Nat) (b : UInt8) : Except Stop Bool := do
  return (← read (against.drop length)) != b

/-- `put_byte`. -/
def putByte (k : Sink) (b : UInt8) : Except Stop (Bool × Sink) := do
  if k.out.isSome && k.room ≤ k.length then return (false, k)
  else
    let different ← (match k.against with
       | none => .ok false
       | some against => if k.room ≤ k.length then .ok true else differs against k.length b)
    return (true, { k with
      out := k.out.map (· ++ [b])
      same := k.same && !different
      length := k.length + 1 })

/-- Put bytes one after the other, up to the first that is refused. -/
def putBytes : Sink → Bytes → Except Stop (Bool × Sink)
  | k, [] => .ok (true, k)
  | k, b :: bs => do
      let (ok, k) ← putByte k b
      if ok then putBytes k bs else return (false, k)

/-- `hex_digit`. -/
def hexDigit (c : UInt8) : Int :=
  if 48 ≤ c && c ≤ 57 then c.toNat - 48
  else if 97 ≤ c && c ≤ 102 then c.toNat - 97 + 10
  else if 65 ≤ c && c ≤ 70 then c.toNat - 65 + 10
  else -1

/-- The loop over the four digits of a `\u` escape, with the digits that are left. -/
def readHex : (left : Nat) → (code : Nat) → Bytes → Except Stop (Option Nat × Bytes)
  | 0, code, s => .ok (some code, s)
  | left + 1, code, s =>
    if more s then do
      let d := hexDigit (← read s)
      if d < 0 then return (none, past s)
      else readHex left (code * 16 + d.toNat) (past s)
    else return (none, s)

/-- `anti_rt_utf8_encode`. -/
def utf8Encode (c : Nat) : Bytes :=
  if c < 0x80 then [UInt8.ofNat c]
  else if c < 0x800 then [UInt8.ofNat (0xC0 ||| c >>> 6), UInt8.ofNat (0x80 ||| (c &&& 0x3F))]
  else if c < 0x10000 then
    [UInt8.ofNat (0xE0 ||| c >>> 12), UInt8.ofNat (0x80 ||| (c >>> 6 &&& 0x3F)),
     UInt8.ofNat (0x80 ||| (c &&& 0x3F))]
  else
    [UInt8.ofNat (0xF0 ||| c >>> 18), UInt8.ofNat (0x80 ||| (c >>> 12 &&& 0x3F)),
     UInt8.ofNat (0x80 ||| (c >>> 6 &&& 0x3F)), UInt8.ofNat (0x80 ||| (c &&& 0x3F))]

/-- The byte that an escape other than `\u` gives. -/
def escapeByte (c : UInt8) : Option UInt8 :=
  if c == quote || c == backslash || c == slash then some c
  else if c == 98 then some 8
  else if c == 102 then some 12
  else if c == 110 then some 10
  else if c == 114 then some 13
  else if c == 116 then some 9
  else none

/-- The bytes of an escape behind its backslash, or none where it is refused. -/
def readEscape (s : Bytes) : Except Stop (Option Bytes × Bytes) :=
  if more s then do
    let c ← read s
    if c == 117 then do
      let (code, s) ← readHex 4 0 (past s)
      return ((code.filter fun code => !(0xD800 ≤ code && code ≤ 0xDFFF)).map utf8Encode, s)
    else return ((escapeByte c).map fun e => [e], past s)
  else return (none, s)

/-- The loop of `read_string`, and the closing quote. -/
def stringLoop : (fuel : Nat) → Bytes → Sink → Except Stop (Bool × Bytes × Sink)
  | 0, _, _ => .error .endless
  | fuel + 1, s, k =>
    if more s then do
      let c ← read s
      if c == quote then return (true, past s, k)
      else if c < 0x20 then return (false, past s, k)
      else do
        let (bytes, s) ← (if c == backslash then readEscape (past s) else .ok (some [c], past s))
        match bytes with
        | none => return (false, s, k)
        | some bytes => do
            let (ok, k) ← putBytes k bytes
            if ok then stringLoop fuel s k else return (false, s, k)
    else return (false, s, k)

/-- `read_string`. -/
def readString (s : Bytes) (k : Sink) : Except Stop (Bool × Bytes × Sink) := do
  let (ok, s) ← jsonTake quote s
  if ok then stringLoop (s.length + 1) s k else return (false, s, k)

/-- A sink that keeps nothing. -/
def noSink : Sink := { out := none, against := none, room := 0, length := 0, same := true }

/-- `anti_rt_json_string` without room for the bytes. -/
def jsonString (s : Bytes) : Scan := do
  let (ok, s, _) ← readString s noSink
  return (ok, s)

/-- `anti_rt_json_key`, with `same`. -/
def jsonKey (s name : Bytes) : Except Stop (Bool × Bool × Bytes) := do
  let (ok, s, k) ← readString s { noSink with against := some name, room := name.length }
  return (ok, ok && k.same && k.length == name.length, s)

/-! ## Numbers -/

/-- A byte of a number. -/
def isNumberByte (c : UInt8) : Bool :=
  isDigit c || c == minusSign || c == plusSign || c == point || isExp c

/-- `anti_rt_json_number`: the bytes that may form a number. -/
def jsonNumber (s : Bytes) : Except Stop (Bool × Bytes × Bytes) := do
  let start ← jsonSpace s
  let s ← whileLoop isNumberByte (start.length + 1) start
  let number ← readMany (start.length - s.length) start
  return (0 < number.length, number, s)

/-- `digits`. -/
def digits (p : Bytes) : Scan := do
  let s ← whileLoop isDigit (p.length + 1) p
  return (s.length < p.length, s)

/-- Whether the byte comes next, where there is one. -/
def nextIs (p : UInt8 → Bool) (s : Bytes) : Except Stop Bool :=
  if more s then do return p (← read s) else return false

/-- The integer part of a number. -/
def validInt (s : Bytes) : Scan := do
  if ← nextIs (· == zero) s then return (true, past s) else digits s

/-- The fraction of a number, where a point comes next. -/
def validFrac (s : Bytes) : Scan := do
  if ← nextIs (· == point) s then digits (past s) else return (true, s)

/-- The exponent of a number, where one comes next. -/
def validExp (s : Bytes) : Scan := do
  if ← nextIs isExp s then
    if ← nextIs (fun c => c == plusSign || c == minusSign) (past s) then digits (past (past s))
    else digits (past s)
  else return (true, s)

/-- `anti_rt_json_valid_number`. -/
def validNumber (p : Bytes) : Except Stop Bool := do
  if p.length ≤ 0 then return false
  else
    let s := if (← read p) == minusSign then past p else p
    let (ok, s) ← andThen (andThen (validInt s) validFrac) validExp
    return ok && !more s

/-- The loop of `magnitude_of`. -/
def magnitudeLoop (limit : UInt64) : UInt64 → Bytes → Option UInt64
  | magnitude, [] => some magnitude
  | magnitude, c :: s =>
    if c < 48 || 57 < c then none
    else
      let d := (c - 48).toUInt64
      if (limit - d) / 10 < magnitude then none
      else magnitudeLoop limit (magnitude * 10 + d) s

/-- `magnitude_of`. -/
def magnitudeOf (p : Bytes) (limit : UInt64) : Except Stop (Option UInt64) := do
  if ← validNumber p then
    return magnitudeLoop limit 0 (if (← read p) == minusSign then past p else p)
  else return none

/-- `INT64_MAX`, as a `uint64_t`. -/
def int64Max : UInt64 := 0x7FFFFFFFFFFFFFFF

/-- `anti_rt_json_integer`. -/
def jsonInteger (p : Bytes) : Except Stop (Option Int) := do
  let negative := p.head? == some minusSign
  match ← magnitudeOf p (if negative then int64Max + 1 else int64Max) with
  | none => return none
  | some magnitude =>
    if !negative then return some magnitude.toNat
    else if magnitude == int64Max + 1 then return some (-0x8000000000000000)
    else return some (-(magnitude.toNat : Int))

/-- `anti_rt_json_unsigned`. -/
def jsonUnsigned (p : Bytes) : Except Stop (Option UInt64) := do
  match ← magnitudeOf p 0xFFFFFFFFFFFFFFFF with
  | none => return none
  | some magnitude =>
    if (← read p) == minusSign && magnitude != 0 then return none else return some magnitude

/-! ## Values -/

mutual

/-- `anti_rt_json_skip`. -/
def jsonSkip : (fuel depth : Nat) → Bytes → Scan
  | 0, _, _ => .error .endless
  | fuel + 1, depth, s =>
    if jsonDepth < depth then return (false, s)
    else do
      let s ← jsonSpace s
      if !more s then return (false, s)
      else do
        let c ← read s
        if c == quote then jsonString s
        else if c == openBrace then
          orElse (jsonTake closeBrace (past s)) (membersLoop fuel depth)
        else if c == openBracket then
          orElse (jsonTake closeBracket (past s)) (elementsLoop fuel depth)
        else
          orElse (orElse (orElse (jsonWord [116, 114, 117, 101] s)
            (jsonWord [102, 97, 108, 115, 101])) (jsonWord [110, 117, 108, 108])) fun s => do
              let (ok, number, s) ← jsonNumber s
              if ok then return (← validNumber number, s) else return (false, s)

/-- The loop over the members of an object, and its closing brace. -/
def membersLoop : (fuel depth : Nat) → Bytes → Scan
  | 0, _, _ => .error .endless
  | fuel + 1, depth, s =>
    andThen (andThen (andThen (jsonString s) (jsonTake colon)) (jsonSkip fuel (depth + 1)))
      fun s => do
        let (again, s) ← jsonTake comma s
        if again then membersLoop fuel depth s else jsonTake closeBrace s

/-- The loop over the elements of an array, and its closing bracket. -/
def elementsLoop : (fuel depth : Nat) → Bytes → Scan
  | 0, _, _ => .error .endless
  | fuel + 1, depth, s =>
    andThen (jsonSkip fuel (depth + 1) s) fun s => do
      let (again, s) ← jsonTake comma s
      if again then elementsLoop fuel depth s else jsonTake closeBracket s

end

/-- Turns for every byte of a text. -/
def turnsOf (s : Bytes) : Nat := 2 * s.length + 2

/-- `anti_rt_json_value`. -/
def jsonValue (s : Bytes) : Except Stop Bool := do
  let (ok, s) ← jsonSkip (turnsOf s) 0 s
  if ok then return !more (← jsonSpace s) else return false

/-- The loop of `anti_rt_json_member`: where the value starts, and its length. -/
def memberLoop (source name : Bytes) : (fuel : Nat) → Bytes → Except Stop (Option (Nat × Nat))
  | 0, _ => .error .endless
  | fuel + 1, s => do
      let (ok, same, s) ← jsonKey s name
      if !ok then return none
      else
        let (ok, s) ← jsonTake colon s
        if !ok then return none
        else
          let start ← jsonSpace s
          let (ok, s) ← jsonSkip (turnsOf start) 1 start
          if !ok then return none
          else if same then return some (source.length - start.length, start.length - s.length)
          else
            let (again, s) ← jsonTake comma s
            if again then memberLoop source name fuel s else return none

/-- `anti_rt_json_member`.  A source that is NULL, a length below 0, and a name that is NULL
    with a length above 0 are `none`, and are refused. -/
def jsonMember : Option Bytes → Option Bytes → Except Stop (Option (Nat × Nat))
  | some source, some name => do
      let whole ← jsonSpace source
      if !more whole then return none
      else if (← read whole) != openBrace then return none
      else if !(← jsonValue whole) then return none
      else
        let (ok, s) ← jsonTake openBrace source
        if !ok then return none
        else
          let (empty, s) ← jsonTake closeBrace s
          if empty then return none else memberLoop source name (source.length + 1) s
  | _, _ => .ok none

end AnticJson
