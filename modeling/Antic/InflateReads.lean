import Antic.Deflate
import Antic.InflateProofs

/-! # The bits that the decoder of deflate takes

    `At c s pending` says which bits a state has before it: those that it holds, and those
    of the bytes that it has not read.  `Reads` says that a function takes bits that it
    finds, whatever comes behind them, and gives a value and a text for them; the rules
    follow the program, and the functions of the decoder come one after the other. -/

namespace AnticZip

open BitStreams CanonicalCodes Deflate List Function Nat

/-- The decoder has these bits before it. -/
structure At (c : Entry) (s : Inflate) (pending : List Bool) : Prop where
  at_le : s.at_ ≤ c.input.length
  held : s.held < 8
  bits : s.bits < 2 ^ s.held
  pending : lowBits s.held s.bits ++ bitsOf (c.input.drop s.at_) = pending

/-- Where `code` comes next, `x` takes it, gives `v` and makes `text` of the text `out`. -/
def Reads (c : Entry) {α : Type} (x : Decoder α) (out : List UInt8) (code : List Bool) (v : α)
    (text : List UInt8) : Prop :=
  ∀ s rest, At c s (code ++ rest) → s.out = out →
    ∃ s', x s = .ok v s' ∧ At c s' rest ∧ s'.out = text

section Reads

variable {c : Entry} {α β : Type} {out text text' : List UInt8} {code code' : List Bool}

theorem Reads.pure (v : α) : Reads c (Pure.pure v : Decoder α) out [] v out := by
  intro s rest hs hout
  exact ⟨s, rfl, hs, hout⟩

variable {x : Decoder α} {f : α → Decoder β}

theorem Reads.bind {v : α} {w : β} (hx : Reads c x out code v text)
    (hf : Reads c (f v) text code' w text') : Reads c (x >>= f) out (code ++ code') w text' := by
  intro s rest hs hout
  rw [append_assoc] at hs
  obtain ⟨s₁, hx, hs₁, hout₁⟩ := hx s _ hs hout
  obtain ⟨s₂, hf, hs₂, hout₂⟩ := hf s₁ rest hs₁ hout₁
  refine ⟨s₂, ?_, hs₂, hout₂⟩
  show EStateM.bind x f s = _
  rw [EStateM.bind, hx]
  exact hf

theorem Reads.last {v : α} {w : β} (hx : Reads c x out code v text)
    (hf : Reads c (f v) text [] w text') : Reads c (x >>= f) out code w text' := by
  have hbind := hx.bind hf
  rw [append_nil] at hbind
  exact hbind

theorem Reads.first {v : α} {w : β} (hx : Reads c x out [] v text)
    (hf : Reads c (f v) text code w text') :
    Reads c (x >>= f) out code w text' := hx.bind hf

theorem Reads.bind_pure {v : α} {w : β} (hx : x = Pure.pure v)
    (hf : Reads c (f v) out code w text) : Reads c (x >>= f) out code w text := by
  rw [hx, pure_bind]
  exact hf

theorem Reads.get {f : Inflate → Decoder β} {w : β}
    (h : ∀ s, s.out = out → Reads c (f s) out code w text) :
    Reads c (MonadState.get >>= f) out code w text := by
  intro s rest hs hout
  exact h s hout s rest hs hout

end Reads

-- ── Bits ────

theorem at_push {c : Entry} {s : Inflate} (hbits : s.bits < 2 ^ s.held)
    (hlt : s.at_ < c.input.length) {byte : UInt8} (hbyte : c.input[s.at_]? = some byte) :
    s.bits ||| byte.toNat <<< s.held < 2 ^ (s.held + 8) ∧
      lowBits (s.held + 8) (s.bits ||| byte.toNat <<< s.held) ++ bitsOf (c.input.drop (s.at_ + 1))
        = lowBits s.held s.bits ++ bitsOf (c.input.drop s.at_) := by
  have hor : s.bits ||| byte.toNat <<< s.held = s.bits + byte.toNat * 2 ^ s.held := by
    rw [shiftLeft_eq, lor_comm, Nat.mul_comm, ← two_pow_add_eq_or_of_lt hbits, Nat.add_comm]
  have hget : c.input[s.at_] = byte := by
    rw [getElem?_eq_getElem hlt] at hbyte
    exact Option.some.inj hbyte
  rw [hor]
  refine ⟨?_, ?_⟩
  · have hbound : (byte.toNat + 1) * 2 ^ s.held ≤ 2 ^ 8 * 2 ^ s.held :=
      Nat.mul_le_mul_right _ byte.toNat_lt
    rw [succ_mul, ← pow_add, Nat.add_comm 8] at hbound
    omega
  · rw [lowBits_add _ _ _ _ hbits, append_assoc, ← bitsOf_cons, ← hget, ← drop_eq_getElem_cons hlt]

theorem fill_reads {c : Entry} (n turns : Nat) {s : Inflate} (hat : s.at_ ≤ c.input.length)
    (hheld : s.held < n + 8) (hbits : s.bits < 2 ^ s.held) (hturns : n ≤ s.held + 8 * turns)
    (hn : n ≤ s.held + 8 * (c.input.length - s.at_)) :
    ∃ s', fill c n (turns + 1) s = .ok () s' ∧ s'.at_ ≤ c.input.length ∧ s'.held < n + 8 ∧
      n ≤ s'.held ∧ s'.bits < 2 ^ s'.held ∧ s'.out = s.out ∧
      lowBits s'.held s'.bits ++ bitsOf (c.input.drop s'.at_)
        = lowBits s.held s.bits ++ bitsOf (c.input.drop s.at_) := by
  induction turns generalizing s with
  | zero =>
    have hge : ¬ s.held < n := Nat.not_lt.mpr (by omega)
    refine ⟨s, ?_, hat, hheld, Nat.not_lt.mp hge, hbits, rfl, rfl⟩
    show (if s.held < n then _ else Pure.pure () : Decoder Unit) s = _
    rw [if_neg hge]
    rfl
  | succ turns ih =>
    by_cases hlt : s.held < n
    · have hmore : s.at_ < c.input.length := by omega
      obtain ⟨byte, hbyte⟩ := ByteFields.exists_byte hmore
      obtain ⟨hbits', hpending⟩ := at_push hbits hmore hbyte
      obtain ⟨s', hrun, hrest⟩ := ih (s := { s with bits := s.bits ||| byte.toNat <<< s.held
                                                    at_ := s.at_ + 1
                                                    held := s.held + 8 })
        hmore (Nat.add_lt_add_right hlt 8) hbits' (by show n ≤ s.held + 8 + 8 * turns; omega)
        (by show n ≤ s.held + 8 + 8 * (c.input.length - (s.at_ + 1)); omega)
      rw [hpending] at hrest
      refine ⟨s', ?_, hrest⟩
      rw [← hrun]
      show (if s.held < n then _ else Pure.pure () : Decoder Unit) s = _
      rw [if_pos hlt, if_neg (Nat.ne_of_lt hmore), hbyte]
      rfl
    · refine ⟨s, ?_, hat, hheld, Nat.not_lt.mp hlt, hbits, rfl, rfl⟩
      show (if s.held < n then _ else Pure.pure () : Decoder Unit) s = _
      rw [if_neg hlt]
      rfl

/-- **`need`** takes a number of so many bits. -/
theorem need_reads {c : Entry} {out : List UInt8} (n : Nat) {v : Nat} (hv : v < 2 ^ n) :
    Reads c (need c n) out (lowBits n v) v out := by
  intro s rest hs hout
  have hlen := congrArg List.length hs.pending
  rw [length_append, length_append, length_lowBits, length_lowBits, length_bitsOf,
    length_drop] at hlen
  obtain ⟨s', hrun, hat, hheld, hn, hbits, hout', hpending⟩ := fill_reads (c := c) n n hs.at_le
    (Nat.lt_of_lt_of_le hs.held (Nat.le_add_left 8 n)) hs.bits (by omega) (by omega)
  rw [hs.pending, lowBits_split hn, append_assoc] at hpending
  have hparts := append_inj hpending (by rw [length_lowBits, length_lowBits])
  have hvalue : s'.bits % 2 ^ n = v := lowBits_inj (mod_lt _ (Nat.two_pow_pos n)) hv hparts.1
  refine ⟨{ s' with bits := s'.bits >>> n, held := s'.held - n }, ?_, ?_, hout'.trans hout⟩
  · show EStateM.bind (fill c n (n + 1)) _ s = _
    rw [EStateM.bind, hrun]
    show EStateM.Result.ok (s'.bits &&& (1 <<< n - 1)) _ = _
    rw [one_shiftLeft, and_two_pow_sub_one_eq_mod, hvalue]
  · rw [shiftRight_eq_div_pow]
    refine ⟨hat, ?_, ?_, hparts.2⟩
    · show s'.held - n < 8
      omega
    · show s'.bits / 2 ^ n < 2 ^ (s'.held - n)
      rw [Nat.div_lt_iff_lt_mul (Nat.two_pow_pos n), ← pow_add, Nat.sub_add_cancel hn]
      exact hbits

theorem need_bit {c : Entry} {out : List UInt8} (b : Bool) :
    Reads c (need c 1) out [b] b.toNat out := by
  have hbit : Reads c (need c 1) out (lowBits 1 b.toNat) b.toNat out :=
    need_reads 1 (by cases b <;> decide)
  cases b <;> exact hbit

-- ── Tables ────

/-- The table holds each symbol at the place of its code. -/
structure Table (h : Huffman) (lengths : Nat → Nat) (n : Nat) : Prop where
  count : h.count = tally lengths n
  symbol : ∀ i, i < n → lengths i ≠ 0 →
    offsetsOf h.count (lengths i) + tally lengths i (lengths i) < 288 ∧
      h.symbol (offsetsOf h.count (lengths i) + tally lengths i (lengths i)) = some i

section Table

variable {lengths : Nat → Nat} {n : Nat}

theorem countOf_eq (lengths : Nat → Nat) (n : Nat) : countOf lengths n = tally lengths n := by
  induction n with
  | zero => rfl
  | succ n ih =>
    funext l
    rw [countOf, ih, tally_succ]
    by_cases hl : lengths n = l
    · rw [if_pos hl, hl, update_self]
    · rw [if_neg hl, update_of_ne (Ne.symm hl)]
      rfl

theorem fitsCode_of_fits {count : Nat → Nat} {max : Nat} (hfits : Fits count max) (k i : Nat)
    {left : Int} (hi : 1 ≤ i) (hmax : i + k ≤ max + 1)
    (hleft : 2 * left = 2 ^ i - firstCode count i) : fitsCode count k i left = true := by
  induction k generalizing i left with
  | zero => rfl
  | succ k ih =>
    have hle : (firstCode count i + count i : Int) ≤ 2 ^ i := by
      exact_mod_cast hfits i hi (by omega)
    have hnext : (firstCode count (i + 1) : Int) = (firstCode count i + count i) * 2 := by
      exact_mod_cast firstCode_succ count hi
    rw [fitsCode, if_neg (Int.not_lt.mpr (by omega))]
    refine ih (i + 1) (le_succ_of_le hi) (by omega) ?_
    omega

/-- Symbols of one length stand one after the other, and those of two lengths apart. -/
theorem place_ne {i : Nat} (hi : i < n) (hpos : lengths i ≠ 0) {m : Nat} (hnm : n < m)
    (hn : lengths n ≠ 0) :
    offsetsOf (tally lengths m) (lengths i) + tally lengths i (lengths i)
      ≠ offsetsOf (tally lengths m) (lengths n) + tally lengths n (lengths n) := by
  have hone : 1 ≤ lengths i := Nat.pos_of_ne_zero hpos
  have hone' : 1 ≤ lengths n := Nat.pos_of_ne_zero hn
  have hsucc := offsetsOf_succ (tally lengths m) hone
  have hsucc' := offsetsOf_succ (tally lengths m) hone'
  have hlt := tally_lt lengths (Nat.lt_trans hi hnm)
  have hlt' := tally_lt lengths hnm
  rcases Nat.lt_trichotomy (lengths i) (lengths n) with hl | hl | hl
  · have hmono : offsetsOf (tally lengths m) (lengths i + 1) ≤ offsetsOf (tally lengths m) (lengths n) :=
      offsetsOf_mono _ (le_succ_of_le hone) hl
    omega
  · have hsame := tally_lt lengths hi
    rw [hl] at hsame ⊢
    omega
  · have hmono : offsetsOf (tally lengths m) (lengths n + 1) ≤ offsetsOf (tally lengths m) (lengths i) :=
      offsetsOf_mono _ (le_succ_of_le hone') hl
    omega

/-- `construct` puts each symbol where the codes of its length stand. -/
theorem placeSymbols_exact {m : Nat} (hlt : ∀ i, i < m → lengths i < 16) (hm : m ≤ 288)
    (hnm : n ≤ m) :
    ∃ offsets symbol, placeSymbols lengths (offsetsOf (countOf lengths m)) n =
        pure (offsets, symbol) ∧
      (∀ l, 1 ≤ l → offsets l = offsetsOf (tally lengths m) l + tally lengths n l) ∧
      ∀ i, i < n → lengths i ≠ 0 →
        symbol (offsetsOf (tally lengths m) (lengths i) + tally lengths i (lengths i)) = some i := by
  induction n with
  | zero =>
    refine ⟨_, _, rfl, ?_, ?_⟩
    · intro l _
      rw [countOf_eq]
      rfl
    · intro i hi
      cases hi
  | succ n ih =>
    obtain ⟨offsets, symbol, heq, hoffsets, hsymbol⟩ := ih (le_of_succ_le hnm)
    rw [placeSymbols, heq, pure_bind]
    by_cases hzero : lengths n = 0
    · refine ⟨offsets, symbol, if_pos hzero, ?_, ?_⟩
      · intro l hl
        have hne : ¬ lengths n = l := fun h => by omega
        rw [hoffsets l hl, tally_succ, if_neg hne]
        rfl
      · intro i hi hpos
        rcases Nat.lt_succ_iff_lt_or_eq.mp hi with hi | rfl
        · exact hsymbol i hi hpos
        · exact absurd hzero hpos
    · have hone : 1 ≤ lengths n := Nat.pos_of_ne_zero hzero
      have hn := hoffsets (lengths n) hone
      have hplace : offsets (lengths n) < 288 := by
        have htotal := offsetsOf_countOf_le lengths m (lengths n)
        have hnext := offsetsOf_succ (tally lengths m) hone
        have hcount := tally_lt lengths hnm
        rw [countOf_eq] at htotal
        omega
      have hnot : ¬ (16 ≤ lengths n ∨ 288 ≤ offsets (lengths n)) := by
        rintro (h | h)
        · exact absurd (hlt n hnm) (Nat.not_lt.mpr h)
        · exact absurd hplace (Nat.not_lt.mpr h)
      refine ⟨update offsets (lengths n) (offsets (lengths n) + 1),
        update symbol (offsets (lengths n)) (some n),
        (if_neg hzero).trans (if_neg hnot), ?_, ?_⟩
      · intro l hl
        rw [tally_succ]
        by_cases hln : lengths n = l
        · subst hln
          rw [update_self, if_pos rfl, hn, Nat.add_assoc]
        · rw [update_of_ne (Ne.symm hln), if_neg hln, hoffsets l hl]
          rfl
      · intro i hi hpos
        rcases Nat.lt_succ_iff_lt_or_eq.mp hi with hi | rfl
        · rw [update_of_ne, hsymbol i hi hpos]
          rw [hn]
          exact place_ne hi hpos hnm hzero
        · rw [hn, update_self]

/-- **`construct`** makes the table of every code. -/
theorem construct_table (hlengths : Lengths lengths n) (hn : n ≤ 288) :
    ∃ h, construct lengths n = pure (true, h) ∧ Table h lengths n := by
  have hlt : ∀ i, i < n → lengths i < 16 := fun i hi => lt_succ_of_le (hlengths.le i hi)
  have hfits := fits_of_kraft (by decide) hlengths.le hlengths.share
  have hcode : fitsCode (countOf lengths n) 15 1 1 = true := by
    rw [countOf_eq]
    exact fitsCode_of_fits hfits 15 1 (Nat.le_refl 1) (Nat.le_refl _) rfl
  obtain ⟨offsets, symbol, heq, -, hsymbol⟩ := placeSymbols_exact hlt hn (Nat.le_refl n)
  refine ⟨⟨countOf lengths n, symbol⟩, ?_, countOf_eq lengths n, ?_⟩
  · rw [construct, countLengths_eq hlt, pure_bind, if_pos hcode, heq, pure_bind]
  · intro i hi hpos
    rw [countOf_eq]
    refine ⟨?_, hsymbol i hi hpos⟩
    show offsetsOf (tally lengths n) (lengths i) + tally lengths i (lengths i) < 288
    have htotal := offsetsOf_countOf_le lengths n (lengths i)
    have hone : 1 ≤ lengths i := Nat.pos_of_ne_zero hpos
    have hnext := offsetsOf_succ (tally lengths n) hone
    have hcount := tally_lt lengths hi
    rw [countOf_eq] at htotal
    omega

end Table

-- ── Symbols ────

theorem next_bits (v k : Nat) :
    v / 2 ^ (k + 1) * 2 ||| (v / 2 ^ k % 2 == 1).toNat = v / 2 ^ k := by
  have hbit : (v / 2 ^ k % 2 == 1).toNat = v / 2 ^ k % 2 := by
    rcases mod_two_eq_zero_or_one (v / 2 ^ k) with h | h <;> rw [h] <;> rfl
  have hhalf : v / 2 ^ (k + 1) = v / 2 ^ k / 2 := by rw [pow_succ, Nat.div_div_eq_div_mul]
  have hor := two_pow_add_eq_or_of_lt (i := 1) (mod_lt (v / 2 ^ k) (by decide)) (v / 2 ^ k / 2)
  rw [pow_one, div_add_mod] at hor
  rw [hbit, hhalf, Nat.mul_comm, ← hor]

theorem highBits_rest (v k : Nat) : highBits (k + 1) (v % 2 ^ (k + 1))
    = [v / 2 ^ k % 2 == 1] ++ highBits k (v % 2 ^ k) := by
  have hhigh : v % 2 ^ (k + 1) / 2 ^ k % 2 = v / 2 ^ k % 2 := by
    rw [pow_succ, mod_mul_right_div_self, mod_mod]
  have hlow : v % 2 ^ (k + 1) % 2 ^ k = v % 2 ^ k := mod_mod_of_dvd v (pow_dvd_pow 2 (le_succ k))
  rw [highBits_succ, hhigh, hlow]
  rfl

/-- The loop of `decode` takes the rest of a code, which begins with the bits so far. -/
theorem decodeFrom_reads {c : Entry} {out : List UInt8} {h : Huffman} {lengths : Nat → Nat}
    {n i : Nat} (htable : Table h lengths n) (hi : i < n)
    (hmax : lengths i ≤ 15) (k : Nat) {l : Nat} (hl : 1 ≤ l) (hk : l + k = lengths i) :
    Reads c (decodeFrom c h (16 - l) l (code lengths n i / 2 ^ (k + 1) * 2)
        (firstCode (tally lengths n) l) (offsetsOf h.count l)) out
      (highBits (k + 1) (code lengths n i % 2 ^ (k + 1))) i out := by
  have hcount := congrFun htable.count l
  induction k generalizing l with
  | zero =>
    obtain rfl : l = lengths i := hk
    obtain ⟨hplace, hsymbol⟩ := htable.symbol i hi (Nat.ne_of_gt hl)
    have hend : code lengths n i < firstCode (tally lengths n) (lengths i)
        + tally lengths n (lengths i) := code_lt_end hi
    have hread : h.read (offsetsOf h.count (lengths i)
        + ((code lengths n i : Int) - firstCode (tally lengths n) (lengths i))) = pure i := by
      have hint : (offsetsOf h.count (lengths i)
          + ((code lengths n i : Int) - firstCode (tally lengths n) (lengths i)))
          = ((offsetsOf h.count (lengths i) + tally lengths i (lengths i) : Nat) : Int) := by
        rw [code]
        push_cast
        ring
      rw [hint, Huffman.read, if_pos (by omega), Int.toNat_natCast, hsymbol]
    have hturn : 16 - lengths i = (15 - lengths i) + 1 := by omega
    rw [hturn, highBits_rest, decodeFrom]
    refine (need_bit _).bind ?_
    rw [next_bits, hcount, pow_zero, Nat.div_one, if_pos (by omega), hread]
    exact Reads.pure i
  | succ k ih =>
    have hbehind : firstCode (tally lengths n) l + tally lengths n l
        ≤ code lengths n i / 2 ^ (lengths i - l) := code_shift hl (by omega)
    have hsub : lengths i - l = k + 1 := by omega
    rw [hsub] at hbehind
    have hturn : 16 - l = (16 - (l + 1)) + 1 := by omega
    have hfirst := firstCode_succ (tally lengths n) hl
    have hoffset := offsetsOf_succ h.count hl
    rw [hturn, highBits_rest, decodeFrom]
    refine (need_bit _).bind ?_
    rw [next_bits, if_neg (by omega), shiftLeft_eq, shiftLeft_eq, pow_one]
    have hrest := ih (l := l + 1) (le_succ_of_le hl) (by omega) (congrFun htable.count (l + 1))
    rw [hfirst, hoffset, ← hcount] at hrest
    exact hrest

/-- **`decode`** takes the code of a symbol. -/
theorem decode_reads {c : Entry} {out : List UInt8} {h : Huffman} {lengths : Nat → Nat} {n i : Nat}
    {w : List Bool} (htable : Table h lengths n) (hlengths : Lengths lengths n)
    (hw : CodeWord lengths n i w) : Reads c (decode c h) out w i out := by
  cases hw with
  | intro hi hpos =>
    have hone : 1 ≤ lengths i := Nat.pos_of_ne_zero hpos
    have hfits := fits_of_kraft (by decide) hlengths.le hlengths.share
    obtain ⟨k, hk⟩ := Nat.exists_eq_add_of_le hone
    have hcode := code_lt hfits hi hone (hlengths.le i hi)
    have hreads : Reads c _ out _ i out :=
      decodeFrom_reads htable hi (hlengths.le i hi) k (Nat.le_refl 1) hk.symm
    have hk' : k + 1 = lengths i := by rw [hk, Nat.add_comm]
    rw [hk', div_eq_of_lt hcode, mod_eq_of_lt hcode] at hreads
    exact hreads

end AnticZip
