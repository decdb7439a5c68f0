import Antic.InflateDecodes

/-! # The decoder of deflate decodes it

    The tables that a block begins with are read, a block is decoded, and then the blocks
    up to the last.

    * **`inflate_decodes`** — data of the format, with at most 30 distance codes in a
      block, decodes to its text.
    * `many_distances_refused` — a block with 31 of them is refused. -/

namespace AnticZip

open BitStreams ByteFields CanonicalCodes Deflate List Function

variable {c : Entry} {out before text text' : List UInt8}

-- ── Tables from a part of an array ────

variable {lengths f : Nat → Nat} {sizes sizes' : List Nat} {bits rest : List Bool}
  {most place : Nat} {s : Inflate}

theorem Table.congr {h : Huffman} {lengths' : Nat → Nat} {n : Nat} (htable : Table h lengths n)
    (heq : ∀ i, i < n → lengths i = lengths' i) : Table h lengths' n := by
  refine ⟨htable.count.trans (tally_congr heq), ?_⟩
  intro i hi hpos
  have hbelow : tally lengths i = tally lengths' i :=
    tally_congr fun j hj => heq j (Nat.lt_trans hj hi)
  rw [← heq i hi] at hpos ⊢
  rw [← hbelow]
  exact htable.symbol i hi hpos

theorem construct_agrees {n : Nat} (heq : ∀ i, i < n → f i = lengths i)
    (hlengths : Lengths lengths n) (hn : n ≤ 288) :
    ∃ h, construct f n = pure (true, h) ∧ Table h lengths n := by
  have hle : ∀ i, i < n → f i ≤ 15 := by
    intro i hi
    rw [heq i hi]
    exact hlengths.le i hi
  have hshare : kraft f 15 n ≤ 2 ^ 15 := by
    rw [kraft_congr heq]
    exact hlengths.share
  obtain ⟨h, hconstruct, htable⟩ := construct_table ⟨hle, hshare⟩ hn
  exact ⟨h, hconstruct, htable.congr heq⟩

-- ── The lengths of the code of the lengths ────

theorem readOrder_reads (out : List UInt8) {codeLengths : Nat → Nat} (hlt : ∀ i, codeLengths i < 8)
    (left index : Nat) (hindex : index + left ≤ 19) (sizes : Nat → Nat) :
    ∃ sizes', Reads c (readOrder c left index sizes) out
        (((lengthOrder.drop index).take left).flatMap fun i => lowBits 3 (codeLengths i))
        sizes' out ∧
      ∀ i, sizes' i = if i ∈ (lengthOrder.drop index).take left then codeLengths i else sizes i := by
  induction left generalizing index sizes with
  | zero =>
    refine ⟨sizes, Reads.pure sizes, ?_⟩
    intro i
    rw [take_zero, if_neg not_mem_nil]
  | succ left ih =>
    have hplace : index < lengthOrder.length := Nat.lt_of_lt_of_le (by omega) hindex
    have hentry : entryOf order index = pure lengthOrder[index] := by
      have hfound : order[index]? = some lengthOrder[index] := getElem?_eq_getElem hplace
      rw [entryOf, hfound]
    obtain ⟨sizes', hreads, hsizes⟩ := ih (index + 1) (by omega)
      (update sizes lengthOrder[index] (codeLengths lengthOrder[index]))
    refine ⟨sizes', ?_, ?_⟩
    · rw [drop_eq_getElem_cons hplace, take_succ_cons, flatMap_cons, readOrder]
      refine (need_reads 3 (hlt _)).bind ?_
      exact Reads.bind_pure hentry hreads
    · intro i
      rw [hsizes, drop_eq_getElem_cons hplace, take_succ_cons]
      by_cases hi : i = lengthOrder[index]
      · rw [if_pos (mem_cons.mpr (Or.inl hi)), hi, update_self, ite_self]
      · rw [update_of_ne hi]
        simp only [mem_cons, or_iff_right hi]

-- ── The lengths of the codes ────

/-- The array holds the sizes that are read so far. -/
def Holds (f : Nat → Nat) (sizes : List Nat) : Prop := ∀ i, i < sizes.length → f i = sizes.getD i 0

theorem Holds.push (h : Holds f sizes) (s : Nat) :
    Holds (update f sizes.length s) (sizes ++ [s]) := by
  intro i hi
  rw [length_append, length_singleton, Nat.lt_succ_iff_lt_or_eq] at hi
  rcases hi with hi | rfl
  · rw [update_of_ne (Nat.ne_of_lt hi), h i hi, getD_append _ _ _ _ hi]
  · rw [update_self, getD_append_right _ _ _ _ (Nat.le_refl _), Nat.sub_self]
    rfl

theorem Holds.last {s : Nat} (h : Holds f sizes) (hlast : sizes.getLast? = some s) :
    sizes.length ≠ 0 ∧ f (sizes.length - 1) = s := by
  have hne : sizes ≠ [] := by
    rintro rfl
    cases hlast
  have hpos := length_pos_of_ne_nil hne
  rw [getLast?_eq_getElem?] at hlast
  refine ⟨Nat.ne_of_gt hpos, ?_⟩
  rw [h _ (Nat.sub_lt hpos Nat.one_pos), getD_eq_getElem?_getD, hlast]
  rfl

theorem repeatSize_holds (times size : Nat) (h : Holds f sizes)
    (hroom : sizes.length + times ≤ 320) :
    ∃ f', repeatSize f sizes.length size times = pure f' ∧
      Holds f' (sizes ++ List.replicate times size) := by
  induction times generalizing f sizes with
  | zero =>
    refine ⟨f, rfl, ?_⟩
    rw [replicate_zero, append_nil]
    exact h
  | succ times ih =>
    have hlen : (sizes ++ [size]).length = sizes.length + 1 := length_append
    obtain ⟨f', heq, hholds⟩ := ih (h.push size) (by rw [hlen]; omega)
    rw [hlen] at heq
    refine ⟨f', ?_, ?_⟩
    · rw [repeatSize, if_neg (by omega)]
      exact heq
    · rw [replicate_succ, append_cons]
      exact hholds

theorem Sizes.length_le (h : Sizes lengths sizes bits sizes') : sizes.length ≤ sizes'.length := by
  induction h with
  | done => exact Nat.le_refl _
  | size _ _ _ ih | again _ _ _ _ ih | zeros _ _ _ ih | manyZeros _ _ _ ih =>
    rw [length_append] at ih
    exact Nat.le_of_add_right_le ih

theorem Sizes.grows {k s : Nat} (h : Sizes lengths (sizes ++ List.replicate k s) bits sizes') :
    sizes.length + k ≤ sizes'.length := by
  have hle := Sizes.length_le h
  rw [length_append, length_replicate] at hle
  exact hle

/-- What a symbol above 15 repeats is read and written, and then the rest. -/
theorem readSizes_repeat {h : Huffman} (htable : Table h lengths 19)
    (hlengths : Lengths lengths 19) (symbol : Nat) {total fuel size times : Nat}
    {w more : List Bool} (hholds : Holds f sizes) (hsymbol : 16 ≤ symbol)
    (hw : CodeWord lengths 19 symbol w)
    (hrepeat : Reads c (readRepeat c symbol sizes.length f) out more (size, times) out)
    (htimes : 1 ≤ times) (hle : (sizes ++ List.replicate times size).length ≤ total)
    (htotal : total ≤ 320) (hrest : ∀ g, Holds g (sizes ++ List.replicate times size) →
      ∃ f', Reads c (readSizes c h total fuel (sizes ++ List.replicate times size).length g) out
        bits f' out ∧ Holds f' sizes') :
    ∃ f', Reads c (readSizes c h total (fuel + 1) sizes.length f) out (w ++ (more ++ bits)) f' out ∧
      Holds f' sizes' := by
  rw [length_append, length_replicate] at hle hrest
  obtain ⟨g, heq, hg⟩ := repeatSize_holds times size hholds (Nat.le_trans hle htotal)
  obtain ⟨f', hreads, hholds'⟩ := hrest g hg
  refine ⟨f', ?_, hholds'⟩
  rw [readSizes, if_pos (Nat.lt_of_lt_of_le (Nat.lt_add_of_pos_right htimes) hle)]
  refine (decode_reads htable hlengths hw).bind ?_
  rw [if_neg (Nat.not_lt.mpr hsymbol)]
  refine hrepeat.bind ?_
  dsimp only
  rw [if_neg (Nat.not_lt.mpr hle)]
  exact Reads.bind_pure heq hreads

/-- **`readSizes`** reads the lengths of the codes of a block. -/
theorem readSizes_reads (out : List UInt8) {h : Huffman} (htable : Table h lengths 19)
    (hlengths : Lengths lengths 19) (hsizes : Sizes lengths sizes bits sizes')
    (htotal : sizes'.length ≤ 320) (fuel : Nat) (hfuel : sizes'.length < sizes.length + fuel)
    (hholds : Holds f sizes) :
    ∃ f', Reads c (readSizes c h sizes'.length fuel sizes.length f) out bits f' out ∧
      Holds f' sizes' := by
  induction hsizes generalizing fuel f with
  | done =>
    cases fuel with
    | zero => omega
    | succ fuel =>
      refine ⟨f, ?_, hholds⟩
      rw [readSizes, if_neg (Nat.lt_irrefl _)]
      exact Reads.pure f
  | @size sizes sizes' s w bits hs hw hrest ih =>
    have hle := Sizes.length_le hrest
    rw [length_append, length_singleton] at hle ih
    cases fuel with
    | zero => omega
    | succ fuel =>
      obtain ⟨f', hreads, hholds'⟩ := ih htotal fuel (by omega) (hholds.push s)
      refine ⟨f', ?_, hholds'⟩
      rw [readSizes, if_pos (show sizes.length < sizes'.length from hle)]
      refine (decode_reads htable hlengths hw).bind ?_
      rw [if_pos hs, if_neg (by omega)]
      exact hreads
  | @again sizes sizes' s k w bits hlast hk hw hrest ih =>
    have hle := Sizes.length_le hrest
    obtain ⟨hne, hlast⟩ := hholds.last hlast
    cases fuel with
    | zero => exact absurd hfuel (Nat.not_lt.mpr (Nat.le_of_add_right_le (Sizes.grows hrest)))
    | succ fuel =>
      refine readSizes_repeat htable hlengths 16 hholds (by decide) hw ?_
        (Nat.le_add_left 1 _) hle htotal fun g hg => ih htotal fuel ?_ hg
      · rw [readRepeat, if_pos rfl, if_neg hne, hlast]
        exact (need_reads 2 hk).last (Reads.pure _)
      · rw [length_append, length_replicate]
        omega
  | @zeros sizes sizes' k w bits hk hw hrest ih =>
    have hle := Sizes.length_le hrest
    cases fuel with
    | zero => exact absurd hfuel (Nat.not_lt.mpr (Nat.le_of_add_right_le (Sizes.grows hrest)))
    | succ fuel =>
      refine readSizes_repeat htable hlengths 17 hholds (by decide) hw ?_
        (Nat.le_add_left 1 _) hle htotal fun g hg => ih htotal fuel ?_ hg
      · rw [readRepeat, if_neg (by decide), if_pos rfl]
        exact (need_reads 3 hk).last (Reads.pure _)
      · rw [length_append, length_replicate]
        omega
  | @manyZeros sizes sizes' k w bits hk hw hrest ih =>
    have hle := Sizes.length_le hrest
    cases fuel with
    | zero => exact absurd hfuel (Nat.not_lt.mpr (Nat.le_of_add_right_le (Sizes.grows hrest)))
    | succ fuel =>
      refine readSizes_repeat htable hlengths 18 hholds (by decide) hw ?_
        (Nat.le_add_left 1 _) hle htotal fun g hg => ih htotal fuel ?_ hg
      · rw [readRepeat, if_neg (by decide), if_neg (by decide)]
        exact (need_reads 7 hk).last (Reads.pure _)
      · rw [length_append, length_replicate]
        omega

-- ── Blocks with codes ────

theorem lengths_fixed : Lengths fixedLengths 288 ∧ Lengths fixedDistances 30 := by
  refine ⟨⟨?_, by decide +kernel⟩, ⟨fun _ _ => (by decide : 5 ≤ 15), by decide +kernel⟩⟩
  intro i _
  rw [fixedLengths]
  repeat' split
  all_goals decide

theorem fixed_reads (hstart : before.length = c.start)
    (htokens : Tokens fixedLengths 288 fixedDistances 30 text bits text')
    (hroom : text'.length ≤ c.limit) (hbits : bits.length ≤ 8 * c.input.length) :
    Reads c (fixed c) (before ++ text) bits () (before ++ text') := by
  obtain ⟨h, hconstruct, hh⟩ := construct_table lengths_fixed.1 (by decide)
  have hfive : ∀ i, i < 30 → (if i < 30 then 5 else fixedSizes i) = fixedDistances i :=
    fun i hi => if_pos hi
  obtain ⟨d, hconstruct', hd⟩ := construct_agrees hfive lengths_fixed.2 (by decide)
  rw [fixed]
  refine Reads.bind_pure hconstruct (Reads.bind_pure hconstruct' ?_)
  exact codes_reads hh lengths_fixed.1 hd lengths_fixed.2 hstart htokens hroom
    (Nat.lt_succ_of_le hbits)

theorem dynamic_reads (hmost : most ≤ 30) (hstart : before.length = c.start)
    (hblock : Block most 2 place text bits text') (hroom : text'.length ≤ c.limit)
    (hbits : bits.length ≤ 8 * c.input.length) :
    Reads c (dynamic c) (before ++ text) bits () (before ++ text') := by
  cases hblock with
  | @dynamic place n m k text text' codeLengths sizes sizeBits bits hn hm hk hlt hzero hcode
      hsizes hcount hlengths hdistances htokens =>
  obtain ⟨first, hfirst, horder⟩ := readOrder_reads (c := c) (before ++ text) hlt (k + 4) 0
    (by omega) (fun _ => 0)
  obtain rfl : first = codeLengths := by
    funext i
    rw [horder]
    split
    · rfl
    · next hi => exact (hzero i hi).symm
  obtain ⟨t, hconstruct, ht⟩ := construct_table hcode (by decide)
  obtain ⟨f, hreads, hholds⟩ := readSizes_reads (c := c) (before ++ text) ht hcode hsizes
    (by omega) (n + 257 + (m + 1) + 1) (by rw [hcount, length_nil]; omega)
    (f := first) (fun i hi => absurd hi (Nat.not_lt_zero i))
  obtain ⟨h, hconstruct', hh⟩ := construct_agrees (f := f) (fun i hi => hholds i (by omega))
    hlengths (by omega)
  obtain ⟨d, hconstruct'', hd⟩ := construct_agrees (f := fun i => f (n + 257 + i))
    (fun i hi => hholds _ (by omega)) hdistances (by omega)
  rw [hcount] at hreads
  simp only [length_append] at hbits
  rw [dynamic]
  refine (need_reads 5 (by omega)).bind ?_
  refine (need_reads 5 (by omega)).bind ?_
  refine (need_reads 4 hk).bind ?_
  dsimp only
  rw [if_neg (by omega)]
  refine hfirst.bind ?_
  refine Reads.bind_pure hconstruct ?_
  refine hreads.bind ?_
  refine Reads.bind_pure hconstruct' ?_
  refine Reads.bind_pure hconstruct'' ?_
  exact codes_reads hh hlengths hd hdistances hstart htokens hroom (Nat.lt_succ_of_le (by omega))

-- ── Stored blocks ────

theorem lowBits_field {v : Nat} (hv : v < 65536) : lowBits 16 v = bitsOf (put16 v) := by
  have hlow : (UInt8.ofNat v).toNat = v % 2 ^ 8 := UInt8.toNat_ofNat'
  have hhigh : (UInt8.ofNat (v >>> 8)).toNat = v / 2 ^ 8 := by
    rw [UInt8.toNat_ofNat', Nat.shiftRight_eq_div_pow, Nat.mod_eq_of_lt (by omega)]
  rw [lowBits_split (n := 8) (by decide), put16, bitsOf_cons, bitsOf_cons, hlow, hhigh]
  show _ = _ ++ (_ ++ [])
  rw [append_nil]

theorem field16_reads {i v : Nat} (hv : v < 65536) (h : Stands c.input i (put16 v)) :
    field16 c i = pure v := by
  rw [field16, get16_put16 h hv]

/-- `stored` drops the bits up to the next byte, and copies bytes. -/
theorem stored_reads (hstart : before.length = c.start)
    (hblock : Block most 0 place text bits text') (hroom : text'.length ≤ c.limit)
    (hs : At c s (bits ++ rest)) (hout : s.out = before ++ text)
    (hplace : place + (bits ++ rest).length = 8 * c.input.length) :
    ∃ s', stored c s = .ok () s' ∧ At c s' rest ∧ s'.out = before ++ text' := by
  cases hblock with
  | @stored place text data pad hpad hdata =>
  have hlen := congrArg List.length hs.pending
  have hat := hs.at_le
  have hheld := hs.held
  rw [length_append, length_lowBits, length_bitsOf, length_drop] at hlen
  have hpending := hs.pending
  rw [append_assoc] at hpending
  have hparts := append_inj hpending (by rw [length_lowBits]; omega)
  rw [lowBits_field hdata, lowBits_field (v := 65535 - data.length) (by omega), ← bitsOf_append,
    ← bitsOf_append] at hparts
  obtain ⟨left, hdrop, hleft⟩ := bitsOf_prefix hparts.2
  have hstands : Stands c.input s.at_
      (put16 data.length ++ (put16 (65535 - data.length) ++ data)) := ⟨left, hdrop.symm⟩
  have hfield' : Stands c.input (s.at_ + 2) (put16 (65535 - data.length)) := hstands.right.left
  have hdata' : Stands c.input (s.at_ + 4) data := hstands.right.right
  have htotal := congrArg List.length hdrop
  simp only [length_drop, length_append, length_put16] at htotal
  let s₁ : Inflate := { s with bits := 0, held := 0, at_ := s.at_ + 4 }
  have hemit : emit c data s₁ = .ok () { s₁ with out := s.out ++ data } :=
    emit_eq (s := s₁) hstart hroom hout
  refine ⟨{ s₁ with out := s.out ++ data, at_ := s.at_ + 4 + data.length }, ?_, ?_, ?_⟩
  · have hcheck : ¬ data.length ≠ 65535 - (65535 - data.length) := by omega
    show (if s.at_ + 4 > c.input.length then throw Stop.broken else _ : Decoder Unit) _ = _
    rw [if_neg (by omega), field16_reads hdata hstands.left, pure_bind,
      field16_reads (by omega) hfield', pure_bind, if_neg hcheck]
    show (if s.at_ + 4 + data.length > c.input.length then throw Stop.broken else _ : Decoder Unit) s₁
      = _
    rw [if_neg (by omega), hdata'.take]
    show EStateM.bind (emit c data) _ s₁ = _
    rw [EStateM.bind, hemit]
    rfl
  · refine ⟨?_, (by decide : 0 < 8), (by decide : 0 < 2 ^ 0), ?_⟩
    · show s.at_ + 4 + data.length ≤ c.input.length
      omega
    · show bitsOf (c.input.drop (s.at_ + 4 + data.length)) = rest
      have hskip : s.at_ + 4 + data.length = s.at_ +
          (put16 data.length ++ (put16 (65535 - data.length) ++ data)).length := by
        simp only [length_append, length_put16]
        omega
      rw [hskip, ← drop_drop, hdrop, drop_left, hleft]
  · show s.out ++ data = _
    rw [hout, append_assoc]

-- ── Blocks ────

theorem Block.length_le {type : Nat} (h : Block most type place text bits text') :
    type < 3 ∧ text.length ≤ text'.length := by
  cases h with
  | stored _ _ =>
    rw [length_append]
    exact ⟨by decide, Nat.le_add_right _ _⟩
  | fixed htokens => exact ⟨by decide, Tokens.length_le htokens⟩
  | dynamic _ _ _ _ _ _ _ _ _ _ htokens => exact ⟨by decide, Tokens.length_le htokens⟩

theorem block_reads {type : Nat} (hmost : most ≤ 30) (hstart : before.length = c.start)
    (hblock : Block most type place text bits text') (hroom : text'.length ≤ c.limit)
    (hs : At c s (bits ++ rest)) (hout : s.out = before ++ text)
    (hplace : place + (bits ++ rest).length = 8 * c.input.length) :
    ∃ s', block c type s = .ok () s' ∧ At c s' rest ∧ s'.out = before ++ text' := by
  have hbits : bits.length ≤ 8 * c.input.length := by
    rw [length_append] at hplace
    omega
  have htype := (Block.length_le hblock).1
  obtain rfl | rfl | rfl : type = 0 ∨ type = 1 ∨ type = 2 := by omega
  · exact stored_reads hstart hblock hroom hs hout hplace
  · cases hblock with
    | fixed htokens => exact fixed_reads hstart htokens hroom hbits s rest hs hout
  · exact dynamic_reads hmost hstart hblock hroom hbits s rest hs hout

theorem Blocks.length_le (h : Blocks most place text bits text') : text.length ≤ text'.length := by
  induction h with
  | last hblock => exact (Block.length_le hblock).2
  | cons hblock _ ih => exact Nat.le_trans (Block.length_le hblock).2 ih

/-- The bits before a block say whether it is the last, and its type. -/
theorem header_reads (last : Bool) {type : Nat} (htype : type < 3)
    (hs : At c s (last :: (lowBits 2 type ++ bits) ++ rest)) (fuel : Nat) :
    ∃ s', At c s' (bits ++ rest) ∧ s'.out = s.out ∧ blocks c (fuel + 1) s =
      (do block c type; if last.toNat = 0 then blocks c fuel else pure () : Decoder Unit) s' := by
  rw [cons_append, append_assoc] at hs
  obtain ⟨s₁, hone, hs₁, hout₁⟩ := need_bit (c := c) last s _ hs rfl
  obtain ⟨s₂, htwo, hs₂, hout₂⟩ := need_reads (c := c) 2 (v := type) (by omega) s₁ _ hs₁ rfl
  refine ⟨s₂, hs₂, hout₂.trans hout₁, ?_⟩
  show EStateM.bind (need c 1) _ s = _
  rw [EStateM.bind, hone]
  show EStateM.bind (need c 2) _ s₁ = _
  rw [EStateM.bind, htwo]

theorem blocks_reads (hmost : most ≤ 30) (hstart : before.length = c.start)
    (hblocks : Blocks most place text bits text') (hroom : text'.length ≤ c.limit) {fuel : Nat}
    (hfuel : bits.length ≤ fuel) (hs : At c s (bits ++ rest)) (hout : s.out = before ++ text)
    (hplace : place + (bits ++ rest).length = 8 * c.input.length) :
    ∃ s', blocks c fuel s = .ok () s' ∧ s'.out = before ++ text' := by
  induction hblocks generalizing fuel s with
  | @last place type text text' bits hblock =>
    cases fuel with
    | zero => cases hfuel
    | succ fuel =>
      obtain ⟨s₁, hs₁, hout₁, heq⟩ := header_reads true (Block.length_le hblock).1 hs fuel
      simp only [length_append, length_cons, length_lowBits] at hplace
      obtain ⟨s', hrun, -, hout'⟩ := block_reads hmost hstart hblock hroom hs₁
        (hout₁.trans hout) (by rw [length_append]; omega)
      refine ⟨s', ?_, hout'⟩
      rw [heq]
      show EStateM.bind (block c type) _ s₁ = _
      rw [EStateM.bind, hrun]
      rfl
  | @cons place type text text' text'' bits more hblock hblocks ih =>
    cases fuel with
    | zero => cases hfuel
    | succ fuel =>
      obtain ⟨s₁, hs₁, hout₁, heq⟩ := header_reads false (Block.length_le hblock).1 hs fuel
      rw [append_assoc] at hs₁
      simp only [length_append, length_cons, length_lowBits] at hplace hfuel
      obtain ⟨s₂, hrun, hs₂, hout₂⟩ := block_reads hmost hstart hblock
        (Nat.le_trans (Blocks.length_le hblocks) hroom) hs₁ (hout₁.trans hout)
        (by simp only [length_append]; omega)
      have hfuel' : more.length ≤ fuel := by omega
      obtain ⟨s', hrest, hout'⟩ := ih hroom hfuel' hs₂ hout₂ (by rw [length_append]; omega)
      refine ⟨s', ?_, hout'⟩
      rw [heq]
      show EStateM.bind (block c type) _ s₁ = _
      rw [EStateM.bind, hrun]
      exact hrest

/-- **Deflated data decodes to its text**, which is appended to what is there, where a
    block has at most 30 distance codes; and other data stops as broken at the latest. -/
theorem inflate_decodes (input : List UInt8) (limit : Nat) (out : List UInt8) :
    (∀ text, Deflated 30 input text → text.length ≤ limit →
      ∃ s, inflate input limit out = .ok () s ∧ s.out = out ++ text) ∧
    match inflate input limit out with
    | .ok _ s => out <+: s.out ∧ s.out.length ≤ out.length + limit
    | .error e s => e = .broken ∧ out <+: s.out ∧ s.out.length ≤ out.length + limit := by
  refine ⟨?_, inflate_contract input limit out⟩
  rintro text ⟨bits, rest, hbits, hblocks⟩ hroom
  have hat : At ⟨input, out.length, limit⟩ ⟨0, 0, 0, out⟩ (bits ++ rest) :=
    ⟨Nat.zero_le _, (by decide : 0 < 8), (by decide : 0 < 2 ^ 0), hbits⟩
  have hlen := congrArg List.length hbits
  rw [length_bitsOf] at hlen
  refine blocks_reads (c := ⟨input, out.length, limit⟩) (le_refl 30) rfl hblocks hroom ?_ hat
    (append_nil out).symm ?_
  · show bits.length ≤ 8 * input.length + 1
    rw [hlen, length_append]
    omega
  · rw [Nat.zero_add]
    exact hlen.symm

/-- A literal and a match in a fixed block. -/
theorem inflate_decodes_match :
    ∃ s, inflate [75, 4, 2, 0] 4 [9] = .ok () s ∧ s.out = [9] ++ [97, 97, 97, 97] := by
  refine (inflate_decodes [75, 4, 2, 0] 4 [9]).1 [97, 97, 97, 97] ?_ (by decide)
  have hliteral : CodeWord fixedLengths 288 (97 : UInt8).toNat _ := .intro (by decide) (by decide)
  have hlength : LengthBits fixedLengths 288 (lengthBase 0 + 0) _ :=
    .intro (by decide) (by decide) (.intro (by decide) (by decide))
  have hdistance : DistanceBits fixedDistances 30 (distanceBase 0 + 0) _ :=
    .intro (by decide) (by decide) (.intro (by decide) (by decide))
  have hstop : CodeWord fixedLengths 288 256 _ := .intro (by decide) (by decide)
  exact ⟨_, [false, false], by decide +kernel,
    .last (.fixed (.literal hliteral (.copy hlength hdistance (by decide) (.stop hstop))))⟩

/-- The bytes of an empty text, in a block with 31 distance codes. -/
def manyDistances : List UInt8 := [5, 222, 129, 0, 0, 0, 0, 0, 144, 255, 107, 78, 0]

/-- **31 distance codes are refused**, which the format has a number for. -/
theorem many_distances_refused :
    ¬ ∀ (input : List UInt8) (limit : Nat) (out text : List UInt8), Deflated 32 input text →
      text.length ≤ limit → ∃ s, inflate input limit out = .ok () s ∧ s.out = out ++ text := by
  intro h
  have hdeflated : Deflated 32 manyDistances [] := by
    let codeLengths : Nat → Nat := fun i => if i = 1 ∨ i = 18 then 1 else 0
    have hzeros : CodeWord codeLengths 19 18 _ := .intro (by decide) (by decide)
    have hone : CodeWord codeLengths 19 1 _ := .intro (by decide) (by decide)
    let sizes : List Nat :=
      List.replicate 138 0 ++ List.replicate 118 0 ++ [1] ++ [1] ++ List.replicate 30 0
    have hsizes : Sizes codeLengths [] _ sizes :=
      .manyZeros (by decide : 127 < 128) hzeros (.manyZeros (by decide : 107 < 128) hzeros
        (.size (by decide) hone (.size (by decide) hone
          (.manyZeros (by decide : 19 < 128) hzeros .done))))
    have hstop : CodeWord (fun i => sizes.getD i 0) 257 256 _ :=
      .intro (by decide) (by decide +kernel)
    refine ⟨_, List.replicate 6 false, ?_, .last (.dynamic (by decide : 0 < 30) (by decide : 30 < 32)
      (by decide : 14 < 16) ?_ ?_ ⟨?_, ?_⟩ hsizes ?_ ⟨?_, ?_⟩ ⟨?_, ?_⟩ (.stop hstop))⟩
    · decide +kernel
    · intro i
      show (if i = 1 ∨ i = 18 then 1 else 0) < 8
      split <;> decide
    · intro i hi
      refine if_neg ?_
      rintro (rfl | rfl)
      · exact hi (by decide)
      · exact hi (by decide)
    · decide +kernel
    · decide +kernel
    · decide +kernel
    · decide +kernel
    · decide +kernel
    · decide +kernel
    · decide +kernel
  obtain ⟨s, hrun, -⟩ := h manyDistances 0 [] [] hdeflated (Nat.le_refl 0)
  have hrefused : (match inflate manyDistances 0 [] with
    | .ok _ _ => false
    | .error _ _ => true) = true := by decide +kernel
  rw [hrun] at hrefused
  cases hrefused

end AnticZip
