import Antic.Contracts
import Antic.Inflate
import Mathlib.Logic.Function.Basic

/-! # The decoder of deflate stays inside its arrays

    `Ready` holds before and after every function of the decoder: the input is read
    up to a place in it, and the text has grown by at most the limit.  The bits of
    the input that are left bound every loop. -/

namespace AnticZip

open ByteFields Contracts Function Nat

/-! ## The table of a code -/

/-- Every symbol of the table is one before `n`. -/
structure TableOk (h : Huffman) (n : Nat) : Prop where
  total : offsetsOf h.count 16 ≤ 288
  symbol : ∀ k, k < offsetsOf h.count 16 → ∃ v, h.symbol k = some v ∧ v < n

/-- What `countLengths` gives. -/
def countOf (lengths : Nat → Nat) : Nat → Nat → Nat
  | 0 => fun _ => 0
  | n + 1 => update (countOf lengths n) (lengths n) (countOf lengths n (lengths n) + 1)

section Table

variable {lengths : Nat → Nat} {n : Nat}

theorem countLengths_eq (h : ∀ i, i < n → lengths i < 16) :
    countLengths lengths n = pure (countOf lengths n) := by
  induction n with
  | zero => rfl
  | succ n ih =>
    have hn : ¬ 16 ≤ lengths n := Nat.not_le.2 (h n (lt_succ_self n))
    rw [countLengths, ih fun i hi => h i (lt_succ_of_lt hi), pure_bind, if_neg hn]
    rfl

theorem offsetsOf_succ (count : Nat → Nat) {i : Nat} (hi : 1 ≤ i) :
    offsetsOf count (i + 1) = offsetsOf count i + count i := by
  cases i with
  | zero => exact absurd hi (by omega)
  | succ i => rfl

theorem offsetsOf_mono (count : Nat → Nat) {i k : Nat} (hi : 1 ≤ i) (hik : i ≤ k) :
    offsetsOf count i ≤ offsetsOf count k := by
  induction k, hik using le_induction with
  | base => exact Nat.le_refl _
  | succ k hk ih =>
    rw [offsetsOf_succ count (by omega)]
    omega

theorem offsetsOf_update (count : Nat → Nat) (l i : Nat) :
    offsetsOf (update count l (count l + 1)) (i + 1) =
      offsetsOf count (i + 1) + if 1 ≤ l ∧ l ≤ i then 1 else 0 := by
  induction i with
  | zero =>
    rw [if_neg (by omega)]
    rfl
  | succ i ih =>
    have hcount := offsetsOf_succ count (Nat.le_add_left 1 i)
    have hnew := offsetsOf_succ (update count l (count l + 1)) (Nat.le_add_left 1 i)
    rw [hcount, hnew, ih]
    by_cases hl : l = i + 1
    · subst hl
      rw [update_self, if_neg (by omega), if_pos (by omega)]
      omega
    · rw [update_of_ne (Ne.symm hl)]
      by_cases hi : 1 ≤ l ∧ l ≤ i
      · rw [if_pos hi, if_pos (by omega)]
        omega
      · rw [if_neg hi, if_neg (by omega)]
        omega

theorem offsetsOf_countOf_le (lengths : Nat → Nat) (n i : Nat) :
    offsetsOf (countOf lengths n) (i + 1) ≤ n := by
  induction n with
  | zero =>
    induction i with
    | zero => exact Nat.le_refl _
    | succ i ih => exact ih
  | succ n ih =>
    rw [countOf, offsetsOf_update]
    split <;> omega

theorem countOf_mono (lengths : Nat → Nat) (l : Nat) {m : Nat} (hnm : n ≤ m) :
    countOf lengths n l ≤ countOf lengths m l := by
  induction m, hnm using le_induction with
  | base => exact Nat.le_refl _
  | succ m hm ih =>
    rw [countOf]
    by_cases hl : l = lengths m
    · subst hl
      rw [update_self]
      omega
    · rw [update_of_ne hl]
      exact ih

theorem placeSymbols_eq {m : Nat} (hlt : ∀ i, i < m → lengths i < 16) (hm : m ≤ 288) (hnm : n ≤ m) :
    ∃ offsets symbol, placeSymbols lengths (offsetsOf (countOf lengths m)) n =
        pure (offsets, symbol) ∧
      (∀ l, 1 ≤ l → offsets l = offsetsOf (countOf lengths m) l + countOf lengths n l) ∧
      ∀ l k, 1 ≤ l → offsetsOf (countOf lengths m) l ≤ k →
        k < offsetsOf (countOf lengths m) l + countOf lengths n l →
        ∃ v, symbol k = some v ∧ v < n := by
  induction n with
  | zero =>
    refine ⟨_, _, rfl, fun l _ => rfl, fun l k _ h1 h2 => ?_⟩
    have : countOf lengths 0 l = 0 := rfl
    omega
  | succ n ih =>
    obtain ⟨offsets, symbol, heq, hoffsets, hsymbol⟩ := ih (by omega)
    rw [placeSymbols, heq]
    by_cases hzero : lengths n = 0
    · refine ⟨offsets, symbol, ?_, fun l hl => ?_, fun l k hl h1 h2 => ?_⟩
      · exact if_pos hzero
      · rw [hoffsets l hl, countOf, update_of_ne (by omega)]
      · rw [countOf, update_of_ne (by omega)] at h2
        obtain ⟨v, hv, hvn⟩ := hsymbol l k hl h1 h2
        exact ⟨v, hv, by omega⟩
    · have hl16 : lengths n < 16 := hlt n (by omega)
      -- the place is one before the next length, so before the last
      have hplace : offsets (lengths n) < 288 := by
        have hcount : countOf lengths (n + 1) (lengths n) ≤ countOf lengths m (lengths n) :=
          countOf_mono lengths _ hnm
        have hself : countOf lengths (n + 1) (lengths n) =
            countOf lengths n (lengths n) + 1 := update_self ..
        have hnext := offsetsOf_succ (countOf lengths m) (i := lengths n) (by omega)
        have htotal := offsetsOf_countOf_le lengths m (lengths n)
        have := hoffsets (lengths n) (by omega)
        omega
      refine ⟨update offsets (lengths n) (offsets (lengths n) + 1),
        update symbol (offsets (lengths n)) (some n), ?_, fun l hl => ?_,
        fun l k hl h1 h2 => ?_⟩
      · exact (if_neg hzero).trans (if_neg (by omega))
      · rw [countOf]
        by_cases hln : l = lengths n
        · subst hln
          rw [update_self, update_self, hoffsets _ hl, Nat.add_assoc]
        · rw [update_of_ne hln, update_of_ne hln, hoffsets l hl]
      · by_cases hk : k = offsets (lengths n)
        · exact ⟨n, by rw [hk, update_self], lt_succ_self n⟩
        · rw [update_of_ne hk]
          have hold : k < offsetsOf (countOf lengths m) l + countOf lengths n l := by
            rw [countOf] at h2
            by_cases hln : l = lengths n
            · subst hln
              rw [update_self] at h2
              have := hoffsets _ hl
              omega
            · rwa [update_of_ne hln] at h2
          obtain ⟨v, hv, hvn⟩ := hsymbol l k hl h1 hold
          exact ⟨v, hv, by omega⟩

theorem exists_length (count : Nat → Nat) {i k : Nat} (hk : k < offsetsOf count (i + 1)) :
    ∃ l, 1 ≤ l ∧ offsetsOf count l ≤ k ∧ k < offsetsOf count l + count l := by
  induction i with
  | zero => exact absurd hk (Nat.not_lt_zero _)
  | succ i ih =>
    by_cases hlt : k < offsetsOf count (i + 1)
    · exact ih hlt
    · exact ⟨i + 1, by omega, by omega, hk⟩

/-- **A table that is not refused holds each of its symbols.** -/
theorem construct_eq (hlt : ∀ i, i < n → lengths i < 16) (hn : n ≤ 288) :
    ∃ h : Huffman, construct lengths n = pure (fitsCode (countOf lengths n) 15 1 1, h) ∧
      (fitsCode (countOf lengths n) 15 1 1 = true → TableOk h n) := by
  rw [construct, countLengths_eq hlt, pure_bind]
  cases hfits : fitsCode (countOf lengths n) 15 1 1 with
  | false => refine ⟨_, if_neg Bool.false_ne_true, fun h => nomatch h⟩
  | true =>
    obtain ⟨offsets, symbol, heq, _, hsymbol⟩ := placeSymbols_eq hlt hn (Nat.le_refl n)
    refine ⟨⟨countOf lengths n, symbol⟩, ?_, fun _ => ⟨?_, fun k hk => ?_⟩⟩
    · rw [if_pos rfl, heq, pure_bind]
    · exact Nat.le_trans (offsetsOf_countOf_le lengths n 15) hn
    · obtain ⟨l, hl, h1, h2⟩ := exists_length (countOf lengths n) hk
      exact hsymbol l k hl h1 h2

end Table

/-! ## Contracts of the decoder -/

section Decoder

/-- The bits of the input that are left. -/
def bitsLeft (c : Entry) (s : Inflate) : Nat := 8 * (c.input.length - s.at_) + s.held

/-- The text has grown by at most the limit. -/
structure Grown (c : Entry) (out : List UInt8) (s : Inflate) : Prop where
  before : out <+: s.out
  start : out.length = c.start
  bound : s.out.length ≤ c.start + c.limit

/-- The decoder may go on: at most `m` bits are left, and the entry has at least `k` bytes. -/
structure Ready (c : Entry) (out : List UInt8) (m k : Nat) (s : Inflate) : Prop where
  grown : Grown c out s
  at_le : s.at_ ≤ c.input.length
  left : bitsLeft c s ≤ m
  back : c.start + k ≤ s.out.length

/-- The decoder stops only because the data is broken. -/
def Fails (c : Entry) (out : List UInt8) (e : Stop) (s : Inflate) : Prop :=
  e = .broken ∧ Grown c out s

variable {c : Entry} {out : List UInt8} {m k : Nat}

variable {P : Inflate → Prop} {E : Stop → Inflate → Prop}

theorem fails_throw {α : Type} {Q : α → Inflate → Prop} (h : ∀ s, P s → Grown c out s) :
    Contract P (throw .broken : Decoder α) Q (Fails c out) :=
  Contract.throw fun s hs => ⟨rfl, h s hs⟩

theorem contract_of_pure {α : Type} {x : Decoder α} {a : α} (h : x = pure a) :
    Contract P x (fun b t => b = a ∧ P t) E := by
  rw [h]
  exact Contract.pure fun s hs => ⟨rfl, hs⟩

theorem entryOf_contract (table : List Nat) (i : Nat) (p : Nat → Prop)
    (h : ∃ v, table[i]? = some v ∧ p v) :
    Contract P (entryOf table i) (fun v t => p v ∧ P t) E := by
  obtain ⟨v, hv, hp⟩ := h
  have heq : entryOf table i = pure v := by
    rw [entryOf, hv]
  refine (contract_of_pure heq).weaken (fun _ hs => hs) fun b t hb => ?_
  rw [hb.1]
  exact ⟨hp, hb.2⟩

theorem emit_keeps (bytes : List UInt8) (i : Nat × Nat) :
    Contract (fun s => Ready c out m k s ∧ (s.at_, s.held) = i) (emit c bytes)
      (fun _ s => Ready c out m k s ∧ (s.at_, s.held) = i) (Fails c out) := by
  refine Contract.get fun s hs => ?_
  obtain ⟨hs, hi⟩ := hs
  split
  · exact fails_throw fun t ht => ht ▸ hs.grown
  · next hle =>
      have hstart := hs.grown.start
      have hbound := hs.grown.bound
      have hback := hs.back
      refine ⟨fun t ht => ?_⟩
      subst ht
      refine ⟨⟨⟨hs.grown.before.trans (List.prefix_append ..), hstart, ?_⟩, hs.at_le, hs.left,
        ?_⟩, hi⟩
      · show (t.out ++ bytes).length ≤ _
        rw [List.length_append]
        omega
      · show _ ≤ (t.out ++ bytes).length
        rw [List.length_append]
        omega

theorem emit_contract (bytes : List UInt8) :
    Contract (Ready c out m k) (emit c bytes) (fun _ => Ready c out m k) (Fails c out) :=
  Contract.named (fun s => (s.at_, s.held)) fun i =>
    (emit_keeps bytes i).weaken (fun _ hs => hs) fun _ _ hs => hs.1

theorem fill_contract (n : Nat) : ∀ turns,
    Contract (fun s => Ready c out m k s ∧ n ≤ s.held + 8 * turns) (fill c n (turns + 1))
      (fun _ s => Ready c out m k s ∧ n ≤ s.held) (Fails c out) := by
  intro turns
  induction turns with
  | zero =>
    refine Contract.get fun s hs => ?_
    have hheld : ¬ s.held < n := by
      omega
    rw [if_neg hheld]
    exact Contract.pure fun t ht => ht ▸ ⟨hs.1, by omega⟩
  | succ turns ih =>
    refine Contract.get fun s hs => ?_
    obtain ⟨hready, hturns⟩ := hs
    split
    · next hheld =>
        split
        · exact fails_throw fun t ht => ht ▸ hready.grown
        · next hne =>
            have hlt : s.at_ < c.input.length := Nat.lt_of_le_of_ne hready.at_le hne
            obtain ⟨byte, hbyte⟩ := exists_byte hlt
            rw [hbyte]
            refine Contract.set fun _ => ih.weaken (fun t ht => ?_) fun _ _ h => h
            rw [ht]
            have hleft := hready.left
            refine ⟨⟨⟨hready.grown.before, hready.grown.start, hready.grown.bound⟩, ?_, ?_,
              hready.back⟩, ?_⟩
            · show s.at_ + 1 ≤ _
              omega
            · show 8 * (c.input.length - (s.at_ + 1)) + (s.held + 8) ≤ m
              unfold bitsLeft at hleft
              omega
            · show n ≤ s.held + 8 + 8 * turns
              omega
    · next hheld => exact Contract.pure fun t ht => ht ▸ ⟨hready, by omega⟩

theorem need_contract (n : Nat) : Contract (Ready c out m k) (need c n)
      (fun v s => (v < 2 ^ n ∧ n ≤ m) ∧ Ready c out (m - n) k s) (Fails c out) := by
  refine Contract.bind ((fill_contract n n).weaken (fun s hs => ⟨hs, by omega⟩)
    fun _ _ h => h) fun _ => ?_
  refine Contract.get fun s hs => Contract.set fun _ => Contract.pure fun t ht => ?_
  obtain ⟨hready, hheld⟩ := hs
  rw [ht]
  have hleft := hready.left
  unfold bitsLeft at hleft
  refine ⟨⟨?_, by omega⟩, ⟨hready.grown.before, hready.grown.start, hready.grown.bound⟩,
    hready.at_le, ?_, hready.back⟩
  · rw [one_shiftLeft, and_two_pow_sub_one_eq_mod]
    exact mod_lt _ (Nat.two_pow_pos n)
  · show 8 * (c.input.length - s.at_) + (s.held - n) ≤ m - n
    omega

theorem Ready.mono {m' : Nat} {s : Inflate} (h : Ready c out m k s) (hm : m ≤ m') :
    Ready c out m' k s :=
  ⟨h.grown, h.at_le, Nat.le_trans h.left hm, h.back⟩

theorem Ready.less {k' : Nat} {s : Inflate} (h : Ready c out m k s) (hk : k' ≤ k) :
    Ready c out m k' s :=
  ⟨h.grown, h.at_le, h.left, by have := h.back; omega⟩

/-- The loop of `decode`: the code is not before the first of its length. -/
theorem decodeFrom_contract {h : Huffman} {n : Nat} (ht : TableOk h n) : ∀ left length code first,
    length + left = 16 → 1 ≤ length → first ≤ code →
    Contract (Ready c out m k) (decodeFrom c h left length code first (offsetsOf h.count length))
      (fun v s => (v < n ∧ 1 ≤ m) ∧ Ready c out (m - 1) k s) (Fails c out) := by
  intro left
  induction left generalizing m with
  | zero => exact fun _ _ _ _ _ _ => fails_throw fun s hs => hs.grown
  | succ left ih =>
    intro length code first hlength hpos hfirst
    refine Contract.bind (need_contract 1) fun bit => ?_
    refine Contract.of_fact fun hbit => ?_
    have hcode : first ≤ code ||| bit := Nat.le_trans hfirst left_le_or
    have hnext := offsetsOf_succ h.count hpos
    dsimp only
    split
    · next hlt =>
        -- the place is one of the symbols of this length
        have hplace : offsetsOf h.count length + ((code ||| bit) - first) <
            offsetsOf h.count 16 := by
          have := offsetsOf_mono h.count (Nat.le_add_left 1 length) (by omega : length + 1 ≤ 16)
          omega
        have htotal := ht.total
        obtain ⟨v, hv, hvn⟩ := ht.symbol _ hplace
        have heq : h.read (offsetsOf h.count length + ((code ||| bit : Nat) - first)) =
            pure v := by
          have hint : ((offsetsOf h.count length : Int) + ((code ||| bit : Nat) - first)) =
              ((offsetsOf h.count length + ((code ||| bit) - first) : Nat) : Int) := by omega
          rw [hint, Huffman.read, if_pos (by omega), Int.toNat_natCast, hv]
        rw [heq]
        exact Contract.pure fun s hs => ⟨⟨hvn, hbit.2⟩, hs⟩
    · next hge =>
        rw [← hnext]
        have hshift : (first + h.count length) <<< 1 ≤ (code ||| bit) <<< 1 := by
          omega
        refine (ih (length + 1) _ _ (by omega) (by omega) hshift).weaken
          (fun s hs => hs) fun v s hs => ?_
        exact ⟨⟨hs.1.1, hbit.2⟩, hs.2.mono (sub_le ..)⟩

/-- `decode` takes a bit at least, and gives a symbol of the table. -/
theorem decode_contract {h : Huffman} {n : Nat} (ht : TableOk h n) :
    Contract (Ready c out m k) (decode c h)
      (fun v s => (v < n ∧ 1 ≤ m) ∧ Ready c out (m - 1) k s) (Fails c out) :=
  decodeFrom_contract ht 15 1 0 0 rfl (Nat.le_refl 1) (Nat.le_refl 0)

theorem copyBack_contract {distance : Nat} (hd : 1 ≤ distance) : ∀ length,
    Contract (Ready c out m distance) (copyBack c distance length)
      (fun _ => Ready c out m distance) (Fails c out) := by
  intro length
  induction length with
  | zero => exact Contract.pure fun s hs => hs
  | succ length ih =>
    refine Contract.get fun s hs => ?_
    have hback := hs.back
    rw [if_neg (by omega)]
    obtain ⟨byte, hbyte⟩ := exists_byte (by omega : s.out.length - distance < s.out.length)
    rw [hbyte]
    exact Contract.bind ((emit_contract [byte]).weaken (fun t ht => ht ▸ hs) fun _ _ h => h)
      fun _ => ih

theorem extra_entry : ∀ i, i < 29 → ∃ v, extra[i]? = some v ∧ True := by decide

theorem base_entry : ∀ i, i < 29 → ∃ v, base[i]? = some v ∧ True := by decide

theorem dextra_entry : ∀ i, i < 30 → ∃ v, dextra[i]? = some v ∧ True := by decide

theorem dbase_entry : ∀ i, i < 30 → ∃ v, dbase[i]? = some v ∧ 1 ≤ v := by decide

theorem codes_contract {lengths distances : Huffman} {n n' : Nat} (hl : TableOk lengths n)
    (hd : TableOk distances n') : ∀ fuel m, m < fuel →
    Contract (Ready c out m 0) (codes c lengths distances fuel) (fun _ => Ready c out m 0)
      (Fails c out) := by
  intro fuel
  induction fuel with
  | zero => exact fun m hm => absurd hm (Nat.not_lt_zero m)
  | succ fuel ih =>
    intro m hm
    refine Contract.bind (decode_contract hl) fun symbol => ?_
    refine Contract.of_fact fun hsymbol => ?_
    -- the rest of the block, with a bit less
    have hrest : Contract (Ready c out (m - 1) 0) (codes c lengths distances fuel)
        (fun _ => Ready c out m 0) (Fails c out) :=
      (ih (m - 1) (by omega)).weaken (fun _ hs => hs) fun _ s hs => hs.mono (sub_le ..)
    split
    · exact Contract.bind (emit_contract _) fun _ => hrest
    split
    · exact Contract.pure fun s hs => hs.mono (sub_le ..)
    split
    · exact fails_throw fun s hs => hs.grown
    next hlt =>
    generalize symbol - 257 = i at hlt ⊢
    refine Contract.bind (entryOf_contract extra i _ (extra_entry i (by omega))) fun bits => ?_
    refine Contract.of_fact fun _ => Contract.bind (need_contract bits) fun more => ?_
    refine Contract.of_fact fun _ =>
      Contract.bind (entryOf_contract base _ _ (base_entry _ (by omega))) fun first => ?_
    refine Contract.of_fact fun _ => Contract.bind (decode_contract hd) fun symbol => ?_
    refine Contract.of_fact fun _ => ?_
    split
    · exact fails_throw fun s hs => hs.grown
    refine Contract.bind (entryOf_contract dextra _ _ (dextra_entry _ (by omega))) fun bits => ?_
    refine Contract.of_fact fun _ => Contract.bind (need_contract bits) fun more => ?_
    refine Contract.of_fact fun _ =>
      Contract.bind (entryOf_contract dbase _ _ (dbase_entry _ (by omega))) fun first => ?_
    refine Contract.of_fact fun hfirst => Contract.get fun s hs => ?_
    split
    · exact fails_throw fun t ht => ht ▸ hs.grown
    · next hle =>
        have hback : Ready c out (m - 1) (first + more) s := by
          refine ⟨hs.grown, hs.at_le, ?_, ?_⟩
          · have := hs.left
            omega
          · omega
        refine Contract.bind ((copyBack_contract (by omega) _).weaken
          (fun t ht => ht ▸ hback) fun _ _ h => h) fun _ => ?_
        exact hrest.weaken (fun t ht => ht.less (Nat.zero_le _)) fun _ _ h => h

/-! ## Contracts of the blocks -/

theorem construct_contract (lengths : Nat → Nat) (n : Nat) (hlt : ∀ i, i < n → lengths i < 16)
    (hn : n ≤ 288) :
    Contract P (construct lengths n)
      (fun r s => (r.1 = fitsCode (countOf lengths n) 15 1 1 ∧ (r.1 = true → TableOk r.2 n)) ∧ P s)
      E := by
  obtain ⟨h, heq, hok⟩ := construct_eq hlt hn
  refine (contract_of_pure heq).weaken (fun _ hs => hs) fun r s hr => ?_
  rw [hr.1]
  exact ⟨⟨rfl, hok⟩, hr.2⟩

theorem fixedSizes_lt (i : Nat) : fixedSizes i < 16 := by
  unfold fixedSizes
  split
  · omega
  · split
    · omega
    · split <;> omega

theorem fixedSizes_fits : fitsCode (countOf fixedSizes 288) 15 1 1 = true := by
  decide +kernel

theorem fixedDistances_fits :
    fitsCode (countOf (fun i => if i < 30 then 5 else fixedSizes i) 30) 15 1 1 = true := by
  decide +kernel

theorem fixed_contract (hm : m ≤ 8 * c.input.length) :
    Contract (Ready c out m 0) (fixed c) (fun _ => Ready c out m 0) (Fails c out) := by
  have hlengths := construct_contract (P := Ready c out m 0) (E := Fails c out) fixedSizes 288
    (fun i _ => fixedSizes_lt i) (Nat.le_refl 288)
  refine Contract.bind hlengths ?_
  rintro ⟨ok, lengths⟩
  refine Contract.of_fact fun hl => ?_
  have hdist : ∀ i, i < 30 → (if i < 30 then 5 else fixedSizes i) < 16 := by
    intro i hi
    rw [if_pos hi]
    omega
  refine Contract.bind (construct_contract _ 30 hdist (by omega)) ?_
  rintro ⟨ok', distances⟩
  refine Contract.of_fact fun hd => ?_
  exact codes_contract (hl.2 (hl.1.trans fixedSizes_fits))
    (hd.2 (hd.1.trans fixedDistances_fits)) c.fuel m (lt_succ_of_le hm)

theorem order_entry : ∀ i, i < 19 → ∃ v, order[i]? = some v ∧ True := by decide

theorem readOrder_contract : ∀ left index sizes, index + left ≤ 19 → (∀ i, sizes i < 16) →
    Contract (Ready c out m k) (readOrder c left index sizes)
      (fun sizes s => (∀ i, sizes i < 16) ∧ Ready c out m k s) (Fails c out) := by
  intro left
  induction left with
  | zero => exact fun _ _ _ hsizes => Contract.pure fun s hs => ⟨hsizes, hs⟩
  | succ left ih =>
    intro index sizes hindex hsizes
    refine Contract.bind (need_contract 3) fun value => ?_
    refine Contract.of_fact fun hvalue =>
      Contract.bind (entryOf_contract order index _ (order_entry index (by omega))) fun place => ?_
    refine Contract.of_fact fun _ => ?_
    refine (ih (index + 1) _ (by omega) fun i => ?_).weaken
      (fun s hs => hs.mono (sub_le ..)) fun _ _ h => h
    by_cases hi : i = place
    · rw [hi, update_self]
      omega
    · rw [update_of_ne hi]
      exact hsizes i

theorem repeatSize_eq {size : Nat} (hsize : size < 16) : ∀ times index (sizes : Nat → Nat),
    index + times ≤ 320 → (∀ i, sizes i < 16) →
    ∃ sizes', repeatSize sizes index size times = pure sizes' ∧ ∀ i, sizes' i < 16 := by
  intro times
  induction times with
  | zero => exact fun _ sizes _ hsizes => ⟨sizes, rfl, hsizes⟩
  | succ times ih =>
    intro index sizes hindex hsizes
    rw [repeatSize, if_neg (by omega)]
    refine ih (index + 1) _ (by omega) fun i => ?_
    by_cases hi : i = index
    · rw [hi, update_self]
      exact hsize
    · rw [update_of_ne hi]
      exact hsizes i

theorem readRepeat_contract {symbol index : Nat} {sizes : Nat → Nat} (hsizes : ∀ i, sizes i < 16) :
    Contract (Ready c out m k) (readRepeat c symbol index sizes)
      (fun r s => (r.1 < 16 ∧ 1 ≤ r.2) ∧ Ready c out m k s) (Fails c out) := by
  unfold readRepeat
  split
  · split
    · exact fails_throw fun s hs => hs.grown
    · refine Contract.bind (need_contract 2) fun times => ?_
      exact Contract.pure fun s hs => ⟨⟨hsizes _, by omega⟩, hs.2.mono (sub_le ..)⟩
  · split
    · refine Contract.bind (need_contract 3) fun times => ?_
      exact Contract.pure fun s hs => ⟨⟨by omega, by omega⟩, hs.2.mono (sub_le ..)⟩
    · refine Contract.bind (need_contract 7) fun times => ?_
      exact Contract.pure fun s hs => ⟨⟨by omega, by omega⟩, hs.2.mono (sub_le ..)⟩

/-- The loop over the sizes ends: each turn writes one at least. -/
theorem readSizes_contract {lengths : Huffman} {n total : Nat} (hl : TableOk lengths n)
    (htotal : total ≤ 320) : ∀ fuel index sizes, index ≤ total → total < index + fuel →
    (∀ i, sizes i < 16) →
    Contract (Ready c out m k) (readSizes c lengths total fuel index sizes)
      (fun sizes s => (∀ i, sizes i < 16) ∧ Ready c out m k s) (Fails c out) := by
  intro fuel
  induction fuel with
  | zero =>
    intro index sizes hle hfuel
    omega
  | succ fuel ih =>
    intro index sizes _ hfuel hsizes
    rw [readSizes]
    split
    · next hindex =>
        refine Contract.bind (decode_contract hl) fun symbol => ?_
        refine Contract.of_fact fun _ => ?_
        split
        · next hsymbol =>
            rw [if_neg (by omega)]
            refine (ih (index + 1) _ (by omega) (by omega) fun i => ?_).weaken
              (fun s hs => hs.mono (sub_le ..)) fun _ _ h => h
            by_cases hi : i = index
            · rw [hi, update_self]
              exact hsymbol
            · rw [update_of_ne hi]
              exact hsizes i
        · refine Contract.bind (readRepeat_contract hsizes) ?_
          rintro ⟨size, times⟩
          refine Contract.of_fact fun hr => ?_
          dsimp only
          split
          · exact fails_throw fun s hs => hs.grown
          · next hle =>
              obtain ⟨sizes', heq, hsizes'⟩ := repeatSize_eq hr.1 times index sizes (by omega) hsizes
              rw [heq, pure_bind]
              exact (ih (index + times) sizes' (by omega) (by omega) hsizes').weaken
                (fun s hs => hs.mono (sub_le ..)) fun _ _ h => h
    · exact Contract.pure fun s hs => ⟨hsizes, hs⟩

theorem refuse_contract {α : Type} {Q : α → Inflate → Prop} {ok : Bool} {x : Decoder α}
    (hP : ∀ s, P s → Grown c out s) (hx : ok = true → Contract P x Q (Fails c out)) :
    Contract P (if (!ok) = true then throw .broken else x) Q (Fails c out) := by
  cases ok with
  | false => exact fails_throw hP
  | true => exact hx rfl

theorem dynamic_contract (hm : m ≤ 8 * c.input.length) :
    Contract (Ready c out m 0) (dynamic c) (fun _ => Ready c out m 0) (Fails c out) := by
  refine Contract.bind (need_contract 5) fun nlen => Contract.of_fact fun _ => ?_
  refine Contract.bind (need_contract 5) fun ndist => Contract.of_fact fun _ => ?_
  refine Contract.bind (need_contract 4) fun ncode => Contract.of_fact fun hncode => ?_
  split
  · exact fails_throw fun s hs => hs.grown
  next hsizes =>
  refine Contract.bind ((readOrder_contract (ncode + 4) 0 _ (by omega) fun _ => by omega)) ?_
  intro sizes
  refine Contract.of_fact fun hlt => ?_
  refine Contract.bind (construct_contract sizes 19 (fun i _ => hlt i) (by omega)) ?_
  rintro ⟨ok, lengths⟩
  refine Contract.of_fact fun htable => ?_
  refine refuse_contract (fun s hs => hs.grown) fun hok => ?_
  refine Contract.bind (readSizes_contract (htable.2 hok) (by omega) _ 0 sizes (by omega)
    (by omega) hlt) ?_
  intro sizes
  refine Contract.of_fact fun hlt => ?_
  refine Contract.bind (construct_contract sizes (nlen + 257) (fun i _ => hlt i) (by omega)) ?_
  rintro ⟨ok, lengths⟩
  refine Contract.of_fact fun hl => refuse_contract (fun s hs => hs.grown) fun hok => ?_
  refine Contract.bind (construct_contract (fun i => sizes (nlen + 257 + i)) (ndist + 1)
    (fun i _ => hlt _) (by omega)) ?_
  rintro ⟨ok', distances⟩
  refine Contract.of_fact fun hd => refuse_contract (fun s hs => hs.grown) fun hok' => ?_
  refine (codes_contract (hl.2 hok) (hd.2 hok') c.fuel m (lt_succ_of_le hm)).weaken
    (fun s hs => hs.mono (by omega)) fun _ _ h => h

theorem field16_contract {i : Nat} (h : i + 2 ≤ c.input.length) :
    Contract P (field16 c i) (fun _ s => P s) E := by
  obtain ⟨v, hv, _⟩ := get16_of_le h
  have heq : field16 c i = pure v := by
    rw [field16, hv]
  exact (contract_of_pure heq).weaken (fun _ hs => hs) fun _ _ hr => hr.2

theorem stored_contract :
    Contract (Ready c out m 0) (stored c) (fun _ => Ready c out m 0) (Fails c out) := by
  refine Contract.get fun s hs => Contract.set fun _ => ?_
  have hleft := hs.left
  unfold bitsLeft at hleft
  -- the state with no bits held, at any later place of the input
  have hready : ∀ i, s.at_ ≤ i → i ≤ c.input.length →
      Ready c out m 0 { s with bits := 0, held := 0, at_ := i } := by
    intro i hsi hi
    refine ⟨⟨hs.grown.before, hs.grown.start, hs.grown.bound⟩, hi, ?_, hs.back⟩
    show 8 * (c.input.length - i) + 0 ≤ m
    omega
  have hat := hs.at_le
  split
  · exact fails_throw fun t ht => ht ▸ (hready s.at_ (Nat.le_refl _) hat).grown
  next hfour =>
  refine Contract.bind (field16_contract (by omega)) fun length => ?_
  refine Contract.bind (field16_contract (by omega)) fun check => ?_
  split
  · exact fails_throw fun t ht => ht ▸ (hready s.at_ (Nat.le_refl _) hat).grown
  refine Contract.set fun _ => ?_
  split
  · exact fails_throw fun t ht => ht ▸ (hready (s.at_ + 4) (by omega) (by omega)).grown
  next hlength =>
  refine Contract.bind ((emit_keeps (m := m) (k := 0) _ (s.at_ + 4, 0)).weaken (fun t ht => ?_) fun _ _ h => h)
    fun _ => ?_
  · rw [ht]
    exact ⟨hready (s.at_ + 4) (by omega) (by omega), rfl⟩
  refine Contract.get fun t ht => ⟨fun t' ht' => ?_⟩
  obtain ⟨hgrown, hplace⟩ := ht
  have hat' : t.at_ = s.at_ + 4 := congrArg Prod.fst hplace
  have hheld : t.held = 0 := congrArg Prod.snd hplace
  refine ⟨⟨hgrown.grown.before, hgrown.grown.start, hgrown.grown.bound⟩, ?_, ?_, hgrown.back⟩
  · show t.at_ + length ≤ _
    omega
  · show 8 * (c.input.length - (t.at_ + length)) + t.held ≤ m
    omega

theorem block_contract (type : Nat) (hm : m ≤ 8 * c.input.length) :
    Contract (Ready c out m 0) (block c type) (fun _ => Ready c out m 0) (Fails c out) := by
  unfold block
  split
  · exact stored_contract
  · split
    · exact fixed_contract hm
    · split
      · exact dynamic_contract hm
      · exact fails_throw fun s hs => hs.grown

theorem blocks_contract : ∀ fuel m, m < fuel → m ≤ 8 * c.input.length →
    Contract (Ready c out m 0) (blocks c fuel) (fun _ => Grown c out) (Fails c out) := by
  intro fuel
  induction fuel with
  | zero => exact fun m hm => absurd hm (Nat.not_lt_zero m)
  | succ fuel ih =>
    intro m hfuel hm
    refine Contract.bind (need_contract 1) fun last => Contract.of_fact fun hlast => ?_
    refine Contract.bind (need_contract 2) fun type => Contract.of_fact fun _ => ?_
    refine Contract.bind (block_contract type (by omega)) fun _ => ?_
    split
    · exact ih _ (by omega) (by omega)
    · exact Contract.pure fun s hs => hs.grown

/-- **`inflate` ends, reads inside of its input and stops at the limit**, whatever the input is. -/
theorem inflate_contract (input : List UInt8) (limit : Nat) (out : List UInt8) :
    match inflate input limit out with
    | .ok _ s => out <+: s.out ∧ s.out.length ≤ out.length + limit
    | .error e s => e = .broken ∧ out <+: s.out ∧ s.out.length ≤ out.length + limit := by
  have hready : Ready ⟨input, out.length, limit⟩ out (8 * input.length) 0 ⟨0, 0, 0, out⟩ :=
    ⟨⟨List.prefix_refl _, rfl, Nat.le_add_right ..⟩, Nat.zero_le _, Nat.le_refl _, Nat.le_refl _⟩
  have hrun := (blocks_contract _ _ (lt_succ_self _) (Nat.le_refl _)).run _ hready
  show match blocks ⟨input, out.length, limit⟩ (8 * input.length + 1) ⟨0, 0, 0, out⟩ with
    | .ok _ s => _
    | .error e s => _
  cases h : blocks ⟨input, out.length, limit⟩ (8 * input.length + 1) ⟨0, 0, 0, out⟩ with
  | ok a s =>
    rw [h] at hrun
    exact ⟨hrun.before, hrun.bound⟩
  | error e s =>
    rw [h] at hrun
    exact ⟨hrun.1, hrun.2.before, hrun.2.bound⟩

end Decoder

end AnticZip
