import Antic.InflateProofs
import Antic.Zip
import Mathlib.Data.List.Sort

/-! # A zip archive reads back, and a foreign one is read safely

    The first part takes any bytes for a file: the reader stays inside of them, and
    what it accepts has items apart from each other.  The second part follows the
    writer: every record it writes stands where the reader looks for it. -/

namespace AnticZip

open ByteFields Contracts List

/-! ## Reads inside of the file -/

section Reads

variable {bytes : List UInt8}

/-- The reader refuses the file; it does not read outside of it. -/
def Refuses (e : Refusal) : Prop := e ≠ .outside

theorem read16_gives {i : Nat} (h : i + 2 ≤ bytes.length) :
    Gives (read16 bytes i) (fun v => get16 bytes i = some v) Refuses := by
  obtain ⟨v, hv, _⟩ := get16_of_le h
  rw [read16, hv]
  exact .pure rfl

theorem read32_gives {i : Nat} (h : i + 4 ≤ bytes.length) :
    Gives (read32 bytes i) (fun v => get32 bytes i = some v) Refuses := by
  obtain ⟨v, hv, _⟩ := get32_of_le h
  rw [read32, hv]
  exact .pure rfl

theorem slice_of_le {i length : Nat} (h : i + length ≤ bytes.length) :
    ∃ x, slice bytes i length = some x ∧ x.length = length ∧ Stands bytes i x := by
  refine ⟨_, if_pos h, ?_, take_prefix ..⟩
  rw [length_take, length_drop]
  omega

theorem findEndFrom_gives : ∀ i, i + 22 ≤ bytes.length →
    Gives (findEndFrom bytes i) (fun stop => stop ≤ i ∧ get32 bytes stop = some zipEnd)
      Refuses := by
  intro i
  induction i with
  | zero =>
    intro h
    refine Gives.bind (read32_gives (by omega)) fun v hv => ?_
    split
    · next heq => exact .pure ⟨Nat.le_refl 0, heq ▸ hv⟩
    · exact .throw (fun h => nomatch h)
  | succ i ih =>
    intro h
    refine Gives.bind (read32_gives (by omega)) fun v hv => ?_
    split
    · next heq => exact .pure ⟨Nat.le_refl _, heq ▸ hv⟩
    split
    · exact .throw (fun h => nomatch h)
    · exact (ih (by omega)).weaken fun stop hs => ⟨Nat.le_succ_of_le hs.1, hs.2⟩

theorem findEnd_gives : Gives (findEnd bytes) (fun stop => stop + 22 ≤ bytes.length ∧
      get32 bytes stop = some zipEnd) Refuses := by
  unfold findEnd
  split
  · exact .throw (fun h => nomatch h)
  · refine (findEndFrom_gives (bytes.length - 22) (by omega)).weaken fun stop hs => ?_
    exact ⟨by omega, hs.2⟩

/-- The central entry at `at_` names the item, with its local header at `local_`. -/
structure Names (bytes : List UInt8) (stop at_ local_ : Nat) (item : Item) : Prop where
  central : get32 bytes at_ = some zipCentral
  name : Stands bytes (at_ + 46) item.name
  inside : at_ + 46 + item.name.length ≤ stop
  method : get16 bytes (at_ + 10) = some item.method
  crc : get32 bytes (at_ + 16) = some item.crc
  packed : get32 bytes (at_ + 20) = some item.packed
  size : get32 bytes (at_ + 24) = some item.size
  header : get32 bytes (at_ + 42) = some local_
  signature : get32 bytes local_ = some zipLocal
  offset : local_ + 30 ≤ item.offset
  data : item.offset + item.packed ≤ at_

theorem readEntry_gives {stop at_ total : Nat} (hstop : stop ≤ bytes.length) :
    Gives (readEntry bytes stop at_ total) (fun r => Names bytes stop at_ r.2.1.start r.1 ∧
        r.2.1.stop = r.1.offset + r.1.packed ∧ r.1.size ≤ zipMax32 - total) Refuses := by
  unfold readEntry
  split
  · exact .throw (fun h => nomatch h)
  next hcentral =>
  refine Gives.bind (read32_gives (by omega)) fun signature hsignature => ?_
  split
  · exact .throw (fun h => nomatch h)
  next hsig =>
  refine Gives.bind (read16_gives (by omega)) fun nameLength hnameLength => ?_
  refine Gives.bind (read16_gives (by omega)) fun method hmethod => ?_
  refine Gives.bind (read32_gives (by omega)) fun crc hcrc => ?_
  refine Gives.bind (read32_gives (by omega)) fun packed hpacked => ?_
  refine Gives.bind (read32_gives (by omega)) fun size hsize => ?_
  refine Gives.bind (read32_gives (by omega)) fun local_ hlocal => ?_
  split
  · exact .throw (fun h => nomatch h)
  next hbroken =>
  refine Gives.bind (read32_gives (by omega)) fun header hheader => ?_
  split
  · exact .throw (fun h => nomatch h)
  next hhead =>
  refine Gives.bind (read16_gives (by omega)) fun n hn => ?_
  refine Gives.bind (read16_gives (by omega)) fun k hk => ?_
  obtain ⟨name, hname, hlength, hstands⟩ :=
    slice_of_le (by omega : at_ + 46 + nameLength ≤ bytes.length)
  rw [hname]
  dsimp only
  split
  · exact .throw (fun h => nomatch h)
  next hdata =>
  split
  · exact .throw (fun h => nomatch h)
  next htotal =>
  refine Gives.bind (read16_gives (by omega)) fun x hx => ?_
  refine Gives.bind (read16_gives (by omega)) fun y hy => ?_
  refine .pure ⟨⟨?_, hstands, ?_, hmethod, hcrc, hpacked, hsize, hlocal, ?_, ?_, ?_⟩, rfl, ?_⟩
  · rw [hsignature, Decidable.not_not.1 hsig]
  · show at_ + 46 + name.length ≤ stop
    omega
  · rw [hheader, Decidable.not_not.1 hhead]
  · show local_ + 30 ≤ local_ + 30 + n + k
    omega
  · show local_ + 30 + n + k + packed ≤ at_
    omega
  · show size ≤ zipMax32 - total
    omega

/-- The items that the loop has read, with their spans. -/
def Listed (bytes : List UInt8) (stop : Nat) (r : Item × Span) : Prop :=
  (∃ at_, Names bytes stop at_ r.2.start r.1) ∧ r.2.stop = r.1.offset + r.1.packed

theorem readEntries_gives {stop : Nat} (hstop : stop ≤ bytes.length) :
    ∀ left at_ total, total ≤ zipMax32 →
    Gives (readEntries bytes stop left at_ total)
      (fun entries => (∀ r ∈ entries, Listed bytes stop r) ∧
        total + (entries.map fun r => r.1.size).sum ≤ zipMax32) Refuses := by
  intro left
  induction left with
  | zero => exact fun _ total htotal => .pure ⟨fun _ h => (nomatch h), htotal⟩
  | succ left ih =>
    intro at_ total htotal
    refine Gives.bind (readEntry_gives hstop) ?_
    rintro ⟨item, span, next⟩ ⟨hnames, hspan, hsize⟩
    dsimp only at hnames hspan hsize
    refine Gives.bind (ih next (total + item.size) (by omega)) fun entries hentries => ?_
    refine .pure ⟨fun r hr => ?_, ?_⟩
    · rcases mem_cons.1 hr with rfl | hr
      · exact ⟨⟨at_, hnames⟩, hspan⟩
      · exact hentries.1 r hr
    · have hsum := hentries.2
      rw [map_cons, sum_cons, ← Nat.add_assoc]
      exact hsum

end Reads

/-! ## Spans apart from each other -/

section Spans

/-- The spans share no byte. -/
def Span.Apart (a b : Span) : Prop := a.stop ≤ b.start ∨ b.stop ≤ a.start

instance (a b : Span) : Decidable (a.Apart b) := inferInstanceAs (Decidable (_ ∨ _))

theorem apart_iff : ∀ {spans : List Span}, (∀ a ∈ spans, a.start < a.stop) →
    spans.Pairwise (fun a b => a.start ≤ b.start) →
    (apart spans = true ↔ spans.Pairwise Span.Apart)
  | [], _, _ => by simp [apart]
  | [a], _, _ => by simp [apart]
  | a :: b :: spans, hpos, hsorted => by
      have htail := pairwise_cons.1 hsorted
      have ih := apart_iff (fun x hx => hpos x (mem_cons_of_mem _ hx)) htail.2
      have hab := htail.1 b (mem_cons_self ..)
      have hb := hpos b (by simp)
      rw [apart]
      by_cases hlt : b.start < a.stop
      · rw [if_pos hlt]
        constructor
        · exact fun h => nomatch h
        · intro h
          rcases (pairwise_cons.1 h).1 b (mem_cons_self ..) with h | h
          · omega
          · omega
      · rw [if_neg hlt, ih]
        refine ⟨fun h => pairwise_cons.2 ⟨fun x hx => Or.inl ?_, h⟩, fun h => (pairwise_cons.1 h).2⟩
        -- what follows starts after `b` does, so after `a` ends
        rcases mem_cons.1 hx with rfl | hx
        · omega
        · have := (pairwise_cons.1 htail.2).1 x hx
          omega

theorem spanOrder_iff {a b : Span} : spanOrder a b = true ↔ a.start ≤ b.start := decide_eq_true_iff

theorem sorted_spans (spans : List Span) :
    (spans.mergeSort spanOrder).Pairwise fun a b => a.start ≤ b.start := by
  have hsorted : (spans.mergeSort spanOrder).Pairwise fun a b => spanOrder a b = true := by
    refine pairwise_mergeSort (fun a b c hab hbc => ?_) (fun a b => ?_) spans
    · rw [spanOrder_iff] at hab hbc ⊢
      exact Nat.le_trans hab hbc
    · rw [Bool.or_eq_true, spanOrder_iff, spanOrder_iff]
      exact Nat.le_total ..
  exact hsorted.imp fun h => spanOrder_iff.1 h

theorem checkSpans_eq {spans : List Span} (hpos : ∀ a ∈ spans, a.start < a.stop) :
    checkSpans spans = if spans.Pairwise Span.Apart then pure () else throw .overlap := by
  have hperm := mergeSort_perm spans spanOrder
  have hiff := apart_iff (fun a ha => hpos a (hperm.mem_iff.1 ha)) (sorted_spans spans)
  rw [hperm.pairwise_iff (fun h => h.symm)] at hiff
  simp only [checkSpans, hiff]

end Spans

/-! ## What the reader accepts -/

/-- An archive that the reader accepts: each item has the bytes of its span, before the
    central entry that names it and apart from the other spans. -/
structure Accepted (bytes : List UInt8) (a : Archive) : Prop where
  whole : a.bytes = bytes
  items : ∃ (stop : Nat) (entries : List (Item × Span)), stop + 22 ≤ bytes.length ∧ get32 bytes stop = some zipEnd ∧
    a.items = entries.map Prod.fst ∧ (∀ r ∈ entries, Listed bytes stop r) ∧
    (entries.map Prod.snd).Pairwise Span.Apart
  total : (a.items.map Item.size).sum ≤ 2 ^ 32 - 1

theorem Listed.start_lt {bytes : List UInt8} {stop : Nat} {r : Item × Span}
    (h : Listed bytes stop r) : r.2.start < r.2.stop := by
  obtain ⟨⟨at_, hnames⟩, hstop⟩ := h
  have := hnames.offset
  omega

/-- **The reader stays inside of the file**, and what it accepts is sound. -/
theorem zipRead_gives (bytes : List UInt8) : Gives (zipRead bytes) (Accepted bytes) Refuses := by
  refine Gives.bind findEnd_gives fun stop hstop => ?_
  refine Gives.bind (read16_gives (by omega)) fun count _ => ?_
  refine Gives.bind (read32_gives (by omega)) fun at_ _ => ?_
  refine Gives.bind (readEntries_gives (by omega) count at_ 0 (Nat.zero_le _))
    fun entries hentries => ?_
  have hpos : ∀ a ∈ entries.map Prod.snd, a.start < a.stop := by
    intro a ha
    obtain ⟨r, hr, rfl⟩ := List.mem_map.1 ha
    exact (hentries.1 r hr).start_lt
  rw [checkSpans_eq hpos]
  split
  · next hapart =>
      refine .pure ⟨rfl, ⟨stop, entries, hstop.1, hstop.2, rfl, hentries.1, hapart⟩, ?_⟩
      have hsum := hentries.2
      rw [Nat.zero_add] at hsum
      rw [List.map_map]
      exact hsum
  · exact ⟨fun h => nomatch h⟩

/-- The outcome of `zip_unpack` on a sound item. -/
def UnpacksSafely (item : Item) (out : List UInt8) : Unpacked → Prop
  | .ok _ out' => out <+: out' ∧ out'.length = out.length + item.size
  | .error e out' => (e ≠ .outside ∧ e ≠ .endless) ∧ out <+: out' ∧
      out'.length ≤ out.length + item.size

theorem checkCrc_safely {item : Item} {out out' : List UInt8} (hout : out <+: out')
    (hlength : out'.length = out.length + item.size) :
    UnpacksSafely item out (checkCrc item out.length out') := by
  unfold checkCrc
  split
  · exact ⟨⟨fun h => (nomatch h), fun h => (nomatch h)⟩, hout, Nat.le_of_eq hlength⟩
  · exact ⟨hout, hlength⟩

/-- **`zip_unpack` stays inside of the file and of the declared size.** -/
theorem unpackItem_safely {a : Archive} {item : Item} (out : List UInt8)
    (h : item.offset + item.packed ≤ a.bytes.length) :
    UnpacksSafely item out (unpackItem a item out) := by
  have hbroken : ∀ e : Stop, e ≠ .outside → e ≠ .endless →
      UnpacksSafely item out (.error e out) :=
    fun e h1 h2 => ⟨⟨h1, h2⟩, prefix_refl _, Nat.le_add_right ..⟩
  unfold unpackItem
  split
  · split
    · next hsize =>
        obtain ⟨data, hdata, hlength, _⟩ := slice_of_le (hsize ▸ h)
        rw [hdata]
        refine checkCrc_safely (prefix_append ..) ?_
        rw [length_append, hlength]
    · exact hbroken _ (fun h => nomatch h) fun h => nomatch h
  split
  · obtain ⟨data, hdata, _, _⟩ := slice_of_le h
    rw [hdata]
    dsimp only
    have hinflate := inflate_contract data item.size out
    cases hr : inflate data item.size out with
    | error e s =>
      rw [hr] at hinflate
      obtain ⟨rfl, hbefore, hbound⟩ := hinflate
      exact ⟨⟨fun h => (nomatch h), fun h => (nomatch h)⟩, hbefore, hbound⟩
    | ok _ s =>
      rw [hr] at hinflate
      obtain ⟨hbefore, hbound⟩ := hinflate
      have hle := hbefore.length_le
      dsimp only
      split
      · exact checkCrc_safely hbefore (by omega)
      · exact ⟨⟨fun h => (nomatch h), fun h => (nomatch h)⟩, hbefore, hbound⟩
  · exact hbroken _ (fun h => nomatch h) fun h => nomatch h

theorem Accepted.unpack {bytes : List UInt8} {a : Archive} (ha : Accepted bytes a) {index : Nat}
    {item : Item} (hitem : a.items[index]? = some item) (out : List UInt8) :
    UnpacksSafely item out (zipUnpack a index out) := by
  obtain ⟨stop, entries, hstop, _, hitems, hlisted, _⟩ := ha.items
  have hmem : item ∈ entries.map Prod.fst := hitems ▸ mem_of_getElem? hitem
  obtain ⟨r, hr, rfl⟩ := List.mem_map.1 hmem
  obtain ⟨⟨at_, hnames⟩, _⟩ := hlisted r hr
  rw [zipUnpack, hitem]
  refine unpackItem_safely out ?_
  rw [ha.whole]
  have := hnames.data
  have := hnames.inside
  omega

/-! ## The writer -/

section Writer

variable {bytes : List UInt8}

theorem crc32Of_lt (data : List UInt8) : crc32Of data < 2 ^ 32 := BitVec.isLt _

theorem length_localRecord (name data : List UInt8) :
    (localRecord name data).length = 30 + name.length + data.length := by
  simp only [localRecord, length_append, length_put16, length_put32]

theorem length_centralRecord (name data : List UInt8) (executable : Bool) (offset : Nat) :
    (centralRecord name data executable offset).length = 46 + name.length := by
  simp only [centralRecord, length_append, length_put16, length_put32]

/-- The records of the entries stand in the file: the local ones from `local_` on, the
    central ones from `at_` on. -/
inductive Written (bytes : List UInt8) (start stop : Nat) :
    (local_ at_ : Nat) → List ZipEntry → Prop where
  | nil (local_ at_ : Nat) : Written bytes start stop local_ at_ []
  | cons {local_ at_ : Nat} {e : ZipEntry} {entries : List ZipEntry} {data : List UInt8} :
      e.content = some data → e.name.length ≤ zipMax16 → data.length ≤ zipMax32 →
      local_ ≤ zipMax32 → local_ + (localRecord e.name data).length ≤ start → start ≤ at_ →
      at_ + (centralRecord e.name data e.executable local_).length ≤ stop →
      Stands bytes local_ (localRecord e.name data) →
      Stands bytes at_ (centralRecord e.name data e.executable local_) →
      Written bytes start stop (local_ + (localRecord e.name data).length)
        (at_ + (centralRecord e.name data e.executable local_).length) entries →
      Written bytes start stop local_ at_ (e :: entries)

/-- What the loop of `zip_write` has written stands in every file that starts so. -/
theorem writeEntries_written : ∀ {entries : List ZipEntry} {index : Nat}
    {out directory out' directory' : List UInt8},
    writeEntries index entries out directory = .ok (out', directory') →
    out <+: out' ∧ directory <+: directory' ∧
    out.length + (entries.map fun e => (e.content.getD []).length).sum ≤ out'.length ∧
    ∀ bytes, Stands bytes 0 out' → Stands bytes out'.length directory' →
      Written bytes out'.length (out'.length + directory'.length) out.length
        (out'.length + directory.length) entries := by
  intro entries
  induction entries with
  | nil =>
    intro index out directory out' directory' h
    cases h
    exact ⟨prefix_refl _, prefix_refl _, Nat.le_refl _, fun _ _ _ => .nil _ _⟩
  | cons e entries ih =>
    intro index out directory out' directory' h
    rw [writeEntries] at h
    cases hcontent : e.content with
    | none =>
      rw [hcontent] at h
      cases h
    | some data =>
      rw [hcontent] at h
      dsimp only at h
      split at h
      · cases h
      next hfits =>
      obtain ⟨hout, hdirectory, hsum, hwritten⟩ := ih h
      have hlocal := length_localRecord e.name data
      refine ⟨(prefix_append ..).trans hout, (prefix_append ..).trans hdirectory,
        ?_, fun bytes hbytes hstands => ?_⟩
      · rw [length_append] at hsum
        rw [map_cons, sum_cons, hcontent, Option.getD_some]
        omega
      · have hrest := hwritten bytes hbytes hstands
        have hle := hout.length_le
        rw [length_append] at hle
        have hdle := hdirectory.length_le
        rw [length_append] at hdle
        rw [length_append, length_append, ← Nat.add_assoc] at hrest
        refine .cons hcontent (by omega) (by omega) (by omega) (by omega) (by omega)
          (by omega) ?_ ?_ hrest
        · have : Stands bytes 0 (out ++ localRecord e.name data) := hout.trans hbytes
          simpa using this.right
        · have : Stands bytes out'.length (directory ++ centralRecord e.name data
            e.executable out.length) := hdirectory.trans hstands
          exact this.right

variable {name data : List UInt8} {entries : List ZipEntry}

theorem centralRecord_fields {executable : Bool} {at_ offset : Nat}
    (h : Stands bytes at_ (centralRecord name data executable offset))
    (hname : name.length ≤ zipMax16) (hdata : data.length ≤ zipMax32)
    (hoffset : offset ≤ zipMax32) :
    get32 bytes at_ = some zipCentral ∧ get16 bytes (at_ + 10) = some 0 ∧
    get32 bytes (at_ + 16) = some (crc32Of data) ∧
    get32 bytes (at_ + 20) = some data.length ∧ get32 bytes (at_ + 24) = some data.length ∧
    get16 bytes (at_ + 28) = some name.length ∧ get16 bytes (at_ + 30) = some 0 ∧
    get16 bytes (at_ + 32) = some 0 ∧ get32 bytes (at_ + 42) = some offset ∧
    Stands bytes (at_ + 46) name := by
  simp only [centralRecord, append_assoc] at h
  have h4 : Stands bytes (at_ + 4) _ := h.right
  have h6 : Stands bytes (at_ + 6) _ := h4.right
  have h8 : Stands bytes (at_ + 8) _ := h6.right
  have h10 : Stands bytes (at_ + 10) _ := h8.right
  have h12 : Stands bytes (at_ + 12) _ := h10.right
  have h14 : Stands bytes (at_ + 14) _ := h12.right
  have h16 : Stands bytes (at_ + 16) _ := h14.right
  have h20 : Stands bytes (at_ + 20) _ := h16.right
  have h24 : Stands bytes (at_ + 24) _ := h20.right
  have h28 : Stands bytes (at_ + 28) _ := h24.right
  have h30 : Stands bytes (at_ + 30) _ := h28.right
  have h32 : Stands bytes (at_ + 32) _ := h30.right
  have h34 : Stands bytes (at_ + 34) _ := h32.right
  have h36 : Stands bytes (at_ + 36) _ := h34.right
  have h38 : Stands bytes (at_ + 38) _ := h36.right
  have h42 : Stands bytes (at_ + 42) _ := h38.right
  exact ⟨get32_put32 h.left (by decide), get16_put16 h10.left (by decide),
    get32_put32 h16.left (crc32Of_lt data), get32_put32 h20.left (Nat.lt_succ_of_le hdata),
    get32_put32 h24.left (Nat.lt_succ_of_le hdata), get16_put16 h28.left (Nat.lt_succ_of_le hname),
    get16_put16 h30.left (by decide), get16_put16 h32.left (by decide),
    get32_put32 h42.left (Nat.lt_succ_of_le hoffset), h42.right⟩

theorem localRecord_fields {at_ : Nat} (h : Stands bytes at_ (localRecord name data))
    (hname : name.length ≤ zipMax16) :
    get32 bytes at_ = some zipLocal ∧ get16 bytes (at_ + 26) = some name.length ∧
    get16 bytes (at_ + 28) = some 0 ∧ Stands bytes (at_ + 30 + name.length) data := by
  simp only [localRecord, append_assoc] at h
  have h4 : Stands bytes (at_ + 4) _ := h.right
  have h6 : Stands bytes (at_ + 6) _ := h4.right
  have h8 : Stands bytes (at_ + 8) _ := h6.right
  have h10 : Stands bytes (at_ + 10) _ := h8.right
  have h12 : Stands bytes (at_ + 12) _ := h10.right
  have h14 : Stands bytes (at_ + 14) _ := h12.right
  have h18 : Stands bytes (at_ + 18) _ := h14.right
  have h22 : Stands bytes (at_ + 22) _ := h18.right
  have h26 : Stands bytes (at_ + 26) _ := h22.right
  have h28 : Stands bytes (at_ + 28) _ := h26.right
  have h30 : Stands bytes (at_ + 30) _ := h28.right
  exact ⟨get32_put32 h.left (by decide), get16_put16 h26.left (Nat.lt_succ_of_le hname),
    get16_put16 h28.left (by decide), h30.right⟩

theorem slice_of_stands {i : Nat} {x : List UInt8} (h : Stands bytes i x)
    (hlength : i + x.length ≤ bytes.length) : slice bytes i x.length = some x := by
  rw [slice, if_pos hlength, h.take]

/-- The item of an entry with its local header at `local_`. -/
def itemOf (name data : List UInt8) (local_ : Nat) : Item :=
  ⟨name, local_ + 30 + name.length, data.length, data.length, crc32Of data, 0⟩

theorem readEntry_written {executable : Bool} {stop local_ at_ total : Nat}
    (hname : name.length ≤ zipMax16) (hdata : data.length ≤ zipMax32)
    (hlocal : local_ ≤ zipMax32) (hbefore : local_ + (localRecord name data).length ≤ at_)
    (hinside : at_ + 46 + name.length ≤ stop) (hstop : stop ≤ bytes.length)
    (hl : Stands bytes local_ (localRecord name data))
    (hc : Stands bytes at_ (centralRecord name data executable local_))
    (htotal : total + data.length ≤ zipMax32) :
    readEntry bytes stop at_ total = .ok (itemOf name data local_,
      ⟨local_, local_ + 30 + name.length + data.length⟩, at_ + 46 + name.length) := by
  obtain ⟨hsig, hmethod, hcrc, hpacked, hsize, hlength, hextra, hcomment, hoffset, hstands⟩ :=
    centralRecord_fields hc hname hdata hlocal
  obtain ⟨hlsig, hlname, hlextra, _⟩ := localRecord_fields hl hname
  rw [length_localRecord] at hbefore
  have hslice := slice_of_stands hstands (by omega)
  have hread16 : ∀ {i v}, get16 bytes i = some v → read16 bytes i = .ok v := by
    intro i v hv
    rw [read16, hv]
  have hread32 : ∀ {i v}, get32 bytes i = some v → read32 bytes i = .ok v := by
    intro i v hv
    rw [read32, hv]
  simp only [readEntry, hread32 hsig, hread16 hlength, hread16 hmethod, hread32 hcrc,
    hread32 hpacked, hread32 hsize, hread32 hoffset, hread32 hlsig, hread16 hlname,
    hread16 hlextra, hread16 hextra, hread16 hcomment, hslice, bind, Except.bind]
  rw [if_neg (by omega), if_neg (by simp), if_neg (by omega), if_neg (by simp),
    if_neg (by omega), if_neg (by omega)]
  rfl

/-- The item and the span that the reader makes of an entry. -/
def ReadsAs (bytes : List UInt8) (e : ZipEntry) (r : Item × Span) : Prop :=
  ∃ data local_, e.content = some data ∧
    r = (itemOf e.name data local_, ⟨local_, local_ + 30 + e.name.length + data.length⟩) ∧
    Stands bytes (local_ + 30 + e.name.length) data ∧
    local_ + 30 + e.name.length + data.length ≤ bytes.length

/-- **What was written of the entries is read**, and their spans follow each other. -/
theorem readEntries_written {start stop : Nat} (hstop : stop ≤ bytes.length) :
    ∀ {entries : List ZipEntry} {local_ at_ : Nat} (total : Nat),
    Written bytes start stop local_ at_ entries →
    total + (entries.map fun e => (e.content.getD []).length).sum ≤ zipMax32 →
    ∃ read, readEntries bytes stop entries.length at_ total = .ok read ∧
      List.Forall₂ (ReadsAs bytes) entries read ∧
      (∀ r ∈ read, local_ ≤ r.2.start ∧ r.2.start < r.2.stop) ∧
      (read.map Prod.snd).Pairwise Span.Apart := by
  intro entries
  induction entries with
  | nil =>
    intro local_ at_ total _ _
    exact ⟨[], rfl, .nil, fun _ h => (nomatch h), .nil⟩
  | cons e entries ih =>
    intro local_ at_ total hwritten htotal
    cases hwritten with
    | @cons _ _ _ _ data hcontent hname hdata hlocal hbefore hat hinside hl hc hrest =>
      rw [length_centralRecord] at hinside hrest
      rw [map_cons, sum_cons, hcontent, Option.getD_some] at htotal
      have hentry := readEntry_written hname hdata hlocal (by omega : _ ≤ at_) (by omega)
        hstop hl hc (by omega : total + data.length ≤ zipMax32)
      obtain ⟨read, hread, hall, hfrom, hapart⟩ := ih (total + data.length) hrest (by omega)
      rw [length_localRecord] at hbefore hfrom
      refine ⟨(itemOf e.name data local_,
        ⟨local_, local_ + 30 + e.name.length + data.length⟩) :: read, ?_, ?_, ?_, ?_⟩
      · rw [length_cons, readEntries, hentry]
        show (readEntries bytes stop entries.length _ (total + data.length) >>= _) = _
        rw [← Nat.add_assoc] at hread
        rw [hread]
        rfl
      · exact .cons ⟨data, local_, hcontent, rfl, (localRecord_fields hl hname).2.2.2,
          by omega⟩ hall
      · intro r hr
        rcases mem_cons.1 hr with rfl | hr
        · dsimp only
          omega
        · have := hfrom r hr
          omega
      · refine pairwise_cons.2 ⟨fun span hspan => Or.inl ?_, hapart⟩
        obtain ⟨r, hr, rfl⟩ := List.mem_map.1 hspan
        have := hfrom r hr
        dsimp only
        omega

theorem length_endRecord (count directory start : Nat) :
    (endRecord count directory start).length = 22 := rfl

/-- The end record is found at once where it is the last thing of the file. -/
theorem findEnd_last {stop : Nat} (hlength : bytes.length = stop + 22)
    (hsig : read32 bytes stop = .ok zipEnd) : findEnd bytes = .ok stop := by
  rw [findEnd, hlength, if_neg (by omega), Nat.add_sub_cancel]
  cases stop with
  | zero =>
    rw [findEndFrom, hsig]
    rfl
  | succ i =>
    rw [findEndFrom, hsig]
    rfl

theorem endRecord_fields {at_ count directory start : Nat}
    (h : Stands bytes at_ (endRecord count directory start)) (hcount : count ≤ zipMax16)
    (hstart : start ≤ zipMax32) :
    read32 bytes at_ = .ok zipEnd ∧ read16 bytes (at_ + 10) = .ok count ∧
      read32 bytes (at_ + 16) = .ok start := by
  simp only [endRecord, append_assoc] at h
  have h4 : Stands bytes (at_ + 4) _ := h.right
  have h6 : Stands bytes (at_ + 6) _ := h4.right
  have h8 : Stands bytes (at_ + 8) _ := h6.right
  have h10 : Stands bytes (at_ + 10) _ := h8.right
  have h12 : Stands bytes (at_ + 12) _ := h10.right
  have h16 : Stands bytes (at_ + 16) _ := h12.right
  rw [read32, get32_put32 h.left (by decide), read16,
    get16_put16 h10.left (Nat.lt_succ_of_le hcount), read32,
    get32_put32 h16.left (Nat.lt_succ_of_le hstart)]
  exact ⟨rfl, rfl, rfl⟩

theorem unpackItem_written {a : Archive} {e : ZipEntry} {r : Item × Span}
    (h : ReadsAs a.bytes e r) (out : List UInt8) :
    ∃ content, e.content = some content ∧ unpackItem a r.1 out = .ok () (out ++ content) := by
  obtain ⟨data, local_, hcontent, rfl, hstands, hinside⟩ := h
  refine ⟨data, hcontent, ?_⟩
  show unpackItem a (itemOf e.name data local_) out = _
  have hslice : slice a.bytes (itemOf e.name data local_).offset
      (itemOf e.name data local_).size = some data := slice_of_stands hstands hinside
  have hmethod : (itemOf e.name data local_).method = 0 := rfl
  have hpacked : (itemOf e.name data local_).packed = (itemOf e.name data local_).size := rfl
  have hcrc : ¬ crc32Of ((out ++ data).drop out.length) ≠ (itemOf e.name data local_).crc := by
    rw [drop_left]
    exact Decidable.not_not.2 rfl
  rw [unpackItem, if_pos hmethod, if_pos hpacked, hslice]
  exact if_neg hcrc

theorem readsAs_getElem? {read : List (Item × Span)}
    (h : List.Forall₂ (ReadsAs bytes) entries read) : ∀ {index : Nat} {e : ZipEntry},
    entries[index]? = some e → ∃ r, read[index]? = some r ∧ ReadsAs bytes e r := by
  induction h with
  | nil => exact fun h => nomatch h
  | cons hr _ ih =>
    intro index e he
    cases index with
    | zero =>
      cases he
      exact ⟨_, rfl, hr⟩
    | succ index => exact ih he

theorem readsAs_names {read : List (Item × Span)} (h : List.Forall₂ (ReadsAs bytes) entries read) :
    (read.map Prod.fst).map Item.name = entries.map ZipEntry.name := by
  induction h with
  | nil => rfl
  | cons hr _ ih =>
    obtain ⟨data, local_, _, rfl, _⟩ := hr
    rw [map_cons, map_cons, map_cons, ih]
    rfl

/-- **What `zip_write` writes reads back.** -/
theorem zipRead_zipWrite (h : zipWrite entries = .ok bytes) :
    ∃ a, zipRead bytes = .ok a ∧ a.items.map Item.name = entries.map ZipEntry.name ∧
      ∀ index e, entries[index]? = some e → ∃ content, e.content = some content ∧
        ∀ out, zipUnpack a index out = .ok () (out ++ content) := by
  unfold zipWrite at h
  split at h
  · cases h
  next hcount =>
  cases hentries : writeEntries 0 entries [] [] with
  | error e =>
    rw [hentries] at h
    cases h
  | ok r =>
    obtain ⟨out, directory⟩ := r
    rw [hentries] at h
    dsimp only at h
    split at h
    · cases h
    next hfits =>
    cases h
    obtain ⟨_, _, hsum, hwritten⟩ := writeEntries_written hentries
    have hend : Stands (out ++ directory ++ endRecord entries.length directory.length out.length)
        (out ++ directory).length (endRecord entries.length directory.length out.length) := by
      refine ⟨[], ?_⟩
      rw [drop_left, append_nil]
    have hout : Stands (out ++ directory ++
        endRecord entries.length directory.length out.length) 0 out := by
      rw [append_assoc]
      exact prefix_append ..
    have hdirectory : Stands (out ++ directory ++
        endRecord entries.length directory.length out.length) out.length directory := by
      rw [append_assoc]
      exact stands_middle ..
    generalize hbytes : out ++ directory ++
      endRecord entries.length directory.length out.length = bytes at hend hout hdirectory ⊢
    have hlength : bytes.length = out.length + directory.length + 22 := by
      rw [← hbytes, length_append, length_append, length_endRecord]
    obtain ⟨hsig, hcountField, hstartField⟩ := endRecord_fields hend (by omega) (by omega)
    rw [length_append] at hsig hcountField hstartField
    have hsum' : 0 + (entries.map fun e => (e.content.getD []).length).sum ≤ zipMax32 := by
      omega
    obtain ⟨read, hread, hall, hspans, hapart⟩ := readEntries_written (by omega) 0
      (hwritten bytes hout hdirectory) hsum'
    have hpos : ∀ a ∈ read.map Prod.snd, a.start < a.stop := by
      intro a ha
      obtain ⟨r, hr, rfl⟩ := List.mem_map.1 ha
      exact (hspans r hr).2
    refine ⟨⟨bytes, read.map Prod.fst⟩, ?_, readsAs_names hall, fun index e he => ?_⟩
    · rw [zipRead, findEnd_last (by omega) hsig]
      simp only [bind, Except.bind, hcountField, hstartField]
      rw [length_nil, Nat.add_zero] at hread
      rw [hread]
      dsimp only
      rw [checkSpans_eq hpos, if_pos hapart]
      rfl
    · obtain ⟨r, hr, hreads⟩ := readsAs_getElem? hall he
      obtain ⟨content, hcontent, _⟩ := unpackItem_written (a := ⟨bytes, read.map Prod.fst⟩)
        hreads []
      refine ⟨content, hcontent, fun out => ?_⟩
      obtain ⟨content', hcontent', hunpack⟩ := unpackItem_written
        (a := ⟨bytes, read.map Prod.fst⟩) hreads out
      rw [hcontent] at hcontent'
      cases hcontent'
      have hitem : (read.map Prod.fst)[index]? = some r.1 := by
        rw [getElem?_map, hr]
        rfl
      rw [zipUnpack, hitem]
      exact hunpack

end Writer

/-- **A zip archive reads back, and a foreign one is read safely.** -/
theorem zip_reads_back_and_safely : (∀ entries bytes, zipWrite entries = .ok bytes →
      ∃ a, zipRead bytes = .ok a ∧ a.items.map Item.name = entries.map ZipEntry.name ∧
        ∀ index e, entries[index]? = some e → ∃ content, e.content = some content ∧
          ∀ out, zipUnpack a index out = .ok () (out ++ content)) ∧
    ∀ bytes, zipRead bytes ≠ .error .outside ∧ ∀ a, zipRead bytes = .ok a → Accepted bytes a ∧
        ∀ index item out, a.items[index]? = some item →
          UnpacksSafely item out (zipUnpack a index out) := by
  refine ⟨fun entries bytes h => zipRead_zipWrite h, fun bytes => ?_⟩
  have hread := (zipRead_gives bytes).run
  constructor
  · intro herror
    rw [herror] at hread
    exact hread rfl
  · intro a ha
    rw [ha] at hread
    exact ⟨hread, fun index item out hitem => hread.unpack hitem out⟩

/-- Two entries, one of them of no bytes. -/
def twoEntries : List ZipEntry := [⟨[97], some [104, 105], true⟩, ⟨[98, 46, 99], some [], false⟩]

/-- The archive of `twoEntries` reads back. -/
theorem twoEntries_read_back : ∃ bytes a, zipWrite twoEntries = .ok bytes ∧
    zipRead bytes = .ok a ∧ a.items.map Item.name = [[97], [98, 46, 99]] ∧
    zipUnpack a 0 [] = .ok () [104, 105] := by
  have hwrite : zipWrite twoEntries = .ok ((zipWrite twoEntries).toOption.getD []) := by
    decide +kernel
  obtain ⟨a, hread, hnames, hunpack⟩ := zip_reads_back_and_safely.1 twoEntries _ hwrite
  obtain ⟨content, hcontent, hout⟩ := hunpack 0 _ rfl
  cases hcontent
  exact ⟨_, a, hwrite, hread, hnames, hout []⟩

end AnticZip
