import Antic.CommuteProofs
import Antic.ForwardStores

/-! # Store-to-load forwarding keeps every register and the memory

    At each instruction of a block, an address that is known is the sum of its base
    and its offset (`AddressOk`), and the memory at the address that is remembered
    holds the value that is remembered (`HeldOk`).  So a load that becomes a copy
    writes what the load wrote, and the two functions run in lockstep. -/

namespace AnticIr

open ByteMemory List

variable {M : Meaning} {m m' : MemMachine} {temps : List IrType}

/-! ## Addresses -/

/-- The offset of a `ptradd` that the verifier passed: two of one kind and one number
    have one value. -/
def OffsetOk (o : IrOperand) : Prop := o.kind = .temp ∨ o.kind = .none ∨ o.type = .i64

/-- A known address of the operand `at_`. -/
structure AddressOk (M : Meaning) (m : MemMachine) (at_ : IrOperand) (a : Address) : Prop where
  sum : valueOf M m a.base + valueOf M m a.offset = valueOf M m at_
  base : a.base.kind = .temp
  offset : OffsetOk a.offset

/-- What is known of every temporary before an instruction. -/
def AddressesOk (M : Meaning) (m : MemMachine) (before : List IrInst) : Prop :=
  ∀ at_ : IrOperand, at_.val ≠ irNoResult → (addressOf before at_).known = true →
    AddressOk M m at_ (addressOf before at_)

theorem valueOf_temp {o : IrOperand} (hk : o.kind = .temp) : valueOf M m o = m.regs o.val := by
  rw [valueOf, hk]

theorem valueOf_zero : valueOf M m (irIntOp .i64 0) = 0 := by
  show M.trim .i64 (M.constant .int _) = 0
  rw [M.trim_i64, M.constant_int]
  rfl

variable {inst : IrInst} {at_ : IrOperand} {before : List IrInst} {h : Held}

theorem valueOf_of_not_names {o : IrOperand} (h : stepInst M inst m = some m')
    (hn : namesTemp o inst.result = false ∨ inst.result = irNoResult) :
    valueOf M m' o = valueOf M m o := by
  refine valueOf_congr fun hk => stepInst_regs h ?_
  refine hn.imp (fun hn he => ?_) id
  rw [namesTemp, decide_eq_false_iff_not] at hn
  exact hn ⟨hk, he⟩

theorem address_temp (before : List IrInst) (h : (addressOf before at_).known = true) :
    at_.kind = .temp := by
  unfold addressOf at h
  split at h
  · next hk => exact hk
  · exact of_decide_eq_true h

theorem addressOk_self (hk : at_.kind = .temp) {known : Bool} :
    AddressOk M m at_ ⟨at_, irIntOp .i64 0, known⟩ := by
  refine ⟨?_, hk, .inr (.inr rfl)⟩
  show valueOf M m at_ + valueOf M m (irIntOp .i64 0) = _
  rw [valueOf_zero]
  exact BitVec.add_zero _

/-- A temporary that was not written in the block is its own base. -/
theorem addresses_start : AddressesOk M m [] := by
  intro at_ _ hknown
  have hk := address_temp [] hknown
  have hstart : addressOf [] at_ = ⟨at_, irIntOp .i64 0, at_.kind = .temp⟩ := by
    rw [addressOf, if_pos hk]
    rfl
  rw [hstart]
  exact addressOk_self hk

theorem addressOf_snoc (before : List IrInst) (inst : IrInst) (hk : at_.kind = .temp) :
    addressOf (before ++ [inst]) at_ = addressTurn at_ (addressOf before at_) inst := by
  rw [addressOf, addressOf, if_pos hk, if_pos hk, foldl_append]
  rfl

/-- One instruction, run or turned into one that writes the same register. -/
theorem addresses_step {inst' : IrInst} (h : AddressesOk M m before)
    (hstep : stepInst M inst m = some m') (hresult : inst'.result = inst.result)
    (hptradd : inst'.op = .ptradd → inst' = inst)
    (hoffset : inst.op = .ptradd → OffsetOk inst.b) : AddressesOk M m' (before ++ [inst']) := by
  intro at_ hno hknown
  have hk := address_temp _ hknown
  rw [addressOf_snoc before inst' hk] at hknown ⊢
  unfold addressTurn at hknown ⊢
  by_cases hwrites : inst'.result = at_.val
  · rw [if_pos hwrites] at hknown ⊢
    by_cases hop : inst'.op = .ptradd
    · -- the address is the sum that the instruction wrote
      have hinst := hptradd hop
      subst hinst
      rw [if_pos hop] at hknown ⊢
      have hnames : inst'.a.kind = .temp ∧ namesTemp inst'.a inst'.result = false ∧
          namesTemp inst'.b inst'.result = false := by
        simpa using hknown
      refine ⟨?_, hnames.1, hoffset hop⟩
      show valueOf M m' inst'.a + valueOf M m' inst'.b = valueOf M m' at_
      rw [valueOf_of_not_names hstep (.inl hnames.2.1),
        valueOf_of_not_names hstep (.inl hnames.2.2), valueOf_temp (m := m') hk, ← hwrites]
      rw [stepInst, hop] at hstep
      cases hstep
      rw [write_regs, if_pos ⟨hwrites ▸ hno, rfl⟩]
    · rw [if_neg hop]
      exact addressOk_self hk
  · rw [if_neg hwrites] at hknown ⊢
    have hsame : m'.regs at_.val = m.regs at_.val :=
      stepInst_regs hstep (.inl fun he => hwrites (hresult.trans he.symm))
    split at hknown
    · cases hknown
    · next hleaves =>
        rw [if_neg hleaves]
        obtain ⟨hsum, hbase, hoff⟩ := h at_ hno hknown
        have hnames (o : IrOperand) (ho : o = (addressOf before at_).base ∨
            o = (addressOf before at_).offset) : valueOf M m' o = valueOf M m o := by
          refine valueOf_of_not_names hstep ?_
          rw [← hresult]
          by_cases hr : inst'.result = irNoResult
          · exact .inr hr
          · refine .inl (Bool.eq_false_iff.2 fun hn => hleaves ⟨hr, ?_⟩)
            rcases ho with rfl | rfl
            · exact .inl hn
            · exact .inr hn
        refine ⟨?_, hbase, hoff⟩
        rw [hnames _ (.inl rfl), hnames _ (.inr rfl), hsum, valueOf_temp hk,
          valueOf_temp (m := m') hk, hsame]

theorem sameAddress_value {a b : Address} (h : sameAddress a b = true)
    (ha : a.base.kind = .temp ∧ OffsetOk a.offset) (hb : OffsetOk b.offset) :
    valueOf M m a.base + valueOf M m a.offset = valueOf M m b.base + valueOf M m b.offset := by
  have hvalue {o o' : IrOperand} (hs : sameOperand o o' = true) (ho : OffsetOk o)
      (ho' : OffsetOk o') : valueOf M m o = valueOf M m o' := by
    unfold sameOperand at hs
    split at hs
    · cases hs
    · next hkind =>
        have hkind : o.kind = o'.kind := not_not.1 hkind
        unfold OffsetOk at ho ho'
        unfold valueOf
        rw [← hkind] at ho' ⊢
        cases hk : o.kind with
        | none => rfl
        | temp =>
          have hval : o.val = o'.val := by simpa [hk, irSameScalar] using hs
          rw [hval]
        | _ =>
          have hval : o.val = o'.val := by simpa [hk, irSameScalar] using hs
          rw [hk] at ho ho'
          have ht := (ho.resolve_left nofun).resolve_left nofun
          have ht' := (ho'.resolve_left nofun).resolve_left nofun
          rw [hval, ht, ht']
  unfold sameAddress at h
  simp only [Bool.and_eq_true] at h
  obtain ⟨⟨-, hbase⟩, hoffset⟩ := h
  have hbkind : b.base.kind = .temp := by
    by_contra hne
    rw [sameOperand, if_pos (by rw [ha.1]; exact fun he => hne he.symm)] at hbase
    cases hbase
  rw [hvalue hbase (.inl ha.1) (.inl hbkind), hvalue hoffset ha.2 hb]

/-! ## What is remembered -/

/-- The memory at the address that is remembered holds the value. -/
structure Holds (M : Meaning) (m : MemMachine) (h : Held) : Prop where
  base : h.held.base.kind = .temp
  offset : OffsetOk h.held.offset
  value : M.trim h.type (M.decode h.type (readBytes m.mem
      (valueOf M m h.held.base + valueOf M m h.held.offset) (M.size h.type))) =
    M.trim h.type (valueOf M m h.value)

def HeldOk (M : Meaning) (m : MemMachine) (h : Held) : Prop := h.held.known = true → Holds M m h

theorem heldOk_none (h : Held) : HeldOk M m { h with held := .none } := nofun

theorem written_ok (hh : HeldOk M m h) (inst : IrInst) : HeldOk M m (h.written inst) := by
  unfold Held.written
  split
  · exact heldOk_none h
  · exact hh

/-- What is still remembered after the look at the result names no register that the
    instruction writes. -/
theorem written_names (hknown : (h.written inst).held.known = true) :
    inst.result = irNoResult ∨ (namesTemp h.value inst.result = false ∧
      namesTemp h.held.base inst.result = false ∧
      namesTemp h.held.offset inst.result = false) := by
  unfold Held.written at hknown
  split at hknown
  · cases hknown
  · next hw =>
      by_cases hr : inst.result = irNoResult
      · exact .inl hr
      · simp only [not_and, not_or, Bool.not_eq_true] at hw
        exact .inr (hw hr)

theorem written_eq (hknown : (h.written inst).held.known = true) : h.written inst = h := by
  unfold Held.written at hknown ⊢
  split at hknown
  · cases hknown
  · next hw => rw [if_neg hw]

/-- An instruction that leaves the memory keeps what is still remembered. -/
theorem heldOk_step (hh : HeldOk M m h) (hstep : stepInst M inst m = some m')
    (hmem : m'.mem = m.mem) : HeldOk M m' (h.written inst) := by
  intro hknown
  have hnames := written_names hknown
  have heq := written_eq hknown
  rw [heq] at hknown ⊢
  obtain ⟨hbase, hoffset, hvalue⟩ := hh hknown
  refine ⟨hbase, hoffset, ?_⟩
  rw [hmem, valueOf_of_not_names hstep (hnames.symm.imp_left fun hn => hn.2.1),
    valueOf_of_not_names hstep (hnames.symm.imp_left fun hn => hn.2.2),
    valueOf_of_not_names hstep (hnames.symm.imp_left fun hn => hn.1)]
  exact hvalue

/-- What the pass relies on of an instruction. -/
structure InstReady (inst : IrInst) : Prop where
  operand : ∀ o ∈ inst.operands, o.kind = .temp → o.val ≠ irNoResult
  load : inst.op = .load → inst.result ≠ irNoResult
  ptradd : inst.op = .ptradd → OffsetOk inst.b

theorem addresses_operand {o : IrOperand} (ha : AddressesOk M m before)
    (hready : InstReady inst) (ho : o ∈ inst.operands)
    (hknown : (addressOf before o).known = true) : AddressOk M m o (addressOf before o) :=
  ha o (hready.operand o ho (address_temp before hknown)) hknown

theorem stepInst_load (hop : inst.op = .load) :
    stepInst M inst m = some (m.write inst.result (M.trim inst.type (M.decode inst.type
      (readBytes m.mem (valueOf M m inst.a) (M.size inst.type))))) := by
  rw [stepInst, hop]

theorem stepInst_store (hop : inst.op = .store) : stepInst M inst m = some { m with
      mem := writeBytes m.mem (valueOf M m inst.b) (M.size inst.type)
        (M.encode inst.type (valueOf M m inst.a)) } := by
  rw [stepInst, hop]

theorem forwarded_step (ha : AddressesOk M m before) (hh : HeldOk M m h)
    (hready : InstReady inst) (hop : inst.op = .load) (hknown : h.held.known = true)
    (hsame : sameAddress h.held (addressOf before inst.a) = true) (htype : h.type = inst.type) :
    stepInst M (makeCopy inst h.value) m = stepInst M inst m := by
  have hat : (addressOf before inst.a).known = true := by
    simp only [sameAddress, Bool.and_eq_true] at hsame
    exact hsame.1.1.2
  obtain ⟨hsum, -, hoffset⟩ := addresses_operand ha hready mem_cons_self hat
  obtain ⟨hbase, hheld, hvalue⟩ := hh hknown
  rw [sameAddress_value hsame ⟨hbase, hheld⟩ hoffset, hsum, htype] at hvalue
  rw [stepInst_load hop, hvalue]
  rfl

theorem remembered_load (ha : AddressesOk M m before) (hready : InstReady inst)
    (hop : inst.op = .load)
    (hbase : namesTemp (addressOf before inst.a).base inst.result = false)
    (hoffset : namesTemp (addressOf before inst.a).offset inst.result = false)
    (hstep : stepInst M inst m = some m') :
    HeldOk M m' ⟨addressOf before inst.a, irTempOp temps inst.result, inst.type⟩ := by
  intro hknown
  obtain ⟨hsum, hkind, hok⟩ := addresses_operand ha hready mem_cons_self hknown
  refine ⟨hkind, hok, ?_⟩
  show M.trim inst.type (M.decode inst.type (readBytes m'.mem
      (valueOf M m' (addressOf before inst.a).base + valueOf M m' (addressOf before inst.a).offset)
      (M.size inst.type))) = M.trim inst.type (m'.regs inst.result)
  rw [valueOf_of_not_names hstep (.inl hbase), valueOf_of_not_names hstep (.inl hoffset), hsum]
  rw [stepInst_load hop] at hstep
  cases hstep
  rw [write_mem, write_regs, if_pos ⟨hready.load hop, rfl⟩, M.trim_trim]

theorem remembered_store (ha : AddressesOk M m before) (hready : InstReady inst)
    (hop : inst.op = .store) (hstep : stepInst M inst m = some m') :
    HeldOk M m' ⟨addressOf before inst.b, inst.a, inst.type⟩ := by
  intro hknown
  obtain ⟨hsum, hkind, hok⟩ := addresses_operand ha hready (mem_cons_of_mem _ mem_cons_self) hknown
  rw [stepInst_store hop] at hstep
  cases hstep
  refine ⟨hkind, hok, ?_⟩
  show M.trim inst.type (M.decode inst.type (readBytes (writeBytes m.mem (valueOf M m inst.b)
      (M.size inst.type) (M.encode inst.type (valueOf M m inst.a)))
      (valueOf M m (addressOf before inst.b).base + valueOf M m (addressOf before inst.b).offset)
      (M.size inst.type))) = M.trim inst.type (valueOf M m inst.a)
  have hsize := Nat.le_trans (M.size_le inst.type) (by norm_num : 8 ≤ 2 ^ 64)
  rw [hsum, readBytes_writeBytes hsize, M.decode_encode]

/-- An instruction that neither stores nor wipes leaves the memory. -/
theorem stepInst_mem (hstore : inst.op ≠ .store) (hwipes : wipes inst.op = false)
    (hstep : stepInst M inst m = some m') : m'.mem = m.mem := by
  have hwrites : writesMemory inst.op = false := by
    cases hop : inst.op <;> rw [hop] at hwipes <;> first | rfl | cases hwipes
  unfold stepInst at hstep
  split at hstep
  · cases hstep
    exact write_mem ..
  · cases hstep
    exact write_mem ..
  · cases hstep
    exact write_mem ..
  · next hop => exact absurd hop hstore
  · split at hstep
    · obtain ⟨v, -, rfl⟩ := Option.map_eq_some_iff.1 hstep
      exact write_mem ..
    · cases hstep
      rw [write_mem]
      exact if_neg (Bool.eq_false_iff.1 hwrites)

/-! ## One turn -/

/-- What a turn of the pass makes of an instruction. -/
structure TurnOk (M : Meaning) (m : MemMachine) (inst inst' : IrInst) (h' : Held) : Prop where
  same : stepInst M inst' m = stepInst M inst m
  result : inst'.result = inst.result
  ptradd : inst'.op = .ptradd → inst' = inst
  terminator : isTerminator inst'.op = isTerminator inst.op
  held : ∀ m', stepInst M inst m = some m' → HeldOk M m' h'

theorem turnOk_self {h' : Held} (held : ∀ m', stepInst M inst m = some m' → HeldOk M m' h') :
    TurnOk M m inst inst h' :=
  ⟨rfl, rfl, fun _ => rfl, rfl, held⟩

/-- **One turn keeps what the instruction does.** -/
theorem forwardTurn_ok (ha : AddressesOk M m before) (hh : HeldOk M m h) (hready : InstReady inst) :
    TurnOk M m inst (forwardTurn temps before h inst).1 (forwardTurn temps before h inst).2 := by
  have hwritten := written_ok hh inst
  unfold forwardTurn
  cases hop : inst.op with
  | load =>
    have hmem {m'} (hstep : stepInst M inst m = some m') : m'.mem = m.mem :=
      stepInst_mem (by rw [hop]; nofun) (by rw [hop]; rfl) hstep
    dsimp only
    split
    · next hf =>
        refine ⟨forwarded_step ha hwritten hready hop hf.1 hf.2.1 hf.2.2, rfl, nofun, ?_,
          fun m' hstep => heldOk_step hh hstep (hmem hstep)⟩
        rw [hop]
        rfl
    · split
      · exact turnOk_self fun m' _ => heldOk_none _
      · next hnames =>
          rw [not_or, Bool.not_eq_true, Bool.not_eq_true] at hnames
          exact turnOk_self fun m' hstep => remembered_load ha hready hop hnames.1 hnames.2 hstep
  | store =>
    dsimp only
    refine turnOk_self fun m' hstep => ?_
    split
    · exact remembered_store ha hready hop hstep
    · next hunknown =>
        -- an unknown address is the same as none, so nothing is remembered
        have hdiffer : sameAddress (h.written inst).held (addressOf before inst.b) = false := by
          rw [sameAddress, Bool.eq_false_iff.2 hunknown, Bool.and_false]
          rfl
        rw [hdiffer, if_pos (.inr rfl)]
        exact heldOk_none _
  | _ =>
    dsimp only
    refine turnOk_self fun m' hstep => ?_
    first
      | exact heldOk_none _
      | exact heldOk_step hh hstep (stepInst_mem (by rw [hop]; nofun) (by rw [hop]; rfl) hstep)

/-! ## A block, and a function -/

/-- A run stands before the instructions `rest` of a block, and the pass has come to
    them with what is known there. -/
structure Stands (M : Meaning) (temps : List IrType) (code : List (List IrInst)) (s : At)
    (done rest before : List IrInst) (h : Held) : Prop where
  block : code[s.block]? = some (done ++ rest)
  donePos : done.length = s.pos
  beforePos : before.length = s.pos
  pass : forwardBlock temps (done ++ rest) = before ++ forwardFrom temps before h rest
  addresses : AddressesOk M s.m before
  held : HeldOk M s.m h

def ForwardInv (M : Meaning) (temps : List IrType) (code : List (List IrInst)) (s : At) : Prop :=
  code[s.block]? = none ∨ ∃ done rest before h, Stands M temps code s done rest before h

theorem forwardInv_start (code : List (List IrInst)) (b : Nat) (m : MemMachine) :
    ForwardInv M temps code ⟨b, 0, m⟩ := by
  cases hb : code[b]? with
  | none => exact .inl hb
  | some insts => exact .inr ⟨[], insts, [], .start, hb, rfl, rfl, rfl, addresses_start, nofun⟩

theorem leave_start {s : At} (h : leave M inst m = .at_ s) : s.pos = 0 := by
  unfold leave at h
  split at h <;> cases h <;> rfl

section Function

variable {code : List (List IrInst)} {s s' : At}

/-- The instruction of a run, and the one that the pass put in its place. -/
theorem Stands.turn {done rest before : List IrInst} {h : Held} {inst : IrInst}
    (hst : Stands M temps code s done (inst :: rest) before h) (hready : InstReady inst) :
    TurnOk M s.m inst (forwardTurn temps before h inst).1 (forwardTurn temps before h inst).2 :=
  forwardTurn_ok hst.addresses hst.held hready

theorem forward_keep (hready : ∀ inst ∈ code.flatten, InstReady inst)
    (hinv : ForwardInv M temps code s) (hstep : stepAt M code s = .at_ s') :
    ForwardInv M temps code s' := by
  unfold stepAt at hstep
  rcases hinv with hnone | ⟨done, rest, before, h, hst⟩
  · rw [hnone] at hstep
    cases hstep
  · rw [hst.block] at hstep
    dsimp only at hstep
    cases rest with
    | nil =>
      rw [append_nil, getElem?_eq_none (Nat.le_of_eq hst.donePos)] at hstep
      cases hstep
    | cons inst rest =>
      have hget : (done ++ inst :: rest)[s.pos]? = some inst := by
        rw [← hst.donePos, getElem?_append_right (Nat.le_refl _), Nat.sub_self]
        rfl
      have hmem : inst ∈ code.flatten :=
        mem_flatten.2 ⟨_, mem_of_getElem? hst.block, mem_of_getElem? hget⟩
      obtain ⟨hsame, hresult, hptradd, hterm, hheld⟩ := hst.turn (hready inst hmem)
      rw [hget] at hstep
      dsimp only at hstep
      split at hstep
      · -- a block is entered at its first instruction
        have hpos := leave_start hstep
        obtain ⟨b, p, m₁⟩ := s'
        cases hpos
        exact forwardInv_start code b m₁
      · cases hexec : stepInst M inst s.m with
        | none =>
          rw [hexec] at hstep
          cases hstep
        | some m₁ =>
          rw [hexec] at hstep
          cases hstep
          have hoffset := (hready inst hmem).ptradd
          refine .inr ⟨done ++ [inst], rest, before ++ [(forwardTurn temps before h inst).1],
            (forwardTurn temps before h inst).2, ?_, ?_, ?_, ?_, ?_, ?_⟩
          · rw [append_assoc]
            exact hst.block
          · rw [length_append, hst.donePos]
            rfl
          · rw [length_append, hst.beforePos]
            rfl
          · rw [append_assoc, append_assoc]
            exact hst.pass
          · exact addresses_step hst.addresses hexec hresult hptradd hoffset
          · exact hheld m₁ hexec

theorem forwardTurn_terminator {before : List IrInst} {h : Held} {inst : IrInst}
    (ht : isTerminator inst.op = true) : (forwardTurn temps before h inst).1 = inst := by
  unfold forwardTurn
  cases hop : inst.op with
  | jump | branch | branchOv | ret | unreachable => rfl
  | _ => simp [hop, isTerminator] at ht

theorem forward_same (hready : ∀ inst ∈ code.flatten, InstReady inst)
    (hinv : ForwardInv M temps code s) :
    stepAt M (code.map (forwardBlock temps)) s = stepAt M code s := by
  unfold stepAt
  rw [getElem?_map]
  rcases hinv with hnone | ⟨done, rest, before, h, hst⟩
  · rw [hnone]
    rfl
  · rw [hst.block]
    dsimp only [Option.map_some]
    rw [hst.pass]
    cases rest with
    | nil =>
      have hend : (done ++ ([] : List IrInst))[s.pos]? = none := by
        rw [append_nil, getElem?_eq_none (Nat.le_of_eq hst.donePos)]
      have hend' : (before ++ forwardFrom temps before h [])[s.pos]? = none := by
        rw [forwardFrom, append_nil, getElem?_eq_none (Nat.le_of_eq hst.beforePos)]
      rw [hend, hend']
    | cons inst rest =>
      have hget : (done ++ inst :: rest)[s.pos]? = some inst := by
        rw [← hst.donePos, getElem?_append_right (Nat.le_refl _), Nat.sub_self]
        rfl
      have hget' : (before ++ forwardFrom temps before h (inst :: rest))[s.pos]? =
          some (forwardTurn temps before h inst).1 := by
        rw [← hst.beforePos, getElem?_append_right (Nat.le_refl _), Nat.sub_self]
        rfl
      have hmem : inst ∈ code.flatten :=
        mem_flatten.2 ⟨_, mem_of_getElem? hst.block, mem_of_getElem? hget⟩
      obtain ⟨hsame, -, -, hterm, -⟩ := hst.turn (hready inst hmem)
      rw [hget, hget']
      dsimp only
      rw [hterm, hsame]
      cases ht : isTerminator inst.op with
      | false => rfl
      | true => rw [forwardTurn_terminator ht]

end Function

/-- What `ir.c` promises of a function: the temporaries have 32-bit numbers, and a
    load writes one. -/
structure Numbered (f : IrFunction) : Prop where
  temps : f.temps.length ≤ uint32Max
  load : ∀ i ∈ f.code.flatten, i.op = .load → i.result ≠ irNoResult

theorem instReady_of_verified {mod : IrModule} {f : IrFunction}
    (hverify : verifyFunction mod f = true) (hbody : f.isExtern = false) (hmade : Numbered f)
    (hinst : inst ∈ f.code.flatten) : InstReady inst := by
  obtain ⟨hindices, hcheck⟩ := verifyFunction_mem hverify hbody hinst
  simp only [indicesOk, Bool.and_eq_true, List.all_eq_true] at hindices
  have hoperands := hindices.2
  refine ⟨fun o ho hk => ?_, hmade.load inst hinst, fun hop => ?_⟩
  · have hok := hoperands o ho
    rw [operandOk, hk] at hok
    exact Nat.ne_of_lt (Nat.lt_of_lt_of_le (of_decide_eq_true hok) hmade.temps)
  · rw [checkInst, hop] at hcheck
    simp only [Bool.and_eq_true] at hcheck
    have hok := hoperands inst.b (mem_cons_of_mem _ mem_cons_self)
    have htype := hcheck.2
    simp only [sameType, hok, Bool.not_true, Bool.or_false, Bool.or_eq_true,
      decide_eq_true_eq] at htype
    rcases htype with hnone | htype
    · exact .inr (.inl hnone)
    · unfold typeOf at htype
      split at htype
      · next hk => exact .inl hk
      · exact .inr (.inr htype)

theorem forwardStores_code (f : IrFunction) :
    (forwardStores f).code = f.code.map (forwardBlock f.temps) := by
  rw [IrFunction.code, IrFunction.code, forwardStores, List.map_map, List.map_map]
  rfl

/-- **Store-to-load forwarding is sound.**  A function that the verifier passes and
    the function after `forward_stores` run in lockstep from every memory and every
    input: after any number of instructions they stand at one place, with the same
    values in all temporaries and the same memory. -/
theorem forward_stores_sound {mod : IrModule} {f : IrFunction}
    (hverify : verifyFunction mod f = true) (hbody : f.isExtern = false) (hmade : Numbered f)
    (M : Meaning) (m : MemMachine) (n : Nat) :
    runSteps M (forwardStores f).code n (startAt m) = runSteps M f.code n (startAt m) := by
  have hready : ∀ inst ∈ f.code.flatten, InstReady inst :=
    fun inst hinst => instReady_of_verified hverify hbody hmade hinst
  rw [forwardStores_code]
  exact runSteps_eq (ForwardInv M f.temps f.code) (fun s hinv => forward_same hready hinv)
    (fun s s' hinv hstep => forward_keep hready hinv hstep) n (forwardInv_start f.code 0 m)

/-- A function that stores its second parameter where the first points, and returns
    what it loads from there. -/
def storeThenLoad : IrFunction :=
  { module := none, name := [], params := [⟨.ptr, .none, irNoAgg, 0, false, false, irNoIndex⟩,
      ⟨.i64, .none, irNoAgg, 1, false, false, irNoIndex⟩], result := .i64,
    blocks := [⟨[{ op := .store, type := .i64, a := ⟨.temp, .i64, 1⟩, b := ⟨.temp, .ptr, 0⟩ },
      { op := .load, type := .i64, result := 2, a := ⟨.temp, .ptr, 0⟩ },
      { op := .ret, type := .i64, a := ⟨.temp, .i64, 2⟩ }], .none⟩],
    temps := [.ptr, .i64, .i64] }

/-- The load becomes a copy of the second parameter. -/
example : (forwardStores storeThenLoad).code =
    [[{ op := .store, type := .i64, a := ⟨.temp, .i64, 1⟩, b := ⟨.temp, .ptr, 0⟩ },
      { op := .copy, type := .i64, result := 2, a := ⟨.temp, .i64, 1⟩ },
      { op := .ret, type := .i64, a := ⟨.temp, .i64, 2⟩ }]] := by decide

theorem storeThenLoad_numbered : Numbered storeThenLoad where
  temps := by decide
  load := by decide

theorem storeThenLoad_forwards : verifyFunction {} storeThenLoad = true ∧
      runSteps plainMachine (forwardStores storeThenLoad).code 3
          (startAt ⟨fun x => BitVec.ofNat 64 (8 * x), fun _ => 0, []⟩) =
        runSteps plainMachine storeThenLoad.code 3
          (startAt ⟨fun x => BitVec.ofNat 64 (8 * x), fun _ => 0, []⟩) :=
  have hverify : verifyFunction {} storeThenLoad = true := by decide
  ⟨hverify, forward_stores_sound hverify rfl storeThenLoad_numbered plainMachine _ 3⟩

end AnticIr
