import In3.Evm.Quiet
import In3.Evm.BitTheorems
import In3.Lib.Cells
/-!
# The memory is an array of bytes

The program sees an array of bytes without an end, which is zero at the start, and its size, which a
read or a write of at least one byte raises to whole words. The buffer of `evm_mem.c` stands for this
array: behind its end there are zeros.

Three operations do something else. `MSTORE8` writes the first byte of the entry and not its last one.
`EXTCODECOPY` and `CREATE` of nothing raise the size, and `CREATE` takes only the part of the init code
that is in the buffer.
-/
open Lib Machine List

namespace In3.Evm

/-! ## The array -/

/-- What a program sees of the memory. -/
structure Tape where
  byte : Nat → UInt8
  size : Nat

/-- Whole words. -/
def ceil32 (n : Nat) : Nat := 32 * ((n + 31) / 32)

def touched (size off len : Nat) : Nat := if len = 0 then size else max size (ceil32 (off + len))

inductive Access where
  | read (off len : Nat)
  | write (off : Nat) (src : Bytes)

/-- What an access makes of the memory, and what it reads. -/
def Access.apply (t : Tape) : Access → Tape × Bytes
  | .read off len => ({ t with size := touched t.size off len }, readAt t.byte off len)
  | .write off src => (⟨writeAt t.byte off src, touched t.size off src.length⟩, [])

/-- The buffer and the length of the source as such an array. -/
def Memory.tape (m : Memory) : Tape := ⟨cells 0 m.data, m.len⟩

/-- The memory of every frame: whole words, and a buffer that can be doubled. -/
structure Memory.WF (m : Memory) : Prop where
  words : m.len % 32 = 0
  buffer : 0 < m.data.length

theorem Memory.wf_fresh : ({} : Memory).WF := ⟨rfl, by simp⟩

theorem Memory.tape_fresh : ({} : Memory).tape = ⟨fun _ => 0, 0⟩ := by
  have h := cells_append_replicate (0 : UInt8) [] 32
  have hzero : cells (0 : UInt8) [] = fun _ => 0 := by
    funext i
    simp [cells]
  rw [← hzero, ← h]
  rfl

variable {data e src : Bytes} {env : Env} {len max_pos mem_pos n off pos : Nat} {m : Memory} {s : Step} {vm vm' : Vm}

theorem max_ceil32_eq_iff {size : Nat} (h : size % 32 = 0) : max size (ceil32 n) = size ↔ n ≤ size := by
  unfold ceil32
  omega

theorem le_ceil32 (n : Nat) : n ≤ ceil32 n := by
  unfold ceil32
  omega

/-! ## Popping -/

theorem pop_ref_ok (h : ends evm_stack_pop_ref vm (.ok e) vm') :
    ∃ s, vm.evm.stack.entries = e :: s.entries ∧ vm' = vm.withStack s := by
  rcases hentries : vm.evm.stack.entries with _ | ⟨x, rest⟩
  · unfold evm_stack_pop_ref at h
    rw [ends_getEvm_bind] at h
    have hpop : vm.evm.stack.pop = none := by
      unfold Stack.pop
      split
      · rfl
      · next hcons => simp [hentries] at hcons
    rw [hpop] at h
    exact absurd (ends_throw.1 h).1 (by simp)
  · obtain ⟨s, hs, hbind⟩ := pop_ref_bind hentries
    have hpure := (hbind pure (.ok x) (vm.withStack s)).2 (ends_pure.2 ⟨rfl, rfl⟩)
    rw [bind_pure] at hpure
    obtain ⟨heq, rfl⟩ := ends_unique h hpure
    cases heq
    exact ⟨s, by rw [hs], rfl⟩

theorem subgas_ok {g : Nat} (h : ends (subgas g) vm (.ok ()) vm') :
    vm' = { vm with evm := { vm.evm with gas := vm.evm.gas - g } } := by
  rcases subgas_ends h with ⟨-, -, h⟩ | ⟨-, h, -⟩
  · exact h
  · cases h

theorem outOfGas_not_ok {α : Type} {a : α} : ¬ ends (outOfGas : M α) vm (.ok a) vm' := by
  intro h
  exact absurd (ends_throw.1 h).1 (by simp)

theorem push_ok (hdata : data.length ≤ 32)
    (h : ends (evm_stack_push data) vm (.ok ()) vm') :
    ∃ s rest, vm' = vm.withStack s ∧ s.entries = data :: rest := by
  unfold evm_stack_push at h
  rw [ends_getEvm_bind, Nat.mod_eq_of_lt (by omega), take_length] at h
  unfold Stack.push at h
  split at h
  · exact absurd (ends_throw.1 h).1 (by simp)
  · next stack hpush =>
    obtain ⟨-, rfl⟩ := ends_modifyEvm.1 h
    split at hpush
    · cases hpush
    · cases hpush
      exact ⟨_, vm.evm.stack.entries, rfl, rfl⟩

/-! ## Growing -/

def Vm.withMemory (vm : Vm) (gas : Nat) (m : Memory) : Vm := { vm with evm := { vm.evm with gas := gas, memory := m } }

/-- What `mem_check` makes of the memory: zeros behind the buffer, and whole words. -/
structure Grown (m : Memory) (max_pos : Nat) (m' : Memory) : Prop where
  zeros : ∃ n, m'.data = m.data ++ replicate n 0
  len : m'.len = max m.len (ceil32 max_pos)

variable {m' : Memory} {out : Bytes} {t : Tape} {x : M Unit}

theorem Grown.wf (h : Grown m n m') (hm : m.WF) : m'.WF := by
  obtain ⟨k, hk⟩ := h.zeros
  constructor
  · have := hm.words
    rw [h.len]
    unfold ceil32
    omega
  · rw [hk, length_append]
    exact Nat.add_pos_left hm.buffer _

theorem Grown.tape (h : Grown m n m') : m'.tape = ⟨m.tape.byte, max m.len (ceil32 n)⟩ := by
  obtain ⟨k, hk⟩ := h.zeros
  unfold Memory.tape
  rw [hk, cells_append_replicate, h.len]

theorem grow_buffer_data (hpos : 0 < m.data.length) (hmax : max_pos < 2 ^ 32) :
    (∃ n, (grow_buffer max_pos m).data = m.data ++ replicate n 0) ∧ max_pos ≤ (grow_buffer max_pos m).data.length := by
  unfold grow_buffer
  split
  · refine ⟨⟨_, rfl⟩, ?_⟩
    have hlt : max_pos < grown_size max_pos 32 m.data.length := lt_grown_size (by omega)
    simp only [length_append, length_replicate]
    omega
  · exact ⟨⟨0, by simp⟩, by omega⟩

theorem extend_memory_ok
    (h : ends (extend_memory max_pos) vm (.ok n) vm') (hm : vm.evm.memory.WF) :
    ∃ gas, vm' = vm.withMemory gas { vm.evm.memory with len := max vm.evm.memory.len (ceil32 max_pos) } ∧
      max_pos ≤ n ∧ n ≤ ceil32 max_pos := by
  have hwords := hm.words
  unfold extend_memory at h
  rw [ends_getEvm_bind] at h
  by_cases hle : max_pos ≤ vm.evm.memory.len
  · rw [if_pos hle] at h
    obtain ⟨hn, rfl⟩ := ends_pure.1 h
    cases hn
    refine ⟨vm'.evm.gas, ?_, le_refl _, le_ceil32 _⟩
    rw [(max_ceil32_eq_iff hwords).2 hle]
    rfl
  · rw [if_neg hle] at h
    have hmax : max vm.evm.memory.len (ceil32 max_pos) = (max_pos + 31) / 32 * 32 := by
      unfold ceil32
      omega
    -- a length of whole words always needs new ones
    rw [if_pos (by omega)] at h
    obtain ⟨_, _, hpaid, h⟩ := ends_bind_ok.1 h
    rw [subgas_ok hpaid] at h
    obtain ⟨hn, rfl⟩ := ends_pure.1 h
    cases hn
    refine ⟨vm.evm.gas - mem_cost vm.evm.memory.len max_pos, ?_, by omega, by unfold ceil32; omega⟩
    rw [hmax]
    rfl

theorem mem_check_ok {read_only : Bool}
    (h : ends (mem_check max_pos read_only) vm (.ok ()) vm') (hm : vm.evm.memory.WF) :
    ∃ gas m, vm' = vm.withMemory gas m ∧ Grown vm.evm.memory max_pos m ∧ max_pos < MEM_LIMIT ∧
      (if read_only then m.data = vm.evm.memory.data else max_pos ≤ m.data.length) := by
  unfold mem_check at h
  by_cases hlimit : MEM_LIMIT ≤ max_pos
  · rw [if_pos hlimit] at h
    exact absurd h outOfGas_not_ok
  rw [if_neg hlimit] at h
  obtain ⟨n, _, hext, h⟩ := ends_bind_ok.1 h
  obtain ⟨gas, rfl, hle, hn⟩ := extend_memory_ok hext hm
  cases read_only with
  | true =>
    obtain ⟨-, rfl⟩ := ends_pure.1 h
    exact ⟨gas, _, rfl, ⟨⟨0, by simp⟩, rfl⟩, by omega, rfl⟩
  | false =>
    rw [if_neg Bool.false_ne_true] at h
    obtain ⟨-, rfl⟩ := ends_modifyEvm.1 h
    have hlt : n < 2 ^ 32 := by
      have : MEM_LIMIT = 2 ^ 28 - 1 := rfl
      unfold ceil32 at hn
      omega
    obtain ⟨hzeros, hbuf⟩ := grow_buffer_data (m := { vm.evm.memory with len := max vm.evm.memory.len (ceil32 max_pos) })
      hm.buffer hlt
    refine ⟨gas, grow_buffer n _, rfl, ⟨hzeros, ?_⟩, by omega, hle.trans hbuf⟩
    unfold grow_buffer
    split <;> rfl

/-! ## Reading and writing -/

theorem mem_readi_ok
    (h : ends (evm_mem_readi off len) vm (.ok data) vm') (hm : vm.evm.memory.WF) :
    ∃ gas m, vm' = vm.withMemory gas m ∧ m.WF ∧ m.tape = ((Access.read off len).apply vm.evm.memory.tape).1 ∧
      data = readAt vm.evm.memory.tape.byte off len ∧ (0 < len → off + len < MEM_LIMIT) := by
  unfold evm_mem_readi at h
  by_cases hzero : len = 0
  · rw [if_pos hzero] at h
    obtain ⟨hdata, rfl⟩ := ends_pure.1 h
    cases hdata
    subst hzero
    exact ⟨vm'.evm.gas, vm'.evm.memory, rfl, hm, rfl, rfl, by simp⟩
  · rw [if_neg hzero] at h
    obtain ⟨_, _, hcheck, h⟩ := ends_bind_ok.1 h
    obtain ⟨gas, m, rfl, hgrown, hlimit, hsame⟩ := mem_check_ok hcheck hm
    obtain ⟨hdata, rfl⟩ := ends_pure.1 h
    cases hdata
    refine ⟨gas, m, rfl, hgrown.wf hm, ?_, ?_, fun _ => hlimit⟩
    · rw [hgrown.tape, Access.apply, touched, if_neg hzero]
      rfl
    · show m.bytes off len = _
      unfold Memory.tape Memory.bytes
      rw [readAt_cells, hsame]

theorem mem_read_ref_ok
    (h : ends (evm_mem_read_ref off len) vm (.ok data) vm') (hm : vm.evm.memory.WF) :
    ∃ gas m, vm' = vm.withMemory gas m ∧ Grown vm.evm.memory (off + len) m ∧ off + len < MEM_LIMIT ∧
      data = (vm.evm.memory.data.drop off).take len := by
  obtain ⟨_, _, hcheck, h⟩ := ends_bind_ok.1 h
  obtain ⟨gas, m, rfl, hgrown, hlimit, hsame⟩ := mem_check_ok hcheck hm
  obtain ⟨hdata, rfl⟩ := ends_pure.1 h
  cases hdata
  refine ⟨gas, m, rfl, hgrown, hlimit, ?_⟩
  rw [← hsame]
  rfl

/-- The data in a range of `len` bytes: cut, or filled up with zeros. -/
def fitted (len : Nat) (src : Bytes) : Bytes := src.take len ++ replicate (len - src.length) 0

@[simp] theorem length_fitted (len : Nat) (src : Bytes) : (fitted len src).length = len := by
  simp [fitted]
  omega

theorem fitted_of_length (h : src.length = len) : fitted len src = src := by
  subst h
  simp [fitted]

theorem Memory.tape_write (src : Bytes) (h : off + len ≤ m.data.length) :
    (m.write off src len).tape = ⟨writeAt m.tape.byte off (fitted len src), m.len⟩ := by
  unfold Memory.write Memory.tape
  have hcells := cells_replace 0 m.data off (fitted len src) (by rw [length_fitted]; exact h)
  rw [length_fitted] at hcells
  rw [← hcells]
  rfl

theorem Memory.wf_write (src : Bytes) (h : off + len ≤ m.data.length) (hm : m.WF) :
    (m.write off src len).WF := by
  refine ⟨hm.words, ?_⟩
  have := hm.buffer
  simp only [Memory.write, length_append, length_take, length_drop, length_replicate]
  omega

theorem mem_copy_ok {read : M Bytes} {P : Bytes → Prop}
    (hread : ∀ {u u' : Vm} {src : Bytes}, ends read u (.ok src) u' → u' = u ∧ P src)
    (h : ends (evm_mem_copy off read len) vm (.ok ()) vm') (hm : vm.evm.memory.WF) :
    ∃ gas m src, P src ∧ vm' = vm.withMemory gas m ∧ m.WF ∧ off + len < MEM_LIMIT ∧
      m.tape = ⟨writeAt vm.evm.memory.tape.byte off (fitted len src), max vm.evm.memory.len (ceil32 (off + len))⟩ := by
  obtain ⟨_, _, hcheck, h⟩ := ends_bind_ok.1 h
  obtain ⟨gas, m, rfl, hgrown, hlimit, hlong⟩ := mem_check_ok hcheck hm
  obtain ⟨src, _, hsrc, h⟩ := ends_bind_ok.1 h
  obtain ⟨rfl, hP⟩ := hread hsrc
  obtain ⟨-, rfl⟩ := ends_modifyEvm.1 h
  refine ⟨gas, m.write off src len, src, hP, rfl, m.wf_write src hlong (hgrown.wf hm), hlimit, ?_⟩
  have htape := hgrown.tape
  rw [m.tape_write src hlong, htape, ← hgrown.len]

theorem mem_write_ok
    (h : ends (evm_mem_write off src len) vm (.ok ()) vm') (hm : vm.evm.memory.WF) :
    ∃ gas m, vm' = vm.withMemory gas m ∧ m.WF ∧ off + len < MEM_LIMIT ∧
      m.tape = ⟨writeAt vm.evm.memory.tape.byte off (fitted len src), max vm.evm.memory.len (ceil32 (off + len))⟩ := by
  have hread : ∀ {u u' : Vm} {x : Bytes}, ends (pure src : M Bytes) u (.ok x) u' → u' = u ∧ x = src := by
    intro u u' x hx
    obtain ⟨hdata, rfl⟩ := ends_pure.1 hx
    exact ⟨rfl, Except.ok.inj hdata⟩
  obtain ⟨gas, m, _, rfl, hrest⟩ := mem_copy_ok hread h hm
  exact ⟨gas, m, hrest⟩

theorem apply_write (h : 0 < src.length) :
    ((Access.write off src).apply t).1 = ⟨writeAt t.byte off src, max t.size (ceil32 (off + src.length))⟩ := by
  rw [Access.apply, touched, if_neg (by omega)]

theorem apply_write_of_length_zero (h : src.length = 0) :
    ((Access.write off src).apply t).1 = t := by
  obtain rfl := length_eq_zero_iff.1 h
  rw [Access.apply, writeAt_nil]
  rfl

theorem alive_ok {code : Code} (h : ends (alive code) vm (.ok ()) vm') : vm' = vm := by
  unfold alive at h
  rw [ends_get_bind] at h
  split at h
  · split at h
    · exact absurd h ends_fault
    · exact (ends_pure.1 h).2
  · exact (ends_pure.1 h).2

theorem source_bytes_ok {src : Code} {b : Bytes}
    (h : ends (source_bytes src pos len) vm (.ok b) vm') :
    vm' = vm ∧ b = (src.data.drop pos).take (src.rest pos len) ∧ b.length = src.rest pos len := by
  unfold source_bytes at h
  by_cases hzero : src.rest pos len = 0
  · rw [if_pos hzero] at h
    obtain ⟨hb, rfl⟩ := ends_pure.1 h
    cases hb
    rw [hzero]
    exact ⟨rfl, rfl, rfl⟩
  · rw [if_neg hzero] at h
    obtain ⟨_, _, halive, _, _, hguard, h⟩ := by simpa only [ends_bind_ok] using h
    obtain ⟨hb, rfl⟩ := ends_pure.1 h
    cases hb
    obtain rfl := alive_ok halive
    obtain ⟨hbound, rfl⟩ := ends_checked_ok.1 hguard
    have hle := Guarded.ok_guard.1 hbound
    refine ⟨rfl, rfl, ?_⟩
    rw [length_take, length_drop]
    omega

/-! ## The operations -/

/-- The operations that read or write the memory of a frame for the program. -/
inductive MemOp where
  | MLOAD
  | MSTORE
  | MSTORE8
  | CALLDATACOPY
  | CODECOPY
  | EXTCODECOPY
  | SHA3
  | RETURN
  | CREATE (use_salt : Bool)
  deriving DecidableEq

/-- The beginning of `op_create`: the value and the init code. -/
def create_input : M (Bytes × Bytes) := do
  let value ← evm_stack_pop_ref
  let in_offset ← evm_stack_pop_int
  let in_len ← evm_stack_pop_int
  mem_check (in_offset + in_len) true
  let in_data ← evm_mem_read_ref in_offset in_len
  return (value, in_data)

def Vm.entry (vm : Vm) (i : Nat) : Bytes := vm.evm.stack.entries.getD i []

/-- Its number. -/
def Vm.word (vm : Vm) (i : Nat) : Nat := beNat (vm.entry i)

def MemOp.run (env : Env) : MemOp → M Bytes
  | .MLOAD => do op_mload; top
  | .MSTORE => do op_mstore 32; return []
  | .MSTORE8 => do op_mstore 1; return []
  | .CALLDATACOPY => do op_datacopy (·.call_source) false; return []
  | .CODECOPY => do op_datacopy (·.code) false; return []
  | .EXTCODECOPY => do op_extcodecopy env; return []
  | .SHA3 => do op_sha3 env; top
  | .RETURN => do op_return false; returned
  | .CREATE _ => do let input ← create_input; return input.2
where
  top : M Bytes := do
    let evm ← getEvm
    return evm.stack.entries.headD []
  returned : M Bytes := do
    let evm ← getEvm
    return (evm.return_data.map (·.bytes)).getD []

/-- The `len` bytes of a source from `pos` on, with zeros behind its end. The position is a number of 28 bits. -/
def copied (src : Code) (pos len : Nat) : Bytes := fitted len ((src.data.drop pos).take (src.len - pos))

theorem entry_zero {rest : List Bytes} (h : vm.evm.stack.entries = e :: rest) : vm.entry 0 = e := by
  rw [Vm.entry, h, getD_cons_zero]

/-- The entries of `u` are those of `vm` without the first `k`. -/
def Popped (vm : Vm) (k : Nat) (u : Vm) : Prop := ∀ i, u.entry i = vm.entry (i + k)

section
variable (k : Nat) {u u' : Vm} (hu : Popped vm k u)
include hu

theorem pop_ref_at (h : ends evm_stack_pop_ref u (.ok e) u') :
    ∃ s, u' = u.withStack s ∧ e = vm.entry k ∧ Popped vm (k + 1) u' := by
  obtain ⟨s, hs, rfl⟩ := pop_ref_ok h
  refine ⟨s, rfl, ?_, fun i => ?_⟩
  · rw [← Nat.zero_add k, ← hu 0, entry_zero hs]
  · rw [Nat.add_comm k, ← Nat.add_assoc, ← hu, Vm.entry, Vm.entry, hs]
    rfl

theorem pop_int_at (h : ends evm_stack_pop_int u (.ok n) u') :
    ∃ s, u' = u.withStack s ∧ n = min (vm.word k) MEM_LIMIT ∧ Popped vm (k + 1) u' := by
  obtain ⟨e, _, hpop, h⟩ := ends_bind_ok.1 h
  obtain ⟨s, rfl, rfl, hs⟩ := pop_ref_at k hu hpop
  obtain ⟨hn, rfl⟩ := ends_pure.1 h
  exact ⟨s, rfl, (Except.ok.inj hn).trans (pop_int_value _), hs⟩

end

theorem mload_ok (hm : vm.evm.memory.WF) (h : ends op_mload vm (.ok ()) vm') :
    vm'.evm.memory.WF ∧ vm'.evm.memory.tape = ((Access.read (vm.word 0) 32).apply vm.evm.memory.tape).1 ∧
      vm'.entry 0 = readAt vm.evm.memory.tape.byte (vm.word 0) 32 := by
  unfold op_mload at h
  obtain ⟨off, _, hpop, data, _, hread, hpush⟩ := by simpa only [ends_bind_ok] using h
  obtain ⟨s, rfl, rfl, -⟩ := pop_ref_at 0 (fun _ => rfl) hpop
  unfold evm_mem_read at hread
  by_cases hlong : 4 < (optimize_len (padLeft 32 (vm.entry 0))).length
  · rw [if_pos hlong] at hread
    exact absurd hread outOfGas_not_ok
  rw [if_neg hlong] at hread
  have hint : bytes_to_int (optimize_len (padLeft 32 (vm.entry 0))) = vm.word 0 := by
    rw [bytes_to_int, take_of_length_le (by omega), optimize_len, beNat_stripZeros, beNat_padLeft, Vm.word]
  rw [hint] at hread
  obtain ⟨gas, m, rfl, hwf, htape, hdata, -⟩ := mem_readi_ok hread hm
  have hlen : data.length = 32 := by rw [hdata, length_readAt]
  obtain ⟨t, rest, rfl, ht⟩ := push_ok hlen.le hpush
  refine ⟨hwf, htape, ?_⟩
  rw [entry_zero ht, hdata]
  rfl

theorem mstore_ok (hm : vm.evm.memory.WF) (hlen : 0 < len)
    (h : ends (op_mstore len) vm (.ok ()) vm') :
    vm'.evm.memory.WF ∧ vm'.evm.memory.tape =
      ((Access.write (vm.word 0) (fitted len (if len = 32 then padLeft 32 (vm.entry 1) else vm.entry 1))).apply
        vm.evm.memory.tape).1 := by
  unfold op_mstore at h
  obtain ⟨off, _, hoff, data, _, hpop, h⟩ := by simpa only [ends_bind_ok] using h
  obtain ⟨s, rfl, rfl, hs⟩ := pop_int_at 0 (fun _ => rfl) hoff
  obtain ⟨t, rfl, rfl, -⟩ := pop_ref_at 1 hs hpop
  rw [← apply_ite (fun src => evm_mem_write _ src len)] at h
  obtain ⟨gas, m, rfl, hwf, hlimit, htape⟩ := mem_write_ok h hm
  rw [min_eq_left (by omega)] at htape
  refine ⟨hwf, ?_⟩
  rw [apply_write (by rw [length_fitted]; exact hlen), length_fitted]
  exact htape

theorem copied_eq {src : Code}
    (h : ((src.data.drop pos).take (src.rest pos len)).length = src.rest pos len) :
    copied src pos len = (src.data.drop pos).take (src.rest pos len) ++ replicate (len - src.rest pos len) 0 := by
  unfold copied fitted
  rw [take_take, min_comm]
  congr 2
  rw [length_take] at h ⊢
  unfold Code.rest at *
  omega

theorem fill_zeros_ok {data_len : Nat} (hlt : len < data_len)
    (h : ends (op_datacopy.fill_zeros mem_pos data_len len) vm (.ok ()) vm') (hm : vm.evm.memory.WF) :
    ∃ gas m, vm' = vm.withMemory gas m ∧ m.WF ∧ mem_pos + data_len < MEM_LIMIT ∧
      m.tape = ⟨writeAt vm.evm.memory.tape.byte (mem_pos + len) (replicate (data_len - len) 0),
        max vm.evm.memory.len (ceil32 (mem_pos + data_len))⟩ := by
  unfold op_datacopy.fill_zeros at h
  rw [if_pos hlt] at h
  obtain ⟨gas, m, rfl, hwf, hlimit, htape⟩ := mem_write_ok h hm
  have hend : mem_pos + len + (data_len - len) = mem_pos + data_len := by omega
  rw [hend] at hlimit htape
  refine ⟨gas, m, rfl, hwf, hlimit, ?_⟩
  rw [htape]
  simp [fitted]

theorem copy_source_ok {src : Code}
    (h : ends (evm_mem_copy mem_pos (source_bytes src pos len) (src.rest pos len)) vm (.ok ()) vm')
    (hm : vm.evm.memory.WF) :
    ∃ gas m data, vm' = vm.withMemory gas m ∧ m.WF ∧ mem_pos + src.rest pos len < MEM_LIMIT ∧ data.length = src.rest pos len ∧
      copied src pos len = data ++ replicate (len - src.rest pos len) 0 ∧
      m.tape = ⟨writeAt vm.evm.memory.tape.byte mem_pos data, max vm.evm.memory.len (ceil32 (mem_pos + src.rest pos len))⟩ := by
  obtain ⟨gas, m, data, ⟨rfl, hlen⟩, rfl, hwf, hlimit, htape⟩ := mem_copy_ok source_bytes_ok h hm
  refine ⟨gas, m, _, rfl, hwf, hlimit, hlen, copied_eq hlen, ?_⟩
  rw [htape, fitted_of_length hlen]

theorem length_copied (src : Code) (pos len : Nat) : (copied src pos len).length = len := length_fitted _ _

theorem copy_ok {src : Code}
    (h : ends (do
      op_datacopy.fill_zeros mem_pos len (src.rest pos len)
      if src.rest pos len ≠ 0 then evm_mem_copy mem_pos (source_bytes src pos len) (src.rest pos len) else return ())
      vm (.ok ()) vm') (hm : vm.evm.memory.WF) :
    vm'.evm.memory.WF ∧ (0 < len → mem_pos + len < MEM_LIMIT) ∧
      vm'.evm.memory.tape = ((Access.write mem_pos (copied src pos len)).apply vm.evm.memory.tape).1 := by
  obtain ⟨_, _, hfill, hcopy⟩ := ends_bind_ok.1 h
  have hrest : src.rest pos len ≤ len := min_le_right _ _
  rcases Nat.eq_zero_or_pos len with rfl | hpos
  · -- nothing is written
    have hzero : src.rest pos 0 = 0 := by omega
    rw [hzero] at hfill hcopy
    obtain ⟨-, rfl⟩ := ends_pure.1 hfill
    obtain ⟨-, rfl⟩ := ends_pure.1 hcopy
    refine ⟨hm, by simp, ?_⟩
    rw [apply_write_of_length_zero (length_copied src pos 0)]
  rw [apply_write (by rw [length_copied]; exact hpos), length_copied]
  rcases Nat.lt_or_ge (src.rest pos len) len with hlt | hge
  · obtain ⟨gas, m, rfl, hwf, hlimit, htape⟩ := fill_zeros_ok hlt hfill hm
    by_cases hzero : src.rest pos len = 0
    · -- only zeros
      rw [if_neg (by simpa using hzero)] at hcopy
      obtain ⟨-, rfl⟩ := ends_pure.1 hcopy
      refine ⟨hwf, fun _ => hlimit, ?_⟩
      rw [copied_eq (by rw [hzero]; rfl), hzero, take_zero]
      rw [hzero] at htape
      exact htape
    · rw [if_pos hzero] at hcopy
      obtain ⟨gas', m', data, rfl, hwf', -, hdata, hcopied, htape'⟩ := copy_source_ok hcopy hwf
      refine ⟨hwf', fun _ => hlimit, ?_⟩
      have hbyte : m.tape.byte = _ := congrArg Tape.byte htape
      have hsize : m.len = _ := congrArg Tape.size htape
      show m'.tape = _
      rw [htape', hcopied, writeAt_append, hdata]
      show Tape.mk (writeAt m.tape.byte _ _) (max m.len _) = _
      have hmono : ceil32 (mem_pos + src.rest pos len) ≤ ceil32 (mem_pos + len) := by
        unfold ceil32
        omega
      rw [hbyte, hsize, max_assoc, max_eq_left hmono]
      rfl
  · -- the source reaches to the end
    have hall : src.rest pos len = len := by omega
    unfold op_datacopy.fill_zeros at hfill
    rw [if_neg (by omega)] at hfill
    obtain ⟨-, rfl⟩ := ends_pure.1 hfill
    rw [if_pos (by omega)] at hcopy
    obtain ⟨gas, m, data, rfl, hwf, hlimit, -, hcopied, htape⟩ := copy_source_ok hcopy hm
    rw [hall, Nat.sub_self, replicate_zero, append_nil] at hcopied
    rw [hall] at hlimit htape
    refine ⟨hwf, fun _ => hlimit, ?_⟩
    rw [hcopied]
    exact htape

theorem datacopy_ok {src : evm_t → Code} (hm : vm.evm.memory.WF)
    (hsrc : ∀ (evm : evm_t) stack gas, src { evm with stack := stack, gas := gas } = src evm)
    (h : ends (op_datacopy src false) vm (.ok ()) vm') :
    vm'.evm.memory.WF ∧ vm'.evm.memory.tape =
      ((Access.write (vm.word 0) (copied (src vm.evm) (min (vm.word 1) MEM_LIMIT) (vm.word 2))).apply vm.evm.memory.tape).1 := by
  unfold op_datacopy at h
  obtain ⟨_, _, hp, _, _, hd, _, _, hl, _, _, hpaid, evm, _, hget, h⟩ := by simpa only [ends_bind_ok] using h
  obtain ⟨s, rfl, rfl, hs⟩ := pop_int_at 0 (fun _ => rfl) hp
  obtain ⟨s', rfl, rfl, hs'⟩ := pop_int_at 1 hs hd
  obtain ⟨s'', rfl, rfl, -⟩ := pop_int_at 2 hs' hl
  obtain rfl := subgas_ok hpaid
  obtain ⟨hevm, rfl⟩ := ends_getEvm.1 hget
  have hsame : src evm = src vm.evm := by
    rw [Except.ok.inj hevm]
    exact hsrc vm.evm _ _
  simp only [hsame] at h
  obtain ⟨hwf, hlimit, htape⟩ := copy_ok h hm
  refine ⟨hwf, ?_⟩
  rcases Nat.eq_zero_or_pos (vm.word 2) with hzero | hpos
  · -- a copy of nothing is one at every place
    rw [hzero, Nat.zero_min] at htape
    rw [hzero, apply_write_of_length_zero (length_copied _ _ 0)]
    rwa [apply_write_of_length_zero (length_copied _ _ 0)] at htape
  · have hlt := hlimit (lt_min hpos (by decide))
    rwa [min_eq_left (by omega), min_eq_left (by omega)] at htape

theorem get_account_memory {adr : Bytes} {create : Bool} {ac : Option account_t}
    (h : ends (get_account env adr create) vm (.ok ac) vm') : vm'.evm.memory = vm.evm.memory := by
  obtain ⟨g, gs, hok, rfl⟩ := withFrames_ok.1 h
  rw [(forall₂_cons.1 (get_account_ok hok).same).1]

theorem extcodecopy_ok (hm : vm.evm.memory.WF)
    (h : ends (op_extcodecopy env) vm (.ok ()) vm') :
    vm'.evm.memory.WF ∧ ∃ code, vm'.evm.memory.tape =
      ⟨writeAt vm.evm.memory.tape.byte (vm.word 1) (fitted (vm.word 3) code),
        max vm.evm.memory.len (ceil32 (vm.word 1 + vm.word 3))⟩ := by
  unfold op_extcodecopy evm_stack_pop at h
  obtain ⟨_, _, ⟨_, _, ha, hadr⟩, _, _, hp, _, _, hc, _, _, hl, _, _, hpaid, ac, u, hac, h⟩ := by
    simpa only [ends_bind_ok] using h
  obtain ⟨s, rfl, -, hs⟩ := pop_ref_at 0 (fun _ => rfl) ha
  obtain ⟨-, rfl⟩ := ends_pure.1 hadr
  obtain ⟨t, rfl, rfl, ht⟩ := pop_int_at 1 hs hp
  obtain ⟨t', rfl, -, ht'⟩ := pop_int_at 2 ht hc
  obtain ⟨t'', rfl, rfl, -⟩ := pop_int_at 3 ht' hl
  obtain rfl := subgas_ok hpaid
  have hmem := get_account_memory hac
  -- every branch is one write
  have hcopy : ∃ (read : M Bytes), (∀ {u u' : Vm} {b : Bytes}, ends read u (.ok b) u' → u' = u ∧ True) ∧
      ends (evm_mem_copy (min (vm.word 1) MEM_LIMIT) read (min (vm.word 3) MEM_LIMIT)) u (.ok ()) vm' := by
    have hpure : ∀ (b : Bytes) {u u' : Vm} {x : Bytes}, ends (pure b : M Bytes) u (.ok x) u' → u' = u ∧ True :=
      fun b _ _ _ hx => ⟨(ends_pure.1 hx).2, trivial⟩
    split at h
    · split at h
      · exact ⟨_, fun hx => ⟨(source_bytes_ok hx).1, trivial⟩, h⟩
      · exact ⟨_, hpure _, h⟩
    · exact ⟨_, hpure _, h⟩
  obtain ⟨read, hread, hcopy⟩ := hcopy
  obtain ⟨gas, m, code, -, rfl, hwf, hlimit, htape⟩ := mem_copy_ok hread hcopy (by rw [hmem]; exact hm)
  rw [min_eq_left (by omega), min_eq_left (by omega), hmem] at htape
  exact ⟨hwf, code, htape⟩

theorem sha3_ok (hm : vm.evm.memory.WF) (h : ends (op_sha3 env) vm (.ok ()) vm') :
    vm'.evm.memory.WF ∧ vm'.evm.memory.tape = ((Access.read (vm.word 0) (vm.word 1)).apply vm.evm.memory.tape).1 ∧
      vm'.entry 0 = env.keccak.fn (readAt vm.evm.memory.tape.byte (vm.word 0) (vm.word 1)) := by
  unfold op_sha3 at h
  obtain ⟨_, _, ho, _, _, hl, h⟩ := by simpa only [ends_bind_ok] using h
  obtain ⟨s, rfl, rfl, hs⟩ := pop_int_at 0 (fun _ => rfl) ho
  obtain ⟨s', rfl, rfl, -⟩ := pop_int_at 1 hs hl
  by_cases hmax : min (vm.word 1) MEM_LIMIT = MEM_LIMIT
  · rw [if_pos hmax] at h
    exact absurd h outOfGas_not_ok
  rw [if_neg hmax] at h
  rw [min_eq_left (show vm.word 1 ≤ MEM_LIMIT by omega)] at h
  obtain ⟨src, _, hsrc, _, _, hpaid, hpush⟩ := by simpa only [ends_bind_ok] using h
  unfold op_sha3.read_source at hsrc
  by_cases hzero : vm.word 1 = 0
  · rw [if_pos hzero] at hsrc
    obtain ⟨hdata, rfl⟩ := ends_pure.1 hsrc
    cases hdata
    obtain rfl := subgas_ok hpaid
    obtain ⟨t, rest, rfl, ht⟩ := push_ok (env.keccak.len _).le hpush
    rw [hzero] at ht ⊢
    refine ⟨hm, rfl, ?_⟩
    rw [entry_zero ht]
    rfl
  · rw [if_neg hzero] at hsrc
    obtain ⟨gas, m, rfl, hgrown, hlimit, rfl⟩ := mem_read_ref_ok hsrc hm
    obtain rfl := subgas_ok hpaid
    obtain ⟨t, rest, rfl, ht⟩ := push_ok (env.keccak.len _).le hpush
    rw [min_eq_left (by omega)] at hgrown ht
    refine ⟨hgrown.wf hm, ?_, ?_⟩
    · rw [Access.apply, touched, if_neg hzero]
      exact hgrown.tape
    · rw [entry_zero ht]
      unfold Memory.tape
      rw [readAt_cells]
      rfl

theorem return_ok {revert : Bool} (hm : vm.evm.memory.WF)
    (h : ends (op_return revert) vm (.ok ()) vm') :
    vm'.evm.memory.WF ∧ vm'.evm.memory.tape = ((Access.read (vm.word 0) (vm.word 1)).apply vm.evm.memory.tape).1 ∧
      (vm'.evm.return_data.map (·.bytes)).getD [] = readAt vm.evm.memory.tape.byte (vm.word 0) (vm.word 1) := by
  unfold op_return at h
  obtain ⟨_, _, ho, _, _, hl, _, _, hget, _, u, hfree, data, _, hread, _, _, hnew, h⟩ := by
    simpa only [ends_bind_ok] using h
  obtain ⟨s, rfl, rfl, hs⟩ := pop_int_at 0 (fun _ => rfl) ho
  obtain ⟨s', rfl, rfl, -⟩ := pop_int_at 1 hs hl
  obtain ⟨-, rfl⟩ := ends_getEvm.1 hget
  have hmem : u.evm.memory = vm.evm.memory := congrArg (·.memory) (free_buffer_ends hfree).2.1
  obtain ⟨gas, m, rfl, hwf, htape, hdata, hlimit⟩ := mem_readi_ok hread (by rw [hmem]; exact hm)
  obtain ⟨hbuf, rfl⟩ := ends_pure.1 hnew
  cases hbuf
  obtain ⟨-, rfl⟩ := ends_modifyEvm.1 h
  rw [hmem] at htape hdata
  rcases Nat.eq_zero_or_pos (vm.word 1) with hzero | hpos
  · rw [hzero] at htape hdata
    rw [hzero]
    exact ⟨hwf, htape, hdata⟩
  · have hlt := hlimit (lt_min hpos (by decide))
    rw [min_eq_left (by omega), min_eq_left (by omega)] at htape hdata
    exact ⟨hwf, htape, hdata⟩

theorem create_input_ok {input : Bytes × Bytes} (hm : vm.evm.memory.WF)
    (h : ends create_input vm (.ok input) vm') :
    vm'.evm.memory.WF ∧
      vm'.evm.memory.tape = ⟨vm.evm.memory.tape.byte, max vm.evm.memory.len (ceil32 (vm.word 1 + vm.word 2))⟩ ∧
      input.2 = (vm.evm.memory.data.drop (vm.word 1)).take (vm.word 2) := by
  unfold create_input at h
  obtain ⟨_, _, hv, _, _, ho, _, _, hl, _, _, hcheck, _, _, hread, h⟩ := by simpa only [ends_bind_ok] using h
  obtain ⟨r, rfl, -, hr⟩ := pop_ref_at 0 (fun _ => rfl) hv
  obtain ⟨s, rfl, rfl, hs⟩ := pop_int_at 1 hr ho
  obtain ⟨s', rfl, rfl, -⟩ := pop_int_at 2 hs hl
  obtain ⟨gas, m, rfl, hgrown, hlimit, hsame⟩ := mem_check_ok hcheck hm
  obtain ⟨gas', m', rfl, hgrown', -, rfl⟩ := mem_read_ref_ok hread (hgrown.wf hm)
  obtain ⟨hinput, rfl⟩ := ends_pure.1 h
  cases hinput
  have hplace : min (vm.word 1) MEM_LIMIT = vm.word 1 := by omega
  have hlength : min (vm.word 2) MEM_LIMIT = vm.word 2 := by omega
  rw [hplace, hlength] at hgrown hgrown'
  refine ⟨hgrown'.wf (hgrown.wf hm), ?_, ?_⟩
  · show m'.tape = _
    rw [hgrown'.tape]
    show Tape.mk m.tape.byte (max m.len _) = _
    rw [hgrown.tape, hgrown.len, max_assoc, max_self]
    rfl
  · show (m.data.drop _).take _ = _
    rw [hsame, hplace, hlength]
    rfl

/-! ## Runs -/

/-- An operation that succeeded: the machine in front of it and behind it, and what it took from the memory. -/
structure Step where
  before : Vm
  op : MemOp
  out : Bytes
  after : Vm

/-- The access that the operation is for. Which code `EXTCODECOPY` finds is not the memory's business. -/
def Step.Requests (s : Step) (a : Access) : Prop :=
  let vm := s.before
  match s.op with
  | .MLOAD => a = .read (vm.word 0) 32
  | .MSTORE => a = .write (vm.word 0) (padLeft 32 (vm.entry 1))
  | .MSTORE8 => a = .write (vm.word 0) [(vm.entry 1).getLastD 0]
  | .CALLDATACOPY => a = .write (vm.word 0) (copied vm.evm.call_source (min (vm.word 1) MEM_LIMIT) (vm.word 2))
  | .CODECOPY => a = .write (vm.word 0) (copied vm.evm.code (min (vm.word 1) MEM_LIMIT) (vm.word 2))
  | .EXTCODECOPY => ∃ code, a = .write (vm.word 1) (fitted (vm.word 3) code)
  | .SHA3 | .RETURN => a = .read (vm.word 0) (vm.word 1)
  | .CREATE _ => a = .read (vm.word 1) (vm.word 2)

def MemOp.shown (env : Env) (op : MemOp) (read : Bytes) : Bytes :=
  match op with
  | .SHA3 => env.keccak.fn read
  | _ => read

/-- The operations run one after the other, the first one with the memory `m`, and nothing else writes to it. -/
def IsRun (env : Env) : Memory → List Step → Prop
  | _, [] => True
  | m, s :: rest =>
    s.before.evm.memory = m ∧ ends (s.op.run env) s.before (.ok s.out) s.after ∧ IsRun env s.after.evm.memory rest

/-- They do what they would do with an array of bytes: every operation makes the access it is for, and the memory
behind it is the array behind this access, in whole words. -/
def ArrayRun (env : Env) : Tape → List Step → Prop
  | _, [] => True
  | t, s :: rest => ∃ a, s.Requests a ∧ s.out = s.op.shown env (a.apply t).2 ∧
      s.after.evm.memory.tape = (a.apply t).1 ∧ (a.apply t).1.size % 32 = 0 ∧ ArrayRun env (a.apply t).1 rest

/-- The entry of `MSTORE8` begins with its last byte, a copy of no external code is at a place in the memory, and
init code is in the buffer, or it is empty and its place is in the memory. -/
def Step.Regular (s : Step) : Prop :=
  let vm := s.before
  match s.op with
  | .MSTORE8 => (vm.entry 1).headD 0 = (vm.entry 1).getLastD 0
  | .EXTCODECOPY => 0 < vm.word 3 ∨ vm.word 1 ≤ vm.evm.memory.len
  | .CREATE _ => if vm.word 2 = 0 then vm.word 1 ≤ vm.evm.memory.len
      else vm.word 1 + vm.word 2 ≤ vm.evm.memory.data.length
  | _ => True

instance : ∀ s : Step, Decidable s.Regular
  | ⟨vm, .MSTORE8, _, _⟩ => inferInstanceAs (Decidable ((vm.entry 1).headD 0 = (vm.entry 1).getLastD 0))
  | ⟨vm, .EXTCODECOPY, _, _⟩ => inferInstanceAs (Decidable (0 < vm.word 3 ∨ vm.word 1 ≤ vm.evm.memory.len))
  | ⟨vm, .CREATE _, _, _⟩ => inferInstanceAs (Decidable (if vm.word 2 = 0 then vm.word 1 ≤ vm.evm.memory.len
      else vm.word 1 + vm.word 2 ≤ vm.evm.memory.data.length))
  | ⟨_, .MLOAD, _, _⟩ | ⟨_, .MSTORE, _, _⟩ | ⟨_, .CALLDATACOPY, _, _⟩ | ⟨_, .CODECOPY, _, _⟩ | ⟨_, .SHA3, _, _⟩
  | ⟨_, .RETURN, _, _⟩ => instDecidableTrue

/-- One operation makes the access it is for. -/
def Step.Follows (env : Env) (s : Step) : Prop :=
  ∃ a, s.Requests a ∧ s.out = s.op.shown env (a.apply s.before.evm.memory.tape).2 ∧
    s.after.evm.memory.tape = (a.apply s.before.evm.memory.tape).1

theorem writes_ok
    (h : ends (do x; return [] : M Bytes) vm (.ok out) vm') : ends x vm (.ok ()) vm' ∧ out = [] := by
  obtain ⟨_, _, hx, h⟩ := ends_bind_ok.1 h
  obtain ⟨hout, rfl⟩ := ends_pure.1 h
  exact ⟨hx, Except.ok.inj hout⟩

theorem store8_follows_iff (hop : s.op = .MSTORE8) (hm : s.before.evm.memory.WF)
    (h : ends (s.op.run env) s.before (.ok s.out) s.after) :
    s.after.evm.memory.WF ∧ (s.Follows env ↔ s.Regular) := by
  rw [hop] at h
  obtain ⟨hstore, hout⟩ := writes_ok h
  obtain ⟨hwf, htape⟩ := mstore_ok hm Nat.one_pos hstore
  rw [if_neg (by decide)] at htape
  have hfirst : fitted 1 (s.before.entry 1) = [(s.before.entry 1).headD 0] := by
    rcases s.before.entry 1 with _ | ⟨x, t⟩
    · rfl
    · simp [fitted]
  rw [hfirst] at htape
  refine ⟨hwf, ?_⟩
  unfold Step.Follows Step.Requests Step.Regular
  rw [hop, htape]
  constructor
  · rintro ⟨_, rfl, -, heq⟩
    exact writeAt_singleton_inj.1 (congrArg Tape.byte heq)
  · intro heq
    exact ⟨_, rfl, hout, by rw [heq]⟩

theorem extcodecopy_follows_iff (hop : s.op = .EXTCODECOPY) (hm : s.before.evm.memory.WF)
    (h : ends (s.op.run env) s.before (.ok s.out) s.after) :
    s.after.evm.memory.WF ∧ (s.Follows env ↔ s.Regular) := by
  rw [hop] at h
  obtain ⟨hcopy, hout⟩ := writes_ok h
  obtain ⟨hwf, code, htape⟩ := extcodecopy_ok hm hcopy
  refine ⟨hwf, ?_⟩
  unfold Step.Follows Step.Requests Step.Regular
  rw [hop, htape]
  dsimp only
  rcases Nat.eq_zero_or_pos (s.before.word 3) with hzero | hpos
  · rw [hzero]
    constructor
    · rintro ⟨_, ⟨code', rfl⟩, -, heq⟩
      rw [apply_write_of_length_zero (length_fitted 0 code')] at heq
      exact .inr ((max_ceil32_eq_iff hm.words).1 (congrArg Tape.size heq))
    · rintro (hlt | hle)
      · exact absurd hlt (lt_irrefl 0)
      · refine ⟨_, ⟨code, rfl⟩, hout, ?_⟩
        have hnil : fitted 0 code = [] := length_eq_zero_iff.1 (length_fitted 0 code)
        rw [apply_write_of_length_zero (length_fitted 0 code), hnil, writeAt_nil, Nat.add_zero,
          (max_ceil32_eq_iff hm.words).2 hle]
        rfl
  · constructor
    · intro _
      exact .inl hpos
    · intro _
      refine ⟨_, ⟨code, rfl⟩, hout, ?_⟩
      rw [apply_write (by rw [length_fitted]; exact hpos), length_fitted]
      rfl

theorem create_follows_iff {use_salt : Bool} (hop : s.op = .CREATE use_salt)
    (hm : s.before.evm.memory.WF) (h : ends (s.op.run env) s.before (.ok s.out) s.after) :
    s.after.evm.memory.WF ∧ (s.Follows env ↔ s.Regular) := by
  rw [hop] at h
  obtain ⟨_, _, hinput, h⟩ := ends_bind_ok.1 h
  obtain ⟨hout, hafter⟩ := ends_pure.1 h
  rw [← hafter] at hinput
  obtain ⟨hwf, htape, hdata⟩ := create_input_ok hm hinput
  rw [← Except.ok.inj hout] at hdata
  refine ⟨hwf, ?_⟩
  unfold Step.Follows Step.Requests Step.Regular
  rw [hop, htape, hdata]
  dsimp only [MemOp.shown]
  rcases Nat.eq_zero_or_pos (s.before.word 2) with hzero | hpos
  · rw [hzero]
    constructor
    · rintro ⟨_, rfl, -, heq⟩
      exact (max_ceil32_eq_iff hm.words).1 (congrArg Tape.size heq)
    · intro hle
      refine ⟨_, rfl, rfl, ?_⟩
      rw [Nat.add_zero, (max_ceil32_eq_iff hm.words).2 hle]
      rfl
  · rw [if_neg (by omega)]
    have hread := readAt_cells_eq_iff 0 s.before.evm.memory.data (s.before.word 1) hpos
    constructor
    · rintro ⟨_, rfl, hbytes, -⟩
      exact hread.1 hbytes
    · intro hle
      refine ⟨_, rfl, hread.2 hle, ?_⟩
      show _ = Tape.mk _ (touched _ _ _)
      rw [touched, if_neg (by omega)]
      rfl

theorem looks_ok {f : evm_t → Bytes}
    (h : ends (do x; let evm ← getEvm; return f evm : M Bytes) vm (.ok out) vm') :
    ends x vm (.ok ()) vm' ∧ out = f vm'.evm := by
  obtain ⟨_, _, hx, h⟩ := ends_bind_ok.1 h
  obtain ⟨hout, rfl⟩ := ends_pure.1 h
  exact ⟨hx, Except.ok.inj hout⟩

theorem length_entry_le (vm : Vm) (i : Nat) : (vm.entry i).length ≤ 32 := by
  unfold Vm.entry
  rcases Nat.lt_or_ge i vm.evm.stack.entries.length with h | h
  · rw [getD_eq_getElem _ _ h]
    exact vm.evm.stack.small _ (getElem_mem h)
  · rw [getD_eq_default _ _ h]
    simp

theorem headD_entries (vm : Vm) : vm.evm.stack.entries.headD [] = vm.entry 0 := by
  unfold Vm.entry
  cases vm.evm.stack.entries <;> rfl

theorem step_follows_iff (hm : s.before.evm.memory.WF)
    (h : ends (s.op.run env) s.before (.ok s.out) s.after) :
    s.after.evm.memory.WF ∧ (s.Follows env ↔ s.Regular) := by
  obtain ⟨before, op, out, after⟩ := s
  cases op with
  | MSTORE8 => exact store8_follows_iff rfl hm h
  | EXTCODECOPY => exact extcodecopy_follows_iff rfl hm h
  | CREATE use_salt => exact create_follows_iff rfl hm h
  | MLOAD =>
    obtain ⟨hload, hout⟩ := looks_ok h
    obtain ⟨hwf, htape, hbytes⟩ := mload_ok hm hload
    exact ⟨hwf, iff_of_true ⟨_, rfl, by rw [hout, headD_entries, hbytes]; rfl, htape⟩ trivial⟩
  | MSTORE =>
    obtain ⟨hstore, rfl⟩ := writes_ok h
    obtain ⟨hwf, htape⟩ := mstore_ok hm (by decide) hstore
    have hword : (padLeft 32 (before.entry 1)).length = 32 := length_padLeft (length_entry_le before 1)
    rw [if_pos rfl, fitted_of_length hword] at htape
    exact ⟨hwf, iff_of_true ⟨_, rfl, rfl, htape⟩ trivial⟩
  | CALLDATACOPY =>
    obtain ⟨hcopy, rfl⟩ := writes_ok h
    obtain ⟨hwf, htape⟩ := datacopy_ok hm (fun _ _ _ => rfl) hcopy
    exact ⟨hwf, iff_of_true ⟨_, rfl, rfl, htape⟩ trivial⟩
  | CODECOPY =>
    obtain ⟨hcopy, rfl⟩ := writes_ok h
    obtain ⟨hwf, htape⟩ := datacopy_ok hm (fun _ _ _ => rfl) hcopy
    exact ⟨hwf, iff_of_true ⟨_, rfl, rfl, htape⟩ trivial⟩
  | SHA3 =>
    obtain ⟨hhash, hout⟩ := looks_ok h
    obtain ⟨hwf, htape, hbytes⟩ := sha3_ok hm hhash
    exact ⟨hwf, iff_of_true ⟨_, rfl, by rw [hout, headD_entries, hbytes]; rfl, htape⟩ trivial⟩
  | RETURN =>
    obtain ⟨hreturn, hout⟩ := looks_ok h
    obtain ⟨hwf, htape, hbytes⟩ := return_ok hm hreturn
    exact ⟨hwf, iff_of_true ⟨_, rfl, by rw [hout, hbytes]; rfl, htape⟩ trivial⟩

theorem arrayRun_iff {steps : List Step} (hm : m.WF) (h : IsRun env m steps) :
    ArrayRun env m.tape steps ↔ ∀ s ∈ steps, s.Regular := by
  induction steps generalizing m with
  | nil => exact iff_of_true trivial (by simp)
  | cons s rest ih =>
    obtain ⟨rfl, hends, hrest⟩ := h
    obtain ⟨hwf, hiff⟩ := step_follows_iff hm hends
    rw [forall_mem_cons, ← hiff, ← ih hwf hrest]
    constructor
    · rintro ⟨a, hreq, hout, htape, -, hrun⟩
      rw [← htape] at hrun
      exact ⟨⟨a, hreq, hout, htape⟩, hrun⟩
    · rintro ⟨⟨a, hreq, hout, htape⟩, hrun⟩
      refine ⟨a, hreq, hout, htape, ?_, ?_⟩
      · rw [← htape]
        exact hwf.words
      · rw [← htape]
        exact hrun

/-- In every run from the memory of a new frame: the memory is an array of bytes that are zero at the start if and
only if every operation is regular. -/
theorem memory_iff {env : Env} {steps : List Step} (h : IsRun env {} steps) :
    ArrayRun env ⟨fun _ => 0, 0⟩ steps ↔ ∀ s ∈ steps, s.Regular := by
  rw [← Memory.tape_fresh]
  exact arrayRun_iff Memory.wf_fresh h

def bareEnv : Env where
  balance _ := .ok []
  nonce _ := .ok []
  code_size _ _ := .ok []
  code_copy _ _ _ := .ok []
  code_hash _ _ _ := .ok []
  blockhash _ := .ok []
  blockheader := .ok []
  storage _ _ := .ok []
  keccak := Hash.ofTable []
  precompiled _ _ := none

def Vm.started (stack : Stack) (memory : Memory) : Vm :=
  let vm := Vm.ofStack stack
  { vm with evm := { vm.evm with memory := memory, gas := 1000 } }

/-- The step of this operation, if it succeeds. -/
def Step.of (env : Env) (vm : Vm) (op : MemOp) : Step :=
  match (op.run env).run.run vm with
  | .ok (.ok out, after) => ⟨vm, op, out, after⟩
  | _ => ⟨vm, op, [], vm⟩

/-- A word is stored, loaded, and then its second half is taken for init code. -/
theorem memory_of_three :
    let store := Step.of bareEnv (Vm.started ⟨[[0], [1, 2]], [], by decide, by decide⟩ {}) .MSTORE
    let load := Step.of bareEnv (Vm.started ⟨[[0]], [], by decide, by decide⟩ store.after.evm.memory) .MLOAD
    let create := Step.of bareEnv (Vm.started ⟨[[], [16], [16]], [], by decide, by decide⟩ load.after.evm.memory) (.CREATE true)
    IsRun bareEnv {} [store, load, create] ∧ ArrayRun bareEnv ⟨fun _ => 0, 0⟩ [store, load, create] ∧
      load.out = replicate 30 0 ++ [1, 2] ∧ create.out = replicate 14 0 ++ [1, 2] := by
  intro store load create
  have hrun : IsRun bareEnv {} [store, load, create] :=
    ⟨rfl, by decide, rfl, by decide, rfl, by decide, trivial⟩
  exact ⟨hrun, (memory_iff hrun).2 (by decide), by decide, by decide⟩

theorem not_arrayRun_of_step (hrun : IsRun env {} [s]) (hs : ¬ s.Regular) :
    ¬ ArrayRun env ⟨fun _ => 0, 0⟩ [s] := by
  rw [← Memory.tape_fresh, arrayRun_iff Memory.wf_fresh hrun]
  intro hall
  exact hs (hall s (mem_singleton_self s))

def storedByte : Step := .of bareEnv (Vm.started ⟨[[0], [1, 2]], [], by decide, by decide⟩ {}) .MSTORE8

def emptyCopy : Step := .of bareEnv (Vm.started ⟨[[], [64], [], []], [], by decide, by decide⟩ {}) .EXTCODECOPY

def unwrittenCreate : Step := .of bareEnv (Vm.started ⟨[[], [], [64]], [], by decide, by decide⟩ {}) (.CREATE false)

/-- The first of two bytes is stored, the size is raised for nothing, and init code is cut at the end of the buffer. -/
theorem memory_not_array :
    (IsRun bareEnv {} [storedByte] ∧ ¬ ArrayRun bareEnv ⟨fun _ => 0, 0⟩ [storedByte]) ∧
    (IsRun bareEnv {} [emptyCopy] ∧ ¬ ArrayRun bareEnv ⟨fun _ => 0, 0⟩ [emptyCopy]) ∧
    (IsRun bareEnv {} [unwrittenCreate] ∧ ¬ ArrayRun bareEnv ⟨fun _ => 0, 0⟩ [unwrittenCreate]) := by
  have hbyte : IsRun bareEnv {} [storedByte] := ⟨rfl, by decide, trivial⟩
  have hcopy : IsRun bareEnv {} [emptyCopy] := ⟨rfl, by decide, trivial⟩
  have hcreate : IsRun bareEnv {} [unwrittenCreate] := ⟨rfl, by decide, trivial⟩
  exact ⟨⟨hbyte, not_arrayRun_of_step hbyte (by decide)⟩, ⟨hcopy, not_arrayRun_of_step hcopy (by decide)⟩,
    hcreate, not_arrayRun_of_step hcreate (by decide)⟩

end In3.Evm
