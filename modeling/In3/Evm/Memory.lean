import In3.Evm.State
/-!
# Gas and memory (`verifier/eth1/evm/gas.h`, `evm_mem.c`)

The memory of a frame has two sizes. `len` is what the program has paid for and sees; the buffer behind
it grows only when something is written, so that a read may reach behind it and finds zeros there.
-/
open Lib

namespace In3.Evm

/-! ## Prices -/

def GAS_CC_NET_SSTORE_NOOP_GAS : Nat := 200
def GAS_CC_NET_SSTORE_INIT_GAS : Nat := 20000
def GAS_CC_NET_SSTORE_CLEAN_GAS : Nat := 5000
def GAS_CC_NET_SSTORE_DIRTY_GAS : Nat := 200
def GAS_CC_NET_SSTORE_CLEAR_REFUND : Nat := 15000
def GAS_CC_NET_SSTORE_RESET_REFUND : Nat := 4800
def GAS_CC_NET_SSTORE_RESET_CLEAR_REFUND : Nat := 19800

def G_JUMPDEST : Nat := 1
def G_BASE : Nat := 2
def G_VERY_LOW : Nat := 3
def G_LOW : Nat := 5
def G_MID : Nat := 8
def G_HIGH : Nat := 10
def G_EXTCODE : Nat := 700
def G_BALANCE : Nat := 400
def G_SLOAD : Nat := 200
def FRONTIER_G_SLOAD : Nat := 50
def G_SSET : Nat := 20000
def G_SRESET : Nat := 5000
def R_SCLEAR : Nat := 15000
def R_SELFDESTRUCT : Nat := 24000
def G_SELFDESTRUCT : Nat := 5000
def G_CREATE : Nat := 32000
def G_CODEDEPOSIT : Nat := 200
def G_CALL : Nat := 700
def G_CALLVALUE : Nat := 9000
def G_CALLSTIPEND : Nat := 2300
def G_NEWACCOUNT : Nat := 25000
def G_EXP : Nat := 10
def G_MEMORY : Nat := 3
def G_LOG : Nat := 375
def G_LOGDATA : Nat := 8
def G_LOGTOPIC : Nat := 375
def G_SHA3 : Nat := 30
def G_SHA3WORD : Nat := 6
def G_COPY : Nat := 3
def G_BLOCKHASH : Nat := 20

def EVM_MAX_CODE_SIZE : Nat := 24576

/-! ## Growing -/

def words_cost (wc : Nat) : Nat := wc * G_MEMORY + wc * wc / 512

/-- What `mem_check` charges for a memory of `max_pos` bytes. -/
def mem_cost (len max_pos : Nat) : Nat := words_cost ((max_pos + 31) / 32) - words_cost ((len + 31) / 32)

/-- The loop of `bb_check_size`: `bsize` is doubled until it is greater than `len`. -/
def grown_size (len : Nat) : Nat → Nat → Nat
  | 0, bsize => bsize
  | rounds + 1, bsize => if bsize ≤ len then grown_size len rounds (2 * bsize) else bsize

theorem lt_grown_size {len rounds bsize : Nat} (h : len < bsize * 2 ^ rounds) : len < grown_size len rounds bsize := by
  induction rounds generalizing bsize with
  | zero =>
    rw [pow_zero, mul_one] at h
    exact h
  | succ rounds ih =>
    unfold grown_size
    split
    · apply ih
      calc len < bsize * (2 ^ rounds * 2) := h
        _ = 2 * bsize * 2 ^ rounds := by ring
    · omega

/-- The part of `mem_check` that allocates; new bytes are zero. -/
def grow_buffer (max_pos : Nat) (m : Memory) : Memory :=
  if m.data.length < max_pos then
    { m with data := m.data ++ List.replicate (grown_size max_pos 32 m.data.length - m.data.length) 0 }
  else m

/-- The part of `mem_check` that sets the length, to whole words if it needs new ones; the result is `max_pos`. -/
def extend_memory (max_pos : Nat) : M Nat := do
  let evm ← getEvm
  let words := (max_pos + 31) / 32
  if max_pos ≤ evm.memory.len then return max_pos
  else if (evm.memory.len + 31) / 32 < words then
    subgas (mem_cost evm.memory.len max_pos)
    modifyEvm fun evm => { evm with memory := { evm.memory with len := words * 32 } }
    return words * 32
  else
    modifyEvm fun evm => { evm with memory := { evm.memory with len := max_pos } }
    return max_pos

def mem_check (max_pos : Nat) (read_only : Bool) : M Unit := do
  if MEM_LIMIT ≤ max_pos then outOfGas
  else
    let max_pos ← extend_memory max_pos
    if read_only then return () else modifyEvm fun evm => { evm with memory := grow_buffer max_pos evm.memory }

/-! ## Access -/

/-- `len` bytes from `off` on; behind the buffer there are zeros. -/
def Memory.bytes (m : Memory) (off len : Nat) : Bytes :=
  let src := (m.data.drop off).take len
  src ++ List.replicate (len - src.length) 0

def evm_mem_readi (off len : Nat) : M Bytes := do
  if len = 0 then return []
  else
    mem_check (off + len) true
    let evm ← getEvm
    return evm.memory.bytes off len

def evm_mem_read (mem_off : Bytes) (len : Nat) : M Bytes := do
  let mem_off := optimize_len mem_off
  if 4 < mem_off.length then outOfGas else evm_mem_readi (bytes_to_int mem_off) len

/-- `evm_mem_read_ref`: only what is in the buffer. -/
def evm_mem_read_ref (off len : Nat) : M Bytes := do
  mem_check (off + len) true
  let evm ← getEvm
  return (evm.memory.data.drop off).take len

/-- `len` bytes are overwritten by the data and zeros. The buffer was made large enough. -/
def Memory.write (m : Memory) (off : Nat) (src : Bytes) (len : Nat) : Memory :=
  { m with data := m.data.take off ++ (src.take len ++ List.replicate (len - src.length) 0) ++ m.data.drop (off + len) }

/-- `evm_mem_write`; the source is read behind the check. -/
def evm_mem_copy (off : Nat) (read : M Bytes) (len : Nat) : M Unit := do
  mem_check (off + len) false
  let src ← read
  modifyEvm fun evm => { evm with memory := evm.memory.write off src len }

def evm_mem_write (off : Nat) (src : Bytes) (len : Nat) : M Unit := evm_mem_copy off (return src) len

end In3.Evm
