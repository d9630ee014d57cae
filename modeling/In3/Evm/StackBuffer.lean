import In3.Evm.Memory
import In3.Lib.Region
/-!
# The buffer of the stack (`verifier/eth1/evm/evm.c`, `opcodes.c`)

The entries of the stack lie in one buffer, from the bottom to the top. Each of them is followed by its length, so that
they are found from the end of the buffer. SWAP exchanges two entries of different lengths in place and moves
what lies between them.

What a buffer holds behind its length is not read by these functions; new memory is zero here.
-/
open Lib

namespace In3.Evm

/-- `stack` and `stack_size`: the memory of the buffer, how much of it is used, and the number of entries. -/
structure StackBuffer where
  data : Bytes
  len : Nat
  stack_size : Nat

/-- The operations on a stack of `α`. `dup` and `swap` count from 0: they are `DUP1` to `DUP16` and `SWAP1` to `SWAP16`. -/
inductive StackOp (α : Type) where
  | push (a : α)
  | pop
  | dup (n : Fin 16)
  | swap (n : Fin 16)

namespace StackBuffer

/-- A function on the buffer; a bad access is a fault. -/
abbrev Fn := Guarded Lib.Access Int

/-- The buffer of a new frame. -/
def start : StackBuffer := ⟨List.replicate 64 0, 0, 0⟩

/-- `bb_check_size`: the buffer is doubled until there is room for `len` bytes, and one more. -/
def bb_check_size (buf : StackBuffer) (len : Nat) : StackBuffer :=
  if buf.len + len < buf.data.length then buf
  else
    let bsize := grown_size (buf.len + len) 32 buf.data.length
    { buf with data := buf.data ++ List.replicate (bsize - buf.data.length) 0 }

def evm_stack_push (buf : StackBuffer) (data : Bytes) : Fn StackBuffer :=
  if buf.stack_size = EVM_STACK_LIMIT ∨ 32 < data.length then throw EVM_ERROR_STACK_LIMIT
  else do
    let buf := buf.bb_check_size (data.length + 1)
    let bytes ← Region.store buf.data buf.len data
    let bytes ← Region.store bytes (buf.len + data.length) [UInt8.ofNat data.length]
    return ⟨bytes, buf.len + data.length + 1, buf.stack_size + 1⟩

def entry_at (data : Bytes) (p : Nat) : Fn (Nat × Nat) := do
  let l ← Region.byte data (p - 1)
  Guarded.guard (l.toNat + 1 ≤ p) .overflow
  return (p - (l.toNat + 1), l.toNat)

def evm_stack_pop_ref (buf : StackBuffer) : Fn (Bytes × StackBuffer) :=
  if buf.stack_size = 0 then throw EVM_ERROR_EMPTY_STACK
  else do
    let (p, l) ← entry_at buf.data buf.len
    let e ← Region.slice buf.data p l
    return (e, { buf with len := p, stack_size := buf.stack_size - 1 })

/-- The loop of `evm_stack_get_ref`: `i` rounds are left. -/
def ref_loop (data : Bytes) : Nat → Nat × Nat → Fn (Nat × Nat)
  | 0, ref => return ref
  | i + 1, (p, _) => do
    let ref ← entry_at data p
    ref_loop data i ref

def evm_stack_get_ref (buf : StackBuffer) (pos : Nat) : Fn (Nat × Nat) :=
  if buf.stack_size < pos ∨ pos < 1 then throw EVM_ERROR_EMPTY_STACK else ref_loop buf.data pos (buf.len, 0)

def op_dup (buf : StackBuffer) (pos : Nat) : Fn StackBuffer := do
  let (p, l) ← buf.evm_stack_get_ref pos
  let e ← Region.slice buf.data p l
  buf.evm_stack_push e

def memmove (data : Bytes) (dst src n : Int) : Fn Bytes := do
  Guarded.guard (0 ≤ n) .overflow
  let part ← Region.slice data src n.toNat
  Region.store data dst part

/-- The three cases of `op_swap`, for the top at `a` and the entry at `b`. -/
def swap_bytes (data : Bytes) (pos a l1 b l2 : Nat) : Fn Bytes :=
  if l1 = l2 then do
    let top ← Region.slice data a l1
    let old ← Region.slice data b l1
    let data ← Region.store data a old
    Region.store data b top
  else if l1 < l2 then do
    let old ← Region.slice data b (l2 + 1)
    let top ← Region.slice data a (l1 + 1)
    let data ← Region.store data b top
    let data ← between data
    Region.store data ((a : Int) + l1 - l2) old
  else do
    let top ← Region.slice data a (l1 + 1)
    let old ← Region.slice data b (l2 + 1)
    let data ← Region.store data ((a : Int) + l1 - l2) old
    let data ← between data
    Region.store data b top
where
  between (data : Bytes) : Fn Bytes :=
    if 2 < pos then memmove data ((b : Int) + l1 + 1) ((b : Int) + l2 + 1) ((a : Int) - b - l2 - 1) else return data

def op_swap (buf : StackBuffer) (pos : Nat) : Fn StackBuffer := do
  let (a, l1) ← buf.evm_stack_get_ref 1
  let (b, l2) ← buf.evm_stack_get_ref pos
  let data ← swap_bytes buf.data pos a l1 b l2
  return { buf with data := data }

/-! ## Sequences of operations -/

/-- What is pushed has at most 32 bytes. -/
abbrev Entry := { data : Bytes // data.length ≤ 32 }

/-- One operation; the entry that is taken off is the first part. -/
def step (buf : StackBuffer) : StackOp Entry → Fn (Option Bytes × StackBuffer)
  | .push data => do return (none, ← buf.evm_stack_push data.1)
  | .pop => do
    let (e, buf) ← buf.evm_stack_pop_ref
    return (some e, buf)
  | .dup n => do return (none, ← buf.op_dup (n + 1))
  | .swap n => do return (none, ← buf.op_swap (n + 2))

/-- The entries that a sequence takes off, and the buffer behind it. -/
def run (buf : StackBuffer) : List (StackOp Entry) → Fn (List Bytes × StackBuffer)
  | [] => return ([], buf)
  | op :: ops => do
    let (e, buf) ← buf.step op
    let (es, buf) ← buf.run ops
    return (e.toList ++ es, buf)

end StackBuffer

end In3.Evm
