import In3.Evm.Big
import In3.Lib.Machine
import Mathlib.Data.List.AList
/-!
# The state of the machine (`verifier/eth1/evm/evm.h`, `evm.c`)

A frame is an `evm_t`. The machine holds the frame that runs and the frames that wait for it, the
log entries, the numbers of the buffers that were freed, and a record of what was executed, which no
function reads.

The stack is a buffer: every entry is followed by its length, and an entry that was popped stays in
memory behind the top until a push overwrites it. Its bytes are a list of entries, the top first, and
the `slack` behind them. The model is the build with `EVM_GAS`.
-/
open Lib

namespace In3.Evm

/-! ## Codes and sizes -/

def EVM_ERROR_EMPTY_STACK : Int := -20
def EVM_ERROR_INVALID_OPCODE : Int := -21
def EVM_ERROR_BUFFER_TOO_SMALL : Int := -22
def EVM_ERROR_ILLEGAL_MEMORY_ACCESS : Int := -23
def EVM_ERROR_INVALID_JUMPDEST : Int := -24
def EVM_ERROR_UNSUPPORTED_CALL_OPCODE : Int := -26
def EVM_ERROR_TIMEOUT : Int := -27
def EVM_ERROR_INVALID_ENV : Int := -28
def EVM_ERROR_OUT_OF_GAS : Int := -29
def EVM_ERROR_BALANCE_TOO_LOW : Int := -30
def EVM_ERROR_STACK_LIMIT : Int := -31
def EVM_ERROR_SUCCESS_CONSUME_GAS : Int := -32
def EVM_ERROR_MAX_CODE_SIZE_EXCEEDED : Int := -33

def EVM_STACK_LIMIT : Nat := 1024

/-- The value of `evm_stack_pop_int` for every number of more than 28 bits. -/
def MEM_LIMIT : Nat := 0xFFFFFFF

/-! ## The stack -/

/-- At most 1024 entries of at most 32 bytes. -/
structure Stack where
  entries : List Bytes
  slack : Bytes
  count : entries.length ≤ EVM_STACK_LIMIT
  small : ∀ e ∈ entries, e.length ≤ 32
  deriving DecidableEq

namespace Stack

def empty : Stack := ⟨[], [], by decide, by simp⟩

/-- The top entry, and the stack without it: its bytes and its length stay in memory. -/
def pop (s : Stack) : Option (Bytes × Stack) :=
  match h : s.entries with
  | [] => none
  | e :: rest => some (e, {
      entries := rest
      slack := e ++ UInt8.ofNat e.length :: s.slack
      count := by
        have := s.count
        rw [h, List.length_cons] at this
        omega
      small := fun x hx => s.small x (h ▸ List.mem_cons_of_mem e hx) })

/-- One more entry; `none` if there are too many, or if it is too long. -/
def push (s : Stack) (data : Bytes) : Option Stack :=
  if h : s.entries.length = EVM_STACK_LIMIT ∨ 32 < data.length then none
  else some {
    entries := data :: s.entries
    slack := s.slack.drop (data.length + 1)
    count := by
      have := s.count
      rw [List.length_cons]
      omega
    small := by
      intro x hx
      rcases List.mem_cons.1 hx with rfl | hx
      · omega
      · exact s.small x hx }

/-- The top entry `a` and the entry `b` at the place `i` are exchanged. -/
def swap (s : Stack) (i : Nat) (a b : Bytes) : Stack :=
  if h : a.length ≤ 32 ∧ b.length ≤ 32 then
    { s with
      entries := (s.entries.set i a).set 0 b
      count := by
        rw [List.length_set, List.length_set]
        exact s.count
      small := by
        intro x hx
        rcases List.mem_or_eq_of_mem_set hx with hx | rfl
        · rcases List.mem_or_eq_of_mem_set hx with hx | rfl
          · exact s.small x hx
          · exact h.1
        · exact h.2 }
  else s

end Stack

/-! ## Frames -/

inductive evm_state_t where
  | INIT
  | RUNNING
  | STOPPED
  | REVERTED
  deriving DecidableEq, Repr

structure Properties where
  FRONTIER : Bool := false
  EIP150 : Bool := false
  EIP158 : Bool := false
  CONSTANTINOPL : Bool := false
  ISTANBUL : Bool := false
  NO_FINALIZE : Bool := false
  STATIC : Bool := false
  TXCREATE : Bool := false
  CALL_DEPEND_ON_REFUND : Bool := false
  deriving DecidableEq, Repr

/-- The data that a frame returned, in a buffer of its own. -/
structure Buffer where
  id : Nat
  bytes : Bytes
  deriving DecidableEq, Repr

/-- `len` bytes from `data` on; the buffer may be shorter. Code that a frame returned stays in the buffer `buf`. -/
structure Code where
  data : Bytes := []
  len : Nat := 0
  buf : Option Nat := none
  deriving DecidableEq, Repr

/-- The words of an account by their keys, both with 32 bytes. -/
abbrev Storage := AList fun _ : Bytes => Bytes

instance : DecidableEq Storage := fun a b => decidable_of_iff (a.entries = b.entries) AList.ext_iff.symm

structure account_t where
  balance : Bytes
  nonce : Bytes
  code : Code
  storage : Storage
  deriving DecidableEq

/-- The accounts of a frame by their addresses: each address is in the list once. -/
abbrev Accounts := AList fun _ : Bytes => account_t

instance : DecidableEq Accounts := fun a b => decidable_of_iff (a.entries = b.entries) AList.ext_iff.symm

/-- A log entry; `next` is its place among the entries of the machine. -/
structure logs_t where
  topics : Bytes
  data : Bytes
  address : Bytes
  next : Option Nat
  deriving DecidableEq, Repr

/-- `memory`: the buffer has `bsize` bytes, and `len` is the size the program sees. -/
structure Memory where
  data : Bytes := List.replicate 32 0
  len : Nat := 0
  deriving DecidableEq

structure evm_t where
  stack : Stack := Stack.empty
  memory : Memory := {}
  code : Code := {}
  pos : Nat := 0
  state : evm_state_t := .INIT
  last_returned : Option Buffer := none
  return_data : Option Buffer := none
  properties : Properties := { CONSTANTINOPL := true }
  chain_id : Nat := 1
  address : Bytes
  account : Bytes
  origin : Bytes
  caller : Bytes
  call_value : Bytes := []
  call_data : Bytes := []
  gas_price : Bytes := []
  gas : Nat := 0
  accounts : Accounts := ∅
  logs : Option Nat := none
  refund : Nat := 0
  init_gas : Nat := 0
  deriving DecidableEq

/-- What was executed. -/
inductive Event where
  /-- an opcode, with the frame in front of it and the frames that wait for it -/
  | step (evm : evm_t) (parents : List evm_t)
  /-- a log entry at this place, and what was logged -/
  | log (node : Nat) (topics data address : Bytes)
  /-- a sub call starts -/
  | enter
  /-- a sub call ends: its changes are kept or not, and the address it created -/
  | leave (kept : Bool) (created : Option Bytes)
  /-- the frame with this many frames above it has too little gas for what it has to pay -/
  | unpaid (depth : Nat)
  /-- the gas of a frame is settled at its end -/
  | finish (evm : evm_t) (parents : List evm_t)
  /-- an amount of gas passed below zero -/
  | wrap
  deriving DecidableEq

/-- The running frame, the frames that wait for it (the innermost first), the log entries (`none` for
one that was freed), the number of the next buffer, the buffers that were freed, and the record. -/
structure Vm where
  evm : evm_t
  parents : List evm_t := []
  nodes : List (Option logs_t) := []
  next_buf : Nat := 0
  freed : List Nat := []
  trace : List Event := []
  deriving DecidableEq

/-- A frame at its start with this stack. -/
def Vm.ofStack (stack : Stack) : Vm :=
  { evm := { stack := stack, address := List.replicate 20 0, account := List.replicate 20 0, origin := List.replicate 20 0,
             caller := List.replicate 20 0 } }

abbrev M := Machine Vm Fault Int

def getEvm : M evm_t := do
  let vm ← get
  return vm.evm

def modifyEvm (f : evm_t → evm_t) : M Unit := modify fun vm => { vm with evm := f vm.evm }

/-- A function that returns through a buffer. -/
def checked {α : Type} (x : Checked α) : M α := Machine.ofGuarded x

def record (e : Event) : M Unit := modify fun vm => { vm with trace := vm.trace ++ [e] }

/-- An amount that cannot be paid. -/
def outOfGas {α : Type} : M α := do
  let vm ← get
  record (.unpaid vm.parents.length)
  throw EVM_ERROR_OUT_OF_GAS

def subgas (g : Nat) : M Unit := do
  let evm ← getEvm
  if evm.gas < g then outOfGas else modifyEvm fun evm => { evm with gas := evm.gas - g }

/-- `gas -= g` without a check. -/
def sub_wrap (gas g : Nat) : Nat := (gas + 2 ^ 64 - g % 2 ^ 64) % 2 ^ 64

/-- `x` in the frame that waits for this one. -/
def atParent {α : Type} (x : M α) : M α := do
  let vm ← get
  match vm.parents with
  | [] => Machine.fault .null
  | parent :: rest =>
    set { vm with evm := parent, parents := rest }
    let r ← Machine.attempt x
    modify fun vm' => { vm' with evm := vm.evm, parents := vm'.evm :: vm'.parents }
    Machine.ofExcept r

/-- The buffer of the code is still there. -/
def alive (code : Code) : M Unit := do
  let vm ← get
  match code.buf with
  | some id => if id ∈ vm.freed then Machine.fault (.freed id) else pure ()
  | none => pure ()

/-- `_malloc` and a copy. -/
def new_buffer (bytes : Bytes) : M Buffer := do
  let vm ← get
  set { vm with next_buf := vm.next_buf + 1 }
  return ⟨vm.next_buf, bytes⟩

/-- `_free`, if there is a buffer. -/
def free_buffer (b : Option Buffer) : M Unit :=
  match b with
  | some b => modify fun vm => { vm with freed := b.id :: vm.freed }
  | none => pure ()

/-! ## Pushing and popping -/

/-- `evm_stack_push`; the length is a byte. -/
def evm_stack_push (data : Bytes) : M Unit := do
  let evm ← getEvm
  match evm.stack.push (data.take (data.length % 256)) with
  | none => throw EVM_ERROR_STACK_LIMIT
  | some stack => modifyEvm fun evm => { evm with stack := stack }

def evm_stack_push_int (val : Nat) : M Unit := evm_stack_push (optimize_len (int_to_bytes val))

/-- `evm_stack_push_long`: the bytes from the first zero on. -/
def evm_stack_push_long (val : Nat) : M Unit :=
  let bytes := long_to_bytes val
  match (bytes.take 7).findIdx? (· = 0) with
  | some i => evm_stack_push (bytes.drop i)
  | none => evm_stack_push (bytes.drop 7)

/-- `evm_stack_pop_ref`: the bytes of the entry. The memory from the entry on is the `slack` of the stack. -/
def evm_stack_pop_ref : M Bytes := do
  let evm ← getEvm
  match evm.stack.pop with
  | none => throw EVM_ERROR_EMPTY_STACK
  | some (e, stack) =>
    modifyEvm fun evm => { evm with stack := stack }
    return e

def evm_stack_pop (len : Nat) : M Bytes := do
  let e ← evm_stack_pop_ref
  return if e.length ≤ len then padLeft len e else e.drop (e.length - len)

/-- `evm_stack_pop_byte`; `none` is the result -3, for more than a byte or nothing. -/
def evm_stack_pop_byte : M (Option UInt8) := do
  let e ← evm_stack_pop_ref
  return if e.dropLast.any (· ≠ 0) then none else e.getLast?

def evm_stack_pop_int : M Nat := do
  let e ← evm_stack_pop_ref
  let p := optimize_len e
  return if 4 < p.length ∨ p.length = 4 ∧ p.headD 0 &&& 0xF0 ≠ 0 then MEM_LIMIT else bytes_to_int p

def evm_stack_get_ref (pos : Nat) : M Bytes := do
  let evm ← getEvm
  if evm.stack.entries.length < pos ∨ pos < 1 then throw EVM_ERROR_EMPTY_STACK
  match evm.stack.entries[pos - 1]? with
  | some e => return e
  | none => throw EVM_ERROR_EMPTY_STACK

end In3.Evm
