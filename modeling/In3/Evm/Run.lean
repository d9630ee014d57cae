import In3.Evm.Opcodes
import In3.Nano.Blockheader
/-!
# Running code (`verifier/eth1/evm/evm.c`, `call.c`)

`evm_execute` runs one opcode, `evm_run` a frame and `evm_call` a call from outside. A frame runs the
frames of its sub calls, so that `evm_run` has a bound on their depth; the opcodes of one frame are
bounded by the source itself.
-/
open Lib

namespace In3.Evm

def BLOCKHEADER_MINER : Int := 2
def BLOCKHEADER_DIFFICULTY : Int := 7
def BLOCKHEADER_GAS_LIMIT : Int := 9
def BLOCKHEADER_TIMESTAMP : Int := 11

/-- `op_exec`: the price is paid first. -/
def op_exec (m : M Unit) (gc : Nat) : M Unit := do
  subgas gc
  m

/-! ## The `switch` of `evm_execute` -/

/-- Arithmetic, comparisons and bits. -/
def math_op (n : Nat) : M Unit :=
  match n with
  | 0x01 => op_exec (op_math .ADD false) G_VERY_LOW
  | 0x02 => op_exec (op_math .MUL false) G_LOW
  | 0x03 => op_exec (op_math .SUB false) G_VERY_LOW
  | 0x04 => op_exec (op_math .DIV false) G_LOW
  | 0x05 => op_exec (op_math .SDIV false) G_LOW
  | 0x06 => op_exec (op_math .MOD false) G_LOW
  | 0x07 => op_exec (op_math .SMOD false) G_LOW
  | 0x08 => op_exec (op_math .ADD true) G_MID
  | 0x09 => op_exec (op_math .MUL true) G_MID
  | 0x0A => op_exec (op_math .EXP false) G_EXP
  | 0x0B => op_exec op_signextend G_LOW
  | 0x10 => op_exec (op_cmp .lt false) G_VERY_LOW
  | 0x11 => op_exec (op_cmp .gt false) G_VERY_LOW
  | 0x12 => op_exec (op_cmp .lt true) G_VERY_LOW
  | 0x13 => op_exec (op_cmp .gt true) G_VERY_LOW
  | 0x14 => op_exec (op_cmp .eq false) G_VERY_LOW
  | 0x15 => op_exec op_is_zero G_VERY_LOW
  | 0x16 => op_exec (op_bit .AND) G_VERY_LOW
  | 0x17 => op_exec (op_bit .OR) G_VERY_LOW
  | 0x18 => op_exec (op_bit .XOR) G_VERY_LOW
  | 0x19 => op_exec op_not G_VERY_LOW
  | 0x1A => op_exec op_byte G_VERY_LOW
  | 0x1B => op_exec (op_shift .SHL) G_VERY_LOW
  | 0x1C => op_exec (op_shift .SHR) G_VERY_LOW
  | 0x1D => op_exec (op_shift .SAR) G_VERY_LOW
  | _ => throw EVM_ERROR_INVALID_OPCODE

/-- What the frame, the accounts and the block are. -/
def info_op (env : Env) (n : Nat) (evm : evm_t) : M Unit :=
  match n with
  | 0x20 => op_exec (op_sha3 env) G_SHA3
  | 0x30 => op_exec (evm_stack_push evm.address) G_BASE
  | 0x31 => op_exec (op_account env .BALANCE) G_BALANCE
  | 0x32 => op_exec (evm_stack_push evm.origin) G_BASE
  | 0x33 => op_exec (evm_stack_push evm.caller) G_BASE
  | 0x34 => op_exec (evm_stack_push evm.call_value) G_BASE
  | 0x35 => op_exec op_dataload G_VERY_LOW
  | 0x36 => op_exec (evm_stack_push_int evm.call_data.length) G_BASE
  | 0x37 => op_exec (op_datacopy (·.call_source) false) G_VERY_LOW
  | 0x38 => op_exec (evm_stack_push_int evm.code.len) G_BASE
  | 0x39 => op_exec (op_datacopy (·.code) false) G_VERY_LOW
  | 0x3A => op_exec (evm_stack_push evm.gas_price) G_BASE
  | 0x3B => op_exec (op_account env .CODE_SIZE) G_EXTCODE
  | 0x3C => op_exec (op_extcodecopy env) G_EXTCODE
  | 0x3D => op_exec (evm_stack_push_int evm.returned_source.len) G_BASE
  | 0x3E => op_exec (op_datacopy (·.returned_source) true) G_VERY_LOW
  | 0x3F => op_exec (op_account env .CODE_HASH) G_BALANCE
  | 0x40 => op_exec (op_account env .BLOCKHASH) G_BLOCKHASH
  | 0x41 => op_exec (op_header env BLOCKHEADER_MINER) G_BASE
  | 0x42 => op_exec (op_header env BLOCKHEADER_TIMESTAMP) G_BASE
  | 0x43 => op_exec (op_header env BLOCKHEADER_NUMBER) G_BASE
  | 0x44 => op_exec (op_header env BLOCKHEADER_DIFFICULTY) G_BASE
  | 0x45 => op_exec (op_header env BLOCKHEADER_GAS_LIMIT) G_BASE
  | 0x46 => op_exec (push_chain_id evm) G_BASE
  | _ => throw EVM_ERROR_INVALID_OPCODE
where
  push_chain_id (evm : evm_t) : M Unit :=
    if evm.properties.ISTANBUL then evm_stack_push_long evm.chain_id else throw EVM_ERROR_INVALID_OPCODE

/-- The stack, the memory, the position and the storage. -/
def memory_op (env : Env) (n : Nat) (evm : evm_t) : M Unit :=
  match n with
  | 0x50 => op_exec op_pop G_BASE
  | 0x51 => op_exec op_mload G_VERY_LOW
  | 0x52 => op_exec (op_mstore 32) G_VERY_LOW
  | 0x53 => op_exec (op_mstore 1) G_VERY_LOW
  | 0x54 => op_exec (op_sload env) (if evm.properties.FRONTIER then FRONTIER_G_SLOAD else G_SLOAD)
  | 0x55 => op_sstore env
  | 0x56 => op_exec (op_jump false) G_MID
  | 0x57 => op_exec (op_jump true) G_HIGH
  | 0x58 => op_exec (evm_stack_push_int (evm.pos - 1)) G_BASE
  | 0x59 => op_exec (evm_stack_push_int evm.memory.len) G_BASE
  | 0x5A => op_exec push_gas G_BASE
  | 0x5B => op_exec (return ()) G_JUMPDEST
  | _ => throw EVM_ERROR_INVALID_OPCODE
where
  /-- the gas that is left behind the price of the opcode -/
  push_gas : M Unit := do
    let evm ← getEvm
    evm_stack_push_long evm.gas

/-- Calls, and the ends of a frame. -/
def system_op (env : Env) (run : Bytes → M Unit) (n : Nat) (evm : evm_t) : M Unit :=
  match n with
  | 0xF0 => op_exec (op_create env run false) G_CREATE
  | 0xF1 => op_exec (op_call env run .CALL) G_CALL
  | 0xF2 => op_exec (op_call env run .CODE) G_CALL
  | 0xF3 => op_return false
  | 0xF4 => op_exec (op_call env run .DELEGATE) G_CALL
  | 0xF5 => op_exec (op_create env run true) G_CREATE
  | 0xFA => op_exec (op_call env run .STATIC) G_CALL
  | 0xFD => op_return true
  | 0xFF => op_exec (op_selfdestruct env) (if evm.properties.FRONTIER then 0 else G_SELFDESTRUCT)
  | _ => throw EVM_ERROR_INVALID_OPCODE

/-- The operation that `evm_execute` runs for an opcode. -/
def run_op (env : Env) (run : Bytes → M Unit) (op : UInt8) (evm : evm_t) : M Unit :=
  let n := op.toNat
  if n = 0x00 then modifyEvm fun evm => { evm with state := .STOPPED }
  else if n < 0x20 then math_op n
  else if n < 0x50 then info_op env n evm
  else if n < 0x60 then memory_op env n evm
  else if n < 0x80 then op_exec (op_push (n - 0x5F)) G_VERY_LOW
  else if n < 0x90 then op_exec (op_dup (n - 0x7F)) G_VERY_LOW
  else if n < 0xA0 then op_exec (op_swap (n - 0x8E)) G_VERY_LOW
  else if n < 0xA5 then op_exec (op_log (n - 0xA0)) G_LOG
  else system_op env run n evm

/-- `evm_execute`; `run` is `evm_run`. -/
def evm_execute (env : Env) (run : Bytes → M Unit) : M Unit := do
  let vm ← get
  record (.step vm.evm vm.parents)
  alive vm.evm.code
  let op ← checked (rd vm.evm.code.data vm.evm.pos)
  modifyEvm fun evm => { evm with pos := evm.pos + 1 }
  let evm ← getEvm
  run_op env run op evm

def opcode_loop (execute : M Unit) : Nat → M Unit
  | 0 => return ()
  | timeout + 1 => do
    let evm ← getEvm
    if evm.state = .RUNNING ∧ evm.pos < evm.code.len then
      let res ← Machine.attempt execute
      if timeout = 0 then throw EVM_ERROR_TIMEOUT
      else
        Machine.ofExcept res
        opcode_loop execute timeout
    else return ()

def evm_is_precompiled (address : Bytes) : Bool :=
  match optimize_len address with
  | [x] => x ≠ 0 ∧ x < 10
  | _ => false

def evm_run_precompiled (env : Env) (address : Bytes) : M Unit := do
  let evm ← getEvm
  match env.precompiled (address.getD 19 0) evm.call_data with
  | none => throw (-1)
  | some (cost, res) =>
    subgas cost
    let data ← checked (ofEnv res)
    match data with
    | none => return ()
    | some data =>
      let buffer ← new_buffer data
      modifyEvm fun evm => { evm with return_data := some buffer }

def evm_t.returned_code (evm : evm_t) : Code :=
  match evm.return_data with
  | some data => { data := data.bytes, len := data.bytes.length, buf := some data.id }
  | none => {}

/-- The end of a creation: the returned data are the code of the account. -/
def deposit_code (env : Env) : M Unit := do
  let evm ← getEvm
  let len := evm.returned_code.len
  if ¬ (evm.properties.FRONTIER ∨ evm.properties.EIP150 ∨ evm.properties.EIP158) ∧ EVM_MAX_CODE_SIZE < len then
    throw EVM_ERROR_MAX_CODE_SIZE_EXCEEDED
  else
    subgas (len * G_CODEDEPOSIT % 2 ^ 32)
    let _ ← get_account env evm.account true
    let ac ← own_account evm.account
    put_account evm.account { ac with code := evm.returned_code }

/-- `evm_run`; `depth` bounds the depth of the sub calls. -/
def evm_run (env : Env) : Nat → Bytes → M Unit
  | 0, _ => Machine.fault .fuel
  | depth + 1, code_address => do
    init_gas
    if evm_is_precompiled code_address then evm_run_precompiled env code_address
    else
      modifyEvm fun evm => { evm with state := .RUNNING }
      opcode_loop (evm_execute env (evm_run env depth)) (0xFFFFFFFF + 1)
      let evm ← getEvm
      if evm.properties.TXCREATE ∧ evm.state = .STOPPED then deposit_code env
      finalize_and_refund_gas

/-! ## Calls from outside -/

/-- The first frame of `evm_call`. -/
def call_frame (env : Env) (address caller : Bytes) (chain_id : Nat) : Except Int evm_t := do
  let evm ← evm_prepare_evm env (some address) address caller caller .CREATE
  return { evm with chain_id := chain_id }

/-- `evm_call` behind `evm_prepare_evm`: the result is what was returned. -/
def call_body (env : Env) (depth : Nat) (address value data caller : Bytes) (gas : Nat) : M (Option Bytes) := do
  if 1 < (optimize_len caller).length then transfer_value env caller address value 0 true
  modifyEvm fun evm => { evm with gas := gas, call_value := value, call_data := data }
  evm_run env depth address
  let evm ← getEvm
  return evm.return_data.map (·.bytes)

def evm_call (env : Env) (depth : Nat) (address value data caller : Bytes) (gas chain_id : Nat) :
    Except Fault (Except Int (Option Bytes) × Option Vm) :=
  match call_frame env address caller chain_id with
  | .error e => .ok (.error e, none)
  | .ok evm => do
    let (res, vm) ← ((call_body env depth address value data caller gas).run.run { evm := evm })
    return (res, some vm)

end In3.Evm
