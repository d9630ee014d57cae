import In3.Evm.Arith
import In3.Evm.Call
import In3.Nano.Rlp
/-!
# Opcodes (`verifier/eth1/evm/opcodes.c`)

The operations beside the arithmetic: memory, code, jumps, accounts, storage, logs and calls.
-/
open Lib

namespace In3.Evm

/-! ## Hashes and the environment -/

def op_sha3 (env : Env) : M Unit := do
  let offset ← evm_stack_pop_int
  let len ← evm_stack_pop_int
  if len = MEM_LIMIT then outOfGas
  else
    let src ← read_source offset len
    subgas ((len + 31) / 32 * G_SHA3WORD)
    -- the part that is not in the buffer is zero
    evm_stack_push (env.keccak.fn (src ++ List.replicate (len - src.length) 0))
where
  read_source (offset len : Nat) : M Bytes := if len = 0 then return [] else evm_mem_read_ref offset len

inductive AccountKey where
  | BALANCE
  | CODE_SIZE
  | BLOCKHASH
  | CODE_HASH
  deriving DecidableEq, Repr

/-- The `n` bytes in memory from the entry on that was popped last. -/
def popped_bytes (n : Nat) : M Bytes := do
  let evm ← getEvm
  checked (Guarded.guard (n ≤ evm.stack.slack.length) (.read evm.stack.slack.length evm.stack.slack.length))
  return evm.stack.slack.take n

/-- The data of `OP_ACCOUNT_GAS` for an account that was found. -/
def account_data (env : Env) (key : AccountKey) (ac : account_t) : M (Option Bytes) := do
  match key with
  | .BALANCE => return some ac.balance
  | .CODE_SIZE => return if ac.code.len = 0 then none else some (int_to_bytes ac.code.len)
  | .CODE_HASH =>
    if ac.code.len = 0 then return none
    else
      alive ac.code
      checked (Guarded.guard (ac.code.len ≤ ac.code.data.length) (.read ac.code.data.length ac.code.data.length))
      return some (env.keccak.fn (ac.code.data.take ac.code.len))
  | .BLOCKHASH => return none

/-- `OP_ACCOUNT_GAS`. -/
def cached_account_data (env : Env) (key : AccountKey) : M (Option Bytes) := do
  if key = .BLOCKHASH then return none
  else
    let address ← popped_bytes 20
    let ac ← get_account env address false
    match ac with
    | some ac => account_data env key ac
    | none => return none

/-- The call of the environment in `op_account`. -/
def env_account_data (env : Env) (key : AccountKey) (e : Bytes) : M Bytes := do
  let evm ← getEvm
  match key with
  | .BLOCKHASH => checked (ofEnv (env.blockhash e))
  | .BALANCE =>
    let address ← popped_bytes 20
    checked (ofEnv (env.balance address))
  | .CODE_SIZE =>
    let address ← popped_bytes 20
    checked (ofEnv (env.code_size address e.length))
  | .CODE_HASH =>
    let address ← popped_bytes 20
    checked (ofEnv (env.code_hash evm.address address e.length))

def op_account (env : Env) (key : AccountKey) : M Unit := do
  let evm ← getEvm
  if ¬ evm.properties.CONSTANTINOPL ∧ key = .CODE_HASH then throw EVM_ERROR_UNSUPPORTED_CALL_OPCODE
  else
    let e ← evm_stack_pop_ref
    let data ← cached_account_data env key
    match data with
    | some data => evm_stack_push (optimize_len data)
    | none =>
      let data ← env_account_data env key e
      evm_stack_push data

def op_header (env : Env) (index : Int) : M Unit := do
  let b ← checked (ofEnv env.blockheader)
  match rlp_decode_in_list b index (some b) with
  | some (1, some field) => evm_stack_push field
  | some (1, none) => Machine.fault (.read b.length b.length)
  | some _ => evm_stack_push_int 0
  | none => Machine.fault (.read b.length b.length)

/-! ## Copies -/

/-- The number of bytes that a source has from `pos` on, at most `len`. -/
def Code.rest (src : Code) (pos len : Nat) : Nat := min (src.len - pos) len

def source_bytes (src : Code) (pos len : Nat) : M Bytes := do
  let len := src.rest pos len
  if len = 0 then return []
  else
    alive src
    checked (Guarded.guard (pos + len ≤ src.data.length) (.read src.data.length src.data.length))
    return (src.data.drop pos).take len

def op_datacopy (src : evm_t → Code) (check_size : Bool) : M Unit := do
  let mem_pos ← evm_stack_pop_int
  let data_pos ← evm_stack_pop_int
  let data_len ← evm_stack_pop_int
  subgas ((data_len + 31) / 32 * G_COPY)
  let evm ← getEvm
  let len := (src evm).rest data_pos data_len
  if check_size ∧ (src evm).len ≤ data_pos then throw EVM_ERROR_ILLEGAL_MEMORY_ACCESS
  else
    fill_zeros mem_pos data_len len
    if len ≠ 0 then evm_mem_copy mem_pos (source_bytes (src evm) data_pos data_len) len else return ()
where
  fill_zeros (mem_pos data_len len : Nat) : M Unit :=
    if len < data_len then evm_mem_write (mem_pos + len) [] (data_len - len) else return ()

/-- `call_data`, `code` and `last_returned` as sources of a copy. -/
def evm_t.call_source (evm : evm_t) : Code := { data := evm.call_data, len := evm.call_data.length }

def evm_t.returned_source (evm : evm_t) : Code :=
  match evm.last_returned with
  | some b => { data := b.bytes, len := b.bytes.length, buf := some b.id }
  | none => {}

def op_extcodecopy (env : Env) : M Unit := do
  let address ← evm_stack_pop 20
  let mem_pos ← evm_stack_pop_int
  let code_pos ← evm_stack_pop_int
  let data_len ← evm_stack_pop_int
  subgas ((data_len + 31) / 32 * G_COPY)
  let ac ← get_account env address false
  match ac.map (·.code) with
  | some code =>
    if code.len ≠ 0 then evm_mem_copy mem_pos (source_bytes code code_pos data_len) data_len
    else evm_mem_write mem_pos (env_code env address code_pos data_len) data_len
  | none => evm_mem_write mem_pos (env_code env address code_pos data_len) data_len
where
  /-- an error of the environment counts as no code -/
  env_code (env : Env) (address : Bytes) (code_pos data_len : Nat) : Bytes :=
    (env.code_copy address code_pos data_len).toOption.getD []

/-! ## The stack and the memory -/

def op_pop : M Unit := do
  let _ ← evm_stack_pop_ref

/-- The place on the stack is reserved before the memory is read; there is one, since the offset was popped. -/
def op_mload : M Unit := do
  let off ← evm_stack_pop_ref
  let data ← evm_mem_read (padLeft 32 off) 32
  evm_stack_push data

def op_mstore (len : Nat) : M Unit := do
  let offset ← evm_stack_pop_int
  let data ← evm_stack_pop_ref
  if len = 32 then evm_mem_write offset (padLeft 32 data) len else evm_mem_write offset data len

def op_push (len : Nat) : M Unit := do
  let evm ← getEvm
  if evm.code.len < evm.pos + len then
    let data ← source_bytes evm.code evm.pos 32
    modifyEvm fun evm => { evm with pos := evm.pos + len }
    evm_stack_push ((data ++ List.replicate 32 0).take len)
  else
    let data ← source_bytes evm.code evm.pos len
    Machine.mapError (fun _ => EVM_ERROR_BUFFER_TOO_SMALL) (evm_stack_push data)
    modifyEvm fun evm => { evm with pos := evm.pos + len }

def op_dup (pos : Nat) : M Unit := do
  let e ← evm_stack_get_ref pos
  evm_stack_push e

/-- The top and the entry at `pos` are exchanged; the entries between them move in the buffer. -/
def op_swap (pos : Nat) : M Unit := do
  let a ← evm_stack_get_ref 1
  let b ← evm_stack_get_ref pos
  modifyEvm fun evm => { evm with stack := evm.stack.swap (pos - 1) a b }

/-! ## Jumps -/

/-- The places of `JUMPDEST` bytes that are data of a push: `invalid_jumpdest`. -/
def invalid_jumpdest : Bytes → Nat → Nat → List Nat
  | [], _, _ => []
  | op :: code, i, jumpl =>
    if 0 < jumpl then
      if op = 0x5B then i :: invalid_jumpdest code (i + 1) (jumpl - 1) else invalid_jumpdest code (i + 1) (jumpl - 1)
    else if 0x60 ≤ op ∧ op ≤ 0x7F then invalid_jumpdest code (i + 1) (op.toNat - 0x5F)
    else invalid_jumpdest code (i + 1) 0

/-- The part of `op_jump` behind the condition. -/
def jump_to (pos : Nat) : M Unit := do
  let evm ← getEvm
  if evm.code.len < pos then throw EVM_ERROR_INVALID_JUMPDEST
  else
    alive evm.code
    let op ← checked (rd evm.code.data pos)
    checked (Guarded.guard (evm.code.len ≤ evm.code.data.length) (.read evm.code.data.length evm.code.data.length))
    if op ≠ 0x5B then throw EVM_ERROR_INVALID_JUMPDEST
    else if pos ∈ invalid_jumpdest (evm.code.data.take evm.code.len) 0 0 then throw EVM_ERROR_INVALID_JUMPDEST
    else modifyEvm fun evm => { evm with pos := pos }

def op_jump (cond : Bool) : M Unit := do
  let pos ← evm_stack_pop_int
  if cond then
    let c ← evm_stack_pop_byte
    -- a condition of more than a byte is true
    if c = some 0 then return () else jump_to pos
  else jump_to pos

def op_return (revert : Bool) : M Unit := do
  let offset ← evm_stack_pop_int
  let len ← evm_stack_pop_int
  let evm ← getEvm
  free_buffer evm.return_data
  let data ← evm_mem_readi offset len
  let buffer ← new_buffer data
  modifyEvm fun evm =>
    { evm with return_data := some buffer, state := if revert then .REVERTED else .STOPPED }

/-! ## Storage -/

def op_sload (env : Env) : M Unit := do
  let key ← evm_stack_pop_ref
  let evm ← getEvm
  let s ← get_storage env evm.account key false
  match s with
  | some value => evm_stack_push (optimize_len value)
  | none =>
    let value ← checked (ofEnv (env.storage evm.address (beNat key)))
    evm_stack_push value

def add_refund (r : Nat) : M Unit := modifyEvm fun evm => { evm with refund := (evm.refund + r) % 2 ^ 64 }

/-- `evm->gas -= GAS_CC_NET_SSTORE_CLEAR_REFUND`: this one is not checked. -/
def take_back_refund : M Unit := do
  let evm ← getEvm
  note_wrap evm.gas GAS_CC_NET_SSTORE_CLEAR_REFUND
  modifyEvm fun evm => { evm with gas := sub_wrap evm.gas GAS_CC_NET_SSTORE_CLEAR_REFUND }

/-- The net metering of `op_sstore`. -/
def sstore_net_gas (original current value : Bytes) (l_current : Nat) : M Unit := do
  if big_cmp value current = 0 then subgas GAS_CC_NET_SSTORE_NOOP_GAS
  else if big_cmp original current = 0 then
    if original = [] then subgas GAS_CC_NET_SSTORE_INIT_GAS
    if value.all (· = 0) then add_refund GAS_CC_NET_SSTORE_CLEAR_REFUND
    subgas GAS_CC_NET_SSTORE_CLEAN_GAS
  else
    if original ≠ [] then
      if l_current = 0 then take_back_refund else add_refund GAS_CC_NET_SSTORE_CLEAR_REFUND
    if big_cmp original value = 0 then
      add_refund (if original = [] then GAS_CC_NET_SSTORE_RESET_CLEAR_REFUND else GAS_CC_NET_SSTORE_RESET_REFUND)
    subgas GAS_CC_NET_SSTORE_DIRTY_GAS

/-- The metering before Constantinople. -/
def sstore_old_gas (value : Bytes) (created : Bool) : M Unit := do
  let zero := value.all (· = 0)
  if zero ∧ ¬ created then
    subgas G_SRESET
    add_refund R_SCLEAR
  else if ¬ zero ∧ created then subgas G_SSET
  else subgas G_SRESET

/-- The word that is overwritten, and `l_current`. A word that is not there is created. -/
def current_word (env : Env) (key : Bytes) : M (Bytes × Nat) := do
  let evm ← getEvm
  let s ← get_storage env evm.account key false
  match s with
  | some value => return (value, (value.dropWhile (· = 0)).length)
  | none =>
    let s ← get_storage env evm.account key true
    match s with
    | some value => return (value, 0)
    | none => Machine.fault .null

/-- `uint256_set(value, l_val, s->value)`. -/
def set_word (key value : Bytes) : M Unit := do
  let evm ← getEvm
  let ac ← own_account evm.account
  put_account evm.account { ac with storage := ac.storage.insert (padLeft 32 key) (padLeft 32 value) }

def op_sstore (env : Env) : M Unit := do
  let key ← evm_stack_pop_ref
  let value ← evm_stack_pop_ref
  let (current, l_current) ← current_word env key
  let evm ← getEvm
  if evm.properties.CONSTANTINOPL then
    sstore_net_gas ((env.storage evm.address (beNat key)).toOption.getD []) current value l_current
  else sstore_old_gas value (l_current = 0)
  set_word key value

/-! ## Logs -/

/-- The loop over the topics, each one a word. -/
def pop_topics : Nat → M Unit
  | 0 => return ()
  | len + 1 => do
    let _ ← evm_stack_pop_ref
    pop_topics len

/-- The price of a log is an `int`. -/
def log_cost (len memlen : Nat) : Checked Nat := do
  Guarded.guard (len * G_LOGTOPIC + memlen * G_LOGDATA < 2 ^ 31) .overflow
  return len * G_LOGTOPIC + memlen * G_LOGDATA

/-- `while (parent->parent) parent = parent->parent`. -/
def Vm.root (vm : Vm) : evm_t := vm.parents.getLast?.getD vm.evm

/-- The new entry is linked to the logs of the outermost frame and becomes the first one of this frame. -/
def add_log (topics data : Bytes) : M Unit := do
  let vm ← get
  let node := vm.nodes.length
  record (.log node topics data vm.evm.address)
  modify fun vm =>
    { vm with
      nodes := vm.nodes ++ [some { topics := topics, data := data, address := vm.evm.address, next := vm.root.logs }]
      evm := { vm.evm with logs := some node } }

def op_log (len : Nat) : M Unit := do
  let memoffset ← evm_stack_pop_int
  let memlen ← evm_stack_pop_int
  let cost ← checked (log_cost len memlen)
  subgas cost
  let data ← evm_mem_readi memoffset memlen
  let evm ← getEvm
  -- the entry is linked before its topics are popped
  add_log ((evm.stack.entries.take len).flatMap (padLeft 32 ·)) data
  pop_topics len

/-! ## Calls -/

/-- `CALL_CALL` to `CALL_STATIC`. -/
inductive CALL where
  | CALL
  | CODE
  | DELEGATE
  | STATIC
  deriving DecidableEq, Repr

def pop_value (mode : CALL) : M Bytes :=
  if mode = .CALL ∨ mode = .CODE then evm_stack_pop_ref else return []

/-- The two checks of the memory; every failure has one code. -/
def check_ranges (in_offset in_len out_offset out_len : Nat) : M Unit :=
  Machine.mapError (fun _ => EVM_ERROR_ILLEGAL_MEMORY_ACCESS) (do
    check_range out_offset out_len true
    check_range in_offset in_len false)
where
  check_range (offset len : Nat) (read_only : Bool) : M Unit :=
    if len = 0 then return () else mem_check (offset + len) read_only

def op_call (env : Env) (run : Bytes → M Unit) (mode : CALL) : M Unit := do
  let gas_limit ← evm_stack_pop_ref
  let address ← evm_stack_pop 20
  let value ← pop_value mode
  let in_offset ← evm_stack_pop_int
  let in_len ← evm_stack_pop_int
  let out_offset ← evm_stack_pop_int
  let out_len ← evm_stack_pop_int
  let gas := bytes_to_long gas_limit
  check_ranges in_offset in_len out_offset out_len
  let evm ← getEvm
  let data := (evm.memory.data.drop in_offset).take in_len
  match mode with
  | .CALL => evm_sub_call env run (some address) address value data evm.address evm.origin gas .CALL out_offset out_len
  | .CODE => evm_sub_call env run (some evm.address) address value data evm.address evm.origin gas .CALLCODE out_offset out_len
  | .DELEGATE =>
    evm_sub_call env run (some evm.address) address evm.call_value data evm.caller evm.origin gas .DELEGATE out_offset out_len
  | .STATIC => evm_sub_call env run (some address) address [0] data evm.address evm.origin gas .STATIC out_offset out_len

/-- The address of a new contract. -/
def create_address (env : Env) (in_data : Bytes) (use_salt : Bool) : M Bytes := do
  if use_salt then
    let evm ← getEvm
    if ¬ evm.properties.CONSTANTINOPL then throw EVM_ERROR_INVALID_OPCODE
    else
      let salt ← evm_stack_pop 32
      return (env.keccak.fn (0xFF :: evm.address ++ salt ++ env.keccak.fn in_data)).drop 12
  else
    let evm ← getEvm
    let _ ← get_account env evm.address true
    let ac ← own_account evm.address
    let nonce := if big_is_zero ac.nonce then [] else optimize_len ac.nonce
    return (env.keccak.fn (rlp_encode_to_list (rlp_encode_item evm.address ++ rlp_encode_item nonce))).drop 12

def op_create (env : Env) (run : Bytes → M Unit) (use_salt : Bool) : M Unit := do
  let value ← evm_stack_pop_ref
  let in_offset ← evm_stack_pop_int
  let in_len ← evm_stack_pop_int
  mem_check (in_offset + in_len) true
  let in_data ← evm_mem_read_ref in_offset in_len
  let address ← create_address env in_data use_salt
  let evm ← getEvm
  let _ ← get_account env evm.address false
  let ac ← own_account evm.address
  let res ← Machine.attempt (evm_sub_call env run none address value in_data evm.address evm.origin 0 .CREATE 0 0)
  -- the nonce is incremented in any case
  let ac' ← own_account evm.address
  if ac.nonce.getD 31 0 = ac'.nonce.getD 31 0 then increment_nonce evm.address
  Machine.ofExcept res

/-- The balance of the account goes to the heir. -/
def pass_on (env : Env) (adr : Bytes) : M Unit := do
  let evm ← getEvm
  let self_account ← own_account evm.address
  if has_value (optimize_len self_account.balance) then
    let tmp ← get_account env adr false
    new_heir env adr tmp
    transfer_value env evm.address adr self_account.balance 0 false
  else return ()
where
  new_heir (env : Env) (adr : Bytes) (tmp : Option account_t) : M Unit := do
    match tmp with
    | some _ => return ()
    | none =>
      let evm ← getEvm
      if ¬ evm.properties.NO_FINALIZE then subgas G_NEWACCOUNT
      let _ ← get_account env adr true

def op_selfdestruct (env : Env) : M Unit := do
  let adr ← evm_stack_pop 20
  let evm ← getEvm
  let _ ← get_account env evm.address true
  add_refund R_SELFDESTRUCT
  pass_on env adr
  let ac ← own_account evm.address
  put_account evm.address
    { balance := List.replicate 32 0, nonce := List.replicate 32 0, code := { ac.code with len := 0 }, storage := ∅ }
  modifyEvm fun evm => { evm with state := .STOPPED }

end In3.Evm
