import In3.Evm.Accounts
/-!
# Calls (`verifier/eth1/evm/call.c`, `gas.c`, `gas.h`)

A call puts a new frame in front of the frame that makes it, runs it, and takes it away again. What
happens between is cut into the parts of `evm_sub_call`: the code and the value are handed over, the
gas is shared, the frame runs, the result is reported, and the gas is settled.
-/
open Lib

namespace In3.Evm

/-- `EVM_CALL_MODE_*`, and 0 for a creation. -/
inductive Mode where
  | CREATE
  | STATIC
  | DELEGATE
  | CALLCODE
  | CALL
  deriving DecidableEq, Repr

/-! ## Gas -/

def init_gas : M Unit :=
  modifyEvm fun evm => { evm with refund := 0, init_gas := if evm.init_gas = 0 then evm.gas else evm.init_gas }

/-- `gas -= g` in the record, if it passes below zero. -/
def note_wrap (gas g : Nat) : M Unit := if gas < g then record .wrap else pure ()

def modifyParent (f : evm_t → evm_t) : M Unit := modify fun vm =>
  { vm with parents := match vm.parents with
    | [] => []
    | parent :: rest => f parent :: rest }

def finalize_and_refund_gas : M Unit := do
  let vm ← get
  record (.finish vm.evm vm.parents)
  let evm := vm.evm
  let gas_used := sub_wrap evm.init_gas evm.gas
  if evm.properties.NO_FINALIZE then return ()
  else match vm.parents with
    | parent :: _ =>
      if evm.refund ≠ 0 then
        note_wrap evm.init_gas evm.gas
        note_wrap parent.gas gas_used
        modifyParent fun parent =>
          { parent with gas := sub_wrap parent.gas gas_used, refund := (parent.refund + evm.refund) % 2 ^ 64 }
        modifyEvm fun evm => { evm with gas := (evm.gas + gas_used) % 2 ^ 64, refund := 0 }
      else modifyEvm fun evm => { evm with gas := (evm.gas + min evm.refund (gas_used / 2)) % 2 ^ 64 }
    | [] => modifyEvm fun evm => { evm with gas := (evm.gas + min evm.refund (gas_used / 2)) % 2 ^ 64 }

/-- `success == 0 || success == EVM_ERROR_SUCCESS_CONSUME_GAS`. -/
def succeeded (success : Except Int Unit) : Bool :=
  match success with
  | .ok () => true
  | .error e => e = EVM_ERROR_SUCCESS_CONSUME_GAS

def finalize_subcall_gas (success : Except Int Unit) : M Unit := do
  let evm ← getEvm
  if succeeded success then
    if evm.state ≠ .REVERTED then copy_state
    modifyParent fun parent => { parent with gas := (parent.gas + evm.gas) % 2 ^ 64 }
    if evm.properties.CALL_DEPEND_ON_REFUND then
      modifyParent fun parent => { parent with gas := sub_wrap parent.gas evm.init_gas }
  else if success = .error EVM_ERROR_BALANCE_TOO_LOW then
    modifyParent fun parent => { parent with gas := (parent.gas + G_CALLSTIPEND) % 2 ^ 64 }

/-! ## The new frame -/

/-- `evm_prepare_evm`. Without an address nothing is fetched: the code comes with the call. -/
def evm_prepare_evm (env : Env) (address : Option Bytes) (account origin caller : Bytes) (mode : Mode) :
    Except Int evm_t := do
  let evm : evm_t :=
    { address := address.getD account, account := if mode = .CALLCODE then address.getD account else account
      origin := origin, caller := caller }
  match address with
  | none => return evm
  | some _ =>
    let size ← env.code_size account 20
    let code ← env.code_copy account 0 0
    return { evm with code := { data := code, len := bytes_to_int size } }

/-- The new frame as it is before the code and the gas are set. -/
def sub_frame (parent : evm_t) (child : evm_t) (value data : Bytes) (mode : Mode) : evm_t :=
  let properties := { parent.properties with CALL_DEPEND_ON_REFUND := false }
  { child with
    properties := if mode = .STATIC then { properties with STATIC := true } else properties
    chain_id := parent.chain_id
    call_data := data
    call_value := value
    account := if mode = .DELEGATE then parent.account else child.account }

/-- The new frame is put in front. -/
def push_frame (child : evm_t) : M Unit := do
  record .enter
  modify fun vm => { vm with evm := child, parents := vm.evm :: vm.parents }

/-- The first part of `UPDATE_SUBCALL_GAS`: the code of the new frame. -/
def set_code (env : Env) (address : Option Bytes) (code_address caller : Bytes) : M Unit := do
  match address with
  | none =>
    modifyEvm fun evm => { evm with properties := { evm.properties with TXCREATE := true } }
    let evm ← getEvm
    evm_create_account env evm.call_data code_address caller
  | some _ =>
    let ac ← atParent (get_account env code_address false)
    match ac with
    | some ac => modifyEvm fun evm => { evm with code := ac.code }
    | none => return ()

/-- The price of a value for the calls that carry one. -/
def c_xfer (value : Bytes) (mode : Mode) : Nat :=
  if ¬ big_is_zero value ∧ (mode = .CALL ∨ mode = .CALLCODE) then G_CALLVALUE else 0

/-- The second part of `UPDATE_SUBCALL_GAS`: the value. -/
def hand_over (env : Env) (value : Bytes) (mode : Mode) : M Unit := do
  if big_is_zero value then return ()
  else if mode = .STATIC then throw EVM_ERROR_UNSUPPORTED_CALL_OPCODE
  else
    modifyEvm fun evm => { evm with gas := if mode = .CALL ∨ mode = .CALLCODE then evm.gas + G_CALLSTIPEND else evm.gas }
    let vm ← get
    match vm.parents with
    | parent :: _ => transfer_value env parent.address vm.evm.address value (c_xfer value mode) false
    | [] => Machine.fault .null

/-- The last part of `UPDATE_SUBCALL_GAS`: at most 63 parts of 64 are handed over. -/
def share_gas (value : Bytes) (gas : Nat) (mode : Mode) (res : Except Int Unit) : M (Except Int Unit) := do
  let vm ← get
  match vm.parents with
  | [] => Machine.fault .null
  | parent :: _ =>
    let max_gas_provided := parent.gas - parent.gas / 64
    let gas := if mode = .CREATE then max_gas_provided else min gas max_gas_provided
    modifyEvm fun evm =>
      { evm with gas := (evm.gas + gas) % 2 ^ 64, init_gas := gas, gas_price := parent.gas_price }
    match res with
    | .error e => return .error e
    | .ok () =>
      if parent.gas < gas then
        if parent.gas + c_xfer value mode < gas then return .error EVM_ERROR_OUT_OF_GAS
        else
          modifyEvm fun evm => { evm with properties := { evm.properties with CALL_DEPEND_ON_REFUND := true } }
          return .ok ()
      else
        modifyParent fun parent => { parent with gas := parent.gas - gas }
        return .ok ()

/-- `UPDATE_SUBCALL_GAS`. -/
def update_subcall_gas (env : Env) (address : Option Bytes) (code_address caller value : Bytes) (gas : Nat) (mode : Mode) :
    M (Except Int Unit) := do
  let res ← Machine.attempt (do
    set_code env address code_address caller
    hand_over env value mode)
  share_gas value gas mode res

/-! ## The end of the call -/

/-- The run of the new frame. A call that waits for a refund fails if it was not enough. -/
def run_child (run : M Unit) (value : Bytes) (mode : Mode) (res : Except Int Unit) : M (Except Int Unit) := do
  let before ← getEvm
  match res with
  | .error e => return .error e
  | .ok () =>
    let success ← Machine.attempt run
    let evm ← getEvm
    if evm.properties.CALL_DEPEND_ON_REFUND ∧ evm.gas < c_xfer value mode then
      modifyEvm fun evm => { evm with gas := before.gas % 2 ^ 32, state := .REVERTED }
      return .error EVM_ERROR_OUT_OF_GAS
    else return success

def push_result (address : Option Bytes) (success : Except Int Unit) : M (Except Int Unit) := do
  let evm ← getEvm
  Machine.attempt (atParent (
    if address = none ∧ success = .ok () then evm_stack_push evm.account
    else evm_stack_push_int (if succeeded success then 1 else 0)))

/-- `update_account_code`, if there is a new account. -/
def update_account_code (address : Option Bytes) (code_address : Bytes) (data : Buffer) : M Unit := do
  match address with
  | some _ => return ()
  | none =>
    let ac ← own_account code_address
    put_account code_address { ac with code := { data := data.bytes, len := data.bytes.length, buf := some data.id } }

/-- The returned data go to the memory of the caller and to its `last_returned`. -/
def return_result (address : Option Bytes) (code_address : Bytes) (out_offset out_len : Nat) (data : Buffer)
    (res : Except Int Unit) : M (Except Int Unit) := do
  let res ← write_result out_offset out_len data res
  update_account_code address code_address data
  match res with
  | .error e => return .error e
  | .ok () =>
    let vm ← get
    free_buffer (vm.parents.head?.bind (·.last_returned))
    modifyParent fun parent => { parent with last_returned := some data }
    modifyEvm fun evm => { evm with return_data := none }
    return .ok ()
where
  write_result (out_offset out_len : Nat) (data : Buffer) (res : Except Int Unit) : M (Except Int Unit) :=
    if out_len ≠ 0 then Machine.attempt (atParent (evm_mem_write out_offset data.bytes out_len)) else return res

def evm_free : M Unit := do
  let vm ← get
  free_buffer vm.evm.last_returned
  free_buffer vm.evm.return_data
  let nodes ← checked (free_logs (vm.nodes.length + 1) vm.evm.logs vm.nodes)
  modify fun vm => { vm with nodes := nodes }

/-- The new frame is taken away. -/
def pop_frame (kept : Bool) (created : Option Bytes) : M Unit := do
  record (.leave kept created)
  evm_free
  let vm ← get
  match vm.parents with
  | [] => Machine.fault .null
  | parent :: rest => set { vm with evm := parent, parents := rest }

/-- The end of `evm_sub_call`, behind the run of the new frame. -/
def end_call (address : Option Bytes) (code_address : Bytes) (out_offset out_len : Nat) (success : Except Int Unit) :
    M Unit := do
  let res ← push_result address success
  let evm ← getEvm
  let res ← hand_back evm res
  finalize_subcall_gas success
  pop_frame (succeeded success ∧ evm.state ≠ .REVERTED)
    (if address = none ∧ succeeded success then some code_address else none)
  Machine.ofExcept res
where
  hand_back (evm : evm_t) (res : Except Int Unit) : M (Except Int Unit) :=
    match evm.return_data with
    | some data =>
      if succeeded success then return_result address code_address out_offset out_len data res else return res
    | none => return res

/-- `evm_sub_call`; `run` is `evm_run`. -/
def evm_sub_call (env : Env) (run : Bytes → M Unit) (address : Option Bytes)
    (code_address value data caller origin : Bytes) (gas : Nat) (mode : Mode) (out_offset out_len : Nat) : M Unit := do
  let parent ← getEvm
  match evm_prepare_evm env address code_address origin caller mode with
  | .error e => throw e
  | .ok child =>
    push_frame (sub_frame parent child value data mode)
    let res ← update_subcall_gas env address code_address caller value gas mode
    let success ← run_child (run code_address) value mode res
    end_call address code_address out_offset out_len success

end In3.Evm
