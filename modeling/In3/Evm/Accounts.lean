import In3.Evm.Memory
import In3.Lib.Hash
/-!
# Accounts and logs (`verifier/eth1/evm/accounts.c`)

A frame has its own accounts. An account that it does not have is taken from the frame that waits
for it, or from the environment, and copied; a storage word likewise. These functions work on the
frames, the running one first. When a frame ends well, its accounts and its logs go to the next one
(`copy_state`).
-/
open Lib

namespace In3.Evm

/-! ## The environment -/

/-- What `in3_get_env` answers; an error is a negative length. -/
structure Env where
  balance : Bytes → Except Int Bytes
  nonce : Bytes → Except Int Bytes
  /-- for an address that is given with this length -/
  code_size : Bytes → Nat → Except Int Bytes
  /-- the code of an address from `offset` on -/
  code_copy (address : Bytes) (offset len : Nat) : Except Int Bytes
  code_hash (self address : Bytes) (in_len : Nat) : Except Int Bytes
  blockhash : Bytes → Except Int Bytes
  blockheader : Except Int Bytes
  /-- a storage word of the account `self`; the key is compared as a number -/
  storage (self : Bytes) (key : Nat) : Except Int Bytes
  keccak : Hash
  /-- a precompiled contract: its price, and then its result; `none` if it fails before -/
  precompiled : UInt8 → Bytes → Option (Nat × Except Int (Option Bytes))

/-- An account of the proof: its address, and the key and the value of each of its storage proofs. -/
structure ProofAccount where
  address : Bytes
  storageProof : Option (List (Option Bytes × Option Bytes))

/-- The loop of `in3_get_env` over the storage proofs. -/
def find_storage (in_data : Bytes) : List (Option Bytes × Option Bytes) → Except Int Bytes
  | [] => .error EVM_ERROR_INVALID_ENV
  | (none, _) :: _ => .error EVM_ERROR_INVALID_ENV
  | (some k, value) :: proofs =>
    if big_cmp in_data k = 0 then
      match value with
      | some v => .ok v
      | none => .error EVM_ERROR_INVALID_ENV
    else find_storage in_data proofs

/-- `in3_get_env` for `EVM_ENV_STORAGE`. -/
def in3_get_env_storage (accounts : List ProofAccount) (self in_data : Bytes) : Except Int Bytes :=
  match accounts.find? (·.address = self) with
  | some ⟨_, some proofs⟩ => find_storage in_data proofs
  | _ => .error EVM_ERROR_INVALID_ENV

def ofEnv {α : Type} (r : Except Int α) : Checked α := ExceptT.mk (.ok r)

/-- `l > 1 || (l == 1 && *data)`. -/
def has_value (data : Bytes) : Bool := 1 < data.length ∨ data.length = 1 ∧ data.headD 0 ≠ 0

/-- `uint256_set`: what `dst` is set to. -/
def uint256_set (src : Bytes) : Checked Bytes := do
  Guarded.guard (src.length ≤ 32) (.write (32 - src.length) 32)
  return padLeft 32 src

/-! ## Accounts -/

/-- The end of `evm_get_account`: the account of the environment, unless it is empty and not to be created. -/
def env_account (env : Env) (adr : Bytes) (create : Bool) : Checked (Option account_t) := do
  let balance := optimize_len (← ofEnv (env.balance adr))
  let code_size := optimize_len (← ofEnv (env.code_size adr 20))
  let nonce := optimize_len (← ofEnv (env.nonce adr))
  if create ∨ has_value balance ∨ has_value nonce ∨ has_value code_size then
    let len := bytes_to_int code_size
    let data := if len = 0 then [] else (env.code_copy adr 0 0).toOption.getD []
    let balance ← uint256_set balance
    let nonce ← uint256_set nonce
    return some { balance := balance, nonce := nonce, code := { data := data, len := len }, storage := ∅ }
  else return none

def evm_t.put (evm : evm_t) (adr : Bytes) (ac : account_t) : evm_t := { evm with accounts := evm.accounts.insert adr ac }

/-- `evm_get_account` in the first frame. -/
def evm_get_account (env : Env) (adr : Bytes) (create : Bool) : List evm_t → Checked (Option account_t × List evm_t)
  | [] => return (none, [])
  | evm :: parents =>
    match evm.accounts.lookup adr with
    | some ac => return (some ac, evm :: parents)
    | none => do
      let (found, parents) ← evm_get_account env adr create parents
      match found with
      | some ac =>
        -- a clone without the storage
        let ac := { ac with storage := ∅ }
        return (some ac, evm.put adr ac :: parents)
      | none =>
        let ac ← env_account env adr create
        match ac with
        | some ac => return (some ac, evm.put adr ac :: parents)
        | none => return (none, evm :: parents)

/-- The end of `evm_get_storage`: the word of the environment. -/
def env_storage (env : Env) (self adr s_key : Bytes) (create : Bool) : Checked (Option Bytes) :=
  match (if ¬ create ∧ self ≠ adr then .ok [] else env.storage self (beNat s_key)) with
  | .ok data => do
    if create ∨ has_value data then
      let value ← uint256_set data
      return some value
    else return none
  | .error l => if create then Guarded.fault (.write (32 - l % 256) 32) else return none

/-- `evm_get_storage` in the first of `n` frames. -/
def evm_get_storage (env : Env) (adr s_key : Bytes) (create : Bool) : Nat → List evm_t → Checked (Option Bytes × List evm_t)
  | 0, frames => return (none, frames)
  | n + 1, frames => do
    let (ac, frames) ← evm_get_account env adr create frames
    match ac, frames with
    | some ac, evm :: parents =>
      match ac.storage.lookup (padLeft 32 s_key) with
      | some value => return (some value, evm :: parents)
      | none =>
        let (found, parents) ← evm_get_storage env adr s_key create n parents
        match found with
        | some value =>
          return (some value, evm.put adr { ac with storage := ac.storage.insert (padLeft 32 s_key) value } :: parents)
        | none =>
          let value ← env_storage env evm.address adr s_key create
          match value with
          | some value =>
            return (some value, evm.put adr { ac with storage := ac.storage.insert (padLeft 32 s_key) value } :: parents)
          | none => return (none, evm :: parents)
    | _, frames => return (none, frames)

/-! ## In the machine -/

def withFrames {α : Type} (f : List evm_t → Checked (α × List evm_t)) : M α := do
  let vm ← get
  let (a, frames) ← checked (f (vm.evm :: vm.parents))
  match frames with
  | evm :: parents =>
    set { vm with evm := evm, parents := parents }
    return a
  | [] => Machine.fault .null

def get_account (env : Env) (adr : Bytes) (create : Bool) : M (Option account_t) :=
  withFrames (evm_get_account env adr create)

def get_storage (env : Env) (adr s_key : Bytes) (create : Bool) : M (Option Bytes) := do
  let vm ← get
  withFrames (evm_get_storage env adr s_key create (vm.parents.length + 1))

/-- An account that is in the running frame. -/
def own_account (adr : Bytes) : M account_t := do
  let evm ← getEvm
  match evm.accounts.lookup adr with
  | some ac => return ac
  | none => Machine.fault .null

def put_account (adr : Bytes) (ac : account_t) : M Unit := modifyEvm fun evm => evm.put adr ac

def increment_nonce (adr : Bytes) : M Unit := do
  let ac ← own_account adr
  let nonce ← checked (big_add ac.nonce [1] 32 32)
  let nonce ← checked (uint256_set nonce)
  put_account adr { ac with nonce := nonce }

def evm_create_account (env : Env) (data code_address caller : Bytes) : M Unit := do
  let _ ← get_account env code_address true
  modifyEvm fun evm =>
    { evm with code := { data := data, len := data.length }, call_data := [], address := code_address }
  let ac ← own_account code_address
  put_account code_address { ac with nonce := ac.nonce.set 31 1 }
  let _ ← get_account env caller true
  increment_nonce caller

/-- The gas is taken from the waiting frame, if there is one. -/
def pay (g : Nat) : M Unit := do
  let vm ← get
  if vm.parents = [] then subgas g else atParent (subgas g)

/-- A receiver that does not exist is created. -/
def new_receiver (env : Env) (to_account : Bytes) (ac_to : Option account_t) : M Unit := do
  match ac_to with
  | some _ => return ()
  | none =>
    pay G_NEWACCOUNT
    let _ ← get_account env to_account true

def transfer_value (env : Env) (from_account to_account value : Bytes) (base_gas : Nat) (is_call : Bool) : M Unit := do
  if big_is_zero value then return ()
  else
    let _ ← get_account env from_account true
    let ac_to ← get_account env to_account false
    checked (Guarded.guard (value.length ≤ 32) (.write value.length 32))
    new_receiver env to_account ac_to
    pay base_gas
    let ac_from ← own_account from_account
    if big_cmp ac_from.balance value < 0 then if is_call then return () else throw EVM_ERROR_BALANCE_TOO_LOW
    else
      let balance ← checked (big_sub ac_from.balance value 32)
      let balance ← checked (uint256_set balance)
      put_account from_account { ac_from with balance := balance }
      let ac_to ← own_account to_account
      let balance ← checked (big_add ac_to.balance value 32 32)
      let balance ← checked (uint256_set balance)
      put_account to_account { ac_to with balance := balance }

/-! ## Logs -/

def log_at (nodes : List (Option logs_t)) (i : Nat) : Checked logs_t :=
  match nodes[i]? with
  | some (some log) => pure log
  | _ => Guarded.fault (.freed i)

/-- `while (last->next) last = last->next`. -/
def last_log (nodes : List (Option logs_t)) : Nat → Nat → Checked Nat
  | 0, _ => Guarded.fault .fuel
  | rounds + 1, i => do
    let log ← log_at nodes i
    match log.next with
    | some next => last_log nodes rounds next
    | none => return i

def copy_logs (dst src : Option Nat) (nodes : List (Option logs_t)) : Checked (Option Nat × List (Option logs_t)) :=
  match src with
  | none => return (dst, nodes)
  | some first => do
    let last ← last_log nodes (nodes.length + 1) first
    let log ← log_at nodes last
    return (some first, nodes.set last (some { log with next := dst }))

/-- The loop of `evm_free` over the logs. -/
def free_logs : Nat → Option Nat → List (Option logs_t) → Checked (List (Option logs_t))
  | _, none, nodes => return nodes
  | 0, some _, _ => Guarded.fault .fuel
  | rounds + 1, some i, nodes => do
    let log ← log_at nodes i
    free_logs rounds log.next (nodes.set i none)

/-! ## The end of a frame -/

/-- An account of `src` that `dst` may have. -/
def copy_account (da : Option account_t) (sa : account_t) : account_t :=
  match da with
  | none => sa
  | some da =>
    { balance := sa.balance, nonce := sa.nonce, code := sa.code
      storage := sa.storage.foldl (fun storage key value => storage.insert key value) da.storage }

/-- The loop of `copy_state` over the accounts of `src`. -/
def copy_accounts : List (Sigma fun _ : Bytes => account_t) → Accounts → Accounts
  | [], dst => dst
  | ⟨adr, sa⟩ :: src, dst => copy_accounts src (dst.insert adr (copy_account (dst.lookup adr) sa))

def copy_state : M Unit := do
  let vm ← get
  match vm.parents with
  | [] => Machine.fault .null
  | dst :: rest =>
    let (logs, nodes) ← checked (copy_logs dst.logs vm.evm.logs vm.nodes)
    set { vm with
      nodes := nodes
      evm := { vm.evm with logs := none }
      parents := { dst with logs := logs, accounts := copy_accounts vm.evm.accounts.entries dst.accounts } :: rest }

end In3.Evm
