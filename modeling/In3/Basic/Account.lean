import In3.Nano.Blockheader
import In3.Nano.Merkle
import In3.Nano.Serialize
/-!
# Account proofs (`basic/eth_account.c`)

`verify_proof` checks one account entry of a proof: the account against the state
root of the header, and each storage entry against the storage hash of the account.
`eth_verify_account_proof` checks all entries and compares the result with the
entry for the requested address.

The fields of an account are read more than once. `serialize_account` comes first
and pads the two hashes, so everything behind it sees them padded; the numbers
are converted by then.
-/
open Lib

namespace In3

def K_ACCOUNTS := key "accounts"
def K_ACCOUNT_PROOF := key "accountProof"
def K_CONTRACT := key "contract"
def K_TO := key "to"
def K_STORAGE_PROOF := key "storageProof"

def BLOCKHEADER_STATE_ROOT : Int := 3

def EMPTY_HASH : Bytes := word 0xc5d2460186f7233c927e7db2dcc703c0e500b653ca82273b7bfad8045d85a470

def EMPTY_ROOT_HASH : Bytes := word 0x56e81f171bcc55a6ff8345e692c0f86e5b48e01b996cadc001622fb5e363b421

/-! ## One account -/

/-- The storage hash as everything behind `serialize_account` reads it. -/
def storage_root (account : Tok) : Option Bytes := d_bytes (d_bytesl_st (account.prop K_STORAGE_HASH) 32)

def is_not_existened (account : Tok) : Bool :=
  d_long (d_bytes_st (account.prop K_BALANCE)) = 0 &&
    b_cmp (d_bytesl (d_bytesl_st (account.prop K_CODE_HASH) 32) 32) (some EMPTY_HASH) &&
    b_cmp (d_bytesl (d_bytesl_st (account.prop K_STORAGE_HASH) 32) 32) (some EMPTY_ROOT_HASH) &&
    d_long (d_bytes_st (account.prop K_NONCE)) = 0

/-- The value the account proof must end in. -/
def account_expected (account : Tok) : Expected :=
  if is_not_existened account then .null else .given (serialize_account account)

/-- The value a storage proof must end in: the first 32 bytes of `value` without leading zeros. -/
def slot_expected (p : Tok) : Expected :=
  let val := optimize_len (d_bytes_to (p.prop K_VALUE) 32)
  if val = [0] then .null else .given (rlp_encode_to_item val)

/-- The entries a loop with `d_get_at` and `d_next` visits. -/
def entries : Tok → List Tok
  | .array _ items => items
  | t => List.replicate (d_len t) .null

section
variable (C : Crypto)

/-- `trie_verify_proof` with a root of any length; it copies 32 bytes of it. -/
def verify_trie (root path : Bytes) (proof : List Bytes) (expected : Expected) : Option Bool :=
  if root.length < 32 then none else (trie_verify_proof C.keccak (root.take 32) path proof expected).map Prod.fst

/-- One round of the loop over the storage entries. -/
def verify_storage (root : Bytes) (is_empty : Bool) (p : Tok) : Run Err Unit :=
  if is_empty then do
    if optimize_len (d_bytes_to (p.prop K_VALUE) 32) ≠ [0] then
      throw (.vc_err "empty storagehash, so we exepct 0 values")
    let pt := p.prop K_PROOF
    if d_type pt ≠ .T_ARRAY ∨ 1 < d_len pt ∨ (d_len pt = 1 ∧ d_int ((d_get_at pt 0).getD .null) ≠ 0x80) then
      throw (.vc_err "invalid proof")
  else
    match d_get p K_PROOF with
    | none => throw (.vc_err "no merkle proof for the storage")
    | some pt => do
      let proof ← Run.lift (d_create_bytes_vec pt)
      let res ← Run.lift (verify_trie C root (C.keccak.fn (d_bytes_to (p.prop K_KEY) 32)) proof (slot_expected p))
      if res = false then throw (.vc_err "invalid storage proof")

/-- The part of `verify_proof` that checks the account. -/
def verify_account_entry (header : Bytes) (account : Tok) : Run Err Unit := do
  let (r, root) ← Run.lift (rlp_decode_in_list header BLOCKHEADER_STATE_ROOT none)
  if r ≠ 1 then throw (.vc_err "no state root in the header")
  let root ← Run.lift root
  match d_bytesl (account.prop K_ADDRESS) 20 with
  | none => throw (.vc_err "no address in the account")
  | some address =>
    match d_get account K_ACCOUNT_PROOF with
    | none => throw (.vc_err "no merkle proof for the account")
    | some t =>
      let proof ← Run.lift (d_create_bytes_vec t)
      let res ← Run.lift (verify_trie C root (C.keccak.fn address) proof (account_expected account))
      if res = false then
        throw (.vc_err "invalid account proof where blockheader does not match the rootstate, which might be a microfork")

/-- The part of `verify_proof` that checks the storage. -/
def verify_storage_entries (account : Tok) : Run Err Unit := do
  match d_get account K_STORAGE_PROOF, d_get account K_STORAGE_HASH with
  | none, _ => throw (.vc_err "no stortage-proof found!")
  | some _, none => throw (.vc_err "no storage-hash found!")
  | some storage_proof, some _ =>
    let root ← Run.lift (storage_root account)
    let is_empty ← Run.lift (memcmp_eq root EMPTY_ROOT_HASH 32)
    forM (entries storage_proof) (verify_storage C root is_empty)

def verify_proof (header : Bytes) (account : Tok) : Run Err Unit := do
  verify_account_entry C header account
  verify_storage_entries C account

/-! ## The request -/

/-- The methods that `eth_verify_account_proof` tells apart. -/
inductive Method where
  | in3_nodeList | eth_call | eth_getBalance | eth_getTransactionCount | eth_getCode | eth_getStorageAt
  | other (name : String)
  deriving DecidableEq, Repr

/-- The part of `in3_vctx_t` that is only read here. -/
structure AccountCtx extends Vctx where
  method : Method
  request : Tok
  result : Option Tok
  has_proof : Bool

variable (vc : AccountCtx)

def d_eq_ptr : Option Tok → Option Tok → Bool
  | some a, some b => d_eq a b
  | _, _ => false

/-- `d_getl` for the address of an entry. -/
def entry_address (t : Tok) : Option Tok := (d_get t K_ADDRESS).map fun a => d_bytesl_st a 20

def requested_account : Run Err (Option Tok) :=
  let contract := if vc.method = .in3_nodeList then d_get (vc.result.getD .null) K_CONTRACT
    else d_get_at (vc.request.prop K_PARAMS) 0
  match contract with
  | none => throw (.vc_err "no account found in request")
  | some contract =>
    pure (if vc.method = .eth_call then (d_get contract K_TO).map fun a => d_bytesl_st a 20 else some contract)

def find_slot (storage : List Tok) (requested_key : Bytes) : Option Tok :=
  storage.find? fun e => b_cmp ((d_bytes (e.prop K_KEY)).map optimize_len) (some (optimize_len requested_key))

def check_result (account : Tok) : Run Err Unit := do
  let result := vc.result.getD .null
  let code_hash := (d_bytesl (d_bytesl_st (account.prop K_CODE_HASH) 32) 32)
  match vc.method with
  | .eth_getBalance =>
    if d_eq_ptr vc.result (d_get account K_BALANCE) = false then throw (.vc_err "the balance in the proof is different")
  | .eth_getTransactionCount =>
    if d_eq_ptr vc.result (d_get account K_NONCE) = false then throw (.vc_err "the nonce in the proof is different")
  | .eth_getCode =>
    let data := (d_bytes result).getD []
    let code_hash ← Run.lift code_hash
    if data ≠ [] then
      let same ← Run.lift (memcmp_eq code_hash (C.keccak.fn data) 32)
      if same = false then throw (.vc_err "the codehash in the proof is different")
    else
      let same ← Run.lift (memcmp_eq code_hash EMPTY_HASH 32)
      if same = false then throw (.vc_err "the code must be empty")
  | .eth_getStorageAt =>
    match d_bytes ((d_get_at (vc.request.prop K_PARAMS) 1).getD .null) with
    | none => throw (.vc_err "missing key")
    | some requested_key =>
      let storage ← Run.lift (d_iter (account.prop K_STORAGE_PROOF))
      match find_slot storage requested_key with
      | none => throw (.vc_err "the storage result does not match")
      | some e =>
        if d_bytes_to result 32 ≠ d_bytes_to (e.prop K_VALUE) 32 then
          throw (.vc_err "the storage result does not match")
  | .eth_call => pure ()
  | .in3_nodeList => throw (.vc_err "not supported method")
  | .other _ => throw (.vc_err "not supported method")

/-- The last parameter, if the check of the block number looks at it. -/
def checked_block : Option Tok :=
  let params := vc.request.prop K_PARAMS
  if vc.method = .in3_nodeList then none
  else (d_get_at params (d_len params - 1)).filter fun t => d_type t = .T_INTEGER

/-- The header must have the block number of the request, where it is looked at. -/
def check_block (header : Bytes) : Run Err Unit :=
  match checked_block vc with
  | none => pure ()
  | some t => do
    let (r, number) ← Run.lift (rlp_decode_in_list header BLOCKHEADER_NUMBER none)
    if r = 1 then do
      let number ← Run.lift number
      if bytes_to_long number ≠ d_long t then throw (.vc_err "the blockheader has the wrong blocknumber") else pure ()
    else pure ()

/-- All entries are checked, and the first one of the account is kept. -/
def verify_accounts (header : Bytes) (contract : Option Tok) : List Tok → Run Err (Option Tok)
  | [] => pure none
  | t :: ts => do
    Run.orFail (verify_proof C header t) (.vc_err "failed verifying the account")
    let rest ← verify_accounts header contract ts
    pure (if d_eq_ptr contract (entry_address t) then some t else rest)

def proofed_account (header : Bytes) : Run Err Tok := do
  let contract ← requested_account vc
  match d_get vc.proof K_ACCOUNTS with
  | none => throw (.vc_err "no accounts")
  | some accounts =>
    let accounts ← Run.lift (d_iter accounts)
    match ← verify_accounts C header contract accounts with
    | none => throw (.vc_err "the contract this proof is based on was not part of the proof")
    | some account => pure account

def eth_verify_account_proof : Run Err Unit :=
  if vc.result.isNone then pure ()
  else if vc.has_proof = false then throw (.vc_err "no proof")
  else
    match d_bytes (vc.proof.prop K_BLOCK) with
    | none => throw (.vc_err "no blockheader")
    | some header => do
      Run.orFail (eth_verify_blockheader C vc.toVctx (some header) none) (.vc_err "invalid blockheader")
      check_block vc header
      let account ← proofed_account C vc header
      check_result C vc account

end

end In3
