import In3.Core.Data
import In3.Lib.Hash
import In3.Lib.Run
import In3.Nano.Rlp
/-!
# Signed block headers (`nano/blockheader.c`, `nano/signature.c`)

`eth_verify_blockheader` accepts a header when the requested signers confirmed
its hash. Confirmations are collected in bit masks: the signer with index `i` has
bit `1 << i` of an `int`, shifted modulo 32, and the mask travels through the
signed return code of `validate_sig`.

Keccak and the recovery of a public key are parameters. What only reports to the
node list plugin (`mark_offline`, `handle_signed_err`) has no part in the result
and is left out, and so is the path for authority chains, which is not compiled.
-/
open Lib

namespace In3

/-- The primitives of `core/util/crypto.c`: `keccak`, and `crypto_recover` for a
message hash and a signature of 65 bytes. -/
structure Crypto where
  keccak : Hash
  recover : Bytes → Bytes → Option Bytes

/-- A negative `in3_ret_t`: an error with its message, or any other code. -/
inductive Err where
  | vc_err (msg : String)
  | ret (code : Int)
  deriving DecidableEq, Repr

/-- The part of `in3_vctx_t` that the verification of a header reads. -/
structure Vctx where
  signers : List Bytes
  version : Nat
  registry_id : Bytes
  verified_hashes : List (Nat × Bytes)
  proof : Tok
  signers_length : signers.length < 256

def JSON_RPC_ERR_INTERNAL : Int := -32603
def BLOCKHEADER_NUMBER : Int := 8

/-! ## Signatures -/

section
variable (C : Crypto)

/-- `ecrecover_signature`: the address that signed `msg_hash`, if there is one. -/
def ecrecover_signature (msg_hash : Bytes) (sig : Tok) : Option Bytes :=
  let sig_msg_hash := d_bytesl (sig.prop K_MSG_HASH) 32
  if sig_msg_hash.isSome && !b_cmp sig_msg_hash (some msg_hash) then none
  else
    let v := d_int (sig.prop K_V)
    let v := if 27 ≤ v then v - 27 else v
    match d_bytesl (sig.prop K_R) 32, d_bytesl (sig.prop K_S) 32 with
    | some r, some s =>
      if r.length + s.length ≠ 64 then none
      else (C.recover msg_hash (r ++ s ++ [UInt8.ofNat (v % 256).toNat])).map fun pubkey => (C.keccak.fn pubkey).drop 12
    | _, _ => none

/-- `eth_verify_signature`: the bit of the signer, or 0. -/
def eth_verify_signature (signers : List Bytes) (msg_hash : Bytes) (sig : Tok) : Nat :=
  match ecrecover_signature C msg_hash sig with
  | none => 0
  | some addr =>
    match signers.findIdx? (· = addr) with
    | none => 0
    | some i => 2 ^ (i % 32)

variable (vc : Vctx) (header_number : Nat) (block_hash : Bytes)

def compute_msg_hash : Bytes :=
  let msg_data := block_hash ++ List.replicate 24 0 ++ long_to_bytes header_number ++ vc.registry_id
  C.keccak.fn (msg_data.take (if 1 < vc.version then 96 else 64))

/-- What one property of a signed error adds to its message. -/
def err_part (t : Tok) : Bytes :=
  match d_bytes_st t with
  | .bytes d => d.getD []
  | .string s _ => c_str s ++ [0]
  | .boolean v => int_to_bytes v.toNat
  | .integer v => int_to_bytes (v % 2 ^ 28)
  | _ => []

def compute_err_hash (err sig : Tok) : Option Bytes := do
  let props ← d_keyed sig
  let parts := (props.filter fun p => p.1 ∉ [K_R, K_S, K_V, K_MSG_HASH]).map fun p => err_part p.2
  some (C.keccak.fn (int_to_bytes (toUInt32 (d_int (err.prop K_CODE))) ++ parts.flatten))

/-- `d_get(d_get(err, K_DATA), K_SIGNED_ERR)`, for `is_err_signed` and `validate_err`. -/
def signed_err (err : Tok) : Option Tok := d_get (err.prop K_DATA) K_SIGNED_ERR

def validate_err (err sig : Tok) : Run Err Nat := do
  if d_long (sig.prop K_BLOCK) ≠ header_number then throw (.vc_err "wrong signature blocknumber")
  match compute_err_hash C err sig with
  | some err_hash => pure (eth_verify_signature C vc.signers err_hash sig)
  -- the loop runs on behind a scalar, which has no signature whatever is hashed
  | none => pure 0

def validate_sig (sig : Tok) : Run Err Nat := do
  if d_long (sig.prop K_BLOCK) ≠ header_number then throw (.vc_err "wrong signature blocknumber")
  match d_bytesl (sig.prop K_BLOCK_HASH) 32 with
  | none => throw (.vc_err "wrong signature hash")
  | some sig_hash =>
    let same ← Run.lift (memcmp_eq sig_hash block_hash 32)
    if same = false then throw (.vc_err "wrong signature hash")
    pure (eth_verify_signature C vc.signers (compute_msg_hash C vc header_number block_hash) sig)

/-! ## Headers -/

/-- A mask whose sign bit is set is a negative return code. -/
def check_res (res : Nat) : Run Err Unit := if 2 ^ 31 ≤ res then throw (.ret (toInt32 res)) else pure ()

/-- One round of the loop over the signatures, with the masks `confirmed` and `erred`. -/
def check_entry (masks : Nat × Nat) (sig : Tok) : Run Err (Nat × Nat) :=
  match d_get sig K_ERROR with
  | some err =>
    match signed_err err with
    | none =>
      if d_int (err.prop K_CODE) ≠ JSON_RPC_ERR_INTERNAL then throw (.vc_err "error not signed") else pure masks
    | some s => do
      let res ← validate_err C vc header_number err s
      check_res res
      pure (masks.1, masks.2 ||| res)
  | none => do
    let res ← validate_sig C vc header_number block_hash sig
    check_res res
    pure (masks.1 ||| res, masks.2)

/-- The tokens the loop visits. `d_get_at` returns `NULL` for anything but an array. -/
def signature_list : Tok → List Tok
  | .array _ items => items
  | t => List.replicate (d_len t) .null

/-- `(1ULL << signers_length) - 1` as an `unsigned int`; the shift is taken modulo 64. -/
def all_mask (n : Nat) : Nat := (2 ^ (n % 64) - 1) % 2 ^ 32

def get_verified_hash (block_number : Nat) : Option Bytes := vc.verified_hashes.lookup block_number

def eth_verify_blockheader (header expected_blockhash : Option Bytes) : Run Err Unit := do
  let header := header.getD []
  if header = [] then throw (.vc_err "no header found")
  let block_hash := C.keccak.fn header
  let (r, temp) ← Run.lift (rlp_decode_in_list header BLOCKHEADER_NUMBER none)
  if r ≠ 1 then throw (.vc_err "Could not rlpdecode the blocknumber")
  let header_number := bytes_to_long (← Run.lift temp)
  if expected_blockhash.isSome ∧ expected_blockhash ≠ some block_hash then throw (.vc_err "wrong blockhash")
  match get_verified_hash vc header_number with
  | some hash => if hash ≠ block_hash then throw (.vc_err "invalid blockhash") else pure ()
  | none =>
    if vc.signers = [] then pure ()
    else
      match d_get vc.proof K_SIGNATURES with
      | none => throw (.vc_err "no signatures in proof")
      | some signatures =>
        let (confirmed, erred) ← (signature_list signatures).foldlM (check_entry C vc header_number block_hash) (0, 0)
        if confirmed ||| erred ≠ all_mask vc.signers.length then throw (.vc_err "missing signatures")
        if erred ≠ 0 then throw (.vc_err "signers reported errors")

end

end In3
