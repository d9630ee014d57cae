import In3.Btc.Finality
/-!
# Responses that store targets (`verifier/btc/btc.c`)

A transaction, a block and a proof of a target are verified with a header, the headers behind it and
the verified targets. `btc_check_target` may store targets, and what is stored stays, whatever the checks
that follow say. The checks that only compare the result with the header or the transaction are given by
their outcome.
-/
open Lib

namespace In3.Btc
open Evm (memcmp)

/-- A header with its proof, and what became of an earlier request for a proof of its target. -/
structure Item where
  header : Bytes
  proof : HeaderProof
  ctx : Option req_state
  removed : Bool
  deriving DecidableEq, Repr

/-- The responses that are verified with a header. -/
inductive Response where
  /-- `refused`: a check of the transaction itself fails. -/
  | tx (refused : Bool) (expected_block_hash : Option Bytes) (in_active_chain : Bool) (item : Item)
  /-- `refused`: a check that follows fails. -/
  | block (item : Item) (refused : Bool)
  | target_proof (max_diff max_daps : Nat) (items : List Item)
  deriving DecidableEq, Repr

section
variable (H : Hash) (btc_pre_bip34 : Option Bytes) (finality : Nat)

/-- The header, the headers behind it and the target, in this order. -/
def check_block (tc : TargetConf) (expected_block_hash : Option Bytes) (in_active_chain : Bool) (item : Item) : BtcRun Checked := do
  if item.header.length ≠ 80 then throw (.vc_err "invalid header")
  let (hash, block_target, block_number) ← btc_verify_header H btc_pre_bip34 item.header item.proof
  if expected_block_hash.any (memcmp · hash ≠ 0) then throw (.vc_err "invalid hash of blockheader!")
  if ¬ in_active_chain then return .fine tc
  else
    btc_check_finality H hash finality item.proof.final block_target block_number
    btc_check_target tc item.ctx item.removed block_number block_target item.proof.final item.header

def settle (tc : TargetConf) (x : BtcRun Checked) : TargetConf × Bool :=
  match x.run with
  | .ok (.ok (.fine tc')) => (tc', true)
  | _ => (tc, false)

/-- The loop of `btc_verify_target_proof`. -/
def verify_items : TargetConf → List Item → TargetConf × Bool
  | tc, [] => (tc, true)
  | tc, item :: rest =>
    match settle tc (check_block H btc_pre_bip34 finality tc none true item) with
    | (tc, true) => verify_items tc rest
    | (tc, false) => (tc, false)

def btc_verify_target_proof (tc : TargetConf) (max_diff max_daps : Nat) (items : List Item) : TargetConf × Bool :=
  if tc.max_diff ≠ max_diff then (tc, false)
  else if tc.max_daps ≠ max_daps then (tc, false)
  else verify_items H btc_pre_bip34 finality tc items

def btc_verify_tx (tc : TargetConf) (refused : Bool) (expected_block_hash : Option Bytes) (in_active_chain : Bool) (item : Item) :
    TargetConf × Bool :=
  if refused then (tc, false)
  else settle tc (check_block H btc_pre_bip34 finality tc expected_block_hash in_active_chain item)

/-- `btc_verify_block`: the other checks come last. -/
def btc_verify_block (tc : TargetConf) (item : Item) (refused : Bool) : TargetConf × Bool :=
  match settle tc (check_block H btc_pre_bip34 finality tc none true item) with
  | (tc, true) => (tc, !refused)
  | (tc, false) => (tc, false)

def in3_verify_btc (tc : TargetConf) : Response → TargetConf × Bool
  | .tx refused expected_block_hash in_active_chain item =>
    btc_verify_tx H btc_pre_bip34 finality tc refused expected_block_hash in_active_chain item
  | .block item refused => btc_verify_block H btc_pre_bip34 finality tc item refused
  | .target_proof max_diff max_daps items => btc_verify_target_proof H btc_pre_bip34 finality tc max_diff max_daps items

def verify_all (tc : TargetConf) (responses : List Response) : TargetConf :=
  responses.foldl (fun tc r => (in3_verify_btc H btc_pre_bip34 finality tc r).1) tc

end

end In3.Btc
