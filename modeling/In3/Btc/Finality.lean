import In3.Btc.Merkle
import In3.Btc.Target
import In3.Btc.Types
/-!
# Headers and finality (`verifier/btc/btc.c`)

The number of a block is read from its coinbase transaction, or, before BIP 34, taken from the proof and
checked with a table of hashes. A header is checked on its own, and `btc_check_finality` follows the
headers that come behind it. The length of a byte string is a `uint32_t`.
-/
open Lib

namespace In3.Btc
open Evm (memcmp)

/-! ## The number of a block -/

structure HeaderProof where
  cbtx : Bytes
  cbtxMerkleProof : Bytes
  height : Nat
  final : Bytes
  deriving DecidableEq, Repr

def PRE_BIP34_DISTANCE : Nat := 200

def check_pre_bip34 (H : Hash) (btc_pre_bip34 finality_headers : Bytes) (bn : Nat) : BtcRun Unit := do
  let checkpoint := bn / PRE_BIP34_DISTANCE + 1
  let p := checkpoint * PRE_BIP34_DISTANCE - bn
  if BIP34_START < bn then throw (.vc_err "block needs to support BIP34")
  if btc_pre_bip34.length ≤ checkpoint * 12 + 12 then throw (.vc_err "Blocknumber not before bip34")
  let start_hash ← Region.slice btc_pre_bip34 (checkpoint * 12 - 12) 12
  if finality_headers.length < p * 80 then throw (.vc_err "Not enough fnialiity headers")
  let last ← Region.slice finality_headers ((p - 1) * 80) 80
  if memcmp (btc_hash H last) (List.replicate 4 0 ++ start_hash) ≠ 0 then throw (.vc_err "invalid finality header")

/-- `btc_block_number`; the table is there if it was compiled with `BTC_PRE_BPI34`. -/
def btc_block_number (H : Hash) (btc_pre_bip34 : Option Bytes) (proof : HeaderProof) (header : Bytes) : BtcRun Nat := do
  if btc_block_get header .BTC_B_VERSION = [1, 0, 0, 0] then
    if proof.height = 0 then throw (.vc_err "missing height in proof for blocks pre bip34")
    match btc_pre_bip34 with
    | some table => do
      check_pre_bip34 H table proof.final proof.height
      return proof.height
    | none => throw (.vc_err "no pre bip34 support")
  else
    if header.length ≠ 80 then throw (.vc_err "invalid blockheader")
    if proof.cbtxMerkleProof.length = 0 then throw (.vc_err "missing merkle proof")
    if proof.cbtx.length = 0 then throw (.vc_err "missing coinbase tx")
    let tx_data ← Guarded.orThrow (btc_parse_tx proof.cbtx) (.vc_err "invalid coinbase tx")
    let tx_id ← btc_tx_id H proof.cbtx tx_data
    let found ← btc_merkle_verify_proof H (btc_block_get header .BTC_B_MERKLE_ROOT) proof.cbtxMerkleProof 0 tx_id
    if ¬ found then throw (.vc_err "merkleProof failed!")
    if tx_data.input_count ≠ 1 then throw (.vc_err "vin count needs to be 1 for coinbase tx")
    match ← btc_parse_tx_in proof.cbtx tx_data.input.start tx_data.input.stop with
    | none => throw (.vc_err "invalid coinbase signature")
    | some (tx_in, _) => do
      let script ← Region.slice proof.cbtx tx_in.script.start 4
      if script.getD 0 0 ≠ 3 then throw (.vc_err "invalid coinbase signature")
      return (script.getD 1 0).toNat ||| (script.getD 2 0).toNat <<< 8 ||| (script.getD 3 0).toNat <<< 16

/-! ## Headers -/

/-- The first part of `btc_verify_header`: the hash and the target. -/
def check_work (H : Hash) (block_header : Bytes) (expected_target : Option Bytes) : BtcRun (Bytes × Bytes) := do
  let dst_target ← btc_target_from_block block_header
  let dst_hash := btc_hash H block_header
  if memcmp dst_target dst_hash < 0 then throw (.vc_err "Invalid proof of work. the hash is greater than the target")
  match expected_target with
  | none => return (dst_hash, dst_target)
  | some expected =>
    if memcmp dst_target expected ≠ 0 then throw (.vc_err "Invalid target")
    else return (dst_hash, dst_target)

/-- `btc_verify_header` with a proof: the hash, the target and the number. -/
def btc_verify_header (H : Hash) (btc_pre_bip34 : Option Bytes) (block_header : Bytes) (proof : HeaderProof) :
    BtcRun (Bytes × Bytes × Nat) := do
  let (hash, target) ← check_work H block_header none
  let block_number ← Guarded.orThrow (btc_block_number H btc_pre_bip34 proof block_header) (.vc_err "could not get the block number")
  return (hash, target, block_number)

/-! ## Finality -/

/-- The target for the header `b` with the number `block_nr`, and whether a period begins with it. -/
def next_target (block_nr : Nat) (target b : Bytes) : BtcRun Bytes :=
  if block_nr % 2016 = 0 then do
    let tmp ← btc_target_from_block b
    btc_new_target_check target tmp
    return tmp
  else return target

/-- The loop of `btc_check_finality` over the headers at the offset `p`. The counter starts again with each period. -/
def finality_loop (H : Hash) (final_blocks : Bytes) (finality : Int) : Nat → Int → Nat → Nat → Bytes → Bytes → BtcRun Nat
  | 0, _, _, _, _, _ => Guarded.fault .overflow
  | fuel + 1, i, p, block_nr, target, parent_hash =>
    if i < finality then do
      if final_blocks.length < (p + 80) % 2 ^ 32 then throw (.vc_err "Not enough finality blockheaders")
      let b ← Region.slice final_blocks p 80
      let i := if block_nr % 2016 = 0 then 0 else i
      let target ← next_target block_nr target b
      if memcmp (rev_copy (btc_block_get b .BTC_B_PARENT_HASH)) parent_hash ≠ 0 then
        throw (.vc_err "wrong parent_hash in finality block")
      let (hash, _) ← check_work H b (some target)
      finality_loop H final_blocks finality fuel (i + 1) ((p + 80) % 2 ^ 32) ((block_nr + 1) % 2 ^ 64) target hash
    else return p

/-- How many headers are asked for: all of them, before BIP 34. The length is taken as an `int`. -/
def asked (finality : Int) (final_blocks : Bytes) (block_nr : Nat) : Int :=
  if block_nr ≤ BIP34_START then max finality ((toInt32 final_blocks.length).tdiv 80) else finality

def btc_check_finality (H : Hash) (block_hash : Bytes) (finality : Int) (final_blocks expected_target : Bytes) (block_nr : Nat) :
    BtcRun Unit := do
  if finality = 0 then
    if final_blocks.length = 0 then return
    else throw (.vc_err "got finalily headers even though they were not expected")
  else
    let p ← finality_loop H final_blocks (asked finality final_blocks block_nr) (final_blocks.length / 80 + 2) 0 0
      ((block_nr + 1) % 2 ^ 64) expected_target block_hash
    if final_blocks.length < p then throw (.vc_err "too many final headers")

end In3.Btc
