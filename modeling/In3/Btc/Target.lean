import In3.Btc.Serialize
import In3.Core.Utils
import In3.Evm.Big
/-!
# Bitcoin targets (`verifier/btc/btc_target.c`)

The limit on a change of the target, the list of verified targets with its search for the closest
period, and the check that a header's target is near a verified one. The verified targets are one byte
string of entries: two bytes for the period and four for the compact bits.
-/
open Lib

namespace In3.Btc
open Evm (memcmp)

/-! ## The limit on a change -/

/-- The loop that multiplies by four: byte `i` takes the upper bits of byte `i + 1`, up to the last byte but one. -/
def times_four : Bytes → Bytes
  | a :: b :: rest => (a <<< 2 ||| b >>> 6) :: times_four (b :: rest)
  | rest => rest

/-- The loop that divides by four, behind the byte `prev` that it has written. -/
def quarter_from (prev : UInt8) : Bytes → Bytes
  | [] => []
  | b :: rest => (b >>> 2 ||| prev <<< 6) :: quarter_from (b >>> 2 ||| prev <<< 6) rest

/-- The loop that divides by four: it starts at the second byte. -/
def quarter : Bytes → Bytes
  | [] => []
  | a :: rest => a :: quarter_from a rest

def btc_new_target_check (old_target new_target : Bytes) : BtcRun Unit := do
  if memcmp (times_four old_target) new_target < 0 then
    throw (.vc_err "new target is more than 4 times the old target")
  if 0 < memcmp (quarter old_target) new_target then
    throw (.vc_err "new target is less than one 4th of the old target")

/-! ## Verified targets -/

/-- The fields of `btc_target_conf_t` that the checks read. -/
structure TargetConf where
  data : Bytes
  max_daps : Nat
  max_diff : Nat
  dap_limit : Nat
  deriving DecidableEq, Repr

def BIP34_START : Nat := 227835

def btc_get_dap (block_number : Nat) : Nat := block_number / 2016

/-- The entry that `btc_set_target` appends. -/
def target_entry (dap : Nat) (difficulty : Bytes) : Bytes :=
  [UInt8.ofNat (dap / 256 % 256), UInt8.ofNat (dap % 256)] ++ difficulty.take 4

def btc_set_target (tc : TargetConf) (dap : Nat) (difficulty : Bytes) : TargetConf :=
  { tc with data := tc.data ++ target_entry dap difficulty }

/-- The distance of two periods. -/
def dap_dist (dap c : Nat) : Nat := if c < dap then dap - c else c - dap

/-- The loop of `btc_get_closest_target` from the offset `p` on. It ends where `p` meets the end, which it can miss. -/
def closest_loop (data : Bytes) (dap : Nat) : Nat → Nat → Nat → Nat → Bytes → BtcRun (Nat × Bytes)
  | 0, _, _, _, _ => Guarded.fault .overflow
  | fuel + 1, p, found, dist, target =>
    if p = data.length then return (found, target)
    else do
      let c := beNat (← Region.slice data p 2)
      let d := dap_dist dap c
      if d < dist then
        let target ← target_from_bits (← Region.slice data (p + 2) 4)
        if d = 0 then return (c, target) else closest_loop data dap fuel (p + 6) c d target
      else closest_loop data dap fuel (p + 6) found dist target

/-- `btc_get_closest_target`: the period that was found, and its target. -/
def btc_get_closest_target (tc : TargetConf) (dap : Nat) (target : Bytes) : BtcRun (Nat × Bytes) :=
  if tc.data.length = 0 then return (0, target)
  else closest_loop tc.data dap (tc.data.length / 6 + 2) 0 0 0xFFFFFFFF target

def last_set (target : Bytes) : Nat → Option Nat
  | 0 => none
  | i + 1 => if target.getD i 0 ≠ 0 then some i else last_set target i

/-- Where `mul_target` reads and writes four bytes. -/
def mul_window (target : Bytes) : Int :=
  match last_set target 32 with
  | some i => i - 3
  | none => 28

def mul_target (percent : Nat) (target : Bytes) : BtcRun Bytes := do
  let p := mul_window target
  let val := bytes_to_int (← Region.slice target p 4)
  Region.store target p (int_to_bytes ((val + percent * val % 2 ^ 32 / 100) % 2 ^ 32))

/-! ## The check of a header's target -/

/-- `in3_req_state` of the request for a proof of the target, as far as it was made. -/
inductive req_state where
  | REQ_ERROR
  | REQ_WAITING_FOR_RESPONSE
  | REQ_WAITING_TO_SEND
  | REQ_SUCCESS
  deriving DecidableEq, Repr

/-- What `btc_check_target` ends with: the target is fine, or a `btc_proofTarget` request with these numbers is needed. -/
inductive Checked where
  | fine (tc : TargetConf)
  | needs_proof (params : List Nat)
  deriving DecidableEq, Repr

/-- The first part of `btc_check_target`: a request that was made before. -/
def check_required (ctx : Option req_state) (removed : Bool) : BtcRun Unit :=
  match ctx with
  | none => return
  | some .REQ_ERROR => throw (.ret IN3_ERPC)
  | some .REQ_WAITING_FOR_RESPONSE => throw (.ret IN3_WAITING)
  | some .REQ_WAITING_TO_SEND => throw (.ret IN3_WAITING)
  | some .REQ_SUCCESS => if removed then return else throw (.vc_err "could not clean up proofTarget-request!")

/-- The targets that are stored for a header with an accepted target, and for the header at the end of `final`. -/
def accept_target (tc : TargetConf) (block_number current_dap : Nat) (final header : Bytes) : BtcRun TargetConf := do
  let tc := btc_set_target tc current_dap (btc_block_get header .BTC_B_BITS)
  if btc_get_dap ((block_number + final.length / 80) % 2 ^ 32) = current_dap + 1 then
    let last ← Region.slice final (final.length - 80) 80
    return btc_set_target tc (current_dap + 1) (btc_block_get last .BTC_B_BITS)
  else return tc

/-- `btc_check_target`; `ctx` and `removed` say what became of an earlier request. -/
def btc_check_target (tc : TargetConf) (ctx : Option req_state) (removed : Bool) (block_number : Nat)
    (block_target final header : Bytes) : BtcRun Checked := do
  if block_number < BIP34_START then return .fine tc
  check_required ctx removed
  let current_dap := btc_get_dap block_number
  let (found_dap, verified_target) ← btc_get_closest_target tc current_dap (List.replicate 32 0)
  let dist := dap_dist current_dap found_dap
  if found_dap = 0 then throw (.vc_err "could not find any verified target!")
  if dist = 0 then
    if memcmp verified_target block_target = 0 then return .fine tc
    else throw (.vc_err "header target does not match the verified target")
  else if dist ≤ tc.max_daps then
    let tmp ← mul_target (tc.max_diff % 2 ^ 32) verified_target
    if 0 < memcmp tmp block_target then return .fine (← accept_target tc block_number current_dap final header)
    else return .needs_proof [current_dap, found_dap, tc.max_diff, tc.max_daps, tc.dap_limit]
  else return .needs_proof [current_dap, found_dap, tc.max_diff, tc.max_daps, tc.dap_limit]

end In3.Btc
