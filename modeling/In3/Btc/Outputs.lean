import In3.Btc.Script
import In3.Core.Data
import In3.Lib.Run
/-!
# Outputs of a new transaction (`btc_types.c`)

`btc_prepare_outputs` reads the address and the value of every output from the array of the outputs instead of from the
output. An array has no properties, so no output is ever prepared. `btc_build_locking_script` copies the hash from the
structure that points to it; `described` is the memory there.
-/
open Lib

namespace In3.Btc

structure Output where
  value : Nat
  script : Bytes
  type : btc_stype_t
  deriving DecidableEq, Repr

def btc_build_locking_script (described : Bytes → Bytes) (receiving_btc_addr : Bytes) (type : btc_stype_t) : Bytes :=
  if type = .NON_STANDARD ∨ type = .UNSUPPORTED ∨ receiving_btc_addr.length < 20 then []
  else
    match type with
    | .P2PKH => [0x76, 0xa9, 20] ++ (described receiving_btc_addr).take 20 ++ [0x88, 0xac]
    | _ => []

/-- The loop over the items of `output_data`. `btc_add_output_to_tx` appends to the outputs of the transaction. -/
def prepare_loop (described : Bytes → Bytes) (output_data : Tok) : List Tok → List Output → Run ReqError (List Output)
  | [], tx => pure tx
  | .object _ _ :: items, tx => do
    let btc_addr := (d_bytes (output_data.prop (key "address"))).getD []
    let value := d_long (output_data.prop (key "value"))
    if btc_addr.length ≠ 20 then throw (.set_error "ERROR: one or more outputs have invalid address" IN3_EINVAL)
    if value = 0 then throw (.set_error "ERROR: output value cannot be zero" IN3_EINVAL)
    let script := btc_build_locking_script described btc_addr .P2PKH
    let type ← Run.lift (btc_get_script_type script)
    prepare_loop described output_data items (tx ++ [⟨value, script, type⟩])
  | _ :: _, _ => throw (.set_error "ERROR: invalid output data format" IN3_EINVAL)

def btc_prepare_outputs (described : Bytes → Bytes) (tx : List Output) (output_data : Tok) : Run ReqError (List Output) :=
  match output_data with
  | .array _ items => prepare_loop described output_data items tx
  | _ => throw (.set_error "ERROR: in btc_prepare_outputs: invalid output data format" IN3_EINVAL)

/-- The address coding: from a hash behind a prefix, from a public key, and the two of segregated witnesses. -/
structure Coding where
  btc_addr_from_pub_key_hash : Bytes → UInt8 → Bytes
  btc_addr_from_pub_key : Bytes → UInt8 → Bytes
  btc_segwit_addr_from_pub_key_hash : Bytes → Bytes
  btc_segwit_addr_from_witness_program : Bytes → Bytes

/-- `extract_address_from_output` for an output with a type: the returned type, and the address if one is written. -/
def extract_address_from_output (coding : Coding) (tx_out : Output) : btc_stype_t × Option Bytes :=
  match tx_out.type with
  | .P2PK =>
    let pub_key := (tx_out.script.drop 1).take (tx_out.script.headD 0).toNat
    (.P2PK, if pub_key_is_valid pub_key.length pub_key = some true then some (coding.btc_addr_from_pub_key pub_key 0) else none)
  | .P2PKH => (.P2PKH, some (coding.btc_addr_from_pub_key_hash ((tx_out.script.drop 3).take 20) 0))
  | .P2SH => (.P2SH, some (coding.btc_addr_from_pub_key_hash ((tx_out.script.drop 2).take 20) 5))
  | .P2MS => (.P2MS, none)
  | .V0_P2WPKH => (.V0_P2WPKH, some (coding.btc_segwit_addr_from_pub_key_hash ((tx_out.script.drop 2).take 20)))
  | .P2WSH => (.P2WSH, some (coding.btc_segwit_addr_from_witness_program tx_out.script))
  | _ => (.UNSUPPORTED, none)

/-- A requested output: an object with the hash of a key as address and a value other than zero. -/
structure Receiver where
  text : Bytes
  props : List (Nat × Tok)
  hash : Bytes
  value : Nat
  address : d_bytes ((Tok.object text props).prop (key "address")) = some hash
  hash_length : hash.length = 20
  worth : d_long ((Tok.object text props).prop (key "value")) = value
  value_ne : value ≠ 0

def Receiver.token (r : Receiver) : Tok := .object r.text r.props

def Pays (coding : Coding) (r : Receiver) (o : Output) : Prop :=
  o.value = r.value ∧ o.script = [0x76, 0xa9, 20] ++ r.hash ++ [0x88, 0xac] ∧
    extract_address_from_output coding o = (.P2PKH, some (coding.btc_addr_from_pub_key_hash r.hash 0))

def PaysReceivers (coding : Coding) (described : Bytes → Bytes) (tx : List Output) (text : Bytes) (rs : List Receiver) : Prop :=
  ∃ outs, (btc_prepare_outputs described tx (.array text (rs.map Receiver.token))).ok (tx ++ outs) ∧ List.Forall₂ (Pays coding) rs outs

theorem prepare_loop_refuses (described : Bytes → Bytes) (text : Bytes) (all items : List Tok) (r : Receiver) (tx : List Output) :
    (prepare_loop described (.array text all) (r.token :: items) tx).run =
      some (.error (.set_error "ERROR: one or more outputs have invalid address" IN3_EINVAL)) := rfl

/-- For every array of receivers: they are paid if and only if there is none. -/
theorem receivers_paid_iff (coding : Coding) (described : Bytes → Bytes) (tx : List Output) (text : Bytes) (rs : List Receiver) :
    PaysReceivers coding described tx text rs ↔ rs = [] := by
  cases rs with
  | nil => exact iff_of_true ⟨[], by simp [btc_prepare_outputs, prepare_loop], .nil⟩ rfl
  | cons r rs =>
    refine iff_of_false ?_ (List.cons_ne_nil r rs)
    rintro ⟨outs, hok, -⟩
    have hrefused := prepare_loop_refuses described text (r.token :: rs.map Receiver.token) (rs.map Receiver.token) r tx
    cases (Run.ok_iff.1 hok).symm.trans hrefused

def oneReceiver : Receiver where
  text := []
  props := [(key "address", .bytes (some (List.replicate 20 7))), (key "value", .integer 1000)]
  hash := List.replicate 20 7
  value := 1000
  address := by decide
  hash_length := by decide
  worth := by decide
  value_ne := by decide

theorem receiver_refused :
    (btc_prepare_outputs id [] (.array [] [oneReceiver.token])).run =
      some (.error (.set_error "ERROR: one or more outputs have invalid address" IN3_EINVAL)) := rfl

end In3.Btc
