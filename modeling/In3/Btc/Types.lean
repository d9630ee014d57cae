import In3.Basic.LogFilter
import In3.Btc.Serialize
/-!
# Bitcoin transactions (`verifier/btc/btc_types.c`)

The parser walks over the bytes of a transaction with a pointer, which is an offset here, and leaves
pointers to the parts it has found; the serializers write the parts into a fresh buffer. What such a
buffer holds before it is written is not known: `fresh n` are the `n` bytes that `_malloc` returns.
-/
open Lib

namespace In3.Btc

/-- A `bytes_t` that points into another string. -/
structure Span where
  start : Nat
  len : Nat
  deriving DecidableEq, Repr

namespace Span

def stop (s : Span) : Nat := s.start + s.len

theorem stop_mk (start len : Nat) : (Span.mk start len).stop = start + len := rfl

def of (s : Span) (data : Bytes) : Bytes := (data.drop s.start).take s.len

end Span

/-! ## Inputs and outputs -/

/-- `btc_tx_in_t`. -/
structure TxIn where
  prev_tx_hash : Bytes
  prev_tx_index : Nat
  script : Bytes
  sequence : Nat
  deriving DecidableEq, Repr

/-- `btc_tx_out_t`. -/
structure TxOut where
  value : Nat
  script : Bytes
  deriving DecidableEq, Repr

/-- `btc_tx_in_t` as the parser leaves it, with pointers. -/
structure ParsedIn where
  prev_tx_hash : Span
  prev_tx_index : Nat
  script : Span
  sequence : Nat
  deriving DecidableEq, Repr

/-- `btc_tx_out_t` as the parser leaves it. -/
structure ParsedOut where
  value : Nat
  script : Span
  deriving DecidableEq, Repr

def ParsedIn.view (t : ParsedIn) (data : Bytes) : TxIn :=
  ⟨t.prev_tx_hash.of data, t.prev_tx_index, t.script.of data, t.sequence⟩

def ParsedOut.view (t : ParsedOut) (data : Bytes) : TxOut := ⟨t.value, t.script.of data⟩

/-- `btc_parse_tx_in`: the input and the place behind it, or `NULL`. -/
def btc_parse_tx_in (data : Bytes) (p limit : Nat) : BtcRun (Option (ParsedIn × Nat)) := do
  let prev_tx_index ← le_to_int data (p + 32)
  let (len, n) ← decode_var_int data (p + 36)
  let script : Span := ⟨p + 36 + n, len % 2 ^ 32⟩
  if limit < script.stop + 4 then return none
  else
    let sequence ← le_to_int data script.stop
    return some (⟨⟨p, 32⟩, prev_tx_index, script, sequence⟩, script.stop + 4)

/-- `btc_parse_tx_out`: nothing is checked. -/
def btc_parse_tx_out (data : Bytes) (p : Nat) : BtcRun (ParsedOut × Nat) := do
  let value ← le_to_long data p
  let (len, n) ← decode_var_int data (p + 8)
  let script : Span := ⟨p + 8 + n, len % 2 ^ 32⟩
  return (⟨value, script⟩, script.stop)

/-! ## Transactions -/

/-- `btc_tx_t` as the parser leaves it. -/
structure ParsedTx where
  version : Nat
  flag : Bool
  input_count : Nat
  input : Span
  output_count : Nat
  output : Span
  witnesses : Span
  lock_time : Nat
  deriving DecidableEq, Repr

def btc_is_witness (tx : Bytes) : BtcRun Bool := do
  let marker ← Region.byte tx 4
  if marker = 0 then
    let flag ← Region.byte tx 5
    return flag = 1
  else return false

/-- The loop over the inputs in `btc_parse_tx`: the place behind them. -/
def parse_inputs (tx : Bytes) : Nat → Nat → BtcRun Nat
  | 0, p => return p
  | count + 1, p => do
    match ← btc_parse_tx_in tx p tx.length with
    | none => throw (.ret IN3_EINVAL)
    | some (_, p) => if tx.length ≤ p then throw (.ret IN3_EINVAL) else parse_inputs tx count p

/-- The loop over the outputs. -/
def parse_outputs (tx : Bytes) : Nat → Nat → BtcRun Nat
  | 0, p => return p
  | count + 1, p => do
    let (_, p) ← btc_parse_tx_out tx p
    if tx.length < p then throw (.ret IN3_EINVAL) else parse_outputs tx count p

/-- `btc_parse_tx`; the length of the witnesses is a `uint32_t`. -/
def btc_parse_tx (tx : Bytes) : BtcRun ParsedTx := do
  let version ← le_to_int tx 0
  let flag ← btc_is_witness tx
  let head : Nat := if flag then 6 else 4
  let (val, n) ← decode_var_int tx head
  let p := head + n
  if tx.length ≤ p then throw (.ret IN3_EINVAL)
  let input_count := val % 2 ^ 32
  let q ← parse_inputs tx input_count p
  let (val, n) ← decode_var_int tx q
  let output_count := val % 2 ^ 32
  let r ← parse_outputs tx output_count (q + n)
  let lock_time ← le_to_int tx (tx.length - 4)
  return {
    version, flag, input_count, output_count, lock_time
    input := ⟨p, q - p⟩
    output := ⟨q + n, r - (q + n)⟩
    witnesses := ⟨r, (((tx.length : Int) - 4 - r) % 2 ^ 32).toNat⟩ }

/-- `btc_tx_id`: the hash without the witnesses. -/
def btc_tx_id (H : Hash) (all : Bytes) (tx : ParsedTx) : BtcRun Bytes := do
  let start : Nat := if tx.flag then 6 else 4
  let version ← Region.slice all 0 4
  let body ← Region.slice all start (tx.output.stop - start)
  let lock_time ← Region.slice all (all.length - 4) 4
  return btc_hash H (version ++ body ++ lock_time)

/-! ## Serialization -/

def IN3_ENOTSUP : Int := -3

def MAX_SCRIPT_SIZE_BYTES : Nat := 10000

def btc_serialize_tx_in (fresh : Nat → Bytes) (tx_in : TxIn) : BtcRun Bytes := do
  let len := tx_in.script.length
  let dst := fresh ((36 + get_compact_uint_size len + len + 4) % 2 ^ 32)
  let dst ← Region.store dst 0 (rev_copyl tx_in.prev_tx_hash 32)
  let dst ← uint_to_le dst 32 tx_in.prev_tx_index
  let dst ← long_to_compact_uint dst 36 len
  let index := 36 + get_compact_uint_size len
  let dst ← Region.store dst index tx_in.script
  -- the sequence goes to the start of the script, since the index was not moved
  uint_to_le dst index tx_in.sequence

def btc_serialize_tx_out (fresh : Nat → Bytes) (tx_out : TxOut) : BtcRun Bytes := do
  let len := tx_out.script.length
  if MAX_SCRIPT_SIZE_BYTES < len then throw (.ret IN3_ENOTSUP)
  let dst := fresh ((8 + get_compact_uint_size len + len) % 2 ^ 32)
  let dst ← long_to_le dst 0 tx_out.value
  let dst ← long_to_compact_uint dst 8 len
  Region.store dst (8 + get_compact_uint_size len : Nat) tx_out.script

/-- `btc_tx_t` as it is built for serialization: the parts have their own bytes. -/
structure Tx where
  version : Nat
  flag : Bool
  input_count : Nat
  input : Bytes
  output_count : Nat
  output : Bytes
  witnesses : Bytes
  lock_time : Nat
  deriving DecidableEq, Repr

def btc_get_raw_tx_size (tx : Tx) : Nat :=
  (4 + (if tx.flag then 2 else 0) + get_compact_uint_size tx.input_count + tx.input.length +
    get_compact_uint_size tx.output_count + tx.output.length + (if tx.flag then tx.witnesses.length else 0) + 4) % 2 ^ 32

def btc_serialize_tx (fresh : Nat → Bytes) (tx : Tx) : BtcRun Bytes := do
  if tx.input.length = 0 ∨ tx.output.length = 0 then throw (.ret IN3_EINVAL)
  if tx.flag ∧ tx.witnesses.length = 0 then throw (.ret IN3_EINVAL)
  let dst := fresh (btc_get_raw_tx_size tx)
  let dst ← uint_to_le dst 0 tx.version
  let dst ← Region.store dst 4 (if tx.flag then [0, 1] else [])
  let index : Nat := if tx.flag then 6 else 4
  let dst ← long_to_compact_uint dst index tx.input_count
  let index := index + get_compact_uint_size tx.input_count
  let dst ← Region.store dst index tx.input
  let index := index + tx.input.length
  let dst ← long_to_compact_uint dst index tx.output_count
  let index := index + get_compact_uint_size tx.output_count
  let dst ← Region.store dst index tx.output
  let index := index + tx.output.length
  let dst ← Region.store dst index (if tx.flag then tx.witnesses else [])
  -- the index is moved by the length of the outputs, not of the witnesses
  let index := if tx.flag then index + tx.output.length else index
  uint_to_le dst index tx.lock_time

end In3.Btc
