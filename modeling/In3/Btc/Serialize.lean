import In3.Lib.Hash
import In3.Lib.LittleEndian
import In3.Lib.Region
import In3.Nano.Blockheader
/-!
# Bitcoin data (`verifier/btc/btc_serialize.c`)

Integers of fixed and variable size, the fields of a block header, its hash and its target. A pointer
is an offset into the byte string it points to, and an access that leaves the string is a fault.
-/
open Lib

namespace In3.Btc

abbrev BtcRun := Guarded Access Err

/-! ## Copies and hashes -/

/-- `rev_copyl`: the `l` bytes that are written. -/
def rev_copyl (src : Bytes) (l : Nat) : Bytes := (src.take l).reverse ++ List.replicate (l - src.length) 0

def rev_copy (src : Bytes) : Bytes := rev_copyl src 32

/-- `btc_hash`; the parameter is `DIGEST_SHA256_BTC`. -/
def btc_hash (H : Hash) (data : Bytes) : Bytes := rev_copy (H.fn data)

/-! ## Integers -/

def le_to_int (data : Bytes) (p : Int) : BtcRun Nat := do
  let d ← Region.slice data p 4
  return (d.getD 3 0).toNat <<< 24 ||| (d.getD 2 0).toNat <<< 16 ||| (d.getD 1 0).toNat <<< 8 ||| (d.getD 0 0).toNat

/-- `le_to_long`: five of the bytes are shifted by 24. -/
def le_to_long (data : Bytes) (p : Int) : BtcRun Nat := do
  let d ← Region.slice data p 8
  return (d.getD 7 0).toNat <<< 24 ||| (d.getD 6 0).toNat <<< 24 ||| (d.getD 5 0).toNat <<< 24 |||
    (d.getD 4 0).toNat <<< 24 ||| (d.getD 3 0).toNat <<< 24 ||| (d.getD 2 0).toNat <<< 16 |||
    (d.getD 1 0).toNat <<< 8 ||| (d.getD 0 0).toNat

def uint_to_le (buf : Bytes) (index value : Nat) : BtcRun Bytes :=
  Region.store buf index
    [UInt8.ofNat (value &&& 0xFF), UInt8.ofNat (value >>> 8 &&& 0xFF), UInt8.ofNat (value >>> 16 &&& 0xFF),
     UInt8.ofNat (value >>> 24 &&& 0xFF)]

def long_to_le (buf : Bytes) (index value : Nat) : BtcRun Bytes :=
  Region.store buf index
    [UInt8.ofNat (value &&& 0xFF), UInt8.ofNat (value >>> 8 &&& 0xFF), UInt8.ofNat (value >>> 16 &&& 0xFF),
     UInt8.ofNat (value >>> 24 &&& 0xFF), UInt8.ofNat (value >>> 32 &&& 0xFF), UInt8.ofNat (value >>> 40 &&& 0xFF),
     UInt8.ofNat (value >>> 48 &&& 0xFF), UInt8.ofNat (value >>> 56 &&& 0xFF)]

def get_compact_uint_size (cmpt_uint : Nat) : Nat :=
  if 0xFFFFFFFF < cmpt_uint then 9 else if 0xFFFF < cmpt_uint then 5 else if 0xFC < cmpt_uint then 3 else 1

/-- The first byte that `long_to_compact_uint` writes. -/
def compact_marker (value : Nat) : UInt8 :=
  if 0xFFFFFFFF < value then 0xFF else if 0xFFFF < value then 0xFE else if 0xFC < value then 0xFD
  else UInt8.ofNat (value &&& 0xFF)

/-- The bytes of its loop: round `i` shifts by `i << 1`. -/
def compact_bytes (value len : Nat) : Bytes :=
  (List.range (len - 1)).map fun i => UInt8.ofNat (value >>> (i <<< 1) &&& 0xFF)

/-- `long_to_compact_uint`: the loop starts at the place of the first byte again. -/
def long_to_compact_uint (buf : Bytes) (index value : Nat) : BtcRun Bytes := do
  let buf ← Region.store buf index [compact_marker value]
  let len := get_compact_uint_size value
  if 1 < len then Region.store buf index (compact_bytes value len) else return buf

/-- `decode_var_int`: the value, and the number of bytes. -/
def decode_var_int (data : Bytes) (p : Int) : BtcRun (Nat × Nat) := do
  let x ← Region.byte data p
  if x = 0xFD then
    let d ← Region.slice data (p + 1) 2
    return ((d.getD 1 0).toNat <<< 8 ||| (d.getD 0 0).toNat, 3)
  else if x = 0xFE then
    let val ← le_to_int data (p + 1)
    return (val, 5)
  else if x = 0xFF then
    let val ← le_to_long data (p + 1)
    return (val, 9)
  else return (x.toNat, 1)

/-! ## Block headers -/

inductive btc_block_field where
  | BTC_B_VERSION
  | BTC_B_PARENT_HASH
  | BTC_B_MERKLE_ROOT
  | BTC_B_TIMESTAMP
  | BTC_B_BITS
  | BTC_B_NONCE
  | BTC_B_HEADER
  deriving DecidableEq, Repr

/-- `btc_block_get`: the field of a header, which has 80 bytes. -/
def btc_block_get (block : Bytes) (field : btc_block_field) : Bytes :=
  match field with
  | .BTC_B_VERSION => block.take 4
  | .BTC_B_PARENT_HASH => (block.drop 4).take 32
  | .BTC_B_MERKLE_ROOT => (block.drop 36).take 32
  | .BTC_B_TIMESTAMP => (block.drop 68).take 4
  | .BTC_B_BITS => (block.drop 72).take 4
  | .BTC_B_NONCE => (block.drop 76).take 4
  | .BTC_B_HEADER => block.take 80

/-- `memset(tmp, 0, 32); memcpy(tmp + bits[3] - 3, bits, 3); rev_copy(target, tmp)`. -/
def target_from_bits (bits : Bytes) : BtcRun Bytes := do
  let tmp ← Region.store (List.replicate 32 0) ((bits.getD 3 0).toNat - 3) (bits.take 3)
  return rev_copy tmp

def btc_target_from_block (block : Bytes) : BtcRun Bytes := target_from_bits (btc_block_get block .BTC_B_BITS)

end In3.Btc
