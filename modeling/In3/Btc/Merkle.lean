import In3.Btc.Serialize
import In3.Evm.Big
/-!
# The Merkle tree of a block (`verifier/btc/btc_merkle.c`)

The root of the transaction hashes is computed in place, in a buffer with one slot of 32 bytes for each
hash; the buffer is modelled as the list of its slots. A proof is a byte string from which the
verification takes 32 bytes after the other until its length is used up.
-/
open Lib

namespace In3.Btc
open Evm (memcmp)

/-- One round of the loop in `create_parent_hashes`: slot `i` from its children. -/
def parent_round (H : Hash) (hashes_len : Nat) (hashes : List Bytes) (i : Nat) : List Bytes :=
  hashes.set i (H.fn (hashes.getD (2 * i) [] ++ hashes.getD (if 2 * i + 1 = hashes_len then 2 * i else 2 * i + 1) []))

/-- `create_parent_hashes`; `j` is an `int` that ends with 64 for each round. -/
def create_parent_hashes (H : Hash) : Nat → List Bytes → Nat → BtcRun (List Bytes)
  | 0, _, _ => Guarded.fault .overflow
  | fuel + 1, hashes, hashes_len => do
    let res_count := (hashes_len + 1) / 2
    Guarded.guard (64 * res_count < 2 ^ 31) .overflow
    let hashes := (List.range res_count).foldl (parent_round H hashes_len) hashes
    if 1 < res_count then create_parent_hashes H fuel hashes res_count else return hashes

/-- `btc_merkle_create_root`; the size of the buffer is an `int`. -/
def btc_merkle_create_root (H : Hash) (hashes : List Bytes) : BtcRun Bytes := do
  Guarded.guard (32 * hashes.length < 2 ^ 31) .overflow
  if hashes.length = 0 then return List.replicate 32 0
  else
    let tmp ← create_parent_hashes H hashes.length (hashes.map rev_copy) hashes.length
    return rev_copy (tmp.getD 0 [])

/-- The loop of `btc_merkle_verify_proof` at the offset `p`: it ends when nothing is left, or with a hash that matches. -/
def verify_loop (H : Hash) (target proof : Bytes) : Nat → Nat → Int → Bytes → BtcRun Bool
  | 0, _, _, _ => Guarded.fault .overflow
  | fuel + 1, p, index, hash =>
    if p = proof.length then return memcmp target hash = 0
    else if memcmp target hash = 0 then return true
    else do
      let next ← Region.slice proof p 32
      verify_loop H target proof fuel (p + 32) (index / 2) (H.fn (if index % 2 = 1 then next ++ hash else hash ++ next))

/-- `btc_merkle_verify_proof`; the index is an `int`, and its bits are those of the two's complement. -/
def btc_merkle_verify_proof (H : Hash) (target proof : Bytes) (index : Int) (start_hash : Bytes) : BtcRun Bool :=
  verify_loop H target proof (proof.length / 32 + 2) 0 index (rev_copy start_hash)

end In3.Btc
