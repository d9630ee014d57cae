import In3.Nano.Rlp
import In3.Lib.Patricia
/-!
# Merkle proofs (`nano/merkle.c`)

`check_node` and `trie_verify_proof` walk a list of proof nodes along a key.
Both return `none` where the C code goes on with a value it must not read: a
byte behind the end of a node or of the nibble string, a range that leaves its
node, or the pointer behind the local variable `key`. Otherwise `some none`
stands for the return value 0 and `some (some w)` for 1.

An embedded node is a range of its parent's bytes, so more bytes of the same proof node may stand behind it.
`check_node` gets them too: the range of a child in slot 0 starts behind the branch, where it has a length of
nearly `2 ^ 32`, and the first item there is checked in place of the child.
-/
open Lib Lib.Patricia

namespace In3

def MERKLE_DEPTH_MAX : Nat := 64

def nibble_len : Bytes → Nat
  | [] => 0
  | a :: as => if a = 0xFF then 0 else nibble_len as + 1

def trie_matching_nibbles : Bytes → Bytes → Nat
  | a :: as, b :: bs => if a = 0xff ∨ b = 0xff ∨ a ≠ b then 0 else trie_matching_nibbles as bs + 1
  | _, _ => 0

def nibbles (x : UInt8) : Bytes := [x >>> 4, x &&& 0x0F]

/-- `trie_path_to_nibbles`. With `use_prefix` the first byte is the node's
marker: its upper nibble is dropped, and the lower one too unless the marker is odd. -/
def trie_path_to_nibbles (path : Bytes) ( use_prefix : Bool) : Bytes :=
  match path with
  | [] => [0xFF]
  | x :: rest =>
    (if use_prefix then (if x >>> 4 &&& 1 = 1 then [x &&& 0x0F] else []) else nibbles x)
      ++ rest.flatMap nibbles ++ [0xFF]

/-- What `check_node` changes through its pointers: the position of `*key` in the
nibble string, `last_value` (`none` while its data pointer is `NULL`),
`next_hash` and `depth`. -/
structure Walk where
  key : Nat
  last_value : Option Bytes
  next_hash : Bytes
  depth : Nat
  deriving DecidableEq, Repr

/-- `memcpy(next_hash, val.data, (val.len >= 32) ? 32 : val.len)`. -/
def copy_hash (next_hash val : Bytes) : Bytes := val.take 32 ++ next_hash.drop (min 32 val.length)

/-- `case 17` of `check_node`, with the bytes behind the node; `check` stands for the recursive call. -/
def check_branch (nib : Bytes) (check : Bytes → Bytes → Bool → Walk → Option (Option Walk)) (node behind : Bytes)
    (is_last_node : Bool) (w : Walk) : Option (Option Walk) := do
  let k : UInt8 ← nib[w.key]?
  if k = 0xFF then
    if is_last_node = false then some none
    else do
      let (r, v) ← rlp_decode_self node 16
      if r ≠ 1 then some none
      else do
        let v ← v
        some (some { w with last_value := some v })
  else do
    let (r, d) ← rlp_decode node k.toNat
    let d ← d
    if r = 2 then do
      -- the end of the item before this one; for nibble 0 nothing is written to `node`
      let (_, prev) ← rlp_decode node ((k.toNat : Int) - 1)
      let start := match prev with
        | some (s, l) => s + l
        | none => node.length
      let next : UInt8 ← nib[w.key + 2]?
      let w := { w with key := w.key + 1 }
      if d.1 + d.2 < start then check ((node ++ behind).drop start) [] (next = 0xFF) w
      else do
        let child ← sub node (start, d.1 + d.2 - start)
        check child ((node ++ behind).drop (d.1 + d.2)) (next = 0xFF) w
    else if d.2 ≠ 32 then some (some { w with key := w.key + 1, next_hash := List.replicate 32 0 })
    else do
      let val ← sub node d
      some (some { w with key := w.key + 1, next_hash := val })

/-- `case 2` of `check_node`: a leaf or an extension. -/
def check_pair (nib : Bytes) (isNull : Bool) (node : Bytes) (is_last_node : Bool) (w : Walk) :
    Option (Option Walk) := do
  let (r, val) ← rlp_decode_to node 0 none
  if r ≠ 1 then some none
  else do
    let val ← val
    let path_nibbles := trie_path_to_nibbles val true
    let matching := trie_matching_nibbles path_nibbles (nib.drop w.key)
    let node_path_len := nibble_len path_nibbles
    let marker : UInt8 ← val[0]?
    let is_leaf : Bool := marker &&& 32 ≠ 0
    if node_path_len ≠ matching then some (if isNull && is_last_node then some w else none)
    else do
      let w := { w with key := w.key + node_path_len }
      let (r, val) ← rlp_decode_to node 1 none
      -- an embedded node: its last-flag is read from behind the variable `key`
      if r = 2 then none
      else do
        let val ← val
        let k : UInt8 ← nib[w.key]?
        if k = 0xFF ∧ is_last_node = false then some none
        else if k = 0xFF ∧ isNull = true ∧ is_leaf = true then some none
        else if k ≠ 0xFF ∧ is_leaf = true ∧ isNull = false then some none
        else some (some { w with last_value := some val, next_hash := copy_hash w.next_hash val })

/-- `check_node` on the first item of `raw_node`, for the nibble string `nib` of the key;
`isNull` says that `expectedValue == NULL`. The depth check bounds the recursion. -/
def check_node (nib : Bytes) (isNull : Bool) : Nat → Bytes → Bytes → Bool → Walk → Option (Option Walk)
  | 0, _, _, _, _ => none
  | fuel + 1, raw_node, behind, is_last_node, w =>
    let w := { w with depth := w.depth + 1 }
    if w.depth > MERKLE_DEPTH_MAX then some none
    else do
      let (_, d) ← rlp_decode raw_node 0
      let d ← d
      let node ← sub raw_node d
      let len ← rlp_decode_len node
      if len = 17 then
        check_branch nib (check_node nib isNull fuel) node (raw_node.drop (d.1 + d.2) ++ behind) is_last_node w
      else if len = 2 then check_pair nib isNull node is_last_node w
      else some (if isNull && is_last_node then some w else none)

/-- The loop of `trie_verify_proof`. `expected_hash` is the walk's `next_hash`. -/
def verify_nodes (H : Hash) (nib : Bytes) (isNull : Bool) : List Bytes → Walk → Option (Option Walk)
  | [], w => some (some w)
  | node :: proof, w =>
    if H.fn node ≠ w.next_hash then some none
    else do
      match ← check_node nib isNull (MERKLE_DEPTH_MAX + 1) node [] proof.isEmpty w with
      | none => some none
      | some w => verify_nodes H nib isNull proof w

/-- The parameter `expectedValue`: `NULL`, bytes to compare with, or a `bytes_t`
without data that is to be filled. -/
inductive Expected where
  | null
  | given (e : Bytes)
  | fill
  deriving DecidableEq, Repr

/-- `trie_verify_proof`: the result and the data of `expectedValue` afterwards. -/
def trie_verify_proof (H : Hash) (rootHash path : Bytes) (proof : List Bytes) (expected : Expected) :
    Option (Bool × Option Bytes) := do
  let nib := trie_path_to_nibbles path false
  match ← verify_nodes H nib (expected = .null) proof ⟨0, none, rootHash, 0⟩ with
  | none => some (false, match expected with | .given e => some e | _ => none)
  | some w =>
    match expected with
    | .null => some (true, none)
    | .fill => some (true, w.last_value)
    | .given e => some (w.last_value.isSome && b_cmp (some e) w.last_value, some e)

end In3
