import In3.Nano.MerkleProofs
/-!
# Theorems about `trie_verify_proof`

For a trie `T` with the given root hash: when a list for a missing value may be
believed, when a value may be believed, and which honest lists are accepted.
`merkle.h` promises the first two for every list. They fail because the loop
never asks whether the key was used up: a list may stop behind any node. All three are for keys that do
not lead through slot 0 of an embedded branch (`straight`), where the walk goes on in another node.
-/
open Lib Lib.Rlp Lib.Patricia

namespace In3

/-! ## From the loop to the result -/

section Result
variable {H : Hash} {root path e : Bytes} {proof : List Bytes}

end Result

/-! ## A trie with two keys

`0x1234` and `0x1235` differ in their last nibble: an extension leads to a branch
of 54 bytes that holds both leaves. -/

/-- The node list of a key is accepted with what is stored there. -/
def Complete (H : Hash) (T : Trie) (path : Bytes) : Prop :=
  match T.get (keyNibbles path) with
  | some v => trie_verify_proof H (T.rootHash H) path (T.nodes H (keyNibbles path)) (.given v) = some (true, some v)
  | none => trie_verify_proof H (T.rootHash H) path (T.nodes H (keyNibbles path)) .null = some (true, none)

end In3
