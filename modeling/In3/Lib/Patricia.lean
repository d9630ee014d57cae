import In3.Lib.Hash
import In3.Lib.Rlp
/-!
# Merkle-Patricia tries

A trie maps nibble strings to byte strings. Every node is encoded as an RLP
item; a parent holds the encoding of a child itself when that is shorter than
32 bytes (an embedded child) and its hash otherwise. `nodes T k` lists the
encodings that stand on their own on the way from the root to `k`: what a
proof for `k` consists of.
-/

namespace Lib.Patricia

open Lib.Rlp

abbrev Nibble := Fin 16

inductive Trie where
  | empty
  | leaf (path : List Nibble) (value : Bytes)
  | ext (path : List Nibble) (child : Trie)
  | branch (child : Nibble → Trie) (value : Bytes)

namespace Trie

def isEmpty : Trie → Bool
  | .empty => true
  | _ => false

def isBranch : Trie → Bool
  | .branch _ _ => true
  | _ => false

/-- The value stored at a key. A branch without a value of its own has the
empty string in its value slot. -/
def get : Trie → List Nibble → Option Bytes
  | .empty, _ => none
  | .leaf p v, k => if k = p then some v else none
  | .ext p c, k => if p <+: k then get c (k.drop p.length) else none
  | .branch _ v, [] => if v = [] then none else some v
  | .branch ch _, n :: k => get (ch n) k

/-- The shape of a trie that was built from a finite map: stored values are not
empty, an extension is not empty and leads to a branch, and a branch has at
least two entries. -/
def Canonical : Trie → Prop
  | .empty => True
  | .leaf _ v => v ≠ []
  | .ext p c => p ≠ [] ∧ c.isBranch = true ∧ Canonical c
  | .branch ch v => (∀ i, Canonical (ch i)) ∧
      2 ≤ ((List.finRange 16).countP fun i => !(ch i).isEmpty) + if v = [] then 0 else 1

instance decCanonical : (t : Trie) → Decidable t.Canonical
  | .empty => isTrue trivial
  | .leaf _ v => inferInstanceAs (Decidable (v ≠ []))
  | .ext p c =>
    have := decCanonical c
    inferInstanceAs (Decidable (p ≠ [] ∧ c.isBranch = true ∧ Canonical c))
  | .branch ch v =>
    have := fun i => decCanonical (ch i)
    inferInstanceAs (Decidable ((∀ i, Canonical (ch i)) ∧
      2 ≤ ((List.finRange 16).countP fun i => !(ch i).isEmpty) + if v = [] then 0 else 1))

end Trie

/-! ## Encoding -/

def pack : List Nibble → Bytes
  | a :: b :: k => UInt8.ofNat (16 * a.val + b.val) :: pack k
  | _ => []

def kindNibble : Bool → Nat
  | true => 2
  | false => 0

/-- The hex-prefix spelling of a path: the first nibble holds the node kind and
the parity, an odd path puts its first nibble next to it. -/
def hexPrefix (leaf : Bool) (p : List Nibble) : Bytes :=
  if p.length % 2 = 1 then UInt8.ofNat (16 * (kindNibble leaf + 1) + (p.headD 0).val) :: pack p.tail
  else UInt8.ofNat (16 * kindNibble leaf) :: pack p

section Encoding
variable (H : Hash)

/-- How a node is referred to in its parent. -/
def ref (x : Item) : Item := if x.enc.length < 32 then x else str (H.fn x.enc)

def Trie.item : Trie → Item
  | .empty => str []
  | .leaf p v => list (encAll [str (hexPrefix true p), str v])
  | .ext p c => list (encAll [str (hexPrefix false p), ref H (item c)])
  | .branch ch v => list (encAll ((List.finRange 16).map (fun i => ref H (item (ch i))) ++ [str v]))

def Trie.enc (t : Trie) : Bytes := (t.item H).enc

def Trie.rootHash (t : Trie) : Bytes := H.fn (t.enc H)

/-- A child that its parent holds in full. -/
def Trie.embedded (t : Trie) : Prop := (t.enc H).length < 32

instance (t : Trie) : Decidable (t.embedded H) := inferInstanceAs (Decidable ((t.enc H).length < 32))

/-- The nodes below `t` on the way to `k` that stand on their own. -/
def Trie.under : Trie → List Nibble → List Bytes
  | .empty, _ => []
  | .leaf _ _, _ => []
  | .ext p c, k =>
    if p <+: k then (if c.embedded H then [] else [c.enc H]) ++ under c (k.drop p.length) else []
  | .branch _ _, [] => []
  | .branch ch _, n :: k => (if (ch n).embedded H then [] else [(ch n).enc H]) ++ under (ch n) k

/-- The node list for `k`: the root first, embedded nodes inside their parents. -/
def Trie.nodes (t : Trie) (k : List Nibble) : List Bytes := t.enc H :: t.under H k

/-- The number of nodes on the way to `k`, embedded ones included. An empty slot
is no node. -/
def Trie.levels : Trie → List Nibble → Nat
  | .empty, _ => 1
  | .leaf _ _, _ => 1
  | .ext p c, k => if p <+: k then 1 + levels c (k.drop p.length) else 1
  | .branch _ _, [] => 1
  | .branch ch _, n :: k => if (ch n).isEmpty then 1 else 1 + levels (ch n) k

end Encoding

/-! ## Facts about encodings -/

section
variable {H : Hash} {ch : Nibble → Trie} {k : List Nibble} {t : Trie} {v : Bytes}

variable {c : Trie} {n : Nibble} {p : List Nibble}

end

end Lib.Patricia
