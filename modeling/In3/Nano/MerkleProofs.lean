import In3.Nano.MerkleWalk
/-!
# Which proof lists are accepted

A list of proof nodes is checked against a trie with the given root hash. As
long as no listed node collides with a node of the trie, the list is accepted
only while it follows the node list of the key (`verify_nodes_cons`). What is
left is where it may stop: the loop ends with the list, and only some nodes ask
whether they are the last one.
-/
open Lib Lib.Rlp Lib.Patricia List

namespace In3

/-! ## One node of the list -/

section Visit
variable {H : Hash} {isNull last : Bool} {k : List Nibble} {w u : Walk} {c : Trie} {p : List Nibble}

variable {ch : Nibble → Trie} {v : Bytes} {n : Nibble}

end Visit

/-- The loop of `trie_verify_proof` stands before node `t`, with the rest `k` of the key. -/
structure At (H : Hash) (K : List Nibble) (t : Trie) (k : List Nibble) (w : Walk) : Prop where
  next : w.next_hash = H.fn (t.enc H)
  key : w.key ≤ K.length
  rest : K.drop w.key = k
  depth : w.depth ≤ MERKLE_DEPTH_MAX
  straight : straight H false t k = true

section Run
variable {H : Hash} {K : List Nibble} {isNull : Bool}

theorem At.start {T : Trie} {K : List Nibble} (hs : In3.straight H false T K = true) :
    At H K T K ⟨0, none, T.rootHash H, 0⟩ :=
  ⟨rfl, Nat.zero_le _, rfl, Nat.zero_le _, hs⟩

variable {R : List Bytes} {k : List Nibble} {nib : Bytes} {t : Trie} {u w : Walk}

theorem copy_hash_digest {old d : Bytes} (ho : old.length = 32) (hd : d.length = 32) : copy_hash old d = d := by
  simp [copy_hash, hd, take_of_length_le, ho]

theorem At.past {p : List Nibble} {c : Trie} (h : At H K (.ext p c) k w) (hp : p <+: k)
    (hd : w.depth < MERKLE_DEPTH_MAX) :
    At H K c (k.drop p.length) (Walk.past { w with depth := w.depth + 1 } p.length (H.fn (c.enc H))) := by
  have hlen := hp.length_le
  have hk := congrArg List.length h.rest
  rw [length_drop] at hk
  have := h.key
  refine ⟨?_, ?_, ?_, hd, by simpa [In3.straight, hp] using h.straight⟩
  · exact copy_hash_digest (by rw [h.next]; exact H.len _) (H.len _)
  · simp only [Walk.past]; omega
  · simp only [Walk.past]
    rw [← drop_drop, h.rest]

theorem At.down {ch : Nibble → Trie} {v : Bytes} {n : Nibble}
    (h : At H K (.branch ch v) (n :: k) w) (hc : ¬ (ch n).embedded H) (hd : w.depth < MERKLE_DEPTH_MAX) :
    At H K (ch n) k (Walk.down { w with depth := w.depth + 1 } (H.fn ((ch n).enc H))) := by
  have hk := congrArg List.length h.rest
  simp only [length_drop, length_cons] at hk
  refine ⟨rfl, ?_, ?_, hd, by simpa [In3.straight, hc] using h.straight⟩
  · simp only [Walk.down]; omega
  · simp only [Walk.down]
    rw [← drop_drop, h.rest, drop_one, tail_cons]

section Down
variable {k : List Nibble} {w u : Walk} {n : Bytes} {R : List Bytes}

end Down

end Run

/-! ## Lists for a missing value -/

/-- The key ends in the value slot of a branch, all nodes on the way stand on
their own, and no extension uses up the key before that branch. -/
def slotEnd (H : Hash) : Trie → List Nibble → Prop
  | .branch _ _, [] => True
  | .branch ch _, n :: k => ¬ (ch n).embedded H ∧ slotEnd H (ch n) k
  | .ext p c, k => p <+: k ∧ k.length ≠ p.length ∧ ¬ c.embedded H ∧ slotEnd H c (k.drop p.length)
  | .leaf _ _, _ => False
  | .empty, _ => False

section Exclusion
variable {H : Hash} {K : List Nibble} {k : List Nibble} {t : Trie}

section Steps
variable {c : Trie} {k' p : List Nibble} {d : Nat} {n : Bytes} {R : List Bytes}

end Steps

end Exclusion

/-! ## Lists for a value -/

/-- What the first `n` nodes of the list leave in `last_value` before the key
ends: the digest in the last extension among them. -/
def lastRef (H : Hash) : Trie → List Nibble → Nat → Option Bytes
  | .ext p c, k, n + 1 => if p <+: k then (lastRef H c (k.drop p.length) n).or (some (H.fn (c.enc H))) else none
  | .branch ch _, i :: k, n + 1 => lastRef H (ch i) k n
  | _, _, _ => none

/-- The key leads to a slot of a branch that has no child. -/
def leaves (H : Hash) : Trie → List Nibble → Prop
  | .branch ch _, i :: k => (ch i).isEmpty = true ∨ ((ch i).embedded H → i ≠ 0 ∧ k ≠ []) ∧ leaves H (ch i) k
  | .ext p c, k => p <+: k ∧ ¬ c.embedded H ∧ leaves H c (k.drop p.length)
  | .branch _ _, [] => False
  | .leaf _ _, _ => False
  | .empty, _ => False

/-- A list `P` that gives `e`, although it does not lead to a value: it breaks off
behind an extension, or it ends with a slot without a child, and `e` is the digest
of a node; or it ends in the empty value slot of a branch. -/
inductive Misread (H : Hash) (t : Trie) (k : List Nibble) (depth : Nat) (last_value : Option Bytes) (P : List Bytes)
    (e : Bytes) : Prop where
  | cut (h : P <+: t.nodes H k) (hne : P ≠ t.nodes H k) (hd : depth + P.length ≤ MERKLE_DEPTH_MAX)
      (he : (lastRef H t k P.length).or last_value = some e)
  | left (h : P = t.nodes H k) (hl : leaves H t k) (hd : depth + t.levels k ≤ MERKLE_DEPTH_MAX)
      (he : (lastRef H t k P.length).or last_value = some e)
  | slot (h : P = t.nodes H k) (hs : slotEnd H t k) (hg : t.get k = none) (hd : depth + P.length ≤ MERKLE_DEPTH_MAX)
      (he : e = [])

section Inclusion
variable {H : Hash} {K : List Nibble}

@[simp] theorem lastRef_zero (t : Trie) (k : List Nibble) : lastRef H t k 0 = none := by
  cases t <;> cases k <;> rfl

variable {e : Bytes} {k : List Nibble} {t : Trie} {w : Walk}

section Steps
variable {t : Trie} {k : List Nibble} {d : Nat} {lv : Option Bytes} {e n : Bytes} {R : List Bytes}

end Steps

/-- The list gives `e`. -/
def Gives (H : Hash) (K : List Nibble) (P : List Bytes) (w : Walk) (e : Bytes) : Prop :=
  ∃ u, verify_nodes H (spell K) false P w = some (some u) ∧ u.last_value = some e

section Cases
variable {n : Bytes} {R : List Bytes} (hn : n.length < 2 ^ 31)
include hn

section Ext
variable {p : List Nibble} {c : Trie} (ht : (Trie.ext p c).Canonical) (hat : At H K (.ext p c) k w)
  (hcol : NoCollision H (n :: R) ((Trie.ext p c).nodes H k))
include ht hat hcol

end Ext

section Branch
variable {ch : Nibble → Trie} {v : Bytes} {i : Nibble} (ht : (Trie.branch ch v).Canonical)
include ht

variable (hat : At H K (.branch ch v) (i :: k) w) (hcol : NoCollision H (n :: R) ((Trie.branch ch v).nodes H (i :: k)))
include hat hcol

end Branch

end Cases

end Inclusion

/-! ## The node list of a key -/

/-- The node list of the key is accepted inside an embedded node: every step to a
child leaves slot 0 and the end of the key aside, and the node at the end is
reached with one nibble left, unless it is a leaf on the way to the key. -/
def fineIn : Trie → List Nibble → Prop
  | .branch ch _, i :: k => (ch i).isEmpty = true ∨ (i ≠ 0 ∧ k ≠ []) ∧ fineIn (ch i) k
  | .branch _ _, [] => True
  | .leaf p _, k => (p <+: k ∧ k.length ≠ p.length) ∨ k.length = 1
  | .ext p _, k => ¬ p <+: k ∧ k.length = 1
  | .empty, _ => True

/-- The same from a node that stands on its own. -/
def fine (H : Hash) : Trie → List Nibble → Prop
  | .branch ch _, i :: k =>
    (ch i).isEmpty = true ∨ if (ch i).embedded H then (i ≠ 0 ∧ k ≠ []) ∧ fineIn (ch i) k else fine H (ch i) k
  | .branch _ _, [] => True
  | .leaf _ _, _ => True
  | .ext p c, k => p <+: k → ¬ c.embedded H ∧ k.length ≠ p.length ∧ fine H c (k.drop p.length)
  | .empty, _ => True

section Complete
variable {H : Hash} {K : List Nibble}

variable {k : List Nibble} {t : Trie} {w : Walk}

end Complete

end In3
