import In3.Nano.MerkleWalk
/-!
# Paths of trie nodes (`basic/trie.c`)

`trie_node_value_from_nibbles` packs the nibbles of a path into bytes behind a nibble for the kind of the node and the
parity of the path. It writes what `hexPrefix` specifies, so `trie_path_to_nibbles` reads the path back.
-/
open Lib Lib.Patricia List

namespace In3

inductive trie_node_type_t where
  | NODE_EMPTY | NODE_BRANCH | NODE_LEAF | NODE_EXT
  deriving DecidableEq, Repr

def nibble_pairs : Bytes → Bytes
  | a :: b :: val => (a <<< 4 ||| b) :: nibble_pairs val
  | _ => []

/-- `trie_node_value_from_nibbles`, which writes nothing for the nodes without a path. -/
def trie_node_value_from_nibbles (type : trie_node_type_t) (val : Bytes) : Option Bytes :=
  if type = .NODE_BRANCH ∨ type = .NODE_EMPTY then none
  else
    let l := nibble_len val
    let odd := l % 2
    some (UInt8.ofNat (((if type = .NODE_EXT then 0 else 2) + odd) <<< 4 ||| if odd = 0 then 0 else (val.getD 0 0).toNat) ::
      nibble_pairs ((val.take l).drop odd))

def pathNode (leaf : Bool) : trie_node_type_t := if leaf then .NODE_LEAF else .NODE_EXT

theorem nb_pair : ∀ a b : Nibble, nb a <<< 4 ||| nb b = UInt8.ofNat (16 * a.val + b.val) := by decide

theorem nibble_pairs_map (p : List Nibble) : nibble_pairs (p.map nb) = pack p := by
  induction p using pack.induct with
  | case1 a b k ih => rw [map_cons, map_cons, nibble_pairs, pack, ih, nb_pair]
  | case2 p h =>
    rcases p with _ | ⟨a, _ | ⟨b, k⟩⟩
    · rfl
    · rfl
    · exact absurd rfl (h a b k)

theorem take_spell (p : List Nibble) : (spell p).take p.length = p.map nb := by
  rw [spell, take_left' (length_map nb)]

theorem node_value_eq (leaf : Bool) (p : List Nibble) :
    trie_node_value_from_nibbles (pathNode leaf) (spell p) = some (hexPrefix leaf p) := by
  have hkind : ¬ (pathNode leaf = .NODE_BRANCH ∨ pathNode leaf = .NODE_EMPTY) := by cases leaf <;> decide
  have hbits : (if pathNode leaf = .NODE_EXT then 0 else 2) = kindNibble leaf := by cases leaf <;> rfl
  rw [trie_node_value_from_nibbles, if_neg hkind, hbits, nibble_len_spell]
  dsimp only
  rw [take_spell, hexPrefix]
  rcases Nat.mod_two_eq_zero_or_one p.length with h | h
  · rw [h, if_pos rfl, drop_zero, nibble_pairs_map]
    cases leaf <;> rfl
  · match p with
    | a :: p =>
      have hfirst : ∀ (leaf : Bool) (a : Nibble),
          UInt8.ofNat ((kindNibble leaf + 1) <<< 4 ||| (nb a).toNat) = UInt8.ofNat (16 * (kindNibble leaf + 1) + a.val) := by
        decide
      rw [h, map_cons, drop_one, tail_cons, nibble_pairs_map]
      exact congrArg (fun x => some (x :: pack p)) (hfirst leaf a)

theorem parity_bit (leaf : Bool) (p : List Nibble) :
    ∃ m rest, hexPrefix leaf p = m :: rest ∧ (m &&& 32 ≠ 0 ↔ leaf = true) ∧ (m &&& 16 ≠ 0 ↔ p.length % 2 = 1) := by
  have hodd : ∀ (leaf : Bool) (a : Nibble), (UInt8.ofNat (16 * (kindNibble leaf + 1) + a.val) &&& 32 ≠ 0 ↔ leaf = true) ∧
      UInt8.ofNat (16 * (kindNibble leaf + 1) + a.val) &&& 16 ≠ 0 := by decide
  have heven : ∀ leaf : Bool, (UInt8.ofNat (16 * kindNibble leaf) &&& 32 ≠ 0 ↔ leaf = true) ∧
      ¬ UInt8.ofNat (16 * kindNibble leaf) &&& 16 ≠ 0 := by decide
  unfold hexPrefix
  split
  · next h => exact ⟨_, _, rfl, (hodd leaf _).1, iff_of_true (hodd leaf _).2 h⟩
  · next h => exact ⟨_, _, rfl, (heven leaf).1, iff_of_false (heven leaf).2 h⟩

/-- For every path and both kinds of nodes: reading the written path gives its nibbles and the terminator, and the first
byte tells the kind of the node and the parity of the path. -/
theorem path_round_trip (leaf : Bool) (p : List Nibble) :
    ∃ m rest, trie_node_value_from_nibbles (pathNode leaf) (spell p) = some (m :: rest) ∧
      trie_path_to_nibbles (m :: rest) true = spell p ∧
      (m &&& 32 ≠ 0 ↔ pathNode leaf = .NODE_LEAF) ∧ (m &&& 16 ≠ 0 ↔ p.length % 2 = 1) := by
  obtain ⟨m, rest, hpath, hleaf, hparity⟩ := parity_bit leaf p
  have hkind : pathNode leaf = .NODE_LEAF ↔ leaf = true := by cases leaf <;> decide
  exact ⟨m, rest, by rw [node_value_eq, hpath], by rw [← hpath, path_to_nibbles_hexPrefix], hleaf.trans hkind.symm, hparity⟩

end In3
