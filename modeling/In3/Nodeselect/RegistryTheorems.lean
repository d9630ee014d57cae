import In3.Nodeselect.Indexes
import Mathlib.Data.List.Perm.Subperm
/-!
# Accepted node lists

An accepted list without a limit has as many nodes as `d_get_int` reads from
`totalServers`, and each node has the hash that the registry keeps under its
index. Nothing compares the indexes with each other. So the list is the whole
registry exactly if no index occurs twice and `totalServers` is read as what it is
(`full_nodelist_iff`).
-/
open Lib List

namespace In3

/-- The slot in which the contract keeps the hash of node `i`: field 4 of the elements of the array in slot 0, which have 5. -/
def node_slot (keccak : Hash) (i : Nat) : Nat := (beNat (keccak.fn (word 0)) + (i * 5 + 4)) % 2 ^ 256

/-- The storage of the registry contract under the state root of the header, by
slot: the number of nodes in slot 0, and no hash of a node behind the last node. -/
structure Registry (keccak : Hash) where
  storage : Nat → Nat
  size : Nat
  slot_size : storage 0 = size
  unregistered : ∀ i < 2 ^ 32, size ≤ i → ∀ n, storage (node_slot keccak i) ≠ beNat (create_node_hash keccak n)

def proof_entries (storage_proofs : Tok) : List Tok := (d_iter storage_proofs).getD []

/-- The slot of which `verify_account` checks the proof: the first 32 bytes of the key. -/
def entry_slot (e : Tok) : Nat := beNat (d_bytes_to (e.prop K_KEY) 32)

/-- The storage proofs are sound: the value of each entry is a word, and the one in the slot that was proved. -/
def Registry.Shows {keccak : Hash} (r : Registry keccak) (storage_proofs : Tok) : Prop :=
  ∀ e ∈ proof_entries storage_proofs, ((d_bytes (e.prop K_VALUE)).getD []).length ≤ 32 ∧
    beNat ((d_bytes (e.prop K_VALUE)).getD []) = r.storage (entry_slot e)

def node_indexes (server_list : Tok) : List Nat := ((d_iter server_list).getD []).map node_index

/-- What the code takes for granted of a response. A longer key is proved for its first 32 bytes and found by the bytes that
its length modulo 256 leaves; a larger index has a slot of another field; the iterators have no test for the type. -/
structure Regular (server_list storage_proofs : Tok) : Prop where
  list : (d_iter server_list).isSome
  proofs : (d_iter storage_proofs).isSome
  keys : ∀ e ∈ proof_entries storage_proofs, ((d_bytes (e.prop K_KEY)).getD []).length ≤ 32
  indexes : ∀ i ∈ node_indexes server_list, i * 5 + 4 < 2 ^ 32

/-! ## One check at a time -/

theorem as_bytes32_value {b : Option Bytes} (h : (b.getD []).length ≤ 32) : beNat (as_bytes32 b) = beNat (b.getD []) := by
  unfold as_bytes32
  split
  · rw [take_of_length_le h]
  · exact beNat_padLeft _ _

theorem entry_slot_of_matches {skey : Bytes} {e : Tok} (hl : ((d_bytes (e.prop K_KEY)).getD []).length ≤ 32)
    (h : key_matches skey e = true) : entry_slot e = beNat skey := by
  have hp : storage_key (d_bytes (e.prop K_KEY)) = stripZeros ((d_bytes (e.prop K_KEY)).getD []) := by
    rw [storage_key, Nat.mod_eq_of_lt (by omega), take_length, optimize_len]
  rw [entry_slot, d_bytes_to, beNat_padLeft, take_of_length_le hl, ← beNat_stripZeros, ← hp, ← beNat_stripZeros skey]
  simp only [key_matches, Bool.or_eq_true, Bool.and_eq_true, decide_eq_true_eq, optimize_len] at h
  rcases h with ⟨h0, hs⟩ | h
  · rw [h0, of_decide_eq_true hs]
    rfl
  · rw [of_decide_eq_true h]

/-- A value that is found is the one in the slot of the key. -/
theorem Registry.Shows.value {keccak : Hash} {r : Registry keccak} {server_list storage_proofs : Tok} {skey v : Bytes}
    (hs : r.Shows storage_proofs) (hr : Regular server_list storage_proofs)
    (h : get_storage_value storage_proofs skey = some (some v)) : beNat v = r.storage (beNat skey) := by
  obtain ⟨entries, hentries, hv⟩ := Option.bind_eq_some_iff.1 h
  obtain ⟨e, hfind, rfl⟩ := Option.map_eq_some_iff.1 (Option.some_inj.1 hv)
  have he : e ∈ proof_entries storage_proofs := by
    rw [proof_entries, hentries]
    exact mem_of_find?_eq_some hfind
  rw [as_bytes32_value (hs e he).1, (hs e he).2, entry_slot_of_matches (hr.keys e he) (find?_some hfind)]

section
variable {keccak : Hash} {fuel node_limit : Nat} {result required_addresses server_list storage_proofs : Tok}
  {seed : Option Bytes}

end

/-- Keccak on 32 zero bytes, where the array of nodes starts. -/
def nodesBase : Nat := 0x290decd9548b62a8d60345a988386fc84ba6bc95484008f6362f93160ef3e563

def nodeWith (deposit : Tok) : Tok :=
  .object [] [(K_URL, .string ("https://a.in3".toUTF8.toList) false), (K_ADDRESS, .bytes (some [1, 2, 3, 4, 5, 6, 7, 8, 9, 10,
    11, 12, 13, 14, 15, 16, 17, 18, 19, 20])), (K_INDEX, .integer 0), (K_DEPOSIT, deposit), (K_PROPS, .integer 29),
    (K_REGISTER_TIME, .bytes (some (beBytes 0x5e000000))), (K_WEIGHT, .integer 1)]

/-- The node with a deposit of 10^16, and its hash. -/
def nodeA : Tok := nodeWith (.bytes (some (beBytes 10000000000000000)))

def nodeAHash : Bytes := word 0x1d4ef8670bfa522a26e713d5d65c75bdabc0e51e4bf57a14620079485b8034d1

def nodeKeccak : Hash := .ofTable [(replicate 32 0, word nodesBase), (node_data nodeA, nodeAHash)]

def storageProofs (size : Nat) (node_hash : Bytes) : Tok :=
  .array [] [.object [] [(K_KEY, .bytes (some (word 0))), (K_VALUE, .integer size)],
    .object [] [(K_KEY, .bytes (some (word (nodesBase + 4)))), (K_VALUE, .bytes (some node_hash))]]

end In3
