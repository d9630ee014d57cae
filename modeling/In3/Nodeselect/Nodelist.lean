import In3.Nodeselect.Registry
/-!
# Storing a node list (`nodeselect/full/nodelist.c`)

`fill_chain` reads the nodes of a verified response into the client. It sees the
tokens as the verification left them: `after_verification` gives the response
with the conversions that `verify_account` and `verify_nodelist_data` made in the
properties that `fill_chain` reads.

`uint_fast16_t` has 64 bits. The fields `blocked` and `attrs` of a node are zero
in every new list and are left out.
-/
open Lib

namespace In3

def K_NODES := key "nodes"
def K_LAST_BLOCK_NUMBER := key "lastBlockNumber"
def K_CAPACITY := key "capacity"
def K_PERFORMANCE := key "performance"
def K_LAST_FAILED := key "last_failed"
def K_COUNT := key "count"
def K_TOTAL := key "total"

def DAY : Nat := 24 * 3600

/-- `in3_node_t`. -/
structure Node where
  address : Bytes
  index : Nat
  capacity : Nat
  deposit : Nat
  props : Nat
  url : Bytes
  deriving DecidableEq, Repr

/-- `in3_node_weight_t`. -/
structure NodeWeight where
  response_count : Nat := 0
  total_response_time : Nat := 0
  blacklisted_until : Nat := 0
  deriving DecidableEq, Repr

/-- The part of `in3_nodeselect_def_t` that holds the list. -/
structure NodeselectDef where
  last_block : Nat
  nodelist : List Node
  weights : List NodeWeight
  dirty : Bool
  deriving DecidableEq, Repr

/-- The clock, and `FLAGS_BOOT_WEIGHTS` of the client. -/
structure Env where
  now : Nat
  boot_weights : Bool

section
variable (env : Env) (data : NodeselectDef)

def boot_weight (node : Tok) : NodeWeight :=
  match env.boot_weights, d_get node K_PERFORMANCE with
  | true, some t =>
    { response_count := toUInt32 (d_int (t.prop K_COUNT))
      total_response_time := toUInt32 (d_int (t.prop K_TOTAL))
      blacklisted_until := (d_long (t.prop K_LAST_FAILED) / 1000 + 24 * 3600) % 2 ^ 64 }
  | _, _ => {}

/-- Where the old list has the address: at `i`, or else at its first place. -/
def old_index (i : Nat) (address : Bytes) : Option Nat :=
  if (data.nodelist[i]?).map Node.address = some address then some i
  else data.nodelist.findIdx? fun n => n.address = address

def node_weight (i : Nat) (address : Bytes) (node : Tok) : NodeWeight :=
  let w := match old_index data i address with
    | some j => data.weights.getD j {}
    | none => boot_weight env node
  let register_time := d_long (node.prop K_REGISTER_TIME)
  -- a node that was registered less than a day ago is not used yet
  if env.now ≠ 0 ∧ env.now < (register_time + DAY) % 2 ^ 64 ∧ register_time < env.now then
    { w with blacklisted_until := (register_time + DAY) % 2 ^ 64 }
  else w

/-- The address of a node, if it has 20 bytes. -/
def node_address (node : Tok) : Option Bytes := (d_bytesl (node.prop K_ADDRESS) 20).filter fun b => b.length = 20

/-- One round of the loop of `fill_chain`. Without an address the loop is left while the url is the one of the token, and
`free_nodeList` frees what the token still owns. -/
def fill_node (i : Nat) (node : Tok) : Run String (Node × NodeWeight) :=
  match node_address node, d_string (node.prop K_URL) with
  | some address, some url =>
    pure ({ address
            index := (d_intd (node.prop K_INDEX) i % 2 ^ 64).toNat
            capacity := (d_intd (node.prop K_CAPACITY) 1 % 2 ^ 64).toNat
            deposit := d_long (node.prop K_DEPOSIT)
            props := d_longd (node.prop K_PROPS) 65535
            url }, node_weight env data i address node)
  | some _, none => throw "missing url in nodelist"
  | none, none => throw "missing address in nodelist"
  | none, some _ => Run.undefined

def fill_nodes : Nat → List Tok → Run String (List (Node × NodeWeight))
  | _, [] => pure []
  | i, node :: nodes => do
    let n ← fill_node env data i node
    let ns ← fill_nodes (i + 1) nodes
    pure (n :: ns)

/-- `fill_chain`, with the list behind it. -/
def fill_chain (result : Tok) : Option (Except String Unit × NodeselectDef) :=
  match result.prop K_NODES with
  | .array _ nodes =>
    match d_get result K_LAST_BLOCK_NUMBER with
    | none => some (.error "LastBlockNumer is missing", data)
    | some t =>
      let last_block := d_long t
      if data.last_block < last_block then
        (fill_nodes env data 0 nodes).run.map fun r => match r with
          | .ok list =>
            (.ok (), { last_block, nodelist := list.map Prod.fst, weights := list.map Prod.snd, dirty := true })
          | .error e => (.error e, { data with last_block, dirty := true })
      else some (.ok (), data)
  | _ => some (.error "No Nodes in the result", data)

end

/-- A node after `verify_nodelist_data` read it. -/
def verified_node (t : Tok) : Tok := create_node_hash_st (t.upd K_INDEX d_long_st)

def verified_nodes : Tok → Tok
  | .array text nodes => .array text (nodes.map verified_node)
  | t => t

def after_verification (result : Tok) : Tok :=
  (result.upd K_LAST_BLOCK_NUMBER d_long_st).upd K_NODES verified_nodes

/-! ## What the loop stores -/

theorem fill_nodes_cons {env : Env} {data : NodeselectDef} {i : Nat} {node : Tok} {nodes : List Tok}
    {list : List (Node × NodeWeight)} :
    (fill_nodes env data i (node :: nodes)).ok list ↔
      ∃ n ns, (fill_node env data i node).ok n ∧ (fill_nodes env data (i + 1) nodes).ok ns ∧ list = n :: ns := by
  simp only [fill_nodes, Run.ok_bind, Run.ok_pure, exists_and_left, eq_comm]

theorem fill_nodes_get {env : Env} {data : NodeselectDef} {nodes : List Tok} {i j : Nat} {list : List (Node × NodeWeight)}
    {t : Tok} {x : Node × NodeWeight} (h : (fill_nodes env data i nodes).ok list) (ht : nodes[j]? = some t)
    (hx : list[j]? = some x) : (fill_node env data (i + j) t).ok x := by
  induction nodes generalizing i j list with
  | nil => simp at ht
  | cons node nodes ih =>
    obtain ⟨n, ns, hn, hns, rfl⟩ := fill_nodes_cons.1 h
    cases j with
    | zero =>
      simp only [List.getElem?_cons_zero, Option.some.injEq] at ht hx
      rw [← ht, ← hx]
      exact hn
    | succ j =>
      have hj := ih hns (by simpa using ht) (by simpa using hx)
      rwa [show i + (j + 1) = i + 1 + j by omega]

/-- What is stored for an entry. -/
theorem fill_node_ok {env : Env} {data : NodeselectDef} {i : Nat} {t : Tok} {n : Node} {w : NodeWeight}
    (h : (fill_node env data i t).ok (n, w)) :
    d_bytesl (t.prop K_ADDRESS) 20 = some n.address ∧ n.address.length = 20 ∧ d_string (t.prop K_URL) = some n.url ∧
      n.deposit = d_long (t.prop K_DEPOSIT) ∧ n.props = d_longd (t.prop K_PROPS) 65535 ∧
      w = node_weight env data i n.address t := by
  unfold fill_node at h
  split at h
  case h_1 address url ha hu =>
    obtain ⟨ha, hlen⟩ := Option.filter_eq_some_iff.1 ha
    obtain ⟨rfl, rfl⟩ := Prod.mk.inj (Run.ok_pure.1 h)
    exact ⟨ha, of_decide_eq_true hlen, hu, rfl, rfl, rfl⟩
  case h_2 => exact absurd h Run.ok_throw
  case h_3 => exact absurd h Run.ok_throw
  case h_4 => exact absurd h Run.ok_undefined

theorem prop_verified_node {k : Nat} (hk : k ∈ hashed_fields) (t : Tok) :
    (verified_node t).prop k = d_bytes_st (t.prop k) := by
  have hidx : k ≠ K_INDEX := by
    intro e
    rw [e] at hk
    revert hk
    decide
  unfold verified_node create_node_hash_st
  rw [prop_upds rfl _ (by decide), if_pos hk, prop_upd rfl, if_neg hidx]

end In3
