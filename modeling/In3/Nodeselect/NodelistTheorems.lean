import In3.Nodeselect.Nodelist
import In3.Nodeselect.RegistryTheorems
import Mathlib.Data.List.TakeWhile
/-!
# Stored nodes and hashed nodes

A field of a node is read twice: by `create_node_hash`, which packs its bytes into
a fixed width and drops what is too long, and by `fill_chain`, which reads
numbers and text. Here we say for which tokens the two readings agree
(`stored_node_iff`).
-/
open Lib List

namespace In3

/-! ## Numbers -/

/-- The tokens from which `d_longd` reads the low 64 bits of what is packed into `w`
bytes: bytes that fit or end in 64 zero bits, numbers, and otherwise only where the
default or the decimal value of the text happens to be the packed number. -/
def LongAgrees (w def_val : Nat) : Tok → Prop
  | .bytes d => (d.getD []).length ≤ w ∨ bytes_to_long (d.getD []) = 0
  | .string s converted =>
    if !converted && is_hex s then (hex_to_bytes (s.drop 2)).length ≤ w ∨ bytes_to_long (hex_to_bytes (s.drop 2)) = 0
    else strtoull s = bytes_to_long (packed w (some s))
  | .integer _ => True
  | .boolean v => v.toNat = def_val
  | _ => def_val = 0

instance (w def_val : Nat) : DecidablePred (LongAgrees w def_val)
  | .bytes d => inferInstanceAs (Decidable ((d.getD []).length ≤ w ∨ bytes_to_long (d.getD []) = 0))
  | .string s converted => inferInstanceAs (Decidable (if !converted && is_hex s then
      (hex_to_bytes (s.drop 2)).length ≤ w ∨ bytes_to_long (hex_to_bytes (s.drop 2)) = 0
    else strtoull s = bytes_to_long (packed w (some s))))
  | .integer _ => isTrue trivial
  | .boolean v => inferInstanceAs (Decidable (v.toNat = def_val))
  | .array _ _ => inferInstanceAs (Decidable (def_val = 0))
  | .object _ _ => inferInstanceAs (Decidable (def_val = 0))
  | .null => inferInstanceAs (Decidable (def_val = 0))

theorem length_packed (w : Nat) (val : Option Bytes) : (packed w val).length = w := by
  unfold packed
  cases val with
  | none => simp
  | some b =>
    dsimp only
    split
    · exact length_padLeft (by assumption)
    · simp

theorem bytes_to_long_zeros (w : Nat) : bytes_to_long (List.replicate w 0) = 0 := by
  rw [bytes_to_long_eq, beNat_replicate_zero, Nat.zero_mod]

variable {b : Bytes} {data : NodeselectDef} {env : Env} {n : Node} {result t : Tok} {w : Nat}

theorem bytes_to_long_packed (h : b.length ≤ w) :
    bytes_to_long (packed w (some b)) = bytes_to_long b := by
  simp [packed, h, bytes_to_long_eq]

theorem bytes_agree (w : Nat) (b : Bytes) :
    bytes_to_long b = bytes_to_long (packed w (some b)) ↔ b.length ≤ w ∨ bytes_to_long b = 0 := by
  by_cases h : b.length ≤ w
  · simp [bytes_to_long_packed h, h]
  · simp [packed, h, bytes_to_long_zeros]

theorem bytes_to_long_small {n : Nat} (hw : 4 ≤ w) (h : n < 2 ^ 28) :
    bytes_to_long (packed w (some (optimize_len (int_to_bytes n)))) = n := by
  have hlen := length_stripZeros_le (int_to_bytes n)
  rw [int_to_bytes] at hlen
  rw [optimize_len, int_to_bytes, bytes_to_long_packed (le_trans hlen hw), bytes_to_long_eq, beNat_stripZeros, beNat_beFix]
  omega

theorem long_agrees_iff (hw : 4 ≤ w) (def_val : Nat) (t : Tok) :
    d_longd (d_bytes_st t) def_val = bytes_to_long (packed w (d_bytes t)) ↔ LongAgrees w def_val t := by
  have hnone : bytes_to_long (packed w none) = 0 := bytes_to_long_zeros w
  cases t with
  | bytes d =>
    cases d with
    | none => simp only [d_bytes_st, d_longd, d_bytes, hnone, LongAgrees]; simp [bytes_to_long]
    | some b => exact bytes_agree w b
  | string s converted =>
    by_cases hx : (!converted && is_hex s) = true
    · obtain ⟨hc, hx'⟩ : converted = false ∧ is_hex s = true := by simpa using hx
      subst hc
      simp only [LongAgrees, d_bytes, hx, d_longd_hex hx']
      exact bytes_agree w _
    · -- the text stays a text, and is read as decimal digits
      have hx' : (!converted && is_hex s) = false := by simpa using hx
      simp [d_bytes_st_text hx', LongAgrees, d_bytes, hx', d_longd, d_is_bytes, Bool.false_eq_true]
  | array _ _ => simp [d_bytes_st, d_longd, d_bytes, hnone, LongAgrees]
  | object _ _ => simp [d_bytes_st, d_longd, d_bytes, hnone, LongAgrees]
  | null => simp [d_bytes_st, d_longd, d_bytes, hnone, LongAgrees]
  | boolean v =>
    have hv : v.toNat < 2 ^ 28 := by cases v <;> decide
    simp only [d_bytes, bytes_to_long_small hw hv]
    exact eq_comm
  | integer v =>
    have hv : v % 2 ^ 28 < 2 ^ 28 := Nat.mod_lt _ (by norm_num)
    simp only [d_bytes_st, d_longd, d_bytes, bytes_to_long_small hw hv, LongAgrees]

/-! ## Texts -/

/-- The tokens whose bytes `d_string` gives back: texts that are no hex string and
hold no zero byte. (A container never starts with the end of its text.) -/
def UrlAgrees : Tok → Prop
  | .string s converted => (!converted && is_hex s) = false ∧ 0 ∉ s
  | .array text _ => c_str text = []
  | .object text _ => c_str text = []
  | _ => False

theorem hex_text_ne (b : Bytes) : [48, 120] ++ bytes_to_hex b ≠ b := by
  intro h
  have hlen := congrArg List.length h
  rw [length_append, length_bytes_to_hex] at hlen
  simp at hlen
  omega

theorem decimal_text_ne {n : Nat} (h : beNat b = n) : decimal_text n ≠ b := by
  intro e
  have hlt := lt_beNat_decimal_text n
  rw [e, h] at hlt
  exact absurd hlt (Nat.lt_irrefl n)

theorem url_agrees_iff {url : Bytes} (h : d_string (d_bytes_st t) = some url) :
    url = (d_bytes t).getD [] ↔ UrlAgrees t := by
  cases t with
  | bytes d =>
    obtain rfl : [48, 120] ++ bytes_to_hex (d.getD []) = url := Option.some.inj h
    simp only [UrlAgrees, iff_false]
    exact hex_text_ne _
  | string s converted =>
    by_cases hx : (!converted && is_hex s) = true
    · obtain ⟨hc, hx'⟩ : converted = false ∧ is_hex s = true := by simpa using hx
      subst hc
      simp only [UrlAgrees, hx, d_bytes, Bool.true_eq_false, false_and, iff_false]
      rcases hex_cases hx' with ⟨hnil, hst⟩ | ⟨-, -, hlt, hst⟩ | hst
      · rw [hst] at h
        obtain rfl := Option.some.inj h
        rw [hnil]
        exact hex_text_ne _
      · rw [hst, d_string, Nat.mod_eq_of_lt hlt] at h
        obtain rfl := Option.some.inj h
        exact decimal_text_ne rfl
      · rw [hst] at h
        obtain rfl := Option.some.inj h
        exact hex_text_ne _
    · have hx' : (!converted && is_hex s) = false := by simpa using hx
      rw [d_bytes_st_text hx'] at h
      obtain rfl := Option.some.inj h
      simp only [UrlAgrees, d_bytes, hx', true_and]
      exact c_str_eq_iff s
  | array text _ =>
    obtain rfl := Option.some.inj h
    rfl
  | object text _ =>
    obtain rfl := Option.some.inj h
    rfl
  | boolean v =>
    obtain rfl := Option.some.inj h
    simp only [UrlAgrees]
    cases v <;> decide
  | integer v =>
    obtain rfl := Option.some.inj h
    simp only [d_bytes, UrlAgrees, iff_false, Option.getD_some]
    apply decimal_text_ne
    rw [optimize_len, beNat_stripZeros, int_to_bytes, beNat_beFix]
    omega
  | null => cases h

/-! ## Addresses -/

/-- The tokens whose first 20 bytes are packed: up to 20 bytes, or more if those are zero. -/
def AddressAgrees (t : Tok) : Prop :=
  ((d_bytes t).getD []).length ≤ 20 ∨ ((d_bytes t).getD []).take 20 = List.replicate 20 0

theorem address_agrees_iff {address : Bytes} (h : d_bytesl (d_bytes_st t) 20 = some address)
    (hlen : address.length = 20) : address = packed 20 (d_bytes t) ↔ AddressAgrees t := by
  obtain ⟨b, hb, hcase⟩ := d_bytesl_cases h hlen
  unfold AddressAgrees
  rcases d_bytes_again t with hsame | ⟨-, hnone⟩ | ⟨b', hb', -, hl4, hst⟩
  · rw [← hsame, hb, packed]
    rcases hcase with ⟨hle, rfl⟩ | ⟨hgt, rfl⟩
    · simp [hle]
    · simp [show ¬ b.length ≤ 20 by omega]
  · rw [hnone] at hb
    cases hb
  · -- a number with at most four bytes: only its leading zeros are gone
    obtain rfl : stripZeros b' = b := Option.some.inj (hst.symm.trans hb)
    have hle := length_stripZeros_le b'
    rcases hcase with ⟨hle20, rfl⟩ | ⟨hgt, -⟩
    · have h20 : b'.length ≤ 20 := by omega
      simp only [hb', packed, h20, if_true, Option.getD_some, true_or, iff_true]
      apply beNat_inj
      · rw [length_padLeft hle20, length_padLeft h20]
      · simp
    · omega

/-! ## Nodes -/

/-- The stored fields are those encoded in the hashed data. -/
structure Encodes (n : Node) (data : Bytes) : Prop where
  deposit : n.deposit = beNat (data.take 32) % 2 ^ 64
  props : n.props = beNat ((data.drop 40).take 24) % 2 ^ 64
  address : n.address = (data.drop 72).take 20
  url : n.url = data.drop 92

/-- The tokens of a node for which the two readings agree. -/
structure FieldsAgree (t : Tok) : Prop where
  deposit : LongAgrees 32 0 (t.prop K_DEPOSIT)
  props : LongAgrees 24 65535 (t.prop K_PROPS)
  address : AddressAgrees (t.prop K_ADDRESS)
  url : UrlAgrees (t.prop K_URL)

theorem node_data_deposit (t : Tok) : (node_data t).take 32 = packed 32 (d_bytes (t.prop K_DEPOSIT)) := by
  simp [node_data, length_packed]

theorem drop_packed {k : Nat} (h : w ≤ k) (val : Option Bytes) : (packed w val).drop k = [] :=
  drop_eq_nil_of_le (by rw [length_packed]; exact h)

theorem node_data_props (t : Tok) : ((node_data t).drop 40).take 24 = packed 24 (d_bytes (t.prop K_PROPS)) := by
  simp [node_data, drop_append, length_packed, drop_packed]

theorem node_data_address (t : Tok) : ((node_data t).drop 72).take 20 = packed 20 (d_bytes (t.prop K_ADDRESS)) := by
  simp [node_data, drop_append, length_packed, drop_packed]

theorem node_data_url (t : Tok) : (node_data t).drop 92 = (d_bytes (t.prop K_URL)).getD [] := by
  simp [node_data, drop_append, length_packed, drop_packed]

/-- `fill_chain` replaced the list, and wrote `n` for the entry `t` of the response. -/
def Stored (env : Env) (data : NodeselectDef) (result t : Tok) (n : Node) : Prop :=
  ∃ text nodes data', ∃ i : Nat, d_get result K_NODES = some (.array text nodes) ∧
    fill_chain env data (after_verification result) = some (.ok (), data') ∧ data.last_block < data'.last_block ∧
    nodes[i]? = some t ∧ data'.nodelist[i]? = some n

theorem Stored.filled (h : Stored env data result t n) :
    ∃ i w, (fill_node env data i (verified_node t)).ok (n, w) := by
  obtain ⟨text, nodes, data', i, hnodes, hfill, hnew, ht, hn⟩ := h
  have hverified : (after_verification result).prop K_NODES = .array text (nodes.map verified_node) := by
    unfold after_verification
    rw [prop_upd rfl, prop_upd rfl, Tok.prop, hnodes]
    rfl
  unfold fill_chain at hfill
  rw [hverified] at hfill
  dsimp only at hfill
  split at hfill
  case h_1 => cases hfill
  case h_2 tok _ =>
    split at hfill
    case isFalse =>
      -- an older list is ignored
      obtain rfl := (Prod.mk.inj (Option.some.inj hfill)).2
      exact absurd hnew (Nat.lt_irrefl _)
    case isTrue =>
      obtain ⟨e | list, hlist, heq⟩ := Option.map_eq_some_iff.1 hfill
      · cases heq
      · obtain rfl := (Prod.mk.inj heq).2
        rw [List.getElem?_map, Option.map_eq_some_iff] at hn
        obtain ⟨⟨n', w⟩, hget, rfl⟩ := hn
        have htv : (nodes.map verified_node)[i]? = some (verified_node t) := by rw [List.getElem?_map, ht]; rfl
        exact ⟨0 + i, w, fill_nodes_get hlist htv hget⟩

theorem encodes_iff (h : Stored env data result t n) :
    Encodes n (node_data t) ↔ FieldsAgree t := by
  obtain ⟨i, w, hfill⟩ := h.filled
  obtain ⟨haddr, hlen, hurl, hdep, hprops, -⟩ := fill_node_ok hfill
  rw [prop_verified_node (by decide)] at haddr hurl hdep hprops
  have hd := long_agrees_iff (by norm_num : 4 ≤ 32) 0 (t.prop K_DEPOSIT)
  have hp := long_agrees_iff (by norm_num : 4 ≤ 24) 65535 (t.prop K_PROPS)
  have ha := address_agrees_iff haddr hlen
  have hu := url_agrees_iff hurl
  rw [← d_long, ← hdep, bytes_to_long_eq, ← node_data_deposit] at hd
  rw [← hprops, bytes_to_long_eq, ← node_data_props] at hp
  rw [← node_data_address] at ha
  rw [← node_data_url] at hu
  exact ⟨fun e => ⟨hd.1 e.deposit, hp.1 e.props, ha.1 e.address, hu.1 e.url⟩,
    fun f => ⟨hd.2 f.deposit, hp.2 f.props, ha.2 f.address, hu.2 f.url⟩⟩

theorem Encodes.unique {n' : Node} {data : Bytes} (h : Encodes n data) (h' : Encodes n' data) :
    n.deposit = n'.deposit ∧ n.props = n'.props ∧ n.address = n'.address ∧ n.url = n'.url :=
  ⟨h.deposit.trans h'.deposit.symm, h.props.trans h'.props.symm, h.address.trans h'.address.symm, h.url.trans h'.url.symm⟩

/-- What is stored for an entry is what its hash covers exactly if the two readings
of its fields agree, and then, without a collision, entries with one hash give
one node. -/
theorem stored_node_iff (keccak : Hash) :
    (∀ env data result t n, Stored env data result t n → (Encodes n (node_data t) ↔ FieldsAgree t)) ∧
      ∀ env data result t n env' data' result' t' n', Stored env data result t n → Stored env' data' result' t' n' →
        FieldsAgree t → FieldsAgree t' → NoCollision keccak [node_data t] [node_data t'] →
        create_node_hash keccak t = create_node_hash keccak t' →
        n.deposit = n'.deposit ∧ n.props = n'.props ∧ n.address = n'.address ∧ n.url = n'.url := by
  refine ⟨fun _ _ _ _ _ => encodes_iff, ?_⟩
  intro env data result t n env' data' result' t' n' hn hn' ht ht' hcol hhash
  have hdata : node_data t = node_data t' := hcol _ (mem_singleton_self _) _ (mem_singleton_self _) hhash
  have he := (encodes_iff hn).2 ht
  have he' := (encodes_iff hn').2 ht'
  rw [← hdata] at he'
  exact he.unique he'

/-! ## Two spellings of a node, and a deposit that is too long -/

def emptyList : NodeselectDef := { last_block := 0, nodelist := [], weights := [], dirty := false }

def oneNodeResult (node : Tok) : Tok :=
  .object [] [(K_TOTAL_SERVERS, .integer 1), (K_LAST_BLOCK_NUMBER, .integer 100), (K_NODES, .array [] [node])]

theorem stored_of_fill_chain {node : Tok} {w : NodeWeight}
    (h : fill_chain { now := 0, boot_weights := false } emptyList (after_verification (oneNodeResult node)) =
      some (.ok (), { last_block := 100, nodelist := [n], weights := [w], dirty := true })) :
    Stored { now := 0, boot_weights := false } emptyList (oneNodeResult node) node n :=
  ⟨[], [node], _, 0, rfl, h, Nat.zero_lt_succ 99, rfl, rfl⟩

def storedWith (deposit : Nat) : Node where
  address := [1, 2, 3, 4, 5, 6, 7, 8, 9, 10, 11, 12, 13, 14, 15, 16, 17, 18, 19, 20]
  index := 0
  capacity := 1
  deposit := deposit
  props := 29
  url := "https://a.in3".toUTF8.toList

/-- The deposit of 10^16 as a hex string, and the same in 32 bytes. -/
def hexDeposit : Tok := .string ("0x2386f26fc10000".toUTF8.toList) false

def paddedDeposit : Tok := .bytes (some (word 10000000000000000))

theorem nodeWith_agrees {deposit : Tok} (h : LongAgrees 32 0 deposit) : FieldsAgree (nodeWith deposit) where
  deposit := h
  props := trivial
  address := .inl (le_refl 20)
  url := by
    exact ⟨by decide +kernel, by decide +kernel⟩

/-- Both spellings have the hash of `nodeA`, and give the same node. -/
theorem stored_node_twoSpellings :
    create_node_hash nodeKeccak (nodeWith hexDeposit) = nodeAHash ∧
      create_node_hash nodeKeccak (nodeWith paddedDeposit) = nodeAHash ∧
      Encodes (storedWith 10000000000000000) (node_data (nodeWith hexDeposit)) ∧
      Stored { now := 0, boot_weights := false } emptyList (oneNodeResult (nodeWith paddedDeposit))
        (nodeWith paddedDeposit) (storedWith 10000000000000000) ∧
      ∀ n, Stored { now := 0, boot_weights := false } emptyList (oneNodeResult (nodeWith paddedDeposit))
        (nodeWith paddedDeposit) n → n.deposit = 10000000000000000 := by
  have hhex : Stored { now := 0, boot_weights := false } emptyList (oneNodeResult (nodeWith hexDeposit))
      (nodeWith hexDeposit) (storedWith 10000000000000000) := stored_of_fill_chain (w := {}) (by decide +kernel)
  have hpad : Stored { now := 0, boot_weights := false } emptyList (oneNodeResult (nodeWith paddedDeposit))
      (nodeWith paddedDeposit) (storedWith 10000000000000000) := stored_of_fill_chain (w := {}) (by decide +kernel)
  have ahex : FieldsAgree (nodeWith hexDeposit) := nodeWith_agrees (by decide +kernel)
  have apad : FieldsAgree (nodeWith paddedDeposit) := nodeWith_agrees (by decide)
  have hash : create_node_hash nodeKeccak (nodeWith hexDeposit) = nodeAHash := by decide +kernel
  have hash' : create_node_hash nodeKeccak (nodeWith paddedDeposit) = nodeAHash := by decide +kernel
  refine ⟨hash, hash', ((stored_node_iff nodeKeccak).1 _ _ _ _ _ hhex).2 ahex, hpad, fun n hn => ?_⟩
  exact ((stored_node_iff nodeKeccak).2 _ _ _ _ _ _ _ _ _ _ hhex hn ahex apad (by decide +kernel)
    (hash.trans hash'.symm)).1.symm

/-- 33 bytes that end in 255. The registry keeps a deposit of zero for this hash, the client stores 255. -/
def longDeposit : Tok := .bytes (some (List.replicate 32 0 ++ [255]))

def longDepositHash : Bytes := word 0x9089967c83c820068b12c20e1012ffef48e70077ea665f3ac137f855ae8f7a8f

def longDepositKeccak : Hash :=
  .ofTable [(List.replicate 32 0, word nodesBase), (node_data (nodeWith (.integer 0)), longDepositHash)]

/-- The registry holds the node with a deposit of zero; the shown one is accepted and stored. -/
theorem long_deposit_stored :
    (verify_nodelist_data longDepositKeccak 0 (oneNodeResult (nodeWith longDeposit)) 0 none .null
        (.array [] [nodeWith longDeposit]) (storageProofs 1 longDepositHash)).ok () ∧
      Stored { now := 0, boot_weights := false } emptyList (oneNodeResult (nodeWith longDeposit)) (nodeWith longDeposit)
        (storedWith 255) ∧
      ¬ Encodes (storedWith 255) (node_data (nodeWith longDeposit)) := by
  refine ⟨by decide +kernel, stored_of_fill_chain (w := {}) (by decide +kernel), ?_⟩
  intro h
  exact absurd h.deposit (by decide)

/-! ## Sequences of updates -/

/-- The list behind a sequence of responses. -/
def updates (data : NodeselectDef) (responses : List (Env × Tok)) : Option NodeselectDef :=
  responses.foldlM (fun data r => (fill_chain r.1 data r.2).map Prod.snd) data

/-- Every node with a url has an address of 20 bytes. -/
def Addressed (result : Tok) : Prop :=
  ∀ node ∈ (d_iter (result.prop K_NODES)).getD [], (d_string (node.prop K_URL)).isSome → (node_address node).isSome

/-- The nodes with their weights. -/
def NodeselectDef.entries (data : NodeselectDef) : List (Node × NodeWeight) := data.nodelist.zip data.weights

/-- The statistics of the entry are new, or those of its address in `old`. -/
def StatsKept (old : NodeselectDef) (x : Node × NodeWeight) : Prop :=
  x.2.response_count = 0 ∧ x.2.total_response_time = 0 ∨
    ∃ y ∈ old.entries, y.1.address = x.1.address ∧ y.2.response_count = x.2.response_count ∧
      y.2.total_response_time = x.2.total_response_time

/-- What every sequence of updates keeps. -/
structure Updated (old data : NodeselectDef) : Prop where
  weights : data.weights.length = data.nodelist.length
  last_block : old.last_block ≤ data.last_block
  same : data.last_block = old.last_block → data.nodelist = old.nodelist ∧ data.weights = old.weights
  kept : ∀ x ∈ data.entries, StatsKept old x

theorem StatsKept.blacklist {n : Node} {w : NodeWeight} (h : StatsKept data (n, w)) (p : Prop) [Decidable p] (until_time : Nat) :
    StatsKept data (n, if p then { w with blacklisted_until := until_time } else w) := by
  split
  · exact h
  · exact h

theorem kept_node_weight (hboot : env.boot_weights = false) (hlen : data.weights.length = data.nodelist.length) {i : Nat}
    {node : Tok} {n : Node} : StatsKept data (n, node_weight env data i n.address node) := by
  unfold node_weight
  rcases hj : old_index data i n.address with _ | j
  · have hnew : StatsKept data (n, boot_weight env node) := .inl (by simp [boot_weight, hboot])
    exact hnew.blacklist _ _
  · obtain ⟨m, hm, haddress⟩ : ∃ m, data.nodelist[j]? = some m ∧ m.address = n.address := by
      unfold old_index at hj
      split at hj
      case isTrue hi =>
        cases hj
        simpa using hi
      case isFalse =>
        obtain ⟨hlt, hfound, -⟩ := List.findIdx?_eq_some_iff_getElem.1 hj
        exact ⟨_, List.getElem?_eq_getElem hlt, by simpa using hfound⟩
    obtain ⟨hlt, rfl⟩ := List.getElem?_eq_some_iff.1 hm
    have hw : j < data.weights.length := by omega
    have hold : StatsKept data (n, data.weights.getD j {}) := by
      refine .inr ⟨(data.nodelist[j], data.weights[j]), ?_, haddress, ?_, ?_⟩
      · exact mem_of_getElem? (i := j) (by simp [NodeselectDef.entries, hlt, hw])
      · simp [hw]
      · simp [hw]
    exact hold.blacklist _ _

theorem kept_fill_nodes (hboot : env.boot_weights = false) (hlen : data.weights.length = data.nodelist.length) {i : Nat}
    {nodes : List Tok} {list : List (Node × NodeWeight)} (h : (fill_nodes env data i nodes).ok list) :
    ∀ x ∈ list, StatsKept data x := by
  induction nodes generalizing i list with
  | nil =>
    cases Run.ok_pure.1 h
    simp
  | cons node nodes ih =>
    obtain ⟨⟨n, w⟩, ns, hn, hns, rfl⟩ := fill_nodes_cons.1 h
    refine forall_mem_cons.2 ⟨?_, ih hns⟩
    rw [(fill_node_ok hn).2.2.2.2.2]
    exact kept_node_weight hboot hlen

/-- With addresses the loop frees nothing twice. -/
theorem fill_nodes_defined {nodes : List Tok}
    (h : ∀ node ∈ nodes, (d_string (node.prop K_URL)).isSome → (node_address node).isSome) (i : Nat) :
    ∃ r, (fill_nodes env data i nodes).run = some r := by
  induction nodes generalizing i with
  | nil => exact ⟨.ok [], rfl⟩
  | cons node nodes ih =>
    have hrest := ih (fun n hn => h n (mem_cons_of_mem _ hn)) (i + 1)
    refine Run.defined_bind ?_ fun n => Run.defined_bind hrest fun ns => ⟨_, rfl⟩
    unfold fill_node
    split
    case h_1 => exact ⟨_, rfl⟩
    case h_2 => exact ⟨_, rfl⟩
    case h_3 => exact ⟨_, rfl⟩
    case h_4 ha hu => simpa [ha, hu] using h node mem_cons_self

theorem updated_step {old : NodeselectDef} (h : Updated old data) (hboot : env.boot_weights = false)
    (haddress : Addressed result) : ∃ r data', fill_chain env data result = some (r, data') ∧ Updated old data' := by
  unfold fill_chain
  split
  case h_2 => exact ⟨_, _, rfl, h⟩
  case h_1 text nodes hnodes =>
    split
    case h_1 => exact ⟨_, _, rfl, h⟩
    case h_2 t _ =>
      dsimp only
      split
      case isFalse => exact ⟨_, _, rfl, h⟩
      case isTrue hnew =>
        have hlt := h.last_block.trans_lt hnew
        rw [Addressed, hnodes] at haddress
        obtain ⟨e | list, hlist⟩ : ∃ r, (fill_nodes env data 0 nodes).run = some r := fill_nodes_defined haddress 0
        · rw [hlist]
          exact ⟨_, _, rfl, h.weights, hlt.le, fun he => absurd he hlt.ne', h.kept⟩
        · rw [hlist]
          refine ⟨_, _, rfl, by simp, hlt.le, fun he => absurd he hlt.ne', fun x hx => ?_⟩
          obtain hx | ⟨y, hy, haddress, hcount, htotal⟩ := kept_fill_nodes hboot h.weights hlist x (by simpa [NodeselectDef.entries, zip_map'] using hx)
          · exact .inl hx
          · rcases h.kept y hy with ⟨hc, ht⟩ | ⟨z, hz, ha, hc, ht⟩
            · exact .inl ⟨hcount ▸ hc, htotal ▸ ht⟩
            · exact .inr ⟨z, hz, ha.trans haddress, hc.trans hcount, ht.trans htotal⟩

/-- Every sequence of updates, with failed and old ones among them. -/
theorem updates_keep (responses : List (Env × Tok)) (hlen : data.weights.length = data.nodelist.length)
    (hboot : ∀ r ∈ responses, r.1.boot_weights = false) (haddress : ∀ r ∈ responses, Addressed r.2) :
    ∃ data', updates data responses = some data' ∧ Updated data data' := by
  suffices hrun : ∀ d, Updated data d → ∃ data', updates d responses = some data' ∧ Updated data data' from
    hrun data ⟨hlen, le_rfl, fun _ => ⟨rfl, rfl⟩, fun x hx => .inr ⟨x, hx, rfl, rfl, rfl⟩⟩
  induction responses with
  | nil => exact fun d h => ⟨d, rfl, h⟩
  | cons r responses ih =>
    intro d h
    obtain ⟨e, d', hfill, hstep⟩ := updated_step h (hboot r mem_cons_self) (haddress r mem_cons_self)
    obtain ⟨data', hupdates, hupdated⟩ := ih (fun q hq => hboot q (mem_cons_of_mem _ hq))
      (fun q hq => haddress q (mem_cons_of_mem _ hq)) d' hstep
    refine ⟨data', ?_, hupdated⟩
    rw [updates, foldlM_cons, hfill]
    exact hupdates

/-- A list, the same list again, and a newer one with a node that has neither an address nor a url. -/
def threeResponses : List (Env × Tok) :=
  [(⟨0, false⟩, oneNodeResult (nodeWith hexDeposit)), (⟨0, false⟩, oneNodeResult (nodeWith hexDeposit)),
    (⟨0, false⟩, .object [] [(K_LAST_BLOCK_NUMBER, .integer 200), (K_NODES, .array [] [.object [] []])])]

theorem updates_keep_three :
    ∃ data', updates emptyList threeResponses = some data' ∧ Updated emptyList data' ∧ data'.last_block = 200 ∧
      data'.nodelist = [storedWith 10000000000000000] := by
  have hlen : emptyList.weights.length = emptyList.nodelist.length := rfl
  obtain ⟨data', hrun, hupdated⟩ := updates_keep threeResponses hlen (by decide) (by unfold Addressed; decide +kernel)
  have hend : updates emptyList threeResponses = some ⟨200, [storedWith 10000000000000000], [{}], true⟩ := by decide +kernel
  obtain rfl : _ = data' := Option.some.inj (hend.symm.trans hrun)
  exact ⟨_, hrun, hupdated, rfl, rfl⟩

end In3
