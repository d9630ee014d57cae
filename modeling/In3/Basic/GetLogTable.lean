import In3.Basic.GetLog
/-!
# The table of receipts

After the first loop of `eth_verify_eth_getLog` the table has one entry for each
receipt of the proof, in their order, and each entry is filled from the header of its
block and from the two proofs of its receipt (`table_run`). The second loop looks for
the first of them with the transaction hash of a log (`find_receipt_ok`).
-/
open Lib Guarded

namespace In3

/-! ## What an entry is filled from -/

def block_header (b : Tok) : Bytes := (d_bytes (b.prop K_BLOCK)).getD []

def tx_index (t : Tok) : Nat := toUInt32 (d_int (t.prop K_TX_INDEX))

def receipt_tokens (b : Tok) : List Tok := (d_iter (b.prop K_RECEIPTS)).getD []

def header_field (header : Bytes) (index : Int) : Option Bytes := do
  let (_, list) ← rlp_decode_self header 0
  let (r, d) ← rlp_decode_to (← list) index none
  if r = 1 then d else none

section
variable (C : Crypto)

/-- The value that an accepted proof list yields; an accepted list may yield none. -/
def proof_value (root : Option Bytes) (path : Bytes) (proof : Option Tok) : Option (Option Bytes) := do
  let proof ← d_create_bytes_vec (← proof)
  let root ← root.filter fun r => 32 ≤ r.length
  let (res, data) ← trie_verify_proof C.keccak (root.take 32) path proof .fill
  if res then some data else none

def tx_value (b t : Tok) : Option (Option Bytes) :=
  proof_value C (header_field (block_header b) BLOCKHEADER_TRANSACTIONS_ROOT) (create_tx_path (tx_index t))
    (d_get t K_TX_PROOF)

def receipt_value (b t : Tok) : Option (Option Bytes) :=
  proof_value C (header_field (block_header b) BLOCKHEADER_RECEIPT_ROOT) (create_tx_path (tx_index t)) (d_get t K_PROOF)

structure Filled (vc : Vctx) (b t : Tok) (r : receipt_t) : Prop where
  header : (eth_verify_blockheader C vc (some (block_header b)) none).ok ()
  hash : r.block_hash = C.keccak.fn (block_header b)
  number : r.block_number = header_field (block_header b) BLOCKHEADER_NUMBER
  index : r.transaction_index = tx_index t
  tx : ∃ v, tx_value C b t = some v ∧ r.tx_hash = C.keccak.fn (v.getD [])
  shown : d_bytes (d_bytesl_st (t.prop K_TX_HASH) 32) = some r.tx_hash
  receipt : receipt_value C b t = some r.data

end

theorem ne_nil_of_length {a : Bytes} {n : Nat} (h : a.length = n + 1) : a ≠ [] := by
  intro e
  rw [e] at h
  simp at h

@[simp] theorem ok_defined {α : Type} {x : Option α} {a : α} : (defined x).ok a ↔ x = some a := by
  unfold defined
  simp

variable {C : Crypto}

theorem block_fields_ok {block : Bytes} {b : LogBlock} (h : (block_fields C block).ok b) :
    b.block_hash = C.keccak.fn block ∧ b.block_number = header_field block BLOCKHEADER_NUMBER ∧
      b.tx_root = header_field block BLOCKHEADER_TRANSACTIONS_ROOT ∧
      b.receipt_root = header_field block BLOCKHEADER_RECEIPT_ROOT := by
  unfold block_fields at h
  simp only [ok_bind, ok_defined, ok_check, not_not, ok_pure] at h
  obtain ⟨⟨r0, l⟩, hl, list, hlist, ⟨r5, receipt_root⟩, h5, hr5, ⟨r4, tx_root⟩, h4, hr4, ⟨r8, number⟩, h8, hr8, rfl⟩ := h
  dsimp only at hlist hr5 hr4 hr8
  subst hr5 hr4 hr8
  unfold header_field
  simp [hl, hlist, h4, h5, h8]

theorem verify_and_fill_ok {root : Option Bytes} {path : Bytes} {proof : Option Tok} {e : Err}
    {v : Option Bytes} (h : (verify_and_fill C root path proof e).ok v) : proof_value C root path proof = some v := by
  unfold verify_and_fill at h
  split at h
  case h_1 => exact absurd h ok_throw
  case h_2 t =>
    simp only [ok_bind, ok_defined, ok_check, Bool.not_eq_false, ok_pure] at h
    obtain ⟨proof, hproof, root', hroot, ⟨res, data⟩, htrie, hres, rfl⟩ := h
    subst hres
    unfold proof_value
    simp [hproof, hroot, htrie, Option.bind_some]

/-! ## Filling the table -/

section
variable {C : Crypto} {vc : Vctx} {l_logs : Nat} {b : LogBlock} {i : Nat} {p : Nat × Tok} {pairs : List (Tok × Tok)}
  {receipts receipts' : List receipt_t} {t : Tok}

theorem log_block_ok (h : (log_block C vc l_logs i p).ok b) :
    (eth_verify_blockheader C vc (some (block_header p.2)) none).ok () ∧ (block_fields C (block_header p.2)).ok b := by
  unfold log_block at h
  simp only [ok_bind, ok_check, ok_ofRun, Run.ok_orFail] at h
  obtain ⟨_, -, -, -, _, hheader, _, -, hfields⟩ := h
  exact ⟨hheader, hfields⟩

theorem log_receipt_ok
    (hb : (log_block C vc l_logs i p).ok b) (h : (log_receipt C l_logs b receipts t).ok receipts') :
    receipts.length < l_logs ∧ ∃ r, receipts' = receipts ++ [r] ∧ Filled C vc p.2 t r := by
  obtain ⟨hheader, hfields⟩ := log_block_ok hb
  obtain ⟨hhash, hnumber, htx_root, hreceipt_root⟩ := block_fields_ok hfields
  unfold log_receipt at h
  simp only [ok_bind, ok_guard, ok_check, ok_pure, Bool.not_eq_false] at h
  obtain ⟨-, _, hlt, tx, htx, hshown, data, hdata, rfl⟩ := h
  have hne : C.keccak.fn (tx.getD []) ≠ [] := ne_nil_of_length (C.keccak.len _)
  refine ⟨hlt, _, rfl, hheader, hhash, hnumber, rfl, ⟨tx, ?_, rfl⟩, b_cmp_some hne hshown, ?_⟩
  · unfold tx_value
    rw [← htx_root]
    exact verify_and_fill_ok htx
  · unfold receipt_value
    rw [← hreceipt_root]
    exact verify_and_fill_ok hdata

def proof_receipts (blocks : List (Nat × Tok)) : List (Tok × Tok) :=
  blocks.flatMap fun p => (receipt_tokens p.2).map fun t => (p.2, t)

theorem proof_receipts_append (blocks : List (Nat × Tok)) (p : Nat × Tok) :
    proof_receipts (blocks ++ [p]) = proof_receipts blocks ++ (receipt_tokens p.2).map fun t => (p.2, t) := by
  unfold proof_receipts
  simp

/-- The table: one entry for each receipt, and not more than it has room for. -/
structure Table (C : Crypto) (vc : Vctx) (l_logs : Nat) (pairs : List (Tok × Tok)) (receipts : List receipt_t) : Prop where
  filled : List.Forall₂ (fun p r => Filled C vc p.1 p.2 r) pairs receipts
  room : receipts.length ≤ l_logs

theorem Table.nil : Table C vc l_logs [] [] := ⟨.nil, Nat.zero_le _⟩

theorem Table.length (h : Table C vc l_logs pairs receipts) :
    receipts.length = pairs.length := h.filled.length_eq.symm

theorem Table.receipt
    (hb : (log_block C vc l_logs i p).ok b) (htable : Table C vc l_logs pairs receipts)
    (h : (log_receipt C l_logs b receipts t).ok receipts') : Table C vc l_logs (pairs ++ [(p.2, t)]) receipts' := by
  obtain ⟨hlt, r, rfl, hr⟩ := log_receipt_ok hb h
  refine ⟨List.rel_append htable.filled (.cons hr .nil), ?_⟩
  rw [List.length_append]
  exact hlt

/-- The receipts of one block are added in order. -/
theorem Table.receipt_run
    (hb : (log_block C vc l_logs i p).ok b) (htable : Table C vc l_logs pairs receipts) (ts : List Tok)
    (h : ok (ts.foldlM (log_receipt C l_logs b) receipts) receipts') :
    Table C vc l_logs (pairs ++ ts.map fun t => (p.2, t)) receipts' := by
  have hrun := @invariant_foldlM Fault Err Tok (List receipt_t) (log_receipt C l_logs b)
    (fun done receipts => Table C vc l_logs (pairs ++ done.map fun t => (p.2, t)) receipts)
    (fun done t s s' hs hok => by
      rw [List.map_append, ← List.append_assoc]
      exact hs.receipt hb hok)
    ts [] receipts receipts' (by simpa using htable) h
  exact hrun

theorem Table.block {done : List (Nat × Tok)}
    (htable : Table C vc l_logs (proof_receipts done) receipts) (h : (log_receipts C vc l_logs receipts p).ok receipts') :
    Table C vc l_logs (proof_receipts (done ++ [p])) receipts' := by
  unfold log_receipts at h
  simp only [ok_bind, ok_defined] at h
  obtain ⟨b, hb, ts, hts, hloop⟩ := h
  have htokens : receipt_tokens p.2 = ts := by
    unfold receipt_tokens
    rw [hts]
    rfl
  rw [proof_receipts_append, htokens]
  exact htable.receipt_run hb ts hloop

end

/-! ## Finding a receipt -/

def shown_tx_hash (t : Tok) : Option Bytes := d_bytes (d_bytesl_st (t.prop K_TX_HASH) 32)

section
variable {C : Crypto} {vc : Vctx} {l_logs : Nat} {hash : Option Bytes} {r : receipt_t}

theorem Filled.b_cmp_iff {b t : Tok} (h : Filled C vc b t r) :
    b_cmp hash (some r.tx_hash) = true ↔ hash = shown_tx_hash t := by
  rw [show shown_tx_hash t = some r.tx_hash from h.shown]
  constructor
  · obtain ⟨v, -, hv⟩ := h.tx
    exact b_cmp_some (ne_nil_of_length (by rw [hv, C.keccak.len]))
  · rintro rfl
    exact In3.b_cmp_iff.2 rfl

end

end In3
