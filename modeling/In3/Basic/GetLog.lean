import In3.Basic.LogFilter
import In3.Lib.Guarded
import In3.Nano.Blockheader
import In3.Nano.Merkle
/-!
# Event logs (`basic/eth_getLog.c`)

`eth_verify_eth_getLog` first fills a table of `l_logs` receipts from the blocks of the
proof, and then checks each log of the result against the first receipt with its
transaction hash.

The table is memory of the stack that nobody clears. Its entry `i` is written in two
parts: the hash and the number of a block when the block starts, and the rest when a
receipt follows. Here the list of receipts holds the entries that were written as a
whole, and the two fields of the block are kept beside it. An access that leaves the
table, reads an entry that was not written, or writes more than the twelve bytes of
`xtmp` is a `Fault`.

The variable `tmp` is not cleared either. It keeps what the log before left in it, and
for the first log it has no defined value (`none`).
-/
open Lib

namespace In3

def K_NUMBER := key "number"
def K_RECEIPTS := key "receipts"
def K_TX_INDEX := key "txIndex"
def K_TX_PROOF := key "txProof"
def K_TX_HASH := key "txHash"
def K_TRANSACTION_HASH := key "transactionHash"
def K_TRANSACTION_INDEX := key "transactionIndex"
def K_TRANSACTION_LOG_INDEX := key "transactionLogIndex"
def K_BLOCK_NUMBER := key "blockNumber"
def BLOCKHEADER_TRANSACTIONS_ROOT : Int := 4
def BLOCKHEADER_RECEIPT_ROOT : Int := 5

/-- What leaves its memory: a write to entry `i` behind the table, a read of entry `n`
that was never written, `len` bytes for a buffer of twelve, or anything else. -/
inductive Fault where
  | write (i : Nat)
  | read (n : Nat)
  | text (len : Nat)
  | other
  deriving DecidableEq, Repr

abbrev LogRun := Guarded Fault Err

/-- A value that is only defined in some cases. -/
def defined {α : Type} (x : Option α) : LogRun α := Guarded.ofRun .other (Run.lift x)

structure receipt_t where
  tx_hash : Bytes
  data : Option Bytes
  block_number : Option Bytes
  block_hash : Bytes
  transaction_index : Nat
  deriving DecidableEq, Repr

/-- What `sprintf` writes for a block number. -/
def number_text (number : Nat) : List Char := '0' :: 'x' :: Nat.toDigits 16 number

/-- The text with an even number of digits. -/
def xtmp_text (number : Nat) : List Char :=
  if (number_text number).length % 2 = 1 then '0' :: 'x' :: '0' :: Nat.toDigits 16 number else number_text number

/-- The bytes that are written to `xtmp`, with the zero at the end. -/
def xtmp_size (number : Nat) : Nat := (xtmp_text number).length + 1

/-! ## The receipts of the proof -/

/-- `create_tx_path` (`nano/txreceipt.c`). -/
def create_tx_path (index : Nat) : Bytes :=
  rlp_encode_item (if index = 0 then [] else optimize_len (int_to_bytes index))

section
variable (C : Crypto)

structure LogBlock where
  block_hash : Bytes
  block_number : Option Bytes
  tx_root : Option Bytes
  receipt_root : Option Bytes
  deriving DecidableEq, Repr

/-- The fields of a header behind its verification. -/
def block_fields (block : Bytes) : LogRun LogBlock := do
  let (_, list) ← defined (rlp_decode_self block 0)
  let list ← defined list
  let (r, receipt_root) ← defined (rlp_decode_to list BLOCKHEADER_RECEIPT_ROOT none)
  if r ≠ 1 then throw (.vc_err "invalid receipt root")
  let (r, tx_root) ← defined (rlp_decode_to list BLOCKHEADER_TRANSACTIONS_ROOT none)
  if r ≠ 1 then throw (.vc_err "invalid tx root")
  let (r, block_number) ← defined (rlp_decode_to list BLOCKHEADER_NUMBER none)
  if r ≠ 1 then throw (.vc_err "invalid block number")
  pure ⟨C.keccak.fn block, block_number, tx_root, receipt_root⟩

/-- The start of a block, with its key `p.1`. Its hash is written to entry `i`. -/
def log_block (vc : Vctx) (l_logs i : Nat) (p : Nat × Tok) : LogRun LogBlock := do
  let number := d_long (p.2.prop K_NUMBER)
  Guarded.guard (xtmp_size number ≤ 12) (.text (xtmp_size number))
  if p.1 ≠ key (String.ofList (xtmp_text number)) then throw (.vc_err "block number mismatch")
  let block := (d_bytes (p.2.prop K_BLOCK)).getD []
  if block = [] then throw (.vc_err "invalid blockheader")
  Guarded.ofRun .other (Run.orFail (eth_verify_blockheader C vc (some block) none) (.vc_err "invalid blockheader"))
  Guarded.guard (i < l_logs) (.write i)
  block_fields C block

/-- `trie_verify_proof` with a value to fill. The proof may be missing. -/
def verify_and_fill (root : Option Bytes) (path : Bytes) (proof : Option Tok) (e : Err) : LogRun (Option Bytes) :=
  match proof with
  | none => throw e
  | some t => do
    let proof ← defined (d_create_bytes_vec t)
    let root ← defined (root.filter fun r => 32 ≤ r.length)
    let (res, data) ← defined (trie_verify_proof C.keccak (root.take 32) path proof .fill)
    if res = false then throw e
    pure data

def log_receipt (l_logs : Nat) (b : LogBlock) (receipts : List receipt_t) (t : Tok) : LogRun (List receipt_t) := do
  if receipts.length = l_logs then throw (.vc_err "too many receipts in the proof")
  Guarded.guard (receipts.length < l_logs) (.write receipts.length)
  let transaction_index := toUInt32 (d_int (t.prop K_TX_INDEX))
  let path := create_tx_path transaction_index
  let tx ← verify_and_fill C b.tx_root path (d_get t K_TX_PROOF) (.vc_err "invalid tx merkle proof")
  let tx_hash := C.keccak.fn (tx.getD [])
  if b_cmp (d_bytes (d_bytesl_st (t.prop K_TX_HASH) 32)) (some tx_hash) = false then throw (.vc_err "invalid tx hash")
  let data ← verify_and_fill C b.receipt_root path (d_get t K_PROOF) (.vc_err "invalid receipt proof")
  pure (receipts ++ [⟨tx_hash, data, b.block_number, b.block_hash, transaction_index⟩])

/-- One round of the loop over the blocks. -/
def log_receipts (vc : Vctx) (l_logs : Nat) (receipts : List receipt_t) (p : Nat × Tok) : LogRun (List receipt_t) := do
  let b ← log_block C vc l_logs receipts.length p
  let ts ← defined (d_iter (p.2.prop K_RECEIPTS))
  ts.foldlM (log_receipt C l_logs b) receipts

end

/-! ## The logs of the result -/

variable (C : Crypto) (vc : LogCtx)

end In3
