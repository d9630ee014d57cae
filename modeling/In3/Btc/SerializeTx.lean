import In3.Btc.CompactTheorems
import In3.Btc.SerializeTheorems
import In3.Btc.Types
/-!
# What the serializers write

Each serializer fills a fresh buffer from the front. A compact size of more than one byte leaves one
byte of the buffer as it was. An input ends with the bytes that were behind its script, since
the sequence was written over the script, and a transaction with witnesses has its lock time as many
bytes behind the outputs as the outputs have.
-/
open Lib List Region

namespace In3.Btc
open Region (fill fill_nil fill_all fill_skip store_fill store_fill_over)

def FreshSizes (fresh : Nat → Bytes) : Prop := ∀ n, (fresh n).length = n

/-! ## Compact sizes -/

theorem size_pos (v : Nat) : 1 ≤ get_compact_uint_size v ∧ get_compact_uint_size v ≤ 9 := by
  unfold get_compact_uint_size
  split_ifs <;> omega

theorem length_compact_bytes (v : Nat) : (compact_bytes v (get_compact_uint_size v)).length = get_compact_uint_size v - 1 := by
  unfold compact_bytes
  rw [length_map, length_range]

/-- What is at the place `k` of a buffer that held `start` when the compact size of `v` was written there. -/
def written (start : Bytes) (k v : Nat) : Bytes :=
  if v ≤ 0xFC then [UInt8.ofNat v]
  else compact_bytes v (get_compact_uint_size v) ++ (start.drop (k + (get_compact_uint_size v - 1))).take 1

variable {buf buf' done start : Bytes} {index v : Nat}

theorem length_written {k : Nat} (h : k + get_compact_uint_size v ≤ start.length) :
    (written start k v).length = get_compact_uint_size v := by
  have hpos := (size_pos v).1
  unfold written
  split_ifs with hv
  · rw [size_one_iff.2 hv]
    rfl
  · rw [length_append, length_compact_bytes, length_take, length_drop]
    omega

theorem compact_fill (hindex : done.length = index) (hroom : index + get_compact_uint_size v ≤ start.length) :
    long_to_compact_uint (fill start done) index v = pure (fill start (done ++ written start index v)) := by
  subst hindex
  have hpos := (size_pos v).1
  have hbytes := length_compact_bytes v
  unfold long_to_compact_uint
  rw [store_fill rfl (by rw [length_singleton]; omega), pure_bind]
  unfold written
  by_cases hv : v ≤ 0xFC
  · have hmarker : compact_marker v = UInt8.ofNat v := by
      unfold compact_marker
      rw [if_neg (by omega), if_neg (by omega), if_neg (by omega), byte_of_and, Nat.mod_eq_of_lt (by omega)]
    rw [if_pos hv, size_one_iff.2 hv, if_neg (by omega), hmarker]
  · have hsize : 1 < get_compact_uint_size v := by
      have hne : get_compact_uint_size v ≠ 1 := fun h => hv (size_one_iff.1 h)
      omega
    have hskip : fill start (done ++ compact_bytes v (get_compact_uint_size v)) =
        fill start (done ++ compact_bytes v (get_compact_uint_size v) ++
          (start.drop (done.length + (get_compact_uint_size v - 1))).take 1) := by
      rw [← hbytes, ← length_append]
      exact (fill_skip (by rw [length_append]; omega)).symm
    rw [if_neg hv, if_pos hsize, store_fill_over rfl (by rw [length_singleton]; omega) (by rw [hbytes]; omega), hskip,
      append_assoc]

theorem length_of_ok_compact (h : Guarded.ok (long_to_compact_uint buf index v) buf') :
    buf'.length = buf.length := by
  unfold long_to_compact_uint at h
  rw [Guarded.ok_bind] at h
  obtain ⟨mid, hmid, h⟩ := h
  rw [← length_of_ok_store hmid]
  dsimp only at h
  split_ifs at h with hsize
  · exact length_of_ok_store h
  · rw [← Guarded.ok_pure.1 h]

theorem uint_fill (hindex : index = done.length) (hroom : done.length + 4 ≤ start.length) :
    uint_to_le (fill start done) index v = pure (fill start (done ++ leFix 4 v)) := by
  rw [uint_to_le_eq, store_fill (by rw [hindex]) (by rw [length_leFix]; exact hroom)]

theorem length_of_ok_uint (h : Guarded.ok (uint_to_le buf index v) buf') :
    buf'.length = buf.length := by
  exact length_of_ok_store h

/-! ## Inputs -/

def inSize (t : TxIn) : Nat := 36 + get_compact_uint_size t.script.length + t.script.length + 4

/-- A serialized input, in a buffer that held `start`. -/
def inBytes (start : Bytes) (t : TxIn) : Bytes :=
  t.prev_tx_hash.reverse ++ leFix 4 t.prev_tx_index ++ written start 36 t.script.length ++ leFix 4 t.sequence ++
    (t.script ++ start.drop (36 + get_compact_uint_size t.script.length + t.script.length)).drop 4

theorem rev_copyl_hash {b : Bytes} (h : b.length = 32) : rev_copyl b 32 = b.reverse := rev_copy_eq h

section Input
variable {fresh : Nat → Bytes} (hfresh : FreshSizes fresh) {t : TxIn}
include hfresh

theorem inSize_lt_of_ok {b : Bytes} (h : Guarded.ok (btc_serialize_tx_in fresh t) b) : inSize t < 2 ^ 32 := by
  unfold btc_serialize_tx_in at h
  simp only [Guarded.ok_bind] at h
  obtain ⟨r1, h1, r2, h2, r3, h3, r4, h4, -⟩ := h
  have hin := (ok_store.1 h4).1.2
  rw [length_of_ok_compact h3, length_of_ok_uint h2, length_of_ok_store h1, hfresh] at hin
  unfold inSize
  omega

theorem serialize_tx_in_eq (hhash : t.prev_tx_hash.length = 32) (hsize : inSize t < 2 ^ 32) :
    btc_serialize_tx_in fresh t = pure (inBytes (fresh (inSize t)) t) := by
  have hlen := hfresh (inSize t)
  have hrev : t.prev_tx_hash.reverse.length = 32 := by rw [length_reverse, hhash]
  have hroom : inSize t = 36 + get_compact_uint_size t.script.length + t.script.length + 4 := rfl
  have hwritten : (written (fresh (inSize t)) 36 t.script.length).length = get_compact_uint_size t.script.length :=
    length_written (by omega)
  have hmod : (36 + get_compact_uint_size t.script.length + t.script.length + 4) % 2 ^ 32 = inSize t := Nat.mod_eq_of_lt hsize
  unfold btc_serialize_tx_in
  dsimp only
  rw [hmod, rev_copyl_hash hhash]
  generalize fresh (inSize t) = start at *
  have h1 : Region.store (fill start []) 0 t.prev_tx_hash.reverse =
      (pure (fill start ([] ++ t.prev_tx_hash.reverse)) : BtcRun Bytes) :=
    store_fill rfl (by rw [length_nil]; omega)
  rw [fill_nil, nil_append] at h1
  have h36 : (t.prev_tx_hash.reverse ++ leFix 4 t.prev_tx_index).length = 36 := by
    rw [length_append, hrev, length_leFix]
  rw [h1, pure_bind, uint_fill (by rw [hrev]) (by omega), pure_bind, compact_fill h36 (by omega), pure_bind]
  have hdone : (t.prev_tx_hash.reverse ++ leFix 4 t.prev_tx_index ++ written start 36 t.script.length).length =
      36 + get_compact_uint_size t.script.length := by
    rw [length_append, h36, hwritten]
  have htail : start.drop (36 + get_compact_uint_size t.script.length + t.script.length) =
      start.drop ((t.prev_tx_hash.reverse ++ leFix 4 t.prev_tx_index ++ written start 36 t.script.length) ++ t.script).length := by
    rw [length_append, hdone]
  unfold inBytes
  rw [htail]
  generalize t.prev_tx_hash.reverse ++ leFix 4 t.prev_tx_index ++ written start 36 t.script.length = done at *
  have hfour : (leFix 4 t.sequence).length ≤ (t.script ++ start.drop (done ++ t.script).length).length := by
    rw [length_leFix, length_append, length_drop, length_append]
    omega
  rw [store_fill (by rw [hdone]) (by omega), pure_bind, uint_to_le_eq, fill, append_assoc,
    store_append (by rw [hdone]) hfour, length_leFix]

end Input

/-! ## Outputs -/

def outSize (t : TxOut) : Nat := 8 + get_compact_uint_size t.script.length + t.script.length

def outBytes (start : Bytes) (t : TxOut) : Bytes := leFix 8 t.value ++ written start 8 t.script.length ++ t.script

section Output
variable {fresh : Nat → Bytes} (hfresh : FreshSizes fresh) {t : TxOut}

theorem script_le_of_ok {b : Bytes} (h : Guarded.ok (btc_serialize_tx_out fresh t) b) :
    t.script.length ≤ MAX_SCRIPT_SIZE_BYTES := by
  unfold btc_serialize_tx_out at h
  simp only [Guarded.ok_check] at h
  exact Nat.le_of_not_lt h.1

include hfresh in
theorem serialize_tx_out_eq (hscript : t.script.length ≤ MAX_SCRIPT_SIZE_BYTES) :
    btc_serialize_tx_out fresh t = pure (outBytes (fresh (outSize t)) t) := by
  have hmax : MAX_SCRIPT_SIZE_BYTES = 10000 := rfl
  have hpos := size_pos t.script.length
  have hlen := hfresh (outSize t)
  have hroom : outSize t = 8 + get_compact_uint_size t.script.length + t.script.length := rfl
  have hmod : (8 + get_compact_uint_size t.script.length + t.script.length) % 2 ^ 32 = outSize t := Nat.mod_eq_of_lt (by omega)
  have hwritten : (written (fresh (outSize t)) 8 t.script.length).length = get_compact_uint_size t.script.length :=
    length_written (by omega)
  unfold btc_serialize_tx_out
  dsimp only
  rw [if_neg (Nat.not_lt.2 hscript), hmod]
  generalize fresh (outSize t) = start at *
  have h1 : long_to_le (fill start []) 0 t.value = pure (fill start ([] ++ leFix 8 t.value)) := by
    rw [long_to_le_eq]
    exact store_fill rfl (by rw [length_leFix, length_nil]; omega)
  rw [fill_nil, nil_append] at h1
  have hdone : (leFix 8 t.value ++ written start 8 t.script.length).length = 8 + get_compact_uint_size t.script.length := by
    rw [length_append, length_leFix, hwritten]
  rw [h1, pure_bind, compact_fill (length_leFix _ _) (by omega), pure_bind, store_fill (by rw [hdone]) (by omega),
    fill_all (by rw [length_append]; omega), outBytes]

end Output

/-! ## Transactions -/

def outputsStop (tx : Tx) : Nat :=
  (if tx.flag then 6 else 4) + get_compact_uint_size tx.input_count + tx.input.length + get_compact_uint_size tx.output_count +
    tx.output.length

/-- The size of a serialized transaction. -/
def txSize (tx : Tx) : Nat := outputsStop tx + (if tx.flag then tx.witnesses.length else 0) + 4

structure Serializes (tx : Tx) : Prop where
  input : tx.input ≠ []
  output : tx.output ≠ []
  witnesses : tx.flag = true → tx.witnesses ≠ [] ∧ tx.output.length ≤ tx.witnesses.length
  size : txSize tx < 2 ^ 32

/-- The part in front of the witnesses. -/
def frontBytes (start : Bytes) (tx : Tx) : Bytes :=
  leFix 4 tx.version ++ (if tx.flag then [0, 1] else []) ++ written start (if tx.flag then 6 else 4) tx.input_count ++
    tx.input ++ written start ((if tx.flag then 6 else 4) + get_compact_uint_size tx.input_count + tx.input.length) tx.output_count ++
    tx.output

/-- The rest: the lock time, in a transaction with witnesses at the length of the outputs. -/
def tailBytes (start : Bytes) (tx : Tx) : Bytes :=
  if tx.flag then
    (tx.witnesses ++ start.drop (txSize tx - 4)).take tx.output.length ++ leFix 4 tx.lock_time ++
      (tx.witnesses ++ start.drop (txSize tx - 4)).drop (tx.output.length + 4)
  else leFix 4 tx.lock_time

section Buffer
variable {tx : Tx} {start : Bytes}

theorem raw_tx_size_eq (h : txSize tx < 2 ^ 32) : btc_get_raw_tx_size tx = txSize tx := by
  unfold btc_get_raw_tx_size
  have hsum : 4 + (if tx.flag then 2 else 0) + get_compact_uint_size tx.input_count + tx.input.length +
      get_compact_uint_size tx.output_count + tx.output.length + (if tx.flag then tx.witnesses.length else 0) + 4 = txSize tx := by
    unfold txSize outputsStop
    split_ifs <;> omega
  rw [hsum, Nat.mod_eq_of_lt h]

variable (hlen : start.length = txSize tx)
include hlen

theorem length_frontBytes : (frontBytes start tx).length = outputsStop tx := by
  unfold txSize outputsStop at *
  have hmark : (if tx.flag then [0, 1] else [] : Bytes).length + 4 = if tx.flag then 6 else 4 := by
    split_ifs <;> rfl
  unfold frontBytes
  rw [length_append, length_append, length_append, length_append, length_append, length_leFix,
    length_written (by omega), length_written (by omega)]
  omega

/-- The parts up to the outputs are written one behind the other. -/
theorem front_fill (f : Bytes → BtcRun Bytes) : (do
    let dst ← uint_to_le start 0 tx.version
    let dst ← Region.store dst 4 (if tx.flag then [0, 1] else [])
    let dst ← long_to_compact_uint dst (if tx.flag then 6 else 4) tx.input_count
    let dst ← Region.store dst ((if tx.flag then 6 else 4) + get_compact_uint_size tx.input_count : Nat) tx.input
    let dst ← long_to_compact_uint dst ((if tx.flag then 6 else 4) + get_compact_uint_size tx.input_count + tx.input.length)
      tx.output_count
    let dst ← Region.store dst ((if tx.flag then 6 else 4) + get_compact_uint_size tx.input_count + tx.input.length +
      get_compact_uint_size tx.output_count : Nat) tx.output
    f dst) = f (fill start (frontBytes start tx)) := by
  unfold txSize outputsStop at hlen
  have hmark : (leFix 4 tx.version ++ if tx.flag then [0, 1] else []).length = if tx.flag then 6 else 4 := by
    split_ifs <;> simp [length_leFix]
  have hfirst : uint_to_le (fill start []) 0 tx.version = pure (fill start ([] ++ leFix 4 tx.version)) :=
    uint_fill rfl (by rw [length_nil]; omega)
  rw [fill_nil, nil_append] at hfirst
  unfold frontBytes
  rw [hfirst, pure_bind, store_fill (by rw [length_leFix]; rfl) (by rw [← length_append]; omega), pure_bind]
  -- what is written so far, with its length
  generalize leFix 4 tx.version ++ (if tx.flag then [0, 1] else []) = done at *
  generalize (if tx.flag then 6 else 4 : Nat) = head at *
  have hinputs : (done ++ written start head tx.input_count).length = head + get_compact_uint_size tx.input_count := by
    rw [length_append, hmark, length_written (by omega)]
  rw [compact_fill hmark (by omega), pure_bind, store_fill (by rw [hinputs]) (by omega), pure_bind]
  generalize done ++ written start head tx.input_count = done at *
  generalize head + get_compact_uint_size tx.input_count = head at *
  have hin : (done ++ tx.input).length = head + tx.input.length := by rw [length_append, hinputs]
  generalize done ++ tx.input = done at *
  generalize head + tx.input.length = head at *
  have houtputs : (done ++ written start head tx.output_count).length = head + get_compact_uint_size tx.output_count := by
    rw [length_append, hin, length_written (by omega)]
  rw [compact_fill hin (by omega), pure_bind, store_fill (by rw [houtputs]) (by omega), pure_bind]

/-- The lock time is written as many bytes behind the outputs as the outputs have. -/
theorem tail_fill (h : Serializes tx) : (do
    let dst ← Region.store (fill start (frontBytes start tx)) (outputsStop tx : Nat) (if tx.flag then tx.witnesses else [])
    uint_to_le dst (if tx.flag then outputsStop tx + tx.output.length else outputsStop tx) tx.lock_time) =
      pure (frontBytes start tx ++ tailBytes start tx) := by
  have hfront := length_frontBytes hlen
  have hsize : txSize tx = outputsStop tx + (if tx.flag then tx.witnesses.length else 0) + 4 := rfl
  unfold tailBytes
  cases hflag : tx.flag with
  | false =>
    simp only [hflag, Bool.false_eq_true, if_false] at hsize ⊢
    rw [store_fill (by rw [hfront]) (by rw [length_nil]; omega), pure_bind, append_nil,
      uint_fill hfront.symm (by omega), fill_all (by rw [length_append, hfront, length_leFix]; omega)]
  | true =>
    obtain ⟨-, hle⟩ := h.witnesses hflag
    simp only [hflag, if_true] at hsize ⊢
    have hrest : start.drop (frontBytes start tx ++ tx.witnesses).length = start.drop (txSize tx - 4) := by
      rw [length_append, hfront]
      congr 1
      omega
    have hbody : (tx.witnesses ++ start.drop (txSize tx - 4)).length = tx.witnesses.length + 4 := by
      rw [length_append, length_drop]
      omega
    rw [store_fill (by rw [hfront]) (by omega), pure_bind, fill, hrest, append_assoc]
    generalize tx.witnesses ++ start.drop (txSize tx - 4) = body at *
    have htake : (frontBytes start tx ++ body.take tx.output.length).length = outputsStop tx + tx.output.length := by
      rw [length_append, hfront, length_take]
      omega
    have hsplit : frontBytes start tx ++ body =
        frontBytes start tx ++ body.take tx.output.length ++ body.drop tx.output.length := by
      rw [append_assoc, take_append_drop]
    rw [hsplit, uint_to_le_eq, store_append (by rw [htake]) (by rw [length_leFix, length_drop]; omega), length_leFix,
      drop_drop, append_assoc, append_assoc, append_assoc]

end Buffer

section Transaction
variable {fresh : Nat → Bytes} (hfresh : FreshSizes fresh) {tx : Tx}
include hfresh

theorem serializes_of_ok {b : Bytes} (h : Guarded.ok (btc_serialize_tx fresh tx) b) : Serializes tx := by
  unfold btc_serialize_tx btc_get_raw_tx_size at h
  simp only [Guarded.ok_check, Guarded.ok_bind] at h
  obtain ⟨hparts, hwit, r1, h1, r2, h2, r3, h3, r4, h4, r5, h5, r6, h6, r7, h7, h8⟩ := h
  rw [uint_to_le_eq] at h8
  have hw := (ok_store.1 h7).1.2
  have hl := (ok_store.1 h8).1.2
  rw [length_of_ok_store h7, length_leFix] at hl
  rw [length_of_ok_store h6, length_of_ok_compact h5, length_of_ok_store h4, length_of_ok_compact h3,
    length_of_ok_store h2, length_of_ok_uint h1, hfresh] at hw hl
  have hinput : tx.input ≠ [] := fun h => hparts (.inl (by rw [h]; rfl))
  have houtput : tx.output ≠ [] := fun h => hparts (.inr (by rw [h]; rfl))
  have hsize : txSize tx = outputsStop tx + (if tx.flag then tx.witnesses.length else 0) + 4 := rfl
  have hstop : outputsStop tx = (if tx.flag then 6 else 4) + get_compact_uint_size tx.input_count + tx.input.length +
    get_compact_uint_size tx.output_count + tx.output.length := rfl
  cases hflag : tx.flag with
  | false =>
    simp only [hflag, Bool.false_eq_true, if_false] at hw hl hsize hstop
    exact ⟨hinput, houtput, fun h => absurd (h.symm.trans hflag) (by decide), by omega⟩
  | true =>
    simp only [hflag, if_true] at hw hl hsize hstop
    refine ⟨hinput, houtput, fun _ => ⟨fun h => hwit ⟨hflag, by rw [h]; rfl⟩, by omega⟩, by omega⟩

theorem serialize_tx_eq (h : Serializes tx) :
    btc_serialize_tx fresh tx = pure (frontBytes (fresh (txSize tx)) tx ++ tailBytes (fresh (txSize tx)) tx) := by
  have hlen := hfresh (txSize tx)
  unfold btc_serialize_tx
  rw [if_neg (by rintro (h' | h'); exacts [h.input (length_eq_zero_iff.1 h'), h.output (length_eq_zero_iff.1 h')]),
    if_neg (by rintro ⟨hf, h'⟩; exact (h.witnesses hf).1 (length_eq_zero_iff.1 h')), raw_tx_size_eq h.size]
  exact (front_fill hlen _).trans (tail_fill hlen h)

end Transaction

end In3.Btc
