import In3.Btc.RoundTrip
/-!
# The transactions that are read back

A transaction is plain if its inputs have no script, its counts and script lengths have one byte, its
values have 32 bits, and its witnesses are as long as its outputs (or there are none without the flag).
Its bytes do not depend on the memory, and it is read back. For every other transaction there is a byte
such that it is not read back when the memory holds that byte everywhere.
-/
open Lib Guarded List

namespace In3.Btc

/-! ## The bytes of a plain transaction -/

/-- An input without a script. -/
def encIn (x : TxIn) : Bytes := x.prev_tx_hash.reverse ++ leFix 4 x.prev_tx_index ++ [0] ++ leFix 4 x.sequence

def encOut (y : TxOut) : Bytes := leFix 8 y.value ++ [UInt8.ofNat y.script.length] ++ y.script

theorem leNat_leFix_four {v : Nat} (h : v < 2 ^ 32) : leNat (leFix 4 v) = v := by
  rw [leNat_leFix]
  omega

variable {start : Bytes} {x : TxIn} {y : TxOut}

/-- Without a script no byte of the memory is left in an input. -/
theorem inBytes_plain (hscript : x.script = []) (hstart : start.length = inSize x) :
    inBytes start x = encIn x := by
  have hsize : inSize x = 41 := by
    unfold inSize
    rw [hscript]
    rfl
  have hrest : start.drop 41 = [] := drop_of_length_le (by omega)
  unfold inBytes encIn written
  rw [hscript, length_nil, size_one_iff.2 (by omega), nil_append, drop_drop, hrest, append_nil]
  rfl

/-- Nor in an output with a short script. -/
theorem outBytes_short (hscript : y.script.length ≤ 0xFC) : outBytes start y = encOut y := by
  unfold outBytes encOut written
  rw [if_pos hscript]

theorem length_encIn (hhash : x.prev_tx_hash.length = 32) : (encIn x).length = 41 := by
  unfold encIn
  simp [hhash, length_leFix]

theorem length_encOut (y : TxOut) : (encOut y).length = 9 + y.script.length := by
  unfold encOut
  simp only [length_append, length_leFix, length_singleton]

/-- Such an input is read back, with its hash reversed, whatever follows it. -/
theorem reads_encIn (hhash : x.prev_tx_hash.length = 32) (hindex : x.prev_tx_index < 2 ^ 32) (hsequence : x.sequence < 2 ^ 32)
    (hscript : x.script = []) (rest : Bytes) : ReadsIn (encIn x ++ rest) x.flip (encIn x).length := by
  have hrev : x.prev_tx_hash.reverse.length = 32 := by rw [length_reverse, hhash]
  have h36 : (x.prev_tx_hash.reverse ++ leFix 4 x.prev_tx_index).length = 36 := by rw [length_append, hrev, length_leFix]
  have h37 : (x.prev_tx_hash.reverse ++ leFix 4 x.prev_tx_index ++ [0]).length = 37 := by
    rw [length_append, h36, length_singleton]
  have hat32 : (encIn x ++ rest).drop 32 = leFix 4 x.prev_tx_index ++ ([0] ++ leFix 4 x.sequence ++ rest) := by
    unfold encIn
    simp only [append_assoc]
    exact drop_left' hrev
  have hat36 : (encIn x ++ rest).drop 36 = UInt8.ofNat 0 :: (leFix 4 x.sequence ++ rest) := by
    unfold encIn
    rw [append_assoc, append_assoc]
    exact drop_left' h36
  have hat37 : (encIn x ++ rest).drop 37 = leFix 4 x.sequence ++ rest := by
    unfold encIn
    rw [append_assoc]
    exact drop_left' h37
  have hnone : x.flip.script.length = 0 := by
    show x.script.length = 0
    rw [hscript, length_nil]
  have hfront : (encIn x ++ rest).take 32 = x.prev_tx_hash.reverse := by
    unfold encIn
    simp only [append_assoc]
    exact take_left' hrev
  refine ⟨1, ?_, ?_, ?_, ?_⟩
  · rw [hat36, hnone]
    exact readVar_small (by omega) _
  · rw [hnone, length_encIn hhash]
  · rw [length_append]
    omega
  · rw [hnone, hfront, hat32, hat37, take_left' (length_leFix _ _), take_left' (length_leFix _ _),
      leNat_leFix_four hindex, leNat_leFix_four hsequence, take_zero, ← hscript]
    rfl

/-- An output is read back while its value has 32 bits. -/
theorem reads_encOut (hvalue : y.value < 2 ^ 32) (hscript : y.script.length ≤ 0xFC) (rest : Bytes) :
    ReadsOut (encOut y ++ rest) y (encOut y).length := by
  have hat9 : (encOut y ++ rest).drop 9 = y.script ++ rest := by
    unfold encOut
    rw [append_assoc]
    exact drop_left' (by rw [length_append, length_leFix, length_singleton])
  have hfront : (encOut y ++ rest).take 8 = leFix 8 y.value := by
    exact take_left' (length_leFix _ _)
  have hread : long_value (leFix 8 y.value) = y.value := by
    have hval : leNat (leFix 8 y.value) = y.value := by
      rw [leNat_leFix]
      omega
    rw [long_value_small (length_leFix _ _) (by omega), hval]
  refine ⟨1, ?_, ?_, ?_, ?_⟩
  · exact readVar_small hscript _
  · rw [length_encOut]
  · rw [length_append]
    omega
  · rw [hat9, hfront, hread, take_left' rfl]

/-! ## The parts are serialized in a row -/

section Serialize
variable {mem : Memory} {b : Bytes} {k : Nat} {xs : List TxIn} {ys : List TxOut}

/-- Inputs whose bytes do not depend on their place are written one after the other. -/
theorem serialize_inputs_eq {enc : TxIn → Bytes} (hhash : ∀ x ∈ xs, x.prev_tx_hash.length = 32)
    (hsize : ∀ x ∈ xs, inSize x < 2 ^ 32) (henc : ∀ k, ∀ x ∈ xs, inBytes (mem.input k (inSize x)) x = enc x) (k : Nat) :
    serialize_inputs mem k xs = pure (xs.map enc).flatten := by
  induction xs generalizing k with
  | nil => rfl
  | cons x xs ih =>
    obtain ⟨hhx, hhxs⟩ := forall_mem_cons.1 hhash
    obtain ⟨hsx, hsxs⟩ := forall_mem_cons.1 hsize
    unfold serialize_inputs
    rw [serialize_tx_in_eq (mem.input_size k) hhx hsx, ih hhxs hsxs (fun k x hx => henc k x (mem_cons_of_mem _ hx)),
      henc k x mem_cons_self]
    rfl

theorem serialize_outputs_eq {enc : TxOut → Bytes} (hscript : ∀ y ∈ ys, y.script.length ≤ MAX_SCRIPT_SIZE_BYTES)
    (henc : ∀ k, ∀ y ∈ ys, outBytes (mem.output k (outSize y)) y = enc y) (k : Nat) :
    serialize_outputs mem k ys = pure (ys.map enc).flatten := by
  induction ys generalizing k with
  | nil => rfl
  | cons y ys ih =>
    obtain ⟨hy, hys⟩ := forall_mem_cons.1 hscript
    unfold serialize_outputs
    rw [serialize_tx_out_eq (mem.output_size k) hy, ih hys (fun k y hy => henc k y (mem_cons_of_mem _ hy)), henc k y mem_cons_self]
    rfl

theorem inSize_of_ok_serialize (h : ok (serialize_inputs mem k xs) b) :
    ∀ x ∈ xs, inSize x < 2 ^ 32 := by
  induction xs generalizing k b with
  | nil => exact fun x hx => absurd hx not_mem_nil
  | cons x xs ih =>
    unfold serialize_inputs at h
    simp only [ok_bind] at h
    obtain ⟨_, hx, _, hxs, -⟩ := h
    exact forall_mem_cons.2 ⟨inSize_lt_of_ok (mem.input_size k) hx, ih hxs⟩

theorem script_of_ok_serialize (h : ok (serialize_outputs mem k ys) b) :
    ∀ y ∈ ys, y.script.length ≤ MAX_SCRIPT_SIZE_BYTES := by
  induction ys generalizing k b with
  | nil => exact fun y hy => absurd hy not_mem_nil
  | cons y ys ih =>
    unfold serialize_outputs at h
    simp only [ok_bind] at h
    obtain ⟨_, hy, _, hys, -⟩ := h
    exact forall_mem_cons.2 ⟨script_le_of_ok hy, ih hys⟩

end Serialize

/-! ## A string with the parts of a transaction -/

/-- The parts in their places; `C` and `D` are the counts. -/
def layout (t : Transaction) (C I D O T : Bytes) : Bytes :=
  leFix 4 t.version ++ ((if t.flag then [0, 1] else []) ++ (C ++ (I ++ (D ++ (O ++ T)))))

section Layout
variable {t : Transaction} {C I D O T : Bytes}

theorem layout_at_four : (layout t C I D O T).drop 4 = (if t.flag then [0, 1] else []) ++ (C ++ (I ++ (D ++ (O ++ T)))) :=
  drop_left' (length_leFix _ _)

theorem layout_at_count : (layout t C I D O T).drop (if t.flag then 6 else 4) = C ++ (I ++ (D ++ (O ++ T))) := by
  have hsplit : (if t.flag then 6 else 4) = 4 + (if t.flag then [0, 1] else [] : Bytes).length := by
    split_ifs <;> rfl
  rw [hsplit, ← drop_drop, layout_at_four, drop_left]

theorem layout_at_inputs : (layout t C I D O T).drop ((if t.flag then 6 else 4) + C.length) = I ++ (D ++ (O ++ T)) := by
  rw [← drop_drop, layout_at_count, drop_left]

theorem layout_at_output_count : (layout t C I D O T).drop ((if t.flag then 6 else 4) + C.length + I.length) = D ++ (O ++ T) := by
  rw [← drop_drop, layout_at_inputs, drop_left]

theorem layout_at_outputs : (layout t C I D O T).drop ((if t.flag then 6 else 4) + C.length + I.length + D.length) = O ++ T := by
  rw [← drop_drop, layout_at_output_count, drop_left]

theorem layout_at_tail :
    (layout t C I D O T).drop ((if t.flag then 6 else 4) + C.length + I.length + D.length + O.length) = T := by
  rw [← drop_drop, layout_at_outputs, drop_left]

theorem length_layout : (layout t C I D O T).length =
    (if t.flag then 6 else 4) + C.length + I.length + D.length + O.length + T.length := by
  have hmark : (if t.flag then [0, 1] else [] : Bytes).length + 4 = if t.flag then 6 else 4 := by
    split_ifs <;> rfl
  unfold layout
  simp only [length_append, length_leFix]
  omega

theorem layout_last (hT : 4 ≤ T.length) :
    (layout t C I D O T).drop ((layout t C I D O T).length - 4) = T.drop (T.length - 4) := by
  have hsplit : (layout t C I D O T).length - 4 =
      (if t.flag then 6 else 4) + C.length + I.length + D.length + O.length + (T.length - 4) := by
    rw [length_layout]
    omega
  rw [hsplit, ← drop_drop, layout_at_tail]

end Layout

/-- The transaction as it is passed on, with its parts. -/
def Transaction.toTx (t : Transaction) (I O : Bytes) : Tx :=
  ⟨t.version, t.flag, t.inputs.length, I, t.outputs.length, O, t.witnesses, t.lock_time⟩

/-- The serialization is laid out as the parser expects it. -/
theorem serialized_eq_layout {t : Transaction} {I O : Bytes} :
    frontBytes start (t.toTx I O) ++ tailBytes start (t.toTx I O) =
      layout t (written start (if t.flag then 6 else 4) t.inputs.length) I
        (written start ((if t.flag then 6 else 4) + get_compact_uint_size t.inputs.length + I.length) t.outputs.length) O
        (tailBytes start (t.toTx I O)) := by
  unfold frontBytes layout
  simp only [append_assoc]
  rfl

/-! ## Plain transactions come back -/

/-- The transactions that come back. -/
structure Transaction.Plain (t : Transaction) : Prop where
  inputs : t.inputs ≠ [] ∧ t.inputs.length ≤ 0xFC
  input_scripts : ∀ x ∈ t.inputs, x.script = []
  outputs : t.outputs ≠ [] ∧ t.outputs.length ≤ 0xFC
  output_parts : ∀ y ∈ t.outputs, y.value < 2 ^ 32 ∧ y.script.length ≤ 0xFC
  witnesses : t.witnesses.length = if t.flag then (t.outputs.map fun y => 9 + y.script.length).sum else 0

theorem length_le_length_flatten {l : List Bytes} (h : ∀ b ∈ l, 0 < b.length) : l.length ≤ l.flatten.length := by
  induction l with
  | nil => exact Nat.zero_le _
  | cons b l ih =>
    obtain ⟨hb, hl⟩ := forall_mem_cons.1 h
    have hrest := ih hl
    rw [flatten_cons, length_append, length_cons]
    omega

theorem length_encIns {xs : List TxIn} (hhash : ∀ x ∈ xs, x.prev_tx_hash.length = 32) : (xs.map encIn).flatten.length = 41 * xs.length := by
  have hlen : ∀ b ∈ xs.map encIn, b.length = 41 := by
    intro b hb
    obtain ⟨x, hx, rfl⟩ := mem_map.1 hb
    exact length_encIn (hhash x hx)
  rw [length_flatten_of_forall hlen, length_map]

theorem length_encOuts (ys : List TxOut) : (ys.map encOut).flatten.length = (ys.map fun y => 9 + y.script.length).sum := by
  rw [length_flatten, map_map]
  congr 1
  exact map_congr_left fun y _ => length_encOut y

theorem length_encOuts_le {ys : List TxOut} (h : ∀ y ∈ ys, y.script.length ≤ 0xFC) : (ys.map encOut).flatten.length ≤ 261 * ys.length := by
  induction ys with
  | nil => exact Nat.zero_le _
  | cons y ys ih =>
    obtain ⟨hy, hys⟩ := forall_mem_cons.1 h
    have hrest := ih hys
    rw [map_cons, flatten_cons, length_append, length_encOut, length_cons]
    omega

/-- The flag is read off the first count, which is not zero. -/
theorem readFlag_layout {flag : Bool} {x : UInt8} {rest : Bytes} (hx : x ≠ 0) :
    readFlag ((if flag then [0, 1] else []) ++ (x :: rest)) = .ok flag := by
  cases flag with
  | true => rfl
  | false =>
    rcases rest with _ | ⟨y, rest⟩
    · exact if_neg hx
    · exact if_neg hx

section Plain
variable {t : Transaction}

def plainTx (t : Transaction) : Tx := t.toTx (t.inputs.map encIn).flatten (t.outputs.map encOut).flatten

def plainBytes (t : Transaction) : Bytes :=
  layout t [UInt8.ofNat t.inputs.length] (plainTx t).input [UInt8.ofNat t.outputs.length] (plainTx t).output
    (t.witnesses ++ leFix 4 t.lock_time)

theorem Transaction.Plain.lengths (hr : t.Ranged) (hp : t.Plain) :
    (plainTx t).input.length = 41 * t.inputs.length ∧ (plainTx t).output.length ≤ 261 * t.outputs.length ∧
      t.outputs.length ≤ (plainTx t).output.length ∧ t.witnesses.length = (if t.flag then (plainTx t).output.length else 0) ∧
      (1 ≤ t.inputs.length ∧ t.inputs.length ≤ 0xFC) ∧ 1 ≤ t.outputs.length ∧ t.outputs.length ≤ 0xFC := by
  have hnine : (t.outputs.map encOut).length ≤ (t.outputs.map encOut).flatten.length := by
    refine length_le_length_flatten fun b hb => ?_
    obtain ⟨y, -, rfl⟩ := mem_map.1 hb
    rw [length_encOut]
    omega
  rw [length_map] at hnine
  exact ⟨length_encIns fun x hx => (hr.inputs x hx).1, length_encOuts_le fun y hy => (hp.output_parts y hy).2, hnine,
    hp.witnesses.trans (by rw [← length_encOuts]; rfl), ⟨length_pos_of_ne_nil hp.inputs.1, hp.inputs.2⟩,
    length_pos_of_ne_nil hp.outputs.1, hp.outputs.2⟩

theorem Transaction.Plain.serializes (hr : t.Ranged) (hp : t.Plain) :
    Serializes (plainTx t) := by
  obtain ⟨hin, hout, hnine, hwit, hic, hoc⟩ := hp.lengths hr
  refine ⟨ne_nil_of_length_pos (by omega), ne_nil_of_length_pos (by omega), ?_, ?_⟩
  · intro hflag
    rw [show t.flag = true from hflag, if_pos rfl] at hwit
    exact ⟨ne_nil_of_length_pos (show 0 < t.witnesses.length by omega), hwit.ge⟩
  · have hpos1 := size_pos t.inputs.length
    have hpos2 := size_pos t.outputs.length
    show (if t.flag then 6 else 4) + get_compact_uint_size t.inputs.length + (plainTx t).input.length +
      get_compact_uint_size t.outputs.length + (plainTx t).output.length + (if t.flag then t.witnesses.length else 0) + 4 < 2 ^ 32
    split_ifs at hwit ⊢ <;> omega

theorem tailBytes_plain (hr : t.Ranged) (hp : t.Plain) (hstart : start.length = txSize (plainTx t)) :
    tailBytes start (plainTx t) = t.witnesses ++ leFix 4 t.lock_time := by
  obtain ⟨-, -, -, hwit, -⟩ := hp.lengths hr
  unfold tailBytes
  show (if t.flag then (t.witnesses ++ _).take _ ++ leFix 4 t.lock_time ++ (t.witnesses ++ _).drop _ else leFix 4 t.lock_time) = _
  cases hflag : t.flag with
  | false =>
    rw [hflag] at hwit
    rw [if_neg (by decide), length_eq_zero_iff.1 hwit, nil_append]
  | true =>
    rw [hflag, if_pos rfl] at hwit
    have hrest : (start.drop (txSize (plainTx t) - 4)).length ≤ 4 := by
      rw [length_drop]
      omega
    rw [if_pos rfl, take_left' hwit, drop_of_length_le (by rw [length_append]; omega), append_nil]

/-- The bytes of a plain transaction, for each memory. -/
theorem serialize_plain (hr : t.Ranged) (hp : t.Plain) (mem : Memory) : serialize mem t = pure (plainBytes t) := by
  have hinputs : serialize_inputs mem 0 t.inputs = pure (t.inputs.map encIn).flatten := by
    refine serialize_inputs_eq (fun x hx => (hr.inputs x hx).1) (fun x hx => ?_) (fun k x hx => ?_) 0
    · unfold inSize
      rw [hp.input_scripts x hx]
      decide
    · exact inBytes_plain (hp.input_scripts x hx) (mem.input_size k _)
  have houtputs : serialize_outputs mem 0 t.outputs = pure (t.outputs.map encOut).flatten := by
    refine serialize_outputs_eq (fun y hy => ?_) (fun k y hy => outBytes_short (hp.output_parts y hy).2) 0
    exact (hp.output_parts y hy).2.trans (by decide)
  have hs := hp.serializes hr
  have htail := tailBytes_plain hr hp (mem.tx_size _)
  unfold serialize
  rw [hinputs, houtputs]
  refine (serialize_tx_eq mem.tx_size hs).trans ?_
  unfold plainBytes plainTx at *
  rw [serialized_eq_layout, htail]
  unfold written
  rw [if_pos hp.inputs.2, if_pos hp.outputs.2]
  rfl

/-- And the transaction that is read from them. -/
theorem reads_plain (hr : t.Ranged) (hp : t.Plain) :
    ReadsTx (plainBytes t) { t with inputs := t.inputs.map TxIn.flip } 1 (plainTx t).input.length 1
      (plainTx t).output.length := by
  have hlen : (plainBytes t).length < 2 ^ 32 := by
    obtain ⟨hin, hout, -, hwit, hic, hoc⟩ := hp.lengths hr
    unfold plainBytes
    rw [length_layout, length_append, length_leFix, length_singleton, length_singleton]
    split_ifs at hwit ⊢ <;> omega
  have hpos := length_pos_of_ne_nil hp.inputs.1
  have hle := hp.inputs.2
  have hne : UInt8.ofNat t.inputs.length ≠ 0 := by
    intro h
    have := congrArg UInt8.toNat h
    replace this : t.inputs.length % 2 ^ 8 = 0 := this
    omega
  unfold plainBytes at *
  constructor
  · refine readInt_eq_ok.2 ⟨?_, ?_⟩
    · rw [length_layout]
      split_ifs <;> omega
    · unfold layout
      rw [take_left' (length_leFix _ _), leNat_leFix_four hr.version]
  · exact readFlag_layout hne
  · show readVar ((layout t _ _ _ _ _).drop (if t.flag then 6 else 4)) = _
    rw [layout_at_count, length_map]
    exact readVar_small hp.inputs.2 _
  · show Row ReadsIn _ ((layout t _ _ _ _ _).drop ((if t.flag then 6 else 4) + [UInt8.ofNat t.inputs.length].length)) _
    rw [layout_at_inputs]
    refine row_flatten (fun x hx rest => ?_) _
    obtain ⟨hhash, hindex, hsequence⟩ := hr.inputs x hx
    exact reads_encIn hhash hindex hsequence (hp.input_scripts x hx) rest
  · show readVar ((layout t _ _ _ _ _).drop ((if t.flag then 6 else 4) + [UInt8.ofNat t.inputs.length].length +
      (plainTx t).input.length)) = _
    rw [layout_at_output_count]
    exact readVar_small hp.outputs.2 _
  · show Row ReadsOut t.outputs ((layout t _ _ _ _ _).drop ((if t.flag then 6 else 4) + [UInt8.ofNat t.inputs.length].length +
      (plainTx t).input.length + [UInt8.ofNat t.outputs.length].length)) _
    rw [layout_at_outputs]
    exact row_flatten_self (fun y hy => reads_encOut (hp.output_parts y hy).1 (hp.output_parts y hy).2) _
  · show ((layout t _ _ _ _ _).drop ((if t.flag then 6 else 4) + [UInt8.ofNat t.inputs.length].length +
      (plainTx t).input.length + [UInt8.ofNat t.outputs.length].length + (plainTx t).output.length)).take _ = _
    rw [layout_at_tail]
    refine take_left' ?_
    generalize hstop : (if t.flag then 6 else 4) + [UInt8.ofNat t.inputs.length].length + (plainTx t).input.length +
      [UInt8.ofNat t.outputs.length].length + (plainTx t).output.length = stop at *
    have htotal : (layout t [UInt8.ofNat t.inputs.length] (plainTx t).input [UInt8.ofNat t.outputs.length]
        (plainTx t).output (t.witnesses ++ leFix 4 t.lock_time)).length = stop + t.witnesses.length + 4 := by
      rw [length_layout, hstop, length_append, length_leFix, Nat.add_assoc]
    omega
  · have hsplit : (t.witnesses ++ leFix 4 t.lock_time).length - 4 = t.witnesses.length := by
      rw [length_append, length_leFix, Nat.add_sub_cancel]
    rw [layout_last (by rw [length_append, length_leFix]; omega), hsplit, drop_left, leNat_leFix_four hr.lock_time]

theorem comes_back_of_plain (hr : t.Ranged) (hp : t.Plain) (mem : Memory) : ComesBack mem t :=
  ⟨plainBytes t, by rw [serialize_plain hr hp mem, ok_pure], ok_parse_of_reads (reads_plain hr hp)⟩

end Plain

/-! ## Other transactions do not come back -/

/-- An input and an output, serialized in memory that holds `z` everywhere. -/
def inConst (z : UInt8) (x : TxIn) : Bytes := inBytes (replicate (inSize x) z) x

def outConst (z : UInt8) (y : TxOut) : Bytes := outBytes (replicate (outSize y) z) y

def otherByte (v : Nat) : UInt8 := if v / 2 ^ 24 = 0 then 1 else 0

/-- A byte that is not the highest one of a number. -/
theorem otherByte_ne (v : Nat) : (otherByte v).toNat ≠ v / 2 ^ 24 := by
  unfold otherByte
  split_ifs with h
  · rw [h]
    decide
  · exact fun h' => h h'.symm

variable {z : UInt8}

/-- The highest byte of the last four is the last one. -/
theorem lastFour_div {a : Bytes} (ha : 3 ≤ a.length) :
    leNat ((a ++ [z]).drop ((a ++ [z]).length - 4)) / 2 ^ 24 = z.toNat := by
  have hlen : (a ++ [z]).length - 4 = a.length - 3 := by
    rw [length_append, length_singleton]
    omega
  have hdrop : (a.drop (a.length - 3)).length = 3 := by
    rw [length_drop]
    omega
  have hlow := leNat_lt (a.drop (a.length - 3))
  rw [hlen, drop_append_of_le_length (by omega), leNat_append]
  rw [hdrop] at hlow ⊢
  simp only [leNat_cons, leNat_nil]
  omega

theorem length_inConst (hhash : x.prev_tx_hash.length = 32) : (inConst z x).length = inSize x := by
  have hroom : inSize x = 36 + get_compact_uint_size x.script.length + x.script.length + 4 := rfl
  unfold inConst inBytes
  simp only [length_append, length_reverse, length_leFix, length_drop, length_replicate]
  rw [length_written (by rw [length_replicate]; omega)]
  omega

theorem length_outConst (z : UInt8) (y : TxOut) : (outConst z y).length = outSize y := by
  have hroom : outSize y = 8 + get_compact_uint_size y.script.length + y.script.length := rfl
  unfold outConst outBytes
  rw [length_append, length_append, length_leFix, length_written (by rw [length_replicate]; omega), hroom]

theorem inConst_at_script (hhash : x.prev_tx_hash.length = 32) (rest : Bytes) :
    ∃ more, (inConst z x ++ rest).drop 36 = written (replicate (inSize x) z) 36 x.script.length ++ more := by
  unfold inConst inBytes
  simp only [append_assoc]
  rw [← append_assoc x.prev_tx_hash.reverse]
  exact ⟨_, drop_left' (by rw [length_append, length_reverse, hhash, length_leFix])⟩

theorem outConst_at_script (z : UInt8) (y : TxOut) (rest : Bytes) :
    ∃ more, (outConst z y ++ rest).drop 8 = written (replicate (outSize y) z) 8 y.script.length ++ more := by
  unfold outConst outBytes
  simp only [append_assoc]
  exact ⟨_, drop_left' (length_leFix _ _)⟩

/-- The sequence of an input with a script ends in a byte of the memory. -/
theorem inConst_last (hscript : x.script ≠ []) : ∃ a, inConst z x = a ++ [z] := by
  have hpos := length_pos_of_ne_nil hscript
  have hroom : inSize x = 36 + get_compact_uint_size x.script.length + x.script.length + 4 := rfl
  have hfour : (replicate (inSize x) z).drop (36 + get_compact_uint_size x.script.length + x.script.length) =
      replicate 3 z ++ [z] := by
    rw [drop_replicate, hroom, Nat.add_sub_cancel_left]
    rfl
  unfold inConst inBytes
  rw [hfour, ← append_assoc x.script, drop_append_of_le_length (by rw [length_append, length_replicate]; omega),
    ← append_assoc]
  exact ⟨_, rfl⟩

/-- For an input with a script there is a byte for which it is not read back. -/
theorem exists_not_readsIn (hhash : x.prev_tx_hash.length = 32) (hsize : inSize x < 2 ^ 32) (hscript : x.script ≠ []) :
    ∃ z, ∀ rest w, ¬ ReadsIn (inConst z x ++ rest) x.flip w := by
  have hroom : inSize x = 36 + get_compact_uint_size x.script.length + x.script.length + 4 := rfl
  by_cases hshort : x.script.length ≤ 0xFC
  · refine ⟨otherByte x.sequence, ?_⟩
    rintro rest w ⟨n, hvar, -, -, hx⟩
    obtain ⟨more, hmore⟩ := inConst_at_script (z := otherByte x.sequence) hhash rest
    have hlen := length_inConst (z := otherByte x.sequence) hhash
    obtain ⟨a, ha⟩ := inConst_last (z := otherByte x.sequence) hscript
    rw [size_one_iff.2 hshort] at hroom
    have hn : n = 1 := by
      unfold written at hmore
      rw [hmore, if_pos hshort] at hvar
      exact congrArg Prod.snd (Except.ok.inj (hvar.symm.trans (readVar_small hshort more)))
    have hseq : x.sequence = leNat ((inConst (otherByte x.sequence) x).drop ((inConst (otherByte x.sequence) x).length - 4)) := by
      have hplace : (inConst (otherByte x.sequence) x).length - 4 = 36 + n + x.script.length := by omega
      have htake : (((inConst (otherByte x.sequence) x) ++ rest).drop (36 + n + x.script.length)).take 4 =
          (inConst (otherByte x.sequence) x).drop (36 + n + x.script.length) := by
        rw [drop_append_of_le_length (by omega)]
        exact take_left' (by rw [length_drop]; omega)
      rw [hplace, ← htake]
      exact congrArg TxIn.sequence hx
    have hlong : 3 ≤ a.length := by
      have := congrArg List.length ha
      rw [length_append, length_singleton] at this
      omega
    have htop := lastFour_div (z := otherByte x.sequence) hlong
    rw [← ha, ← hseq] at htop
    exact otherByte_ne x.sequence htop.symm
  · refine ⟨unlucky x.script.length, ?_⟩
    rintro rest w ⟨n, hvar, -⟩
    obtain ⟨more, hmore⟩ := inConst_at_script (z := unlucky x.script.length) hhash rest
    rw [hmore] at hvar
    exact readVar_misread (by omega) (by omega) (by omega) hvar

/-- And for an output with a long value or script. -/
theorem exists_not_readsOut (hmax : y.script.length ≤ MAX_SCRIPT_SIZE_BYTES) (h : ¬ (y.value < 2 ^ 32 ∧ y.script.length ≤ 0xFC)) :
    ∃ z, ∀ rest w, ¬ ReadsOut (outConst z y ++ rest) y w := by
  have hroom : outSize y = 8 + get_compact_uint_size y.script.length + y.script.length := rfl
  have hten : MAX_SCRIPT_SIZE_BYTES = 10000 := rfl
  refine ⟨unlucky y.script.length, ?_⟩
  rintro rest w ⟨n, hvar, -, -, hy⟩
  have hvalue : y.value < 2 ^ 32 := by
    rw [hy]
    exact long_value_lt _
  obtain ⟨more, hmore⟩ := outConst_at_script (unlucky y.script.length) y rest
  rw [hmore] at hvar
  exact readVar_misread (by omega) (by omega) (by omega) hvar

section Const
variable {t : Transaction} {z : UInt8}

/-- The parts of a transaction, serialized in memory that holds `z` everywhere. -/
def constTx (z : UInt8) (t : Transaction) : Tx := t.toTx (t.inputs.map (inConst z)).flatten (t.outputs.map (outConst z)).flatten

/-- The fresh buffer for the whole. -/
def constStart (z : UInt8) (t : Transaction) : Bytes := replicate (txSize (constTx z t)) z

/-- The counts in it. -/
def inCount (z : UInt8) (t : Transaction) : Bytes := written (constStart z t) (if t.flag then 6 else 4) t.inputs.length

def outCount (z : UInt8) (t : Transaction) : Bytes :=
  written (constStart z t) ((if t.flag then 6 else 4) + get_compact_uint_size t.inputs.length + (constTx z t).input.length)
    t.outputs.length

def constBytes (z : UInt8) (t : Transaction) : Bytes :=
  layout t (inCount z t) (constTx z t).input (outCount z t) (constTx z t).output (tailBytes (constStart z t) (constTx z t))

/-- What it takes to come back from such memory. -/
structure ConstReads (z : UInt8) (t : Transaction) (n w m u : Nat) : Prop where
  in_size : ∀ x ∈ t.inputs, inSize x < 2 ^ 32
  out_script : ∀ y ∈ t.outputs, y.script.length ≤ MAX_SCRIPT_SIZE_BYTES
  serializes : Serializes (constTx z t)
  reads : ReadsTx (constBytes z t) { t with inputs := t.inputs.map TxIn.flip } n w m u

theorem serialize_inputs_const (hr : t.Ranged) (hsize : ∀ x ∈ t.inputs, inSize x < 2 ^ 32) :
    serialize_inputs (.const z) 0 t.inputs = pure (t.inputs.map (inConst z)).flatten :=
  serialize_inputs_eq (fun x hx => (hr.inputs x hx).1) hsize (fun _ _ _ => rfl) 0

theorem serialize_outputs_const (hscript : ∀ y ∈ t.outputs, y.script.length ≤ MAX_SCRIPT_SIZE_BYTES) :
    serialize_outputs (.const z) 0 t.outputs = pure (t.outputs.map (outConst z)).flatten :=
  serialize_outputs_eq hscript (fun _ _ _ => rfl) 0

/-- A transaction that comes back has been serialized and read. -/
theorem constReads_of_comes_back (hr : t.Ranged) (h : ComesBack (.const z) t) : ∃ n w m u, ConstReads z t n w m u := by
  obtain ⟨b, hb, hparse⟩ := h
  unfold serialize at hb
  simp only [ok_bind] at hb
  obtain ⟨I, hI, O, hO, hb⟩ := hb
  have hsize := inSize_of_ok_serialize hI
  have hscript := script_of_ok_serialize hO
  rw [serialize_inputs_const hr hsize, ok_pure] at hI
  rw [serialize_outputs_const hscript, ok_pure] at hO
  replace hb : ok (btc_serialize_tx (Memory.const z).tx (constTx z t)) b := by
    rw [constTx, hI, hO]
    exact hb
  have hs := serializes_of_ok (Memory.const z).tx_size hb
  have heq : constBytes z t = b := by
    rw [serialize_tx_eq (Memory.const z).tx_size hs, ok_pure] at hb
    rw [← hb]
    exact serialized_eq_layout.symm
  rw [← heq] at hparse
  obtain ⟨n, w, m, u, hreads⟩ := reads_of_ok_parse hparse
  exact ⟨n, w, m, u, hsize, hscript, hs, hreads⟩

theorem const_size (z : UInt8) (t : Transaction) :
    txSize (constTx z t) = (if t.flag then 6 else 4) + get_compact_uint_size t.inputs.length + (constTx z t).input.length +
      get_compact_uint_size t.outputs.length + (constTx z t).output.length + (if t.flag then t.witnesses.length else 0) + 4 := rfl

variable {k v : Nat}

theorem written_small (hv : v ≤ 0xFC) : written start k v = [UInt8.ofNat v] := if_pos hv

theorem readVar_written {rest : Bytes} {n : Nat} (hv : v ≤ 0xFC) (h : readVar (written start k v ++ rest) = .ok (v, n)) :
    n = (written start k v).length := by
  rw [written_small hv] at h ⊢
  exact congrArg Prod.snd (Except.ok.inj (h.symm.trans (readVar_small hv rest)))

theorem reads_inConst (hr : t.Ranged) (hx : x ∈ t.inputs) (hscript : x.script = []) (z : UInt8) (rest : Bytes) :
    ReadsIn (inConst z x ++ rest) x.flip (inConst z x).length := by
  obtain ⟨hhash, hindex, hsequence⟩ := hr.inputs x hx
  rw [inConst, inBytes_plain hscript length_replicate]
  exact reads_encIn hhash hindex hsequence hscript rest

theorem reads_outConst (hvalue : y.value < 2 ^ 32) (hscript : y.script.length ≤ 0xFC) (z : UInt8) (rest : Bytes) :
    ReadsOut (outConst z y ++ rest) y (outConst z y).length := by
  rw [outConst, outBytes_short hscript]
  exact reads_encOut hvalue hscript rest

section Reads
variable {n w m u : Nat} (h : ConstReads z t n w m u)
include h

theorem ConstReads.lengths (hr : t.Ranged) : t.inputs.length < 0xFFFFFFFF ∧ t.outputs.length < 0xFFFFFFFF := by
  have hsize := const_size z t
  have hlt := h.serializes.size
  have hin : (t.inputs.map (inConst z)).length ≤ (constTx z t).input.length := by
    refine length_le_length_flatten fun b hb => ?_
    obtain ⟨x, hx, rfl⟩ := mem_map.1 hb
    rw [length_inConst (hr.inputs x hx).1, inSize]
    omega
  have hout : (t.outputs.map (outConst z)).length ≤ (constTx z t).output.length := by
    refine length_le_length_flatten fun b hb => ?_
    obtain ⟨y, -, rfl⟩ := mem_map.1 hb
    rw [length_outConst, outSize]
    omega
  rw [length_map] at hin hout
  omega

/-- The count of inputs is read where it was written. -/
theorem ConstReads.input_count :
    ∃ rest, readVar (inCount z t ++ rest) = .ok (t.inputs.length, n) := by
  have hread : readVar ((constBytes z t).drop (if t.flag then 6 else 4)) = .ok ((t.inputs.map TxIn.flip).length, n) :=
    h.reads.input_count
  unfold constBytes at hread
  rw [layout_at_count, length_map] at hread
  exact ⟨_, hread⟩

variable (hr : t.Ranged) (hin : t.inputs.length ≤ 0xFC)
include hin

/-- With a short count the inputs are read where they were written. -/
theorem ConstReads.inputs_row : n = (inCount z t).length ∧
    ∃ rest, Row ReadsIn (t.inputs.map TxIn.flip) ((constTx z t).input ++ rest) w := by
  obtain ⟨rest, hread⟩ := h.input_count
  have hn : n = (inCount z t).length := readVar_written hin hread
  refine ⟨hn, ?_⟩
  have hrow : Row ReadsIn (t.inputs.map TxIn.flip) ((constBytes z t).drop ((if t.flag then 6 else 4) + n)) w := h.reads.inputs
  unfold constBytes at hrow
  rw [hn, layout_at_inputs] at hrow
  exact ⟨_, hrow⟩

variable (hscripts : ∀ x ∈ t.inputs, x.script = [])
include hr hscripts

theorem ConstReads.output_count : w = (constTx z t).input.length ∧
    ∃ rest, readVar (outCount z t ++ rest) = .ok (t.outputs.length, m) := by
  obtain ⟨hn, rest, hrow⟩ := h.inputs_row hin
  have hw : w = (constTx z t).input.length :=
    Row.unique (R := ReadsIn) ReadsIn.unique hrow (row_flatten (fun x hx => reads_inConst hr hx (hscripts x hx) z) rest)
  have hread : readVar ((constBytes z t).drop ((if t.flag then 6 else 4) + n + w)) = .ok (t.outputs.length, m) :=
    h.reads.output_count
  unfold constBytes at hread
  rw [hn, hw, layout_at_output_count] at hread
  exact ⟨hw, _, hread⟩

variable (hout : t.outputs.length ≤ 0xFC)
include hout

theorem ConstReads.outputs_row : m = (outCount z t).length ∧
    ∃ rest, Row ReadsOut t.outputs ((constTx z t).output ++ rest) u := by
  obtain ⟨hn, -⟩ := h.inputs_row hin
  obtain ⟨hw, rest, hread⟩ := h.output_count hr hin hscripts
  have hm : m = (outCount z t).length := readVar_written hout hread
  refine ⟨hm, ?_⟩
  have hrow : Row ReadsOut t.outputs ((constBytes z t).drop ((if t.flag then 6 else 4) + n + w + m)) u := h.reads.outputs
  unfold constBytes at hrow
  rw [hn, hw, hm, layout_at_outputs] at hrow
  exact ⟨_, hrow⟩

/-- Without the flag no witnesses are written, and none are read. -/
theorem ConstReads.no_witnesses (hparts : ∀ y ∈ t.outputs, y.value < 2 ^ 32 ∧ y.script.length ≤ 0xFC) (hflag : t.flag = false) :
    t.witnesses = [] := by
  obtain ⟨hn, -⟩ := h.inputs_row hin
  obtain ⟨hw, -⟩ := h.output_count hr hin hscripts
  obtain ⟨hm, rest, hrow⟩ := h.outputs_row hr hin hscripts hout
  have hu : u = (constTx z t).output.length := Row.unique (R := ReadsOut) ReadsOut.unique hrow
    (row_flatten_self (fun y hy => reads_outConst (hparts y hy).1 (hparts y hy).2 z) rest)
  have htail : (tailBytes (constStart z t) (constTx z t)).length = 4 := by
    unfold tailBytes
    rw [show (constTx z t).flag = false from hflag, if_neg (by decide), length_leFix]
  have hread : ((constBytes z t).drop ((if t.flag then 6 else 4) + n + w + m + u)).take
    (((constBytes z t).length - 4 - ((if t.flag then 6 else 4) + n + w + m + u : Nat) : Int) % 2 ^ 32).toNat = t.witnesses :=
    h.reads.witnesses
  have hstop : (constBytes z t).length = (if t.flag then 6 else 4) + n + w + m + u + 4 := by
    unfold constBytes
    rw [length_layout, ← hn, ← hm, ← hw, ← hu, htail]
  have hzero : (((constBytes z t).length - 4 - ((if t.flag then 6 else 4) + n + w + m + u : Nat) : Int) % 2 ^ 32).toNat = 0 := by
    omega
  rw [← hread, hzero, take_zero]

omit hr hin hscripts hout in
/-- Behind long witnesses the last byte is one of the memory. -/
theorem ConstReads.lock_time_last (hflag : t.flag = true) (hlong : (constTx z t).output.length < t.witnesses.length) :
    t.lock_time / 2 ^ 24 = z.toNat := by
  have hfour : (constStart z t).drop (txSize (constTx z t) - 4) = replicate 3 z ++ [z] := by
    have hsize := const_size z t
    rw [constStart, drop_replicate, show txSize (constTx z t) - (txSize (constTx z t) - 4) = 4 by omega]
    rfl
  obtain ⟨a, ha, hlen⟩ : ∃ a, tailBytes (constStart z t) (constTx z t) = a ++ [z] ∧ 3 ≤ a.length := by
    unfold tailBytes
    rw [show (constTx z t).flag = true from hflag, hfour]
    have hroom : (constTx z t).output.length + 4 ≤ ((constTx z t).witnesses ++ replicate 3 z).length := by
      rw [length_append]
      show (constTx z t).output.length + 4 ≤ t.witnesses.length + 3
      omega
    rw [← append_assoc (constTx z t).witnesses, drop_append_of_le_length hroom, ← append_assoc]
    refine ⟨_, rfl, ?_⟩
    rw [length_append, length_append, length_leFix]
    omega
  have hread : leNat ((constBytes z t).drop ((constBytes z t).length - 4)) = t.lock_time := h.reads.lock_time
  unfold constBytes at hread
  rw [layout_last (by rw [ha, length_append, length_singleton]; omega), ha] at hread
  rw [← hread]
  exact lastFour_div hlen

end Reads

/-- What comes back from memory of each byte is plain. -/
theorem plain_of_comes_back (hr : t.Ranged) (hall : ∀ mem, ComesBack mem t) : t.Plain := by
  have hreads : ∀ z, ∃ n w m u, ConstReads z t n w m u := fun z => constReads_of_comes_back hr (hall (.const z))
  have hin : t.inputs.length ≤ 0xFC := by
    by_contra hlong
    obtain ⟨n, w, m, u, h⟩ := hreads (unlucky t.inputs.length)
    obtain ⟨rest, hread⟩ := h.input_count
    have hsize := const_size (unlucky t.inputs.length) t
    exact readVar_misread (by omega) (h.lengths hr).1 (by omega) hread
  have hscripts : ∀ x ∈ t.inputs, x.script = [] := by
    by_contra hbad
    push Not at hbad
    have hgood : ∀ x ∈ t.inputs, x.script = [] → ∀ z rest, ReadsIn (inConst z x ++ rest) x.flip (inConst z x).length :=
      fun x hx hscript z rest => reads_inConst hr hx hscript z rest
    obtain ⟨z, hz⟩ := exists_not_row (R := ReadsIn) ReadsIn.unique hgood
      (fun x hx hscript => by
        obtain ⟨n, w, m, u, h⟩ := hreads 0
        exact exists_not_readsIn (hr.inputs x hx).1 (h.in_size x hx) hscript) hbad
    obtain ⟨n, w, m, u, h⟩ := hreads z
    obtain ⟨-, rest, hrow⟩ := h.inputs_row hin
    exact hz rest w hrow
  have hout : t.outputs.length ≤ 0xFC := by
    by_contra hlong
    obtain ⟨n, w, m, u, h⟩ := hreads (unlucky t.outputs.length)
    obtain ⟨-, rest, hread⟩ := h.output_count hr hin hscripts
    have hsize := const_size (unlucky t.outputs.length) t
    exact readVar_misread (by omega) (h.lengths hr).2 (by omega) hread
  have hparts : ∀ y ∈ t.outputs, y.value < 2 ^ 32 ∧ y.script.length ≤ 0xFC := by
    by_contra hbad
    replace hbad : ∃ y ∈ t.outputs, ¬ (y.value < 2 ^ 32 ∧ y.script.length ≤ 0xFC) := by
      simpa only [not_forall, exists_prop] using hbad
    have hgood : ∀ y ∈ t.outputs, y.value < 2 ^ 32 ∧ y.script.length ≤ 0xFC → ∀ z rest, ReadsOut (outConst z y ++ rest) (id y) (outConst z y).length :=
      fun y _ hy z rest => reads_outConst hy.1 hy.2 z rest
    obtain ⟨z, hz⟩ := exists_not_row (R := ReadsOut) ReadsOut.unique hgood
      (fun y hy hnot => by
        obtain ⟨n, w, m, u, h⟩ := hreads 0
        exact exists_not_readsOut (h.out_script y hy) hnot) hbad
    obtain ⟨n, w, m, u, h⟩ := hreads z
    obtain ⟨-, rest, hrow⟩ := h.outputs_row hr hin hscripts hout
    rw [map_id] at hz
    exact hz rest u hrow
  refine ⟨⟨?_, hin⟩, hscripts, ⟨?_, hout⟩, hparts, ?_⟩
  · rintro hnil
    obtain ⟨n, w, m, u, h⟩ := hreads 0
    refine h.serializes.input ?_
    show (t.inputs.map (inConst 0)).flatten = []
    rw [hnil]
    rfl
  · rintro hnil
    obtain ⟨n, w, m, u, h⟩ := hreads 0
    refine h.serializes.output ?_
    show (t.outputs.map (outConst 0)).flatten = []
    rw [hnil]
    rfl
  · obtain ⟨n, w, m, u, h⟩ := hreads (otherByte t.lock_time)
    cases hflag : t.flag with
    | false => rw [h.no_witnesses hr hin hscripts hout hparts hflag, if_neg (by decide), length_nil]
    | true =>
      have hsame : (constTx (otherByte t.lock_time) t).output = (t.outputs.map encOut).flatten :=
        congrArg List.flatten (map_congr_left fun y hy => outBytes_short (hparts y hy).2)
      have hle := (h.serializes.witnesses hflag).2
      have hnot := fun hlong => otherByte_ne t.lock_time (h.lock_time_last hflag hlong).symm
      rw [hsame] at hle hnot
      rw [← length_encOuts]
      exact Nat.le_antisymm (Nat.le_of_not_lt hnot) hle

/-- A transaction comes back from each memory exactly if it is plain. -/
theorem comes_back_iff (hr : t.Ranged) : (∀ mem, ComesBack mem t) ↔ t.Plain :=
  ⟨plain_of_comes_back hr, comes_back_of_plain hr⟩

end Const

/-- A transaction whose input has no script yet. -/
def unsignedTx : Transaction := ⟨1, true, [⟨replicate 32 7, 1, [], 0xFFFFFFFF⟩], [⟨5000, [0x51]⟩], replicate 10 2, 500000⟩

theorem comes_back_unsigned : unsignedTx.Ranged ∧ unsignedTx.Plain ∧ ∀ mem, ComesBack mem unsignedTx := by
  have hr : unsignedTx.Ranged := ⟨by decide, by decide, by decide, by decide⟩
  have hp : unsignedTx.Plain := ⟨by decide, by decide, by decide, by decide, by decide⟩
  exact ⟨hr, hp, (comes_back_iff hr).2 hp⟩

/-- A transaction whose input has a script of five bytes. -/
def signedTx : Transaction := ⟨1, false, [⟨replicate 32 7, 1, [1, 2, 3, 4, 5], 0xFFFFFFFF⟩], [⟨5000, [0x51]⟩], [], 500000⟩

/-- The sequence is written over the script, and zeros of the fresh buffer are read as the sequence. -/
theorem comes_back_signed :
    signedTx.Ranged ∧ ∃ b, ok (serialize (.const 0) signedTx) b ∧
      ok (parse b) { signedTx with inputs := [⟨replicate 32 7, 1, [0xFF, 0xFF, 0xFF, 0xFF, 5], 0⟩] } ∧
      ¬ ComesBack (.const 0) signedTx := by
  have hb : ok (serialize (.const 0) signedTx)
      ([1, 0, 0, 0, 1] ++ replicate 32 7 ++ [1, 0, 0, 0, 5, 0xFF, 0xFF, 0xFF, 0xFF, 5, 0, 0, 0, 0, 1, 0x88, 0x13, 0, 0, 0, 0, 0, 0,
        1, 0x51, 0x20, 0xA1, 7, 0]) := by decide
  have hparse : ok (parse ([1, 0, 0, 0, 1] ++ replicate 32 7 ++ [1, 0, 0, 0, 5, 0xFF, 0xFF, 0xFF, 0xFF, 5, 0, 0, 0, 0, 1,
      0x88, 0x13, 0, 0, 0, 0, 0, 0, 1, 0x51, 0x20, 0xA1, 7, 0]))
      { signedTx with inputs := [⟨replicate 32 7, 1, [0xFF, 0xFF, 0xFF, 0xFF, 5], 0⟩] } := by decide
  refine ⟨⟨by decide, by decide, by decide, by decide⟩, _, hb, hparse, ?_⟩
  rintro ⟨b, hb', hback⟩
  obtain rfl := ok_unique hb hb'
  have hsame := ok_unique hparse hback
  exact absurd (congrArg Transaction.inputs hsame) (by decide)

end In3.Btc
