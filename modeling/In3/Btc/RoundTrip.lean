import In3.Btc.Format
import In3.Btc.SerializeTx
/-!
# Transactions are read back

A transaction is serialized part by part and parsed again. What comes back depends on bytes of the fresh
buffers that were never written, so the round trip is one for every content of the memory. It succeeds
exactly for the transactions whose inputs have no script, whose counts and script lengths have one byte,
whose values have 32 bits, and whose witnesses are as long as their outputs.
-/
open Lib Guarded List

namespace In3.Btc

structure Memory where
  input : Nat → Nat → Bytes
  output : Nat → Nat → Bytes
  tx : Nat → Bytes
  input_size : ∀ k, FreshSizes (input k)
  output_size : ∀ k, FreshSizes (output k)
  tx_size : FreshSizes tx

/-- Memory with the same byte everywhere. -/
def Memory.const (z : UInt8) : Memory where
  input _ n := replicate n z
  output _ n := replicate n z
  tx n := replicate n z
  input_size _ _ := length_replicate
  output_size _ _ := length_replicate
  tx_size _ := length_replicate

structure Transaction where
  version : Nat
  flag : Bool
  inputs : List TxIn
  outputs : List TxOut
  witnesses : Bytes
  lock_time : Nat
  deriving DecidableEq, Repr

/-- The numbers have the range of their types. -/
structure Transaction.Ranged (t : Transaction) : Prop where
  version : t.version < 2 ^ 32
  lock_time : t.lock_time < 2 ^ 32
  inputs : ∀ x ∈ t.inputs, x.prev_tx_hash.length = 32 ∧ x.prev_tx_index < 2 ^ 32 ∧ x.sequence < 2 ^ 32
  outputs : ∀ y ∈ t.outputs, y.value < 2 ^ 64

/-! ## There and back -/

def serialize_inputs (mem : Memory) : Nat → List TxIn → BtcRun Bytes
  | _, [] => return []
  | k, x :: rest => do
    let b ← btc_serialize_tx_in (mem.input k) x
    let r ← serialize_inputs mem (k + 1) rest
    return b ++ r

def serialize_outputs (mem : Memory) : Nat → List TxOut → BtcRun Bytes
  | _, [] => return []
  | k, y :: rest => do
    let b ← btc_serialize_tx_out (mem.output k) y
    let r ← serialize_outputs mem (k + 1) rest
    return b ++ r

/-- The parts one after the other, and then the whole. -/
def serialize (mem : Memory) (t : Transaction) : BtcRun Bytes := do
  let input ← serialize_inputs mem 0 t.inputs
  let output ← serialize_outputs mem 0 t.outputs
  btc_serialize_tx mem.tx ⟨t.version, t.flag, t.inputs.length, input, t.outputs.length, output, t.witnesses, t.lock_time⟩

/-- The inputs of a parsed transaction, as `btc_verify_tx` goes through them. -/
def collect_inputs (data : Bytes) (limit : Nat) : Nat → Nat → BtcRun (List TxIn)
  | 0, _ => return []
  | count + 1, p => do
    match ← btc_parse_tx_in data p limit with
    | none => throw (.vc_err "invalid vin")
    | some (x, p) => do
      let rest ← collect_inputs data limit count p
      return x.view data :: rest

def collect_outputs (data : Bytes) (limit : Nat) : Nat → Nat → BtcRun (List TxOut)
  | 0, _ => return []
  | count + 1, p => do
    let (y, p) ← btc_parse_tx_out data p
    if limit < p then throw (.vc_err "invalid vout")
    else do
      let rest ← collect_outputs data limit count p
      return y.view data :: rest

def parse (data : Bytes) : BtcRun Transaction := do
  let t ← btc_parse_tx data
  let inputs ← collect_inputs data t.input.stop t.input_count t.input.start
  let outputs ← collect_outputs data t.output.stop t.output_count t.output.start
  return ⟨t.version, t.flag, inputs, outputs, t.witnesses.of data, t.lock_time⟩

/-- The hash of the previous transaction is written in reverse order. -/
def TxIn.flip (x : TxIn) : TxIn := { x with prev_tx_hash := x.prev_tx_hash.reverse }

def ComesBack (mem : Memory) (t : Transaction) : Prop :=
  ∃ b, ok (serialize mem t) b ∧ ok (parse b) { t with inputs := t.inputs.map TxIn.flip }

/-! ## Sizes that are read back, and sizes that are not -/

variable {N k n u v w : Nat} {s : Bytes}

theorem ok_decode_iff {data : Bytes} {r : Nat × Nat} :
    ok (decode_var_int data k) r ↔ readVar (data.drop k) = .ok r := by
  have hmirror : Mirrors (.ret 0) (decode_var_int data k) (readVar (data.drop k)) fun b a => a = b := mirrors_decode rfl
  constructor
  · intro h
    obtain ⟨_, hread, rfl⟩ := hmirror.of_ok h
    exact hread
  · intro h
    rw [h] at hmirror
    obtain ⟨_, hok, rfl⟩ := hmirror
    exact hok

theorem readVar_small (hv : v ≤ 0xFC) (rest : Bytes) : readVar (UInt8.ofNat v :: rest) = .ok (v, 1) := by
  have hbyte : (UInt8.ofNat v).toNat = v := by
    rw [UInt8.toNat_ofNat']
    omega
  have hne : ∀ w : UInt8, 0xFC < w.toNat → UInt8.ofNat v ≠ w := by
    rintro w hw rfl
    omega
  rw [readVar, if_neg (hne _ (by decide)), if_neg (hne _ (by decide)), if_neg (hne _ (by decide)), hbyte]
  rfl

/-- A byte of the fresh memory with which a size of more than one byte is not read back. -/
def unlucky (v : Nat) : UInt8 := if v ≤ 0xFFFF then 0 else 0xFF

variable {b rest : Bytes} {t : Transaction} {x : TxIn} {xs : List TxIn} {y : TxOut} {z : UInt8}

theorem written_short (hv : 0xFC < v) (hshort : v ≤ 0xFFFF) (hroom : k + get_compact_uint_size v ≤ N) :
    written (replicate N z) k v = [UInt8.ofNat (v % 256), UInt8.ofNat (v / 4 % 256), z] := by
  have hsize : get_compact_uint_size v = 3 := by
    unfold get_compact_uint_size
    rw [if_neg (by omega), if_neg (by omega), if_pos hv]
  have hgap : ((replicate N z).drop (k + (3 - 1))).take 1 = [z] := by
    rw [drop_replicate, take_replicate, Nat.min_eq_left (by omega)]
    rfl
  unfold written compact_bytes
  rw [if_neg (by omega), hsize, hgap]
  simp only [byte_of_and, Nat.shiftRight_eq_div_pow]
  simp [range_succ]

theorem written_long (hlong : 0xFFFF < v) (hmax : v ≤ 0xFFFFFFFF) (hroom : k + get_compact_uint_size v ≤ N) :
    written (replicate N z) k v =
      [UInt8.ofNat (v % 256), UInt8.ofNat (v / 4 % 256), UInt8.ofNat (v / 16 % 256), UInt8.ofNat (v / 64 % 256), z] := by
  have hsize : get_compact_uint_size v = 5 := by
    unfold get_compact_uint_size
    rw [if_neg (by omega), if_pos hlong]
  have hgap : ((replicate N z).drop (k + (5 - 1))).take 1 = [z] := by
    rw [drop_replicate, take_replicate, Nat.min_eq_left (by omega)]
    rfl
  unfold written compact_bytes
  rw [if_neg (by omega), hsize, hgap]
  simp only [byte_of_and, Nat.shiftRight_eq_div_pow]
  simp [range_succ]

theorem toNat_byte (v : Nat) : (UInt8.ofNat (v % 256)).toNat = v % 256 := by
  rw [UInt8.toNat_ofNat']
  omega

theorem readVar_eq_large (hv : 0xFC < v)
    (h : readVar (UInt8.ofNat (v % 256) :: UInt8.ofNat (v / 4 % 256) :: rest) = .ok (v, n)) :
    v % 256 = 255 ∧ v = long_value ((UInt8.ofNat (v / 4 % 256) :: rest).take 8) := by
  have hb0 := toNat_byte v
  have hb1 := toNat_byte (v / 4)
  rw [readVar] at h
  split_ifs at h with hfd hfe hff
  · obtain ⟨d, hd, heq⟩ := Reading.bind_eq_ok.1 h
    obtain ⟨-, rfl⟩ := readField_eq_ok.1 hd
    have hval := congrArg Prod.fst (Except.ok.inj heq)
    simp only [take_succ_cons, leNat_cons] at hval
    rw [hfd] at hb0
    have : v % 256 = 253 := hb0.symm
    omega
  · obtain ⟨d, hd, heq⟩ := Reading.bind_eq_ok.1 h
    obtain ⟨-, rfl⟩ := readInt_eq_ok.1 hd
    have hval := congrArg Prod.fst (Except.ok.inj heq)
    simp only [take_succ_cons, leNat_cons] at hval
    rw [hfe] at hb0
    have : v % 256 = 254 := hb0.symm
    omega
  · obtain ⟨d, hd, heq⟩ := Reading.bind_eq_ok.1 h
    obtain ⟨-, rfl⟩ := readField_eq_ok.1 hd
    have hval := congrArg Prod.fst (Except.ok.inj heq)
    rw [hff] at hb0
    exact ⟨hb0.symm, hval.symm⟩
  · have hval := congrArg Prod.fst (Except.ok.inj h)
    have h1 : v % 256 ≠ 253 := fun e => hfd (UInt8.toNat_inj.1 (by rw [e]; rfl))
    have h2 : v % 256 ≠ 254 := fun e => hfe (UInt8.toNat_inj.1 (by rw [e]; rfl))
    have h3 : v % 256 ≠ 255 := fun e => hff (UInt8.toNat_inj.1 (by rw [e]; rfl))
    omega

/-- A number that is made of overlapping pieces of itself has all bits once its low and high bytes have. -/
theorem all_bits {b c : Nat} (hval : v = 255 + 256 * b + 65536 * c + 2 ^ 24 * 255) (hb : v / 16 % 256 = b) (hc : v / 64 % 256 = c) :
    v = 0xFFFFFFFF := by
  have hb' : b = 255 := by
    obtain ⟨e, he⟩ : ∃ e, v / 16 = 15 + 16 * b + 256 * e := ⟨16 * c + 1044480, by clear hb hc; omega⟩
    rw [he] at hb
    clear hval hc he
    omega
  have hc' : c = 255 := by
    obtain ⟨e, he⟩ : ∃ e, v / 64 = 3 + 4 * b + 256 * e := ⟨4 * c + 261120, by clear hb hc; omega⟩
    rw [he] at hc
    clear hval hb he
    omega
  clear hb hc
  omega

theorem readVar_misread (hv : 0xFC < v) (hmax : v < 0xFFFFFFFF) (hroom : k + get_compact_uint_size v ≤ N) :
    readVar (written (replicate N (unlucky v)) k v ++ rest) ≠ .ok (v, n) := by
  intro h
  have hb1 := toNat_byte (v / 4)
  unfold unlucky at h
  by_cases hshort : v ≤ 0xFFFF
  · rw [if_pos hshort, written_short hv hshort hroom] at h
    obtain ⟨hlow, hval⟩ := readVar_eq_large hv h
    -- the second byte of the value is zero
    have hsplit : (UInt8.ofNat (v / 4 % 256) :: ([0].append rest)).take 8 = UInt8.ofNat (v / 4 % 256) :: 0 :: rest.take 6 := rfl
    have hzero : (0 : UInt8).toNat = 0 := rfl
    rw [hsplit] at hval
    unfold long_value at hval
    simp only [take_succ_cons, leNat_cons, hb1] at hval
    omega
  · rw [if_neg hshort, written_long (by omega) (by omega) hroom] at h
    obtain ⟨hlow, hval⟩ := readVar_eq_large hv h
    -- the upper byte of the value has all its bits
    have hb2 := toNat_byte (v / 16)
    have hb3 := toNat_byte (v / 64)
    have hsplit : (UInt8.ofNat (v / 4 % 256) :: ([UInt8.ofNat (v / 16 % 256), UInt8.ofNat (v / 64 % 256), 0xFF].append rest)).take 8 =
      UInt8.ofNat (v / 4 % 256) :: UInt8.ofNat (v / 16 % 256) :: UInt8.ofNat (v / 64 % 256) :: 0xFF :: rest.take 4 := rfl
    rw [hsplit] at hval
    have htop := long_value_lt (UInt8.ofNat (v / 4 % 256) :: UInt8.ofNat (v / 16 % 256) :: UInt8.ofNat (v / 64 % 256) :: 0xFF :: rest.take 4)
    unfold long_value at hval htop
    simp only [take_succ_cons, leNat_cons, hb1, hb2, hb3, getD_cons_succ, getD_cons_zero]
      at hval htop
    have hhigh : (0xFF : UInt8).toNat = 255 := rfl
    rw [hhigh] at hval htop
    have hor : 255 ≤ ((rest.take 4).getD 3 0).toNat ||| ((rest.take 4).getD 2 0).toNat ||| ((rest.take 4).getD 1 0).toNat |||
      ((rest.take 4).getD 0 0).toNat ||| 255 := Nat.right_le_or
    generalize hx2 : v / 16 % 256 = x2 at hval htop
    generalize hx3 : v / 64 % 256 = x3 at hval htop
    generalize hx1 : v / 4 % 256 = x1 at hval htop
    have hfirst : x1 = 255 := by
      clear hx2 hx3
      omega
    refine hmax.ne (all_bits ?_ hx2 hx3)
    clear hx1 hx2 hx3
    omega

/-! ## What is read at the front of a string -/

def ReadsIn (s : Bytes) (x : TxIn) (w : Nat) : Prop :=
  ∃ n, readVar (s.drop 36) = .ok (x.script.length, n) ∧ w = 36 + n + x.script.length + 4 ∧ w ≤ s.length ∧
    x = ⟨s.take 32, leNat ((s.drop 32).take 4), (s.drop (36 + n)).take x.script.length,
      leNat ((s.drop (36 + n + x.script.length)).take 4)⟩

def ReadsOut (s : Bytes) (y : TxOut) (w : Nat) : Prop :=
  ∃ n, readVar (s.drop 8) = .ok (y.script.length, n) ∧ w = 8 + n + y.script.length ∧ w ≤ s.length ∧
    y = ⟨long_value (s.take 8), (s.drop (8 + n)).take y.script.length⟩

theorem ReadsIn.unique (hu : ReadsIn s x u) (hv : ReadsIn s x v) : u = v := by
  obtain ⟨n, hn, rfl, -⟩ := hu
  obtain ⟨m, hm, rfl, -⟩ := hv
  rw [hn] at hm
  cases hm
  rfl

theorem ReadsOut.unique (hu : ReadsOut s y u) (hv : ReadsOut s y v) : u = v := by
  obtain ⟨n, hn, rfl, -⟩ := hu
  obtain ⟨m, hm, rfl, -⟩ := hv
  rw [hn] at hm
  cases hm
  rfl

section Collect
variable {data : Bytes} {limit p : Nat} {count q : Nat} {off : Int} {xs : List TxIn} {ys : List TxOut}

theorem ok_le_to_int_at (hoff : off = k) :
    ok (le_to_int data off) n ↔ k + 4 ≤ data.length ∧ leNat ((data.drop k).take 4) = n := by
  rw [ok_le_to_int, hoff]
  exact and_congr_left fun _ => ⟨And.right, fun h => ⟨by omega, h⟩⟩

theorem ok_decode_at {r : Nat × Nat} (hoff : off = k) :
    ok (decode_var_int data off) r ↔ readVar (data.drop k) = .ok r := by
  rw [hoff, ok_decode_iff]

theorem reads_of_ok_parse_in {x : ParsedIn}
    (h : ok (btc_parse_tx_in data p limit) (some (x, q))) : ∃ w, ReadsIn (data.drop p) (x.view data) w ∧ q = p + w := by
  unfold btc_parse_tx_in at h
  simp only [ok_bind] at h
  obtain ⟨index, hindex, ⟨len, n⟩, hvar, h⟩ := h
  rw [ok_le_to_int_at (k := p + 32) (by omega)] at hindex
  rw [ok_decode_at (k := p + 36) (by omega)] at hvar
  have hlen : len % 2 ^ 32 = len := Nat.mod_eq_of_lt (readVar_bounds hvar).1
  simp only [Span.stop_mk, hlen] at h
  by_cases hfit : limit < p + 36 + n + len + 4
  · rw [if_pos hfit] at h
    cases ok_pure.1 h
  · rw [if_neg hfit, ok_bind] at h
    obtain ⟨sequence, hsequence, h⟩ := h
    rw [ok_le_to_int_at rfl] at hsequence
    obtain ⟨rfl, rfl⟩ := Prod.mk.inj (Option.some.inj (ok_pure.1 h))
    have hscript : ((data.drop (p + 36 + n)).take len).length = len := by
      rw [length_take, length_drop]
      omega
    have hview : (ParsedIn.mk ⟨p, 32⟩ index ⟨p + 36 + n, len⟩ sequence).view data =
        ⟨(data.drop p).take 32, index, (data.drop (p + 36 + n)).take len, sequence⟩ := rfl
    refine ⟨36 + n + len + 4, ⟨n, ?_, ?_, ?_, ?_⟩, by omega⟩
    · rw [hview, hscript, drop_drop]
      exact hvar
    · rw [hview, hscript]
    · rw [length_drop]
      omega
    · rw [hview, hscript, ← hindex.2, ← hsequence.2]
      simp [Nat.add_assoc]

variable {w : Nat}

theorem ok_parse_in_of_reads {v : TxIn} (h : ReadsIn (data.drop p) v w) (hfit : p + w ≤ limit) :
    ∃ x, ok (btc_parse_tx_in data p limit) (some (x, p + w)) ∧ x.view data = v := by
  obtain ⟨n, hvar, rfl, hin, hv⟩ := h
  rw [drop_drop] at hvar
  rw [length_drop] at hin
  have hlen : v.script.length % 2 ^ 32 = v.script.length := Nat.mod_eq_of_lt (readVar_bounds hvar).1
  generalize v.script.length = len at *
  refine ⟨⟨⟨p, 32⟩, v.prev_tx_index, ⟨p + 36 + n, len⟩, v.sequence⟩, ?_, ?_⟩
  · unfold btc_parse_tx_in
    simp only [ok_bind]
    refine ⟨v.prev_tx_index, (ok_le_to_int_at (k := p + 32) (by omega)).2 ⟨by omega, ?_⟩, (len, n),
      (ok_decode_at (k := p + 36) (by omega)).2 hvar, ?_⟩
    · rw [hv, drop_drop]
    · simp only [Span.stop_mk, hlen]
      rw [if_neg (by omega), ok_bind]
      refine ⟨v.sequence, (ok_le_to_int_at rfl).2 ⟨by omega, ?_⟩, ?_⟩
      · rw [hv]
        simp [Nat.add_assoc]
      · rw [ok_pure]
        congr 2
        omega
  · rw [hv]
    simp [ParsedIn.view, Span.of, Nat.add_assoc]

theorem reads_of_ok_parse_out (hlimit : limit ≤ data.length) {y : ParsedOut}
    (h : ok (btc_parse_tx_out data p) (y, q)) (hq : q ≤ limit) : ∃ w, ReadsOut (data.drop p) (y.view data) w ∧ q = p + w := by
  unfold btc_parse_tx_out at h
  simp only [ok_bind] at h
  obtain ⟨value, hvalue, ⟨len, n⟩, hvar, h⟩ := h
  rw [ok_le_to_long] at hvalue
  rw [ok_decode_at (k := p + 8) (by omega)] at hvar
  have hlen : len % 2 ^ 32 = len := Nat.mod_eq_of_lt (readVar_bounds hvar).1
  simp only [Span.stop_mk, hlen] at h
  obtain ⟨rfl, rfl⟩ := Prod.mk.inj (ok_pure.1 h)
  have hscript : ((data.drop (p + 8 + n)).take len).length = len := by
    rw [length_take, length_drop]
    omega
  have hview : (ParsedOut.mk value ⟨p + 8 + n, len⟩).view data = ⟨value, (data.drop (p + 8 + n)).take len⟩ := rfl
  refine ⟨8 + n + len, ⟨n, ?_, ?_, ?_, ?_⟩, by omega⟩
  · rw [hview, hscript, drop_drop]
    exact hvar
  · rw [hview, hscript]
  · rw [length_drop]
    omega
  · rw [hview, ← hvalue.2]
    simp [Nat.add_assoc]

theorem ok_parse_out_of_reads {v : TxOut} (h : ReadsOut (data.drop p) v w) :
    ∃ y, ok (btc_parse_tx_out data p) (y, p + w) ∧ y.view data = v := by
  obtain ⟨n, hvar, rfl, hin, hv⟩ := h
  have hbounds := readVar_bounds hvar
  rw [drop_drop] at hvar
  rw [length_drop] at hin
  have hlen : v.script.length % 2 ^ 32 = v.script.length := Nat.mod_eq_of_lt hbounds.1
  generalize v.script.length = len at *
  refine ⟨⟨v.value, ⟨p + 8 + n, len⟩⟩, ?_, ?_⟩
  · unfold btc_parse_tx_out
    simp only [ok_bind]
    refine ⟨v.value, ok_le_to_long.2 ⟨by omega, ?_⟩, (len, n), (ok_decode_at (k := p + 8) (by omega)).2 hvar, ?_⟩
    · rw [hv, Int.toNat_natCast]
    · simp only [Span.stop_mk, hlen]
      rw [ok_pure]
      congr 1
      omega
  · rw [hv]
    simp [ParsedOut.view, Span.of, Nat.add_assoc]

theorem row_of_ok_collect_inputs (h : ok (collect_inputs data limit count p) xs) :
    count = xs.length ∧ ∃ w, Row ReadsIn xs (data.drop p) w := by
  induction count generalizing p xs with
  | zero =>
    obtain rfl := ok_pure.1 h
    exact ⟨rfl, 0, rfl⟩
  | succ count ih =>
    unfold collect_inputs at h
    rw [ok_bind] at h
    obtain ⟨_ | ⟨x, q⟩, hx, h⟩ := h
    · cases ok_throw h
    · rw [ok_bind] at h
      obtain ⟨rest, hrest, h⟩ := h
      obtain rfl := ok_pure.1 h
      obtain ⟨u, hu, rfl⟩ := reads_of_ok_parse_in hx
      obtain ⟨rfl, v, hv⟩ := ih hrest
      exact ⟨rfl, u + v, u, v, hu, by rw [drop_drop]; exact hv, rfl⟩

theorem ok_collect_inputs_of_row (h : Row ReadsIn xs (data.drop p) w) (hfit : p + w ≤ limit) :
    ok (collect_inputs data limit xs.length p) xs := by
  induction xs generalizing p w with
  | nil => exact ok_pure.2 rfl
  | cons x rest ih =>
    obtain ⟨u, v, hu, hv, rfl⟩ := h
    rw [drop_drop] at hv
    obtain ⟨y, hy, rfl⟩ := ok_parse_in_of_reads hu (by omega : p + u ≤ limit)
    exact ok_bind.2 ⟨_, hy, ok_bind.2 ⟨_, ih hv (by omega), ok_pure.2 rfl⟩⟩

theorem row_of_ok_collect_outputs (hlimit : limit ≤ data.length)
    (h : ok (collect_outputs data limit count p) ys) : count = ys.length ∧ ∃ w, Row ReadsOut ys (data.drop p) w := by
  induction count generalizing p ys with
  | zero =>
    obtain rfl := ok_pure.1 h
    exact ⟨rfl, 0, rfl⟩
  | succ count ih =>
    unfold collect_outputs at h
    rw [ok_bind] at h
    obtain ⟨⟨y, q⟩, hy, h⟩ := h
    rw [ok_ite_throw, ok_bind] at h
    obtain ⟨hq, rest, hrest, h⟩ := h
    obtain rfl := ok_pure.1 h
    obtain ⟨u, hu, rfl⟩ := reads_of_ok_parse_out hlimit hy (Nat.le_of_not_lt hq)
    obtain ⟨rfl, v, hv⟩ := ih hrest
    exact ⟨rfl, u + v, u, v, hu, by rw [drop_drop]; exact hv, rfl⟩

theorem ok_collect_outputs_of_row (h : Row ReadsOut ys (data.drop p) w) (hfit : p + w ≤ limit) :
    ok (collect_outputs data limit ys.length p) ys := by
  induction ys generalizing p w with
  | nil => exact ok_pure.2 rfl
  | cons y rest ih =>
    obtain ⟨u, v, hu, hv, rfl⟩ := h
    rw [drop_drop] at hv
    obtain ⟨x, hx, rfl⟩ := ok_parse_out_of_reads hu
    refine ok_bind.2 ⟨_, hx, ?_⟩
    rw [ok_ite_throw]
    exact ⟨by omega, ok_bind.2 ⟨_, ih hv (by omega), ok_pure.2 rfl⟩⟩

end Collect

theorem inputSize_of_reads (h : ReadsIn s x w) : inputSize s = .ok w := by
  obtain ⟨n, hvar, rfl, hin, -⟩ := h
  have hindex : readInt (s.drop 32) = .ok (leNat ((s.drop 32).take 4)) :=
    readInt_eq_ok.2 ⟨by rw [length_drop]; omega, rfl⟩
  exact Reading.bind_eq_ok.2 ⟨_, hindex, Reading.bind_eq_ok.2 ⟨_, hvar, Reading.check_eq_ok.2 ⟨Nat.not_lt_of_le hin, rfl⟩⟩⟩

theorem outputSize_of_reads (h : ReadsOut s y w) : outputSize s = .ok w := by
  obtain ⟨n, hvar, rfl, hin, -⟩ := h
  have hvalue : readField 8 s = .ok (s.take 8) := readField_eq_ok.2 ⟨by omega, rfl⟩
  exact Reading.bind_eq_ok.2 ⟨_, hvalue, Reading.bind_eq_ok.2 ⟨_, hvar, Reading.check_eq_ok.2 ⟨Nat.not_lt_of_le hin, rfl⟩⟩⟩

theorem inputsSize_of_row (h : Row ReadsIn xs s w) (hmore : w < s.length) :
    inputsSize xs.length s = .ok w := by
  induction xs generalizing s w with
  | nil =>
    obtain rfl : w = 0 := h
    rfl
  | cons x rest ih =>
    obtain ⟨u, v, hu, hv, rfl⟩ := h
    have hrest := ih hv (by rw [length_drop]; omega)
    refine Reading.bind_eq_ok.2 ⟨u, inputSize_of_reads hu, ?_⟩
    exact Reading.check_eq_ok.2 ⟨by omega, Reading.bind_eq_ok.2 ⟨v, hrest, rfl⟩⟩

theorem outputsSize_of_row {ys : List TxOut} (h : Row ReadsOut ys s w) : outputsSize ys.length s = .ok w := by
  induction ys generalizing s w with
  | nil =>
    obtain rfl : w = 0 := h
    rfl
  | cons y rest ih =>
    obtain ⟨u, v, hu, hv, rfl⟩ := h
    exact Reading.bind_eq_ok.2 ⟨u, outputSize_of_reads hu, Reading.bind_eq_ok.2 ⟨v, ih hv, rfl⟩⟩

theorem row_eq_inputsSize {w' : Nat} (h : Row ReadsIn xs s w) (h' : inputsSize xs.length s = .ok w') :
    w = w' := by
  induction xs generalizing s w w' with
  | nil =>
    cases h'
    exact h
  | cons x rest ih =>
    obtain ⟨u, v, hu, hv, rfl⟩ := h
    obtain ⟨u', hu', h'⟩ := Reading.bind_eq_ok.1 h'
    obtain rfl : u = u' := Except.ok.inj ((inputSize_of_reads hu).symm.trans hu')
    obtain ⟨-, h'⟩ := Reading.check_eq_ok.1 h'
    obtain ⟨v', hv', heq⟩ := Reading.bind_eq_ok.1 h'
    cases heq
    rw [ih hv hv']

/-! ## What is read of a whole transaction -/

/-- The transaction is in the string; `n`, `w`, `m` and `u` are the sizes of the count of the inputs, the inputs, the count of the
outputs and the outputs. -/
structure ReadsTx (b : Bytes) (t : Transaction) (n w m u : Nat) : Prop where
  version : readInt b = .ok t.version
  flag : readFlag (b.drop 4) = .ok t.flag
  input_count : readVar (b.drop (if t.flag then 6 else 4)) = .ok (t.inputs.length, n)
  inputs : Row ReadsIn t.inputs (b.drop ((if t.flag then 6 else 4) + n)) w
  output_count : readVar (b.drop ((if t.flag then 6 else 4) + n + w)) = .ok (t.outputs.length, m)
  outputs : Row ReadsOut t.outputs (b.drop ((if t.flag then 6 else 4) + n + w + m)) u
  witnesses : (b.drop ((if t.flag then 6 else 4) + n + w + m + u)).take
    (((b.length : Int) - 4 - ((if t.flag then 6 else 4) + n + w + m + u : Nat)) % 2 ^ 32).toNat = t.witnesses
  lock_time : leNat (b.drop (b.length - 4)) = t.lock_time

theorem reads_of_ok_parse (h : ok (parse b) t) : ∃ n w m u, ReadsTx b t n w m u := by
  unfold parse at h
  simp only [ok_bind] at h
  obtain ⟨dst, hdst, inputs, hinputs, outputs, houtputs, h⟩ := h
  obtain rfl := ok_pure.1 h
  obtain ⟨p, hp, rfl⟩ := (mirrors_parse_tx b).of_ok hdst
  have hostop := (output_stop_le hp).1
  obtain ⟨n, m, hparts⟩ := readParts_eq_ok.1 hp
  obtain ⟨hicount, w, hw⟩ := row_of_ok_collect_inputs hinputs
  obtain ⟨hocount, u, hu⟩ := row_of_ok_collect_outputs hostop houtputs
  have hwlen : w = p.input.len := row_eq_inputsSize hw (by rw [← hicount]; exact hparts.inputs)
  have hulen : u = p.output.len := by
    have hsize := outputsSize_of_row hu
    rw [← hocount] at hsize
    exact Except.ok.inj (hsize.symm.trans hparts.outputs)
  have hin : p.input.stop = (if p.flag then 6 else 4) + n + w := by
    rw [hwlen, ← hparts.input_start]
    rfl
  have hout : p.output.stop = (if p.flag then 6 else 4) + n + w + m + u := by
    rw [hulen, ← hin, ← hparts.output_start]
    rfl
  refine ⟨n, w, m, u, hparts.version, hparts.flag, ?_, ?_, ?_, ?_, ?_, hparts.lock_time⟩
  · rw [← hicount]
    exact hparts.input_count
  · rw [← hparts.input_start]
    exact hw
  · rw [← hocount, ← hin]
    exact hparts.output_count
  · rw [← hin, ← hparts.output_start]
    exact hu
  · rw [← hout, hparts.witnesses]
    rfl

theorem ok_parse_of_reads {m : Nat} (h : ReadsTx b t n w m u) : ok (parse b) t := by
  have hm := (readVar_bounds h.output_count).2
  rw [length_drop] at hm
  have hmore : w < (b.drop ((if t.flag then 6 else 4) + n)).length := by
    rw [length_drop]
    omega
  have hmirror := mirrors_parse_tx b
  have hread : readParts b = .ok ⟨t.version, t.flag, t.inputs.length, ⟨(if t.flag then 6 else 4) + n, w⟩, t.outputs.length,
      ⟨(if t.flag then 6 else 4) + n + w + m, u⟩,
      ⟨(if t.flag then 6 else 4) + n + w + m + u, b.length - 4 - ((if t.flag then 6 else 4) + n + w + m + u)⟩, t.lock_time⟩ := by
    refine readParts_eq_ok.2 ⟨n, m, h.version, h.flag, h.input_count, rfl, ?_, ?_, h.output_count, rfl,
      outputsSize_of_row h.outputs, rfl, h.lock_time⟩
    · show (if t.flag then 6 else 4) + n < b.length
      omega
    · exact inputsSize_of_row h.inputs hmore
  rw [hread] at hmirror
  obtain ⟨_, hdst, rfl⟩ := hmirror
  refine ok_bind.2 ⟨_, hdst, ok_bind.2 ⟨t.inputs, ok_collect_inputs_of_row h.inputs le_rfl,
    ok_bind.2 ⟨t.outputs, ok_collect_outputs_of_row h.outputs le_rfl, ok_pure.2 ?_⟩⟩⟩
  have hwitnesses := h.witnesses
  obtain ⟨version, flag, inputs, outputs, witnesses, lock_time⟩ := t
  exact congrArg (fun x => Transaction.mk version flag inputs outputs x lock_time) hwitnesses

end In3.Btc
