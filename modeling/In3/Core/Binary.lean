import In3.Core.Token
import In3.Lib.Guarded
/-!
# The binary format (`core/util/data.c`, `core/util/bytes.c`)

A document is a sequence of tokens. The first byte of a token has the type in its upper three
bits and the length in the others; from 28 on they tell how many bytes of length follow. A
`T_NULL` with a length announces the number of tokens, and a `T_BOOLEAN` with a length over 1
is a reference: the token at that index is copied.

The parser appends to an array that it reallocates. `inside` records whether every token that
was read or written so far lies in the part of the array it belongs to. What C leaves open
there is a `Platform`: the tokens that are found in memory that was not written or was freed,
and whether the arguments of a call are evaluated from the right.

The writer appends to a `bytes_builder_t`, of which the written bytes are kept. Its length is a
`uint32_t`, but `bb_write_long_be` takes it for an `int`.
-/
open Lib

namespace In3

def JSON_MAX_ALLOWED_TOKENS : Nat := 1000000

/-- A token of the binary parser: its data is a place in the input. -/
abbrev BinToken := Token (Option Nat)

/-- What the parser meets outside of the tokens it wrote. -/
structure Platform where
  rtl : Bool
  mem : Nat → BinToken

inductive BinFault where
  /-- A byte behind the input is read. -/
  | behind
  /-- The bound on the rounds of the model is reached. -/
  | rounds
  deriving DecidableEq, Repr

/-- A step of the parser, with the error codes of `read_token`. -/
abbrev BinRun := Guarded BinFault Int

/-- The fields of `json_ctx_t` that the binary parser uses. -/
structure bin_ctx_t where
  result : List BinToken
  allocated : Nat
  inside : Bool
  deriving DecidableEq, Repr

/-! ## The array of tokens -/

/-- What is allocated for `n + 1` tokens, after `allocated`. -/
def grow (n allocated : Nat) : Nat :=
  if allocated = 0 then 10 else if allocated ≤ n then allocated * 2 else allocated

def next_item (jp : bin_ctx_t) (type len : Nat) : bin_ctx_t :=
  { jp with
    result := jp.result ++ [⟨type * 2 ^ 28 ||| len, 0, false, none⟩]
    allocated := grow jp.result.length jp.allocated }

/-- `jp->result[ll].key = key`. The token may be one that is not there. -/
def set_key (jp : bin_ctx_t) (ll key : Nat) : bin_ctx_t :=
  { jp with
    result := jp.result.modify ll fun t => { t with key := key % 2 ^ 16 }
    inside := jp.inside && decide (ll < jp.allocated) }

def set_data (jp : bin_ctx_t) (t p : Nat) : bin_ctx_t :=
  { jp with result := jp.result.modify t fun k => { k with data := some p } }

theorem token_word {k : BinToken} {type len : Nat} (hk : k.len = type * 2 ^ 28 ||| len) :
    k.type = (type ||| len / 2 ^ 28) ∧ k.size = len % 2 ^ 28 := by
  constructor
  · rw [Token.type, hk, Nat.or_div_two_pow, Nat.mul_div_cancel _ (by decide)]
  · rw [Token.size, hk, Nat.or_mod_two_pow, Nat.mul_mod_left, Nat.zero_or]

theorem modify_length_append {α : Type} (a b : List α) (f : α → α) :
    (a ++ b).modify a.length f = a ++ b.modify 0 f := by
  induction a with
  | nil => rfl
  | cons x a ih => rw [List.cons_append, List.length_cons, List.modify_succ_cons, ih, List.cons_append]

/-- A reference. The token at `idx` may not be written yet, and the array may move between the
evaluation of the two arguments of `memcpy`. -/
def read_reference (m : Platform) (jp : bin_ctx_t) (len : Nat) : BinRun bin_ctx_t :=
  let idx := len - 2
  let n := jp.result.length
  if n < idx then throw (-1)
  -- without an array the token is `NULL`, and its type `T_NULL`
  else if jp.allocated = 0 then throw (-1)
  else if 2 ≤ (jp.result[idx]?.getD (m.mem idx)).type then throw (-1)
  else
    let freed := m.rtl && decide (jp.allocated ≤ n)
    let next := next_item jp 4 len
    let copy := if freed then m.mem idx else next.result[idx]?.getD (m.mem idx)
    pure { next with result := next.result.set n copy, inside := jp.inside && decide (idx < n) && !freed }

/-! ## The parser -/

section Parse
variable (m : Platform) (d : Bytes)

def read_byte (p : Nat) : BinRun UInt8 :=
  match d[p]? with
  | some x => pure x
  | none => Guarded.fault .behind

def read_bytes (p : Nat) : Nat → BinRun Bytes
  | 0 => pure []
  | n + 1 => do
    let x ← read_byte d p
    let r ← read_bytes (p + 1) n
    pure (x :: r)

/-- The start of `read_token`: the type, the length and the place behind them. -/
def read_head (p : Nat) : BinRun (Nat × Nat × Nat) := do
  if d.length ≤ p then throw (-3)
  let x ← read_byte d p
  let len := x.toNat % 32
  let l := len - 27
  if d.length < p + 1 + l then throw (-3)
  let bytes ← read_bytes d (p + 1) l
  pure (x.toNat / 32, if 27 < len then beNat bytes else len, p + 1 + l)

/-- The loop over the elements of an array; `value` reads a token. -/
def read_array (value : bin_ctx_t → Nat → BinRun (bin_ctx_t × Nat)) :
    Nat → Nat → bin_ctx_t → Nat → BinRun (bin_ctx_t × Nat)
  | 0, _, jp, p => pure (jp, p)
  | n + 1, i, jp, p => do
    let ll := jp.result.length
    let (jp, p) ← value jp p
    read_array value n (i + 1) (set_key jp ll i) p

/-- The loop over the properties of an object. -/
def read_object (value : bin_ctx_t → Nat → BinRun (bin_ctx_t × Nat)) :
    Nat → bin_ctx_t → Nat → BinRun (bin_ctx_t × Nat)
  | 0, jp, p => pure (jp, p)
  | n + 1, jp, p => do
    if d.length ≤ p + 2 then throw (-3)
    let key ← read_bytes d p 2
    let ll := jp.result.length
    let (jp, p) ← value jp (p + 2)
    read_object value n (set_key jp ll (beNat key)) p

def read_token : Nat → bin_ctx_t → Nat → BinRun (bin_ctx_t × Nat)
  | 0, _, _ => Guarded.fault .rounds
  | fuel + 1, jp, p => do
    let (type, len, p) ← read_head d p
    if type = 6 ∧ 0 < len then
      if JSON_MAX_ALLOWED_TOKENS < len then throw (-4)
      else pure ({ jp with allocated := max jp.allocated len }, p)
    else if type = 4 ∧ 1 < len then
      let jp ← read_reference m jp len
      pure (jp, p)
    else
      let t := jp.result.length
      let jp := next_item jp type len
      if type = 2 then read_array (read_token fuel) len 0 jp p
      else if type = 3 then read_object d (read_token fuel) len jp p
      else if type = 1 then
        if d.length < p + 1 + len then throw (-4)
        else
          let x ← read_byte d (p + len)
          if x ≠ 0 then throw (-4)
          else pure (set_data jp t p, p + 1 + len)
      else if type = 0 then
        if d.length < p + len then throw (-3)
        else pure (set_data jp t p, p + len)
      else pure (jp, p)

/-- The loop of `parse_binary`. -/
def read_tokens : Nat → bin_ctx_t → Nat → BinRun bin_ctx_t
  | 0, _, _ => Guarded.fault .rounds
  | fuel + 1, jp, p =>
    if p < d.length then do
      let (jp, p) ← read_token m d (d.length + 1) jp p
      read_tokens fuel jp p
    else pure jp

/-- `parse_binary`: the context, if there was no error. -/
def parse_binary : BinRun bin_ctx_t := read_tokens m d (d.length + 1) ⟨[], 0, true⟩ 0

end Parse

/-! ## The writer -/

inductive WriteFault where
  /-- A byte before the buffer is written. -/
  | before
  /-- The length of the buffer leaves its `uint32_t`. -/
  | wraps
  /-- A token behind the array or a byte behind its data is read. -/
  | behind
  /-- The bound on the depth of the model is reached. -/
  | rounds
  deriving DecidableEq, Repr

abbrev BinWrite := Guarded WriteFault Empty

def bb_write_byte (bb : Bytes) (val : UInt8) : BinWrite Bytes := do
  Guarded.guard (bb.length + 1 < 2 ^ 32) .wraps
  pure (bb ++ [val])

def bb_write_raw_bytes (bb data : Bytes) : BinWrite Bytes := do
  Guarded.guard (bb.length + data.length < 2 ^ 32) .wraps
  pure (bb ++ data)

/-- `bb_write_long_be`: the sum of the place `s` and `len` must be an `int`. -/
def bb_write_long_be_at (bb : Bytes) (val len : Nat) : BinWrite Bytes := do
  Guarded.guard (bb.length + len < 2 ^ 31) .before
  pure (bb ++ beFix len val)

/-- The loop of `min_bytes_len` with `n` rounds left, in round `i`. -/
def min_bytes_from : Nat → Nat → Nat → Nat
  | 0, i, _ => i
  | n + 1, i, val => if val = 0 then i else min_bytes_from n (i + 1) (val / 256)

def min_bytes_len (val : Nat) : Nat := min_bytes_from 8 0 val

/-- The start of `write_token`: the type and the length. -/
def write_head (bb : Bytes) (type len : Nat) : BinWrite Bytes := do
  let bb ← bb_write_byte bb (UInt8.ofNat (type * 32 ||| if len < 28 then len else min_bytes_len len + 27))
  if 27 < len then bb_write_long_be_at bb len (min_bytes_len len) else pure bb

def write_token_count (bb : Bytes) (len : Nat) : BinWrite Bytes := write_head bb 6 len

def next_token (c : List JsonToken) : BinWrite (List JsonToken) :=
  match d_next c with
  | some c => pure c
  | none => Guarded.fault .behind

/-- The loop over the children of an array from `c` on; `value` writes a token. -/
def write_array (value : Bytes → List JsonToken → BinWrite Bytes) :
    Nat → Bytes → List JsonToken → BinWrite Bytes
  | 0, bb, _ => pure bb
  | n + 1, bb, c => do
    let bb ← value bb c
    let c ← next_token c
    write_array value n bb c

/-- The loop over the children of an object. -/
def write_object (value : Bytes → List JsonToken → BinWrite Bytes) :
    Nat → Bytes → List JsonToken → BinWrite Bytes
  | 0, bb, _ => pure bb
  | _ + 1, _, [] => Guarded.fault .behind
  | n + 1, bb, t :: c => do
    let bb ← bb_write_long_be_at bb t.key 2
    let bb ← value bb (t :: c)
    let c ← next_token (t :: c)
    write_object value n bb c

def data_bytes (t : JsonToken) : BinWrite Bytes := do
  Guarded.guard (t.size ≤ (t.data.getD []).length) .behind
  pure ((t.data.getD []).take t.size)

def write_token : Nat → Bytes → List JsonToken → BinWrite Bytes
  | 0, _, _ => Guarded.fault .rounds
  | _ + 1, _, [] => Guarded.fault .behind
  | fuel + 1, bb, t :: ts => do
    let bb ← write_head bb t.type t.size
    if t.type = 2 then write_array (write_token fuel) t.size bb ts
    else if t.type = 0 then do
      let data ← data_bytes t
      bb_write_raw_bytes bb data
    else if t.type = 3 then write_object (write_token fuel) t.size bb ts
    else if t.type = 1 then do
      let data ← data_bytes t
      let bb ← bb_write_raw_bytes bb data
      bb_write_byte bb 0
    else pure bb

def d_serialize_binary (item : List JsonToken) : BinWrite Bytes :=
  match d_token_size item with
  | none => Guarded.fault .behind
  | some size => do
    let bb ← write_token_count [] size
    write_token item.length bb item

end In3
