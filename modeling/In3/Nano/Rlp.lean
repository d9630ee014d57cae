import In3.Core.Utils
import In3.Lib.Rlp
/-!
# The RLP coder (`nano/rlp.c`)

A `bytes_t` is the list of the bytes it covers. A read behind its last byte has
no defined result and makes the model return `none`. The arithmetic is the
compiled one: `size_t` has 64 bits, a length byte is promoted to a 32-bit `int`
before it is shifted (shift counts are taken modulo 32), and the shifted value
is extended with its sign when it is or-ed into the length.
-/
open Lib

namespace In3

/-- `x << sh` for a byte `x`, as the `size_t` it becomes. -/
def shl_int (x sh : Nat) : Nat :=
  let v := (x <<< (sh % 32)) % 2 ^ 32
  if v < 2 ^ 31 then v else v + (2 ^ 64 - 2 ^ 32)

def read_len (b : Bytes) (i k : Nat) : Option Nat :=
  (List.range k).foldlM (fun l n => do
    let x ← b[i + 1 + n]?
    some (l ||| shl_int x.toNat (8 * (k - n - 1)))) 0

/-- What one round of the `rlp_decode` loop finds at position `i`: the kind of
the item, where its content starts, its length, and `i` before the loop adds one. -/
structure Head where
  kind : Int
  start : Nat
  len : Nat
  last : Nat
  deriving DecidableEq, Repr

def item_head (b : Bytes) (i : Nat) : Option Head := do
  let c := (← b[i]?).toNat
  if c < 0x80 then some ⟨1, i, 1, i⟩
  else if c < 0xb8 then some ⟨1, i + 1, c - 0x80, (i + (c - 0x80)) % 2 ^ 64⟩
  else if c < 0xc0 then do
    let l ← read_len b i (c - 0xb7)
    some ⟨1, i + (c - 0xb7) + 1, l, (i + l + (c - 0xb7)) % 2 ^ 64⟩
  else if c < 0xf8 then some ⟨2, i + 1, c - 0xc0, (i + (c - 0xc0)) % 2 ^ 64⟩
  else do
    let l ← read_len b i (c - 0xf7)
    some ⟨2, i + (c - 0xf7) + 1, l, (i + l + (c - 0xf7)) % 2 ^ 64⟩

/-- `ref`: the return code for a range of `l` bytes from `s` on. A length whose
sign bit is set moves the end backwards. The range itself is stored either way. -/
def ref (b : Bytes) (l s : Nat) (r : Int) : Int :=
  let e : Int := if l < 2 ^ 63 then (s : Int) + l else (s : Int) + l - 2 ^ 64
  if 0 ≤ e ∧ e ≤ b.length then r else -1

/-- `ref` when both arguments are one variable: the range is stored first and then
compared with itself, so the bytes are not looked at. -/
def ref_in_place (l s : Nat) (r : Int) : Int := if l < 2 ^ 63 ∧ s + l ≤ s + l % 2 ^ 32 then r else -1

/-- The loop of `rlp_decode`, with the read position `i` and the item count `p`.
`code` is `ref` for the arguments of the call. -/
def rlp_loop (b : Bytes) (code : Nat → Nat → Int → Int) (index : Int) :
    Nat → Nat → Nat → Option (Int × Option (Nat × Nat))
  | 0, _, _ => none
  | fuel + 1, i, p =>
    if i < b.length then do
      let h ← item_head b i
      if toInt32 p = index then some (code h.len h.start h.kind, some (h.start, h.len % 2 ^ 32))
      else rlp_loop b code index fuel ((h.last + 1) % 2 ^ 64) (p + 1)
    else if index < 0 then some (if i = b.length then toInt32 p else -3, none)
    else some (if b.length < i then -1 else 0, none)

/-- `rlp_decode`: the return code, and the range (offset, length) written to
`dst`, if any. After `2 ^ 32` rounds every `int` has been compared with `index`,
so the bound on the rounds is never reached. -/
def rlp_decode (b : Bytes) (index : Int) : Option (Int × Option (Nat × Nat)) :=
  rlp_loop b (ref b) index (2 ^ 32) 0 0

/-- `rlp_decode(b, index, b)`. -/
def rlp_decode_in_place (b : Bytes) (index : Int) : Option (Int × Option (Nat × Nat)) :=
  rlp_loop b ref_in_place index (2 ^ 32) 0 0

/-- The bytes of a range of `b`; a range that leaves `b` has none. -/
def sub (b : Bytes) (r : Nat × Nat) : Option Bytes :=
  if r.1 + r.2 ≤ b.length then some ((b.drop r.1).take r.2) else none

/-- `rlp_decode` with the bytes of `dst` afterwards (`old`, if it was not written). -/
def rlp_decode_to (b : Bytes) (index : Int) (old : Option Bytes) : Option (Int × Option Bytes) := do
  let (r, d) ← rlp_decode b index
  match d with
  | none => some (r, old)
  | some d => some (r, sub b d)

def rlp_decode_self (b : Bytes) (index : Int) : Option (Int × Option Bytes) := do
  let (r, d) ← rlp_decode_in_place b index
  match d with
  | none => some (r, some b)
  | some d => some (r, sub b d)

def rlp_decode_in_list (b : Bytes) (index : Int) (old : Option Bytes) : Option (Int × Option Bytes) := do
  let (r, d) ← rlp_decode_to b 0 old
  if r ≠ 2 then some (0, d)
  else do
    let l ← d
    rlp_decode_self l index

def rlp_decode_len (b : Bytes) : Option Int := (rlp_decode b (-1)).map Prod.fst

/-! ## Encoding -/

def bb_write_long_be (val len : Nat) : Bytes :=
  (List.range len).map fun j => UInt8.ofNat ((val >>> (8 * (len - 1 - j))) % 256)

def rlp_add_length (len offset : Nat) : Bytes :=
  if len < 56 then [UInt8.ofNat (offset + len)]
  else if len < 0x100 then [UInt8.ofNat (offset + 55 + 1), UInt8.ofNat len]
  else if len < 0x10000 then UInt8.ofNat (offset + 55 + 2) :: bb_write_long_be len 2
  else if len < 0x1000000 then UInt8.ofNat (offset + 55 + 3) :: bb_write_long_be len 3
  else UInt8.ofNat (offset + 55 + 4) :: bb_write_long_be len 4

def rlp_encode_item (val : Bytes) : Bytes :=
  (match val with
  | [x] => if x.toNat < 0x80 then [] else [UInt8.ofNat (1 + 0x80)]
  | _ => if val.length < 56 then [UInt8.ofNat (val.length + 0x80)] else rlp_add_length val.length 0x80) ++ val

def rlp_encode_list (val : Bytes) : Bytes := rlp_add_length val.length 0xc0 ++ val

/-- `rlp_encode_to_list`: the builder's content behind its list prefix. -/
def rlp_encode_to_list (bb : Bytes) : Bytes := rlp_add_length bb.length 0xc0 ++ bb

/-- A write to the scratch builder of a prefix: four bytes on the stack, which cannot be reallocated when the length
reaches their size (`bb_check_size`). -/
def scratch_write (ll val : Bytes) : Option Bytes := if ll.length + val.length < 4 then some (ll ++ val) else none

/-- `rlp_encode_to_list` with its scratch builder. -/
def rlp_wrap_list (bb : Bytes) : Option Bytes := do
  let d ← scratch_write [] (rlp_add_length bb.length 0xc0)
  return d ++ bb

/-- `rlp_encode_to_item`: the builder's content behind its item prefix. -/
def rlp_encode_to_item (bb : Bytes) : Bytes :=
  match bb with
  | [x] => if x.toNat < 0x80 then [x] else [UInt8.ofNat (1 + 0x80), x]
  | _ => (if bb.length < 56 then [UInt8.ofNat (bb.length + 0x80)] else rlp_add_length bb.length 0x80) ++ bb

end In3
