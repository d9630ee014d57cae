import In3.Evm.Precompiled
/-!
# The BLAKE2 contract (`verifier/eth1/evm/pre_blake2.c`)

The call data are the number of rounds in four bytes, the state, the message, the counter and a flag. The rounds are counted
with an `int`, and the round is the row of the table of message words, which has twelve rows. The returned data are a new
buffer of 128 bytes, of which the first half is written.
-/
open Lib

namespace In3.Evm.Blake2

def IV : Vector UInt64 8 :=
  #v[0x6a09e667f3bcc908, 0xbb67ae8584caa73b, 0x3c6ef372fe94f82b, 0xa54ff53a5f1d36f1,
     0x510e527fade682d1, 0x9b05688c2b3e6c1f, 0x1f83d9abfb41bd6b, 0x5be0cd19137e2179]

def SIGMA : Vector (Vector (Fin 16) 16) 12 :=
  #v[#v[0, 1, 2, 3, 4, 5, 6, 7, 8, 9, 10, 11, 12, 13, 14, 15],
     #v[14, 10, 4, 8, 9, 15, 13, 6, 1, 12, 0, 2, 11, 7, 5, 3],
     #v[11, 8, 12, 0, 5, 2, 15, 13, 10, 14, 3, 6, 7, 1, 9, 4],
     #v[7, 9, 3, 1, 13, 12, 11, 14, 2, 6, 5, 10, 4, 0, 15, 8],
     #v[9, 0, 5, 7, 2, 4, 10, 15, 14, 1, 11, 12, 6, 8, 3, 13],
     #v[2, 12, 6, 10, 0, 11, 8, 3, 4, 13, 7, 5, 15, 14, 1, 9],
     #v[12, 5, 1, 15, 14, 13, 4, 10, 0, 7, 6, 3, 9, 2, 8, 11],
     #v[13, 11, 7, 14, 12, 1, 3, 9, 5, 0, 15, 4, 8, 6, 2, 10],
     #v[6, 15, 14, 9, 11, 3, 0, 8, 12, 2, 13, 7, 1, 4, 10, 5],
     #v[10, 2, 8, 4, 7, 6, 1, 5, 15, 11, 9, 14, 3, 12, 13, 0],
     #v[0, 1, 2, 3, 4, 5, 6, 7, 8, 9, 10, 11, 12, 13, 14, 15],
     #v[14, 10, 4, 8, 9, 15, 13, 6, 1, 12, 0, 2, 11, 7, 5, 3]]

/-- The eight bytes at `p`, which lie in the 213 bytes of the call data. -/
def le_to_long (data : Bytes) (p : Nat) : UInt64 :=
  let d := fun i => (data.getD (p + i) 0).toNat
  UInt64.ofNat (d 0 ||| d 1 <<< 8 ||| d 2 <<< 16 ||| d 3 <<< 24 ||| d 4 <<< 32 ||| d 5 <<< 40 ||| d 6 <<< 48 ||| d 7 <<< 56)

def le_from_long (val : UInt64) : Bytes :=
  [val.toUInt8, (val >>> 8).toUInt8, (val >>> 16).toUInt8, (val >>> 24).toUInt8, (val >>> 32).toUInt8, (val >>> 40).toUInt8,
   (val >>> 48).toUInt8, (val >>> 56).toUInt8]

def rotr64 (w c : UInt64) : UInt64 := w >>> c ||| w <<< (64 - c)

/-- `SIGMA[r]`. -/
def sigma_row (r : Nat) : Checked (Vector (Fin 16) 16) :=
  if h : r < 12 then pure (SIGMA.get ⟨r, h⟩) else Guarded.fault (.read (16 * r) 192)

/-- The macro `G` on the words `a`, `b`, `c` and `d` of the array `v`. -/
def G (m : Vector UInt64 16) (r : Nat) (i : Fin 8) (a b c d : Fin 16) (v : Vector UInt64 16) : Checked (Vector UInt64 16) := do
  let row ← sigma_row r
  let v := v.set a (v.get a + v.get b + m.get (row.get ⟨2 * i + 0, by omega⟩))
  let v := v.set d (rotr64 (v.get d ^^^ v.get a) 32)
  let v := v.set c (v.get c + v.get d)
  let v := v.set b (rotr64 (v.get b ^^^ v.get c) 24)
  let v := v.set a (v.get a + v.get b + m.get (row.get ⟨2 * i + 1, by omega⟩))
  let v := v.set d (rotr64 (v.get d ^^^ v.get a) 16)
  let v := v.set c (v.get c + v.get d)
  return v.set b (rotr64 (v.get b ^^^ v.get c) 63)

/-- The body of the loop. -/
def round (m : Vector UInt64 16) (v : Vector UInt64 16) (r : Nat) : Checked (Vector UInt64 16) := do
  let v ← G m r 0 0 4 8 12 v
  let v ← G m r 1 1 5 9 13 v
  let v ← G m r 2 2 6 10 14 v
  let v ← G m r 3 3 7 11 15 v
  let v ← G m r 4 0 5 10 15 v
  let v ← G m r 5 1 6 11 12 v
  let v ← G m r 6 2 7 8 13 v
  G m r 7 3 4 9 14 v

/-- `(int) n` of an unsigned number. -/
def to_int (n : Nat) : Int := if n < 2 ^ 31 then n else (n : Int) - 2 ^ 32

/-- `precompiled_blake2`: the 64 bytes that are written to `out`. -/
def precompiled_blake2 (input : Bytes) : Checked Bytes := do
  let t_0 := le_to_long input 196
  let t_1 := le_to_long input 204
  let f := input.getD 212 0
  let h : Vector UInt64 8 := Vector.ofFn fun i => le_to_long input (4 + 8 * i)
  let m : Vector UInt64 16 := Vector.ofFn fun i => le_to_long input (68 + 8 * i)
  let rounds := to_int (bytes_to_int (input.take 4))
  let v : Vector UInt64 16 := h ++
    #v[IV.get 0, IV.get 1, IV.get 2, IV.get 3, IV.get 4 ^^^ t_0, IV.get 5 ^^^ t_1,
       IV.get 6 ^^^ (if f ≠ 0 then 0xFFFFFFFFFFFFFFFF else 0), IV.get 7]
  let v ← (List.range rounds.toNat).foldlM (round m) v
  return (List.finRange 8).flatMap fun i => le_from_long (h.get i ^^^ v.get (i.castLE (by decide)) ^^^ v.get (i.natAdd 8))

/-- `pre_blake2`; `fresh` is what `_malloc(128)` finds in its memory. -/
def pre_blake2 (fresh : Vector UInt8 128) (call_data : Bytes) : Priced :=
  if call_data.length ≠ 213 then throw (-1)
  else return (bytes_to_int (call_data.take 4), do
    let out ← precompiled_blake2 call_data
    return some (out ++ fresh.toList.drop out.length))

end In3.Evm.Blake2
