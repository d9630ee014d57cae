import In3.Lib.Bytes
/-!
# The compression function of BLAKE2b

The function F of RFC 7693 with the number of rounds as an argument. A round mixes the columns and then the diagonals of the
state of sixteen words; its message words are chosen by a row of `SIGMA`, and the ten rows are used in turn.
-/

namespace Lib.Blake2b

abbrev Word := UInt64
abbrev Block := Vector Word 16

/-- The place of a word in a block. -/
abbrev Index := Fin 16

def IV : Vector Word 8 :=
  #v[0x6a09e667f3bcc908, 0xbb67ae8584caa73b, 0x3c6ef372fe94f82b, 0xa54ff53a5f1d36f1,
     0x510e527fade682d1, 0x9b05688c2b3e6c1f, 0x1f83d9abfb41bd6b, 0x5be0cd19137e2179]

def SIGMA : Vector (Vector Index 16) 10 :=
  #v[#v[0, 1, 2, 3, 4, 5, 6, 7, 8, 9, 10, 11, 12, 13, 14, 15],
     #v[14, 10, 4, 8, 9, 15, 13, 6, 1, 12, 0, 2, 11, 7, 5, 3],
     #v[11, 8, 12, 0, 5, 2, 15, 13, 10, 14, 3, 6, 7, 1, 9, 4],
     #v[7, 9, 3, 1, 13, 12, 11, 14, 2, 6, 5, 10, 4, 0, 15, 8],
     #v[9, 0, 5, 7, 2, 4, 10, 15, 14, 1, 11, 12, 6, 8, 3, 13],
     #v[2, 12, 6, 10, 0, 11, 8, 3, 4, 13, 7, 5, 15, 14, 1, 9],
     #v[12, 5, 1, 15, 14, 13, 4, 10, 0, 7, 6, 3, 9, 2, 8, 11],
     #v[13, 11, 7, 14, 12, 1, 3, 9, 5, 0, 15, 4, 8, 6, 2, 10],
     #v[6, 15, 14, 9, 11, 3, 0, 8, 12, 2, 13, 7, 1, 4, 10, 5],
     #v[10, 2, 8, 4, 7, 6, 1, 5, 15, 11, 9, 14, 3, 12, 13, 0]]

def row (r : Nat) : Vector Index 16 := SIGMA.get ⟨r % 10, Nat.mod_lt r (by decide)⟩

def rotr (w c : UInt64) : UInt64 := w >>> c ||| w <<< (64 - c)

/-- The four words behind a mixing with the message words `x` and `y`. -/
def quarter (a b c d x y : UInt64) : UInt64 × UInt64 × UInt64 × UInt64 :=
  let a := a + b + x
  let d := rotr (d ^^^ a) 32
  let c := c + d
  let b := rotr (b ^^^ c) 24
  let a := a + b + y
  let d := rotr (d ^^^ a) 16
  let c := c + d
  let b := rotr (b ^^^ c) 63
  (a, b, c, d)

/-- Four words of the state are mixed. -/
def mix (v : Block) (a b c d : Index) (x y : Word) : Block :=
  let q := quarter (v.get a) (v.get b) (v.get c) (v.get d) x y
  (((v.set a q.1).set b q.2.1).set c q.2.2.1).set d q.2.2.2

def round (m : Block) (s : Vector Index 16) (v : Block) : Block :=
  let v := mix v 0 4 8 12 (m.get (s.get 0)) (m.get (s.get 1))
  let v := mix v 1 5 9 13 (m.get (s.get 2)) (m.get (s.get 3))
  let v := mix v 2 6 10 14 (m.get (s.get 4)) (m.get (s.get 5))
  let v := mix v 3 7 11 15 (m.get (s.get 6)) (m.get (s.get 7))
  let v := mix v 0 5 10 15 (m.get (s.get 8)) (m.get (s.get 9))
  let v := mix v 1 6 11 12 (m.get (s.get 10)) (m.get (s.get 11))
  let v := mix v 2 7 8 13 (m.get (s.get 12)) (m.get (s.get 13))
  mix v 3 4 9 14 (m.get (s.get 14)) (m.get (s.get 15))

def rounds (m : Block) (n : Nat) (v : Block) : Block := (List.range n).foldl (fun v r => round m (row r) v) v

/-- The state at the start: the counter and the flag of the last block are mixed into the second half. -/
def init (h : Vector UInt64 8) (t0 t1 : UInt64) (last : Bool) : Block :=
  let w := ((IV.set 4 (IV.get 4 ^^^ t0)).set 5 (IV.get 5 ^^^ t1)).set 6 (if last then ~~~ IV.get 6 else IV.get 6)
  h ++ w

/-- The new state. -/
def compress (n : Nat) (h : Vector UInt64 8) (m : Block) (t0 t1 : UInt64) (last : Bool) : Vector UInt64 8 :=
  let v := rounds m n (init h t0 t1 last)
  Vector.ofFn fun i => h.get i ^^^ v.get (i.castAdd 8) ^^^ v.get (i.natAdd 8)

end Lib.Blake2b
