import In3.Core.Utils
import In3.Lib.Guarded
/-!
# Numbers of any length (`verifier/eth1/evm/big.c`)

A number is a byte string, most significant byte first, as it stands on the stack: with any number
of leading zeros. A result is written into a buffer of `size` bytes from its end to its start, so
the bytes that are written so far are a list that grows at its head. An access behind the end of a
buffer or in front of it is a fault.

`mp_div`, `mp_exptmod` and `mp_export` of the big-integer library are taken as what they are for:
division and powers of naturals, and the shortest spelling of a number.
-/
open Lib

namespace In3.Evm

/-- An access that C does not define. -/
inductive Fault where
  /-- a byte that is not in the buffer -/
  | read (index : Int) (size : Nat)
  | write (index : Int) (size : Nat)
  /-- a division by zero -/
  | division
  /-- `NULL` is dereferenced -/
  | null
  /-- memory that was freed -/
  | freed (id : Nat)
  /-- an `int` is too large -/
  | overflow
  /-- the loop did not end within the given number of rounds -/
  | fuel
  deriving DecidableEq, Repr

/-- A run of a function with `int` results: the negative ones are errors. -/
abbrev Checked := Guarded Fault Int

def rd (b : Bytes) (i : Nat) : Checked UInt8 :=
  match b[i]? with
  | some x => pure x
  | none => Guarded.fault (.read i b.length)

/-- `len ? b[--len] : 0`. -/
def rd_last (b : Bytes) (len : Nat) : Checked UInt8 := if len = 0 then pure 0 else rd b (len - 1)

def big_is_zero (data : Bytes) : Bool := optimize_len data = [0]

/-- `memcmp` on two strings of one length; only the sign of its result is used. -/
def memcmp : Bytes → Bytes → Int
  | x :: a, y :: b => if x < y then -1 else if y < x then 1 else memcmp a b
  | _, _ => 0

def big_cmp (a b : Bytes) : Int :=
  if a.length = b.length then memcmp a b
  else if b.length < a.length then
    if (a.take (a.length - b.length)).any (· ≠ 0) then 1 else memcmp (a.drop (a.length - b.length)) b
  else if (b.take (b.length - a.length)).any (· ≠ 0) then -1 else memcmp a (b.drop (b.length - a.length))

/-! ## Signs -/

/-- The loop of `big_sign`: what is in `tmp`, and `rest`. -/
def big_sign_loop (val : Bytes) : Bytes × Nat :=
  val.foldr (fun x r => (UInt8.ofNat ((r.2 + (x ^^^ 0xFF).toNat) % 256) :: r.1, (r.2 + (x ^^^ 0xFF).toNat) / 256)) ([], 1)

/-- `big_sign`: what `dst` is set to. It is called with at most 32 bytes. -/
def big_sign (val : Bytes) : Bytes := (big_sign_loop val).1

/-- `big_signed`: whether the number is negative, and its absolute value (with at most 32 bytes). An empty entry of the stack is followed by its length byte, so its first byte is zero. -/
def big_signed (val : Bytes) : Bool × Bytes :=
  if val.headD 0 &&& 128 = 0 then (false, val) else (true, big_sign val)

/-! ## Shifts -/

/-- The bits of `big_shift_left`, from the last byte to the first; the carry is the second part. -/
def shift_left_bits (r : Nat) (a : Bytes) : Bytes × Nat :=
  a.foldr (fun x c => (UInt8.ofNat ((c.2 ||| x.toNat <<< r) % 256) :: c.1, (c.2 ||| x.toNat <<< r) / 256)) ([], 0)

def big_shift_left (a : Bytes) (bits : Nat) : Bytes :=
  let a := if bits % 8 = 0 then a else (shift_left_bits (bits % 8) a).1
  let r := (bits - bits % 8) / 8
  if r = 0 then a else (List.range a.length).map fun i => if i + r < a.length then a.getD (i + r) 0 else 0

/-- The bits of `big_shift_right`, from the first byte to the last. -/
def shift_right_bits (r : Nat) : Nat → Bytes → Bytes
  | _, [] => []
  | carry, x :: a =>
    UInt8.ofNat ((carry ||| x.toNat <<< (8 - r)) / 256 % 256) ::
      shift_right_bits r ((carry ||| x.toNat <<< (8 - r)) * 256 % 2 ^ 64) a

def big_shift_right (a : Bytes) (bits : Nat) : Bytes :=
  let a := if bits % 8 = 0 then a else shift_right_bits (bits % 8) 0 a
  let r := (bits - bits % 8) / 8
  if r = 0 then a else (List.range a.length).map fun i => if r ≤ i then a.getD (i - r) 0 else 0

/-! ## Sums and products -/

/-- The loop of `big_add`: `i` rounds are left, `len_a` and `len_b` bytes are not added yet. -/
def add_loop (a b : Bytes) (size : Nat) : Nat → Nat → Nat → Nat → Bytes → Checked Bytes
  | 0, _, _, _, out => pure out
  | i + 1, len_a, len_b, carry, out => do
    let x ← rd_last a len_a
    let y ← rd_last b len_b
    Guarded.guard (i < size) (Fault.write i size)
    add_loop a b size i (len_a - 1) (len_b - 1) ((carry + x.toNat + y.toNat) / 256)
      (UInt8.ofNat ((carry + x.toNat + y.toNat) % 256) :: out)

/-- `big_add`; without a limit `max` is 0. -/
def big_add (a b : Bytes) (size max : Nat) : Checked Bytes :=
  let a := optimize_len a
  let b := optimize_len b
  let l := if b.length < a.length then a.length + 1 else b.length + 1
  let l := if max ≠ 0 ∧ max < l then max else l
  add_loop a b size l a.length b.length 0 []

/-- The loop of `big_sub`, and the last borrow. -/
def sub_loop (a b : Bytes) (size : Nat) : Nat → Nat → Nat → Nat → Bytes → Checked (Bytes × Nat)
  | 0, _, _, borrow, out => pure (out, borrow)
  | i + 1, len_a, len_b, borrow, out => do
    let x ← rd_last a len_a
    let y ← rd_last b len_b
    let carry := (x.toNat + 2 ^ 64 - y.toNat - borrow) % 2 ^ 64
    Guarded.guard (i < size) (Fault.write i size)
    sub_loop a b size i (len_a - 1) (len_b - 1) (carry / 256 % 2) (UInt8.ofNat (carry % 256) :: out)

def big_sub (a b : Bytes) (size : Nat) : Checked Bytes := do
  let a := optimize_len a
  let b := optimize_len b
  let l := if b.length < a.length then a.length + 1 else b.length + 1
  let l := if 32 < l then 32 else l
  let (out, borrow) ← sub_loop a b size l a.length b.length 0 []
  if borrow ≠ 0 ∧ l < 32 then
    Guarded.guard (32 ≤ size) (Fault.write 31 size)
    pure (List.replicate (32 - l) 0xFF ++ out)
  else pure out

/-- The inner loops of `big_mul`: `x` counts down and `y` up (the first argument is `x + 1`). -/
def mul_column (a b : Bytes) : Nat → Nat → Nat → Checked Nat
  | 0, _, val => pure val
  | x + 1, y, val =>
    if y < b.length then do
      let p ← rd a x
      let q ← rd b y
      mul_column a b x (y + 1) ((val + p.toNat * q.toNat) % 2 ^ 32)
    else pure val

/-- `out[--i] = val & 0xFF`. -/
def put (i : Int) (val : Nat) (out : Bytes) : Checked Bytes := do
  Guarded.guard (0 ≤ i - 1 ∧ i - 1 < 66) (Fault.write (i - 1) 66)
  pure (UInt8.ofNat (val % 256) :: out)

/-- The first loop of `big_mul`: the argument is `ys + 1`. -/
def mul_low (a b : Bytes) : Nat → Int → Nat → Bytes → Checked (Int × Nat × Bytes)
  | 0, i, val, out => pure (i, val, out)
  | ys + 1, i, val, out => do
    let val ← mul_column a b a.length ys val
    let out ← put i val out
    mul_low a b ys (i - 1) (val / 256) out

/-- The second loop of `big_mul`: the argument is `xs + 1`. -/
def mul_high (a b : Bytes) : Nat → Int → Nat → Bytes → Checked (Int × Nat × Bytes)
  | 0, i, val, out => pure (i, val, out)
  | xs + 1, i, val, out => do
    let val ← mul_column a b (xs + 1) 0 val
    let out ← put i val out
    mul_high a b xs (i - 1) (val / 256) out

def big_mul (a b : Bytes) (size max : Nat) : Checked Bytes := do
  let a := optimize_len a
  let b := optimize_len b
  if a.length + b.length < 9 then
    let p := optimize_len (long_to_bytes (bytes_to_long a * bytes_to_long b % 2 ^ 64))
    Guarded.guard (p.length ≤ size) (Fault.write p.length size)
    pure p
  else
    let (i, val, out) ← mul_low a b b.length (a.length + b.length) 0 []
    let (i, val, out) ← mul_high a b (a.length - 1) i val out
    let out ← put i val out
    let p := optimize_len (out.take (a.length + b.length))
    let p := if max < p.length then p.drop (p.length - max) else p
    Guarded.guard (p.length ≤ size) (Fault.write p.length size)
    pure p

/-! ## Powers -/

def mp_export (n : Nat) : Bytes := beBytes n

/-- The shortest spelling of a number, with at least one byte. -/
def export_byte (n : Nat) : Bytes := if n = 0 then [0] else mp_export n

def big_exp (a b : Bytes) : Bytes :=
  let a := optimize_len a
  let b := optimize_len b
  if b = [] ∨ b = [0] then [1]
  else if b = [1] then a
  else if a = [2] then
    if 1 < b.length then [0]
    else
      let p := optimize_len (big_shift_left (List.replicate 63 0 ++ [1]) (b.headD 0).toNat)
      p.drop (p.length - 32)
  else export_byte (beNat a ^ beNat b % 2 ^ 256)

/-- `big_log256`, with what is in memory from the number on: it does not stop at the end of the
number. The length is a byte. -/
def big_log256 : Bytes → Nat → Checked Nat
  | [], _ => Guarded.fault (.read 0 0)
  | x :: mem, len => if x = 0 then big_log256 mem ((len + 255) % 256) else pure len

/-! ## Division -/

/-- The loop of `big_divmod` with a divisor of less than eight bytes: the remainder and the quotient. -/
def div_loop (ud : Nat) : Bytes → Nat → Bytes → Nat × Bytes
  | [], ur, q => (ur, q)
  | x :: n, ur, q =>
    if (ur * 256 ||| x.toNat) % 2 ^ 64 < ud then div_loop ud n ((ur * 256 ||| x.toNat) % 2 ^ 64) (if q = [] then q else q ++ [0])
    else div_loop ud n ((ur * 256 ||| x.toNat) % 2 ^ 64 % ud) (q ++ [UInt8.ofNat ((ur * 256 ||| x.toNat) % 2 ^ 64 / ud)])

/-- `big_divmod`: the quotient and the remainder. -/
def big_divmod (n d : Bytes) : Checked (Bytes × Bytes) := do
  let n := optimize_len n
  let d := optimize_len d
  if d.length < 8 then
    let ud := bytes_to_long d
    Guarded.guard (ud ≠ 0) Fault.division
    if n.length < 9 then
      let ur := bytes_to_long n
      pure (optimize_len (long_to_bytes (ur / ud)), optimize_len (long_to_bytes (ur % ud)))
    else
      let (ur, q) := div_loop ud n 0 []
      pure (q, optimize_len (long_to_bytes ur))
  else
    -- `mp_div`
    Guarded.guard (beNat d ≠ 0) Fault.division
    pure (export_byte (beNat n / beNat d), export_byte (beNat n % beNat d))

/-- The loop at the start of `big_div`: a zero byte at the end of both numbers is left out. -/
def strip_common : Nat → Bytes → Bytes → Bytes × Bytes
  | 0, a, b => (a, b)
  | fuel + 1, a, b =>
    if 1 < a.length ∧ 1 < b.length ∧ a.getLastD 1 = 0 ∧ b.getLastD 1 = 0 then strip_common fuel a.dropLast b.dropLast
    else (a, b)

/-- `memcpy(_a + 32 - l, res, l); memset(_a, 0, 32 - l); big_sign(_a, 32, res)`. -/
def negate_word (res : Bytes) : Bytes := big_sign (padLeft 32 res)

/-- `big_div`; the numbers have at most 32 bytes when `sig` is set. -/
def big_div (a b : Bytes) (sig : Bool) : Checked Bytes := do
  let a := optimize_len a
  let b := optimize_len b
  let (a, b) := strip_common a.length a b
  if b = [] ∨ b = [0] then pure [0]
  else if sig then
    let (sa, a) := big_signed a
    let (sb, b) := big_signed b
    let (res, _) ← big_divmod a b
    pure (if sa ≠ sb then negate_word res else res)
  else
    let (res, _) ← big_divmod a b
    pure res

/-- The divisor is a power of two: one bit in its first byte. -/
def is_power_of_2 (b : Bytes) : Bool := b.headD 0 &&& (b.headD 0 - 1) = 0 ∧ b.tail.all (· = 0)

/-- `big_mod`; the numbers have at most 32 bytes when `sig` is set. -/
def big_mod (a b : Bytes) (sig : Bool) : Checked Bytes := do
  let a := optimize_len a
  let b := optimize_len b
  if a.length < b.length ∧ sig = false then pure a
  else if b = [] ∨ b = [0] then pure [0]
  else if sig then
    let (sa, a) := big_signed a
    let (_, b) := big_signed b
    let (_, res) ← big_divmod a b
    pure (if sa then negate_word res else res)
  else if is_power_of_2 b then
    let x ← rd a (a.length - b.length)
    pure ((x &&& (b.headD 0 - 1)) :: a.drop (a.length - b.length + 1))
  else
    let (_, res) ← big_divmod a b
    pure res

end In3.Evm
