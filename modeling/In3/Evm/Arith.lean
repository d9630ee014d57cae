import In3.Evm.State
/-!
# Arithmetic, bits and comparisons (`verifier/eth1/evm/opcodes.c`)

The operations that take their operands off the stack and push one result. The operands are byte
strings of up to 32 bytes as they were pushed, so each operation aligns them on its own.
-/
open Lib

namespace In3.Evm

/-- `MATH_ADD` to `MATH_EXP`. -/
inductive MATH where
  | ADD
  | SUB
  | MUL
  | DIV
  | SDIV
  | MOD
  | SMOD
  | EXP
  deriving DecidableEq, Repr

/-- The `switch` of `op_math`, with the buffer `res[65]`. -/
def math_switch (op : MATH) (mod : Bool) (a b : Bytes) : M Bytes :=
  match op with
  | .ADD => checked (big_add a b 65 (if mod then 64 else 32))
  | .SUB => checked (big_sub a b 65)
  | .MUL => checked (big_mul a b 65 (if mod then 65 else 32))
  | .DIV => checked (big_div a b false)
  | .SDIV => checked (big_div a b true)
  | .MOD => checked (big_mod a b false)
  | .SMOD => checked (big_mod a b true)
  | .EXP => do
    let evm ← getEvm
    -- the exponent was popped last, so the memory behind the top starts with it
    let n ← checked (big_log256 evm.stack.slack b.length)
    subgas ((if evm.properties.FRONTIER then 10 else 50) * n)
    return big_exp a b

def op_math (op : MATH) (mod : Bool) : M Unit := do
  let a ← evm_stack_pop_ref
  let b ← evm_stack_pop_ref
  let r ← math_switch op mod a b
  if mod then
    let mod_data ← evm_stack_pop_ref
    let r ← checked (big_mod (optimize_len r) mod_data false)
    evm_stack_push (optimize_len r)
  else evm_stack_push (optimize_len r)

/-- The two copies of `op_signextend`: `tmp2` holds the number and zeros up to 32 bytes, and the `k + 1` bytes
from `tmp2 + l - k - 1` on go to the end of `tmp`. -/
def signextend_word (k : Nat) (val : Bytes) : Checked Bytes := do
  let bitset := k < val.length ∧ val.getD (val.length - k - 1) 0 &&& 128 ≠ 0
  let tmp2 := val ++ List.replicate (32 - val.length) 0
  Guarded.guard (k + 1 ≤ val.length) (Fault.read (val.length - k - 1) 32)
  return List.replicate (31 - k) (if bitset then 0xFF else 0) ++ (tmp2.drop (val.length - k - 1)).take (k + 1)

def op_signextend : M Unit := do
  let k ← evm_stack_pop_int
  if 31 < k then return
  let val ← evm_stack_pop_ref
  let tmp ← checked (signextend_word k val)
  evm_stack_push (optimize_len tmp)

def op_is_zero : M Unit := do
  let a ← evm_stack_pop_ref
  evm_stack_push [if a.any (· ≠ 0) then 0 else 1]

def op_not : M Unit := do
  let a ← evm_stack_pop_ref
  evm_stack_push (optimize_len ((padLeft 32 a).map (· ^^^ 0xFF)))

/-- `OP_AND`, `OP_OR` and `OP_XOR`. -/
inductive BIT where
  | AND
  | OR
  | XOR
  deriving DecidableEq, Repr

/-- The `switch` of `op_bit`: `res` has `l1` bytes, the second operand is not longer. -/
def bit_switch (op : BIT) (res a : Bytes) : Bytes :=
  let pre := res.take (res.length - a.length)
  let post := res.drop (res.length - a.length)
  match op with
  | .AND => List.replicate (res.length - a.length) 0 ++ List.zipWith (· &&& ·) post a
  | .OR => pre ++ List.zipWith (· ||| ·) post a
  | .XOR => pre ++ List.zipWith (· ^^^ ·) post a

def op_bit (op : BIT) : M Unit := do
  let first ← evm_stack_pop_ref
  let a ← evm_stack_pop_ref
  let l1 := if a.length < first.length then first.length else a.length
  let res := (padLeft 32 first).drop (32 - l1)
  evm_stack_push (optimize_len (bit_switch op res a))

def op_byte : M Unit := do
  let pos ← evm_stack_pop_byte
  let b ← evm_stack_pop_ref
  match pos with
  | none => evm_stack_push [0]
  | some pos =>
    if pos &&& 0xE0 ≠ 0 then evm_stack_push [0]
    else if 32 - b.length ≤ pos.toNat then do
      let x ← checked (rd b (pos.toNat + b.length - 32))
      evm_stack_push [x]
    else evm_stack_push [0]

/-- The result of `op_cmp` with `eq` below, equal to or above zero. -/
def cmp_result (ord : Ordering) (sig : Bool) (a b : Bytes) : Bool :=
  let (sig_a, a) := if sig then big_signed a else (false, a)
  let (sig_b, b) := if sig then big_signed b else (false, b)
  let res : Bool := match ord with
    | .lt => big_cmp a b < 0
    | .eq => big_cmp a b = 0
    | .gt => big_cmp a b > 0
  if sig ∧ ord ≠ .eq then
    -- the sign changes the result
    if sig_a ∧ sig_b then !res
    else if sig_a ∨ sig_b then (if ord = .lt then sig_a else sig_b)
    else res
  else res

def op_cmp (ord : Ordering) (sig : Bool) : M Unit := do
  let a ← evm_stack_pop_ref
  let b ← evm_stack_pop_ref
  evm_stack_push [if cmp_result ord sig a b then 1 else 0]

/-- `op_shift` with `left` 0, 1 and 2. -/
inductive SHIFT where
  | SHR
  | SHL
  | SAR
  deriving DecidableEq, Repr

/-- The number on the stack is a negative word. -/
def is_negative (b : Bytes) : Bool := b.length = 32 ∧ b.headD 0 &&& 128 ≠ 0

/-- The end of the signed shift: ones from the top down to the old sign. -/
def fill_ones (res : Bytes) (pos : Nat) : Bytes :=
  List.replicate (pos / 8) (0xFF : UInt8) ++
    (res.getD (pos / 8) 0 ||| UInt8.ofNat ((0xFF >>> (8 - pos % 8)) <<< (8 - pos % 8))) :: res.drop (pos / 8 + 1)

def op_shift (left : SHIFT) : M Unit := do
  let evm ← getEvm
  if ¬ evm.properties.CONSTANTINOPL then throw EVM_ERROR_INVALID_OPCODE
  let pos ← evm_stack_pop_byte
  let b ← evm_stack_pop_ref
  match pos with
  | none =>
    -- the number is out of range
    if left = .SAR ∧ is_negative b then evm_stack_push (List.replicate 32 0xFF) else evm_stack_push [0]
  | some pos =>
    let res := padLeft 32 b
    match left with
    | .SHL => evm_stack_push (optimize_len (big_shift_left res pos.toNat))
    | .SHR => evm_stack_push (optimize_len (big_shift_right res pos.toNat))
    | .SAR =>
      let res := big_shift_right res pos.toNat
      if is_negative b then evm_stack_push (fill_ones res pos.toNat) else evm_stack_push (optimize_len res)

def op_dataload : M Unit := do
  let pos ← evm_stack_pop_int
  let evm ← getEvm
  if evm.call_data.length < pos then evm_stack_push_int 0
  else if pos + 32 < evm.call_data.length then evm_stack_push ((evm.call_data.drop pos).take 32)
  else if evm.call_data.length - pos ≠ 0 then
    evm_stack_push (evm.call_data.drop pos ++ List.replicate (32 - (evm.call_data.length - pos)) 0)
  else evm_stack_push_int 0

end In3.Evm
