import In3.Core.JsonBounds
import In3.Core.TokenTree
/-!
# The value of a number

A number reaches the accessors `d_bytes`, `d_int` and `d_long` in four forms: in the token
itself, as bytes, as a text, and as a hex string that the first access converts. `View` is a
token as the accessors read it: the length in its lower 28 bits decides how much of a string is
a hex string, while `atoi` and `strtoull` read its text to the end.
-/
open Lib List

namespace In3

open Grammar

/-! ## Accessors -/

/-- A token as its `len` tells, and the text at its data. -/
structure View where
  tok : Tok
  text : Bytes

def View.of (k : JsonToken) : View where
  tok := match k.type with
    | 0 => .bytes k.data
    | 1 => .string ((k.data.getD []).take k.size) k.converted
    | 2 => .array [] []
    | 3 => .object [] []
    | 4 => .boolean (k.size ≠ 0)
    | 5 => .integer k.size
    | _ => .null
  text := k.data.getD []

/-- The item is a string that the accessors do not read as hex. -/
def View.isText (it : View) : Bool := d_type it.tok = .T_STRING && !d_is_bytes it.tok

def View.int (it : View) : Int := if it.isText then atoi it.text else d_int it.tok

def View.long (it : View) : Nat := if it.isText then strtoull it.text else d_long it.tok

inductive Call where
  | d_bytes
  | d_int
  | d_long
  deriving DecidableEq, Repr

/-- The item after a call: a string may be converted. -/
def View.call (it : View) : Call → View
  | .d_bytes => { it with tok := d_bytes_st it.tok }
  | .d_int => { it with tok := d_long_st it.tok }
  | .d_long => { it with tok := d_long_st it.tok }

/-- After any calls, `d_int` and `d_long` return `n`. -/
def View.Reads (it : View) (n : Nat) : Prop :=
  ∀ calls : List Call, (calls.foldl View.call it).int = n ∧ (calls.foldl View.call it).long = n

/-! ## Spellings -/

def hexadecimal (hs : Bytes) : Nat := hs.foldl (fun v h => v * 16 + (hexchar_to_int h).toNat) 0

/-- A decimal literal. It has no fraction or no exponent if the digits of it are empty. -/
structure Literal where
  sign : Option UInt8 := none
  ds : Bytes
  frac : Bytes := []
  e : UInt8 := 101
  exp_sign : Option UInt8 := none
  exp : Bytes := []
  deriving DecidableEq, Repr

namespace Literal

/-- What follows the digits in front. -/
def tail (l : Literal) : Bytes :=
  (if l.frac = [] then [] else 46 :: l.frac) ++ (if l.exp = [] then [] else l.e :: l.exp_sign.toList ++ l.exp)

def text (l : Literal) : Bytes := l.sign.toList ++ l.ds ++ l.tail

def isInteger (l : Literal) : Bool := l.frac = [] && l.exp = []

def isPlain (l : Literal) : Bool := l.sign = none && l.isInteger

def magnitude (l : Literal) : ℚ :=
  decimal_value (l.ds ++ l.frac) / 10 ^ l.frac.length *
    (if l.exp_sign = some 45 then 1 / 10 ^ decimal_value l.exp else 10 ^ decimal_value l.exp)

def value (l : Literal) : ℚ := if l.sign = some 45 then -l.magnitude else l.magnitude

/-- An integer fits into 64 bits, and what is spelled with a fraction or an exponent is the number in front of them, or
no small number. -/
def Right (l : Literal) : Prop :=
  (l.isInteger = true → 0 ≤ l.value ∧ l.value < 2 ^ 64) ∧
    ∀ n : Nat, (n : ℚ) = l.value → n < 2 ^ 31 → n = decimal_value l.ds

end Literal

/-- How a number is written: as a decimal literal, or as a hex string. -/
inductive Spelling where
  | literal (l : Literal)
  | hex (q : UInt8) (hs : Bytes)
  deriving DecidableEq, Repr

namespace Spelling

def text : Spelling → Bytes
  | literal l => l.text
  | hex q hs => q :: 48 :: 120 :: hs ++ [q]

def value : Spelling → ℚ
  | literal l => l.value
  | hex _ hs => hexadecimal hs

/-- A decimal integer literal. -/
def isInteger : Spelling → Bool
  | literal l => l.isInteger
  | hex _ _ => false

def Ends (r : Bytes) : Spelling → Prop
  | literal _ => ∃ y r', r = y :: r' ∧ is_number_end y = true
  | hex _ _ => True

def Right : Spelling → Prop
  | literal l => l.Right
  | hex _ hs => 2 ^ 31 ≤ hexadecimal hs ∨ hs.length ≤ 8 ∨ hexadecimal hs = 0

end Spelling

/-! ## Digits -/

variable {b ds hs r s u : Bytes} {it : View} {left : Nat} {q x y : UInt8} {t : Tok}

variable {num : Num} {pre : Bytes} {sp : Spelling} {v w : Nat}

namespace Literal
variable {l : Literal}

end Literal

/-! ## Hex strings -/

def Spelling.tok : Spelling → Tok
  | .literal l => if l.isPlain then number_tok (.integer (decimal_value l.ds % 2 ^ 64)) else .string l.text true
  | .hex _ hs => .string (48 :: 120 :: hs) false

end In3
