import In3.Core.JsonTree
/-!
# Reading a token again (`core/util/data.c`)

Not only `d_bytes` changes a token. `d_string` makes bytes, numbers and booleans a text, and
`d_bytesl` pads bytes. A hex string of up to seven digits is a number behind the first `d_bytes`
and loses its leading zeros.
-/
open Lib

namespace In3

def d_string_st : Tok → Tok
  | .bytes d => .string ([48, 120] ++ bytes_to_hex (d.getD [])) false
  | .boolean v => .string (if v then [116, 114, 117, 101] else [102, 97, 108, 115, 101]) false
  | .integer v => .string (decimal_text (v % 2 ^ 28)) false
  | t => t

/-- A call of a read accessor; `number` stands for `d_int` and `d_long`. -/
inductive TokenCall where
  | bytes
  | bytesl (len : Nat)
  | string
  | number

def TokenCall.after (t : Tok) : TokenCall → Tok
  | .bytes => d_bytes_st t
  | .bytesl len => d_bytesl_st t len
  | .string => d_string_st t
  | .number => d_long_st t

end In3
