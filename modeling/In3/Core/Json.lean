import In3.Core.Token
import In3.Lib.Guarded
/-!
# The JSON parser (`core/util/data.c`)

The text is a list of characters with the terminating zero at its end, and the cursor
`c` is the rest of it. A cursor behind the zero is the empty list; reading there is the
fault `behind`. The backslashes of a string and the characters of a number are counted in an
`int`; one more than it holds is the fault `overflow`. The parser recurses for each container and counts the depth, so the
depth that is left bounds its recursion; a loop over the children is bounded by the
length of the text (fault `rounds`, which does not happen).

The index of a container is an `int` as well. Behind `2^31` tokens it is negative, and then
its children are not counted.

Parsing replaces the single quotes of a string in the text by double quotes. They are
not read again, so the text is left as it is here.
-/
open Lib

namespace In3

/-- `JSON_E_END_OF_STRING`, `JSON_E_INVALID_CHAR`, `JSON_E_MAX_DEPTH`, `JSON_E_NUMBER_TOO_LONG`. -/
inductive JsonErr where
  | END_OF_STRING
  | INVALID_CHAR
  | MAX_DEPTH
  | NUMBER_TOO_LONG
  deriving DecidableEq, Repr

inductive JsonFault where
  | behind
  | overflow
  | rounds
  deriving DecidableEq, Repr

abbrev JsonRun := Guarded JsonFault JsonErr

def DATA_DEPTH_MAX : Nat := 11

/-- `json_ctx_t`: the cursor and the tokens. -/
structure json_ctx_t where
  c : Bytes
  result : List JsonToken
  deriving DecidableEq, Repr

/-! ## Characters -/

def is_json_space (x : UInt8) : Bool := x = 32 || x = 10 || x = 13 || x = 9

/-- `next_char`: the next character that is no space, and the cursor behind it. -/
def next_char : Bytes → JsonRun (UInt8 × Bytes)
  | [] => Guarded.fault .behind
  | x :: r => if is_json_space x then next_char r else pure (x, r)

/-- `strncmp(c, lit, lit.length) == 0`, which ends at the first difference. -/
def strncmp_eq : Bytes → Bytes → JsonRun Bool
  | _, [] => pure true
  | [], _ :: _ => Guarded.fault .behind
  | x :: r, y :: lit => if x = y then strncmp_eq r lit else pure false

/-- The loop of `parse_key` and `parse_string`, up to the quote `q`: the characters in
between and the cursor behind the quote. The character behind a backslash is skipped
without a look at it. -/
def scan (q : UInt8) (e : JsonErr) : Bytes → JsonRun (Bytes × Bytes)
  | [] => Guarded.fault .behind
  | x :: r =>
    if x = 0 then throw e
    else if x = q then pure ([], r)
    else if x = 92 then
      match r with
      | [] => Guarded.fault .behind
      | y :: r => do
        let (raw, rest) ← scan q e r
        pure (x :: y :: raw, rest)
    else do
      let (raw, rest) ← scan q e r
      pure (x :: raw, rest)

/-! ## Keys -/

/-- `keyn`; the build makes a `char` unsigned. -/
def keyn (name : Bytes) : Nat := name.foldl (fun val c => (val ^^^ (c.toNat ||| val <<< 7)) % 2 ^ 16) 0

def parse_key (c : Bytes) : JsonRun (Nat × Bytes) := do
  let (name, c) ← scan 34 .INVALID_CHAR c
  let (x, c) ← next_char c
  if x = 58 then pure (keyn name, c) else throw .INVALID_CHAR

/-! ## Numbers -/

/-- The characters that may follow a number. -/
def is_number_end (x : UInt8) : Bool := is_json_space x || x = 125 || x = 93 || x = 44 || x = 0

/-- What `parse_number` finds: an integer, or a number that is kept as text. -/
inductive Num where
  | integer (value : Nat)
  | text (s : Bytes)
  deriving DecidableEq, Repr

/-- The characters behind the first one that is no digit. -/
def number_tail : Bool → Bytes → JsonRun (Bytes × Bytes)
  | _, [] => Guarded.fault .behind
  | has_e, x :: r =>
    if is_digit x || x = 45 then do
      let (tail, rest) ← number_tail has_e r
      pure (x :: tail, rest)
    else if !has_e && (x = 69 || x = 101) then do
      let (tail, rest) ← number_tail true r
      pure (x :: tail, rest)
    else pure ([], x :: r)

/-- The loop of `parse_number`, behind the characters `seen`; `n` more are accepted. -/
def number_loop : Nat → Nat → Bytes → Bytes → JsonRun (Num × Bytes)
  | 0, _, _, _ => throw .NUMBER_TOO_LONG
  | _, _, _, [] => Guarded.fault .behind
  | n + 1, value, seen, x :: r =>
    if is_digit x then number_loop n ((value * 10 + (x.toNat - 48)) % 2 ^ 64) (seen ++ [x]) r
    else if x = 46 || x = 45 || x = 43 || x = 101 || x = 69 then do
      let (tail, rest) ← number_tail (x = 69 || x = 101) r
      Guarded.guard ((seen ++ x :: tail).length < 2 ^ 31) .overflow
      match rest with
      | [] => Guarded.fault .behind
      | y :: _ =>
        if is_number_end y then
          -- one more for the terminating zero of the copy
          Guarded.guard ((seen ++ x :: tail).length + 1 < 2 ^ 31) .overflow
          pure (.text (seen ++ x :: tail), rest)
        else throw .INVALID_CHAR
    else if is_number_end x then pure (.integer value, x :: r)
    else throw .INVALID_CHAR

/-- `parse_number`, from the first character of the number on. -/
def parse_number (c : Bytes) : JsonRun (Num × Bytes) := number_loop 21 0 [] c

def number_token (key : Nat) : Num → JsonToken
  | .integer value =>
    if value < 2 ^ 28 then ⟨leaf_len .T_INTEGER value, key, false, none⟩
    else
      let b := optimize_len (long_to_bytes value)
      ⟨leaf_len .T_BYTES b.length, key, true, some b⟩
  | .text s => ⟨leaf_len .T_STRING s.length, key, true, some s⟩

/-! ## Strings -/

def escapes : Bytes → Nat
  | 92 :: _ :: r => escapes r + 1
  | _ :: r => escapes r
  | [] => 0

/-- The copy of a string without the backslashes that escape. -/
def unescape : Bytes → Bytes
  | 92 :: y :: r => y :: unescape r
  | x :: r => x :: unescape r
  | [] => []

/-- The backslashes that `parse_string` counts up to the quote `q`, or up to the end; `escaped`
says whether the first character is behind a backslash. -/
def escape_count (q : UInt8) : Bool → Bytes → Nat
  | _, [] => 0
  | true, _ :: r => escape_count q false r
  | false, x :: r =>
    if x = 0 || x = q then 0
    else if x = 92 then escape_count q true r + 1
    else escape_count q false r

/-- The loop of `parse_string`: the characters between the quotes. -/
def string_scan (q : UInt8) (c : Bytes) : JsonRun (Bytes × Bytes) := do
  Guarded.guard (escape_count q false c < 2 ^ 31) .overflow
  scan q .END_OF_STRING c

/-- A string of six characters that starts with `\u` is a single byte. -/
def is_unicode_escape (raw : Bytes) : Bool := raw.length = 6 && raw.take 2 = [92, 117]

def unicode_byte (raw : Bytes) : UInt8 := hexchar_to_int (raw.getD 4 0) <<< 4 ||| hexchar_to_int (raw.getD 5 0)

def string_token (key : Nat) (raw : Bytes) : JsonToken :=
  if is_unicode_escape raw then ⟨1, key, true, some [unicode_byte raw]⟩
  else
    let l := raw.length - escapes raw
    ⟨leaf_len .T_STRING l, key, escapes raw ≠ 0, some (if escapes raw ≠ 0 then unescape raw else raw)⟩

/-! ## Values -/

/-- A number of tokens as an `int`. -/
def int_of (n : Nat) : Int := ((n + 2 ^ 31) % 2 ^ 32 : Nat) - 2 ^ 31

def add_child (parent : Int) (result : List JsonToken) : List JsonToken :=
  if 0 ≤ parent then result.modify parent.toNat fun t => { t with len := (t.len + 1) % 2 ^ 32 } else result

/-- `parsed_next_item`, with the content that is filled in afterwards. -/
def parsed_next_item (jp : json_ctx_t) (t : JsonToken) (parent : Int) : json_ctx_t :=
  { jp with result := add_child parent jp.result ++ [t] }

/-- The loop over the properties of the object at `p_index`; `value` parses a value. -/
def parse_members (value : json_ctx_t → Int → Nat → JsonRun json_ctx_t) (p_index : Int) :
    Nat → json_ctx_t → JsonRun json_ctx_t
  | 0, _ => Guarded.fault .rounds
  | fuel + 1, jp => do
    let (x, c) ← next_char jp.c
    if x = 34 then
      let (key, c) ← parse_key c
      let jp ← value { jp with c } p_index key
      let (x, c) ← next_char jp.c
      if x = 44 then parse_members value p_index fuel { jp with c }
      else if x = 125 then pure { jp with c }
      else throw .INVALID_CHAR
    else if x = 125 then pure { jp with c }
    else throw .INVALID_CHAR

/-- The key of the next element of the array at `p_index`. With a negative index it is read
outside of the tokens; here it is zero then. -/
def element_key (result : List JsonToken) (p_index : Int) : Nat :=
  if 0 ≤ p_index then ((result[p_index.toNat]?.map Token.len).getD 0 % 2 ^ 24) % 2 ^ 16 else 0

def parse_elements (value : json_ctx_t → Int → Nat → JsonRun json_ctx_t) (p_index : Int) :
    Nat → json_ctx_t → JsonRun json_ctx_t
  | 0, _ => Guarded.fault .rounds
  | fuel + 1, jp => do
    let jp ← value jp p_index (element_key jp.result p_index)
    let (x, c) ← next_char jp.c
    if x = 44 then parse_elements value p_index fuel { jp with c }
    else if x = 93 then pure { jp with c }
    else throw .INVALID_CHAR

/-- A keyword of which the first letter was read. -/
def parse_keyword (jp : json_ctx_t) (lit : Bytes) (t : JsonToken) (parent : Int) :
    JsonRun json_ctx_t := do
  if ← strncmp_eq jp.c lit then pure { parsed_next_item jp t parent with c := jp.c.drop lit.length }
  else throw .INVALID_CHAR

/-- `parse_object`, with the depth that is left. -/
def parse_object : Nat → json_ctx_t → Int → Nat → JsonRun json_ctx_t
  | 0, _, _, _ => throw .MAX_DEPTH
  | left + 1, jp, parent, key => do
    let p_index := int_of jp.result.length
    let (x, c) ← next_char jp.c
    let jp := { jp with c }
    if x = 0 then throw .END_OF_STRING
    else if x = 123 then
      let jp := parsed_next_item jp ⟨node_len .T_OBJECT 0, key, false, some (x :: c)⟩ parent
      parse_members (parse_object left) p_index (c.length + 1) jp
    else if x = 91 then
      let jp := parsed_next_item jp ⟨node_len .T_ARRAY 0, key, false, some (x :: c)⟩ parent
      let (y, c) ← next_char c
      if y = 93 then pure { jp with c }
      else parse_elements (parse_object left) p_index (c.length + 1) { jp with c := y :: c }
    else if x = 34 || x = 39 then
      let (raw, c) ← string_scan x c
      pure { parsed_next_item jp (string_token key raw) parent with c }
    else if x = 116 then parse_keyword jp [114, 117, 101] ⟨leaf_len .T_BOOLEAN 1, key, false, none⟩ parent
    else if x = 102 then parse_keyword jp [97, 108, 115, 101] ⟨leaf_len .T_BOOLEAN 0, key, false, none⟩ parent
    else if x = 110 then parse_keyword jp [117, 108, 108] ⟨leaf_len .T_NULL 0, key, false, none⟩ parent
    else if is_digit x || x = 43 || x = 45 then
      let (num, c) ← parse_number (x :: c)
      pure { parsed_next_item jp (number_token key num) parent with c }
    else throw .INVALID_CHAR

/-- `parse_json` on the text up to its first zero: the tokens, if it is accepted. What
follows the first value is not read. -/
def parse_json (js : Bytes) : JsonRun (List JsonToken) := do
  let jp ← parse_object (DATA_DEPTH_MAX + 1) ⟨c_str js ++ [0], []⟩ (-1) 0
  pure jp.result

end In3
