import In3.Core.Data
/-!
# The token array (`core/util/data.c`)

A parsed document is an array of tokens in preorder: a container is followed by its
children. The upper four bits of `len` are the type, the others the length. Walking
the array, a container is skipped by adding up the sizes of its children.

An item is the rest of the array from its token on. Reading a token behind the array
has no result (`none`). `layout` is the array that stands for a tree of `Tok`.
-/
open Lib

namespace In3

/-- `d_token_t`, with its data in `δ`. Of `state` only `TOKEN_STATE_CONVERTED` is kept. -/
structure Token (δ : Type) where
  len : Nat
  key : Nat
  converted : Bool
  data : δ
  deriving DecidableEq, Repr

/-- A token of the JSON parser, with its data as bytes. -/
abbrev JsonToken := Token (Option Bytes)

def d_type_t.code : d_type_t → Nat
  | .T_BYTES => 0
  | .T_STRING => 1
  | .T_ARRAY => 2
  | .T_OBJECT => 3
  | .T_BOOLEAN => 4
  | .T_INTEGER => 5
  | .T_NULL => 6

section
variable {δ : Type}

/-- The type of a token, which may be no value of `d_type_t`. -/
def Token.type (t : Token δ) : Nat := t.len / 2 ^ 28

/-- `d_len`. -/
def Token.size (t : Token δ) : Nat := t.len % 2 ^ 28

/-- The type is `T_ARRAY` or `T_OBJECT`. -/
def Token.isContainer (t : Token δ) : Bool := t.type = 2 ∨ t.type = 3

/-- The loop of `d_token_size` over `n` children; `c` tokens are counted. -/
def children_size (size : List (Token δ) → Option Nat) (item : List (Token δ)) : Nat → Nat → Option Nat
  | 0, c => some c
  | n + 1, c => do
    let s ← size (item.drop c)
    children_size size item n (c + s)

/-- `d_token_size` with a bound on the depth. -/
def token_size : Nat → List (Token δ) → Option Nat
  | 0, _ => none
  | _, [] => none
  | fuel + 1, t :: ts =>
    if t.isContainer then children_size (token_size fuel) (t :: ts) t.size 1 else some 1

/-- `d_token_size`. A child lies behind its parent, so the depth is less than the length. -/
def d_token_size (item : List (Token δ)) : Option Nat := token_size item.length item

def d_next (item : List (Token δ)) : Option (List (Token δ)) := (d_token_size item).map fun c => item.drop c

/-- The loop of `d_get_at`: `d_next`, `n` times. -/
def d_nexts : Nat → List (Token δ) → Option (List (Token δ))
  | 0, item => some item
  | n + 1, item => (d_next item).bind (d_nexts n)

/-- `d_get_at` on the array; `some none` is a `NULL` pointer. -/
def token_at (item : List (Token δ)) (index : Nat) : Option (Option (List (Token δ))) :=
  match item with
  | [] => none
  | t :: ts =>
    if t.type ≠ 2 then some none
    else if index < t.size then (d_nexts index ts).map some
    else (d_nexts t.size ts).map fun _ => none

end

/-! ## The array of a tree -/

/-- The `len` of a token that is no container. -/
def leaf_len (type : d_type_t) (l : Nat) : Nat := (type.code * 2 ^ 28 ||| l) % 2 ^ 32

/-- The `len` of a container, which counted its children. -/
def node_len (type : d_type_t) (n : Nat) : Nat := (type.code * 2 ^ 28 + n) % 2 ^ 32

mutual

/-- The tokens of a tree with the key `k`, as `parse_json` makes them. -/
def layout (k : Nat) : Tok → List JsonToken
  | .bytes d => [⟨leaf_len .T_BYTES (d.getD []).length, k, true, d⟩]
  | .string s converted => [⟨leaf_len .T_STRING s.length, k, converted, some s⟩]
  | .array text items => ⟨node_len .T_ARRAY items.length, k, false, some text⟩ :: layout_items 0 items
  | .object text props => ⟨node_len .T_OBJECT props.length, k, false, some text⟩ :: layout_props props
  | .boolean v => [⟨leaf_len .T_BOOLEAN v.toNat, k, false, none⟩]
  | .integer v => [⟨leaf_len .T_INTEGER v, k, false, none⟩]
  | .null => [⟨leaf_len .T_NULL 0, k, false, none⟩]

/-- The elements of an array from index `i` on. -/
def layout_items (i : Nat) : List Tok → List JsonToken
  | [] => []
  | t :: ts => layout (i % 2 ^ 16) t ++ layout_items (i + 1) ts

def layout_props : List (Nat × Tok) → List JsonToken
  | [] => []
  | (k, t) :: ps => layout k t ++ layout_props ps

end

end In3
