import In3.Core.Utils
/-!
# Tokens (`core/util/data.c`)

A token is a parsed JSON value. Its `len` holds the type and the length, or for
small numbers the value. The accessors change tokens: the first `d_bytes` turns a
hex string into bytes or, with up to seven digits, into a number, and `d_bytesl`
pads bytes in place. For an accessor `f`, `f_st` gives the token afterwards.

A `bytes_t` is an `Option Bytes`, with `none` for a `NULL` pointer. A token
pointer that is `NULL` behaves like a JSON `null` in every accessor here.
-/
open Lib List

namespace In3

inductive d_type_t where
  | T_BYTES | T_STRING | T_ARRAY | T_OBJECT | T_BOOLEAN | T_INTEGER | T_NULL
  deriving DecidableEq, Repr

/-- A token. A string is `converted` when `TOKEN_STATE_CONVERTED` is set: it is no
longer read as hex. Arrays and objects keep the JSON text they start at. -/
inductive Tok where
  | bytes (data : Option Bytes)
  | string (s : Bytes) (converted : Bool)
  | array (text : Bytes) (items : List Tok)
  | object (text : Bytes) (props : List (Nat × Tok))
  | boolean (v : Bool)
  | integer (v : Nat)
  | null
  deriving Repr

/-- `key`: the 16-bit hash of a property name. -/
def key (name : String) : Nat :=
  name.toList.foldl (fun val c => (val ^^^ (c.toNat ||| val <<< 7)) % 2 ^ 16) 0

def d_type : Tok → d_type_t
  | .bytes _ => .T_BYTES
  | .string _ _ => .T_STRING
  | .array _ _ => .T_ARRAY
  | .object _ _ => .T_OBJECT
  | .boolean _ => .T_BOOLEAN
  | .integer _ => .T_INTEGER
  | .null => .T_NULL

/-- `d_len`: the lower 28 bits of `len`. -/
def d_len : Tok → Nat
  | .bytes d => (d.getD []).length
  | .string s _ => s.length
  | .array _ items => items.length
  | .object _ props => props.length
  | .boolean v => v.toNat
  | .integer v => v % 2 ^ 28
  | .null => 0

/-! ## Properties and elements -/

def d_get : Tok → Nat → Option Tok
  | .object _ props, k => props.lookup k
  | _, _ => none

/-- The property, or the `NULL` pointer read as `null`. -/
def Tok.prop (t : Tok) (k : Nat) : Tok := (d_get t k).getD .null

def d_get_at : Tok → Nat → Option Tok
  | .array _ items, i => items[i]?
  | _, _ => none

/-- What an iterator visits. `d_iter` does not test the type: it takes the length of any token for a number of
children, so that on a string or bytes it runs into the tokens behind. That is not followed here. -/
def d_iter : Tok → Option (List Tok)
  | .array _ items => some items
  | .object _ props => some (props.map Prod.snd)
  | t => if d_len t = 0 then some [] else none

/-- Changing the property that `d_get` finds. -/
def updProp (k : Nat) (f : Tok → Tok) : List (Nat × Tok) → List (Nat × Tok)
  | [] => []
  | (k', v) :: ps => if k' = k then (k', f v) :: ps else (k', v) :: updProp k f ps

def Tok.upd (k : Nat) (f : Tok → Tok) : Tok → Tok
  | .object text props => .object text (updProp k f props)
  | t => t

/-! ## Bytes -/

/-- A string that starts with `0x` and holds only hex digits behind it. -/
def is_hex (s : Bytes) : Bool := s.take 2 = [48, 120] && (s.drop 2).all is_hex_char

def d_is_bytes : Tok → Bool
  | .string s converted => !converted && s.take 2 = [48, 120]
  | .bytes _ => true
  | .integer _ => true
  | _ => false

def d_bytes : Tok → Option Bytes
  | .bytes d => d
  | .string s converted => some (if !converted && is_hex s then hex_to_bytes (s.drop 2) else s)
  | .integer v => some (optimize_len (int_to_bytes (v % 2 ^ 28)))
  | .boolean v => some (optimize_len (int_to_bytes v.toNat))
  | _ => none

def d_bytes_st : Tok → Tok
  | .string s converted =>
    if converted then .string s converted
    else if is_hex s then
      if s.length = 2 then .bytes none
      else if s.length < 10 then .integer (bytes_to_int (hex_to_bytes (s.drop 2)))
      else .bytes (some (hex_to_bytes (s.drop 2)))
    else .string s true
  | t => t

/-- `d_bytesl`: bytes shorter than `len` are padded, longer ones are cut. -/
def d_bytesl (t : Tok) (len : Nat) : Option Bytes :=
  (d_bytes t).map fun b =>
    if b.length < len ∧ 4 < len ∧ d_type (d_bytes_st t) = .T_BYTES then padLeft len b else b.take len

def d_bytesl_st (t : Tok) (len : Nat) : Tok :=
  match d_bytes t with
  | some b =>
    if b.length < len ∧ 4 < len ∧ d_type (d_bytes_st t) = .T_BYTES then .bytes (some (padLeft len b)) else d_bytes_st t
  | none => d_bytes_st t

/-- `d_bytes_to` with a positive `max`: what is written to the buffer. -/
def d_bytes_to (t : Tok) (max : Nat) : Bytes := padLeft max (((d_bytes t).getD []).take max)

/-- `d_create_bytes_vec`: each child as the `bytes_t` that its token is. Neither the token nor the children are
tested for their type, and a child that holds no bytes is not followed. -/
def d_create_bytes_vec (t : Tok) : Option (List Bytes) := do
  let items ← d_iter t
  items.mapM fun x => match d_bytes_st x with
    | .bytes d => some (d.getD [])
    | _ => none

/-! ## Numbers and text -/

def d_intd (t : Tok) (def_val : Nat) : Int :=
  match t with
  | .integer v => (v % 2 ^ 28 : Nat)
  | .boolean v => v.toNat
  | .bytes d => toInt32 (bytes_to_int (d.getD []))
  | .string s converted =>
    if d_is_bytes (.string s converted) then toInt32 (bytes_to_int ((d_bytes (.string s converted)).getD [])) else atoi s
  | _ => toInt32 def_val

def d_int (t : Tok) : Int := d_intd t 0

def d_longd (t : Tok) (def_val : Nat) : Nat :=
  match t with
  | .integer v => v % 2 ^ 28
  | .bytes d => bytes_to_long (d.getD [])
  | .string s converted =>
    if d_is_bytes (.string s converted) then bytes_to_long ((d_bytes (.string s converted)).getD []) else strtoull s
  | _ => def_val

def d_long (t : Tok) : Nat := d_longd t 0

/-- The token after `d_longd` and, for strings, after `d_intd`. -/
def d_long_st (t : Tok) : Tok := if d_is_bytes t then d_bytes_st t else t

/-- `d_string`, up to the end of the C string. -/
def d_string : Tok → Option Bytes
  | .string s _ => some (c_str s)
  | .bytes d => some ([48, 120] ++ bytes_to_hex (d.getD []))
  | .boolean v => some (if v then [116, 114, 117, 101] else [102, 97, 108, 115, 101])
  | .integer v => some (decimal_text (v % 2 ^ 28))
  | .array text _ => some (c_str text)
  | .object text _ => some (c_str text)
  | .null => none

/-- What an iterator visits, with the keys; that of an array element is its index. There is no test of the
type, and what lies behind the token is not followed. -/
def d_keyed : Tok → Option (List (Nat × Tok))
  | .object _ props => some props
  | .array _ items => some (items.zipIdx.map fun p => (p.2 % 2 ^ 16, p.1))
  | t => if d_len t = 0 then some [] else none

/-! ## What a token shows -/

/-- The number that a token shows. -/
def number (t : Tok) : Nat := beNat ((d_bytes t).getD [])

def shown_hash (t : Tok) : Bytes := padLeft 32 ((d_bytes t).getD [])

/-! ## Comparing -/

/-- `d_eq` on converted tokens that hold no other tokens. Two tokens of one type are
only compared further if their lengths agree. -/
def d_eq_flat (a b : Tok) : Bool :=
  match a, b with
  | .bytes x, .integer _ => (x.getD []).length < 5 && d_int a = d_int b
  | .integer _, .bytes y => (y.getD []).length < 5 && d_int a = d_int b
  | .bytes x, .bytes y =>
    (x.getD []).length = (y.getD []).length && ((x.getD []).length = 0 || x.isSome && y.isSome && b_cmp x y)
  | .string s _, .string r _ => s.length = r.length && c_str s = c_str r
  | .boolean v, .boolean w => v = w
  | .integer v, .integer w => v % 2 ^ 28 = w % 2 ^ 28
  | .null, .null => true
  | _, _ => false

mutual

def d_eq : Tok → Tok → Bool
  | .array _ xs, .array _ ys => xs.length = ys.length && d_eq_items xs ys
  | .object _ ps, .object text qs => ps.length = qs.length && d_eq_props ps (.object text qs)
  | a, b => d_eq_flat (d_long_st a) (d_long_st b)

def d_eq_items : List Tok → List Tok → Bool
  | x :: xs, y :: ys => d_eq x y && d_eq_items xs ys
  | _, _ => true

def d_eq_props : List (Nat × Tok) → Tok → Bool
  | (k, x) :: ps, b =>
    (match d_get b k with
    | some y => d_eq x y
    | none => false) && d_eq_props ps b
  | [], _ => true

end

/-! ## Property names (`core/client/keys.h`) -/

def K_ERROR := key "error"
def K_CODE := key "code"
def K_DATA := key "data"
def K_SIGNED_ERR := key "signedError"
def K_SIGNATURES := key "signatures"
def K_BLOCK := key "block"
def K_BLOCK_HASH := key "blockHash"
def K_MSG_HASH := key "msgHash"
def K_R := key "r"
def K_S := key "s"
def K_V := key "v"
def K_ADDRESS := key "address"
def K_KEY := key "key"
def K_VALUE := key "value"
def K_PARAMS := key "params"
def K_PROOF := key "proof"

/-! ## Facts -/

theorem lookup_updProp (k k' : Nat) (f : Tok → Tok) (ps : List (Nat × Tok)) :
    (updProp k f ps).lookup k' = if k' = k then (ps.lookup k').map f else ps.lookup k' := by
  induction ps with
  | nil => simp [updProp]
  | cons p ps ih =>
    obtain ⟨j, v⟩ := p
    by_cases hj : j = k
    · subst hj
      by_cases hk : k' = j
      · simp [updProp, hk]
      · have hb : (k' == j) = false := by simpa using hk
        simp [updProp, hk, lookup_cons, hb]
    · by_cases hk : k' = j
      · subst hk
        simp [updProp, hj]
      · have hb : (k' == j) = false := by simpa using hk
        simp [updProp, hj, lookup_cons, hb, ih]

theorem d_get_upd (t : Tok) (k k' : Nat) (f : Tok → Tok) :
    d_get (t.upd k f) k' = if k' = k then (d_get t k').map f else d_get t k' := by
  cases t with
  | object text props => exact lookup_updProp k k' f props
  | bytes _ | string _ _ | array _ _ | boolean _ | integer _ | null => simp [Tok.upd, d_get]

variable {b s : Bytes} {n : Nat} {t : Tok}

theorem prop_upd {f : Tok → Tok} (hf : f .null = .null) (t : Tok) (k k' : Nat) :
    (t.upd k f).prop k' = if k' = k then f (t.prop k') else t.prop k' := by
  unfold Tok.prop
  rw [d_get_upd]
  split
  · cases d_get t k' with
    | none => exact hf.symm
    | some v => rfl
  · rfl

theorem prop_upds {f : Tok → Tok} (hf : f .null = .null) (ks : List Nat) (hks : ks.Nodup) (t : Tok) (k : Nat) :
    (ks.foldl (fun t k => t.upd k f) t).prop k = if k ∈ ks then f (t.prop k) else t.prop k := by
  induction ks generalizing t with
  | nil => simp
  | cons j ks ih =>
    obtain ⟨hj, hks⟩ := nodup_cons.1 hks
    rw [foldl_cons, ih hks, prop_upd hf]
    by_cases hk : k = j
    · simp [hk, hj]
    · simp [hk]

theorem hex_cases (hx : is_hex s = true) :
    hex_to_bytes (s.drop 2) = [] ∧ d_bytes_st (.string s false) = .bytes none ∨
      hex_to_bytes (s.drop 2) ≠ [] ∧ (hex_to_bytes (s.drop 2)).length ≤ 4 ∧ beNat (hex_to_bytes (s.drop 2)) < 2 ^ 28 ∧
        d_bytes_st (.string s false) = .integer (beNat (hex_to_bytes (s.drop 2))) ∨
      d_bytes_st (.string s false) = .bytes (some (hex_to_bytes (s.drop 2))) := by
  have hall : (s.drop 2).all is_hex_char = true := by
    simp only [is_hex, Bool.and_eq_true] at hx
    exact hx.2
  have h2 : 2 ≤ s.length := by
    simp only [is_hex, Bool.and_eq_true, decide_eq_true_eq] at hx
    have htake := congrArg List.length hx.1
    simp at htake
    omega
  have hlen := length_hex_to_bytes (s.drop 2)
  rw [length_drop] at hlen
  rcases Nat.lt_trichotomy 2 s.length with hgt | heq | hlt
  · by_cases h10 : s.length < 10
    · have hne : hex_to_bytes (s.drop 2) ≠ [] := by
        intro e
        rw [e, length_nil] at hlen
        omega
      have hl4 : (hex_to_bytes (s.drop 2)).length ≤ 4 := by omega
      have hlt := beNat_hex_lt hall (by rw [length_drop]; omega)
      refine .inr (.inl ⟨hne, hl4, hlt, ?_⟩)
      simp [d_bytes_st, hx, h10, bytes_to_int, take_of_length_le hl4, show s.length ≠ 2 by omega]
    · simp [d_bytes_st, hx, h10, show s.length ≠ 2 by omega]
  · refine .inl ⟨?_, by simp [d_bytes_st, hx, ← heq]⟩
    rw [drop_eq_nil_of_le (le_of_eq heq.symm)]
    rfl
  · omega

theorem d_bytes_integer (hb : b ≠ []) (h : beNat b < 2 ^ 28) :
    d_bytes (.integer (beNat b)) = some (stripZeros b) := by
  have hne : int_to_bytes (beNat b) ≠ [] := by
    intro e
    have hlen := congrArg List.length e
    simp [int_to_bytes] at hlen
  have heq : beNat (int_to_bytes (beNat b)) = beNat b := by
    rw [int_to_bytes, beNat_beFix]
    omega
  rw [d_bytes, Nat.mod_eq_of_lt h, optimize_len, stripZeros_congr hne hb heq]

/-- A second `d_bytes` gives the same bytes, except that a hex string of up to
seven digits was made a number and `0x` a `NULL` pointer. -/
theorem d_bytes_again (t : Tok) :
    d_bytes (d_bytes_st t) = d_bytes t ∨ d_bytes t = some [] ∧ d_bytes (d_bytes_st t) = none ∨
      ∃ b, d_bytes t = some b ∧ b ≠ [] ∧ b.length ≤ 4 ∧ d_bytes (d_bytes_st t) = some (stripZeros b) := by
  cases t with
  | bytes d => exact .inl rfl
  | array _ _ => exact .inl rfl
  | object _ _ => exact .inl rfl
  | boolean _ => exact .inl rfl
  | integer _ => exact .inl rfl
  | null => exact .inl rfl
  | string s converted =>
    cases converted with
    | true => exact .inl rfl
    | false =>
      by_cases hx : is_hex s = true
      · have hb : d_bytes (.string s false) = some (hex_to_bytes (s.drop 2)) := by simp [d_bytes, hx]
        rcases hex_cases hx with ⟨hnil, hst⟩ | ⟨hne, hl, hlt, hst⟩ | hst
        · exact .inr (.inl ⟨by rw [hb, hnil], by rw [hst]; rfl⟩)
        · exact .inr (.inr ⟨_, hb, hne, hl, by rw [hst, d_bytes_integer hne hlt]⟩)
        · left
          rw [hst, hb]
          rfl
      · simp [d_bytes_st, hx, d_bytes]

theorem d_longd_hex (hx : is_hex s = true) (def_val : Nat) :
    d_longd (d_bytes_st (.string s false)) def_val = bytes_to_long (hex_to_bytes (s.drop 2)) := by
  rcases hex_cases hx with ⟨hnil, hst⟩ | ⟨-, -, hlt, hst⟩ | hst
  · rw [hst, hnil]
    rfl
  · rw [hst, d_longd, bytes_to_long_eq]
    omega
  · rw [hst]
    rfl

theorem d_bytes_st_text {converted : Bool} (hx : (!converted && is_hex s) = false) :
    d_bytes_st (.string s converted) = .string s true := by
  cases converted with
  | true => rfl
  | false =>
    have hs : is_hex s = false := by simpa using hx
    simp [d_bytes_st, hs]

theorem d_bytesl_cases {r : Bytes} (h : d_bytesl t n = some r) (hlen : r.length = n) :
    ∃ b, d_bytes t = some b ∧ (b.length ≤ n ∧ r = padLeft n b ∨ n < b.length ∧ r = b.take n) := by
  unfold d_bytesl at h
  rw [Option.map_eq_some_iff] at h
  obtain ⟨b, hb, rfl⟩ := h
  refine ⟨b, hb, ?_⟩
  split at hlen
  case isTrue hpad =>
    left
    rw [if_pos hpad]
    exact ⟨le_of_lt hpad.1, rfl⟩
  case isFalse hpad =>
    rw [if_neg hpad]
    rw [length_take] at hlen
    rcases Nat.lt_or_ge n b.length with hlt | hge
    · exact .inr ⟨hlt, rfl⟩
    · left
      have hn : n - b.length = 0 := by omega
      exact ⟨hge, by rw [padLeft, hn, take_of_length_le hge]; rfl⟩

theorem d_bytes_padded (t : Tok) (n : Nat) :
    beNat ((d_bytes (d_bytesl_st t n)).getD []) = beNat ((d_bytes t).getD []) ∧
      ((d_bytes (d_bytesl_st t n)).getD []).length ≤ max n ((d_bytes t).getD []).length ∧
      (max n 5 ≤ ((d_bytes t).getD []).length → d_bytes (d_bytesl_st t n) = d_bytes t) := by
  have again : beNat ((d_bytes (d_bytes_st t)).getD []) = beNat ((d_bytes t).getD []) ∧
      ((d_bytes (d_bytes_st t)).getD []).length ≤ max n ((d_bytes t).getD []).length ∧
      (max n 5 ≤ ((d_bytes t).getD []).length → d_bytes (d_bytes_st t) = d_bytes t) := by
    rcases d_bytes_again t with h | ⟨h, hst⟩ | ⟨b, h, -, hl, hst⟩
    · rw [h]
      exact ⟨rfl, le_max_right _ _, fun _ => rfl⟩
    · simp [h, hst]
    · have hs := length_stripZeros_le b
      simp only [h, hst, Option.getD_some, beNat_stripZeros, true_and]
      exact ⟨by omega, fun h5 => by omega⟩
  unfold d_bytesl_st
  rcases hb : d_bytes t with _ | b
  · rw [hb] at again
    exact again
  · rw [hb] at again
    dsimp only
    split
    case isTrue hpad =>
      simp only [d_bytes, Option.getD_some, beNat_padLeft, length_padLeft (le_of_lt hpad.1), true_and]
      exact ⟨le_max_left _ _, fun h5 => by omega⟩
    case isFalse => exact again

theorem padLeft_of_padded (hn : 5 ≤ n) (h : d_bytes (d_bytesl_st t n) = some b)
    (hb : b.length = n) : padLeft n ((d_bytes t).getD []) = b := by
  obtain ⟨hnum, -, hsame⟩ := d_bytes_padded t n
  rw [h, Option.getD_some] at hnum
  rcases Nat.lt_or_ge n ((d_bytes t).getD []).length with hlt | hge
  · -- longer bytes are left alone, so there are not more than `n`
    have heq := hsame (by omega)
    rw [h] at heq
    rw [← heq, Option.getD_some] at hlt
    omega
  · apply beNat_inj
    · rw [length_padLeft hge, hb]
    · rw [beNat_padLeft, hnum]

theorem padLeft_iff_of_bytesl (h : d_bytesl t n = some b) (hb : b.length = n) :
    padLeft n ((d_bytes t).getD []) = b ↔ ((d_bytes t).getD []).length ≤ n := by
  obtain ⟨c, hc, hcase⟩ := d_bytesl_cases h hb
  rw [hc, Option.getD_some]
  constructor
  · intro hp
    have hlen := congrArg List.length hp
    simp only [padLeft, length_append, length_replicate] at hlen
    omega
  · intro hle
    rcases hcase with ⟨-, hp⟩ | ⟨hgt, -⟩
    · exact hp.symm
    · omega

end In3
