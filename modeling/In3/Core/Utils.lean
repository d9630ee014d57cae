import In3.Lib.Bytes
import Mathlib.Data.List.TakeWhile
/-!
# Numbers and text (`core/util/utils.c`)

The conversions between bytes, hex digits, decimal text and machine integers.
`atoi` and `strtoull` follow the C library on a platform with a 64-bit `long`:
leading white space and a sign are skipped, the digits end at the first other
character, and a value out of range is cut to the largest one.
-/
open Lib List

namespace In3

/-- `(int32_t) n` for an unsigned `n`. -/
def toInt32 (n : Nat) : Int :=
  if n % 2 ^ 32 < 2 ^ 31 then (n % 2 ^ 32 : Nat) else (n % 2 ^ 32 : Nat) - 2 ^ 32

theorem toInt32_small {p : Nat} (h : p < 2 ^ 31) : toInt32 p = p := by
  have hm : p % 2 ^ 32 = p := Nat.mod_eq_of_lt (by omega)
  rw [toInt32, hm, if_pos h]

/-- `(uint32_t) n` for an `int32_t`. -/
def toUInt32 (n : Int) : Nat := (n % 2 ^ 32).toNat

def int_to_bytes (val : Nat) : Bytes := beFix 4 val

def long_to_bytes (val : Nat) : Bytes := beFix 8 val

/-- `bytes_to_int` as it is called: with at most four bytes. -/
def bytes_to_int (b : Bytes) : Nat := beNat (b.take 4)

/-- `bytes_to_long`: the last eight bytes. -/
def bytes_to_long (b : Bytes) : Nat := beNat (b.drop (b.length - 8))

/-- `optimize_len` and `b_optimize_len`. -/
def optimize_len (b : Bytes) : Bytes := stripZeros b

/-! ## Comparing -/

/-- `b_cmp` and `bytes_cmp`. -/
def b_cmp (a b : Option Bytes) : Bool :=
  (a.getD []).length = 0 && (b.getD []).length = 0 || a.isSome && a = b

/-- `memcmp(a, b, n) == 0`. A difference is found even if one side is shorter than
`n` bytes; without one the comparison runs behind its end. -/
def memcmp_eq (a b : Bytes) (n : Nat) : Option Bool :=
  if n ≤ a.length ∧ n ≤ b.length then some (a.take n = b.take n)
  else if (List.zip a b).all (fun p => p.1 = p.2) then none
  else some false

/-! ## Hex digits -/

def hexchar_to_int (c : UInt8) : UInt8 :=
  if 48 ≤ c ∧ c ≤ 57 then c - 48
  else if 97 ≤ c ∧ c ≤ 102 then c - 97 + 10
  else if 65 ≤ c ∧ c ≤ 70 then c - 65 + 10
  else 255

def is_hex_char (c : UInt8) : Bool := 48 ≤ c ∧ c ≤ 57 ∨ 97 ≤ c ∧ c ≤ 102 ∨ 65 ≤ c ∧ c ≤ 70

def hex_pairs : Bytes → Bytes
  | a :: b :: ds => (hexchar_to_int a <<< 4 ||| hexchar_to_int b) :: hex_pairs ds
  | _ => []

/-- `hex_to_bytes` on the digits behind the `0x`, into a buffer that is large
enough. An odd number of digits starts with half a byte. -/
def hex_to_bytes (ds : Bytes) : Bytes :=
  if ds.length % 2 = 1 then hexchar_to_int (ds.headD 0) :: hex_pairs ds.tail else hex_pairs ds

def hex_char (n : UInt8) : UInt8 := if n < 10 then 48 + n else 87 + n

def bytes_to_hex (b : Bytes) : Bytes := b.flatMap fun x : UInt8 => [hex_char (x >>> 4), hex_char (x &&& 0xF)]

/-! ## Decimal text -/

def is_space (c : UInt8) : Bool := c = 32 ∨ 9 ≤ c ∧ c ≤ 13

def is_digit (c : UInt8) : Bool := 48 ≤ c ∧ c ≤ 57

def digits (s : Bytes) : Nat := (s.takeWhile is_digit).foldl (fun n d => 10 * n + (d.toNat - 48)) 0

/-- The sign and the digits at the start of a text. -/
def decimal (s : Bytes) : Bool × Nat :=
  match s.dropWhile is_space with
  | 45 :: r => (true, digits r)
  | 43 :: r => (false, digits r)
  | r => (false, digits r)

/-- `strtoull(s, NULL, 10)`. -/
def strtoull (s : Bytes) : Nat :=
  let (neg, n) := decimal s
  if 2 ^ 64 ≤ n then 2 ^ 64 - 1 else if neg then (2 ^ 64 - n) % 2 ^ 64 else n

/-- `atoi(s)`: a `long`, cut to an `int`. -/
def atoi (s : Bytes) : Int :=
  let (neg, n) := decimal s
  if neg then toInt32 (2 ^ 64 - min n (2 ^ 63)) else toInt32 (min n (2 ^ 63 - 1))

/-- The text of a number, as `%d` prints it. -/
def decimal_text (n : Nat) : Bytes := (Nat.toDigits 10 n).map fun c => UInt8.ofNat c.toNat

/-- The text of a number, as `0x%x` prints it. -/
def hex_text (n : Nat) : Bytes := [48, 120] ++ (Nat.toDigits 16 n).map fun c => UInt8.ofNat c.toNat

/-! ## Text -/

/-- The bytes of a text in the source. -/
def ascii (s : String) : Bytes := s.toList.map fun c => UInt8.ofNat c.toNat

/-- `str_find`: the text from the first place on where the needle starts. -/
def str_find (needle : Bytes) : Bytes → Option Bytes
  | [] => none
  | x :: rest => if needle.isPrefixOf (x :: rest) then some (x :: rest) else str_find needle rest

def str_replace_pos (orig : Bytes) (pos len : Nat) (rep : Bytes) : Option Bytes :=
  if orig.length < pos then none else some (orig.take pos ++ rep ++ orig.drop (pos + len))

/-- A C string ends at the first zero byte. -/
def c_str (s : Bytes) : Bytes := s.takeWhile (· ≠ 0)

/-! ## Facts -/

theorem c_str_eq_iff (s : Bytes) : c_str s = s ↔ 0 ∉ s := by
  unfold c_str
  rw [takeWhile_eq_self_iff]
  constructor
  · intro h h0
    simpa using h 0 h0
  · intro h x hx
    have hne : x ≠ 0 := fun e => h (e ▸ hx)
    simpa using hne

variable {a b : Bytes} {n : Nat}

theorem b_cmp_iff : b_cmp (some a) (some b) = true ↔ b = a := by
  have hnil : (a = [] ∧ b = []) → b = a := fun h => by rw [h.1, h.2]
  simp only [b_cmp, length_eq_zero_iff, Option.isSome_some, Bool.true_and, Bool.or_eq_true,
    Bool.and_eq_true, decide_eq_true_eq, Option.some_inj]
  exact ⟨fun h => h.elim hnil Eq.symm, fun h => .inr h.symm⟩

theorem b_cmp_some {a : Option Bytes} (hb : b ≠ []) (h : b_cmp a (some b) = true) : a = some b := by
  cases a with
  | none =>
    have h0 : b.length ≠ 0 := fun e => hb (length_eq_zero_iff.1 e)
    simp [b_cmp, h0] at h
  | some a => rw [b_cmp_iff.1 h]

theorem memcmp_eq_true (h : memcmp_eq a b n = some true) :
    n ≤ a.length ∧ n ≤ b.length ∧ a.take n = b.take n := by
  unfold memcmp_eq at h
  split at h
  case isTrue hlen => exact ⟨hlen.1, hlen.2, of_decide_eq_true (Option.some.inj h)⟩
  case isFalse =>
    split at h
    · cases h
    · exact absurd (Option.some.inj h) (by decide)

theorem bytes_to_long_eq (b : Bytes) : bytes_to_long b = beNat b % 2 ^ 64 := by
  unfold bytes_to_long
  rcases Nat.lt_or_ge 8 b.length with h | h
  · have hl : (b.drop (b.length - 8)).length = 8 := by simp; omega
    have hlt := beNat_lt (b.drop (b.length - 8))
    rw [hl] at hlt
    conv_rhs => rw [← take_append_drop (b.length - 8) b, beNat_append, hl]
    rw [show (256 : Nat) ^ 8 = 2 ^ 64 by norm_num] at hlt ⊢
    rw [Nat.mul_comm, Nat.mul_add_mod, Nat.mod_eq_of_lt hlt]
  · have hlt := beNat_lt b
    have h8 : (256 : Nat) ^ b.length ≤ 256 ^ 8 := Nat.pow_le_pow_right (by norm_num) h
    rw [show b.length - 8 = 0 by omega, drop_zero, Nat.mod_eq_of_lt]
    calc beNat b < 256 ^ b.length := hlt
      _ ≤ 256 ^ 8 := h8
      _ = 2 ^ 64 := by norm_num

theorem lt_beNat_decimal_text (n : Nat) : n < beNat (decimal_text n) := by
  have hdigit : ∀ d < 10, (UInt8.ofNat (Nat.digitChar d).toNat).toNat = 48 + d := by decide
  induction n using Nat.strong_induction_on with
  | _ n ih =>
    unfold decimal_text at ih ⊢
    rw [Nat.toDigits_eq_if (by norm_num)]
    split
    · have hd := hdigit n (by omega)
      simp only [map_cons, map_nil, beNat_cons, length_nil, beNat_nil]
      omega
    · have hi := ih (n / 10) (by omega)
      rw [map_append, beNat_append]
      simp only [map_cons, map_nil, length_cons, length_nil]
      omega

theorem length_bytes_to_hex (b : Bytes) : (bytes_to_hex b).length = 2 * b.length := by
  induction b with
  | nil => rfl
  | cons x b ih =>
    simp only [bytes_to_hex, flatMap_cons, length_append, length_cons, length_nil] at ih ⊢
    omega

theorem length_hex_pairs (ds : Bytes) : (hex_pairs ds).length = ds.length / 2 := by
  induction ds using hex_pairs.induct with
  | case1 a b ds ih =>
    simp only [hex_pairs, length_cons]
    omega
  | case2 ds h =>
    rcases ds with _ | ⟨a, _ | ⟨b, ds⟩⟩
    · rfl
    · simp [hex_pairs]
    · exact absurd rfl (h a b ds)

theorem length_hex_to_bytes (ds : Bytes) : (hex_to_bytes ds).length = (ds.length + 1) / 2 := by
  unfold hex_to_bytes
  split
  · simp only [length_cons, length_hex_pairs, length_tail]
    omega
  · rw [length_hex_pairs]
    omega

set_option maxRecDepth 5000 in
theorem hexchar_to_int_lt {c : UInt8} (h : is_hex_char c = true) : (hexchar_to_int c).toNat < 16 := by
  have all : ∀ n : Fin 256, is_hex_char (.ofFin n) = true → (hexchar_to_int (.ofFin n)).toNat < 16 := by decide
  exact all c.toFin h

theorem beNat_hex_lt {ds : Bytes} (hx : ds.all is_hex_char = true) (hl : ds.length ≤ 7) :
    beNat (hex_to_bytes ds) < 2 ^ 28 := by
  have hlen := length_hex_to_bytes ds
  by_cases h7 : ds.length = 7
  · -- seven digits: half a byte and three bytes
    obtain ⟨c, cs, rfl⟩ : ∃ c cs, ds = c :: cs := by
      cases ds with
      | nil => simp at h7
      | cons c cs => exact ⟨c, cs, rfl⟩
    have hc : (hexchar_to_int c).toNat < 16 := hexchar_to_int_lt (by simp at hx; exact hx.1)
    have hp : (hex_pairs cs).length = 3 := by
      rw [length_hex_pairs]
      simp at h7
      omega
    have hlt := beNat_lt (hex_pairs cs)
    simp only [hex_to_bytes, h7, headD_cons, tail_cons, if_true, beNat_cons, hp] at hlt ⊢
    omega
  · have hlt := beNat_lt (hex_to_bytes ds)
    have hp : (256 : Nat) ^ (hex_to_bytes ds).length ≤ 256 ^ 3 := Nat.pow_le_pow_right (by norm_num) (by omega)
    omega

/-! ## Errors (`core/util/error.h`)

A request that fails has a message and a code. A request that has to wait for another one has a code
of its own and no message. -/

def IN3_OK : Int := 0
def IN3_EUNKNOWN : Int := -1
def IN3_EINVAL : Int := -4
def IN3_ECONFIG : Int := -6
def IN3_ERPC : Int := -11
def IN3_WAITING : Int := -16
def IN3_EIGNORE : Int := -17

/-- `req_set_error`, or a code that is returned as it is. -/
inductive ReqError where
  | set_error (msg : String) (code : Int)
  | ret (code : Int)
  deriving DecidableEq, Repr

end In3
