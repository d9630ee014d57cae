import In3.Core.Utils
import In3.Lib.LittleEndian
/-!
# Hex text of bitcoin fields (`btc.c`, `btc_serialize.c`)

A text is the bytes in front of its terminator; `NULL` is read as the empty text. `hexchar_to_int` gives 255 for a
character that is no digit. In the upper half of a byte this exceeds every byte. In the lower half it makes the byte 255,
whatever the digit before it. A test for an odd length tests `sl % 1`, which is always zero.
-/
open Lib List

namespace In3.Btc

/-- The characters of a text in pairs, without the last one of an odd text. -/
def pairs : Bytes → List (UInt8 × UInt8)
  | hi :: lo :: hex => (hi, lo) :: pairs hex
  | _ => []

/-- A pair of characters as an `int`. -/
def hex_value (p : UInt8 × UInt8) : Nat := (hexchar_to_int p.1).toNat <<< 4 ||| (hexchar_to_int p.2).toNat

/-- The pairs that a text is compared with: its length is cut to 32 bits. -/
def compared (hex : Bytes) : List (UInt8 × UInt8) := (pairs hex).take (hex.length % 2 ^ 32 / 2)

def equals_hex (data hex : Bytes) : Bool :=
  let sl := hex.length % 2 ^ 32
  if sl / 2 ≠ data.length ∨ sl % 1 ≠ 0 then false
  else (data.zip (compared hex)).all fun p => p.1.toNat = hex_value p.2

def equals_hex_rev (data hex : Bytes) : Bool :=
  let sl := hex.length % 2 ^ 32
  if sl / 2 ≠ data.length ∨ sl % 1 ≠ 0 then false
  else (data.reverse.zip (compared hex)).all fun p => p.1.toNat = hex_value p.2

/-- The `l` bytes that `rev_hex` writes. A text of 2 GB has a negative length, and zeros are written in front of `dst`. -/
def rev_hex (hex : Bytes) (l : Nat) : Option Bytes :=
  let out_len := (toInt32 hex.length + 1) / 2
  if out_len < 0 then none
  else
    let out_len := min out_len.toNat l
    some ((((pairs (hex ++ [0])).take out_len).map fun p => UInt8.ofNat (hex_value p)).reverse ++ replicate (l - out_len) 0)

/-! ## Spelled bytes -/

def digits_value (p : UInt8 × UInt8) : Nat := 16 * (hexchar_to_int p.1).toNat + (hexchar_to_int p.2).toNat

/-- The text has two characters for each byte, all of them hex digits, and they are the digits of the bytes. -/
def Spells (data hex : Bytes) : Prop :=
  hex.length = 2 * data.length ∧ (∀ c ∈ hex, is_hex_char c = true) ∧ data.map UInt8.toNat = (pairs hex).map digits_value

structure HexExact (hex : Bytes) : Prop where
  equal : ∀ data, equals_hex data hex = true ↔ Spells data hex
  equal_rev : ∀ data, equals_hex_rev data hex = true ↔ Spells data.reverse hex
  reversed : ∀ data, Spells data hex → rev_hex hex data.length = some data.reverse

section
variable {p : UInt8 × UInt8} {data hex : Bytes}

set_option maxRecDepth 5000 in
theorem hexchar_of_not_hex {c : UInt8} (h : is_hex_char c = false) : hexchar_to_int c = 255 := by
  have all : ∀ n : Fin 256, is_hex_char (.ofFin n) = false → hexchar_to_int (.ofFin n) = 255 := by decide
  exact all c.toFin h

theorem hex_value_digits (h2 : is_hex_char p.2 = true) :
    hex_value p = digits_value p := by
  rw [hex_value, shift_or (hexchar_to_int_lt h2), Nat.add_comm]
  rfl

theorem hex_value_low (h1 : is_hex_char p.1 = true) (h2 : is_hex_char p.2 = false) : hex_value p = 255 := by
  have all : ∀ n < 16, n <<< 4 ||| 255 = 255 := by decide
  rw [hex_value, hexchar_of_not_hex h2]
  exact all _ (hexchar_to_int_lt h1)

theorem hex_value_high (h : is_hex_char p.1 = false) : 255 < hex_value p := by
  rw [hex_value, hexchar_of_not_hex h]
  exact lt_of_lt_of_le (by decide) Nat.left_le_or

theorem hex_value_le (h : is_hex_char p.1 = true) : hex_value p ≤ 255 := by
  cases h2 : is_hex_char p.2 with
  | false => exact (hex_value_low h h2).le
  | true =>
    have hhi := hexchar_to_int_lt h
    have hlo := hexchar_to_int_lt h2
    rw [hex_value_digits h2, digits_value]
    omega

theorem length_pairs (hex : Bytes) : (pairs hex).length = hex.length / 2 := by
  fun_induction pairs hex with
  | case1 hi lo hex ih =>
    rw [length_cons, length_cons, length_cons]
    omega
  | case2 hex h =>
    match hex, h with
    | [], _ => rfl
    | [_], _ => simp
    | a :: b :: k, h => exact absurd rfl (h a b k)

/-- The pairs of an even text hold all of its characters, and the terminator is in none of them. -/
theorem pairs_even (h : hex.length % 2 = 0) :
    pairs (hex ++ [0]) = pairs hex ∧ ((∀ c ∈ hex, is_hex_char c = true) ↔
      ∀ p ∈ pairs hex, is_hex_char p.1 = true ∧ is_hex_char p.2 = true) := by
  fun_induction pairs hex with
  | case1 hi lo hex ih =>
    obtain ⟨hpairs, hdigits⟩ := ih (by rw [length_cons, length_cons] at h; omega)
    refine ⟨?_, by simp only [forall_mem_cons, hdigits, and_assoc]⟩
    rw [cons_append, cons_append, pairs, hpairs]
  | case2 hex h' =>
    match hex, h' with
    | [], _ => exact ⟨rfl, by simp⟩
    | a :: b :: k, h' => exact absurd rfl (h' a b k)

theorem length_compared (hex : Bytes) : (compared hex).length = hex.length % 2 ^ 32 / 2 := by
  rw [compared, length_take, length_pairs]
  omega

theorem equals_hex_iff : equals_hex data hex = true ↔ data.map UInt8.toNat = (compared hex).map hex_value := by
  have hall : ∀ (data : Bytes) (ps : List (UInt8 × UInt8)), data.length = ps.length →
      ((data.zip ps).all (fun p => p.1.toNat = hex_value p.2) = true ↔ data.map UInt8.toNat = ps.map hex_value) := by
    intro data
    induction data with
    | nil =>
      intro ps h
      rw [length_eq_zero_iff.1 h.symm]
      simp
    | cons x data ih =>
      rintro (_ | ⟨p, ps⟩) h
      · cases h
      · simpa using fun _ => by simpa using ih ps (Nat.succ_inj.1 h)
  have hlen := length_compared hex
  by_cases heq : data.length = (compared hex).length
  · rw [equals_hex, if_neg (by omega)]
    exact hall data _ heq
  · rw [equals_hex, if_pos (by omega)]
    refine iff_of_false nofun fun h => heq ?_
    simpa using congrArg List.length h

theorem equals_hex_rev_eq (data hex : Bytes) : equals_hex_rev data hex = equals_hex data.reverse hex := by
  simp [equals_hex_rev, equals_hex]

end

/-- The text has a pair that starts with no digit, or it has an even length below 2 GB and no pair ends with a character
that is no digit. -/
def HexRegular (hex : Bytes) : Prop :=
  (∃ p ∈ compared hex, is_hex_char p.1 = false) ∨
    hex.length < 2 ^ 31 ∧ hex.length % 2 = 0 ∧ ∀ p ∈ compared hex, is_hex_char p.2 = true

section
variable {data hex : Bytes}

theorem compared_eq (h : hex.length < 2 ^ 32) : compared hex = pairs hex := by
  rw [compared, Nat.mod_eq_of_lt h, take_of_length_le (length_pairs hex).le]

theorem exact_of_high (h : ∃ p ∈ compared hex, is_hex_char p.1 = false) (data : Bytes) :
    ¬ equals_hex data hex = true ∧ ¬ Spells data hex := by
  obtain ⟨p, hp, hhigh⟩ := h
  constructor
  · intro heq
    have hmem : hex_value p ∈ data.map UInt8.toNat := equals_hex_iff.1 heq ▸ mem_map_of_mem hp
    obtain ⟨x, -, hx⟩ := mem_map.1 hmem
    have hlt := hex_value_high hhigh
    have := x.toNat_lt
    omega
  · rintro ⟨hlen, hdigits, -⟩
    have hpair := ((pairs_even (by omega)).2.1 hdigits p (mem_of_mem_take hp)).1
    rw [hpair] at hhigh
    cases hhigh

theorem map_hex_value (h : ∀ p ∈ pairs hex, is_hex_char p.2 = true) : (pairs hex).map hex_value = (pairs hex).map digits_value :=
  map_congr_left fun p hp => hex_value_digits (h p hp)

theorem equals_hex_spelled (hlen : hex.length < 2 ^ 31) (heven : hex.length % 2 = 0)
    (hdigits : ∀ p ∈ pairs hex, is_hex_char p.1 = true ∧ is_hex_char p.2 = true) (data : Bytes) :
    equals_hex data hex = true ↔ Spells data hex := by
  rw [equals_hex_iff, compared_eq (by omega), map_hex_value fun p hp => (hdigits p hp).2]
  refine ⟨fun h => ⟨?_, (pairs_even heven).2.2 hdigits, h⟩, fun h => h.2.2⟩
  have := congrArg List.length h
  rw [length_map, length_map, length_pairs] at this
  omega

theorem rev_hex_spelled (hlen : hex.length < 2 ^ 31) (h : Spells data hex) : rev_hex hex data.length = some data.reverse := by
  obtain ⟨htwo, hdigits, hvalues⟩ := h
  have heven : hex.length % 2 = 0 := by omega
  obtain ⟨hpairs, hiff⟩ := pairs_even heven
  have hout : (toInt32 hex.length + 1) / 2 = data.length := by
    rw [toInt32_small hlen]
    omega
  have htake : (pairs hex).take data.length = pairs hex := take_of_length_le (by rw [length_pairs]; omega)
  rw [rev_hex, hout]
  simp only [Int.toNat_natCast, Nat.min_self, Nat.sub_self, replicate_zero, append_nil, hpairs, htake]
  rw [if_neg (by omega), ← Function.comp_def, ← map_map, map_hex_value fun p hp => (hiff.1 hdigits p hp).2, ← hvalues, map_map]
  have hback : UInt8.ofNat ∘ UInt8.toNat = id := funext fun x => UInt8.ofNat_toNat
  rw [hback, map_id]

end

/-- For every text: all comparisons with it are exact and it is reversed, if and only if it is regular. -/
theorem hex_exact_iff (hex : Bytes) : HexExact hex ↔ HexRegular hex := by
  by_cases hhigh : ∃ p ∈ compared hex, is_hex_char p.1 = false
  · refine iff_of_true ⟨fun data => ?_, fun data => ?_, fun data hdata => ?_⟩ (.inl hhigh)
    · exact iff_of_false (exact_of_high hhigh data).1 (exact_of_high hhigh data).2
    · rw [equals_hex_rev_eq]
      exact iff_of_false (exact_of_high hhigh _).1 (exact_of_high hhigh _).2
    · exact absurd hdata (exact_of_high hhigh data).2
  · have hhi : ∀ p ∈ compared hex, is_hex_char p.1 = true := by simpa using hhigh
    constructor
    · intro hexact
      have hvalues : ((compared hex).map fun p => UInt8.ofNat (hex_value p)).map UInt8.toNat = (compared hex).map hex_value := by
        rw [map_map]
        refine map_congr_left fun p hp => ?_
        rw [Function.comp_apply, UInt8.toNat_ofNat', Nat.mod_eq_of_lt (by have := hex_value_le (hhi p hp); omega)]
      have hspells := (hexact.equal _).1 (equals_hex_iff.2 hvalues)
      have hreversed := hexact.reversed _ hspells
      obtain ⟨htwo, hdigits, -⟩ := hspells
      rw [length_map, length_compared] at htwo
      refine .inr ⟨?_, by omega, fun p hp => ((pairs_even (by omega)).2.1 hdigits p (mem_of_mem_take hp)).2⟩
      by_contra hlong
      have hneg : (toInt32 hex.length + 1) / 2 < 0 := by
        rw [toInt32]
        omega
      rw [rev_hex, if_pos hneg] at hreversed
      cases hreversed
    · rintro (h | ⟨hlen, heven, hlo⟩)
      · exact absurd h hhigh
      · rw [compared_eq (by omega)] at hhi hlo
        have hdigits : ∀ p ∈ pairs hex, is_hex_char p.1 = true ∧ is_hex_char p.2 = true := fun p hp => ⟨hhi p hp, hlo p hp⟩
        refine ⟨equals_hex_spelled hlen heven hdigits, fun data => ?_, fun data => rev_hex_spelled hlen⟩
        rw [equals_hex_rev_eq]
        exact equals_hex_spelled hlen heven hdigits _

/-- The byte `ff` equals the text `0z`, and the empty byte string a text of one character. -/
theorem hex_accepted_wrongly :
    equals_hex [0xff] [48, 122] = true ∧ ¬ Spells [0xff] [48, 122] ∧ equals_hex [] [48] = true ∧ ¬ Spells [] [48] :=
  ⟨by decide, fun h => absurd (h.2.1 122 (by simp)) (by decide), by decide, fun h => absurd h.1 (by decide)⟩

end In3.Btc
