import In3.Evm.ShiftTheorems
import In3.Lib.Decimal
import In3.Lib.Region
/-!
# Packed amounts (`pay/zksync/zk_message.c`)

An amount is a decimal string. `pack` cuts zeros off its end until the rest is a mantissa, and writes
the mantissa and the number of zeros into one field: the mantissa into its high bits and the exponent
into its low ones. The place of the highest bit is compared with the number of bits, so an exponent may
have one bit too many. That bit falls into the mantissa, and the exponent that is read back is smaller by 32.
-/
open Lib List

namespace In3.Zksync
open Evm (memcmp big_shift_left memcmp_eq_compare big_shift_left_eq)

/-! ## Packing -/

abbrev PackRun := Guarded Access String

/-- `"34359738368"`. -/
def MAX_MANTISSA_35 : Bytes := [51, 52, 51, 53, 57, 55, 51, 56, 51, 54, 56]

/-- `"2048"`. -/
def MAX_MANTISSA_11 : Bytes := [50, 48, 52, 56]

/-- `shift_left`: the loops are those of `big_shift_left` on eight bytes. -/
def shift_left (a : Bytes) (bits : Nat) : Bytes := big_shift_left a bits

def bitlen_loop (val : Nat) : Nat → Nat
  | 0 => 0
  | i + 1 => if val.testBit i then i else bitlen_loop val i

/-- `bitlen`: the place of the highest bit. -/
def bitlen (val : Nat) : Nat := bitlen_loop val 64

def ULLONG_MAX : Nat := 2 ^ 64 - 1

def strtoull (dec : Bytes) : Nat := min (decNat dec) ULLONG_MAX

/-- The loop of `pack`: how many of the first `i` digits are the mantissa. -/
def content_length (dec max_matissa : Bytes) : Nat → PackRun Nat
  | 0 => Guarded.fault (.write (-1) dec.length)
  | i + 1 =>
    if i + 1 < max_matissa.length ∨ i + 1 = max_matissa.length ∧ memcmp (dec.take max_matissa.length) max_matissa < 0 then
      return i + 1
    else if dec.getD i 0 ≠ 48 then throw "The value (mantissa) can not be packed"
    else content_length dec max_matissa i

/-- `pack`: what is written to `dst`. -/
def pack (dec : Bytes) (mantissa_len exp_len : Nat) : PackRun Bytes :=
  let dec := dec.dropWhile (· = 48)
  let l := dec.length
  let total := (exp_len + mantissa_len) / 8
  let max_matissa := if mantissa_len = 35 then MAX_MANTISSA_35 else MAX_MANTISSA_11
  if l = 0 then return replicate total 0
  else do
    let cl ← content_length dec max_matissa l
    let c := strtoull (dec.take cl)
    if c = ULLONG_MAX ∨ mantissa_len < bitlen c then throw "The value (mantissa) can not be packed"
    if exp_len < bitlen (l - cl) then throw "The value (exp) can not be packed"
    return zipWith (· ||| ·) ((shift_left (long_to_bytes c) (64 - mantissa_len)).take total)
      ((shift_left (long_to_bytes (l - cl)) (64 - exp_len - mantissa_len)).take total)

/-- The number that the bits of a field are read as. -/
def unpacked (b : Bytes) : Nat := beNat b / 2 ^ 5 * 10 ^ (beNat b % 2 ^ 5)

/-! ## The mantissa -/

/-- The number behind the largest mantissa. -/
structure Limit (max_matissa : Bytes) (m : Nat) : Prop where
  digits : ∀ x ∈ max_matissa, IsDigit x
  value : decNat max_matissa = 2 ^ m
  pos : 1 < max_matissa.length
  /-- the first digit is no zero -/
  full : 10 ^ (max_matissa.length - 1) ≤ 2 ^ m

variable {b dec out : Bytes} {c e m : Nat}

theorem limit_of_format (h : m = 35 ∨ m = 11) :
    Limit (if m = 35 then MAX_MANTISSA_35 else MAX_MANTISSA_11) m := by
  rcases h with rfl | rfl
  · exact ⟨by decide +kernel, by decide +kernel, by decide +kernel, by decide +kernel⟩
  · exact ⟨by decide +kernel, by decide +kernel, by decide +kernel, by decide +kernel⟩

section Mantissa
variable {dec max_matissa : Bytes} {m : Nat} (hlimit : Limit max_matissa m) (hdigits : ∀ x ∈ dec, IsDigit x)
  (hfirst : ∀ x rest, dec = x :: rest → x ≠ 48)
include hlimit hdigits hfirst

theorem fits_iff {k : Nat} (hpos : 0 < k) (hk : k ≤ dec.length) :
    (k < max_matissa.length ∨ k = max_matissa.length ∧ memcmp (dec.take max_matissa.length) max_matissa < 0) ↔
      decNat (dec.take k) < 2 ^ m := by
  have hpart : ∀ x ∈ dec.take k, IsDigit x := fun x hx => hdigits x (mem_of_mem_take hx)
  have hlen : (dec.take k).length = k := by rw [length_take]; omega
  have hmax := decNat_lt hlimit.digits
  have hfull := hlimit.full
  rw [hlimit.value] at hmax
  rcases Nat.lt_trichotomy k max_matissa.length with hlt | heq | hgt
  · have hsmall := decNat_lt hpart
    rw [hlen] at hsmall
    have hpow : 10 ^ k ≤ 10 ^ (max_matissa.length - 1) := Nat.pow_le_pow_right (by norm_num) (by omega)
    exact iff_of_true (.inl hlt) (by omega)
  · have hsame : (dec.take k).length = max_matissa.length := hlen.trans heq
    rw [← hlimit.value, decNat_lt_iff hsame hpart hlimit.digits, ← heq, (memcmp_eq_compare hsame).1]
    constructor
    · rintro (h | ⟨-, h⟩)
      · omega
      · exact h
    · exact fun h => .inr ⟨rfl, h⟩
  · obtain _ | ⟨x, rest⟩ := dec
    · rw [length_nil] at hk
      omega
    · obtain _ | k := k
      · omega
      · have hle := le_decNat_cons (b := rest.take k) (hdigits x mem_cons_self) (hfirst x rest rfl)
        rw [take_succ_cons, length_cons] at hlen
        have hpow : 10 ^ max_matissa.length ≤ 10 ^ (rest.take k).length := Nat.pow_le_pow_right (by norm_num) (by omega)
        rw [take_succ_cons]
        exact iff_of_false (by omega) (by omega)

theorem content_length_ok {i cl : Nat} (hi : i ≤ dec.length) (h : Guarded.ok (content_length dec max_matissa i) cl) :
    0 < cl ∧ cl ≤ i ∧ decNat (dec.take cl) < 2 ^ m ∧ decNat (dec.take i) = decNat (dec.take cl) * 10 ^ (i - cl) ∧
      (cl < i → 2 ^ m ≤ decNat (dec.take (cl + 1))) := by
  induction i with
  | zero => exact absurd h Guarded.ok_fault
  | succ i ih =>
    unfold content_length at h
    split at h
    · next hfit =>
      obtain rfl := Guarded.ok_pure.1 h
      rw [fits_iff hlimit hdigits hfirst (by omega) hi] at hfit
      exact ⟨by omega, le_refl _, hfit, by simp, by omega⟩
    · next hfit =>
      rw [fits_iff hlimit hdigits hfirst (by omega) hi] at hfit
      split at h
      · exact absurd h Guarded.ok_throw
      · next hzero =>
        obtain ⟨hpos, hle, hlt, hval, hnext⟩ := ih (by omega) h
        have hget : dec[i] = 48 := by simpa [show i < dec.length by omega] using hzero
        have hsucc : decNat (dec.take (i + 1)) = decNat (dec.take i) * 10 := by
          rw [take_succ_eq_append_getElem (by omega), decNat_append, hget]
          rfl
        refine ⟨hpos, by omega, hlt, ?_, ?_⟩
        · rw [hsucc, hval, Nat.succ_sub hle, pow_succ, Nat.mul_assoc]
        · intro _
          rcases Nat.lt_or_eq_of_le hle with hlt' | rfl
          · exact hnext hlt'
          · omega

end Mantissa

/-! ## The field -/

theorem beNat_shifted (x s total : Nat) (hs : s / 8 ≤ 8) (hx : x * 2 ^ s < 2 ^ 64) (ht : total ≤ 8) :
    ((shift_left (long_to_bytes x) s).take total).length = total ∧
      beNat ((shift_left (long_to_bytes x) s).take total) = x * 2 ^ s / 2 ^ (64 - 8 * total) := by
  have hlen : (long_to_bytes x).length = 8 := length_beFix 8 x
  have hfits : s / 8 ≤ (long_to_bytes x).length := by rw [hlen]; exact hs
  obtain ⟨hl, hv⟩ := big_shift_left_eq hfits
  have hpow : (256 : Nat) ^ 8 = 2 ^ 64 := by norm_num
  have hsmall : x < 256 ^ 8 := by
    have hle := Nat.le_mul_of_pos_right x (Nat.two_pow_pos s)
    omega
  rw [hlen, long_to_bytes, beNat_beFix, Nat.mod_eq_of_lt hsmall, hpow, Nat.mod_eq_of_lt hx] at hv
  rw [hlen] at hl
  have hdrop : ((shift_left (long_to_bytes x) s).drop total).length = 8 - total := by
    rw [length_drop, shift_left, hl]
  have hsplit := beNat_append ((shift_left (long_to_bytes x) s).take total) ((shift_left (long_to_bytes x) s).drop total)
  have hlt := beNat_lt ((shift_left (long_to_bytes x) s).drop total)
  rw [take_append_drop, hdrop, pow_256_eq, show 8 * (8 - total) = 64 - 8 * total by omega] at hsplit
  rw [hdrop, pow_256_eq, show 8 * (8 - total) = 64 - 8 * total by omega] at hlt
  refine ⟨by rw [length_take, shift_left]; omega, ?_⟩
  rw [← hv, ← long_to_bytes, ← shift_left, hsplit, Nat.mul_comm, Nat.mul_add_div (Nat.two_pow_pos _), Nat.div_eq_of_lt hlt,
    Nat.add_zero]

theorem beNat_field {total : Nat} (htotal : 8 * total = m + 5) (hm : m + 5 ≤ 64) (hc : c < 2 ^ m) (he : e < 2 ^ (m + 5)) :
    beNat (zipWith (· ||| ·) ((shift_left (long_to_bytes c) (64 - m)).take total)
      ((shift_left (long_to_bytes e) (64 - 5 - m)).take total)) = c * 2 ^ 5 ||| e := by
  have hpm : 2 ^ m * 2 ^ (64 - m) = 2 ^ 64 := by rw [← pow_add]; congr 1; omega
  have hpe : 2 ^ (m + 5) * 2 ^ (64 - 5 - m) = 2 ^ 64 := by rw [← pow_add]; congr 1; omega
  obtain ⟨hlc, hvc⟩ := beNat_shifted c (64 - m) total (by omega)
    (hpm ▸ Nat.mul_lt_mul_of_pos_right hc (Nat.two_pow_pos _)) (by omega)
  obtain ⟨hle, hve⟩ := beNat_shifted e (64 - 5 - m) total (by omega)
    (hpe ▸ Nat.mul_lt_mul_of_pos_right he (Nat.two_pow_pos _)) (by omega)
  rw [beNat_zipWith Nat.testBit_or rfl UInt8.toNat_or (hlc.trans hle.symm), hvc, hve, htotal]
  congr 1
  · rw [show 64 - m = 5 + (64 - (m + 5)) by omega, pow_add, ← Nat.mul_assoc, Nat.mul_div_cancel _ (Nat.two_pow_pos _)]
  · rw [show 64 - 5 - m = 64 - (m + 5) by omega, Nat.mul_div_cancel _ (Nat.two_pow_pos _)]

theorem le_bitlen_loop {val i n : Nat} (hi : i < n) (h : val.testBit i = true) : i ≤ bitlen_loop val n := by
  induction n with
  | zero => omega
  | succ n ih =>
    unfold bitlen_loop
    split
    · omega
    · next hn =>
      apply ih
      rcases Nat.lt_or_eq_of_le (Nat.lt_succ_iff.1 hi) with hlt | rfl
      · exact hlt
      · exact absurd h hn

theorem lt_of_bitlen_le {k : Nat} (he : e < 2 ^ 64) (h : bitlen e ≤ k) : e < 2 ^ (k + 1) := by
  by_contra hge
  obtain ⟨i, hi, hbit⟩ := Nat.exists_ge_and_testBit_of_ge_two_pow (Nat.le_of_not_lt hge)
  have hi64 : i < 64 := by
    by_contra hle
    have hlt : e < 2 ^ i := Nat.lt_of_lt_of_le he (Nat.pow_le_pow_right (by norm_num) (by omega))
    rw [Nat.testBit_lt_two_pow hlt] at hbit
    cases hbit
  have hplace : i ≤ bitlen e := le_bitlen_loop hi64 hbit
  omega

theorem unpacked_of_lt (hb : beNat b = c * 2 ^ 5 ||| e) (he : e < 2 ^ 5) : unpacked b = c * 10 ^ e := by
  have hsum : beNat b = c * 2 ^ 5 + e := by
    rw [hb, Nat.mul_comm, Nat.two_pow_add_eq_or_of_lt he]
  unfold unpacked
  congr 1
  · omega
  · congr 1
    omega

theorem unpacked_of_ge (hb : beNat b = c * 2 ^ 5 ||| e) (hc : 0 < c) (he : 2 ^ 5 ≤ e) (he' : e < 2 ^ 6) :
    unpacked b < c * 10 ^ e := by
  have hlow : beNat b % 2 ^ 5 = e - 2 ^ 5 := by
    rw [hb, Nat.or_mod_two_pow, Nat.mul_mod_left, Nat.zero_or]
    omega
  have hhigh : beNat b / 2 ^ 5 ≤ c + 1 := by
    have hone : e / 2 ^ 5 = 1 := by omega
    have hhalf : (c ||| 1) / 2 ^ 1 = c / 2 := by
      rw [Nat.or_div_two_pow, Nat.or_zero]
    rw [hb, Nat.or_div_two_pow, Nat.mul_div_cancel _ (by norm_num), hone]
    omega
  have hpow : c * 10 ^ e = c * 10 ^ 2 ^ 5 * 10 ^ (e - 2 ^ 5) := by
    rw [Nat.mul_assoc, ← pow_add]
    congr 2
    omega
  have hlarge : c + 1 < c * 10 ^ 2 ^ 5 := by
    omega
  calc unpacked b ≤ (c + 1) * 10 ^ (e - 2 ^ 5) := by
        unfold unpacked
        rw [hlow]
        exact Nat.mul_le_mul_right _ hhigh
    _ < c * 10 ^ 2 ^ 5 * 10 ^ (e - 2 ^ 5) := Nat.mul_lt_mul_of_pos_right hlarge (Nat.pow_pos (by norm_num))
    _ = c * 10 ^ e := hpow.symm

/-! ## What is packed -/

theorem decNat_dropWhile (dec : Bytes) : decNat (dec.dropWhile (· = 48)) = decNat dec := by
  induction dec with
  | nil => rfl
  | cons x dec ih =>
    by_cases hx : x = 48
    · subst hx
      rw [dropWhile_cons_of_pos (by simp), ih, decNat_cons, show (48 : UInt8).toNat - 48 = 0 from rfl, Nat.zero_mul,
        Nat.zero_add]
    · rw [dropWhile_cons_of_neg (by simpa using hx)]

theorem dropWhile_head (dec : Bytes) : ∀ x rest, dec.dropWhile (· = 48) = x :: rest → x ≠ 48 := by
  intro x rest h
  have hhead := List.head?_dropWhile_not (fun y : UInt8 => decide (y = 48)) dec
  rw [h] at hhead
  simpa using hhead

theorem pack_ok (hm : m = 35 ∨ m = 11) (hdigits : ∀ x ∈ dec, IsDigit x) (hlen : dec.length ≤ 78)
    (hne : decNat dec ≠ 0) (hok : Guarded.ok (pack dec m 5) out) :
    ∃ c e, 0 < c ∧ c < 2 ^ m ∧ e < 2 ^ 6 ∧ decNat dec = c * 10 ^ e ∧ (0 < e → 2 ^ m * 10 ^ (e - 1) ≤ decNat dec) ∧
      beNat out = c * 2 ^ 5 ||| e := by
  have hvalue := decNat_dropWhile dec
  have hfirst := dropWhile_head dec
  have hlimit := limit_of_format hm
  have hdigits' : ∀ x ∈ dec.dropWhile (· = 48), IsDigit x := fun x hx => hdigits x ((dropWhile_sublist _).mem hx)
  have hshort : (dec.dropWhile (· = 48)).length ≤ 78 := le_trans (dropWhile_sublist _).length_le hlen
  unfold pack at hok
  dsimp only at hok
  generalize dec.dropWhile (· = 48) = s at *
  split at hok
  · next hnil =>
    rw [length_eq_zero_iff.1 hnil] at hvalue
    exact absurd hvalue.symm hne
  · simp only [Guarded.ok_bind, Guarded.ok_check] at hok
    obtain ⟨cl, hcl, -, hexp, hout⟩ := hok
    obtain ⟨hpos, hle, hlt, hval, hnext⟩ := content_length_ok hlimit hdigits' hfirst (le_refl _) hcl
    rw [take_length, hvalue] at hval
    have hsmall : s.length - cl < 2 ^ 6 := lt_of_bitlen_le (Nat.lt_of_le_of_lt (by omega : _ ≤ 78) (by norm_num)) (by omega)
    have hc : strtoull (s.take cl) = decNat (s.take cl) := by
      have h64 : 2 ^ m < ULLONG_MAX := by
        rcases hm with rfl | rfl
        · norm_num [ULLONG_MAX]
        · norm_num [ULLONG_MAX]
      exact Nat.min_eq_left (by omega)
    rw [hc] at hout
    refine ⟨decNat (s.take cl), s.length - cl, ?_, hlt, hsmall, hval, ?_, ?_⟩
    · apply Nat.pos_of_ne_zero
      intro h0
      rw [h0, Nat.zero_mul] at hval
      exact hne hval
    · -- one more digit is too much
      intro he
      have hsplit := decNat_append (s.take (cl + 1)) (s.drop (cl + 1))
      rw [take_append_drop, length_drop, ← Nat.sub_sub] at hsplit
      have hmul := Nat.mul_le_mul_right (10 ^ (s.length - cl - 1)) (hnext (by omega))
      omega
    · rw [← Guarded.ok_pure.1 hout]
      have he : s.length - cl < 2 ^ (m + 5) :=
        Nat.lt_of_lt_of_le hsmall (Nat.pow_le_pow_right (by norm_num) (by omega))
      exact beNat_field (by omega) (by omega) hlt he

theorem pack_zero (hdigits : ∀ x ∈ dec, IsDigit x) (hzero : decNat dec = 0)
    (hok : Guarded.ok (pack dec m 5) out) : unpacked out = 0 := by
  have hvalue := decNat_dropWhile dec
  have hfirst := dropWhile_head dec
  have hdigits' : ∀ x ∈ dec.dropWhile (· = 48), IsDigit x := fun x hx => hdigits x ((dropWhile_sublist _).mem hx)
  unfold pack at hok
  generalize dec.dropWhile (· = 48) = s at *
  obtain _ | ⟨x, rest⟩ := s
  · obtain rfl := Guarded.ok_pure.1 hok
    rw [unpacked, beNat_replicate_zero]
    rfl
  · have hle := le_decNat_cons (b := rest) (hdigits' x mem_cons_self) (hfirst x rest rfl)
    have hpow : 0 < 10 ^ rest.length := Nat.pow_pos (by norm_num)
    omega

/-- What is packed is read back exactly as long as the exponent has five bits: the amount is below `10 ^ 31` times the
largest mantissa. -/
theorem packed_iff {dec out : Bytes} {m : Nat} (hm : m = 35 ∨ m = 11) (hdigits : ∀ x ∈ dec, IsDigit x) (hlen : dec.length ≤ 78)
    (hok : Guarded.ok (pack dec m 5) out) : unpacked out = decNat dec ↔ decNat dec < 2 ^ m * 10 ^ 31 := by
  by_cases hzero : decNat dec = 0
  · rw [pack_zero hdigits hzero hok, hzero]
    exact iff_of_true rfl (Nat.mul_pos (Nat.two_pow_pos _) (Nat.pow_pos (by norm_num)))
  · obtain ⟨c, e, hc, hlt, he, hval, hnext, hbits⟩ := pack_ok hm hdigits hlen hzero hok
    rcases Nat.lt_or_ge e (2 ^ 5) with hsmall | hlarge
    · refine iff_of_true ((unpacked_of_lt hbits hsmall).trans hval.symm) ?_
      rw [hval]
      calc c * 10 ^ e < 2 ^ m * 10 ^ e := Nat.mul_lt_mul_of_pos_right hlt (Nat.pow_pos (by norm_num))
        _ ≤ 2 ^ m * 10 ^ 31 := Nat.mul_le_mul_left _ (Nat.pow_le_pow_right (by norm_num) (by omega))
    · have hless := unpacked_of_ge hbits hc hlarge he
      have hpow := Nat.mul_le_mul_left (2 ^ m) (Nat.pow_le_pow_right (by norm_num : 0 < 10) (by omega : 31 ≤ e - 1))
      exact iff_of_false (by omega) (by omega)

/-- `12300` as a fee: the mantissa of eleven bits is 1230 and the exponent is 1. -/
theorem packed_of_12300 :
    Guarded.ok (pack [49, 50, 51, 48, 48] 11 5) [153, 193] ∧ unpacked [153, 193] = decNat [49, 50, 51, 48, 48] := by
  have hok : Guarded.ok (pack [49, 50, 51, 48, 48] 11 5) [153, 193] := by decide
  exact ⟨hok, (packed_iff (.inr rfl) (by decide +kernel) (by decide +kernel) hok).2 (by decide +kernel)⟩

/-- `10 ^ 42` has the mantissa `10 ^ 10` and 32 zeros. It is read as `10 ^ 10 + 1`. -/
theorem packed_of_many_zeros :
    Guarded.ok (pack (49 :: replicate 42 48) 35 5) [74, 129, 124, 128, 32] ∧ decNat (49 :: replicate 42 48) = 10 ^ 42 ∧
      unpacked [74, 129, 124, 128, 32] = 10 ^ 10 + 1 := by
  refine ⟨by decide, by decide, by decide⟩

end In3.Zksync
