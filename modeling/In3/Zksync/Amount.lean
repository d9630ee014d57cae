import In3.Core.Utils
import In3.Lib.Decimal
/-!
# The text of an amount (`add_amount` in `pay/zksync/zk_message.c`)

The digits of an amount are moved in a buffer of 80 bytes to make room for a point, and the zeros at
the end are cut, except for the first digit behind the point. A move that leaves the buffer has no result (`none`). The
conversion of the number to its digits is taken from the library (`decimal_text`).
-/
open Lib List

namespace In3.Zksync

def AMOUNT_BUFFER : Nat := 80

def cut_zeros (sep : Nat) (tmp : Bytes) : Bytes :=
  tmp.take sep ++ ((tmp.drop sep).reverse.dropWhile (· = 48)).reverse

/-- `add_amount`, with the digits of the amount. The length of a text in the buffer includes its zero byte. -/
def add_amount (dec : Nat) (tmp : Bytes) : Option Bytes :=
  let l := tmp.length
  if dec = 0 then some tmp
  else if dec < l then
    if l + 2 ≤ AMOUNT_BUFFER then some (cut_zeros (l - dec + 2) (tmp.take (l - dec) ++ 46 :: tmp.drop (l - dec))) else none
  else if dec + 3 ≤ AMOUNT_BUFFER then some (cut_zeros 3 ([48] ++ 46 :: (List.replicate (dec - l) 48 ++ tmp)))
  else none

/-- A plain decimal number with the value `amount / 10 ^ dec`. -/
def Writes (text : Bytes) (amount dec : Nat) : Prop :=
  ∃ whole frac, (text = whole ∧ frac = [] ∨ text = whole ++ 46 :: frac ∧ frac ≠ []) ∧ whole ≠ [] ∧
    (∀ d ∈ whole ++ frac, IsDigit d) ∧ decNat (whole ++ frac) * 10 ^ dec = amount * 10 ^ frac.length

/-! ## Digits -/

theorem decNat_decimal_text (n : Nat) : decNat (decimal_text n) = n := by
  have hdigit : ∀ d < 10, (UInt8.ofNat (Nat.digitChar d).toNat).toNat = 48 + d := by decide
  induction n using Nat.strong_induction_on with
  | _ n ih =>
    unfold decimal_text at ih ⊢
    rw [Nat.toDigits_eq_if (by norm_num)]
    split
    · rw [map_singleton, decNat_cons, hdigit n (by omega)]
      simp [decNat]
    · rw [map_append, decNat_append, ih (n / 10) (by omega), map_singleton, decNat_cons, hdigit (n % 10) (by omega)]
      simp [decNat]
      omega

theorem isDigit_decimal_text {n : Nat} {d : UInt8} (hd : d ∈ decimal_text n) : IsDigit d := by
  obtain ⟨c, hc, rfl⟩ := mem_map.1 hd
  have hdigit : c.isDigit = true := Nat.isDigit_of_mem_toDigits (by decide) (by decide) hc
  simp only [Char.isDigit, Bool.and_eq_true, decide_eq_true_eq] at hdigit
  have hge : 48 ≤ c.toNat := hdigit.1
  have hle : c.toNat ≤ 57 := hdigit.2
  rw [IsDigit, UInt8.toNat_ofNat', Nat.mod_eq_of_lt (by omega)]
  exact ⟨hge, hle⟩

theorem length_decimal_text {n : Nat} (h : n < 2 ^ 256) : (decimal_text n).length ≤ 78 := by
  rw [decimal_text, length_map, Nat.length_toDigits_le_iff (by norm_num) (by norm_num)]
  calc n < 2 ^ 256 := h
    _ < 10 ^ 78 := by norm_num

theorem decimal_text_ne_nil (n : Nat) : decimal_text n ≠ [] := by
  rw [decimal_text, Nat.toDigits_eq_if (by norm_num)]
  split <;> simp

theorem decNat_zeros (k : Nat) : decNat (List.replicate k 48) = 0 := by
  induction k with
  | zero => rfl
  | succ k ih => rw [replicate_succ, decNat_cons, ih]; simp

/-! ## The point -/

theorem cut_zeros_eq (whole : Bytes) (x : UInt8) (frac : Bytes) :
    ∃ k r, cut_zeros (whole.length + 2) (whole ++ 46 :: x :: frac) = whole ++ 46 :: x :: r ∧ frac = r ++ List.replicate k 48 := by
  have hdrop : (whole ++ 46 :: x :: frac).drop (whole.length + 2) = frac := by simp
  have htake : (whole ++ 46 :: x :: frac).take (whole.length + 2) = whole ++ [46, x] := by simp [take_append]
  have hsplit := congrArg List.reverse (takeWhile_append_dropWhile (p := (· = 48)) (l := frac.reverse))
  rw [reverse_append, reverse_reverse] at hsplit
  refine ⟨(frac.reverse.takeWhile (· = 48)).length, (frac.reverse.dropWhile (· = 48)).reverse, ?_, ?_⟩
  · rw [cut_zeros, hdrop, htake, append_assoc]
    rfl
  · conv_lhs => rw [← hsplit]
    congr 1
    refine eq_replicate_iff.2 ⟨by simp, ?_⟩
    intro d hd
    simpa using mem_takeWhile_imp (mem_reverse.1 hd)

theorem cut_zeros_writes {whole frac : Bytes} {amount dec : Nat} (hwhole : whole ≠ []) (hlen : frac.length = dec) (hdec : dec ≠ 0)
    (hdigits : ∀ d ∈ whole ++ frac, IsDigit d) (hvalue : decNat (whole ++ frac) = amount) :
    Writes (cut_zeros (whole.length + 2) (whole ++ 46 :: frac)) amount dec := by
  cases frac with
  | nil => exact absurd hlen.symm hdec
  | cons x frac =>
    obtain ⟨k, r, hcut, rfl⟩ := cut_zeros_eq whole x frac
    refine ⟨whole, x :: r, .inr ⟨hcut, by simp⟩, hwhole, ?_, ?_⟩
    · intro d hd
      apply hdigits d
      simp only [mem_append, mem_cons] at hd ⊢
      tauto
    · have hsplit : whole ++ x :: (r ++ List.replicate k 48) = (whole ++ x :: r) ++ List.replicate k 48 := by simp
      rw [hsplit, decNat_append, decNat_zeros, length_replicate] at hvalue
      rw [← hlen, ← hvalue, length_cons, length_cons, length_append, length_replicate]
      ring

theorem add_amount_writes {dec amount : Nat} (hdec : dec ≤ 77) (h : amount < 2 ^ 256) :
    ∃ text, add_amount dec (decimal_text amount) = some text ∧ Writes text amount dec := by
  have hl := length_decimal_text h
  have hdigits : ∀ d ∈ decimal_text amount, IsDigit d := fun d => isDigit_decimal_text
  have hvalue := decNat_decimal_text amount
  have hne := decimal_text_ne_nil amount
  generalize decimal_text amount = tmp at hl hdigits hvalue hne ⊢
  unfold add_amount AMOUNT_BUFFER
  by_cases h0 : dec = 0
  · rw [if_pos h0]
    exact ⟨tmp, rfl, tmp, [], .inl ⟨rfl, rfl⟩, hne, by simpa using hdigits, by simp [h0, hvalue]⟩
  rw [if_neg h0]
  by_cases hlt : dec < tmp.length
  · rw [if_pos hlt, if_pos (by omega)]
    refine ⟨_, rfl, ?_⟩
    have hwhole : (tmp.take (tmp.length - dec)).length = tmp.length - dec := by simp
    have hwrites : Writes (cut_zeros ((tmp.take (tmp.length - dec)).length + 2)
        (tmp.take (tmp.length - dec) ++ 46 :: tmp.drop (tmp.length - dec))) amount dec := by
      refine cut_zeros_writes ?_ ?_ h0 ?_ ?_
      · rw [← length_pos_iff]
        omega
      · rw [length_drop]
        omega
      · rwa [take_append_drop]
      · rw [take_append_drop, hvalue]
    rwa [hwhole] at hwrites
  · rw [if_neg hlt, if_pos (by omega)]
    refine ⟨_, rfl, ?_⟩
    refine cut_zeros_writes (cons_ne_nil 48 []) ?_ h0 ?_ ?_
    · rw [length_append, length_replicate]
      omega
    · intro d hd
      simp only [mem_append, mem_singleton, mem_replicate] at hd
      rcases hd with rfl | ⟨-, rfl⟩ | hd
      · decide
      · decide
      · exact hdigits d hd
    · rw [decNat_append, decNat_append, decNat_zeros, hvalue]
      simp [decNat]

/-- The text of an amount is written inside of its buffer, with the value of the amount, exactly for tokens with
up to 77 decimals. -/
theorem add_amount_iff (dec amount : Nat) (h : amount < 2 ^ 256) :
    (∃ text, add_amount dec (decimal_text amount) = some text ∧ Writes text amount dec) ↔ dec ≤ 77 := by
  refine ⟨?_, fun hdec => add_amount_writes hdec h⟩
  rintro ⟨text, htext, -⟩
  by_contra hdec
  have hl := length_decimal_text h
  rw [add_amount, if_neg (by omega), if_neg (by omega), if_neg (by unfold AMOUNT_BUFFER; omega)] at htext
  cases htext

theorem add_amount_one_ether : ∃ text, add_amount 18 (decimal_text (10 ^ 18)) = some text ∧ Writes text (10 ^ 18) 18 :=
  (add_amount_iff 18 (10 ^ 18) (by norm_num)).2 (by decide)

/-- With 78 decimals even the zero amount leaves the buffer. -/
theorem add_amount_leaves_buffer : add_amount 78 (decimal_text 0) = none := by decide

end In3.Zksync
