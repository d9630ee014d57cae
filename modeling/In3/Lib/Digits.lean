import In3.Lib.Bytes
import Mathlib.Algebra.Polynomial.Eval.Degree
/-!
# Arithmetic on big-endian digits

Sums, differences and products of byte strings digit by digit, from the last byte to the first.
A round takes the last digits off and leaves a carry; `mod_pow_succ` and `sub_pow_succ` are that
round, for any number of digits that are kept. A product is the sum of its columns (`beNat_mul`):
column `k` adds the products of the digits whose places sum up to `k`.
-/

namespace Lib

@[simp] theorem beNat_singleton (x : UInt8) : beNat [x] = x.toNat := by
  simp [beNat]

theorem beNat_concat (b : Bytes) (x : UInt8) : beNat (b ++ [x]) = beNat b * 256 + x.toNat := by
  rw [beNat_append, beNat_singleton, List.length_singleton, pow_one]

theorem toNat_ofNat_mod (n : Nat) : (UInt8.ofNat (n % 256)).toNat = n % 256 := by
  rw [UInt8.toNat_ofNat']
  omega

theorem pow_256_pos (n : Nat) : 0 < 256 ^ n := Nat.pow_pos (by norm_num)

theorem pow_256_eq (n : Nat) : 256 ^ n = 2 ^ (8 * n) := by
  rw [pow_mul]
  norm_num

/-! ## The last digit -/

/-- The last of the first `len` bytes; 0 if there is none. -/
def digit (b : Bytes) (len : Nat) : UInt8 := if len = 0 then 0 else b.getD (len - 1) 0

theorem beNat_take_digit {b : Bytes} {len : Nat} (h : len ≤ b.length) :
    beNat (b.take len) = 256 * beNat (b.take (len - 1)) + (digit b len).toNat := by
  cases len with
  | zero => simp [digit]
  | succ k =>
    have hk : k < b.length := by omega
    rw [List.take_succ_eq_append_getElem hk, beNat_concat, Nat.mul_comm]
    simp [digit, hk]

theorem mod_pow_succ (q c n : Nat) : (256 * q + c) % 256 ^ (n + 1) = (q + c / 256) % 256 ^ n * 256 + c % 256 := by
  have hdiv : (256 * q + c) / 256 = q + c / 256 := Nat.mul_add_div (by norm_num) q c
  rw [pow_succ', Nat.mod_mul, hdiv, Nat.mul_add_mod]
  ring

theorem mod_pow_digit (q n : Nat) (x : UInt8) :
    (256 * q + x.toNat) % 256 ^ (n + 1) = q % 256 ^ n * 256 + x.toNat := by
  have hx : x.toNat < 256 := x.toNat_lt
  rw [mod_pow_succ, Nat.div_eq_of_lt hx, Nat.mod_eq_of_lt hx, Nat.add_zero]

theorem beNat_drop_mod {b : Bytes} {m : Nat} (h : m ≤ b.length) :
    beNat (b.drop (b.length - m)) = beNat b % 256 ^ m := by
  have hlen : (b.drop (b.length - m)).length = m := by
    rw [List.length_drop]
    omega
  have hlt := beNat_lt (b.drop (b.length - m))
  rw [hlen] at hlt
  conv_rhs => rw [← List.take_append_drop (b.length - m) b, beNat_append, hlen]
  rw [Nat.mul_comm, Nat.mul_add_mod, Nat.mod_eq_of_lt hlt]

/-! ## Places -/

def place (b : Bytes) (i : Nat) : Nat := if i < b.length then (b.getD (b.length - 1 - i) 0).toNat else 0

theorem place_of_le {b : Bytes} {i : Nat} (h : b.length ≤ i) : place b i = 0 := if_neg (by omega)

theorem place_le (b : Bytes) (i : Nat) : place b i ≤ 255 := by
  unfold place
  split
  · exact Nat.lt_succ_iff.1 (UInt8.toNat_lt _)
  · omega

theorem place_concat_zero (b : Bytes) (x : UInt8) : place (b ++ [x]) 0 = x.toNat := by
  simp [place]

theorem place_concat_succ (b : Bytes) (x : UInt8) (i : Nat) : place (b ++ [x]) (i + 1) = place b i := by
  unfold place
  by_cases h : i < b.length
  · have hi : (b ++ [x]).length - 1 - (i + 1) = b.length - 1 - i := by simp; omega
    have hlt : b.length - 1 - i < b.length := by omega
    rw [if_pos (by simp; omega), if_pos h, hi, List.getD_eq_getElem?_getD, List.getElem?_append_left hlt,
      List.getD_eq_getElem?_getD]
  · rw [if_neg (by simp; omega), if_neg h]

theorem place_eq_div_mod (b : Bytes) (i : Nat) : place b i = beNat b / 256 ^ i % 256 := by
  induction b using List.reverseRecOn generalizing i with
  | nil => simp [place]
  | append_singleton b x ih =>
    have hx := x.toNat_lt
    rw [beNat_concat]
    cases i with
    | zero =>
      rw [place_concat_zero]
      omega
    | succ i =>
      rw [place_concat_succ, ih, pow_succ', ← Nat.div_div_eq_div_mul, Nat.mul_comm (beNat b),
        Nat.mul_add_div (by norm_num), Nat.div_eq_of_lt hx, Nat.add_zero]

/-! ## Bitwise operations -/

section Bitwise
variable {f : Nat → Nat → Nat} {g : Bool → Bool → Bool} (hf : ∀ x y i, (f x y).testBit i = g (x.testBit i) (y.testBit i))
include hf

theorem bitwise_split {x y u v k : Nat} (hu : u < 2 ^ k) (hv : v < 2 ^ k) (hfuv : f u v < 2 ^ k) :
    f (x * 2 ^ k + u) (y * 2 ^ k + v) = f x y * 2 ^ k + f u v := by
  apply Nat.eq_of_testBit_eq
  intro i
  rw [hf, Nat.mul_comm x, Nat.mul_comm y, Nat.mul_comm (f x y), Nat.testBit_two_pow_mul_add _ hu,
    Nat.testBit_two_pow_mul_add _ hv, Nat.testBit_two_pow_mul_add _ hfuv]
  split
  · exact (hf u v i).symm
  · exact (hf x y (i - k)).symm

theorem bitwise_lt {u v k : Nat} (h0 : g false false = false) (hu : u < 2 ^ k) (hv : v < 2 ^ k) : f u v < 2 ^ k := by
  apply Nat.lt_pow_two_of_testBit
  intro i hi
  have hle : 2 ^ k ≤ 2 ^ i := Nat.pow_le_pow_right (by norm_num) hi
  rw [hf, Nat.testBit_lt_two_pow (lt_of_lt_of_le hu hle), Nat.testBit_lt_two_pow (lt_of_lt_of_le hv hle), h0]

theorem beNat_zipWith {f8 : UInt8 → UInt8 → UInt8} (h0 : g false false = false)
    (h8 : ∀ x y : UInt8, (f8 x y).toNat = f x.toNat y.toNat) {a b : Bytes} (h : a.length = b.length) :
    beNat (List.zipWith f8 a b) = f (beNat a) (beNat b) := by
  induction a generalizing b with
  | nil =>
    obtain rfl := List.length_eq_zero_iff.1 h.symm
    have hzero : f 0 0 = 0 := by
      apply Nat.eq_of_testBit_eq
      intro i
      rw [hf, Nat.zero_testBit, h0]
    simp [hzero]
  | cons x a ih =>
    rcases b with _ | ⟨y, b⟩
    · simp at h
    · have hl : a.length = b.length := by simpa using h
      have ha := beNat_lt a
      have hb := beNat_lt b
      rw [hl, pow_256_eq] at ha
      rw [pow_256_eq] at hb
      rw [List.zipWith_cons_cons, beNat_cons, beNat_cons, beNat_cons, ih hl, h8, List.length_zipWith, hl, Nat.min_self,
        pow_256_eq, bitwise_split hf ha hb (bitwise_lt hf h0 ha hb)]

end Bitwise

/-! ## Columns of a product -/

open Polynomial in
noncomputable def digitPoly (b : Bytes) : ℕ[X] := ∑ i ∈ Finset.range b.length, monomial i (place b i)

open Polynomial in
theorem coeff_digitPoly (b : Bytes) (k : Nat) : (digitPoly b).coeff k = place b k := by
  unfold digitPoly
  rw [finsetSum_coeff]
  simp only [coeff_monomial]
  rw [Finset.sum_ite_eq' (Finset.range b.length) k]
  split
  · rfl
  · next h => exact (place_of_le (by simpa using h)).symm

open Polynomial in
theorem eval_digitPoly (b : Bytes) : (digitPoly b).eval 256 = beNat b := by
  unfold digitPoly
  rw [eval_finsetSum]
  simp only [eval_monomial]
  induction b using List.reverseRecOn with
  | nil => simp
  | append_singleton b x ih =>
    have hsum : ∑ i ∈ Finset.range b.length, place b i * 256 ^ (i + 1) = beNat b * 256 := by
      rw [← ih, Finset.sum_mul]
      exact Finset.sum_congr rfl fun i _ => by ring
    rw [List.length_append, List.length_singleton, Finset.sum_range_succ']
    simp only [place_concat_succ, place_concat_zero, pow_zero, mul_one, hsum]
    exact (beNat_concat b x).symm

/-- The products of the digits whose places sum up to `k`. -/
def column (a b : Bytes) (k : Nat) : Nat := ∑ i ∈ Finset.range (k + 1), place a i * place b (k - i)

open Polynomial in
theorem coeff_digitPoly_mul (a b : Bytes) (k : Nat) : (digitPoly a * digitPoly b).coeff k = column a b k := by
  rw [coeff_mul]
  simp only [coeff_digitPoly]
  exact Finset.Nat.sum_antidiagonal_eq_sum_range_succ (fun i j => place a i * place b j) k

theorem column_of_le {a b : Bytes} {k : Nat} (h : a.length + b.length ≤ k + 1) : column a b k = 0 := by
  refine Finset.sum_eq_zero fun i hi => ?_
  rcases Nat.lt_or_ge i a.length with hlt | hge
  · rw [place_of_le (b := b) (by omega), Nat.mul_zero]
  · rw [place_of_le hge, Nat.zero_mul]

open Polynomial in
/-- A product is the sum of its columns. -/
theorem beNat_mul (a b : Bytes) :
    beNat a * beNat b = ∑ k ∈ Finset.range (a.length + b.length), column a b k * 256 ^ k := by
  rw [← eval_digitPoly, ← eval_digitPoly, ← eval_mul]
  have hdeg : (digitPoly a * digitPoly b).natDegree < a.length + b.length + 1 := by
    refine Nat.lt_succ_of_le (natDegree_le_iff_coeff_eq_zero.2 fun k hk => ?_)
    rw [coeff_digitPoly_mul]
    exact column_of_le (by omega)
  rw [eval_eq_sum_range' hdeg, Finset.sum_range_succ]
  simp only [coeff_digitPoly_mul]
  rw [column_of_le (by omega), Nat.zero_mul, Nat.add_zero]

theorem column_le (a b : Bytes) (k : Nat) : column a b k ≤ a.length * 65025 := by
  have hsub : column a b k ≤ ∑ i ∈ Finset.range a.length, place a i * 255 := by
    calc ∑ i ∈ Finset.range (k + 1), place a i * place b (k - i)
        ≤ ∑ i ∈ Finset.range (k + 1), place a i * 255 :=
          Finset.sum_le_sum fun i _ => Nat.mul_le_mul_left _ (place_le b _)
      _ ≤ ∑ i ∈ Finset.range a.length, place a i * 255 := by
          refine Finset.sum_le_sum_of_ne_zero fun i _ hne => ?_
          rw [Finset.mem_range]
          by_contra hge
          exact hne (by rw [place_of_le (by omega), Nat.zero_mul])
  refine hsub.trans ?_
  calc ∑ i ∈ Finset.range a.length, place a i * 255
      ≤ ∑ _i ∈ Finset.range a.length, 65025 :=
        Finset.sum_le_sum fun i _ => by
          have := place_le a i
          omega
    _ = a.length * 65025 := by rw [Finset.sum_const, Finset.card_range, smul_eq_mul]

end Lib
