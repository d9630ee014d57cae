import In3.Evm.Big
import In3.Lib.Digits
/-!
# What the numbers of `big.c` are

Each function is followed by the number it returns. A sum is cut to the bytes it is given, a
difference is taken modulo `256 ^ 32`, and a product is the sum of its columns as long as its first
factor has a byte: without one, the last digit is written in front of the buffer.
-/
open Lib Guarded List

namespace In3.Evm

theorem optimize_len_word {b : Bytes} (h : b.length ≤ 32) : (optimize_len b).length ≤ 32 ∧ beNat (optimize_len b) = beNat b :=
  ⟨(length_stripZeros_le b).trans h, beNat_stripZeros b⟩

variable {a b : Bytes} {i k max size : Nat}

theorem ok_rd {x : UInt8} : ok (rd b i) x ↔ b[i]? = some x := by
  unfold rd
  rcases h : b[i]? with _ | y <;> simp

theorem ok_rd_last {len : Nat} (h : len ≤ b.length) {x : UInt8} :
    ok (rd_last b len) x ↔ digit b len = x := by
  unfold digit rd_last
  by_cases h0 : len = 0
  · simp [h0]
  · have hlt : len - 1 < b.length := by omega
    simp [h0, ok_rd, hlt]

/-! ## Comparing -/

theorem memcmp_eq_compare (h : a.length = b.length) :
    (memcmp a b < 0 ↔ beNat a < beNat b) ∧ (memcmp a b = 0 ↔ beNat a = beNat b) := by
  induction a generalizing b with
  | nil =>
    obtain rfl := length_eq_zero_iff.1 h.symm
    simp [memcmp]
  | cons x a ih =>
    rcases b with _ | ⟨y, b⟩
    · simp at h
    · have hl : a.length = b.length := by simpa using h
      have ha := beNat_lt a
      have hb := beNat_lt b
      rw [hl] at ha
      rw [beNat_cons, beNat_cons, hl]
      rcases Nat.lt_trichotomy x.toNat y.toNat with hlt | heq | hgt
      · -- a smaller first byte cannot be made up for
        have hle := Nat.mul_le_mul_right (256 ^ b.length) (Nat.succ_le_of_lt hlt)
        rw [Nat.succ_mul] at hle
        rw [memcmp, if_pos (UInt8.lt_iff_toNat_lt.2 hlt)]
        omega
      · have hxy : x = y := UInt8.toNat_inj.1 heq
        obtain ⟨h1, h2⟩ := ih hl
        rw [memcmp, hxy, if_neg (UInt8.lt_irrefl y), if_neg (UInt8.lt_irrefl y)]
        omega
      · have hle := Nat.mul_le_mul_right (256 ^ b.length) (Nat.succ_le_of_lt hgt)
        have hnot : ¬ x < y := fun hlt => absurd (UInt8.lt_iff_toNat_lt.1 hlt) (by omega)
        rw [Nat.succ_mul] at hle
        rw [memcmp, if_neg hnot, if_pos (UInt8.lt_iff_toNat_lt.2 hgt)]
        omega

theorem beNat_take_drop (b : Bytes) {m : Nat} (h : m ≤ b.length) :
    beNat b = beNat (b.take (b.length - m)) * 256 ^ m + beNat (b.drop (b.length - m)) := by
  conv_lhs => rw [← take_append_drop (b.length - m) b]
  rw [beNat_append, length_drop, show b.length - (b.length - m) = m by omega]

theorem any_ne_zero_iff (b : Bytes) : b.any (· ≠ 0) = true ↔ 0 < beNat b := by
  induction b with
  | nil => simp
  | cons x b ih =>
    rw [any_cons, Bool.or_eq_true, ih, beNat_cons]
    by_cases hx : x = 0
    · simp [hx]
    · have hle := le_beNat_cons (b := b) hx
      have hpos := pow_256_pos b.length
      rw [beNat_cons] at hle
      simp only [ne_eq, hx, not_false_eq_true, decide_true, true_or, true_iff]
      omega

/-- The longer number is greater if it has a byte in front of the others, and else it is what is behind. -/
theorem leading_cases (h : b.length ≤ a.length) :
    (a.take (a.length - b.length)).any (· ≠ 0) = true ∧ beNat b < beNat a ∨
      ¬ (a.take (a.length - b.length)).any (· ≠ 0) = true ∧ beNat (a.drop (a.length - b.length)) = beNat a := by
  have hsplit := beNat_take_drop a h
  have hb := beNat_lt b
  by_cases hany : (a.take (a.length - b.length)).any (· ≠ 0) = true
  · have hpos := Nat.le_mul_of_pos_left (256 ^ b.length) ((any_ne_zero_iff _).1 hany)
    exact .inl ⟨hany, by omega⟩
  · have hzero : beNat (a.take (a.length - b.length)) = 0 := by
      have := mt (any_ne_zero_iff _).2 hany
      omega
    rw [hzero, Nat.zero_mul, Nat.zero_add] at hsplit
    exact .inr ⟨hany, hsplit.symm⟩

theorem big_cmp_iff (a b : Bytes) : (big_cmp a b < 0 ↔ beNat a < beNat b) ∧ (big_cmp a b = 0 ↔ beNat a = beNat b) := by
  unfold big_cmp
  by_cases heq : a.length = b.length
  · rw [if_pos heq]
    exact memcmp_eq_compare heq
  · rw [if_neg heq]
    by_cases hlt : b.length < a.length
    · rw [if_pos hlt]
      obtain ⟨hany, hgt⟩ | ⟨hany, hdrop⟩ := leading_cases hlt.le
      · rw [if_pos hany]
        omega
      · rw [if_neg hany, ← hdrop]
        exact memcmp_eq_compare (by rw [length_drop]; omega)
    · rw [if_neg hlt]
      obtain ⟨hany, hgt⟩ | ⟨hany, hdrop⟩ := leading_cases (Nat.le_of_not_lt hlt)
      · rw [if_pos hany]
        omega
      · rw [if_neg hany, ← hdrop]
        exact memcmp_eq_compare (by rw [length_drop]; omega)

theorem big_cmp_gt_iff (a b : Bytes) : big_cmp a b > 0 ↔ beNat b < beNat a := by
  obtain ⟨hlt, heq⟩ := big_cmp_iff a b
  omega

/-! ## Sums -/

theorem add_loop_ok (a b : Bytes) (size n la lb carry : Nat) (out : Bytes) (ha : la ≤ a.length)
    (hb : lb ≤ b.length) (hn : n ≤ size) :
    ∃ r, ok (add_loop a b size n la lb carry out) (r ++ out) ∧ r.length = n ∧
      beNat r = (beNat (a.take la) + beNat (b.take lb) + carry) % 256 ^ n := by
  induction n generalizing la lb carry out with
  | zero => exact ⟨[], by simp [add_loop], rfl, by simp [Nat.mod_one]⟩
  | succ n ih =>
    have hda := beNat_take_digit ha
    have hdb := beNat_take_digit hb
    generalize hx : digit a la = x at hda
    generalize hy : digit b lb = y at hdb
    generalize hc : carry + x.toNat + y.toNat = c
    obtain ⟨r, hr, hlen, hval⟩ := ih (la - 1) (lb - 1) (c / 256) (UInt8.ofNat (c % 256) :: out) (by omega) (by omega)
      (by omega)
    refine ⟨r ++ [UInt8.ofNat (c % 256)], ?_, by simp [hlen], ?_⟩
    · simp only [add_loop, ok_bind, ok_rd_last ha, ok_rd_last hb, ok_guard]
      refine ⟨x, hx, y, hy, (), by omega, ?_⟩
      rw [hc]
      simpa using hr
    · have hsum : beNat (a.take la) + beNat (b.take lb) + carry =
          256 * (beNat (a.take (la - 1)) + beNat (b.take (lb - 1))) + c := by omega
      rw [beNat_concat, hval, hsum, mod_pow_succ, toNat_ofNat_mod]

theorem big_add_ok (a b : Bytes) (hsize : max ≤ size) (hmax : 0 < max) :
    ∃ r, ok (big_add a b size max) r ∧ r.length ≤ max ∧ 0 < r.length ∧
      beNat r = (beNat a + beNat b) % 256 ^ max := by
  unfold big_add
  generalize ha : optimize_len a = a'
  generalize hb : optimize_len b = b'
  have hna : beNat a' = beNat a := by rw [← ha]; exact beNat_stripZeros a
  have hnb : beNat b' = beNat b := by rw [← hb]; exact beNat_stripZeros b
  simp only []
  generalize hw : (if b'.length < a'.length then a'.length + 1 else b'.length + 1) = w
  generalize hl : (if max ≠ 0 ∧ max < w then max else w) = l
  have hwa : a'.length < w ∧ b'.length < w := by split at hw <;> omega
  have hlw : l = max ∧ max < w ∨ l = w ∧ w ≤ max := by split at hl <;> omega
  obtain ⟨r, hr, hlen, hval⟩ := add_loop_ok a' b' size l a'.length b'.length 0 [] (le_refl _)
    (le_refl _) (by omega)
  rw [append_nil] at hr
  refine ⟨r, hr, by omega, by omega, ?_⟩
  rw [hval, take_length, take_length, hna, hnb, Nat.add_zero]
  rcases hlw with ⟨rfl, -⟩ | ⟨rfl, hle⟩
  · rfl
  · -- the sum has no more than `w` bytes, so both remainders are the sum itself
    have hlt : beNat a + beNat b < 256 ^ l := by
      have h1 : beNat a < 256 ^ (l - 1) := by
        rw [← hna]
        exact beNat_lt_of_le (by omega)
      have h2 : beNat b < 256 ^ (l - 1) := by
        rw [← hnb]
        exact beNat_lt_of_le (by omega)
      have h3 : 256 ^ l = 256 ^ (l - 1) * 256 := by
        rw [← pow_succ]
        congr 1
        omega
      omega
    have hle' : 256 ^ l ≤ 256 ^ max := Nat.pow_le_pow_right (by norm_num) hle
    rw [Nat.mod_eq_of_lt hlt, Nat.mod_eq_of_lt (lt_of_lt_of_le hlt hle')]

/-! ## Differences -/

theorem sub_loop_ok (a b : Bytes) (size n la lb borrow : Nat) (out : Bytes) (ha : la ≤ a.length)
    (hb : lb ≤ b.length) (hn : n ≤ size) (hborrow : borrow ≤ 1) :
    ∃ r β, ok (sub_loop a b size n la lb borrow out) (r ++ out, β) ∧ r.length = n ∧ β ≤ 1 ∧
      beNat r + beNat (b.take lb) % 256 ^ n + borrow = beNat (a.take la) % 256 ^ n + β * 256 ^ n := by
  induction n generalizing la lb borrow out with
  | zero => exact ⟨[], borrow, by simp [sub_loop], rfl, hborrow, by simp [Nat.mod_one]⟩
  | succ n ih =>
    have hda := beNat_take_digit ha
    have hdb := beNat_take_digit hb
    generalize hx : digit a la = x at hda
    generalize hy : digit b lb = y at hdb
    have hx' := x.toNat_lt
    have hy' := y.toNat_lt
    generalize hc : (x.toNat + 2 ^ 64 - y.toNat - borrow) % 2 ^ 64 = c
    -- the digit and the borrow of this round
    obtain ⟨r, β, hr, hlen, hβ, hval⟩ := ih (la - 1) (lb - 1) (c / 256 % 2) (UInt8.ofNat (c % 256) :: out) (by omega)
      (by omega) (by omega) (by omega)
    refine ⟨r ++ [UInt8.ofNat (c % 256)], β, ?_, by simp [hlen], hβ, ?_⟩
    · simp only [sub_loop, ok_bind, ok_rd_last ha, ok_rd_last hb, ok_guard]
      refine ⟨x, hx, y, hy, (), by omega, ?_⟩
      rw [hc]
      simpa using hr
    · rw [beNat_concat, hda, hdb, mod_pow_digit, mod_pow_digit, toNat_ofNat_mod, pow_succ, ← Nat.mul_assoc]
      omega

theorem beNat_replicate_255 (n : Nat) : beNat (replicate n 0xFF) + 1 = 256 ^ n := by
  induction n with
  | zero => rfl
  | succ n ih =>
    have hff : (0xFF : UInt8).toNat = 255 := rfl
    rw [replicate_succ', beNat_concat, pow_succ, ← ih]
    omega

theorem big_sub_ok (hsize : 32 ≤ size) (ha : a.length ≤ 32) (hb : b.length ≤ 32) :
    ∃ r, ok (big_sub a b size) r ∧ r.length ≤ 32 ∧ 0 < r.length ∧
      beNat r = (beNat a + 256 ^ 32 - beNat b) % 256 ^ 32 := by
  unfold big_sub
  obtain ⟨hla, hna⟩ := optimize_len_word ha
  obtain ⟨hlb, hnb⟩ := optimize_len_word hb
  generalize optimize_len a = a' at *
  generalize optimize_len b = b' at *
  simp only []
  generalize hw : (if b'.length < a'.length then a'.length + 1 else b'.length + 1) = w
  generalize hl : (if 32 < w then 32 else w) = l
  have hwa : a'.length < w ∧ b'.length < w := by split at hw <;> omega
  have hlw : l = 32 ∨ l = w ∧ w ≤ 32 := by split at hl <;> omega
  obtain ⟨r, β, hr, hlen, hβ, hval⟩ := sub_loop_ok a' b' size l a'.length b'.length 0 []
    (le_refl _) (le_refl _) (by omega) (by omega)
  -- neither number is cut
  have hfit : ∀ c : Bytes, c.length ≤ l → beNat c % 256 ^ l = beNat c := fun c hc =>
    Nat.mod_eq_of_lt (beNat_lt_of_le hc)
  rw [take_length, take_length, hfit a' (by omega), hfit b' (by omega), hna, hnb, Nat.add_zero] at hval
  rw [append_nil] at hr
  have hrlt : beNat r < 256 ^ l := hlen ▸ beNat_lt r
  by_cases hfill : β ≠ 0 ∧ l < 32
  · have hones := beNat_replicate_255 (32 - l)
    have hpow : 256 ^ (32 - l) * 256 ^ l = 256 ^ 32 := by
      rw [← pow_add]
      congr 1
      omega
    have hβ1 : β = 1 := by omega
    refine ⟨replicate (32 - l) 0xFF ++ r, ?_, by simp; omega, by simp; omega, ?_⟩
    · simp only [ok_bind]
      refine ⟨(r, β), hr, ?_⟩
      rw [if_pos hfill]
      simp only [ok_bind, ok_guard, ok_pure]
      exact ⟨(), hsize, trivial⟩
    · rw [beNat_append, hlen]
      rw [hβ1, Nat.one_mul] at hval
      have hmul : beNat (replicate (32 - l) 255) * 256 ^ l + 256 ^ l = 256 ^ 32 := by
        rw [← hpow, ← hones]
        ring
      rw [Nat.mod_eq_of_lt (by omega)]
      omega
  · refine ⟨r, ?_, by omega, by omega, ?_⟩
    · simp only [ok_bind]
      refine ⟨(r, β), hr, ?_⟩
      simp [hfill]
    · rcases (show β = 0 ∨ β = 1 ∧ l = 32 by omega) with rfl | ⟨rfl, rfl⟩
      · have hle : 256 ^ l ≤ 256 ^ 32 := Nat.pow_le_pow_right (by norm_num) (by omega)
        have hsum : beNat a + 256 ^ 32 - beNat b = beNat r + 256 ^ 32 := by omega
        rw [hsum, Nat.add_mod_right, Nat.mod_eq_of_lt (lt_of_lt_of_le hrlt hle)]
      · have hsum : beNat a + 256 ^ 32 - beNat b = beNat r := by omega
        rw [hsum, Nat.mod_eq_of_lt hrlt]

/-! ## Products -/

theorem getD_toNat_eq_place (h : i < b.length) : (b.getD i 0).toNat = place b (b.length - 1 - i) := by
  unfold place
  rw [if_pos (by omega)]
  congr 2
  omega

theorem ok_rd_place (h : i < b.length) :
    ∃ x, ok (rd b i) x ∧ x.toNat = place b (b.length - 1 - i) := by
  refine ⟨b.getD i 0, ?_, getD_toNat_eq_place h⟩
  rw [ok_rd, getD_eq_getElem?_getD, List.getElem?_eq_getElem h]
  rfl

theorem mul_column_ok (x y val : Nat) (hx : x ≤ a.length)
    (hy : y + k + 1 = b.length + (a.length - x)) (hval : val + x * 65025 < 2 ^ 32) :
    ok (mul_column a b x y val)
      (val + ∑ i ∈ Finset.Ico (a.length - x) (k + 1), place a i * place b (k - i)) := by
  induction x generalizing y val with
  | zero =>
    have hzero : ∑ i ∈ Finset.Ico (a.length - 0) (k + 1), place a i * place b (k - i) = 0 := by
      refine Finset.sum_eq_zero fun i hi => ?_
      rw [Finset.mem_Ico] at hi
      rw [place_of_le (by omega), Nat.zero_mul]
    rw [hzero, mul_column, ok_pure, Nat.add_zero]
  | succ x ih =>
    by_cases hlt : y < b.length
    · obtain ⟨p, hp, hpa⟩ := ok_rd_place (b := a) (i := x) (by omega)
      obtain ⟨q, hq, hqb⟩ := ok_rd_place hlt
      have hp1 := p.toNat_lt
      have hq1 := q.toNat_lt
      have hpq : p.toNat * q.toNat ≤ 65025 := Nat.mul_le_mul (Nat.lt_succ_iff.1 hp1) (Nat.lt_succ_iff.1 hq1)
      have hmod : (val + p.toNat * q.toNat) % 2 ^ 32 = val + p.toNat * q.toNat := Nat.mod_eq_of_lt (by omega)
      have hrest := ih (y + 1) (val + p.toNat * q.toNat) (by omega) (by omega) (by omega)
      have hfirst : place a (a.length - (x + 1)) * place b (k - (a.length - (x + 1))) = p.toNat * q.toNat := by
        rw [hpa, hqb]
        congr 2 <;> omega
      rw [Finset.sum_eq_sum_Ico_succ_bot (by omega), hfirst, ← Nat.add_assoc,
        show a.length - (x + 1) + 1 = a.length - x by omega]
      simp only [mul_column, if_pos hlt, ok_bind]
      refine ⟨p, hp, q, hq, ?_⟩
      rw [hmod]
      exact hrest
    · rw [Finset.Ico_eq_empty (by omega)]
      simp [mul_column, hlt]

/-- What the loops of `big_mul` keep: `k` digits are out, and the rest of the columns so far is in `val`. -/
structure Columns (a b : Bytes) (k val : Nat) (out : Bytes) : Prop where
  length : out.length = k
  small : val ≤ 10000
  sum : beNat out + val * 256 ^ k = ∑ j ∈ Finset.range k, column a b j * 256 ^ j

theorem Columns.put {val : Nat} {out : Bytes} (h : Columns a b k val out) (ha : a.length ≤ 32) :
    Columns a b (k + 1) ((val + column a b k) / 256) (UInt8.ofNat ((val + column a b k) % 256) :: out) where
  length := by rw [length_cons, h.length]
  small := by
    have hcol := column_le a b k
    have hval := h.small
    omega
  sum := by
    have hdm := Nat.div_add_mod (val + column a b k) 256
    have hsum := h.sum
    rw [beNat_cons, h.length, toNat_ofNat_mod, Finset.sum_range_succ, ← hsum]
    generalize (val + column a b k) % 256 = lo at hdm ⊢
    generalize (val + column a b k) / 256 = hi at hdm ⊢
    calc lo * 256 ^ k + beNat out + hi * 256 ^ (k + 1) = beNat out + (256 * hi + lo) * 256 ^ k := by ring
      _ = beNat out + val * 256 ^ k + column a b k * 256 ^ k := by
        rw [hdm]
        ring

theorem ok_put {i : Int} {val : Nat} {out r : Bytes} :
    ok (put i val out) r ↔ (1 ≤ i ∧ i ≤ 66) ∧ UInt8.ofNat (val % 256) :: out = r := by
  unfold put
  simp only [ok_bind, ok_guard, ok_pure]
  constructor
  · rintro ⟨-, hi, hr⟩
    exact ⟨by omega, hr⟩
  · rintro ⟨hi, hr⟩
    exact ⟨(), by omega, hr⟩

theorem mul_low_ok (ha : a.length ≤ 32) (hb : b.length ≤ 32) (ys k val : Nat) (out : Bytes)
    (hk : ys + k = b.length) (h : Columns a b k val out) :
    ∃ val' out', ok (mul_low a b ys (a.length + b.length - k) val out) ((a.length : Int), val', out') ∧
      Columns a b b.length val' out' := by
  induction ys generalizing k val out with
  | zero =>
    obtain rfl : k = b.length := by omega
    exact ⟨val, out, by simp [mul_low], h⟩
  | succ ys ih =>
    have hsmall := h.small
    have hcol := mul_column_ok (a := a) (b := b) (k := k) a.length ys val (le_refl _) (by omega) (by omega)
    rw [Nat.sub_self, ← Finset.range_eq_Ico] at hcol
    obtain ⟨val', out', hrest, hc⟩ := ih (k + 1) _ _ (by omega) (h.put ha)
    refine ⟨val', out', ?_, hc⟩
    simp only [mul_low, ok_bind, ok_put]
    refine ⟨_, hcol, _, ⟨by omega, rfl⟩, ?_⟩
    rw [show (a.length + b.length - k - 1 : Int) = a.length + b.length - (k + 1 : Nat) by omega]
    exact hrest

theorem mul_high_ok (ha : a.length ≤ 32) (xs k val : Nat) (out : Bytes)
    (hk : xs + 1 + k = a.length + b.length) (hx : xs + 1 ≤ a.length) (h : Columns a b k val out) :
    ∃ val' out', ok (mul_high a b xs (xs + 1 : Nat) val out) (1, val', out') ∧
      Columns a b (a.length + b.length - 1) val' out' := by
  induction xs generalizing k val out with
  | zero =>
    obtain rfl : k = a.length + b.length - 1 := by omega
    exact ⟨val, out, by simp [mul_high], h⟩
  | succ xs ih =>
    have hsmall := h.small
    have hcol := mul_column_ok (a := a) (b := b) (k := k) (xs + 1) 0 val (by omega) (by omega) (by omega)
    -- the pairs of the column that are left out have no second digit
    have hall : ∑ i ∈ Finset.Ico (a.length - (xs + 1)) (k + 1), place a i * place b (k - i) = column a b k := by
      unfold column
      rw [Finset.range_eq_Ico]
      refine Finset.sum_subset (Finset.Ico_subset_Ico_left (by omega)) fun i hi hnot => ?_
      rw [Finset.mem_Ico] at hi hnot
      rw [place_of_le (b := b) (by omega), Nat.mul_zero]
    rw [hall] at hcol
    obtain ⟨val', out', hrest, hc⟩ := ih (k + 1) _ _ (by omega) (by omega) (h.put ha)
    refine ⟨val', out', ?_, hc⟩
    simp only [mul_high, ok_bind, ok_put]
    refine ⟨_, hcol, _, ⟨by omega, rfl⟩, ?_⟩
    rw [show ((xs + 1 + 1 : Nat) - 1 : Int) = (xs + 1 : Nat) by omega]
    exact hrest

theorem mul_digits_ok (ha : a.length ≤ 32) (hb : b.length ≤ 32) (hpos : 0 < a.length) :
    ∃ i val out i' val' out' r, ok (mul_low a b b.length (a.length + b.length) 0 []) (i, val, out) ∧
      ok (mul_high a b (a.length - 1) i val out) (i', val', out') ∧ ok (put i' val' out') r ∧
      r.length = a.length + b.length ∧ beNat r = beNat a * beNat b := by
  have hstart : Columns a b 0 0 [] := ⟨rfl, by omega, by simp⟩
  obtain ⟨val, out, hlow, hc⟩ := mul_low_ok ha hb b.length 0 0 [] (by omega) hstart
  obtain ⟨val', out', hhigh, hc'⟩ := mul_high_ok ha (a.length - 1) b.length val out (by omega) (by omega) hc
  have hlast := hc'.put ha
  have hzero : column a b (a.length + b.length - 1) = 0 := column_of_le (by omega)
  have hlen : a.length + b.length - 1 + 1 = a.length + b.length := by omega
  simp only [hzero, Nat.add_zero, hlen] at hlast
  refine ⟨a.length, val, out, 1, val', out', _, by simpa using hlow, ?_, ok_put.2 ⟨by omega, rfl⟩, hlast.length, ?_⟩
  · rw [show a.length - 1 + 1 = a.length by omega] at hhigh
    exact hhigh
  · -- nothing is left in the carry, since the product has no more digits
    have hsum := hlast.sum
    rw [← beNat_mul] at hsum
    have hlt : beNat a * beNat b < 256 ^ (a.length + b.length) := by
      rw [pow_add]
      exact Nat.mul_lt_mul'' (beNat_lt a) (beNat_lt b)
    have hcarry : val' / 256 = 0 := by
      by_contra hne
      have := Nat.le_mul_of_pos_left (256 ^ (a.length + b.length)) (Nat.pos_of_ne_zero hne)
      omega
    rw [hcarry, Nat.zero_mul] at hsum
    exact hsum

theorem optimize_len_eq_nil : optimize_len b = [] ↔ b = [] := by
  constructor
  · intro h
    by_contra hne
    exact stripZeros_ne_nil hne h
  · rintro rfl
    rfl

theorem length_optimize_len_le (hk : 0 < k) (h : beNat b < 256 ^ k) :
    (optimize_len b).length ≤ k := by
  by_cases hb : b = []
  · simp [hb, optimize_len, stripZeros]
  · obtain ⟨x, t, hs, hx⟩ := stripZeros_cases hb
    rw [optimize_len, hs, length_cons]
    by_contra hlt
    have hx0 : x ≠ 0 := by
      intro h0
      rw [hx h0] at hlt
      exact hlt hk
    have hle := le_beNat_cons (b := t) hx0
    rw [← hs, beNat_stripZeros] at hle
    have hpow : 256 ^ k ≤ 256 ^ t.length := Nat.pow_le_pow_right (by norm_num) (by omega)
    omega

theorem lt_of_length_optimize_len (h : (optimize_len b).length ≤ k) : beNat b < 256 ^ k := by
  have hlt := beNat_lt (optimize_len b)
  rw [optimize_len, beNat_stripZeros] at hlt
  exact lt_of_lt_of_le hlt (Nat.pow_le_pow_right (by norm_num) h)

theorem big_mul_ok (ha : a.length ≤ 32) (hb : b.length ≤ 32) (h8 : 8 ≤ max)
    (hsize : max ≤ size) (h : a = [] → beNat b < 2 ^ 64) :
    ∃ r, ok (big_mul a b size max) r ∧ r.length ≤ max ∧ 0 < r.length ∧
      beNat r = beNat a * beNat b % 256 ^ max := by
  unfold big_mul
  obtain ⟨hla, hna⟩ := optimize_len_word ha
  obtain ⟨hlb, hnb⟩ := optimize_len_word hb
  have hempty : (optimize_len a).length = 0 → (optimize_len b).length ≤ 8 := by
    intro h0
    exact length_optimize_len_le (by norm_num) (h (optimize_len_eq_nil.1 (length_eq_zero_iff.1 h0)))
  generalize optimize_len a = a' at *
  generalize optimize_len b = b' at *
  simp only []
  by_cases hshort : a'.length + b'.length < 9
  · -- the product of two machine words
    have hlt : beNat a' * beNat b' < 2 ^ 64 := by
      have hpow : 256 ^ (a'.length + b'.length) ≤ 256 ^ 8 := Nat.pow_le_pow_right (by norm_num) (by omega)
      rw [pow_add] at hpow
      calc beNat a' * beNat b' < 256 ^ a'.length * 256 ^ b'.length := Nat.mul_lt_mul'' (beNat_lt a') (beNat_lt b')
        _ ≤ 256 ^ 8 := hpow
        _ = 2 ^ 64 := by norm_num
    have hlong : ∀ c : Bytes, c.length ≤ 8 → bytes_to_long c = beNat c := by
      intro c hc
      unfold bytes_to_long
      rw [show c.length - 8 = 0 by omega, drop_zero]
    have hp := length_stripZeros_le (long_to_bytes (beNat a' * beNat b'))
    rw [long_to_bytes, length_beFix] at hp
    have hne : optimize_len (long_to_bytes (beNat a' * beNat b')) ≠ [] := by
      intro hnil
      have := congrArg List.length (optimize_len_eq_nil.1 hnil)
      simp [long_to_bytes] at this
    refine ⟨optimize_len (long_to_bytes (beNat a' * beNat b')), ?_, ?_, length_pos_iff.2 hne, ?_⟩
    · rw [if_pos hshort, hlong a' (by omega), hlong b' (by omega), Nat.mod_eq_of_lt hlt]
      simp only [ok_bind, ok_guard, ok_pure]
      exact ⟨(), by unfold optimize_len long_to_bytes; omega, trivial⟩
    · unfold optimize_len long_to_bytes
      omega
    · have hmax : 256 ^ 8 ≤ 256 ^ max := Nat.pow_le_pow_right (by norm_num) h8
      rw [optimize_len, beNat_stripZeros, long_to_bytes, beNat_beFix, ← hna, ← hnb, Nat.mod_eq_of_lt (by omega),
        Nat.mod_eq_of_lt (by omega)]
  · obtain ⟨i, val, out, i', val', out', r, hlow, hhigh, hput, hlen, hnum⟩ := mul_digits_ok hla hlb (by omega)
    have hnr : beNat (optimize_len r) = beNat a * beNat b := by
      rw [optimize_len, beNat_stripZeros, hnum, hna, hnb]
    have hpos : 0 < (optimize_len r).length := by
      rw [length_pos_iff, ne_eq, optimize_len_eq_nil, ← length_eq_zero_iff]
      omega
    refine ⟨if max < (optimize_len r).length then (optimize_len r).drop ((optimize_len r).length - max)
      else optimize_len r, ?_, ?_, ?_, ?_⟩
    · rw [if_neg hshort]
      simp only [ok_bind]
      refine ⟨_, hlow, _, hhigh, r, hput, ?_⟩
      rw [← hlen, take_length]
      simp only [ok_guard, ok_pure]
      refine ⟨(), ?_, trivial⟩
      split
      · rw [length_drop]
        omega
      · omega
    · split
      · rw [length_drop]
        omega
      · omega
    · split
      · rw [length_drop]
        omega
      · exact hpos
    · split
      · next hlt => rw [beNat_drop_mod (le_of_lt hlt), hnr]
      · next hge =>
        rw [← hnr, Nat.mod_eq_of_lt (beNat_lt_of_le (by omega))]

/-- An empty first factor and a second one of nine bytes or more: `out[-1]` is written. -/
theorem big_mul_empty (hb : b.length ≤ 32) (h : 2 ^ 64 ≤ beNat b) (r : Bytes) :
    ¬ ok (big_mul [] b size max) r := by
  have hlb : (optimize_len b).length ≤ 32 := (length_stripZeros_le b).trans hb
  have h9 : 8 < (optimize_len b).length := by
    by_contra hle
    have := lt_of_length_optimize_len (b := b) (k := 8) (by omega)
    omega
  have hnil : optimize_len [] = [] := rfl
  unfold big_mul
  rw [hnil]
  simp only [length_nil, Nat.zero_add, if_neg (show ¬ (optimize_len b).length < 9 by omega), ok_bind]
  rintro ⟨⟨i, val, out⟩, hlow, ⟨i', val', out'⟩, hhigh, s, hput, -⟩
  -- all columns are empty, and the first loop ends at the start of the buffer
  have hstart : Columns [] (optimize_len b) 0 0 [] := ⟨rfl, by omega, by simp⟩
  obtain ⟨v, o, hlow', -⟩ := mul_low_ok (a := []) (by simp) hlb (optimize_len b).length 0 0 [] (by omega) hstart
  have heq := ok_unique (by simpa using hlow) (by simpa using hlow')
  simp only [Prod.mk.injEq] at heq
  rw [mul_high, ok_pure, Prod.mk.injEq] at hhigh
  rw [ok_put] at hput
  omega

end In3.Evm
