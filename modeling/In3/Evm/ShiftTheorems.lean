import In3.Evm.BitTheorems
/-!
# Sign extension and shifts

SIGNEXTEND copies the `k + 1` last bytes of a number from a buffer that starts with the number: it
needs that many bytes. The shifts work on a word of 32 bytes, first by bits with a carry and then by
whole bytes; an arithmetic shift sets the bits above the old sign afterwards.
-/
open Lib List

namespace In3.Evm

/-! ## Sign extension -/

/-- The bits above bit `8 k + 7` replaced by that bit. -/
def signextendWord (k x : Nat) : Nat :=
  if k < 31 then
    if x.testBit (8 * k + 7) then x % 256 ^ (k + 1) + (2 ^ 256 - 256 ^ (k + 1)) else x % 256 ^ (k + 1)
  else x

theorem place_bit (b : Bytes) (k : Nat) : 128 ≤ place b k ↔ (beNat b).testBit (8 * k + 7) = true := by
  have hpow : (2 : Nat) ^ (8 * k + 7) = 256 ^ k * 128 := by
    rw [pow_add, ← pow_256_eq]
    norm_num
  rw [place_eq_div_mod, Nat.testBit_eq_decide_div_mod_eq, decide_eq_true_eq, hpow, ← Nat.div_div_eq_div_mul]
  omega

variable {a b val : Bytes} {bits k : Nat}

theorem signextend_word_ok {r : Bytes} (hval : val.length ≤ 32) (hk : k ≤ 31) :
    Guarded.ok (signextend_word k val) r →
      k < val.length ∧ r.length = 32 ∧ beNat r = signextendWord k (beNat val) := by
  unfold signextend_word
  simp only [Guarded.ok_bind, Guarded.ok_guard, Guarded.ok_pure]
  rintro ⟨-, hlen, rfl⟩
  have hcopy : ((val ++ replicate (32 - val.length) 0).drop (val.length - k - 1)).take (k + 1) =
      val.drop (val.length - (k + 1)) := by
    have hd : (val.drop (val.length - k - 1)).length = k + 1 := by
      rw [length_drop]
      omega
    rw [drop_append_of_le_length (by omega), take_append_of_le_length (by omega),
      take_of_length_le (by omega), Nat.sub_sub]
  have hlow := beNat_drop_mod hlen
  have hdrop : (val.drop (val.length - (k + 1))).length = k + 1 := by
    rw [length_drop]
    omega
  refine ⟨by omega, ?_, ?_⟩
  · rw [hcopy, length_append, length_replicate]
    omega
  · -- the fill is the first bit of the last byte that is copied
    have hbit : (k < val.length ∧ val.getD (val.length - k - 1) 0 &&& 128 ≠ 0) ↔
        (beNat val).testBit (8 * k + 7) = true := by
      have hplace := getD_toNat_eq_place (show val.length - k - 1 < val.length by omega)
      rw [show val.length - 1 - (val.length - k - 1) = k by omega] at hplace
      rw [← place_bit, ne_eq, and_128_eq_zero]
      omega
    rw [hcopy, beNat_append, hlow, hdrop]
    unfold signextendWord
    by_cases h31 : k < 31
    · rw [if_pos h31]
      by_cases hset : (beNat val).testBit (8 * k + 7) = true
      · have hones := beNat_replicate_255 (31 - k)
        have hpow : 256 ^ (31 - k) * 256 ^ (k + 1) = 2 ^ 256 := by
          rw [← pow_add, pow_word]
          congr 1
          omega
        have hmul : beNat (replicate (31 - k) 0xFF) * 256 ^ (k + 1) + 256 ^ (k + 1) = 2 ^ 256 := by
          rw [← hpow, ← hones]
          ring
        rw [if_pos (hbit.2 hset), if_pos hset]
        omega
      · rw [if_neg (mt hbit.1 hset), if_neg hset, beNat_replicate_zero]
        omega
    · have hlt := beNat_lt_of_le hval
      rw [if_neg h31, show 31 - k = 0 by omega, replicate_zero, beNat_nil, Nat.zero_mul, Nat.zero_add,
        Nat.mod_eq_of_lt (lt_of_lt_of_le hlt (Nat.pow_le_pow_right (by norm_num) (by omega)))]

theorem signextend_word_iff : (∃ r, Guarded.ok (signextend_word k val) r) ↔ k < val.length := by
  unfold signextend_word
  simp only [Guarded.ok_bind, Guarded.ok_guard]
  constructor
  · omega
  · intro h
    exact ⟨_, (), by omega, rfl⟩

section
variable {vm : Vm} {a b : Bytes} {rest : List Bytes}

/-- SIGNEXTEND is right for `k` above 31 and for a number of more than `k` bytes. Other numbers are read in front of
their buffer. -/
theorem signextend_iff (h : vm.evm.stack.entries = a :: b :: rest) :
    Pushes op_signextend vm rest (signextendWord (beNat a) (beNat b)) ↔ 31 < beNat a ∨ beNat a < b.length := by
  obtain ⟨-, hb, hcount⟩ := two_entries h
  have hlim : MEM_LIMIT = 2 ^ 28 - 1 := rfl
  obtain ⟨s, hs, hint⟩ := pop_int_bind h
  obtain ⟨t, ht, hpop⟩ := pop_ref_bind (show (vm.withStack s).evm.stack.entries = b :: rest from hs)
  unfold Pushes op_signextend
  simp only [hint]
  by_cases hbig : 31 < beNat a
  · -- the number stays where it is
    have hmin : 31 < min (beNat a) MEM_LIMIT := by omega
    simp only [hbig, true_or, iff_true, hmin]
    refine ⟨s, Machine.ends_pure.2 ⟨rfl, rfl⟩, b, hs, ?_⟩
    rw [signextendWord, if_neg (by omega)]
  · have hmin : min (beNat a) MEM_LIMIT = beNat a := by omega
    simp only [hmin, hbig, false_or, if_false, hpop, Machine.ends_bind_ok, ends_checked_ok]
    rw [← signextend_word_iff]
    constructor
    · rintro ⟨_, ⟨r, _, ⟨hr, -⟩, -⟩, -⟩
      exact ⟨r, hr⟩
    · rintro ⟨r, hr⟩
      obtain ⟨-, hlen, hval⟩ := signextend_word_ok hb (by omega) hr
      obtain ⟨u, hu, hentries⟩ := push_ends vm (optimize_len r) ht hcount ((length_stripZeros_le r).trans (by omega))
      refine ⟨u, ⟨r, _, ⟨hr, rfl⟩, hu⟩, _, hentries, ?_⟩
      rw [optimize_len, beNat_stripZeros, hval]

theorem signextend_one_byte :
    Pushes op_signextend (Vm.ofStack ⟨[[0], [128]], [], by decide, by decide⟩) []
      (signextendWord (beNat [0]) (beNat [128])) :=
  (signextend_iff rfl).2 (by decide)

/-- The two last bytes of an entry of one byte. -/
theorem signextend_short_faults :
    Machine.faults op_signextend (Vm.ofStack ⟨[[1], [5]], [], by decide, by decide⟩) (.read (-1) 32) := by
  decide

end

/-! ## Shifts by bits -/

variable {n r x : Nat}

theorem or_shiftLeft {c : Nat} (h : c < 2 ^ r) : c ||| x <<< r = x * 2 ^ r + c := by
  rw [Nat.shiftLeft_eq, Nat.or_comm, Nat.mul_comm, Nat.two_pow_add_eq_or_of_lt h]

theorem shift_left_bits_eq (r : Nat) (a : Bytes) :
    (shift_left_bits r a).1.length = a.length ∧ (shift_left_bits r a).2 < 2 ^ r ∧
      beNat (shift_left_bits r a).1 + (shift_left_bits r a).2 * 256 ^ a.length = beNat a * 2 ^ r := by
  induction a with
  | nil => exact ⟨rfl, Nat.pow_pos (by norm_num), by simp [shift_left_bits]⟩
  | cons x a ih =>
    obtain ⟨hlen, hc, hsum⟩ := ih
    have hstep : shift_left_bits r (x :: a) = (UInt8.ofNat (((shift_left_bits r a).2 ||| x.toNat <<< r) % 256) ::
        (shift_left_bits r a).1, ((shift_left_bits r a).2 ||| x.toNat <<< r) / 256) := rfl
    have hx := x.toNat_lt
    rw [hstep, or_shiftLeft hc]
    generalize (shift_left_bits r a).1 = out at *
    generalize (shift_left_bits r a).2 = c at *
    have hdm := Nat.div_add_mod (x.toNat * 2 ^ r + c) 256
    refine ⟨by simp [hlen], ?_, ?_⟩
    · have hmul := Nat.mul_le_mul_right (2 ^ r) (show x.toNat ≤ 255 by omega)
      omega
    · simp only [beNat_cons, toNat_ofNat_mod, hlen]
      generalize (x.toNat * 2 ^ r + c) % 256 = lo at *
      generalize (x.toNat * 2 ^ r + c) / 256 = hi at *
      calc lo * 256 ^ a.length + beNat out + hi * 256 ^ (a.length + 1)
          = (256 * hi + lo) * 256 ^ a.length + beNat out := by ring
        _ = x.toNat * 2 ^ r * 256 ^ a.length + (beNat out + c * 256 ^ a.length) := by
          rw [hdm]
          ring
        _ = (x.toNat * 256 ^ a.length + beNat a) * 2 ^ r := by
          rw [hsum]
          ring

/-- The lower 16 bits of the carry with the next byte: `rem` are the bits that fell off before. -/
theorem carry_mod {carry rem : Nat} (hr : r ≤ 8) (hx : x < 256) (hcarry : carry % 2 ^ 16 = rem * 2 ^ (16 - r)) :
    (carry ||| x <<< (8 - r)) % 2 ^ 16 = (rem * 256 + x) * 2 ^ (8 - r) := by
  have h16 : (2 : Nat) ^ (16 - r) = 2 ^ (8 - r) * 256 := by
    rw [show 16 - r = 8 - r + 8 by omega, pow_add]
    norm_num
  have hlow : x * 2 ^ (8 - r) < 2 ^ (16 - r) := by
    rw [h16, Nat.mul_comm]
    exact Nat.mul_lt_mul_of_pos_left hx (Nat.pow_pos (by norm_num))
  have hle : (2 : Nat) ^ (16 - r) ≤ 2 ^ 16 := Nat.pow_le_pow_right (by norm_num) (by omega)
  rw [Nat.or_mod_two_pow, hcarry, Nat.shiftLeft_eq, Nat.mod_eq_of_lt (lt_of_lt_of_le hlow hle), Nat.mul_comm rem,
    ← Nat.two_pow_add_eq_or_of_lt hlow, h16]
  ring

theorem shift_right_bits_eq (hr : r ≤ 8) (a : Bytes) (carry rem : Nat) (hrem : rem < 2 ^ r)
    (hcarry : carry % 2 ^ 16 = rem * 2 ^ (16 - r)) :
    (shift_right_bits r carry a).length = a.length ∧
      beNat (shift_right_bits r carry a) = (rem * 256 ^ a.length + beNat a) / 2 ^ r := by
  induction a generalizing carry rem with
  | nil =>
    refine ⟨rfl, ?_⟩
    simp [shift_right_bits, Nat.div_eq_of_lt hrem]
  | cons x a ih =>
    have hx := x.toNat_lt
    have hmod := carry_mod hr hx hcarry
    have h8 : (256 : Nat) = 2 ^ (8 - r) * 2 ^ r := by
      rw [← pow_add, show 8 - r + r = 8 by omega]
      norm_num
    have hpos : 0 < 2 ^ (8 - r) := Nat.pow_pos (by norm_num)
    have hrpos : 0 < 2 ^ r := Nat.pow_pos (by norm_num)
    generalize hv : carry ||| x.toNat <<< (8 - r) = v at hmod
    generalize ht : rem * 256 + x.toNat = t at hmod
    -- the digit of this round and the bits that fall off
    have hdigit : v / 256 % 256 = t / 2 ^ r := by
      have h1 : v / 256 % 256 = v % 2 ^ 16 / 256 := by omega
      rw [h1, hmod, h8, Nat.mul_comm t, Nat.mul_div_mul_left _ _ hpos]
    have hnext : v * 256 % 2 ^ 64 % 2 ^ 16 = t % 2 ^ r * 2 ^ (16 - r) := by
      have h1 : v * 256 % 2 ^ 64 % 2 ^ 16 = v % 2 ^ 16 % 256 * 256 := by omega
      have h2 : t * 2 ^ (8 - r) % 256 = 2 ^ (8 - r) * (t % 2 ^ r) := by
        conv_lhs => rw [h8, Nat.mul_comm t, Nat.mul_mod_mul_left]
      rw [h1, hmod, h2, show 16 - r = 8 - r + 8 by omega, pow_add]
      ring
    obtain ⟨hlen, hval⟩ := ih (v * 256 % 2 ^ 64) (t % 2 ^ r) (Nat.mod_lt t hrpos) hnext
    have htlt : t / 2 ^ r < 256 := by
      rw [Nat.div_lt_iff_lt_mul hrpos]
      have := Nat.mul_le_mul_right 256 (Nat.succ_le_of_lt hrem)
      omega
    simp only [shift_right_bits, hv, hdigit]
    refine ⟨by rw [length_cons, hlen, length_cons], ?_⟩
    have hd : (UInt8.ofNat (t / 2 ^ r)).toNat = t / 2 ^ r := by
      rw [UInt8.toNat_ofNat']
      exact Nat.mod_eq_of_lt (by simpa using htlt)
    have hsum : rem * 256 ^ (x :: a).length + beNat (x :: a) =
        2 ^ r * (t / 2 ^ r * 256 ^ a.length) + (t % 2 ^ r * 256 ^ a.length + beNat a) := by
      have hdm := Nat.div_add_mod t (2 ^ r)
      calc rem * 256 ^ (x :: a).length + beNat (x :: a) = t * 256 ^ a.length + beNat a := by
            rw [beNat_cons, length_cons, pow_succ, ← ht]
            ring
        _ = (2 ^ r * (t / 2 ^ r) + t % 2 ^ r) * 256 ^ a.length + beNat a := by rw [hdm]
        _ = _ := by ring
    rw [beNat_cons, hd, hlen, hval, hsum, Nat.mul_add_div hrpos]

/-! ## Shifts by bytes -/

theorem map_shift_left (a : Bytes) (h : r ≤ a.length) :
    ((range a.length).map fun i => if i + r < a.length then a.getD (i + r) 0 else 0) =
      a.drop r ++ replicate r 0 := by
  apply ext_getElem
  · simp
    omega
  · intro i hi _
    rw [getElem_map, getElem_range, getElem_append]
    by_cases hin : i + r < a.length
    · have hd : i < (a.drop r).length := by rw [length_drop]; omega
      rw [if_pos hin, dif_pos hd, getElem_drop, getD_eq_getElem?_getD,
        List.getElem?_eq_getElem hin, Option.getD_some]
      congr 1
      omega
    · have hd : ¬ i < (a.drop r).length := by rw [length_drop]; omega
      rw [if_neg hin, dif_neg hd, getElem_replicate]

theorem map_shift_right (a : Bytes) (h : r ≤ a.length) :
    ((range a.length).map fun i => if r ≤ i then a.getD (i - r) 0 else 0) =
      replicate r 0 ++ a.take (a.length - r) := by
  apply ext_getElem
  · simp
    omega
  · intro i hi _
    have hlt : i < a.length := by simpa using hi
    rw [getElem_map, getElem_range, getElem_append]
    by_cases hin : r ≤ i
    · have hd : ¬ i < (replicate r (0 : UInt8)).length := by rw [length_replicate]; omega
      have hir : i - r < a.length := by omega
      rw [if_pos hin, dif_neg hd, getD_eq_getElem?_getD,
        List.getElem?_eq_getElem hir]
      simp
    · have hd : i < (replicate r (0 : UInt8)).length := by rw [length_replicate]; omega
      rw [if_neg hin, dif_pos hd, getElem_replicate]

theorem pow_bits (bits : Nat) : 2 ^ bits = 2 ^ (bits % 8) * 256 ^ (bits / 8) := by
  rw [pow_256_eq, ← pow_add]
  congr 1
  omega

theorem big_shift_left_eq (h : bits / 8 ≤ a.length) :
    (big_shift_left a bits).length = a.length ∧
      beNat (big_shift_left a bits) = beNat a * 2 ^ bits % 256 ^ a.length := by
  have hq : (bits - bits % 8) / 8 = bits / 8 := by omega
  unfold big_shift_left
  simp only [hq]
  -- the bits first
  obtain ⟨a₁, ha₁, hlen, hval⟩ : ∃ a₁, (if bits % 8 = 0 then a else (shift_left_bits (bits % 8) a).1) = a₁ ∧
      a₁.length = a.length ∧ beNat a₁ = beNat a * 2 ^ (bits % 8) % 256 ^ a.length := by
    refine ⟨_, rfl, ?_⟩
    split
    · next h0 => exact ⟨rfl, by rw [h0, pow_zero, Nat.mul_one, Nat.mod_eq_of_lt (beNat_lt a)]⟩
    · obtain ⟨hl, -, hsum⟩ := shift_left_bits_eq (bits % 8) a
      have hlt := beNat_lt (shift_left_bits (bits % 8) a).1
      rw [hl] at hlt
      refine ⟨hl, ?_⟩
      rw [← hsum, Nat.add_mul_mod_self_right, Nat.mod_eq_of_lt hlt]
  rw [ha₁, pow_bits]
  by_cases h0 : bits / 8 = 0
  · rw [if_pos h0, h0, pow_zero, Nat.mul_one, hval, hlen]
    exact ⟨rfl, rfl⟩
  · have hle : bits / 8 ≤ a₁.length := by omega
    have hdrop := beNat_drop_mod (b := a₁) (m := a₁.length - bits / 8) (by omega)
    rw [show a₁.length - (a₁.length - bits / 8) = bits / 8 by omega] at hdrop
    have hpow : 256 ^ a₁.length = 256 ^ (a₁.length - bits / 8) * 256 ^ (bits / 8) := by
      rw [← pow_add]
      congr 1
      omega
    rw [if_neg h0, map_shift_left a₁ hle]
    refine ⟨by simp; omega, ?_⟩
    rw [beNat_append_zeros, hdrop, hval, ← hlen, ← Nat.mul_assoc, hpow, Nat.mul_mod_mul_right]
    congr 1
    exact Nat.mod_mod_of_dvd _ (Dvd.intro _ rfl)

theorem big_shift_right_eq (h : bits / 8 ≤ a.length) :
    (big_shift_right a bits).length = a.length ∧ beNat (big_shift_right a bits) = beNat a / 2 ^ bits := by
  have hq : (bits - bits % 8) / 8 = bits / 8 := by omega
  unfold big_shift_right
  simp only [hq]
  obtain ⟨a₁, ha₁, hlen, hval⟩ : ∃ a₁, (if bits % 8 = 0 then a else shift_right_bits (bits % 8) 0 a) = a₁ ∧
      a₁.length = a.length ∧ beNat a₁ = beNat a / 2 ^ (bits % 8) := by
    refine ⟨_, rfl, ?_⟩
    split
    · next h0 => exact ⟨rfl, by rw [h0, pow_zero, Nat.div_one]⟩
    · obtain ⟨hl, hv⟩ := shift_right_bits_eq (r := bits % 8) (by omega) a 0 0 (Nat.pow_pos (by norm_num)) (by simp)
      rw [Nat.zero_mul, Nat.zero_add] at hv
      exact ⟨hl, hv⟩
  rw [ha₁, ← hlen, pow_bits, ← Nat.div_div_eq_div_mul, ← hval]
  by_cases h0 : bits / 8 = 0
  · rw [h0, pow_zero, Nat.div_one]
    exact ⟨rfl, rfl⟩
  · have hle : bits / 8 ≤ a₁.length := by omega
    have hsplit := beNat_take_drop a₁ hle
    have hlt := beNat_lt (a₁.drop (a₁.length - bits / 8))
    rw [length_drop, show a₁.length - (a₁.length - bits / 8) = bits / 8 by omega] at hlt
    rw [if_neg h0, map_shift_right a₁ hle]
    refine ⟨by simp; omega, ?_⟩
    rw [beNat_zeros, hsplit, Nat.mul_comm, Nat.mul_add_div (pow_256_pos _), Nat.div_eq_of_lt hlt, Nat.add_zero]

/-! ## The operations -/

/-- The arithmetic shift of a two's complement word, rounded down. -/
def sarWord (x n : Nat) : Nat := wrap (2 ^ 256) (toSigned x / 2 ^ n)

def SHIFT.word : SHIFT → Nat → Nat → Nat
  | .SHL, x, n => x * 2 ^ n % 2 ^ 256
  | .SHR, x, n => x / 2 ^ n
  | .SAR, x, n => sarWord x n

theorem is_negative_iff (h : b.length ≤ 32) : is_negative b = true ↔ 2 ^ 255 ≤ beNat b := by
  unfold is_negative
  rw [decide_eq_true_eq]
  by_cases h32 : b.length = 32
  · have hread := readSigned_neg_iff b
    have hneg := centered_neg_iff (beNat_lt b)
    rw [readSigned, hneg, h32] at hread
    have hbit := and_128_eq_zero (b.headD 0)
    rw [ne_eq, hbit]
    omega
  · have hlt := beNat_lt_of_le (show b.length ≤ 31 by omega)
    omega

theorem or_mask {x : UInt8} {t : Nat} (ht : t < 8) (hx : x.toNat < 2 ^ (8 - t)) :
    (x ||| UInt8.ofNat ((0xFF >>> (8 - t)) <<< (8 - t))).toNat = x.toNat + (256 - 2 ^ (8 - t)) := by
  have hmask : ∀ t : Fin 8, (UInt8.ofNat ((0xFF >>> (8 - t.val)) <<< (8 - t.val))).toNat = 2 ^ (8 - t.val) * (2 ^ t.val - 1) ∧
      2 ^ (8 - t.val) * (2 ^ t.val - 1) = 256 - 2 ^ (8 - t.val) := by decide
  obtain ⟨hbits, hones⟩ := hmask ⟨t, ht⟩
  -- the mask has zeros where `x` has its bits
  rw [UInt8.toNat_or, hbits, Nat.or_comm, ← Nat.two_pow_add_eq_or_of_lt hx, hones, Nat.add_comm]

theorem beNat_fill_ones {res : Bytes} (hlen : res.length = 32) (hn : n < 256) (h : beNat res < 2 ^ (256 - n)) :
    (fill_ones res n).length = 32 ∧ beNat (fill_ones res n) = beNat res + (2 ^ 256 - 2 ^ (256 - n)) := by
  have hq : n / 8 < res.length := by omega
  have hdrop : (res.drop (n / 8 + 1)).length = 31 - n / 8 := by
    rw [length_drop]
    omega
  refine ⟨?_, ?_⟩
  · simp [fill_ones, hlen]
    omega
  -- the bytes in front, the byte with the old sign and the bytes behind it
  have hsplit : res = res.take (n / 8) ++ res.getD (n / 8) 0 :: res.drop (n / 8 + 1) := by
    rw [getD_eq_getElem?_getD, List.getElem?_eq_getElem hq, Option.getD_some, getElem_cons_drop,
      take_append_drop]
  have hval : beNat res = beNat (res.take (n / 8)) * 256 ^ (32 - n / 8) +
      ((res.getD (n / 8) 0).toNat * 256 ^ (31 - n / 8) + beNat (res.drop (n / 8 + 1))) := by
    conv_lhs => rw [hsplit]
    rw [beNat_append, beNat_cons, hdrop, length_cons, hdrop, show 31 - n / 8 + 1 = 32 - n / 8 by omega]
  have hones := beNat_replicate_255 (n / 8)
  have hpow : 256 ^ (n / 8) * 256 ^ (32 - n / 8) = 2 ^ 256 := by
    rw [← pow_add, pow_word]
    congr 1
    omega
  have hbyte : 256 * 256 ^ (31 - n / 8) = 256 ^ (32 - n / 8) := by
    rw [← pow_succ']
    congr 1
    omega
  have hbits : 2 ^ (8 - n % 8) * 256 ^ (31 - n / 8) = 2 ^ (256 - n) := by
    rw [pow_256_eq, ← pow_add]
    congr 1
    omega
  have h8 : 2 ^ (8 - n % 8) ≤ 2 ^ 8 := Nat.pow_le_pow_right (by norm_num) (by omega)
  have hfront : beNat (res.take (n / 8)) = 0 := by
    by_contra h0
    have h1 : 1 * 256 ^ (32 - n / 8) ≤ beNat (res.take (n / 8)) * 256 ^ (32 - n / 8) :=
      Nat.mul_le_mul_right _ (by omega)
    have h2 : 2 ^ (8 - n % 8) * 256 ^ (31 - n / 8) ≤ 2 ^ 8 * 256 ^ (31 - n / 8) := Nat.mul_le_mul_right _ h8
    omega
  have hsmall : (res.getD (n / 8) 0).toNat < 2 ^ (8 - n % 8) := by
    by_contra hge
    have h1 : 2 ^ (8 - n % 8) * 256 ^ (31 - n / 8) ≤ (res.getD (n / 8) 0).toNat * 256 ^ (31 - n / 8) :=
      Nat.mul_le_mul_right _ (by omega)
    omega
  have hmask := or_mask (Nat.mod_lt n (by norm_num)) hsmall
  have hsum : (256 - 2 ^ (8 - n % 8)) * 256 ^ (31 - n / 8) + 2 ^ (256 - n) = 256 ^ (32 - n / 8) := by
    rw [← hbits, ← Nat.add_mul, ← hbyte]
    congr 1
    omega
  have hfill : beNat (replicate (n / 8) (0xFF : UInt8)) * 256 ^ (32 - n / 8) + 256 ^ (32 - n / 8) = 2 ^ 256 := by
    rw [← hpow, ← hones]
    ring
  rw [fill_ones, beNat_append, beNat_cons, hdrop, length_cons, hdrop, show 31 - n / 8 + 1 = 32 - n / 8 by omega,
    hmask, hval, hfront, Nat.add_mul]
  omega

theorem sarWord_of_lt (h : x < 2 ^ 255) : sarWord x n = x / 2 ^ n := by
  have hx : toSigned x = x := if_pos (by omega)
  have hle : x / 2 ^ n ≤ x := Nat.div_le_self x _
  have hcast : (x : Int) / 2 ^ n = ((x / 2 ^ n : Nat) : Int) := by push_cast; rfl
  rw [sarWord, hx, hcast, wrap_natCast (by omega)]

theorem sarWord_of_le (h : 2 ^ 255 ≤ x) (hlt : x < 2 ^ 256) (hn : n < 256) :
    sarWord x n = x / 2 ^ n + (2 ^ 256 - 2 ^ (256 - n)) := by
  have hx : toSigned x = (x : Int) - 2 ^ 256 := if_neg (by omega)
  have hpow : (2 : Nat) ^ 256 = 2 ^ (256 - n) * 2 ^ n := by
    rw [← pow_add]
    congr 1
    omega
  have hdiv : x / 2 ^ n < 2 ^ (256 - n) := by
    rw [Nat.div_lt_iff_lt_mul (Nat.pow_pos (by norm_num)), ← hpow]
    exact hlt
  have hle : 2 ^ (256 - n) ≤ 2 ^ 256 := Nat.pow_le_pow_right (by norm_num) (by omega)
  -- `2 ^ 256` is a multiple of the divisor
  have hfloor : ((x : Int) - 2 ^ 256) / 2 ^ n = -((2 ^ (256 - n) - x / 2 ^ n : Nat) : Int) := by
    have hcast : (2 : Int) ^ 256 = 2 ^ (256 - n) * 2 ^ n := by exact_mod_cast hpow
    rw [hcast, Int.sub_mul_ediv_right _ _ (by positivity), Nat.cast_sub (le_of_lt hdiv)]
    push_cast
    ring
  have hpos : 0 < x / 2 ^ n :=
    Nat.div_pos ((Nat.pow_le_pow_right (by norm_num) (by omega : n ≤ 255)).trans h) (Nat.pow_pos (by norm_num))
  rw [sarWord, hx, hfloor]
  rw [wrap_neg (by omega)]
  omega

theorem sarWord_out (h : 2 ^ 255 ≤ x) (hlt : x < 2 ^ 256) (hn : 256 ≤ n) : sarWord x n = 2 ^ 256 - 1 := by
  have hx : toSigned x = (x : Int) - 2 ^ 256 := if_neg (by omega)
  have hle : 2 ^ 256 ≤ 2 ^ n := Nat.pow_le_pow_right (by norm_num) hn
  have hfloor : ((x : Int) - 2 ^ 256) / 2 ^ n = -((1 : Nat) : Int) := by
    have hcast : (2 : Int) ^ 256 ≤ 2 ^ n := by exact_mod_cast hle
    have hdiv : ((x : Int) - 2 ^ 256) / 2 ^ n = -1 := by
      rw [Int.ediv_eq_iff_of_pos (by positivity)]
      constructor
      · omega
      · omega
    exact hdiv
  rw [sarWord, hx, hfloor]
  rfl

def shift_result (op : SHIFT) (pos : Option UInt8) (b : Bytes) : Bytes :=
  match pos with
  | none => if op = .SAR ∧ is_negative b then replicate 32 0xFF else [0]
  | some pos =>
    match op with
    | .SHL => optimize_len (big_shift_left (padLeft 32 b) pos.toNat)
    | .SHR => optimize_len (big_shift_right (padLeft 32 b) pos.toNat)
    | .SAR =>
      if is_negative b then fill_ones (big_shift_right (padLeft 32 b) pos.toNat) pos.toNat
      else optimize_len (big_shift_right (padLeft 32 b) pos.toNat)

theorem shift_result_some (op : SHIFT) (pos : UInt8) (hb : b.length ≤ 32) :
    (shift_result op (some pos) b).length ≤ 32 ∧ beNat (shift_result op (some pos) b) = op.word (beNat b) pos.toNat := by
  have hpos := pos.toNat_lt
  have hpad := length_padLeft hb
  have hlt := beNat_lt_of_le hb
  obtain ⟨hllen, hlval⟩ := big_shift_left_eq (show pos.toNat / 8 ≤ (padLeft 32 b).length by omega)
  obtain ⟨hrlen, hrval⟩ := big_shift_right_eq (show pos.toNat / 8 ≤ (padLeft 32 b).length by omega)
  rw [hpad] at hllen hrlen hlval
  rw [beNat_padLeft] at hlval hrval
  have hopt : ∀ r : Bytes, r.length = 32 → (optimize_len r).length ≤ 32 := fun r hr =>
    (length_stripZeros_le r).trans (le_of_eq hr)
  cases op with
  | SHL =>
    refine ⟨hopt _ hllen, ?_⟩
    rw [shift_result, optimize_len, beNat_stripZeros, hlval, SHIFT.word, pow_word]
  | SHR =>
    refine ⟨hopt _ hrlen, ?_⟩
    rw [shift_result, optimize_len, beNat_stripZeros, hrval, SHIFT.word]
  | SAR =>
    by_cases hneg : is_negative b = true
    · have hge := (is_negative_iff hb).1 hneg
      have hpow : (2 : Nat) ^ 256 = 2 ^ (256 - pos.toNat) * 2 ^ pos.toNat := by
        rw [← pow_add]
        congr 1
        omega
      have hsmall : beNat (big_shift_right (padLeft 32 b) pos.toNat) < 2 ^ (256 - pos.toNat) := by
        rw [hrval, Nat.div_lt_iff_lt_mul (Nat.pow_pos (by norm_num)), ← hpow]
        exact hlt
      obtain ⟨hflen, hfval⟩ := beNat_fill_ones hrlen (by omega) hsmall
      simp only [shift_result, hneg, if_true, SHIFT.word]
      refine ⟨le_of_eq hflen, ?_⟩
      rw [hfval, hrval, sarWord_of_le hge (by rw [pow_word]; exact hlt) (by omega)]
    · have hnonneg := mt (is_negative_iff hb).2 hneg
      simp only [shift_result, hneg, SHIFT.word]
      refine ⟨hopt _ hrlen, ?_⟩
      rw [if_neg (by simp), optimize_len, beNat_stripZeros, hrval, sarWord_of_lt (by omega)]

theorem shift_result_none (op : SHIFT) (hb : b.length ≤ 32) :
    (shift_result op none b).length ≤ 32 ∧
      beNat (shift_result op none b) = if op = .SAR ∧ 2 ^ 255 ≤ beNat b then 2 ^ 256 - 1 else 0 := by
  have hiff : (op = .SAR ∧ is_negative b = true) ↔ (op = .SAR ∧ 2 ^ 255 ≤ beNat b) := and_congr_right fun _ => is_negative_iff hb
  simp only [shift_result, hiff]
  split
  · have hones := beNat_replicate_255 32
    refine ⟨by simp, ?_⟩
    omega
  · exact ⟨by simp, rfl⟩

theorem word_out (op : SHIFT) (hx : x < 2 ^ 256) (hn : 256 ≤ n) :
    op.word x n = if op = .SAR ∧ 2 ^ 255 ≤ x then 2 ^ 256 - 1 else 0 := by
  have hle : 2 ^ 256 ≤ 2 ^ n := Nat.pow_le_pow_right (by norm_num) hn
  have hzero : x / 2 ^ n = 0 := Nat.div_eq_of_lt (lt_of_lt_of_le hx hle)
  cases op with
  | SHL =>
    have hdvd : 2 ^ 256 ∣ x * 2 ^ n := Dvd.dvd.mul_left (Nat.pow_dvd_pow 2 hn) x
    rw [SHIFT.word, Nat.mod_eq_zero_of_dvd hdvd, if_neg (by simp)]
  | SHR => rw [SHIFT.word, hzero, if_neg (by simp)]
  | SAR =>
    rw [SHIFT.word]
    by_cases hneg : 2 ^ 255 ≤ x
    · rw [if_pos ⟨rfl, hneg⟩, sarWord_out hneg hx hn]
    · rw [if_neg (fun hc => hneg hc.2), sarWord_of_lt (by omega), hzero]

theorem word_zero (op : SHIFT) (hx : x < 2 ^ 256) : op.word x 0 = x := by
  cases op with
  | SHL => rw [SHIFT.word, pow_zero, Nat.mul_one, Nat.mod_eq_of_lt hx]
  | SHR => rw [SHIFT.word, pow_zero, Nat.div_one]
  | SAR =>
    rw [SHIFT.word]
    by_cases hneg : 2 ^ 255 ≤ x
    · rw [sarWord_of_le hneg hx (by norm_num), pow_zero]
      omega
    · rw [sarWord_of_lt (by omega), pow_zero, Nat.div_one]

section
variable {vm : Vm} {a b : Bytes} {rest : List Bytes}

theorem op_shift_pushes (op : SHIFT) (h : vm.evm.stack.entries = a :: b :: rest)
    (hprop : vm.evm.properties.CONSTANTINOPL = true) : Pushes (op_shift op) vm rest
      (beNat (shift_result op (if a ≠ [] ∧ beNat a < 256 then some (UInt8.ofNat (beNat a)) else none) b)) := by
  obtain ⟨-, hb, hcount⟩ := two_entries h
  obtain ⟨s, hs, hbyte⟩ := pop_byte_bind h
  obtain ⟨t, ht, hpop⟩ := pop_ref_bind (show (vm.withStack s).evm.stack.entries = b :: rest from hs)
  have hpush : ∀ r : Bytes, r.length ≤ 32 → ∃ u, Machine.ends (evm_stack_push r) (vm.withStack t) (.ok ()) (vm.withStack u) ∧
      u.entries = r :: rest := fun r hr => push_ends vm r ht hcount hr
  unfold Pushes op_shift
  simp only [ends_getEvm_bind, hprop, not_true_eq_false, if_false, hbyte, hpop]
  generalize (if a ≠ [] ∧ beNat a < 256 then some (UInt8.ofNat (beNat a)) else none : Option UInt8) = pos
  have hlen : (shift_result op pos b).length ≤ 32 := by
    cases pos with
    | none => exact (shift_result_none op hb).1
    | some pos => exact (shift_result_some op pos hb).1
  obtain ⟨u, hu, hentries⟩ := hpush _ hlen
  refine ⟨u, ?_, _, hentries, rfl⟩
  cases pos with
  | none =>
    rw [shift_result, apply_ite evm_stack_push] at hu
    exact hu
  | some pos =>
    cases op with
    | SHL => exact hu
    | SHR => exact hu
    | SAR =>
      simp only [shift_result] at hu
      rw [apply_ite evm_stack_push] at hu
      exact hu

/-- The shifts are there from Constantinople on. An amount of no bytes is taken for one out of range, which is right for
a word that such a shift does not change. -/
theorem shift_iff (h : vm.evm.stack.entries = a :: b :: rest) (op : SHIFT) :
    Pushes (op_shift op) vm rest (op.word (beNat b) (beNat a)) ↔
      vm.evm.properties.CONSTANTINOPL = true ∧ (a ≠ [] ∨ beNat b = 0 ∨ op = .SAR ∧ beNat b = 2 ^ 256 - 1) := by
  have hb := (two_entries h).2.1
  have hlt := beNat_lt_word hb
  by_cases hprop : vm.evm.properties.CONSTANTINOPL = true
  · rw [(op_shift_pushes op h hprop).iff]
    simp only [hprop, true_and]
    by_cases ha : a = []
    · -- the word itself is expected
      subst ha
      have hnone := (shift_result_none op hb).2
      simp only [ne_eq, not_true_eq_false, false_and, if_false, false_or, hnone, beNat_nil, word_zero op hlt]
      split
      · next hneg =>
        simp only [hneg.1, true_and]
        omega
      · next hneg =>
        constructor
        · intro h0
          exact .inl h0.symm
        · rintro (h0 | ⟨hop, hmax⟩)
          · exact h0.symm
          · exact absurd ⟨hop, by omega⟩ hneg
    · simp only [ne_eq, ha, not_false_eq_true, true_and, true_or, iff_true]
      by_cases h256 : beNat a < 256
      · have hpos : (UInt8.ofNat (beNat a)).toNat = beNat a := by
          rw [UInt8.toNat_ofNat']
          omega
        rw [if_pos h256, (shift_result_some op _ hb).2, hpos]
      · rw [if_neg h256, (shift_result_none op hb).2, word_out op hlt (by omega)]
  · refine ⟨?_, fun hc => absurd hc.1 hprop⟩
    rintro ⟨s, hs, -⟩
    unfold op_shift at hs
    rw [ends_getEvm_bind, if_pos hprop] at hs
    simp at hs

theorem sar_minus_four :
    Pushes (op_shift .SAR) (Vm.ofStack ⟨[[1], replicate 31 255 ++ [252]], [], by decide, by decide⟩) []
      (SHIFT.word .SAR (beNat (replicate 31 255 ++ [252])) (beNat [1])) :=
  (shift_iff rfl .SAR).2 (by decide)

/-- A shift of 5 by an amount without bytes leaves 0. -/
theorem shift_empty_amount :
    ¬ Pushes (op_shift .SHL) (Vm.ofStack ⟨[[], [5]], [], by decide, by decide⟩) [] (SHIFT.word .SHL 5 0) := by
  decide

end

end In3.Evm
