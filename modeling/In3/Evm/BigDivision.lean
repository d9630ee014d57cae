import In3.Evm.BigTheorems
import In3.Lib.Signed
/-!
# Quotients, remainders and signs of `big.c`

`big_divmod` chooses one of three ways by the lengths of its numbers; all of them are the division
of naturals. `big_div` and `big_mod` come down to it after they left zero bytes out. With the sign
flag, a number is read as the two's complement number of its own significant bytes
(`readSigned`), not as a word.
-/
open Lib Guarded List

namespace In3.Evm

/-! ## The shapes of a divisor -/

/-- A number without leading zeros: a first byte of zero is the only one. -/
def Optimized (b : Bytes) : Prop := ∀ x t, b = x :: t → x = 0 → t = []

theorem optimized_optimize_len (b : Bytes) : Optimized (optimize_len b) := by
  intro x t hxt hx
  have hb : b ≠ [] := by
    rintro rfl
    cases hxt
  obtain ⟨y, s, hs, h0⟩ := stripZeros_cases hb
  rw [optimize_len, hs] at hxt
  obtain ⟨rfl, rfl⟩ := List.cons.inj hxt
  exact h0 hx

variable {a b : Bytes} {n : Nat}

theorem Optimized.beNat_eq_zero (h : Optimized b) : beNat b = 0 ↔ b = [] ∨ b = [0] := by
  constructor
  · intro h0
    rcases b with _ | ⟨x, t⟩
    · exact .inl rfl
    · by_cases hx : x = 0
      · rw [h x t rfl hx, hx]
        exact .inr rfl
      · have hle := le_beNat_cons (b := t) hx
        have hpos := pow_256_pos t.length
        omega
  · rintro (rfl | rfl)
    · rfl
    · rfl

/-! ## Long division -/

theorem shift_or (ur : Nat) (x : UInt8) : ur * 256 ||| x.toNat = ur * 256 + x.toNat := by
  have h := Nat.two_pow_add_eq_or_of_lt (i := 8) x.toNat_lt ur
  rw [Nat.mul_comm ur 256, h]

/-- The remainder and the quotient after the bytes of `n`. The quotient does not start with zeros. -/
theorem div_loop_eq {ud : Nat} (hud : ud < 2 ^ 56) (n : Bytes) (ur : Nat) (q : Bytes) (hur : ur < ud) :
    ∃ q', div_loop ud n ur q = ((ur * 256 ^ n.length + beNat n) % ud, q') ∧
      beNat q' = beNat q * 256 ^ n.length + (ur * 256 ^ n.length + beNat n) / ud ∧
      q'.length ≤ q.length + n.length := by
  induction n generalizing ur q with
  | nil =>
    refine ⟨q, ?_, ?_, by simp⟩
    · simp [div_loop, Nat.mod_eq_of_lt hur]
    · simp [Nat.div_eq_of_lt hur]
  | cons x n ih =>
    have hx := x.toNat_lt
    have hsmall : (ur * 256 ||| x.toNat) % 2 ^ 64 = ur * 256 + x.toNat := by
      rw [shift_or]
      exact Nat.mod_eq_of_lt (by omega)
    have hall : ur * 256 ^ (x :: n).length + beNat (x :: n) = (ur * 256 + x.toNat) * 256 ^ n.length + beNat n := by
      rw [beNat_cons, length_cons]
      ring
    have hround : ur * 256 + x.toNat < ud * 256 := by omega
    rw [hall]
    simp only [div_loop, hsmall]
    generalize ur * 256 + x.toNat = t at *
    by_cases hlt : t < ud
    · obtain ⟨q', hloop, hq, hl⟩ := ih t (if q = [] then q else q ++ [0]) hlt
      rw [if_pos hlt]
      refine ⟨q', hloop, ?_, ?_⟩
      · have h0 : beNat (if q = [] then q else q ++ [0]) = beNat q * 256 := by
          split
          · next h => simp [h]
          · simp [beNat_concat]
        rw [hq, h0, length_cons]
        ring
      · split at hl
        · simp only [length_cons]
          omega
        · simp only [length_append, length_cons, length_nil] at hl ⊢
          omega
    · have hpos : 0 < ud := by omega
      have hdm := Nat.div_add_mod t ud
      have hdigit : t / ud < 256 := by
        rw [Nat.div_lt_iff_lt_mul hpos, Nat.mul_comm]
        exact hround
      obtain ⟨q', hloop, hq, hl⟩ := ih (t % ud) (q ++ [UInt8.ofNat (t / ud)]) (Nat.mod_lt t hpos)
      have hsplit : t * 256 ^ n.length + beNat n =
          ud * (t / ud * 256 ^ n.length) + (t % ud * 256 ^ n.length + beNat n) := by
        calc t * 256 ^ n.length + beNat n = (ud * (t / ud) + t % ud) * 256 ^ n.length + beNat n := by rw [hdm]
          _ = _ := by ring
      rw [if_neg hlt]
      refine ⟨q', ?_, ?_, ?_⟩
      · rw [hloop, hsplit, Nat.mul_add_mod]
      · have hd : (UInt8.ofNat (t / ud)).toNat = t / ud := by
          exact Nat.mod_eq_of_lt (by simpa using hdigit)
        rw [hq, hsplit, Nat.mul_add_div hpos, beNat_concat, hd, length_cons]
        ring
      · simp only [length_append, length_cons, length_nil] at hl ⊢
        omega

theorem beNat_export_byte (n : Nat) : beNat (export_byte n) = n := by
  unfold export_byte mp_export
  split
  · next h => rw [h]; rfl
  · exact beNat_beBytes n

theorem length_export_byte {k : Nat} (hk : 0 < k) (h : n < 256 ^ k) :
    (export_byte n).length ≤ k ∧ 0 < (export_byte n).length := by
  unfold export_byte mp_export
  split
  · exact ⟨hk, by simp⟩
  · exact ⟨length_beBytes_le h, length_beBytes_pos (by omega)⟩

theorem bytes_to_long_of_le (h : b.length ≤ 8) : bytes_to_long b = beNat b := by
  unfold bytes_to_long
  rw [show b.length - 8 = 0 by omega, drop_zero]

theorem optimize_long_to_bytes (h : n < 2 ^ 64) :
    beNat (optimize_len (long_to_bytes n)) = n ∧ (optimize_len (long_to_bytes n)).length ≤ 8 ∧
      0 < (optimize_len (long_to_bytes n)).length := by
  have hlen := length_stripZeros_le (long_to_bytes n)
  rw [long_to_bytes, length_beFix] at hlen
  refine ⟨?_, hlen, ?_⟩
  · rw [optimize_len, beNat_stripZeros, long_to_bytes, beNat_beFix]
    exact Nat.mod_eq_of_lt (by omega)
  · rw [length_pos_iff, ne_eq, optimize_len_eq_nil, ← length_eq_zero_iff, long_to_bytes, length_beFix]
    omega

theorem big_divmod_ok {n d : Bytes} (hd : beNat d ≠ 0) :
    ∃ q r, ok (big_divmod n d) (q, r) ∧ beNat q = beNat n / beNat d ∧ beNat r = beNat n % beNat d ∧
      q.length ≤ max n.length 8 ∧ r.length ≤ max d.length 8 ∧ 0 < q.length ∧ 0 < r.length := by
  unfold big_divmod
  have hln : (optimize_len n).length ≤ n.length := length_stripZeros_le n
  have hld : (optimize_len d).length ≤ d.length := length_stripZeros_le d
  have hnn : beNat (optimize_len n) = beNat n := beNat_stripZeros n
  have hnd : beNat (optimize_len d) = beNat d := beNat_stripZeros d
  have hopt := optimized_optimize_len n
  rw [← hnd] at hd
  rw [← hnn, ← hnd]
  generalize optimize_len n = n' at *
  generalize optimize_len d = d' at *
  simp only []
  have hnlt := beNat_lt n'
  have hdlt := beNat_lt d'
  by_cases hshort : d'.length < 8
  · have hud : beNat d' < 2 ^ 56 := by
      have : 256 ^ d'.length ≤ 256 ^ 7 := Nat.pow_le_pow_right (by norm_num) (by omega)
      omega
    have hdpos : 0 < beNat d' := Nat.pos_of_ne_zero hd
    have hmod := Nat.mod_lt (beNat n') hdpos
    rw [if_pos hshort, bytes_to_long_of_le (by omega)]
    simp only [ok_bind, ok_guard]
    by_cases hlong : n'.length < 9
    · -- both are machine words
      have hn64 : beNat n' < 2 ^ 64 := by
        have : 256 ^ n'.length ≤ 256 ^ 8 := Nat.pow_le_pow_right (by norm_num) (by omega)
        omega
      have hdiv := Nat.div_le_self (beNat n') (beNat d')
      obtain ⟨hq, hql, hqp⟩ := optimize_long_to_bytes (n := beNat n' / beNat d') (by omega)
      obtain ⟨hr, hrl, hrp⟩ := optimize_long_to_bytes (n := beNat n' % beNat d') (by omega)
      refine ⟨_, _, ⟨(), hd, ?_⟩, hq, hr, by omega, by omega, hqp, hrp⟩
      rw [if_pos hlong, bytes_to_long_of_le (by omega)]
      exact ok_pure.2 rfl
    · obtain ⟨q, hloop, hq, hql⟩ := div_loop_eq hud n' 0 [] hdpos
      rw [Nat.zero_mul, Nat.zero_add] at hloop hq
      rw [beNat_nil, Nat.zero_mul, Nat.zero_add] at hq
      obtain ⟨hr, hrl, hrp⟩ := optimize_long_to_bytes (n := beNat n' % beNat d') (by omega)
      refine ⟨q, _, ⟨(), hd, ?_⟩, hq, hr, by simp at hql; omega, by omega, ?_, hrp⟩
      · rw [if_neg hlong, hloop]
        exact ok_pure.2 rfl
      · -- the dividend has nine significant bytes, so it is not below the divisor
        rw [length_pos_iff]
        rintro rfl
        rcases n' with _ | ⟨x, t⟩
        · simp at hlong
        · have hx : x ≠ 0 := by
            intro h0
            rw [hopt x t rfl h0] at hlong
            simp at hlong
          have hle := le_beNat_cons (b := t) hx
          have hpow : 256 ^ 8 ≤ 256 ^ t.length := Nat.pow_le_pow_right (by norm_num) (by simp at hlong; omega)
          have hbig : 1 ≤ beNat (x :: t) / beNat d' := (Nat.one_le_div_iff hdpos).2 (by omega)
          rw [← hq] at hbig
          simp at hbig
  · rw [if_neg hshort]
    have hmod := Nat.mod_lt (beNat n') (Nat.pos_of_ne_zero hd)
    have hdiv := Nat.div_le_self (beNat n') (beNat d')
    have hqb : beNat n' / beNat d' < 256 ^ max n.length 8 :=
      lt_of_le_of_lt hdiv (lt_of_lt_of_le hnlt (Nat.pow_le_pow_right (by norm_num) (by omega)))
    have hrb : beNat n' % beNat d' < 256 ^ max d.length 8 :=
      lt_trans hmod (lt_of_lt_of_le hdlt (Nat.pow_le_pow_right (by norm_num) (by omega)))
    obtain ⟨hql, hqp⟩ := length_export_byte (by omega) hqb
    obtain ⟨hrl, hrp⟩ := length_export_byte (by omega) hrb
    refine ⟨export_byte (beNat n' / beNat d'), export_byte (beNat n' % beNat d'), ?_, beNat_export_byte _,
      beNat_export_byte _, hql, hrl, hqp, hrp⟩
    simp only [ok_bind, ok_guard, ok_pure]
    exact ⟨(), hd, trivial⟩

/-! ## Signs -/

set_option maxRecDepth 5000 in
theorem toNat_xor_255 (x : UInt8) : (x ^^^ 0xFF).toNat = 255 - x.toNat := by
  have all : ∀ n : Fin 256, ((UInt8.ofFin n) ^^^ 0xFF).toNat = 255 - (UInt8.ofFin n).toNat := by decide
  exact all x.toFin

set_option maxRecDepth 5000 in
theorem and_128_eq_zero (x : UInt8) : x &&& 128 = 0 ↔ x.toNat < 128 := by
  have all : ∀ n : Fin 256, (UInt8.ofFin n) &&& 128 = 0 ↔ (UInt8.ofFin n).toNat < 128 := by decide
  exact all x.toFin

theorem big_sign_loop_eq (val : Bytes) :
    (big_sign_loop val).1.length = val.length ∧
      beNat (big_sign_loop val).1 + (big_sign_loop val).2 * 256 ^ val.length + beNat val = 256 ^ val.length := by
  induction val with
  | nil => exact ⟨rfl, rfl⟩
  | cons x val ih =>
    obtain ⟨hlen, hsum⟩ := ih
    have hstep : big_sign_loop (x :: val) = (UInt8.ofNat (((big_sign_loop val).2 + (x ^^^ 0xFF).toNat) % 256) ::
        (big_sign_loop val).1, ((big_sign_loop val).2 + (x ^^^ 0xFF).toNat) / 256) := rfl
    have hx := x.toNat_lt
    rw [hstep, toNat_xor_255]
    generalize (big_sign_loop val).1 = tmp at *
    generalize (big_sign_loop val).2 = rest at *
    have hdm := Nat.div_add_mod (rest + (255 - x.toNat)) 256
    refine ⟨by simp [hlen], ?_⟩
    simp only [beNat_cons, toNat_ofNat_mod, hlen]
    generalize (rest + (255 - x.toNat)) % 256 = lo at *
    generalize (rest + (255 - x.toNat)) / 256 = hi at *
    have hp : (256 * hi + lo + x.toNat) * 256 ^ val.length = rest * 256 ^ val.length + 255 * 256 ^ val.length := by
      rw [← Nat.add_mul]
      congr 1
      omega
    calc lo * 256 ^ val.length + beNat tmp + hi * (256 ^ val.length * 256) + (x.toNat * 256 ^ val.length + beNat val)
        = (256 * hi + lo + x.toNat) * 256 ^ val.length + beNat tmp + beNat val := by ring
      _ = beNat tmp + rest * 256 ^ val.length + beNat val + 255 * 256 ^ val.length := by
        rw [hp]
        ring
      _ = 256 ^ val.length * 256 := by
        rw [hsum]
        ring

theorem length_big_sign (val : Bytes) : (big_sign val).length = val.length := (big_sign_loop_eq val).1

theorem beNat_big_sign (val : Bytes) : beNat (big_sign val) = (256 ^ val.length - beNat val) % 256 ^ val.length := by
  obtain ⟨hlen, hsum⟩ := big_sign_loop_eq val
  have hlt := beNat_lt (big_sign val)
  rw [length_big_sign] at hlt
  have heq : 256 ^ val.length - beNat val = beNat (big_sign val) + (big_sign_loop val).2 * 256 ^ val.length := by
    rw [big_sign]
    omega
  rw [heq, Nat.add_mul_mod_self_right, Nat.mod_eq_of_lt hlt]

theorem big_signed_eq (val : Bytes) :
    (big_signed val).1 = decide (readSigned val < 0) ∧ beNat (big_signed val).2 = (readSigned val).natAbs ∧
      (big_signed val).2.length = val.length := by
  have hlt := beNat_lt val
  have hneg := readSigned_neg_iff val
  have habs := natAbs_centered hlt
  have hsig := centered_neg_iff hlt
  rw [← readSigned] at habs hsig
  unfold big_signed
  by_cases hbit : val.headD 0 &&& 128 = 0
  · rw [if_pos hbit]
    have hpos := (and_128_eq_zero _).1 hbit
    have hnn : ¬ readSigned val < 0 := fun h => by
      omega
    rw [if_pos (by omega)] at habs
    exact ⟨by simp [hnn], habs.symm, rfl⟩
  · rw [if_neg hbit]
    have hge : 128 ≤ (val.headD 0).toNat := by
      have := mt (and_128_eq_zero _).2 hbit
      omega
    have hn := hneg.2 hge
    rw [if_neg (by omega)] at habs
    refine ⟨by simp [hn], ?_, length_big_sign val⟩
    rw [beNat_big_sign, habs, Nat.mod_eq_of_lt (by omega)]

theorem negate_word_eq {res : Bytes} (h : res.length ≤ 32) :
    (negate_word res).length = 32 ∧ beNat (negate_word res) = wrap (256 ^ 32) (-(beNat res : Int)) := by
  have hlen := length_padLeft h
  have hlt := beNat_lt_of_le h
  refine ⟨by rw [negate_word, length_big_sign, hlen], ?_⟩
  rw [negate_word, beNat_big_sign, hlen, beNat_padLeft, wrap_neg hlt]

/-! ## Trailing zeros -/

theorem strip_common_eq (fuel : Nat) (a b : Bytes) :
    ∃ k, a = (strip_common fuel a b).1 ++ replicate k 0 ∧ b = (strip_common fuel a b).2 ++ replicate k 0 := by
  induction fuel generalizing a b with
  | zero => exact ⟨0, by simp [strip_common], by simp [strip_common]⟩
  | succ fuel ih =>
    unfold strip_common
    split
    · next h =>
      obtain ⟨hla, hlb, ha, hb⟩ := h
      obtain ⟨k, hka, hkb⟩ := ih a.dropLast b.dropLast
      have hsplit : ∀ c : Bytes, 1 < c.length → c.getLastD 1 = 0 → c = c.dropLast ++ [0] := by
        intro c hc h0
        have hne : c ≠ [] := ne_nil_of_length_pos (by omega)
        rw [getLastD_eq_getLast?, List.getLast?_eq_getLast_of_ne_nil hne, Option.getD_some] at h0
        rw [← h0, dropLast_append_getLast]
      refine ⟨k + 1, ?_, ?_⟩
      · rw [replicate_succ', ← append_assoc, ← hka]
        exact hsplit a hla ha
      · rw [replicate_succ', ← append_assoc, ← hkb]
        exact hsplit b hlb hb
    · exact ⟨0, by simp, by simp⟩

/-- The operands of a division are the ones given, shortened by as many zeros each. -/
theorem strip_operands (a b : Bytes) :
    ∃ k a' b', strip_common (optimize_len a).length (optimize_len a) (optimize_len b) = (a', b') ∧
      optimize_len a = a' ++ replicate k 0 ∧ optimize_len b = b' ++ replicate k 0 ∧ Optimized b' := by
  obtain ⟨k, hka, hkb⟩ := strip_common_eq (optimize_len a).length (optimize_len a) (optimize_len b)
  refine ⟨k, _, _, rfl, hka, hkb, ?_⟩
  intro x t hxt hx
  rw [hxt] at hkb
  exact (append_eq_nil_iff.1 (optimized_optimize_len b x _ hkb hx)).1

theorem big_div_ok (ha : a.length ≤ 32) :
    ∃ r, ok (big_div a b false) r ∧ r.length ≤ 32 ∧ 0 < r.length ∧ beNat r = beNat a / beNat b := by
  obtain ⟨hla, hna⟩ := optimize_len_word ha
  have hnb : beNat (optimize_len b) = beNat b := beNat_stripZeros b
  obtain ⟨k, a', b', hstrip, hka, hkb, hopt⟩ := strip_operands a b
  unfold big_div
  simp only [hstrip]
  rw [hka, beNat_append_zeros] at hna
  rw [hkb, beNat_append_zeros] at hnb
  rw [hka, length_append] at hla
  rw [← hna, ← hnb, Nat.mul_div_mul_right _ _ (pow_256_pos k)]
  by_cases h0 : b' = [] ∨ b' = [0]
  · rw [if_pos h0, hopt.beNat_eq_zero.2 h0, Nat.div_zero]
    exact ⟨[0], ok_pure.2 rfl, by simp, by simp, rfl⟩
  · rw [if_neg h0]
    obtain ⟨q, r, hdm, hq, -, hql, -, hqp, -⟩ := big_divmod_ok (n := a') (mt hopt.beNat_eq_zero.1 h0)
    refine ⟨q, ?_, by omega, hqp, hq⟩
    simp only [Bool.false_eq_true, if_false, ok_bind]
    exact ⟨(q, r), hdm, ok_pure.2 rfl⟩

theorem tdiv_eq (x y : Int) :
    x.tdiv y = if decide (x < 0) != decide (y < 0) then -((x.natAbs / y.natAbs : Nat) : Int)
      else ((x.natAbs / y.natAbs : Nat) : Int) := by
  obtain ⟨n, rfl | rfl⟩ := Int.eq_nat_or_neg x <;> obtain ⟨m, rfl | rfl⟩ := Int.eq_nat_or_neg y
  · have hn : ¬ (n : Int) < 0 := by omega
    simp [hn]
  · rcases Nat.eq_zero_or_pos m with rfl | hm
    · simp
    · simp [hm]
  · rcases Nat.eq_zero_or_pos n with rfl | hn
    · simp
    · simp [hn]
  · rcases Nat.eq_zero_or_pos n with rfl | hn <;> rcases Nat.eq_zero_or_pos m with rfl | hm
    · simp
    · simp
    · simp
    · simp [hn, hm]

theorem natAbs_readSigned_ne_zero (h : beNat b ≠ 0) : (readSigned b).natAbs ≠ 0 := by
  have hlt := beNat_lt b
  rw [readSigned, natAbs_centered hlt]
  split <;> omega

theorem big_sdiv_ok (ha : a.length ≤ 32) :
    ∃ r, ok (big_div a b true) r ∧ r.length ≤ 32 ∧ 0 < r.length ∧
      beNat r = wrap (256 ^ 32) ((readSigned (optimize_len a)).tdiv (readSigned (optimize_len b))) := by
  have hla : (optimize_len a).length ≤ 32 := (length_stripZeros_le a).trans ha
  obtain ⟨k, a', b', hstrip, hka, hkb, hopt⟩ := strip_operands a b
  unfold big_div
  simp only [hstrip]
  rw [hka, length_append] at hla
  have hk : (0 : Int) < (256 ^ k : Nat) := by exact_mod_cast pow_256_pos k
  rw [hka, hkb, readSigned_append_zeros, readSigned_append_zeros, Int.mul_tdiv_mul_of_pos_left _ _ hk]
  obtain ⟨hsa, hna, hla'⟩ := big_signed_eq a'
  obtain ⟨hsb, hnb, hlb'⟩ := big_signed_eq b'
  by_cases h0 : b' = [] ∨ b' = [0]
  · have hzero : readSigned b' = 0 := by rcases h0 with rfl | rfl <;> rfl
    rw [if_pos h0, hzero, Int.tdiv_zero]
    exact ⟨[0], ok_pure.2 rfl, by simp, by simp, rfl⟩
  · rw [if_neg h0]
    have hne : beNat (big_signed b').2 ≠ 0 := by
      rw [hnb]
      exact natAbs_readSigned_ne_zero (mt hopt.beNat_eq_zero.1 h0)
    obtain ⟨q, r, hdm, hq, -, hql, -, hqp, -⟩ := big_divmod_ok (n := (big_signed a').2) hne
    have hq32 : q.length ≤ 32 := by omega
    have hqlt := beNat_lt_of_le hq32
    obtain ⟨hneglen, hneg⟩ := negate_word_eq hq32
    rw [hna, hnb] at hq
    rw [tdiv_eq, ← hq]
    simp only [if_true, ok_bind]
    rw [hsa, hsb]
    by_cases hs : decide (readSigned a' < 0) ≠ decide (readSigned b' < 0)
    · refine ⟨negate_word q, ⟨(q, r), hdm, ?_⟩, by omega, by omega, ?_⟩
      · rw [if_pos hs, ok_pure]
      · rw [if_pos (bne_iff_ne.2 hs), hneg]
    · refine ⟨q, ⟨(q, r), hdm, ?_⟩, hq32, hqp, ?_⟩
      · rw [if_neg hs, ok_pure]
      · rw [if_neg (mt bne_iff_ne.1 hs), wrap_natCast hqlt]

/-! ## Remainders -/

theorem tmod_eq (x y : Int) :
    x.tmod y = if decide (x < 0) then -((x.natAbs % y.natAbs : Nat) : Int) else ((x.natAbs % y.natAbs : Nat) : Int) := by
  have hmod : ∀ n m : Nat, (n : Int).tmod m = ((n % m : Nat) : Int) := fun n m => (Int.ofNat_tmod n m).symm
  obtain ⟨n, rfl | rfl⟩ := Int.eq_nat_or_neg x <;> obtain ⟨m, rfl | rfl⟩ := Int.eq_nat_or_neg y
  · simp [hmod]
  · simp [hmod]
  · rcases Nat.eq_zero_or_pos n with rfl | hn
    · simp
    · simp [hn, hmod]
  · rcases Nat.eq_zero_or_pos n with rfl | hn
    · simp
    · simp [hn, hmod]

theorem big_smod_ok (hb : b.length ≤ 32) :
    ∃ r, ok (big_mod a b true) r ∧ r.length ≤ 32 ∧ 0 < r.length ∧
      beNat r = if beNat b = 0 then 0
        else wrap (256 ^ 32) ((readSigned (optimize_len a)).tmod (readSigned (optimize_len b))) := by
  have hlb : (optimize_len b).length ≤ 32 := (length_stripZeros_le b).trans hb
  have hnb : beNat (optimize_len b) = beNat b := beNat_stripZeros b
  have hopt := optimized_optimize_len b
  unfold big_mod
  rw [← hnb]
  generalize optimize_len a = a' at *
  generalize optimize_len b = b' at *
  simp only [Bool.true_eq_false, and_false, if_false, if_true]
  obtain ⟨hsa, hna, hla'⟩ := big_signed_eq a'
  obtain ⟨-, hmb, hlb'⟩ := big_signed_eq b'
  by_cases h0 : b' = [] ∨ b' = [0]
  · rw [if_pos h0, if_pos (hopt.beNat_eq_zero.2 h0)]
    exact ⟨[0], ok_pure.2 rfl, by simp, by simp, rfl⟩
  · have hb0 := mt hopt.beNat_eq_zero.1 h0
    have hne : beNat (big_signed b').2 ≠ 0 := by
      rw [hmb]
      exact natAbs_readSigned_ne_zero hb0
    rw [if_neg h0, if_neg hb0]
    obtain ⟨q, r, hdm, -, hr, -, hrl, -, hrp⟩ := big_divmod_ok (n := (big_signed a').2) hne
    have hr32 : r.length ≤ 32 := by omega
    have hrlt := beNat_lt_of_le hr32
    obtain ⟨hneglen, hneg⟩ := negate_word_eq hr32
    rw [hna, hmb] at hr
    rw [tmod_eq, ← hr]
    simp only [ok_bind]
    rw [hsa]
    by_cases hs : decide (readSigned a' < 0) = true
    · refine ⟨negate_word r, ⟨(q, r), hdm, ?_⟩, by omega, by omega, ?_⟩
      · rw [if_pos hs, ok_pure]
      · rw [if_pos hs, hneg]
    · refine ⟨r, ⟨(q, r), hdm, ?_⟩, hr32, hrp, ?_⟩
      · rw [if_neg hs, ok_pure]
      · rw [if_neg hs, wrap_natCast hrlt]

set_option maxRecDepth 5000 in
theorem power_of_2_byte {y : UInt8} (h0 : y ≠ 0) (h : y &&& (y - 1) = 0) :
    ∃ j, j < 8 ∧ y.toNat = 2 ^ j ∧ (y - 1).toNat = 2 ^ j - 1 := by
  have all : ∀ n : Fin 256, UInt8.ofFin n ≠ 0 → UInt8.ofFin n &&& (UInt8.ofFin n - 1) = 0 →
      ∃ j, j < 8 ∧ (UInt8.ofFin n).toNat = 2 ^ j ∧ (UInt8.ofFin n - 1).toNat = 2 ^ j - 1 := by decide
  exact all y.toFin h0 h

theorem mod_power_of_2 {p m l : Nat} {x y : UInt8} (h0 : y ≠ 0) (h : y &&& (y - 1) = 0) (hl : l < m) :
    (p * (256 * m) + (x.toNat * m + l)) % (y.toNat * m) = (x &&& (y - 1)).toNat * m + l := by
  obtain ⟨j, hj, hy, hy1⟩ := power_of_2_byte h0 h
  have hx : (x &&& (y - 1)).toNat = x.toNat % 2 ^ j := by
    rw [UInt8.toNat_and, hy1, Nat.and_two_pow_sub_one_eq_mod]
  have h256 : 256 = 2 ^ j * 2 ^ (8 - j) := by
    rw [← pow_add, show j + (8 - j) = 8 by omega]
    norm_num
  have hsum : p * (256 * m) + (x.toNat * m + l) = l + m * (2 ^ j * (2 ^ (8 - j) * p) + x.toNat) := by
    rw [h256]
    ring
  rw [hx, hy, hsum, Nat.mul_comm (2 ^ j) m, Nat.mod_mul, Nat.add_mul_mod_self_left, Nat.mod_eq_of_lt hl,
    Nat.add_mul_div_left _ _ (by omega), Nat.div_eq_of_lt hl, Nat.zero_add, Nat.mul_add_mod]
  ring

theorem exists_split_at (h : n < a.length) :
    ∃ pre x lo, a = pre ++ x :: lo ∧ lo.length = n := by
  have hidx : a.length - 1 - n < a.length := by omega
  refine ⟨a.take (a.length - 1 - n), a[a.length - 1 - n], a.drop (a.length - 1 - n + 1), ?_, ?_⟩
  · rw [← drop_eq_getElem_cons hidx, take_append_drop]
  · rw [length_drop]
    omega

theorem big_mod_ok (hb : b.length ≤ 32) :
    ∃ r, ok (big_mod a b false) r ∧ r.length ≤ 32 ∧
      beNat r = if beNat b = 0 then 0 else beNat a % beNat b := by
  obtain ⟨hlb, hnb⟩ := optimize_len_word hb
  have hna : beNat (optimize_len a) = beNat a := beNat_stripZeros a
  have hopt := optimized_optimize_len b
  unfold big_mod
  rw [← hna, ← hnb]
  generalize optimize_len a = a' at *
  generalize optimize_len b = b' at *
  simp only [and_true, Bool.false_eq_true, if_false]
  by_cases hlt : a'.length < b'.length
  · -- a number with fewer digits is below the divisor
    rw [if_pos hlt]
    refine ⟨a', ok_pure.2 rfl, by omega, ?_⟩
    rcases b' with _ | ⟨y, t⟩
    · simp at hlt
    · by_cases hy : y = 0
      · rw [hopt y t rfl hy] at hlt
        have hnil : a' = [] := length_eq_zero_iff.1 (by simpa using hlt)
        rw [hnil]
        simp
      · have hle := le_beNat_cons (b := t) hy
        have ha := beNat_lt a'
        have hpow : 256 ^ a'.length ≤ 256 ^ t.length := Nat.pow_le_pow_right (by norm_num) (by simp at hlt; omega)
        have hpos := pow_256_pos t.length
        rw [if_neg (by omega), Nat.mod_eq_of_lt (by omega)]
  · rw [if_neg hlt]
    by_cases h0 : b' = [] ∨ b' = [0]
    · rw [if_pos h0, if_pos (hopt.beNat_eq_zero.2 h0)]
      exact ⟨[0], ok_pure.2 rfl, by simp, rfl⟩
    · have hb0 := mt hopt.beNat_eq_zero.1 h0
      rw [if_neg h0, if_neg hb0]
      by_cases hpow : is_power_of_2 b' = true
      · rw [if_pos hpow]
        obtain ⟨y, t, rfl⟩ : ∃ y t, b' = y :: t := by
          rcases b' with _ | ⟨y, t⟩
          · simp at h0
          · exact ⟨y, t, rfl⟩
        simp only [is_power_of_2, headD_cons, tail_cons, decide_eq_true_eq, all_eq_true] at hpow
        have hy : y ≠ 0 := by
          intro h
          rw [hopt y t rfl h, h] at h0
          simp at h0
        have ht : t = replicate t.length 0 := eq_replicate_iff.2 ⟨rfl, fun z hz => by simpa using hpow.2 z hz⟩
        -- the dividend in front of, at and behind the place of the divisor's first byte
        obtain ⟨pre, x, lo, rfl, hlo⟩ := exists_split_at (a := a') (n := t.length) (by simp at hlt; omega)
        have hidx : (pre ++ x :: lo).length - (y :: t).length = pre.length := by simp; omega
        have hval : beNat (y :: t) = y.toNat * 256 ^ t.length := by
          rw [beNat_cons, ht, beNat_replicate_zero, length_replicate, Nat.add_zero]
        refine ⟨(x &&& (y - 1)) :: lo, ?_, by simp at hlb ⊢; omega, ?_⟩
        · rw [hidx]
          simp only [ok_bind, ok_rd]
          exact ⟨x, by simp, by simp⟩
        · have hmod := mod_power_of_2 (p := beNat pre) (x := x) hy hpow.1 (hlo ▸ beNat_lt lo)
          rw [hval, beNat_append, beNat_cons, beNat_cons, hlo, length_cons, hlo, pow_succ', hmod]
      · rw [if_neg hpow]
        obtain ⟨q, r, hdm, -, hr, -, hrl, -, -⟩ := big_divmod_ok (n := a') hb0
        refine ⟨r, ?_, by omega, hr⟩
        simp only [ok_bind]
        exact ⟨(q, r), hdm, ok_pure.2 rfl⟩

end In3.Evm
