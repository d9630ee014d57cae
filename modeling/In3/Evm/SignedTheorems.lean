import In3.Evm.ArithTheorems
/-!
# Signed arithmetic

SDIV and SMOD strip the leading zeros of their operands and then take the first bit that is left as
the sign; SLT and SGT take the first bit of the entry as it was pushed. Both read the number as one
of its own length, which is right for a negative word and for a number whose first bit is clear.
`Misread` are the other ones: positive words that are read as negative numbers.
-/
open Lib

namespace In3.Evm

/-! ## The operations on words -/

/-- The two's complement number of a 256-bit word. -/
def toSigned (n : Nat) : Int := centered (2 ^ 256) n

/-- SDIV truncates toward zero; `x / 0 = 0`. -/
def sdivWord (m n : Nat) : Nat := wrap (2 ^ 256) ((toSigned m).tdiv (toSigned n))

def smodWord (m n : Nat) : Nat := if n = 0 then 0 else wrap (2 ^ 256) ((toSigned m).tmod (toSigned n))

def sltWord (m n : Nat) : Nat := if toSigned m < toSigned n then 1 else 0

/-! ## What the code reads -/

/-- A positive word whose bytes start with a set bit. -/
def Misread (e : Bytes) : Prop := e.length < 32 ∧ 128 ≤ (e.headD 0).toNat

instance (e : Bytes) : Decidable (Misread e) := inferInstanceAs (Decidable (_ ∧ _))

variable {e : Bytes} {m n p q : Nat}

theorem beNat_lt_word (h : e.length ≤ 32) : beNat e < 2 ^ 256 := by
  exact beNat_lt_of_le h

theorem toSigned_short (h : e.length < 32) : toSigned (beNat e) = beNat e ∧ beNat e < 256 ^ 31 := by
  have hlt := beNat_lt_of_le (show e.length ≤ 31 by omega)
  unfold toSigned centered
  omega

theorem readSigned_eq_toSigned (hlen : e.length ≤ 32) (h : ¬ Misread e) :
    readSigned e = toSigned (beNat e) := by
  by_cases h32 : e.length = 32
  · rw [readSigned, toSigned, h32, pow_word]
  · have hpos : ¬ readSigned e < 0 := by
      rw [readSigned_neg_iff]
      intro h128
      exact h ⟨by omega, h128⟩
    rw [(toSigned_short (by omega)).1]
    unfold readSigned centered at hpos ⊢
    have hlt := beNat_lt e
    split
    · rfl
    · next hge =>
      omega

/-- A misread number is positive as a word and negative as it is read; the two differ by `256` to its length. -/
theorem Misread.signs (h : Misread e) :
    readSigned e < 0 ∧ readSigned e = toSigned (beNat e) - (256 ^ e.length : Nat) ∧ 128 ≤ beNat e ∧
      toSigned (beNat e) = beNat e ∧ beNat e < 256 ^ 31 ∧ (readSigned e).natAbs ≤ beNat e := by
  obtain ⟨hlen, hhead⟩ := h
  have hneg := (readSigned_neg_iff e).2 hhead
  obtain ⟨hword, hlt⟩ := toSigned_short hlen
  have he := beNat_lt e
  have hread : readSigned e = (beNat e : Int) - (256 ^ e.length : Nat) := by
    unfold readSigned centered at hneg ⊢
    split
    · next hlt =>
      omega
    · rfl
  have hhalf := (centered_neg_iff he).1 (by rw [← readSigned]; exact hneg)
  refine ⟨hneg, by rw [hword, hread], ?_, hword, hlt, ?_⟩
  · rcases e with _ | ⟨x, t⟩
    · simp at hhead
    · have hpos := pow_256_pos t.length
      have hx : 128 ≤ x.toNat := hhead
      rw [beNat_cons]
      nlinarith
  · omega

theorem Misread.natAbs_eq (h : Misread e) :
    (readSigned e).natAbs = 256 ^ e.length - beNat e ∧ (toSigned (beNat e)).natAbs = beNat e := by
  obtain ⟨hneg, hread, -, hword, -, -⟩ := h.signs
  rw [hword] at hread ⊢
  constructor
  · omega
  · exact Int.natAbs_natCast _

theorem toSigned_natAbs_le (h : n < 2 ^ 256) : (toSigned n).natAbs ≤ 2 ^ 255 := by
  unfold toSigned centered
  split <;> omega

theorem toSigned_eq_zero (h : n < 2 ^ 256) : toSigned n = 0 ↔ n = 0 := by
  unfold toSigned centered
  split <;> omega

/-! ## Conditions -/

/-- SDIV is right. With one misread operand the sign is wrong, so both quotients have to be 0; with two of them the
sign is right, but the quotient is that of the complements. -/
def SdivExact (a b : Bytes) : Prop :=
  if Misread a then
    if Misread b then (256 ^ a.length - beNat a) / (256 ^ b.length - beNat b) = beNat a / beNat b
    else beNat b = 0 ∨ beNat a < (toSigned (beNat b)).natAbs
  else
    if Misread b then (toSigned (beNat a)).natAbs < 256 ^ b.length - beNat b
    else True

/-- SMOD is right. With a misread dividend the sign is wrong, so both remainders have to be 0; with a misread divisor
only, the remainder is that by its complement. -/
def SmodExact (a b : Bytes) : Prop :=
  if Misread a then
    if Misread b then beNat b ∣ beNat a ∧ 256 ^ b.length - beNat b ∣ 256 ^ a.length - beNat a
    else beNat b = 0 ∨ (toSigned (beNat b)).natAbs ∣ beNat a ∧ (toSigned (beNat b)).natAbs ∣ 256 ^ a.length
  else
    if Misread b then (toSigned (beNat a)).natAbs % (256 ^ b.length - beNat b) = (toSigned (beNat a)).natAbs % beNat b
    else True

instance (a b : Bytes) : Decidable (SdivExact a b) := by
  unfold SdivExact
  infer_instance

theorem wrap_inj (hp : p < m) (hq : q < m) : wrap m (p : Int) = wrap m (q : Int) ↔ p = q := by
  rw [wrap_natCast hp, wrap_natCast hq]

theorem wrap_neg_inj (hp : p < m) (hq : q < m) : wrap m (-(p : Int)) = wrap m (-(q : Int)) ↔ p = q := by
  rw [wrap_neg hp, wrap_neg hq]
  rcases Nat.eq_zero_or_pos p with rfl | hp0 <;> rcases Nat.eq_zero_or_pos q with rfl | hq0
  · simp
  · rw [Nat.sub_zero, Nat.mod_self, Nat.mod_eq_of_lt (by omega)]
    omega
  · rw [Nat.sub_zero, Nat.mod_self, Nat.mod_eq_of_lt (by omega)]
    omega
  · rw [Nat.mod_eq_of_lt (by omega), Nat.mod_eq_of_lt (by omega)]
    omega

theorem wrap_sign_iff {s t : Bool} (h : p + q < m) :
    wrap m (if s then -(p : Int) else p) = wrap m (if t then -(q : Int) else q) ↔ p = q ∧ (s = t ∨ q = 0) := by
  have hmixed : ∀ {c d : Nat}, c + d < m → (wrap m (c : Int) = wrap m (-(d : Int)) ↔ c = d ∧ d = 0) := by
    intro c d hcd
    rw [wrap_natCast (by omega), wrap_neg (by omega)]
    rcases Nat.eq_zero_or_pos d with rfl | hd
    · simp
    · rw [Nat.mod_eq_of_lt (by omega)]
      omega
  cases s <;> cases t
  · simpa using wrap_inj (by omega) (by omega)
  · simpa using hmixed h
  · have hrev := hmixed (c := q) (d := p) (by omega)
    simp only [if_true, Bool.false_eq_true, if_false, Bool.true_eq_false, false_or]
    omega
  · simpa using wrap_neg_inj (by omega) (by omega)

/-! ## Division -/

section
variable {a b : Bytes} (ha : a.length ≤ 32) (hb : b.length ≤ 32)
include ha hb

omit hb in
/-- One operand is misread: the absolute values are too small to make up for it. -/
theorem quotients_small (h : Misread a ∨ Misread b) :
    (readSigned a).natAbs / (readSigned b).natAbs + (toSigned (beNat a)).natAbs / (toSigned (beNat b)).natAbs < 2 ^ 256 := by
  have hxa := toSigned_natAbs_le (beNat_lt_word ha)
  have hq' := Nat.div_le_self (readSigned a).natAbs (readSigned b).natAbs
  have hq := Nat.div_le_self (toSigned (beNat a)).natAbs (toSigned (beNat b)).natAbs
  by_cases hma : Misread a
  · obtain ⟨-, -, -, hword, hlt, hread⟩ := hma.signs
    omega
  · rcases h with h | hmb
    · exact absurd h hma
    · obtain ⟨-, -, h128, hword, -, -⟩ := hmb.signs
      rw [readSigned_eq_toSigned ha hma] at hq' ⊢
      have hdiv : (toSigned (beNat a)).natAbs / (toSigned (beNat b)).natAbs ≤ 2 ^ 255 / 128 := by
        rw [hword]
        exact Nat.div_le_div hxa h128 (by norm_num)
      omega

omit ha hb in
theorem readSigned_neg_eq {e : Bytes} (he : e.length ≤ 32) :
    decide (readSigned e < 0) = (decide (Misread e) != decide (toSigned (beNat e) < 0)) := by
  by_cases h : Misread e
  · obtain ⟨hneg, -, -, hword, -, -⟩ := h.signs
    simp [h, hneg, hword]
  · rw [readSigned_eq_toSigned he h]
    simp [h]

theorem sdiv_natAbs_iff :
    wrap (2 ^ 256) ((readSigned a).tdiv (readSigned b)) = sdivWord (beNat a) (beNat b) ↔ beNat b = 0 ∨
      (readSigned a).natAbs / (readSigned b).natAbs = (toSigned (beNat a)).natAbs / (toSigned (beNat b)).natAbs ∧
        ((Misread a ↔ Misread b) ∨ (toSigned (beNat a)).natAbs / (toSigned (beNat b)).natAbs = 0) := by
  unfold sdivWord
  by_cases hb0 : beNat b = 0
  · -- nothing is read but zeros
    have hzero : toSigned (beNat b) = 0 := (toSigned_eq_zero (beNat_lt_word hb)).2 hb0
    have hgood : ¬ Misread b := by
      intro hm
      have := hm.signs.2.2.1
      omega
    rw [readSigned_eq_toSigned hb hgood, hzero, Int.tdiv_zero]
    simp
  · by_cases hmis : Misread a ∨ Misread b
    · rw [tdiv_eq, tdiv_eq, wrap_sign_iff (quotients_small ha hmis), readSigned_neg_eq ha, readSigned_neg_eq hb]
      simp only [hb0, false_or]
      have hsign : ∀ p q r s : Bool, (((p != q) != (r != s)) = (q != s)) ↔ p = r := by decide
      rw [hsign, decide_eq_decide]
    · have hma : ¬ Misread a := fun h => hmis (.inl h)
      have hmb : ¬ Misread b := fun h => hmis (.inr h)
      rw [readSigned_eq_toSigned ha hma, readSigned_eq_toSigned hb hmb]
      simp [hma, hmb]

theorem sdiv_read_iff :
    wrap (2 ^ 256) ((readSigned a).tdiv (readSigned b)) = sdivWord (beNat a) (beNat b) ↔ SdivExact a b := by
  rw [sdiv_natAbs_iff ha hb]
  unfold SdivExact
  by_cases hma : Misread a <;> by_cases hmb : Misread b
  · obtain ⟨hra, hwa⟩ := hma.natAbs_eq
    obtain ⟨hrb, hwb⟩ := hmb.natAbs_eq
    have hb0 : beNat b ≠ 0 := by
      have := hmb.signs.2.2.1
      omega
    simp [hma, hmb, hra, hwa, hrb, hwb, hb0, and_true]
  · -- the dividend only: its complement is the smaller one
    obtain ⟨hra, hwa⟩ := hma.natAbs_eq
    have hle := hma.signs.2.2.2.2.2
    rw [hra] at hle
    simp only [hma, hmb, hra, hwa, readSigned_eq_toSigned hb hmb, iff_false, not_true_eq_false, false_or]
    refine or_congr_right' fun hb0 => ?_
    have hpos : 0 < (toSigned (beNat b)).natAbs := by
      rw [Int.natAbs_pos, ne_eq, toSigned_eq_zero (beNat_lt_word hb)]
      exact hb0
    rw [Nat.div_eq_zero_iff_lt hpos]
    constructor
    · exact fun h => h.2
    · intro h
      rw [Nat.div_eq_of_lt h, Nat.div_eq_of_lt (lt_of_le_of_lt hle h)]
      exact ⟨rfl, h⟩
  · -- the divisor only: its complement is the smaller one
    obtain ⟨hrb, hwb⟩ := hmb.natAbs_eq
    obtain ⟨-, -, h128, -, -, hle⟩ := hmb.signs
    have hlt := beNat_lt b
    rw [hrb] at hle
    simp only [hma, hmb, hrb, hwb, readSigned_eq_toSigned ha hma, false_iff, not_true_eq_false, false_or,
      show beNat b ≠ 0 by omega]
    constructor
    · rintro ⟨heq, h0⟩
      rw [h0, Nat.div_eq_zero_iff_lt (by omega)] at heq
      exact heq
    · intro h
      rw [Nat.div_eq_of_lt h, Nat.div_eq_of_lt (lt_of_lt_of_le h hle)]
      exact ⟨rfl, rfl⟩
  · simp [hma, hmb, readSigned_eq_toSigned ha hma, readSigned_eq_toSigned hb hmb]

theorem smod_natAbs_iff :
    (if beNat b = 0 then 0 else wrap (2 ^ 256) ((readSigned a).tmod (readSigned b))) = smodWord (beNat a) (beNat b) ↔
      beNat b = 0 ∨
        (readSigned a).natAbs % (readSigned b).natAbs = (toSigned (beNat a)).natAbs % (toSigned (beNat b)).natAbs ∧
          (¬ Misread a ∨ (toSigned (beNat a)).natAbs % (toSigned (beNat b)).natAbs = 0) := by
  unfold smodWord
  by_cases hb0 : beNat b = 0
  · simp [hb0]
  · simp only [hb0, if_false, false_or]
    have hab : (toSigned (beNat b)).natAbs ≠ 0 := by
      rw [ne_eq, Int.natAbs_eq_zero, toSigned_eq_zero (beNat_lt_word hb)]
      exact hb0
    have hlt := Nat.mod_lt (toSigned (beNat a)).natAbs (Nat.pos_of_ne_zero hab)
    have hbound := toSigned_natAbs_le (beNat_lt_word hb)
    have hlt' := Nat.mod_lt (readSigned a).natAbs (Nat.pos_of_ne_zero (natAbs_readSigned_ne_zero hb0))
    have hbound' : (readSigned b).natAbs ≤ 2 ^ 255 := by
      by_cases hmb : Misread b
      · obtain ⟨-, -, -, -, h31, hle⟩ := hmb.signs
        omega
      · rw [readSigned_eq_toSigned hb hmb]
        exact hbound
    rw [tmod_eq, tmod_eq, wrap_sign_iff (by omega), readSigned_neg_eq ha]
    have hsign : ∀ p q : Bool, ((p != q) = q) ↔ p = false := by decide
    rw [hsign, decide_eq_false_iff_not]

theorem smod_read_iff :
    (if beNat b = 0 then 0 else wrap (2 ^ 256) ((readSigned a).tmod (readSigned b))) = smodWord (beNat a) (beNat b) ↔
      SmodExact a b := by
  rw [smod_natAbs_iff ha hb]
  unfold SmodExact
  by_cases hma : Misread a <;> by_cases hmb : Misread b
  · obtain ⟨hra, hwa⟩ := hma.natAbs_eq
    obtain ⟨hrb, hwb⟩ := hmb.natAbs_eq
    have hb0 : beNat b ≠ 0 := by
      have := hmb.signs.2.2.1
      omega
    simp only [hma, hmb, hra, hwa, hrb, hwb, if_true, not_true_eq_false, false_or]
    omega
  · -- the dividend only: the divisor divides it and its complement
    obtain ⟨hra, hwa⟩ := hma.natAbs_eq
    have hlt := beNat_lt a
    simp only [hma, hmb, hra, hwa, readSigned_eq_toSigned hb hmb, not_true_eq_false, false_or]
    refine or_congr_right' fun _ => ?_
    constructor
    · rintro ⟨heq, h0⟩
      rw [h0] at heq
      have hsum := Nat.dvd_add (Nat.dvd_of_mod_eq_zero heq) (Nat.dvd_of_mod_eq_zero h0)
      rw [Nat.sub_add_cancel (le_of_lt hlt)] at hsum
      exact ⟨Nat.dvd_of_mod_eq_zero h0, hsum⟩
    · rintro ⟨hdvd, hpow⟩
      rw [Nat.mod_eq_zero_of_dvd hdvd, Nat.mod_eq_zero_of_dvd (Nat.dvd_sub hpow hdvd)]
      exact ⟨rfl, rfl⟩
  · obtain ⟨hrb, hwb⟩ := hmb.natAbs_eq
    have hb0 : beNat b ≠ 0 := by
      have := hmb.signs.2.2.1
      omega
    simp [hma, hmb, hrb, hwb, readSigned_eq_toSigned ha hma, hb0, and_true]
  · simp [hma, hmb, readSigned_eq_toSigned ha hma, readSigned_eq_toSigned hb hmb]

end

/-! ## Comparison -/

/-- SLT is right: equal negative numbers are the only ones that are read right and compared wrong. -/
def SltExact (a b : Bytes) : Prop :=
  if Misread a then
    if Misread b then readSigned a ≤ readSigned b ↔ beNat a < beNat b
    else if 0 ≤ toSigned (beNat b) then beNat a < toSigned (beNat b) else toSigned (beNat b) < readSigned a
  else
    if Misread b then if 0 ≤ toSigned (beNat a) then beNat b ≤ toSigned (beNat a) else toSigned (beNat a) ≤ readSigned b
    else ¬ (toSigned (beNat a) = toSigned (beNat b) ∧ toSigned (beNat a) < 0)

theorem cmp_result_slt (a b : Bytes) :
    cmp_result .lt true a b =
      decide (if readSigned a < 0 ∧ readSigned b < 0 then readSigned a ≤ readSigned b else readSigned a < readSigned b) := by
  obtain ⟨hsa, hna, -⟩ := big_signed_eq a
  obtain ⟨hsb, hnb, -⟩ := big_signed_eq b
  have hcmp := (big_cmp_iff (big_signed a).2 (big_signed b).2).1
  unfold cmp_result
  simp only [if_true]
  rw [hsa, hsb]
  by_cases hx : readSigned a < 0 <;> by_cases hy : readSigned b < 0
  · simp only [hx, hy, decide_true, and_self, if_true, ne_eq, reduceCtorEq, not_false_eq_true]
    rw [← decide_not, decide_eq_decide]
    omega
  · simp only [hx, hy, decide_true, decide_false, if_true, ne_eq, reduceCtorEq, not_false_eq_true, and_self, and_false,
      if_false, or_false]
    simp only [true_eq_decide_iff]
    omega
  · simp only [hx, hy, decide_true, decide_false, if_true, ne_eq, reduceCtorEq, not_false_eq_true, and_self, false_and,
      if_false, false_or]
    simp only [false_eq_decide_iff]
    omega
  · simp only [hx, hy, decide_false, if_true, ne_eq, reduceCtorEq, not_false_eq_true, and_self,
      if_false, or_self]
    rw [decide_eq_decide]
    omega

theorem cmp_result_sgt (a b : Bytes) : cmp_result .gt true a b = cmp_result .lt true b a := by
  have hcmp : (big_cmp (big_signed a).2 (big_signed b).2 > 0) = (big_cmp (big_signed b).2 (big_signed a).2 < 0) := by
    rw [big_cmp_gt_iff, (big_cmp_iff _ _).1]
  unfold cmp_result
  simp only [if_true, hcmp]
  cases (big_signed a).1 <;> cases (big_signed b).1 <;> rfl

section
variable {vm : Vm} {a b : Bytes} {rest : List Bytes}

theorem op_cmp_pushes {ord : Ordering} {sig : Bool} (h : vm.evm.stack.entries = a :: b :: rest) :
    Pushes (op_cmp ord sig) vm rest (if cmp_result ord sig a b then 1 else 0) := by
  have hval : (if cmp_result ord sig a b then 1 else 0) = beNat [if cmp_result ord sig a b then 1 else 0] := by
    cases cmp_result ord sig a b <;> rfl
  rw [hval]
  exact pop_two_pushes rfl h (by simp) rfl

theorem slt_read_iff (ha : a.length ≤ 32) (hb : b.length ≤ 32) :
    (if cmp_result .lt true a b then 1 else 0) = sltWord (beNat a) (beNat b) ↔ SltExact a b := by
  have hbit : ∀ (p : Bool) (q : Prop) [Decidable q], ((if p then 1 else 0 : Nat) = if q then 1 else 0) ↔ (p = true ↔ q) := by
    intro p q _
    by_cases hq : q <;> cases p <;> simp
  unfold sltWord
  rw [hbit, cmp_result_slt, decide_eq_true_eq]
  unfold SltExact
  by_cases hma : Misread a <;> by_cases hmb : Misread b
  · obtain ⟨hna, -, -, hwa, -, -⟩ := hma.signs
    obtain ⟨hnb, -, -, hwb, -, -⟩ := hmb.signs
    simp [hma, hmb, hna, hnb, hwa, hwb]
  · obtain ⟨hna, -, -, hwa, -, -⟩ := hma.signs
    rw [readSigned_eq_toSigned hb hmb, hwa]
    simp only [hma, if_true]
    split <;> split <;> omega
  · obtain ⟨hnb, -, -, hwb, -, -⟩ := hmb.signs
    rw [readSigned_eq_toSigned ha hma]
    split <;> split <;> omega
  · rw [readSigned_eq_toSigned ha hma, readSigned_eq_toSigned hb hmb]
    split <;> omega

/-- When the signed operations are right. SDIV and SMOD read the significant bytes of their operands, SLT and SGT the
entries themselves. -/
theorem signed_arith_iff (h : vm.evm.stack.entries = a :: b :: rest) :
    (Pushes (op_math .SDIV false) vm rest (sdivWord (beNat a) (beNat b)) ↔
        SdivExact (optimize_len a) (optimize_len b)) ∧
      (Pushes (op_math .SMOD false) vm rest (smodWord (beNat a) (beNat b)) ↔
        SmodExact (optimize_len a) (optimize_len b)) ∧
      (Pushes (op_cmp .lt true) vm rest (sltWord (beNat a) (beNat b)) ↔ SltExact a b) ∧
      (Pushes (op_cmp .gt true) vm rest (sltWord (beNat b) (beNat a)) ↔ SltExact b a) := by
  obtain ⟨ha, hb, -⟩ := two_entries h
  obtain ⟨hla, hna⟩ := optimize_len_word ha
  obtain ⟨hlb, hnb⟩ := optimize_len_word hb
  refine ⟨?_, ?_, ?_, ?_⟩
  · obtain ⟨r, hr, hlen, -, hval⟩ := big_sdiv_ok (b := b) ha
    have hpush : Pushes (op_math .SDIV false) vm rest (beNat r) :=
      op_math_pushes h (fun s => ends_checked_ok.2 ⟨hr, rfl⟩) hlen
    rw [hpush.iff, hval, ← sdiv_read_iff hla hlb, hna, hnb, pow_word]
  · obtain ⟨r, hr, hlen, -, hval⟩ := big_smod_ok (a := a) hb
    have hpush : Pushes (op_math .SMOD false) vm rest (beNat r) :=
      op_math_pushes h (fun s => ends_checked_ok.2 ⟨hr, rfl⟩) hlen
    rw [hpush.iff, hval, ← smod_read_iff hla hlb, hna, hnb, pow_word]
  · rw [(op_cmp_pushes h).iff]
    exact slt_read_iff ha hb
  · rw [(op_cmp_pushes h).iff, cmp_result_sgt]
    exact slt_read_iff hb ha

theorem sdiv_seven_two :
    Pushes (op_math .SDIV false) (Vm.ofStack ⟨[[7], [2]], [], by decide, by decide⟩) [] (sdivWord (beNat [7]) (beNat [2])) :=
  (signed_arith_iff rfl).1.2 (by decide)

/-- `128 / 2` is read as `-128 / 2`, and a number that starts with a set bit is less than itself. -/
theorem signed_arith_wrong :
    ¬ Pushes (op_math .SDIV false) (Vm.ofStack ⟨[[128], [2]], [], by decide, by decide⟩) [] (sdivWord 128 2) ∧
      ¬ Pushes (op_cmp .lt true) (Vm.ofStack ⟨[[128], [128]], [], by decide, by decide⟩) [] (sltWord 128 128) ∧
      ¬ Pushes (op_cmp .lt true)
          (Vm.ofStack ⟨[List.replicate 32 255, List.replicate 32 255], [], by decide, by decide⟩) []
          (sltWord (2 ^ 256 - 1) (2 ^ 256 - 1)) := by
  decide

end

end In3.Evm
