import In3.Btc.Target
import In3.Evm.BigTheorems
/-!
# Targets as numbers

The limits of `btc_new_target_check` are four times the old target and a quarter of it, up to the bytes
that its two loops leave out or read too late. A target that comes from compact bits is their mantissa
at the place the exponent says, as long as the exponent is between 3 and 32.
-/
open Lib List

namespace In3.Btc
open Evm (memcmp memcmp_eq_compare)

/-! ## Bytes that are shifted by two bits -/

theorem shl_or_shr (a b : UInt8) : (a <<< 2 ||| b >>> 6).toNat = (4 * a.toNat + b.toNat / 64) % 256 := by
  have hb := b.toNat_lt
  show a.toNat <<< 2 % 2 ^ 8 ||| b.toNat >>> 6 = _
  rw [Nat.shiftRight_eq_div_pow, Nat.shiftLeft_eq, show 2 ^ 8 = 64 * 2 ^ 2 by norm_num, Nat.mul_mod_mul_right,
    ← Nat.shiftLeft_eq, shift_or (by omega : b.toNat / 2 ^ 6 < 2 ^ 2)]
  omega

theorem shr_or_shl (a b : UInt8) : (b >>> 2 ||| a <<< 6).toNat = b.toNat / 4 + 64 * (a.toNat % 4) := by
  have hb := b.toNat_lt
  show b.toNat >>> 2 ||| a.toNat <<< 6 % 2 ^ 8 = _
  rw [Nat.shiftRight_eq_div_pow, Nat.shiftLeft_eq, show 2 ^ 8 = 4 * 2 ^ 6 by norm_num, Nat.mul_mod_mul_right,
    ← Nat.shiftLeft_eq, Nat.or_comm, shift_or (by omega : b.toNat / 2 ^ 2 < 2 ^ 6)]
  norm_num

@[simp] theorem length_times_four (b : Bytes) : (times_four b).length = b.length := by
  induction b with
  | nil => rfl
  | cons x b ih =>
    cases b with
    | nil => rfl
    | cons y b => rw [times_four, length_cons, ih, ← length_cons]

@[simp] theorem length_quarter_from (prev : UInt8) (b : Bytes) : (quarter_from prev b).length = b.length := by
  induction b generalizing prev with
  | nil => rfl
  | cons x b ih => rw [quarter_from, length_cons, ih, length_cons]

@[simp] theorem length_quarter (b : Bytes) : (quarter b).length = b.length := by
  cases b with
  | nil => rfl
  | cons x b => rw [quarter, length_cons, length_quarter_from, length_cons]

/-! ## The upper limit -/

theorem beNat_times_four (x : UInt8) (b : Bytes) :
    beNat (times_four (x :: b)) = 256 * (4 * beNat (x :: b) / 256 % 256 ^ b.length) + beNat (x :: b) % 256 := by
  induction b generalizing x with
  | nil =>
    have := x.toNat_lt
    simp only [times_four, length_nil, pow_zero, beNat_cons, beNat_nil]
    omega
  | cons y b ih =>
    rw [times_four, beNat_cons, ih, length_times_four, shl_or_shr, beNat_cons x, length_cons, pow_succ]
    have hy := beNat_cons y b
    have hb := beNat_lt b
    generalize beNat (y :: b) = n at *
    generalize hP : 256 ^ b.length = P at *
    have hpos : 0 < P := by rw [← hP]; positivity
    -- a quarter of a byte of the rest is carried over
    have hcarry : n / 64 / P = y.toNat / 64 := by
      rw [Nat.div_div_eq_div_mul, Nat.mul_comm 64, ← Nat.div_div_eq_div_mul, hy,
        Nat.mul_comm, Nat.mul_add_div hpos, Nat.div_eq_of_lt hb, Nat.add_zero]
    have hquot : 4 * (x.toNat * (P * 256) + n) / 256 = (4 * x.toNat + y.toNat / 64) * P + n / 64 % P := by
      have hsplit := Nat.div_add_mod (n / 64) P
      rw [hcarry] at hsplit
      have h1 : 4 * (x.toNat * (P * 256) + n) / 256 = 4 * x.toNat * P + n / 64 := by
        rw [show 4 * (x.toNat * (P * 256) + n) = 256 * (4 * x.toNat * P) + 4 * n by ring]
        omega
      rw [Nat.add_mul, Nat.mul_comm (y.toNat / 64)]
      omega
    have hmod : ((4 * x.toNat + y.toNat / 64) * P + n / 64 % P) % (P * 256) =
        (4 * x.toNat + y.toNat / 64) % 256 * P + n / 64 % P := by
      rw [Nat.mod_mul, Nat.mul_comm _ P, Nat.mul_add_mod, Nat.mod_mod, Nat.mul_add_div hpos,
        Nat.div_eq_of_lt (Nat.mod_lt _ hpos), Nat.add_zero, Nat.mul_comm P, Nat.add_comm]
    have hlow : 4 * n / 256 % P = n / 64 % P := by
      rw [show 4 * n / 256 = n / 64 by omega]
    rw [hquot, show x.toNat * (P * 256) = x.toNat * P * 256 by ring]
    have hassoc : 256 * ((4 * x.toNat + y.toNat / 64) % 256 * P + n / 64 % P) =
        (4 * x.toNat + y.toNat / 64) % 256 * (P * 256) + 256 * (n / 64 % P) := by ring
    omega

/-! ## The lower limit -/

def quarterBehind (c : Nat) (b : Bytes) : Nat := (c % 4 * 256 ^ b.length + beNat b) / 4

theorem quarterBehind_cons (c : Nat) (x : UInt8) (b : Bytes) :
    quarterBehind c (x :: b) = (x.toNat / 4 + 64 * (c % 4)) * 256 ^ b.length + quarterBehind x.toNat b := by
  unfold quarterBehind
  rw [beNat_cons, length_cons, pow_succ]
  generalize 256 ^ b.length = P
  have hx := Nat.div_add_mod x.toNat 4
  generalize x.toNat / 4 = q at *
  generalize x.toNat % 4 = r at *
  rw [← hx, show c % 4 * (P * 256) + ((4 * q + r) * P + beNat b) = 4 * ((q + 64 * (c % 4)) * P) + (r * P + beNat b) by ring,
    Nat.mul_add_div (by norm_num)]

theorem quarterBehind_lt (c : Nat) (b : Bytes) : quarterBehind c b < 256 ^ b.length := by
  have hb := beNat_lt b
  have hc : c % 4 * 256 ^ b.length ≤ 3 * 256 ^ b.length := Nat.mul_le_mul_right _ (by omega)
  unfold quarterBehind
  omega

theorem digit_eq_iff {a b m n P : Nat} (hm : m < P) (hn : n < P) : a * P + m = b * P + n ↔ a = b ∧ m = n := by
  constructor
  · intro h
    have hpos : 0 < P := by omega
    have hdiv := congrArg (· / P) h
    simp only [Nat.mul_comm _ P, Nat.mul_add_div hpos, Nat.div_eq_of_lt hm, Nat.div_eq_of_lt hn, Nat.add_zero] at hdiv
    subst hdiv
    exact ⟨rfl, by omega⟩
  · rintro ⟨rfl, rfl⟩
    rfl

/-- The loop is right if the two lower pairs of bits of every byte that it hands on are the same. -/
theorem quarter_from_eq_iff (prev c : UInt8) (b : Bytes) :
    beNat (quarter_from prev b) = quarterBehind c.toNat b ↔
      b = [] ∨ (prev.toNat % 4 = c.toNat % 4 ∧ ∀ x ∈ b.dropLast, x.toNat / 4 % 4 = x.toNat % 4) := by
  induction b generalizing prev c with
  | nil => simp [quarter_from, quarterBehind]
  | cons x b ih =>
    have hrest := beNat_lt (quarter_from (x >>> 2 ||| prev <<< 6) b)
    rw [length_quarter_from] at hrest
    rw [quarter_from, beNat_cons, length_quarter_from, quarterBehind_cons, digit_eq_iff hrest (quarterBehind_lt _ _), ih,
      shr_or_shl]
    simp only [reduceCtorEq, false_or]
    cases b with
    | nil => simp only [true_or, and_true, dropLast_singleton, not_mem_nil, false_implies, implies_true]; omega
    | cons y b =>
      simp only [reduceCtorEq, false_or, dropLast_cons_cons, mem_cons, forall_eq_or_imp]
      have hmod : (x.toNat / 4 + 64 * (prev.toNat % 4)) % 4 = x.toNat / 4 % 4 := by omega
      rw [hmod]
      have hdigit : x.toNat / 4 + 64 * (prev.toNat % 4) = x.toNat / 4 + 64 * (c.toNat % 4) ↔
          prev.toNat % 4 = c.toNat % 4 := by omega
      rw [hdigit]

theorem div_four_eq (x : UInt8) (b : Bytes) :
    beNat (x :: b) / 4 = x.toNat / 4 * 256 ^ b.length + quarterBehind x.toNat b := by
  have h := quarterBehind_cons 0 x b
  simpa [quarterBehind] using h

theorem beNat_quarter (x : UInt8) (b : Bytes) :
    beNat (quarter (x :: b)) = x.toNat * 256 ^ b.length + beNat (quarter_from x b) := by
  rw [quarter, beNat_cons, length_quarter_from]

theorem beNat_quarter_from_lt (x : UInt8) (b : Bytes) : beNat (quarter_from x b) < 256 ^ b.length := by
  have := beNat_lt (quarter_from x b)
  rwa [length_quarter_from] at this

theorem quarter_eq_iff (x : UInt8) (b : Bytes) :
    beNat (quarter (x :: b)) = beNat (x :: b) / 4 ↔
      x = 0 ∧ ∀ y ∈ b.dropLast, y.toNat / 4 % 4 = y.toNat % 4 := by
  rw [beNat_quarter, div_four_eq, digit_eq_iff (beNat_quarter_from_lt x b) (quarterBehind_lt _ _), quarter_from_eq_iff]
  have hzero : x.toNat = x.toNat / 4 ↔ x = 0 := by
    rw [← UInt8.toNat_inj]
    show _ ↔ x.toNat = 0
    omega
  rw [hzero]
  constructor
  · rintro ⟨hx, rfl | ⟨-, h⟩⟩
    · exact ⟨hx, by simp⟩
    · exact ⟨hx, h⟩
  · rintro ⟨hx, h⟩
    exact ⟨hx, .inr ⟨rfl, h⟩⟩

theorem quarter_gt {x : UInt8} (hx : x ≠ 0) (b : Bytes) : beNat (x :: b) / 4 < beNat (quarter (x :: b)) := by
  have hpos : x.toNat ≠ 0 := fun h => hx (UInt8.toNat_inj.1 h)
  have hbehind := quarterBehind_lt x.toNat b
  have hle : (x.toNat / 4 + 1) * 256 ^ b.length ≤ x.toNat * 256 ^ b.length := Nat.mul_le_mul_right _ (by omega)
  rw [Nat.add_mul] at hle
  rw [beNat_quarter, div_four_eq]
  omega

/-! ## What the check accepts -/

def WithinFour (old new : Bytes) : Prop := beNat old / 4 ≤ beNat new ∧ beNat new ≤ 4 * beNat old

theorem memcmp_pos_iff {a b : Bytes} (h : a.length = b.length) : 0 < memcmp a b ↔ beNat b < beNat a := by
  obtain ⟨hlt, heq⟩ := memcmp_eq_compare h
  omega

theorem ok_new_target_check {old new : Bytes} (h : new.length = old.length) :
    Guarded.ok (btc_new_target_check old new) () ↔
      beNat (quarter old) ≤ beNat new ∧ beNat new ≤ beNat (times_four old) := by
  unfold btc_new_target_check
  have hup := (memcmp_eq_compare (a := times_four old) (b := new) (by simp [h])).1
  have hlow := memcmp_pos_iff (a := quarter old) (b := new) (by simp [h])
  simp only [hup, hlow, Guarded.ok_check, Guarded.ok_ite_throw, Guarded.ok_pure, and_true, not_lt]
  exact and_comm

/-- No loop of the check loses bits of this target: the first and the last byte are zero, and the lower two pairs of
bits of every byte are the same. -/
def FourSafe (old : Bytes) : Prop :=
  old.getD 0 0 = 0 ∧ old.getD 31 0 = 0 ∧ ∀ x ∈ old, x.toNat / 4 % 4 = x.toNat % 4

instance (old : Bytes) : Decidable (FourSafe old) :=
  inferInstanceAs (Decidable (_ ∧ _ ∧ ∀ x ∈ old, x.toNat / 4 % 4 = x.toNat % 4))

theorem times_four_eq_iff {init : Bytes} (z : UInt8) :
    beNat (times_four (0 :: (init ++ [z]))) = 4 * beNat (0 :: (init ++ [z])) ↔ z = 0 := by
  have hvalue : beNat (0 :: (init ++ [z])) = beNat init * 256 + z.toNat := by
    rw [beNat_cons, beNat_append]
    simp
  have hlt : beNat (0 :: (init ++ [z])) < 256 ^ (init ++ [z]).length := by
    have := beNat_lt (init ++ [z])
    rw [beNat_cons]
    simpa using this
  have hz := z.toNat_lt
  rw [beNat_times_four, Nat.mod_eq_of_lt (by omega), ← UInt8.toNat_inj]
  show _ ↔ z.toNat = 0
  omega

theorem limits_eq_iff {old : Bytes} (h : old.length = 32) :
    (beNat (quarter old) = beNat old / 4 ∧ beNat (times_four old) = 4 * beNat old) ↔ FourSafe old := by
  obtain ⟨x, b, rfl⟩ := exists_cons_of_length_eq_add_one h
  obtain ⟨init, z, rfl⟩ : ∃ init z, b = init ++ [z] :=
    ⟨b.dropLast, b.getLast (by rintro rfl; simp at h), (dropLast_append_getLast _).symm⟩
  have hinit : init.length = 30 := by simpa using h
  have hlast : (x :: (init ++ [z])).getD 31 0 = z := by
    simp [← hinit]
  unfold FourSafe
  rw [quarter_eq_iff, hlast, dropLast_concat]
  constructor
  · rintro ⟨⟨rfl, hmid⟩, hup⟩
    have hz := (times_four_eq_iff z).1 hup
    subst hz
    refine ⟨rfl, rfl, ?_⟩
    simp only [mem_cons, mem_append, not_mem_nil, or_false]
    rintro y (rfl | hy | rfl)
    · rfl
    · exact hmid y hy
    · rfl
  · rintro ⟨rfl, rfl, hmid⟩
    exact ⟨⟨rfl, fun y hy => hmid y (by simp [hy])⟩, (times_four_eq_iff 0).2 rfl⟩

theorem exists_target {n : Nat} (h : n < 256 ^ 32) : ∃ new : Bytes, new.length = 32 ∧ beNat new = n :=
  ⟨beFix 32 n, length_beFix 32 n, by rw [beNat_beFix, Nat.mod_eq_of_lt h]⟩

/-- The check accepts what is within the factor four, for every new target, exactly if no bits are lost. -/
theorem new_target_check_exact_iff {old : Bytes} (h : old.length = 32) :
    (∀ new : Bytes, new.length = 32 → (Guarded.ok (btc_new_target_check old new) () ↔ WithinFour old new)) ↔
      FourSafe old := by
  rw [← limits_eq_iff h]
  constructor
  · intro hall
    have hbelow := beNat_lt old
    rw [h] at hbelow
    have hiff : ∀ n < 256 ^ 32, beNat (quarter old) ≤ n ∧ n ≤ beNat (times_four old) ↔ beNat old / 4 ≤ n ∧ n ≤ 4 * beNat old := by
      intro n hn
      obtain ⟨new, hlen, rfl⟩ := exists_target hn
      rw [← ok_new_target_check (by omega)]
      exact hall new hlen
    -- the check must accept the lowest target that is allowed
    have haccept := ((hiff (beNat old / 4) (by omega)).2 ⟨le_rfl, by omega⟩).1
    obtain ⟨x, b, rfl⟩ := exists_cons_of_length_eq_add_one h
    have hx : x = 0 := by
      by_contra hne
      exact absurd (quarter_gt hne b) (by omega)
    have hsmall : beNat (x :: b) < 256 ^ 31 := by
      have := beNat_lt b
      rw [show b.length = 31 by simpa using h] at this
      rw [beNat_cons, hx]
      simpa using this
    have hup := ((hiff (4 * beNat (x :: b)) (by omega)).2 ⟨by omega, le_rfl⟩).2
    -- and it must not accept the neighbours of both limits
    constructor
    · by_contra hne
      have := ((hiff (beNat (x :: b) / 4 - 1) (by omega)).1 ⟨by omega, by omega⟩).1
      omega
    · by_contra hne
      have := ((hiff (4 * beNat (x :: b) + 1) (by omega)).1 ⟨by omega, by omega⟩).2
      omega
  · rintro ⟨hlow, hup⟩ new hlen
    rw [ok_new_target_check (by omega), hlow, hup, WithinFour]

/-! The limits as numbers -/

/-- Four times the old target, but for the last byte and the bits that leave the first one. -/
def upperLimit (old : Bytes) : Nat := 256 * (4 * beNat old / 256 % 256 ^ (old.length - 1)) + beNat old % 256

/-- A quarter of the old target, but for the first byte; from the third byte on the bits that are handed on are those
of the quarter of the byte before. -/
def lowerLimit : Bytes → Nat
  | [] => 0
  | a :: rest =>
    beNat (a :: zipWith (fun x c => UInt8.ofNat (x.toNat / 4 + 64 * (c % 4))) rest (a.toNat :: rest.map (·.toNat / 4)))

theorem quarter_from_eq_zipWith {prev : UInt8} {c : Nat} (h : prev.toNat % 4 = c % 4) (b : Bytes) :
    quarter_from prev b =
      zipWith (fun x c => UInt8.ofNat (x.toNat / 4 + 64 * (c % 4))) b (c :: b.map (·.toNat / 4)) := by
  induction b generalizing prev c with
  | nil => rfl
  | cons x b ih =>
    have hbyte := shr_or_shl prev x
    have hx := x.toNat_lt
    rw [quarter_from, ih (c := x.toNat / 4) (by rw [hbyte]; omega)]
    congr 1
    rw [← UInt8.toNat_inj, UInt8.toNat_ofNat']
    omega

theorem lowerLimit_eq (old : Bytes) : lowerLimit old = beNat (quarter old) := by
  cases old with
  | nil => rfl
  | cons a rest => rw [lowerLimit, quarter, quarter_from_eq_zipWith rfl]

theorem upperLimit_eq {old : Bytes} (h : old ≠ []) : upperLimit old = beNat (times_four old) := by
  obtain ⟨a, rest, rfl⟩ := exists_cons_of_ne_nil h
  rw [beNat_times_four, upperLimit, length_cons, Nat.add_sub_cancel]

/-- What the check accepts, and the old targets for which that is right whatever the new target is. -/
theorem new_target_check_iff {old : Bytes} (h : old.length = 32) :
    ((∀ new : Bytes, new.length = 32 → (Guarded.ok (btc_new_target_check old new) () ↔ WithinFour old new)) ↔
      FourSafe old) ∧
    ∀ new : Bytes, new.length = 32 →
      (Guarded.ok (btc_new_target_check old new) () ↔ lowerLimit old ≤ beNat new ∧ beNat new ≤ upperLimit old) := by
  refine ⟨new_target_check_exact_iff h, fun new hnew => ?_⟩
  rw [lowerLimit_eq, upperLimit_eq (by rintro rfl; simp at h)]
  exact ok_new_target_check (by omega)

/-- The target of the first blocks has no such bits, and four times it is accepted. -/
theorem new_target_check_at_genesis :
    FourSafe (replicate 4 0 ++ [0xFF, 0xFF] ++ replicate 26 0) ∧
      Guarded.ok (btc_new_target_check (replicate 4 0 ++ [0xFF, 0xFF] ++ replicate 26 0)
        ([0, 0, 0, 3, 0xFF, 0xFC] ++ replicate 26 0)) () := by
  have hsafe : FourSafe (replicate 4 0 ++ [0xFF, 0xFF] ++ replicate 26 0) := by decide +kernel
  refine ⟨hsafe, (((new_target_check_iff rfl).1.2 hsafe) _ rfl).2 ⟨?_, ?_⟩⟩
  · decide
  · decide

/-- Four times 4 is 16, which is refused, and so is a target above a quarter of the one with the bits `1b0404cb`. -/
theorem new_target_check_refuses :
    (WithinFour (replicate 31 0 ++ [4]) (replicate 31 0 ++ [16]) ∧
      Guarded.raises (btc_new_target_check (replicate 31 0 ++ [4]) (replicate 31 0 ++ [16]))
        (.vc_err "new target is more than 4 times the old target")) ∧
    (WithinFour (replicate 5 0 ++ [4, 4, 0xCB] ++ replicate 24 0)
        (replicate 5 0 ++ [1, 2, 0] ++ replicate 24 0) ∧
      Guarded.raises (btc_new_target_check (replicate 5 0 ++ [4, 4, 0xCB] ++ replicate 24 0)
          (replicate 5 0 ++ [1, 2, 0] ++ replicate 24 0))
        (.vc_err "new target is less than one 4th of the old target")) := by
  refine ⟨⟨⟨?_, ?_⟩, ?_⟩, ⟨?_, ?_⟩, ?_⟩
  · decide
  · decide
  · rfl
  · decide
  · decide
  · rfl

end In3.Btc
