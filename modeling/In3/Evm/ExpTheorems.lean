import In3.Evm.Quiet
import In3.Evm.ShiftTheorems
/-!
# Powers

EXP has a price for each significant byte of its exponent. `big_log256` counts them and does not stop at the end
of the exponent, so that for the exponent zero it reads what is behind it in the buffer of the stack. For every other
exponent the price and the power are right.
-/
open Lib Machine

namespace In3.Evm

/-- The number of significant bytes of a number. -/
def sig_bytes (n : Nat) : Nat := (beBytes n).length

theorem sig_bytes_cons {x : UInt8} (hx : x ≠ 0) (t : Bytes) : sig_bytes (beNat (x :: t)) = t.length + 1 := by
  unfold sig_bytes
  rw [beBytes_eq_beFix (le_beNat_cons hx) (beNat_lt (x :: t)), length_beFix]

theorem big_log256_ok {b : Bytes} (hb : 0 < beNat b) (hlen : b.length ≤ 32) (mem : Bytes) :
    Guarded.ok (big_log256 (b ++ mem) b.length) (sig_bytes (beNat b)) := by
  induction b with
  | nil => exact absurd hb (by simp)
  | cons x t ih =>
    rw [List.length_cons] at hlen
    rw [List.cons_append, big_log256]
    by_cases hx : x = 0
    · have hnum : beNat (x :: t) = beNat t := by simp [hx, beNat_cons]
      have hdec : ((x :: t).length + 255) % 256 = t.length := by
        rw [List.length_cons]
        omega
      rw [if_pos hx, hdec, hnum]
      exact ih (hnum ▸ hb) (by omega)
    · rw [if_neg hx, sig_bytes_cons hx]
      exact Guarded.ok_pure.2 rfl

theorem big_log256_zero {b : Bytes} (hb : beNat b = 0) (len n : Nat) : ¬ Guarded.ok (big_log256 b len) n := by
  induction b generalizing len with
  | nil => exact Guarded.ok_fault
  | cons x t ih =>
    have hle := beNat_cons x t
    have hx : x.toNat = 0 := by
      have hpow : 0 < 256 ^ t.length := Nat.pow_pos (by norm_num)
      rcases Nat.eq_zero_or_pos x.toNat with h0 | hpos
      · exact h0
      · have := Nat.mul_pos hpos hpow
        omega
    have hx0 : x = 0 := UInt8.toNat_inj.1 hx
    rw [big_log256, if_pos hx0]
    exact ih (by omega) _

/-! ## The power -/

theorem optimize_eq_zero_iff {b : Bytes} : (optimize_len b = [] ∨ optimize_len b = [0]) ↔ beNat b = 0 := by
  rw [← (optimized_optimize_len b).beNat_eq_zero, optimize_len, beNat_stripZeros]

theorem shift_power (x : UInt8) :
    let p := optimize_len (big_shift_left (List.replicate 63 0 ++ [1]) x.toNat)
    p.length ≤ 32 ∧ beNat p = 2 ^ x.toNat := by
  have hx := x.toNat_lt
  have hone : beNat (List.replicate 63 0 ++ [1]) = 1 := by decide
  have hlen : (List.replicate 63 (0 : UInt8) ++ [1]).length = 64 := by simp
  have hbits : x.toNat / 8 ≤ (List.replicate 63 (0 : UInt8) ++ [1]).length := by
    omega
  obtain ⟨-, hval⟩ := big_shift_left_eq hbits
  have hlt : 2 ^ x.toNat < 256 ^ 32 := by
    rw [← pow_word]
    exact Nat.pow_lt_pow_right (by norm_num) (by omega)
  rw [hone, Nat.one_mul, Nat.mod_eq_of_lt (lt_of_lt_of_le hlt (Nat.pow_le_pow_right (by norm_num) (by norm_num)))] at hval
  rw [optimize_len, ← beBytes_beNat (by rw [hval]; exact Nat.pow_pos (by norm_num)), hval]
  exact ⟨length_beBytes_le hlt, beNat_beBytes _⟩

theorem big_exp_eq {a : Bytes} (ha : a.length ≤ 32) (b : Bytes) :
    (big_exp a b).length ≤ 32 ∧ beNat (big_exp a b) = beNat a ^ beNat b % 2 ^ 256 := by
  obtain ⟨hla, hna⟩ := optimize_len_word ha
  have hnb : beNat (optimize_len b) = beNat b := beNat_stripZeros b
  have hlt : beNat a < 2 ^ 256 := by
    exact beNat_lt_of_le ha
  unfold big_exp
  dsimp only
  by_cases h0 : optimize_len b = [] ∨ optimize_len b = [0]
  · rw [if_pos h0, optimize_eq_zero_iff.1 h0, pow_zero]
    exact ⟨by decide, by decide⟩
  rw [if_neg h0]
  by_cases h1 : optimize_len b = [1]
  · have hone : beNat b = 1 := by
      rw [← hnb, h1]
      rfl
    rw [if_pos h1, hone, pow_one, Nat.mod_eq_of_lt hlt]
    exact ⟨hla, hna⟩
  rw [if_neg h1]
  by_cases h2 : optimize_len a = [2]
  · have htwo : beNat a = 2 := by
      rw [← hna, h2]
      rfl
    rw [if_pos h2, htwo]
    have hopt := optimized_optimize_len b
    rcases hb : optimize_len b with _ | ⟨x, t⟩
    · exact absurd (.inl hb) h0
    rw [hb] at hnb hopt
    by_cases hlong : 1 < (x :: t).length
    · -- an exponent of two bytes
      have hx : x ≠ 0 := by
        intro hx
        rw [hopt x t rfl hx] at hlong
        exact absurd hlong (by simp)
      have hle := le_beNat_cons (b := t) hx
      have hpow : 256 ^ 1 ≤ 256 ^ t.length := Nat.pow_le_pow_right (by norm_num) (Nat.lt_succ_iff.1 hlong)
      have hdvd : 2 ^ 256 ∣ 2 ^ beNat b := Nat.pow_dvd_pow 2 (by omega)
      rw [if_pos hlong, Nat.mod_eq_zero_of_dvd hdvd]
      exact ⟨by decide, rfl⟩
    · have ht : t = [] := by simpa using hlong
      subst ht
      obtain ⟨hlen, hval⟩ := shift_power x
      have hx : beNat b = x.toNat := by rw [← hnb, beNat_singleton]
      rw [if_neg hlong, List.headD_cons, Nat.sub_eq_zero_of_le hlen, List.drop_zero, hval, hx,
        Nat.mod_eq_of_lt (Nat.pow_lt_pow_right (by norm_num) x.toNat_lt)]
      exact ⟨hlen, rfl⟩
  · rw [if_neg h2, hna, hnb, beNat_export_byte]
    refine ⟨(length_export_byte (by norm_num) ?_).1, rfl⟩
    exact Nat.mod_lt _ (by norm_num)

/-! ## The operation -/

def exp_price (evm : evm_t) (n : Nat) : Nat := (if evm.properties.FRONTIER then 10 else 50) * sig_bytes n

/-- The bytes are counted inside of the exponent, the price is paid, and the power is pushed. -/
structure ExpRight (vm : Vm) (a b : Bytes) (rest : List Bytes) : Prop where
  log : Guarded.ok (big_log256 b b.length) (sig_bytes (beNat b))
  pushes : exp_price vm.evm (beNat b) ≤ vm.evm.gas →
    ∃ s e, ends (op_math .EXP false) vm (.ok ())
      { vm with evm := { vm.evm with stack := s, gas := vm.evm.gas - exp_price vm.evm (beNat b) } } ∧
      s.entries = e :: rest ∧ beNat e = beNat a ^ beNat b % 2 ^ 256
  unpaid : vm.evm.gas < exp_price vm.evm (beNat b) →
    ∃ vm', ends (op_math .EXP false) vm (.error EVM_ERROR_OUT_OF_GAS) vm'

section
variable {vm : Vm} {a b : Bytes} {rest : List Bytes}

theorem math_exp_ends {s : Stack} {mem : Bytes} (hpos : 0 < beNat b) (hb : b.length ≤ 32) (hslack : s.slack = b ++ mem)
    {r : Except Int Bytes} {vm' : Vm} :
    ends (math_switch .EXP false a b) (vm.withStack s) r vm' ↔
      ends (subgas (exp_price vm.evm (beNat b)) >>= fun _ => pure (big_exp a b)) (vm.withStack s) r vm' := by
  have hlog := big_log256_ok hpos hb mem
  rw [← hslack] at hlog
  unfold math_switch
  rw [ends_getEvm_bind, Vm.withStack_stack,
    ends_bind_of_ok (ends_checked_ok.2 ⟨hlog, rfl⟩)]
  rfl

/-- EXP is right for every exponent but zero, for which it reads behind it. -/
theorem exp_iff (h : vm.evm.stack.entries = a :: b :: rest) : ExpRight vm a b rest ↔ 0 < beNat b := by
  constructor
  · intro hright
    by_contra hzero
    exact big_log256_zero (by omega) _ _ hright.log
  · intro hpos
    obtain ⟨ha, hb, hcount⟩ := two_entries h
    obtain ⟨s, hs, ⟨mem, hslack⟩, hbind⟩ := pop_two_slack h
    obtain ⟨hlen, hval⟩ := big_exp_eq ha b
    have hop : ∀ {r vm'}, ends (op_math .EXP false) vm r vm' ↔
        ends (math_switch .EXP false a b >>= fun r => evm_stack_push (optimize_len r)) (vm.withStack s) r vm' := by
      intro r vm'
      unfold op_math
      rw [hbind]
      rfl
    refine ⟨?_, fun hgas => ?_, fun hgas => ?_⟩
    · have := big_log256_ok hpos hb []
      rwa [List.append_nil] at this
    · obtain ⟨t, hpush, hentries⟩ := push_ends { vm with evm := { vm.evm with gas := vm.evm.gas - exp_price vm.evm (beNat b) } }
        (optimize_len (big_exp a b)) hs hcount ((length_stripZeros_le _).trans hlen)
      refine ⟨t, _, ?_, hentries, by rw [optimize_len, beNat_stripZeros, hval]⟩
      rw [hop, ends_bind_ok]
      refine ⟨_, _, (math_exp_ends hpos hb hslack).2 ?_, hpush⟩
      exact ends_bind_ok.2 ⟨_, _, subgas_pays hgas, ends_pure.2 ⟨rfl, rfl⟩⟩
    · obtain ⟨vm', hfail⟩ := subgas_fails (show (vm.withStack s).evm.gas < _ from hgas)
      refine ⟨vm', hop.2 (ends_bind.2 (.inr ⟨_, rfl, (math_exp_ends hpos hb hslack).2 ?_⟩))⟩
      exact ends_bind.2 (.inr ⟨_, rfl, hfail⟩)

end

theorem exp_of_three_and_five : ExpRight (Vm.ofStack ⟨[[3], [0, 5]], [], by decide, by decide⟩) [3] [0, 5] [] :=
  (exp_iff rfl).2 (by decide)

/-- Behind the exponent zero a byte is read, and behind an empty one as many as there are until one is not zero. -/
theorem exp_of_zero :
    Guarded.faults (big_log256 [0] 1) (.read 0 0) ∧ Guarded.ok (big_log256 ([] ++ [0, 3, 1]) 0) 255 := by
  decide

end In3.Evm
