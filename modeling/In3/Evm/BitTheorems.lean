import In3.Evm.SignedTheorems
/-!
# Bits, comparisons and shifts

The operations that align two byte strings of different lengths, and those that read a small number
from the stack first. `evm_stack_pop_int` cuts a number at 28 bits and `evm_stack_pop_byte` at 8;
both see the number of the entry, except that an empty entry is no byte.
-/
open Lib List

namespace In3.Evm

/-! ## Small numbers -/

set_option maxRecDepth 5000 in
theorem and_240_eq_zero (x : UInt8) : x &&& 0xF0 = 0 ↔ x.toNat < 16 := by
  have all : ∀ n : Fin 256, (UInt8.ofFin n) &&& 0xF0 = 0 ↔ (UInt8.ofFin n).toNat < 16 := by decide
  exact all x.toFin

set_option maxRecDepth 5000 in
theorem and_224_eq_zero (x : UInt8) : x &&& 0xE0 = 0 ↔ x.toNat < 32 := by
  have all : ∀ n : Fin 256, (UInt8.ofFin n) &&& 0xE0 = 0 ↔ (UInt8.ofFin n).toNat < 32 := by decide
  exact all x.toFin

theorem pop_int_value (e : Bytes) :
    (if 4 < (optimize_len e).length ∨ (optimize_len e).length = 4 ∧ (optimize_len e).headD 0 &&& 0xF0 ≠ 0 then MEM_LIMIT
      else bytes_to_int (optimize_len e)) = min (beNat e) MEM_LIMIT := by
  have hopt := optimized_optimize_len e
  have hnum : beNat (optimize_len e) = beNat e := beNat_stripZeros e
  rw [← hnum]
  generalize optimize_len e = p at *
  have hlt := beNat_lt p
  have hlim : MEM_LIMIT = 2 ^ 28 - 1 := rfl
  rcases p with _ | ⟨x, t⟩
  · simp [bytes_to_int]
  · by_cases hlong : 4 < (x :: t).length
    · -- five significant bytes
      have hx0 : x ≠ 0 := by
        intro h0
        rw [hopt x t rfl h0] at hlong
        simp at hlong
      have hle := le_beNat_cons (b := t) hx0
      have hpow : 256 ^ 4 ≤ 256 ^ t.length := Nat.pow_le_pow_right (by norm_num) (by simpa using hlong)
      rw [if_pos (.inl hlong)]
      omega
    · have hint : bytes_to_int (x :: t) = beNat (x :: t) := by
        rw [bytes_to_int, take_of_length_le (by omega)]
      by_cases h4 : (x :: t).length = 4
      · have ht : t.length = 3 := by simpa using h4
        have htlt := beNat_lt t
        rw [ht] at htlt
        have hval := beNat_cons x t
        rw [ht] at hval
        by_cases hbit : x &&& 0xF0 = 0
        · have h16 := (and_240_eq_zero x).1 hbit
          rw [if_neg (by simp [h4, hbit])]
          omega
        · have h16 := mt (and_240_eq_zero x).2 hbit
          rw [if_pos (.inr ⟨h4, hbit⟩)]
          omega
      · have hpow : 256 ^ (x :: t).length ≤ 256 ^ 3 := Nat.pow_le_pow_right (by norm_num) (by omega)
        rw [if_neg (by simp only [h4, false_and, or_false]; exact hlong)]
        omega

variable {a e res : Bytes} {rest : List Bytes} {vm : Vm}

theorem pop_int_bind (h : vm.evm.stack.entries = e :: rest) :
    ∃ s : Stack, s.entries = rest ∧ ∀ {α : Type} (f : Nat → M α) (r : Except Int α) (vm' : Vm),
      Machine.ends (evm_stack_pop_int >>= f) vm r vm' ↔
        Machine.ends (f (min (beNat e) MEM_LIMIT)) (vm.withStack s) r vm' := by
  obtain ⟨s, hs, hbind⟩ := pop_ref_bind h
  refine ⟨s, hs, fun f r vm' => ?_⟩
  have hends : Machine.ends evm_stack_pop_int vm (.ok (min (beNat e) MEM_LIMIT)) (vm.withStack s) := by
    unfold evm_stack_pop_int
    rw [hbind]
    exact Machine.ends_pure.2 ⟨by rw [pop_int_value], rfl⟩
  exact Machine.ends_bind_of_ok hends

theorem pop_byte_value (h : e ≠ []) :
    (if e.dropLast.any (· ≠ 0) then none else e.getLast?) =
      if beNat e < 256 then some (UInt8.ofNat (beNat e)) else none := by
  have hsplit := dropLast_append_getLast h
  have hval := beNat_concat e.dropLast (e.getLast h)
  rw [hsplit] at hval
  have hlt := (e.getLast h).toNat_lt
  have hany := any_ne_zero_iff e.dropLast
  by_cases h0 : 0 < beNat e.dropLast
  · rw [if_pos (hany.2 h0), if_neg (by omega)]
  · rw [if_neg (fun hc => h0 (hany.1 hc)), if_pos (by omega), List.getLast?_eq_getLast_of_ne_nil h]
    have hnum : beNat e = (e.getLast h).toNat := by omega
    rw [hnum, UInt8.ofNat_toNat]

theorem pop_byte_bind (h : vm.evm.stack.entries = e :: rest) :
    ∃ s : Stack, s.entries = rest ∧ ∀ {α : Type} (f : Option UInt8 → M α) (r : Except Int α) (vm' : Vm),
      Machine.ends (evm_stack_pop_byte >>= f) vm r vm' ↔
        Machine.ends (f (if e ≠ [] ∧ beNat e < 256 then some (UInt8.ofNat (beNat e)) else none)) (vm.withStack s) r vm' := by
  obtain ⟨s, hs, hbind⟩ := pop_ref_bind h
  refine ⟨s, hs, fun f r vm' => ?_⟩
  have hends : Machine.ends evm_stack_pop_byte vm
      (.ok (if e ≠ [] ∧ beNat e < 256 then some (UInt8.ofNat (beNat e)) else none)) (vm.withStack s) := by
    unfold evm_stack_pop_byte
    rw [hbind]
    by_cases he : e = []
    · simp [he]
    · rw [pop_byte_value he]
      simp [he]
  exact Machine.ends_bind_of_ok hends

/-! ## Bitwise operations -/

theorem beNat_map_not (b : Bytes) : beNat (b.map (· ^^^ 0xFF)) + beNat b + 1 = 256 ^ b.length := by
  induction b with
  | nil => rfl
  | cons x b ih =>
    have hx := x.toNat_lt
    rw [map_cons, beNat_cons, beNat_cons, length_map, toNat_xor_255, length_cons]
    have hsum : (255 - x.toNat) * 256 ^ b.length + x.toNat * 256 ^ b.length = 255 * 256 ^ b.length := by
      rw [← Nat.add_mul]
      congr 1
      omega
    omega

def BIT.word : BIT → Nat → Nat → Nat
  | .AND, m, n => m &&& n
  | .OR, m, n => m ||| n
  | .XOR, m, n => m ^^^ n

theorem beNat_aligned {f : Nat → Nat → Nat} {g : Bool → Bool → Bool} {f8 : UInt8 → UInt8 → UInt8}
    (hf : ∀ x y i, (f x y).testBit i = g (x.testBit i) (y.testBit i)) (h0 : g false false = false)
    (h8 : ∀ x y : UInt8, (f8 x y).toNat = f x.toNat y.toNat) (h : a.length ≤ res.length) :
    f (beNat res) (beNat a) = f (beNat (res.take (res.length - a.length))) 0 * 256 ^ a.length +
      beNat (zipWith f8 (res.drop (res.length - a.length)) a) := by
  have hsplit := beNat_take_drop res h
  have hlen : (res.drop (res.length - a.length)).length = a.length := by
    rw [length_drop]
    omega
  have hlt := beNat_lt (res.drop (res.length - a.length))
  have ha := beNat_lt a
  rw [hlen, pow_256_eq] at hlt
  rw [pow_256_eq] at ha hsplit
  have hzero : beNat a = 0 * 2 ^ (8 * a.length) + beNat a := by omega
  rw [hsplit, hzero, bitwise_split hf hlt ha (bitwise_lt hf h0 hlt ha), beNat_zipWith hf h0 h8 hlen, pow_256_eq]

theorem beNat_bit_switch (op : BIT) (h : a.length ≤ res.length) :
    beNat (bit_switch op res a) = op.word (beNat res) (beNat a) := by
  have hlen : (res.length - (res.length - a.length)) = a.length := by omega
  cases op with
  | AND =>
    rw [BIT.word, beNat_aligned Nat.testBit_and rfl UInt8.toNat_and h, bit_switch, beNat_zeros]
    simp
  | OR =>
    rw [BIT.word, beNat_aligned Nat.testBit_or rfl UInt8.toNat_or h, bit_switch, beNat_append]
    simp [hlen]
  | XOR =>
    rw [BIT.word, beNat_aligned Nat.testBit_xor rfl UInt8.toNat_xor h, bit_switch, beNat_append]
    simp [hlen]

theorem length_bit_switch (op : BIT) (h : a.length ≤ res.length) :
    (bit_switch op res a).length = res.length := by
  cases op <;> simp [bit_switch] <;> omega

/-! ## The operations -/

section
variable {vm : Vm} {a b : Bytes} {rest : List Bytes} {op : M Unit} {r : Bytes}

theorem op_not_pushes (h : vm.evm.stack.entries = a :: rest) : Pushes op_not vm rest (2 ^ 256 - 1 - beNat a) := by
  have ha : a.length ≤ 32 := vm.evm.stack.small a (by rw [h]; simp)
  have hnot := beNat_map_not (padLeft 32 a)
  rw [length_padLeft ha, beNat_padLeft] at hnot
  have hlen : (optimize_len ((padLeft 32 a).map (· ^^^ 0xFF))).length ≤ 32 := by
    refine (length_stripZeros_le _).trans ?_
    rw [length_map, length_padLeft ha]
  have hval : beNat (optimize_len ((padLeft 32 a).map (· ^^^ 0xFF))) = 2 ^ 256 - 1 - beNat a := by
    rw [optimize_len, beNat_stripZeros]
    omega
  rw [← hval]
  exact pop_pushes rfl h hlen rfl

theorem op_is_zero_pushes (h : vm.evm.stack.entries = a :: rest) :
    Pushes op_is_zero vm rest (if beNat a = 0 then 1 else 0) := by
  have hval : (if beNat a = 0 then 1 else 0) = beNat [if a.any (· ≠ 0) then 0 else 1] := by
    have hany := any_ne_zero_iff a
    by_cases h0 : beNat a = 0
    · rw [if_pos h0, if_neg (fun hc => absurd (hany.1 hc) (by omega))]
      rfl
    · rw [if_neg h0, if_pos (hany.2 (by omega))]
      rfl
  rw [hval]
  exact pop_pushes rfl h (by simp) rfl

theorem op_bit_pushes (op : BIT) (h : vm.evm.stack.entries = a :: b :: rest) :
    Pushes (op_bit op) vm rest (op.word (beNat a) (beNat b)) := by
  obtain ⟨ha, hb, -⟩ := two_entries h
  generalize hl : (if b.length < a.length then a.length else b.length) = l
  have hl' : a.length ≤ l ∧ b.length ≤ l ∧ l ≤ 32 := by split at hl <;> omega
  -- the first operand with zeros up to the longer length
  have hpad := length_padLeft ha
  have hres : ((padLeft 32 a).drop (32 - l)).length = l := by
    rw [length_drop]
    omega
  have hnum : beNat ((padLeft 32 a).drop (32 - l)) = beNat a := by
    have hmod := beNat_drop_mod (b := padLeft 32 a) (m := l) (by omega)
    rw [hpad, beNat_padLeft] at hmod
    rw [hmod, Nat.mod_eq_of_lt (beNat_lt_of_le hl'.1)]
  have hval := beNat_bit_switch op (show b.length ≤ ((padLeft 32 a).drop (32 - l)).length by omega)
  have hlen : (optimize_len (bit_switch op ((padLeft 32 a).drop (32 - l)) b)).length ≤ 32 := by
    refine (length_stripZeros_le _).trans ?_
    rw [length_bit_switch op (by omega)]
    omega
  rw [hnum] at hval
  rw [← hval, ← beNat_stripZeros]
  refine pop_two_pushes rfl h hlen ?_
  simp only [hl]
  rfl

theorem cmp_unsigned_pushes (h : vm.evm.stack.entries = a :: b :: rest) :
    Pushes (op_cmp .lt false) vm rest (if beNat a < beNat b then 1 else 0) ∧
      Pushes (op_cmp .gt false) vm rest (if beNat b < beNat a then 1 else 0) ∧
      Pushes (op_cmp .eq false) vm rest (if beNat a = beNat b then 1 else 0) := by
  obtain ⟨hlt, heq⟩ := big_cmp_iff a b
  have hgt := big_cmp_gt_iff a b
  refine ⟨(op_cmp_pushes h).iff.2 ?_, (op_cmp_pushes h).iff.2 ?_, (op_cmp_pushes h).iff.2 ?_⟩
  · simp [cmp_result, hlt]
  · simp [cmp_result, hgt]
  · simp [cmp_result, heq]

theorem op_byte_pushes (h : vm.evm.stack.entries = a :: b :: rest) (ha : a ≠ []) :
    Pushes op_byte vm rest (if beNat a < 32 then beNat b / 256 ^ (31 - beNat a) % 256 else 0) := by
  have hcount := (two_entries h).2.2
  obtain ⟨s, hs, hbyte⟩ := pop_byte_bind h
  obtain ⟨t, ht, hpop⟩ := pop_ref_bind (show (vm.withStack s).evm.stack.entries = b :: rest from hs)
  have hpush : ∀ x : UInt8, ∃ u, Machine.ends (evm_stack_push [x]) (vm.withStack t) (.ok ()) (vm.withStack u) ∧
      u.entries = [x] :: rest := fun x => push_ends vm [x] ht hcount (by simp)
  unfold Pushes op_byte
  simp only [hbyte, hpop]
  by_cases h256 : beNat a < 256
  · have hpos : (UInt8.ofNat (beNat a)).toNat = beNat a := by
      rw [UInt8.toNat_ofNat']
      omega
    have hmask := and_224_eq_zero (UInt8.ofNat (beNat a))
    simp only [ha, h256, ne_eq, not_false_eq_true, and_self, if_true, hpos, hmask]
    by_cases h32 : beNat a < 32
    · by_cases hin : 32 - b.length ≤ beNat a
      · -- the byte is one of the entry
        obtain ⟨x, hx, hval⟩ := ok_rd_place (b := b) (i := beNat a + b.length - 32) (by omega)
        obtain ⟨u, hu, hentries⟩ := hpush x
        refine ⟨u, ?_, [x], hentries, ?_⟩
        · rw [if_neg (by omega), if_pos hin, Machine.ends_bind_ok]
          exact ⟨x, _, ends_checked_ok.2 ⟨hx, rfl⟩, hu⟩
        · rw [beNat_singleton, hval, if_pos h32, ← place_eq_div_mod]
          congr 1
          omega
      · obtain ⟨u, hu, hentries⟩ := hpush 0
        refine ⟨u, ?_, [0], hentries, ?_⟩
        · rw [if_neg (by omega), if_neg hin]
          exact hu
        · rw [if_pos h32, ← place_eq_div_mod, place_of_le (by omega)]
          rfl
    · obtain ⟨u, hu, hentries⟩ := hpush 0
      refine ⟨u, ?_, [0], hentries, ?_⟩
      · rw [if_pos h32]
        exact hu
      · rw [if_neg h32]
        rfl
  · obtain ⟨u, hu, hentries⟩ := hpush 0
    refine ⟨u, ?_, [0], hentries, ?_⟩
    · simp only [h256, and_false]
      exact hu
    · rw [if_neg (by omega)]
      rfl

/-- The 32 bytes of the call data from `p` on, with zeros behind their end. -/
def dataWord (data : Bytes) (p : Nat) : Nat := beNat ((data.drop p ++ replicate 32 0).take 32)

theorem op_dataload_pushes (h : vm.evm.stack.entries = a :: rest) (hdata : vm.evm.call_data.length < 2 ^ 28) :
    Pushes op_dataload vm rest (dataWord vm.evm.call_data (beNat a)) := by
  have hcount := count_lt_of_cons h
  have hlim : MEM_LIMIT = 2 ^ 28 - 1 := rfl
  obtain ⟨s, hs, hint⟩ := pop_int_bind h
  have hcall : (vm.withStack s).evm.call_data = vm.evm.call_data := rfl
  generalize hd : vm.evm.call_data = data at *
  have hzero : data.length ≤ beNat a → dataWord data (beNat a) = 0 := by
    intro hle
    rw [dataWord, drop_of_length_le hle]
    exact beNat_replicate_zero 32
  obtain ⟨u₀, hu₀, hentries₀⟩ := push_ends vm [0] hs hcount (by simp)
  unfold Pushes op_dataload
  simp only [hint, ends_getEvm_bind, hcall]
  by_cases hlt : data.length < min (beNat a) MEM_LIMIT
  · refine ⟨u₀, ?_, [0], hentries₀, ?_⟩
    · rw [if_pos hlt]
      exact hu₀
    · rw [hzero (by omega)]
      rfl
  · rw [if_neg hlt]
    by_cases hend : data.length - min (beNat a) MEM_LIMIT = 0
    · refine ⟨u₀, ?_, [0], hentries₀, ?_⟩
      · rw [if_neg (by omega), if_neg (by omega)]
        exact hu₀
      · rw [hzero (by omega)]
        rfl
    · -- the position is inside of the data, so it was not cut
      have hmin : min (beNat a) MEM_LIMIT = beNat a := by omega
      rw [hmin] at hend ⊢
      by_cases hfull : beNat a + 32 < data.length
      · have hlen : ((data.drop (beNat a)).take 32).length = 32 := by simp; omega
        obtain ⟨u, hu, hentries⟩ := push_ends vm ((data.drop (beNat a)).take 32) hs hcount (by omega)
        refine ⟨u, ?_, _, hentries, ?_⟩
        · rw [if_pos hfull]
          exact hu
        · rw [dataWord, take_append_of_le_length (by simp; omega)]
      · obtain ⟨u, hu, hentries⟩ := push_ends vm
          (data.drop (beNat a) ++ replicate (32 - (data.length - beNat a)) 0) hs hcount (by simp; omega)
        refine ⟨u, ?_, _, hentries, ?_⟩
        · rw [if_neg hfull, if_pos hend]
          exact hu
        · rw [dataWord, take_append, take_of_length_le (by simp; omega), take_replicate, length_drop]
          congr 3
          omega

/-- NOT, ISZERO, CALLDATALOAD, AND, OR, XOR, LT, GT, EQ, and BYTE with an index that is not empty. -/
theorem bit_ops_push (h : vm.evm.stack.entries = a :: rest) :
    Pushes op_not vm rest (2 ^ 256 - 1 - beNat a) ∧
      Pushes op_is_zero vm rest (if beNat a = 0 then 1 else 0) ∧
      (vm.evm.call_data.length < 2 ^ 28 → Pushes op_dataload vm rest (dataWord vm.evm.call_data (beNat a))) ∧
      ∀ b rest', rest = b :: rest' →
        (∀ op : BIT, Pushes (op_bit op) vm rest' (op.word (beNat a) (beNat b))) ∧
        Pushes (op_cmp .lt false) vm rest' (if beNat a < beNat b then 1 else 0) ∧
        Pushes (op_cmp .gt false) vm rest' (if beNat b < beNat a then 1 else 0) ∧
        Pushes (op_cmp .eq false) vm rest' (if beNat a = beNat b then 1 else 0) ∧
        (a ≠ [] → Pushes op_byte vm rest' (if beNat a < 32 then beNat b / 256 ^ (31 - beNat a) % 256 else 0)) := by
  refine ⟨op_not_pushes h, op_is_zero_pushes h, op_dataload_pushes h, ?_⟩
  rintro b rest' rfl
  obtain ⟨hlt, hgt, heq⟩ := cmp_unsigned_pushes h
  exact ⟨fun op => op_bit_pushes op h, hlt, hgt, heq, op_byte_pushes h⟩

theorem byte_of_two_bytes :
    Pushes op_byte (Vm.ofStack ⟨[[30], [4, 5]], [], by decide, by decide⟩) []
      (if beNat [30] < 32 then beNat [4, 5] / 256 ^ (31 - beNat [30]) % 256 else 0) :=
  ((bit_ops_push rfl).2.2.2 [4, 5] [] rfl).2.2.2.2 (by decide)

end

end In3.Evm
