import In3.Evm.Arith
import In3.Evm.BigDivision
/-!
# Words on the stack

An operation takes its operands off the stack and pushes one entry; nothing else changes
(`Pushes`). The entry is compared as a number with the operation on 256-bit words.
-/
open Lib Machine

namespace In3.Evm

/-! ## Popping and pushing -/

def Vm.withStack (vm : Vm) (s : Stack) : Vm := { vm with evm := { vm.evm with stack := s } }

@[simp] theorem Vm.withStack_stack (vm : Vm) (s : Stack) : (vm.withStack s).evm.stack = s := rfl

@[simp] theorem Vm.withStack_withStack (vm : Vm) (s t : Stack) : (vm.withStack s).withStack t = vm.withStack t := rfl

variable {a e : Bytes} {rest : List Bytes} {s : Stack} {vm vm' : Vm}

@[simp] theorem ends_getEvm {r : Except Int evm_t} :
    ends getEvm vm r vm' ↔ r = .ok vm.evm ∧ vm' = vm := by
  unfold getEvm
  rw [ends_bind]
  simp only [ends_get, ends_pure]
  constructor
  · rintro (⟨_, _, ⟨h, rfl⟩, rfl, rfl⟩ | ⟨_, rfl, h, -⟩)
    · cases h
      exact ⟨rfl, rfl⟩
    · cases h
  · rintro ⟨rfl, rfl⟩
    exact .inl ⟨vm', vm', ⟨rfl, rfl⟩, rfl, rfl⟩

theorem ends_getEvm_bind {α : Type} {f : evm_t → M α} {r : Except Int α} :
    ends (getEvm >>= f) vm r vm' ↔ ends (f vm.evm) vm r vm' :=
  ends_bind_of_ok (ends_getEvm.2 ⟨rfl, rfl⟩)

@[simp] theorem ends_modifyEvm {f : evm_t → evm_t} {r : Except Int PUnit} :
    ends (modifyEvm f) vm r vm' ↔ r = .ok ⟨⟩ ∧ vm' = { vm with evm := f vm.evm } :=
  ends_modify

theorem Stack.pop_cons (h : s.entries = e :: rest) :
    ∃ t, s.pop = some (e, t) ∧ t.entries = rest ∧ t.slack = e ++ UInt8.ofNat e.length :: s.slack := by
  obtain ⟨entries, slack, count, small⟩ := s
  subst h
  exact ⟨_, rfl, rfl, rfl⟩

theorem Stack.push_ok (data : Bytes) (hcount : s.entries.length < EVM_STACK_LIMIT) (hdata : data.length ≤ 32) :
    ∃ t, s.push data = some t ∧ t.entries = data :: s.entries := by
  unfold Stack.push
  rw [dif_neg (by omega)]
  exact ⟨_, rfl, rfl⟩

/-- The bytes of a popped entry are still behind the stack. -/
theorem pop_ref_slack (h : vm.evm.stack.entries = e :: rest) :
    ∃ s : Stack, s.entries = rest ∧ (∃ mem, s.slack = e ++ mem) ∧ ∀ {α : Type} (f : Bytes → M α) (r : Except Int α) (vm' : Vm),
      ends (evm_stack_pop_ref >>= f) vm r vm' ↔ ends (f e) (vm.withStack s) r vm' := by
  obtain ⟨s, hpop, hrest, hslack⟩ := Stack.pop_cons h
  have hends : ends evm_stack_pop_ref vm (.ok e) (vm.withStack s) := by
    unfold evm_stack_pop_ref
    rw [ends_getEvm_bind, hpop, ends_bind_ok]
    exact ⟨⟨⟩, _, ends_modifyEvm.2 ⟨rfl, rfl⟩, ends_pure.2 ⟨rfl, rfl⟩⟩
  exact ⟨s, hrest, ⟨_, hslack⟩, fun f r vm' => ends_bind_of_ok hends⟩

theorem pop_ref_bind (h : vm.evm.stack.entries = e :: rest) :
    ∃ s : Stack, s.entries = rest ∧ ∀ {α : Type} (f : Bytes → M α) (r : Except Int α) (vm' : Vm),
      ends (evm_stack_pop_ref >>= f) vm r vm' ↔ ends (f e) (vm.withStack s) r vm' := by
  obtain ⟨s, hs, -, hbind⟩ := pop_ref_slack h
  exact ⟨s, hs, hbind⟩

theorem pop_two_slack {b : Bytes} (h : vm.evm.stack.entries = a :: b :: rest) :
    ∃ s : Stack, s.entries = rest ∧ (∃ mem, s.slack = b ++ mem) ∧ ∀ {α : Type} (f : Bytes → Bytes → M α) (r : Except Int α) (vm' : Vm),
      ends (evm_stack_pop_ref >>= fun a => evm_stack_pop_ref >>= f a) vm r vm' ↔
        ends (f a b) (vm.withStack s) r vm' := by
  obtain ⟨s, hs, hf⟩ := pop_ref_bind h
  obtain ⟨t, ht, hslack, hg⟩ := pop_ref_slack (show (vm.withStack s).evm.stack.entries = b :: rest from hs)
  refine ⟨t, ht, hslack, fun f r vm' => ?_⟩
  rw [hf, hg]
  rfl

theorem pop_two_bind {b : Bytes} (h : vm.evm.stack.entries = a :: b :: rest) :
    ∃ s : Stack, s.entries = rest ∧ ∀ {α : Type} (f : Bytes → Bytes → M α) (r : Except Int α) (vm' : Vm),
      ends (evm_stack_pop_ref >>= fun a => evm_stack_pop_ref >>= f a) vm r vm' ↔
        ends (f a b) (vm.withStack s) r vm' := by
  obtain ⟨s, hs, -, hbind⟩ := pop_two_slack h
  exact ⟨s, hs, hbind⟩

theorem push_ends (vm : Vm) (data : Bytes) (hs : s.entries = rest)
    (hcount : rest.length < EVM_STACK_LIMIT) (hdata : data.length ≤ 32) :
    ∃ t, ends (evm_stack_push data) (vm.withStack s) (.ok ()) (vm.withStack t) ∧ t.entries = data :: rest := by
  obtain ⟨t, hpush, hentries⟩ := Stack.push_ok (s := s) data (by rw [hs]; exact hcount) hdata
  refine ⟨t, ?_, by rw [hentries, hs]⟩
  unfold evm_stack_push
  rw [ends_getEvm_bind, Nat.mod_eq_of_lt (by omega), List.take_length, Vm.withStack_stack, hpush]
  exact ends_modifyEvm.2 ⟨rfl, rfl⟩

theorem count_lt_of_cons (h : s.entries = a :: rest) :
    rest.length < EVM_STACK_LIMIT := by
  have := s.count
  rw [h, List.length_cons] at this
  omega

theorem two_entries {b : Bytes} (h : s.entries = a :: b :: rest) :
    a.length ≤ 32 ∧ b.length ≤ 32 ∧ rest.length < EVM_STACK_LIMIT :=
  ⟨s.small a (by rw [h]; simp), s.small b (by rw [h]; simp), lt_trans (Nat.lt_succ_self _) (count_lt_of_cons h)⟩

@[simp] theorem ends_checked_ok {α : Type} {x : Checked α} {a : α} :
    ends (checked x) vm (.ok a) vm' ↔ Guarded.ok x a ∧ vm' = vm := ends_ofGuarded_ok

/-- The operation leaves one entry with the number `n` on top of `rest`, and changes nothing but the stack. -/
def Pushes (op : M Unit) (vm : Vm) (rest : List Bytes) (n : Nat) : Prop :=
  ∃ s, ends op vm (.ok ()) (vm.withStack s) ∧ ∃ e, s.entries = e :: rest ∧ beNat e = n

/-- The operation has one outcome, and it can be looked at. -/
instance (op : M Unit) (vm : Vm) (rest : List Bytes) (n : Nat) : Decidable (Pushes op vm rest n) :=
  match h : op.run.run vm with
  | .ok (.ok (), vm') =>
    decidable_of_iff (vm' = vm.withStack vm'.evm.stack ∧
        vm'.evm.stack.entries.tail = rest ∧ (vm'.evm.stack.entries.head?.map beNat) = some n) <| by
      constructor
      · rintro ⟨hvm, htail, hhead⟩
        rcases hentries : vm'.evm.stack.entries with _ | ⟨e, t⟩
        · simp [hentries] at hhead
        · rw [hentries] at htail hhead
          exact ⟨_, hvm ▸ h, e, by rw [hentries, ← htail]; rfl, by simpa using hhead⟩
      · rintro ⟨s, hs, e, he, rfl⟩
        obtain ⟨-, rfl⟩ := ends_unique h hs
        simp [he]
  | .ok (.error _, _) => isFalse fun ⟨_, hs, _⟩ => by simp [ends, h] at hs
  | .error _ => isFalse fun ⟨_, hs, _⟩ => by simp [ends, h] at hs

theorem Pushes.iff {op : M Unit} {m n : Nat} (h : Pushes op vm rest m) :
    Pushes op vm rest n ↔ m = n := by
  constructor
  · rintro ⟨t, ht, f, hf, rfl⟩
    obtain ⟨s, hs, e, he, rfl⟩ := h
    have heq : s = t := congrArg (fun v : Vm => v.evm.stack) (ends_unique hs ht).2
    rw [← heq, he] at hf
    rw [(List.cons.inj hf).1]
  · rintro rfl
    exact h

theorem pop_pushes {op : M Unit} {r : Bytes} {f : Bytes → M Unit} (hop : op = evm_stack_pop_ref >>= f) (h : vm.evm.stack.entries = a :: rest)
    (hlen : r.length ≤ 32) (hf : f a = evm_stack_push r) : Pushes op vm rest (beNat r) := by
  obtain ⟨s, hs, hbind⟩ := pop_ref_bind h
  obtain ⟨t, ht, hentries⟩ := push_ends vm r hs (count_lt_of_cons h) hlen
  refine ⟨t, ?_, r, hentries, rfl⟩
  rw [hop, hbind, hf]
  exact ht

theorem pop_two_pushes {op : M Unit} {b r : Bytes} {f : Bytes → Bytes → M Unit}
    (hop : op = evm_stack_pop_ref >>= fun a => evm_stack_pop_ref >>= f a) (h : vm.evm.stack.entries = a :: b :: rest)
    (hlen : r.length ≤ 32) (hf : f a b = evm_stack_push r) : Pushes op vm rest (beNat r) := by
  obtain ⟨s, hs, hbind⟩ := pop_two_bind h
  obtain ⟨t, ht, hentries⟩ := push_ends vm r hs (two_entries h).2.2 hlen
  refine ⟨t, ?_, r, hentries, rfl⟩
  rw [hop, hbind, hf]
  exact ht

section Binary
variable {vm : Vm} {a b : Bytes} {rest : List Bytes} {op : MATH} {r : Bytes}

theorem op_math_pushes (h : vm.evm.stack.entries = a :: b :: rest)
    (hr : ∀ s : Stack, ends (math_switch op false a b) (vm.withStack s) (.ok r) (vm.withStack s))
    (hlen : r.length ≤ 32) : Pushes (op_math op false) vm rest (beNat r) := by
  obtain ⟨s, hs, hbind⟩ := pop_two_bind h
  have hopt : (optimize_len r).length ≤ 32 := (length_stripZeros_le r).trans hlen
  obtain ⟨t, ht, hentries⟩ := push_ends vm (optimize_len r) hs (two_entries h).2.2 hopt
  refine ⟨t, ?_, optimize_len r, hentries, beNat_stripZeros r⟩
  unfold op_math
  rw [hbind, ends_bind_ok]
  exact ⟨r, _, hr s, ht⟩

/-- No product is pushed for an empty first factor and a second one of nine bytes or more. -/
theorem op_math_mul_empty {mod : Bool} {vm' : Vm} (h : vm.evm.stack.entries = [] :: b :: rest) (hb : b.length ≤ 32)
    (hge : 2 ^ 64 ≤ beNat b) : ¬ ends (op_math .MUL mod) vm (.ok ()) vm' := by
  obtain ⟨s, -, hbind⟩ := pop_two_bind h
  unfold op_math
  rw [hbind, ends_bind_ok]
  rintro ⟨r, _, hswitch, -⟩
  exact big_mul_empty hb hge r (ends_checked_ok.1 hswitch).1

theorem pow_word : (2 : Nat) ^ 256 = 256 ^ 32 := by norm_num

/-- ADD, SUB and MUL are right modulo `2 ^ 256`, MUL unless its first operand is empty and the second one has more
than eight significant bytes. -/
theorem add_sub_mul_iff (h : vm.evm.stack.entries = a :: b :: rest) :
    Pushes (op_math .ADD false) vm rest ((beNat a + beNat b) % 2 ^ 256) ∧
      Pushes (op_math .SUB false) vm rest ((beNat a + 2 ^ 256 - beNat b) % 2 ^ 256) ∧
      (Pushes (op_math .MUL false) vm rest (beNat a * beNat b % 2 ^ 256) ↔ (a = [] → beNat b < 2 ^ 64)) := by
  obtain ⟨ha, hb, -⟩ := two_entries h
  rw [pow_word]
  refine ⟨?_, ?_, ?_, ?_⟩
  · obtain ⟨r, hr, hlen, -, hval⟩ := big_add_ok a b (show 32 ≤ 65 by norm_num) (by norm_num)
    rw [← hval]
    exact op_math_pushes h (fun s => ends_checked_ok.2 ⟨hr, rfl⟩) hlen
  · obtain ⟨r, hr, hlen, -, hval⟩ := big_sub_ok (show 32 ≤ 65 by norm_num) ha hb
    rw [← hval]
    exact op_math_pushes h (fun s => ends_checked_ok.2 ⟨hr, rfl⟩) hlen
  · rintro ⟨s, hs, -⟩ rfl
    by_contra hge
    exact op_math_mul_empty h hb (by omega) hs
  · intro hempty
    obtain ⟨r, hr, hlen, -, hval⟩ := big_mul_ok ha hb (by norm_num) (show 32 ≤ 65 by norm_num) hempty
    rw [← hval]
    exact op_math_pushes h (fun s => ends_checked_ok.2 ⟨hr, rfl⟩) hlen

theorem mul_three_five :
    Pushes (op_math .MUL false) (Vm.ofStack ⟨[[3], [5]], [], by decide, by decide⟩) [] (beNat [3] * beNat [5] % 2 ^ 256) :=
  (add_sub_mul_iff rfl).2.2.2 (by decide)

/-- The product of an empty entry and `2 ^ 64`: the last carry is written in front of the buffer. -/
theorem mul_empty_faults :
    faults (op_math .MUL false) (Vm.ofStack ⟨[[], [1, 0, 0, 0, 0, 0, 0, 0, 0]], [], by decide, by decide⟩)
      (.write (-1) 66) := by
  decide

/-! ## Unsigned division -/

theorem op_math_mod_pushes {n : Bytes} (h : vm.evm.stack.entries = a :: b :: n :: rest)
    (hr : ∀ s : Stack, ends (math_switch op true a b) (vm.withStack s) (.ok r) (vm.withStack s)) :
    Pushes (op_math op true) vm rest (if beNat n = 0 then 0 else beNat r % beNat n) := by
  have hn : n.length ≤ 32 := vm.evm.stack.small n (by rw [h]; simp)
  obtain ⟨s, hs, hbind⟩ := pop_two_bind h
  obtain ⟨t, ht, hpop⟩ := pop_ref_bind (show (vm.withStack s).evm.stack.entries = n :: rest from hs)
  obtain ⟨m, hm, hmlen, hmval⟩ := big_mod_ok (a := optimize_len r) hn
  have hopt : (optimize_len m).length ≤ 32 := (length_stripZeros_le m).trans hmlen
  obtain ⟨u, hu, hentries⟩ := push_ends vm (optimize_len m) ht (count_lt_of_cons hs) hopt
  refine ⟨u, ?_, optimize_len m, hentries, ?_⟩
  · unfold op_math
    rw [hbind, ends_bind_ok]
    refine ⟨r, _, hr s, ?_⟩
    rw [if_pos rfl, hpop, ends_bind_ok]
    exact ⟨m, _, ends_checked_ok.2 ⟨hm, rfl⟩, hu⟩
  · rw [optimize_len, beNat_stripZeros, hmval, optimize_len, beNat_stripZeros]

/-- DIV, MOD and ADDMOD are right, MULMOD unless the product cannot be computed. -/
theorem div_mod_iff (h : vm.evm.stack.entries = a :: b :: rest) :
    Pushes (op_math .DIV false) vm rest (beNat a / beNat b) ∧
      Pushes (op_math .MOD false) vm rest (if beNat b = 0 then 0 else beNat a % beNat b) ∧
      ∀ n rest', rest = n :: rest' →
        Pushes (op_math .ADD true) vm rest' (if beNat n = 0 then 0 else (beNat a + beNat b) % beNat n) ∧
          (Pushes (op_math .MUL true) vm rest' (if beNat n = 0 then 0 else beNat a * beNat b % beNat n) ↔
            (a = [] → beNat b < 2 ^ 64)) := by
  obtain ⟨ha, hb, -⟩ := two_entries h
  have hlta := beNat_lt_of_le ha
  have hltb := beNat_lt_of_le hb
  refine ⟨?_, ?_, ?_⟩
  · obtain ⟨r, hr, hlen, -, hval⟩ := big_div_ok (b := b) ha
    rw [← hval]
    exact op_math_pushes h (fun s => ends_checked_ok.2 ⟨hr, rfl⟩) hlen
  · obtain ⟨r, hr, hlen, hval⟩ := big_mod_ok (a := a) hb
    rw [← hval]
    exact op_math_pushes h (fun s => ends_checked_ok.2 ⟨hr, rfl⟩) hlen
  · rintro n rest' rfl
    refine ⟨?_, ?_, ?_⟩
    · obtain ⟨r, hr, -, -, hval⟩ := big_add_ok a b (show 64 ≤ 65 by norm_num) (by norm_num)
      -- 64 bytes hold the whole sum
      rw [Nat.mod_eq_of_lt (by omega)] at hval
      rw [← hval]
      exact op_math_mod_pushes h (fun s => ends_checked_ok.2 ⟨hr, rfl⟩)
    · rintro ⟨s, hs, -⟩ rfl
      by_contra hge
      exact op_math_mul_empty h hb (by omega) hs
    · intro hempty
      obtain ⟨r, hr, -, -, hval⟩ := big_mul_ok ha hb (by norm_num) (show 65 ≤ 65 by norm_num) hempty
      have hprod : beNat a * beNat b < 256 ^ 65 := by
        calc beNat a * beNat b < 256 ^ 32 * 256 ^ 32 := Nat.mul_lt_mul'' hlta hltb
          _ ≤ 256 ^ 65 := by norm_num
      rw [Nat.mod_eq_of_lt hprod] at hval
      rw [← hval]
      exact op_math_mod_pushes h (fun s => ends_checked_ok.2 ⟨hr, rfl⟩)

/-- `3 * 5` modulo 7. -/
theorem mulmod_three_five :
    Pushes (op_math .MUL true) (Vm.ofStack ⟨[[3], [5], [7]], [], by decide, by decide⟩) []
      (if beNat [7] = 0 then 0 else beNat [3] * beNat [5] % beNat [7]) :=
  (((div_mod_iff rfl).2.2 [7] [] rfl).2).2 (by decide)

/-- The product of an empty entry and `2 ^ 64` modulo 7. -/
theorem mulmod_empty_faults :
    faults (op_math .MUL true) (Vm.ofStack ⟨[[], [1, 0, 0, 0, 0, 0, 0, 0, 0], [7]], [], by decide, by decide⟩)
      (.write (-1) 66) := by
  decide

end Binary

end In3.Evm
