import In3.Evm.Opcodes
import In3.Evm.ShiftTheorems
/-!
# Numbers on the stack

A number is pushed as bytes, and an entry is read as a small number. `evm_stack_push_long` looks for a zero
byte where it should look for one that is not zero, so that a number of eight bytes loses its first ones.
`evm_stack_pop_byte` takes an empty entry for a number that is too large, so that JUMPI, BYTE and
the shifts do not see a zero there. `evm_stack_push_int` and `evm_stack_pop_int` keep every value.
-/
open Lib

namespace In3.Evm

/-! ## Pushing -/

variable {e : Bytes} {val : Nat} {vm : Vm}

theorem push_pushes (hcount : vm.evm.stack.entries.length < EVM_STACK_LIMIT) {data : Bytes} (hdata : data.length ≤ 32) :
    Pushes (evm_stack_push data) vm vm.evm.stack.entries (beNat data) := by
  obtain ⟨t, hends, hentries⟩ := push_ends vm data rfl hcount hdata
  exact ⟨t, hends, data, hentries, rfl⟩

theorem push_int_pushes (hcount : vm.evm.stack.entries.length < EVM_STACK_LIMIT) (hval : val < 2 ^ 32) :
    Pushes (evm_stack_push_int val) vm vm.evm.stack.entries val := by
  have hlen : (int_to_bytes val).length = 4 := length_beFix 4 val
  have hle := length_stripZeros_le (int_to_bytes val)
  have hnum : beNat (optimize_len (int_to_bytes val)) = val := by
    rw [optimize_len, beNat_stripZeros, int_to_bytes, beNat_beFix, Nat.mod_eq_of_lt (by omega)]
  have hshort : (optimize_len (int_to_bytes val)).length ≤ 32 := by
    rw [optimize_len]
    omega
  have hpush := push_pushes hcount hshort
  rwa [hnum] at hpush

/-- The bytes that `evm_stack_push_long` pushes: from the first zero on, or the last one. -/
def long_entry (val : Nat) : Bytes := (long_to_bytes val).drop (((long_to_bytes val).take 7).findIdx? (· = 0) |>.getD 7)

theorem push_long_eq (val : Nat) : evm_stack_push_long val = evm_stack_push (long_entry val) := by
  unfold evm_stack_push_long long_entry
  dsimp only
  split
  · next hfound =>
    rw [hfound]
    rfl
  · next hnone =>
    rw [hnone]
    rfl

theorem length_long_entry_le (val : Nat) : (long_entry val).length ≤ 8 := by
  unfold long_entry
  rw [List.length_drop, long_to_bytes, length_beFix]
  omega

theorem beNat_long_entry_iff (hval : val < 2 ^ 64) : beNat (long_entry val) = val ↔ val < 2 ^ 56 := by
  have hlen : (long_to_bytes val).length = 8 := length_beFix 8 val
  have hnum : beNat (long_to_bytes val) = val := by
    rw [long_to_bytes, beNat_beFix]
    exact Nat.mod_eq_of_lt (lt_of_lt_of_eq hval (by norm_num))
  unfold long_entry
  rcases hbytes : long_to_bytes val with _ | ⟨x, t⟩
  · rw [hbytes] at hlen
    cases hlen
  rw [hbytes, List.length_cons] at hlen
  rw [hbytes] at hnum
  have ht : t.length = 7 := by omega
  by_cases hx : x = 0
  · -- the number has at most seven bytes
    have hlt := beNat_lt t
    rw [beNat_cons, hx] at hnum
    simp only [UInt8.toNat_zero, Nat.zero_mul, Nat.zero_add] at hnum
    rw [ht, hnum] at hlt
    have hfirst : (0 :: t).drop ((((0 : UInt8) :: t).take 7).findIdx? (· = 0) |>.getD 7) = 0 :: t := by
      rfl
    rw [hx, hfirst, beNat_cons, hnum]
    simpa using hlt
  · have hle := le_beNat_cons (b := t) hx
    rw [ht] at hle
    have hdrop : ∀ k, beNat (t.drop k) < 256 ^ 7 := by
      intro k
      refine beNat_lt_of_le ?_
      rw [List.length_drop]
      omega
    have hrest : ∃ k, (x :: t).drop ((((x :: t).take 7).findIdx? (· = 0)).getD 7) = t.drop k := by
      rw [List.take_succ_cons, List.findIdx?_cons]
      simp only [hx]
      generalize (t.take 6).findIdx? (· = 0) = found
      rcases found with _ | k
      · exact ⟨6, rfl⟩
      · exact ⟨k, rfl⟩
    obtain ⟨k, hk⟩ := hrest
    rw [hk]
    have := hdrop k
    omega

theorem push_long_pushes_iff (hcount : vm.evm.stack.entries.length < EVM_STACK_LIMIT) (hval : val < 2 ^ 64) :
    Pushes (evm_stack_push_long val) vm vm.evm.stack.entries val ↔ val < 2 ^ 56 := by
  rw [push_long_eq, (push_pushes hcount (le_trans (length_long_entry_le val) (by norm_num))).iff]
  exact beNat_long_entry_iff hval

/-! ## Reading an entry -/

def ByteRead (e : Bytes) : Prop :=
  ∀ (vm : Vm) (rest : List Bytes), vm.evm.stack.entries = e :: rest →
    ∃ s, s.entries = rest ∧ Machine.ends evm_stack_pop_byte vm
      (.ok (if beNat e < 256 then some (UInt8.ofNat (beNat e)) else none)) (vm.withStack s)

/-- `evm_stack_pop_int` gives the number of an entry if it has at most 28 bits, and a large one otherwise. -/
def IntRead (e : Bytes) : Prop :=
  ∀ (vm : Vm) (rest : List Bytes), vm.evm.stack.entries = e :: rest →
    ∃ s n, s.entries = rest ∧ Machine.ends evm_stack_pop_int vm (.ok n) (vm.withStack s) ∧
      (beNat e < 2 ^ 28 → n = beNat e) ∧ (2 ^ 28 ≤ beNat e → 2 ^ 28 - 1 ≤ n)

/-- JUMPI with this condition goes on behind itself if the condition is zero. -/
def NoJumpOnZero (c : Bytes) : Prop :=
  ∀ (vm : Vm) (dest : Bytes) (rest : List Bytes), vm.evm.stack.entries = dest :: c :: rest → beNat c = 0 →
    ∃ s, s.entries = rest ∧ Machine.ends (op_jump true) vm (.ok ()) (vm.withStack s)

/-- A shift by this amount leaves the word if the amount is zero. -/
def ShiftsByZero (e : Bytes) : Prop :=
  ∀ (op : SHIFT) (vm : Vm) (b : Bytes) (rest : List Bytes), vm.evm.properties.CONSTANTINOPL = true →
    vm.evm.stack.entries = e :: b :: rest → beNat e = 0 → Pushes (op_shift op) vm rest (beNat b)

def FirstByte (e : Bytes) : Prop :=
  ∀ (vm : Vm) (b : Bytes) (rest : List Bytes), vm.evm.stack.entries = e :: b :: rest → beNat e = 0 →
    Pushes op_byte vm rest (beNat b / 256 ^ 31 % 256)

/-- What is pushed is not out of range when it is read again, and has its value. -/
structure KeepsValues (v w : Nat) (e : Bytes) : Prop where
  push_long : ∀ vm : Vm, vm.evm.stack.entries.length < EVM_STACK_LIMIT →
    Pushes (evm_stack_push_long v) vm vm.evm.stack.entries v
  push_int : ∀ vm : Vm, vm.evm.stack.entries.length < EVM_STACK_LIMIT →
    Pushes (evm_stack_push_int w) vm vm.evm.stack.entries w
  pop_byte : ByteRead e
  pop_int : IntRead e
  jump : NoJumpOnZero e
  shift : ShiftsByZero e
  byte : FirstByte e

theorem pop_byte_ends {rest : List Bytes} (h : vm.evm.stack.entries = e :: rest) :
    ∃ s, s.entries = rest ∧ Machine.ends evm_stack_pop_byte vm
      (.ok (if e ≠ [] ∧ beNat e < 256 then some (UInt8.ofNat (beNat e)) else none)) (vm.withStack s) := by
  obtain ⟨s, hs, hbind⟩ := pop_byte_bind h
  have hpure := (hbind pure _ (vm.withStack s)).2 (Machine.ends_pure.2 ⟨rfl, rfl⟩)
  rw [bind_pure] at hpure
  exact ⟨s, hs, hpure⟩

theorem pop_int_ends {rest : List Bytes} (h : vm.evm.stack.entries = e :: rest) :
    ∃ s, s.entries = rest ∧ Machine.ends evm_stack_pop_int vm (.ok (min (beNat e) MEM_LIMIT)) (vm.withStack s) := by
  obtain ⟨s, hs, hbind⟩ := pop_int_bind h
  have hpure := (hbind pure _ (vm.withStack s)).2 (Machine.ends_pure.2 ⟨rfl, rfl⟩)
  rw [bind_pure] at hpure
  exact ⟨s, hs, hpure⟩

theorem intRead (e : Bytes) : IntRead e := by
  intro vm rest h
  obtain ⟨s, hs, hends⟩ := pop_int_ends h
  have hlim : MEM_LIMIT = 2 ^ 28 - 1 := rfl
  exact ⟨s, _, hs, hends, by omega, by omega⟩

theorem byteRead_of_ne_nil (he : e ≠ []) : ByteRead e := by
  intro vm rest h
  obtain ⟨s, hs, hends⟩ := pop_byte_ends h
  simp only [ne_eq, he, not_false_eq_true, true_and] at hends
  exact ⟨s, hs, hends⟩

theorem byteRead_iff : ByteRead e ↔ e ≠ [] := by
  refine ⟨?_, byteRead_of_ne_nil⟩
  rintro h rfl
  have hstack : (Vm.ofStack ⟨[[]], [], by decide, by decide⟩).evm.stack.entries = [] :: [] := rfl
  obtain ⟨s, -, hends⟩ := h _ [] hstack
  obtain ⟨s', -, hends'⟩ := pop_byte_ends hstack
  have := (Machine.ends_unique hends hends').1
  simp at this

theorem noJumpOnZero_of_ne_nil {c : Bytes} (hc : c ≠ []) : NoJumpOnZero c := by
  intro vm dest rest h hzero
  obtain ⟨s, hs, hint⟩ := pop_int_bind h
  obtain ⟨t, ht, hbyte⟩ := pop_byte_bind (show (vm.withStack s).evm.stack.entries = c :: rest from hs)
  refine ⟨t, ht, ?_⟩
  unfold op_jump
  simp only [hint, if_true, hbyte, hc, hzero, ne_eq]
  exact Machine.ends_pure.2 ⟨rfl, rfl⟩

theorem shiftsByZero_of_ne_nil (he : e ≠ []) : ShiftsByZero e := by
  intro op vm b rest hprop h hzero
  have hb := (two_entries h).2.1
  have hlt := beNat_lt_word hb
  have hpush := op_shift_pushes op h hprop
  rw [if_pos ⟨he, by omega⟩, (shift_result_some op _ hb).2, hzero] at hpush
  rwa [show (UInt8.ofNat 0).toNat = 0 from rfl, word_zero op hlt] at hpush

theorem firstByte_of_ne_nil (he : e ≠ []) : FirstByte e := by
  intro vm b rest h hzero
  have hpush := op_byte_pushes h he
  rwa [hzero] at hpush

/-- Values are kept for numbers of at most seven bytes and entries that are not empty. -/
theorem typed_access_iff {v w : Nat} {e : Bytes} (hv : v < 2 ^ 64) (hw : w < 2 ^ 32) :
    KeepsValues v w e ↔ v < 2 ^ 56 ∧ e ≠ [] := by
  constructor
  · intro h
    have hroom : (Vm.ofStack Stack.empty).evm.stack.entries.length < EVM_STACK_LIMIT := by decide
    exact ⟨(push_long_pushes_iff hroom hv).1 (h.push_long _ hroom), byteRead_iff.1 h.pop_byte⟩
  · rintro ⟨hlong, he⟩
    exact {
      push_long := fun vm hroom => (push_long_pushes_iff hroom hv).2 hlong
      push_int := fun vm hroom => push_int_pushes hroom hw
      pop_byte := byteRead_iff.2 he
      pop_int := intRead e
      jump := noJumpOnZero_of_ne_nil he
      shift := shiftsByZero_of_ne_nil he
      byte := firstByte_of_ne_nil he }

theorem typed_access_of_zero : KeepsValues (2 ^ 48) 7 [0, 0] := (typed_access_iff (by norm_num) (by norm_num)).2 (by decide)

/-- JUMPDEST at the place 2, and the operands of a jump to it with an empty condition. -/
def emptyCondition : Vm :=
  let vm := Vm.ofStack ⟨[[2], []], [], by decide, by decide⟩
  { vm with evm := { vm.evm with code := { data := [0, 0, 0x5B], len := 3 } } }

/-- `2 ^ 56` is pushed as zero, and an empty entry is no zero: a jump is taken, a shift and BYTE are out of range. -/
theorem values_lost :
    Pushes (evm_stack_push_long (2 ^ 56)) (Vm.ofStack .empty) [] 0 ∧
      (∃ vm, Machine.ends (op_jump true) emptyCondition (.ok ()) vm ∧ vm.evm.pos = 2) ∧
      Pushes (op_shift .SHR) (Vm.ofStack ⟨[[], [5]], [], by decide, by decide⟩) [] 0 ∧
      Pushes op_byte (Vm.ofStack ⟨[[], List.replicate 32 5], [], by decide, by decide⟩) [] 0 :=
  ⟨by decide, ⟨_, rfl, rfl⟩, by decide, by decide⟩

end In3.Evm
