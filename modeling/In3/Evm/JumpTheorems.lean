import In3.Evm.PopTheorems
import In3.Evm.Run
/-!
# Jumps

A jump may only go to a JUMPDEST that is not data of a push. The instructions of a code start at the
places that are reached from its start when the data of each push is skipped (`Boundary`). The scan of `op_jump`
finds the JUMPDEST bytes between them. In front of it the place is compared with the length of the code, which lets
the place behind the last byte pass; and a place of more than 28 bits is cut.
-/
open Lib Machine

namespace In3.Evm

/-! ## Instructions -/

/-- The number of data bytes behind an opcode. -/
def push_len (op : UInt8) : Nat := if 0x60 ≤ op ∧ op ≤ 0x7F then op.toNat - 0x5F else 0

/-- The places where an instruction starts. -/
inductive Boundary (code : Bytes) : Nat → Prop
  | start : Boundary code 0
  | next {p : Nat} {op : UInt8} (h : Boundary code p) (hop : code[p]? = some op) : Boundary code (p + 1 + push_len op)

def InData (code : Bytes) (p : Nat) : Prop :=
  ∃ q op, Boundary code q ∧ code[q]? = some op ∧ q < p ∧ p ≤ q + push_len op

def ValidDest (code : Bytes) (p : Nat) : Prop := code[p]? = some 0x5B ∧ ¬ InData code p

variable {code : Bytes} {i jumpl p : Nat} {op : UInt8}

theorem ValidDest.lt (h : ValidDest code p) : p < code.length := by
  obtain ⟨hlt, -⟩ := List.getElem?_eq_some_iff.1 h.1
  exact hlt

theorem Boundary.le_of_lt {a b : Nat} (ha : Boundary code a) (hop : code[a]? = some op)
    (hb : Boundary code b) (hlt : a < b) : a + 1 + push_len op ≤ b := by
  -- induction on a bound of both places: the instruction in front of `b` is `a`, or one of them is in front of the other
  induction hn : b using Nat.strong_induction_on generalizing a b op with
  | _ n ih =>
    subst hn
    cases hb with
    | start => omega
    | @next c opc hc hopc =>
      rcases Nat.lt_trichotomy a c with hac | rfl | hca
      · have := ih c (by omega) ha hop hc hac rfl
        omega
      · rw [hop] at hopc
        cases hopc
        exact le_refl _
      · have := ih a hlt hc hopc ha hca rfl
        omega

theorem Boundary.not_inData (h : Boundary code p) : ¬ InData code p := by
  rintro ⟨q, op, hq, hop, hlt, hle⟩
  have := hq.le_of_lt hop h hlt
  omega

/-! ## The scan -/

/-- The scan is at the place `i`, and the next `jumpl` bytes are data. -/
structure Scan (code : Bytes) (i jumpl : Nat) : Prop where
  boundary : Boundary code (i + jumpl)
  data : ∀ p, i ≤ p → p < i + jumpl → InData code p

theorem Scan.skip (h : Scan code i jumpl) (hpos : 0 < jumpl) : Scan code (i + 1) (jumpl - 1) := by
  have hsum : i + 1 + (jumpl - 1) = i + jumpl := by omega
  refine ⟨hsum ▸ h.boundary, fun p hi hp => h.data p (by omega) (by omega)⟩

theorem Scan.next (h : Scan code i 0) (hop : code[i]? = some op) :
    Scan code (i + 1) (push_len op) := by
  refine ⟨h.boundary.next hop, fun p hi hp => ?_⟩
  exact ⟨i, op, h.boundary, hop, by omega, by omega⟩

theorem mem_invalid_jumpdest {pre rest : Bytes} (hcode : code = pre ++ rest)
    (h : Scan code pre.length jumpl) :
    p ∈ invalid_jumpdest rest pre.length jumpl ↔ pre.length ≤ p ∧ code[p]? = some 0x5B ∧ InData code p := by
  induction rest generalizing pre jumpl with
  | nil =>
    refine iff_of_false (by simp [invalid_jumpdest]) ?_
    rintro ⟨hle, hget, -⟩
    rw [hcode, List.append_nil, List.getElem?_eq_none hle] at hget
    cases hget
  | cons op rest ih =>
    have hop : code[pre.length]? = some op := by simp [hcode]
    have hcode' : code = (pre ++ [op]) ++ rest := by simp [hcode]
    have hlen : (pre ++ [op]).length = pre.length + 1 := by simp
    have hrest : ∀ {jumpl'}, Scan code (pre.length + 1) jumpl' →
        (p ∈ invalid_jumpdest rest (pre.length + 1) jumpl' ↔ pre.length + 1 ≤ p ∧ code[p]? = some 0x5B ∧ InData code p) := by
      intro jumpl' hscan
      have := ih hcode' (hlen ▸ hscan)
      rwa [hlen] at this
    -- the place itself is in the list exactly if it is data and a JUMPDEST
    have hsplit : pre.length ≤ p ↔ p = pre.length ∨ pre.length + 1 ≤ p := by omega
    unfold invalid_jumpdest
    by_cases hpos : 0 < jumpl
    · rw [if_pos hpos]
      have hin : InData code pre.length := h.data _ (le_refl _) (by omega)
      by_cases hdest : op = 0x5B
      · rw [if_pos hdest, List.mem_cons, hrest (h.skip hpos), hsplit, or_and_right]
        refine or_congr ?_ Iff.rfl
        constructor
        · rintro rfl
          exact ⟨rfl, by rw [hop, hdest], hin⟩
        · exact And.left
      · rw [if_neg hdest, hrest (h.skip hpos), hsplit, or_and_right]
        refine (or_iff_right ?_).symm
        rintro ⟨rfl, hget, -⟩
        rw [hop] at hget
        exact hdest (Option.some.inj hget)
    · rw [if_neg hpos]
      have hzero : jumpl = 0 := by omega
      subst hzero
      have hself : ¬ (p = pre.length ∧ code[p]? = some 0x5B ∧ InData code p) := by
        rintro ⟨rfl, -, hin⟩
        exact h.boundary.not_inData hin
      have hnext := hrest (h.next hop)
      rw [hsplit, or_and_right, or_iff_right hself, ← hnext]
      unfold push_len
      split <;> rfl

theorem mem_invalid_jumpdest_iff (code : Bytes) (p : Nat) :
    p ∈ invalid_jumpdest code 0 0 ↔ code[p]? = some 0x5B ∧ InData code p := by
  have hstart : Scan code 0 0 := ⟨.start, fun p _ hp => absurd hp (by omega)⟩
  have hscan := mem_invalid_jumpdest (p := p) (List.nil_append code).symm hstart
  simpa using hscan

instance (code : Bytes) (p : Nat) : Decidable (ValidDest code p) :=
  decidable_of_iff (code[p]? = some 0x5B ∧ p ∉ invalid_jumpdest code 0 0) <| by
    rw [mem_invalid_jumpdest_iff]
    constructor
    · rintro ⟨hget, hnot⟩
      exact ⟨hget, fun hin => hnot ⟨hget, hin⟩⟩
    · rintro ⟨hget, hnot⟩
      exact ⟨hget, fun hin => hnot hin.2⟩

/-! ## The operation -/

structure Vm.HasCode (vm : Vm) (code : Bytes) : Prop where
  data : vm.evm.code.data = code
  len : vm.evm.code.len = code.length
  alive : ∀ id ∈ vm.evm.code.buf, id ∉ vm.freed

def Vm.atPos (vm : Vm) (pos : Nat) : Vm := { vm with evm := { vm.evm with pos := pos } }

theorem ends_alive {vm : Vm} {code : Code} (h : ∀ id ∈ code.buf, id ∉ vm.freed) : ends (alive code) vm (.ok ()) vm := by
  unfold alive
  rw [ends_get_bind]
  rcases hbuf : code.buf with _ | id
  · exact ends_pure.2 ⟨rfl, rfl⟩
  · dsimp only
    rw [if_neg (h id hbuf)]
    exact ends_pure.2 ⟨rfl, rfl⟩

section
variable {vm : Vm} {code : Bytes} {pos : Nat} {r : Except Int Unit} {vm' : Vm}

theorem jump_to_ends_iff (hcode : vm.HasCode code) (hlt : pos < code.length) :
    ends (jump_to pos) vm r vm' ↔
      if ValidDest code pos then r = .ok () ∧ vm' = vm.atPos pos else r = .error EVM_ERROR_INVALID_JUMPDEST ∧ vm' = vm := by
  have hrd : Guarded.ok (rd vm.evm.code.data pos) code[pos] := by
    unfold rd
    rw [hcode.data, List.getElem?_eq_getElem hlt]
    exact Guarded.ok_pure.2 rfl
  have hguard : Guarded.ok (Guarded.guard (vm.evm.code.len ≤ vm.evm.code.data.length)
      (Fault.read vm.evm.code.data.length vm.evm.code.data.length) : Checked Unit) () := by
    rw [Guarded.ok_guard, hcode.data, hcode.len]
  unfold jump_to
  rw [ends_getEvm_bind, if_neg (by rw [hcode.len]; omega),
    ends_bind_of_ok (ends_alive hcode.alive), ends_bind_of_ok (ends_checked_ok.2 ⟨hrd, rfl⟩),
    ends_bind_of_ok (ends_checked_ok.2 ⟨hguard, rfl⟩), hcode.data, hcode.len, List.take_length]
  have hget : code[pos]? = some code[pos] := List.getElem?_eq_getElem hlt
  have hmem := mem_invalid_jumpdest_iff code pos
  by_cases hdest : code[pos] = 0x5B
  · rw [hdest] at hget
    rw [if_neg (not_not.2 hdest)]
    by_cases hin : InData code pos
    · rw [if_pos (hmem.2 ⟨hget, hin⟩), if_neg (fun hv => hv.2 hin)]
      exact ends_throw
    · rw [if_neg (fun hc => hin (hmem.1 hc).2), if_pos ⟨hget, hin⟩]
      exact ends_modifyEvm
  · rw [if_pos hdest, if_neg (fun hv => hdest (Option.some.inj (hget.symm.trans hv.1)))]
    exact ends_throw

theorem jump_to_behind (hcode : vm.HasCode code) (hlt : code.length < pos) :
    ends (jump_to pos) vm (.error EVM_ERROR_INVALID_JUMPDEST) vm := by
  unfold jump_to
  rw [ends_getEvm_bind, if_pos (by rw [hcode.len]; omega)]
  exact ends_throw.2 ⟨rfl, rfl⟩

theorem jump_to_end (hcode : vm.HasCode code) :
    ¬ ends (jump_to code.length) vm r vm' := by
  have hrd : rd vm.evm.code.data code.length = Guarded.fault (.read code.length code.length) := by
    unfold rd
    rw [hcode.data, List.getElem?_eq_none (le_refl _)]
  unfold jump_to
  rw [ends_getEvm_bind, if_neg (by rw [hcode.len]; omega),
    ends_bind_of_ok (ends_alive hcode.alive), hrd]
  intro h
  rcases ends_bind.1 h with ⟨_, _, hread, -⟩ | ⟨_, -, hread⟩
  · exact ends_fault hread
  · exact ends_fault hread

/-- The operation goes on at `n` if this is a valid destination, and fails otherwise. -/
def Jumps (op : M Unit) (vm : Vm) (code : Bytes) (rest : List Bytes) (n : Nat) : Prop :=
  if ValidDest code n then ∃ s, s.entries = rest ∧ ends op vm (.ok ()) ((vm.withStack s).atPos n)
  else ∃ e vm', ends op vm (.error e) vm'

theorem op_jump_ends {cond : Bool} {dest c : Bytes} {rest : List Bytes}
    (h : vm.evm.stack.entries = dest :: if cond then c :: rest else rest) (hc : cond = true → 0 < beNat c) :
    ∃ s, s.entries = rest ∧ ∀ r vm', ends (op_jump cond) vm r vm' ↔
      ends (jump_to (min (beNat dest) MEM_LIMIT)) (vm.withStack s) r vm' := by
  obtain ⟨s, hs, hint⟩ := pop_int_bind h
  cases cond with
  | false =>
    refine ⟨s, hs, fun r vm' => ?_⟩
    unfold op_jump
    simp [hint, Bool.false_eq_true]
  | true =>
    obtain ⟨t, ht, hbyte⟩ := pop_byte_bind (show (vm.withStack s).evm.stack.entries = c :: rest from hs)
    refine ⟨t, ht, fun r vm' => ?_⟩
    have hpos := hc rfl
    have htaken : (if c ≠ [] ∧ beNat c < 256 then some (UInt8.ofNat (beNat c)) else none) ≠ some 0 := by
      split
      · next hlt =>
        intro h0
        have hzero := congrArg UInt8.toNat (Option.some.inj h0)
        rw [UInt8.toNat_ofNat', Nat.mod_eq_of_lt hlt.2] at hzero
        exact absurd hzero (by simpa using Nat.pos_iff_ne_zero.1 hpos)
      · simp
    unfold op_jump
    simp only [hint, if_true, hbyte, Vm.withStack_withStack]
    rw [if_neg htaken]

/-- A jump is right unless its place is the length of the code, or it is cut and one of the two places is valid. -/
theorem jump_iff {cond : Bool} {dest c : Bytes} {rest : List Bytes} (hcode : vm.HasCode code)
    (h : vm.evm.stack.entries = dest :: if cond then c :: rest else rest) (hc : cond = true → 0 < beNat c) :
    Jumps (op_jump cond) vm code rest (beNat dest) ↔
      min (beNat dest) (2 ^ 28 - 1) ≠ code.length ∧
        (beNat dest < 2 ^ 28 ∨ ¬ ValidDest code (2 ^ 28 - 1) ∧ ¬ ValidDest code (beNat dest)) := by
  obtain ⟨s, hs, hjump⟩ := op_jump_ends h hc
  have hlim : MEM_LIMIT = 2 ^ 28 - 1 := rfl
  rw [hlim] at hjump
  have hcode' : (vm.withStack s).HasCode code := ⟨hcode.data, hcode.len, hcode.alive⟩
  generalize hn : beNat dest = n at *
  unfold Jumps
  simp only [hjump]
  rcases Nat.lt_trichotomy (min n (2 ^ 28 - 1)) code.length with hlt | heq | hgt
  · simp only [jump_to_ends_iff hcode' hlt, ne_eq, hlt.ne, not_false_eq_true, true_and]
    by_cases hcut : n < 2 ^ 28
    · have hmin : min n (2 ^ 28 - 1) = n := by omega
      simp only [hmin, hcut, true_or, iff_true]
      by_cases hv : ValidDest code n
      · simp only [if_pos hv]
        exact ⟨s, hs, rfl⟩
      · simp only [if_neg hv]
        exact ⟨_, _, rfl, rfl⟩
    · have hmin : min n (2 ^ 28 - 1) = 2 ^ 28 - 1 := by omega
      simp only [hmin, hcut, false_or]
      by_cases hp : ValidDest code (2 ^ 28 - 1)
      · -- the jump goes to the place that was cut
        simp only [hp, not_true_eq_false, false_and, iff_false]
        split
        · rintro ⟨t, -, hvm⟩
          have hpos := congrArg (fun vm : Vm => vm.evm.pos) hvm
          change n = 2 ^ 28 - 1 at hpos
          omega
        · rintro ⟨_, _, h, -⟩
          cases h
      · simp only [hp, not_false_eq_true, true_and]
        split
        · next hv =>
          refine iff_of_false ?_ (fun hnot => hnot hv)
          rintro ⟨t, -, h, -⟩
          cases h
        · next hv => exact iff_of_true ⟨_, _, rfl, rfl⟩ hv
  · refine iff_of_false ?_ (fun hc => hc.1 heq)
    simp only [heq]
    split
    · rintro ⟨_, -, hends⟩
      exact jump_to_end hcode' hends
    · rintro ⟨_, _, hends⟩
      exact jump_to_end hcode' hends
  · have hnot : ¬ ValidDest code n := fun hv => by have := hv.lt; omega
    rw [if_neg hnot]
    refine iff_of_true ⟨_, _, jump_to_behind hcode' hgt⟩ ⟨hgt.ne', ?_⟩
    by_cases hcut : n < 2 ^ 28
    · exact .inl hcut
    · exact .inr ⟨fun hv => by have := hv.lt; omega, hnot⟩

end

def Vm.ofCode (code : Bytes) (stack : Stack) : Vm :=
  let vm := Vm.ofStack stack
  { vm with evm := { vm.evm with code := { data := code, len := code.length } } }

theorem Vm.hasCode_ofCode (code : Bytes) (stack : Stack) : (Vm.ofCode code stack).HasCode code :=
  ⟨rfl, rfl, by simp [Vm.ofCode]⟩

/-- A JUMPDEST behind a push of one byte, and one in its data. -/
theorem jump_of_push :
    Jumps (op_jump false) (Vm.ofCode [0x60, 0x5B, 0x5B] ⟨[[2]], [], by decide, by decide⟩) [0x60, 0x5B, 0x5B] [] (beNat [2]) ∧
      Jumps (op_jump true) (Vm.ofCode [0x60, 0x5B, 0x5B] ⟨[[1], [7]], [], by decide, by decide⟩) [0x60, 0x5B, 0x5B] []
        (beNat [1]) :=
  ⟨(jump_iff (c := []) (Vm.hasCode_ofCode _ _) rfl (by simp)).2 ⟨by decide, .inl (by decide)⟩,
    (jump_iff (c := [7]) (Vm.hasCode_ofCode _ _) rfl (by decide)).2 ⟨by decide, .inl (by decide)⟩⟩

/-- The byte behind a code of three bytes is read. -/
theorem jump_to_length :
    faults (op_jump false) (Vm.ofCode [0x60, 0x5B, 0x5B] ⟨[[3]], [], by decide, by decide⟩) (.read 3 3) := by
  decide

end In3.Evm
