import In3.Evm.IsolationTheorems
/-!
# Whole runs

The frames that wait for a run only change as they may, whatever it executes. And a run without
`SSTORE`, `LOG`, calls, creations and `SELFDESTRUCT` works on its own frame.
-/
open Lib Machine

namespace In3.Evm

/-- The opcodes that work on more than the running frame. -/
def acts (n : Nat) : Prop := n = 0x55 ∨ (0xA0 ≤ n ∧ n < 0xA5) ∨ n ∈ [0xF0, 0xF1, 0xF2, 0xF4, 0xF5, 0xFA, 0xFF]

/-- An opcode of the record that does not act. -/
def Event.Passive : Event → Prop
  | .step evm _ => ∀ op, evm.code.data[evm.pos]? = some op → ¬ acts op.toNat
  | _ => True

/-- What a run leaves as it was: logs and refunds, what every frame sees, and the frames that wait. -/
structure Untouched (env : Env) (vm vm' : Vm) : Prop where
  frame : vm'.evm = { vm.evm with
    stack := vm'.evm.stack, memory := vm'.evm.memory, pos := vm'.evm.pos, gas := vm'.evm.gas, accounts := vm'.evm.accounts,
    state := vm'.evm.state, return_data := vm'.evm.return_data }
  gas : vm'.evm.gas ≤ vm.evm.gas
  parents : List.Forall₂ SameFrame vm.parents vm'.parents
  nodes : vm'.nodes = vm.nodes
  seen : Seen env vm.frames vm'.frames

/-- What a part of a run does, if `P` holds. -/
def Reading (env : Env) (P : Prop) (new : List Event) (vm : Vm) (_o : Option Int) (vm' : Vm) : Prop :=
  P → (∀ e ∈ new, e.Passive) → Untouched env vm vm'

def Reads (env : Env) (P : Prop) {α : Type} (x : M α) : Prop := Follows Vm.trace (Reading env P) x

section
variable {env : Env} {P : Prop} {run : Bytes → M Unit} {α β : Type} {vm : Vm}

theorem untouched_refl (vm : Vm) : Untouched env vm vm := ⟨rfl, le_refl _, sameFrames_refl _, rfl, Seen.refl _ _⟩

theorem reading_chains (env : Env) (P : Prop) : Chains (Reading env P) where
  stop vm _ _ := untouched_refl vm
  seq := by
    intro m n s t u o hm hn hP hpassive
    obtain ⟨hframe, hgas, hpar, hnodes, hseen⟩ := hm hP fun e he => hpassive e (List.mem_append_left _ he)
    obtain ⟨hframe', hgas', hpar', hnodes', hseen'⟩ := hn hP fun e he => hpassive e (List.mem_append_right _ he)
    refine ⟨?_, hgas'.trans hgas, sameFrames_trans hpar hpar', hnodes'.trans hnodes, hseen.trans hseen'⟩
    rw [hframe', hframe]

theorem Reads.bind {x : M α} {f : α → M β} (hx : Reads env P x) (hf : ∀ a, Reads env P (f a)) : Reads env P (x >>= f) :=
  Machine.Follows.bind (reading_chains env P) hx hf

theorem Quietly.reads {x : M α} (h : Quietly env x) : Reads env P x := by
  refine Machine.Follows.mono h fun new vm o vm' hq _ _ => ⟨?_, hq.gas, hq.parents, hq.nodes, hq.seen⟩
  rw [hq.frame]

theorem reads_modifyEvm {f : evm_t → evm_t}
    (hf : ∀ evm, f evm = { evm with pos := (f evm).pos, state := (f evm).state, return_data := (f evm).return_data }) :
    Reads env P (modifyEvm f) := by
  refine Machine.Follows.modify (fun _ => rfl) fun vm _ _ => ⟨?_, ?_, sameFrames_refl _, rfl, ?_⟩
  · rw [hf vm.evm]
  · rw [hf vm.evm]
  · exact Seen.cons (over_congr (by rw [hf vm.evm]) _) (Seen.refl _ _)

theorem reads_op_return (revert : Bool) : Reads env P (op_return revert) := by
  refine quietly_pop_int.reads.bind fun _ => quietly_pop_int.reads.bind fun _ => quietly_getEvm.reads.bind fun _ => ?_
  refine (quietly_free_buffer _).reads.bind fun _ => (quietly_mem_readi _ _).reads.bind fun _ => ?_
  exact (quietly_new_buffer _).reads.bind fun _ => reads_modifyEvm fun _ => rfl

theorem reads_run_op {op : UInt8} (hop : ¬ acts op.toNat) (evm : evm_t) : Reads env P (run_op env run op evm) := by
  obtain ⟨hsstore, hlog, hsystem⟩ := not_or.1 hop |>.imp_right not_or.1
  unfold run_op
  simp only
  split
  · exact reads_modifyEvm fun _ => rfl
  split
  · exact (quietly_math_op _).reads
  split
  · exact (quietly_info_op _ _).reads
  split
  · exact (quietly_memory_op _ hsstore).reads
  split
  · exact (quietly_op_exec (quietly_op_push _) _).reads
  split
  · exact (quietly_op_exec (quietly_op_dup _) _).reads
  split
  · exact (quietly_op_exec (quietly_op_swap _) _).reads
  split
  · exact absurd ⟨Nat.le_of_not_lt ‹_›, ‹_›⟩ hlog
  · unfold system_op
    split
    all_goals first
      | exact reads_op_return _
      | exact (quietly_throw (by decide)).reads
      | exact absurd (by rw [‹op.toNat = _›]; decide) hsystem

/-- One opcode: what acts is in the record. -/
theorem reads_evm_execute (hrun : ∀ a, Isolates env True 0 0 (run a)) : Reads env True (evm_execute env run) := by
  intro vm r vm' h
  -- behind the record, under the condition that it states
  have hrest : FollowsAt Vm.trace (Reading env (Event.Passive (.step vm.evm vm.parents)))
      { vm with trace := vm.trace ++ [.step vm.evm vm.parents] } (do
        alive vm.evm.code
        let op ← checked (rd vm.evm.code.data vm.evm.pos)
        modifyEvm fun evm => { evm with pos := evm.pos + 1 }
        let evm ← getEvm
        run_op env run op evm) := by
    have hc := reading_chains env (Event.Passive (.step vm.evm vm.parents))
    refine FollowsAt.bind hc ((quietly_alive _).reads _) fun _ t ht => ?_
    obtain rfl := alive_ok ht
    refine FollowsAt.bind hc ((quietly_checked (errorless_rd _ _)).reads _) fun op t ht => ?_
    obtain ⟨hop, rfl⟩ := ends_checked_ok.1 ht
    refine FollowsAt.bind hc (reads_modifyEvm (fun _ => rfl) _) fun _ t _ => ?_
    refine FollowsAt.bind hc (quietly_getEvm.reads _) fun evm t _ => ?_
    by_cases hacts : acts op.toNat
    · intro r vm' h
      have hstep : ¬ Event.Passive (.step vm.evm vm.parents) := fun hstep => hstep op (ok_rd.1 hop) hacts
      by_cases hsstore : op = 0x55
      · subst hsstore
        obtain ⟨new, htrace, -⟩ := isolatesAt_op_sstore _ r vm' h
        exact ⟨new, htrace, fun hpassive => absurd hpassive hstep⟩
      · obtain ⟨new, htrace, -⟩ := isolates_run_op hrun hsstore _ _ r vm' h
        exact ⟨new, htrace, fun hpassive => absurd hpassive hstep⟩
    · exact reads_run_op hacts _ _
  obtain ⟨new, htrace, hreading⟩ := hrest r vm' h
  refine ⟨.step vm.evm vm.parents :: new, by rw [htrace, List.append_assoc]; rfl, fun _ hpassive => ?_⟩
  obtain ⟨hframe, hgas, hpar, hnodes, hseen⟩ := hreading (hpassive _ List.mem_cons_self) fun e he => hpassive e (List.mem_cons_of_mem _ he)
  exact ⟨hframe, hgas, hpar, hnodes, hseen⟩

theorem reads_opcode_loop (depth n : Nat) : Reads env True (opcode_loop (evm_execute env (evm_run env depth)) n) := by
  have hc := reading_chains env True
  induction n with
  | zero => exact Machine.Follows.pure hc _
  | succ n ih =>
    refine quietly_getEvm.reads.bind fun evm => ?_
    split
    · refine Reads.bind (Machine.Follows.attempt (reads_evm_execute (isolates_evm_run depth)) id) fun res => ?_
      split
      · exact Machine.Follows.throw fun vm _ _ => untouched_refl vm
      · exact Reads.bind (Machine.Follows.ofExcept fun vm _ _ => untouched_refl vm) fun _ => ih
    · exact Machine.Follows.pure hc _

/-- The loop of `evm_run`, for every code and from every state. -/
theorem passive_run_untouched (depth n : Nat) {r : Except Int Unit} {vm' : Vm}
    (h : ends (opcode_loop (evm_execute env (evm_run env depth)) n) vm r vm')
    (hpassive : ∀ e ∈ vm'.trace.drop vm.trace.length, e.Passive) : Untouched env vm vm' := by
  obtain ⟨new, htrace, hreading⟩ := reads_opcode_loop depth n vm r vm' h
  rw [htrace, List.drop_left] at hpassive
  exact hreading trivial hpassive

/-- `evm_run`, with all the calls that it makes. -/
theorem run_keeps_waiting (depth : Nat) (code_address : Bytes) {r : Except Int Unit} {vm' : Vm}
    (h : ends (evm_run env depth code_address) vm r vm') :
    List.Forall₂ Waiting vm.parents vm'.parents ∧
      ((∀ e ∈ vm'.trace.drop vm.trace.length, e.Calm env) → Seen env vm.parents vm'.parents) := by
  obtain ⟨new, htrace, hisolated⟩ := isolates_evm_run depth code_address vm r vm' h
  rw [htrace, List.drop_left]
  exact ⟨hisolated.waiting, hisolated.seen trivial⟩

end

/-- A frame with the code that another one waits for. -/
def waitedFor (code : Bytes) (gas : Nat) : Vm :=
  let vm := Vm.ofStack Stack.empty
  { vm with evm := { vm.evm with code := { data := code, len := code.length }, state := .RUNNING, gas := gas }, parents := [vm.evm] }

/-- `PUSH1 7`, `POP` and `STOP`. -/
def pushAndStop : Vm := waitedFor [0x60, 7, 0x50, 0] 9

theorem passive_run_untouched_stop : ∃ vm', ends (opcode_loop (evm_execute bareEnv (evm_run bareEnv 0)) 9) pushAndStop (.ok ()) vm' ∧
    vm'.trace.length = 3 ∧ Untouched bareEnv pushAndStop vm' := by
  refine ⟨_, rfl, rfl, passive_run_untouched 0 9 rfl ?_⟩
  simp [pushAndStop, waitedFor, Vm.ofStack, Event.Passive, acts]

/-- The operands of a `CALL` with two bytes of output, the `CALL` and `STOP`. -/
def callAndStop : Vm :=
  waitedFor [0x60, 2, 0x60, 0, 0x60, 0, 0x60, 0, 0x60, 0, 0x61, 1, 1, 0x61, 255, 255, 0xF1, 0] 100000

/-- The frame that is called stores a word and reverts. -/
theorem run_keeps_waiting_call : ∃ vm', ends (evm_run (wordEnv []) 2 []) callAndStop (.ok ()) vm' ∧
    Event.leave false none ∈ vm'.trace ∧ List.Forall₂ Waiting callAndStop.parents vm'.parents ∧
      Seen (wordEnv []) callAndStop.parents vm'.parents := by
  have hrun : ends (evm_run (wordEnv []) 2 []) callAndStop (.ok ()) (behind (evm_run (wordEnv []) 2 []) callAndStop) ∧
      Event.leave false none ∈ (behind (evm_run (wordEnv []) 2 []) callAndStop).trace := by
    decide +kernel
  obtain ⟨hwaiting, hseen⟩ := run_keeps_waiting 2 [] hrun.1
  exact ⟨_, hrun.1, hrun.2, hwaiting, hseen fun e _ => calm_wordEnv e⟩

end In3.Evm
