import In3.Evm.ArithTheorems
import In3.Evm.Errors
import In3.Evm.Views
/-!
# Operations that stay in their frame

Most opcodes only work on the stack, the memory, the position and the gas of the running frame. They
look accounts up, so that the frames may get copies of accounts, but no frame sees anything else than
before. `Quiet` says all this at once; what they have too little gas for ends them, and they do not
fail with the error of a transfer, if the environment does not.
-/
open Lib Machine

namespace In3.Evm

/-- What a quiet operation does. -/
structure Quiet (env : Env) (new : List Event) (vm : Vm) (o : Option Int) (vm' : Vm) : Prop where
  record : new = [] ∨ new = [.unpaid vm.parents.length] ∧ o = some EVM_ERROR_OUT_OF_GAS
  frame : vm'.evm = { vm.evm with
    stack := vm'.evm.stack, memory := vm'.evm.memory, pos := vm'.evm.pos, gas := vm'.evm.gas, accounts := vm'.evm.accounts }
  gas : vm'.evm.gas ≤ vm.evm.gas
  parents : List.Forall₂ SameFrame vm.parents vm'.parents
  nodes : vm'.nodes = vm.nodes
  seen : Seen env vm.frames vm'.frames
  fair : env.Fair → o ≠ some EVM_ERROR_BALANCE_TOO_LOW

theorem Quiet.stop {env : Env} (vm : Vm) {o : Option Int} (ho : env.Fair → o ≠ some EVM_ERROR_BALANCE_TOO_LOW) :
    Quiet env [] vm o vm :=
  ⟨.inl rfl, rfl, le_refl _, sameFrames_refl _, rfl, Seen.refl _ _, ho⟩

theorem quiet_chains (env : Env) : Chains (Quiet env) where
  stop vm := Quiet.stop vm (by simp)
  seq := by
    rintro m n s t u o ⟨hrec, hframe, hgas, hpar, hnodes, hseen, -⟩ ⟨hrec', hframe', hgas', hpar', hnodes', hseen', hfair⟩
    have hm : m = [] := by
      rcases hrec with h | ⟨-, h⟩
      · exact h
      · cases h
    refine ⟨?_, ?_, hgas'.trans hgas, sameFrames_trans hpar hpar', hnodes'.trans hnodes, hseen.trans hseen', hfair⟩
    · rw [hm, hpar.length_eq]
      exact hrec'
    · rw [hframe', hframe]

/-- Every outcome of the run is quiet. -/
def Quietly (env : Env) {α : Type} (x : M α) : Prop := Follows Vm.trace (Quiet env) x

section
variable {env : Env} {α β : Type}

theorem Quietly.bind {x : M α} {f : α → M β} (hx : Quietly env x) (hf : ∀ a, Quietly env (f a)) : Quietly env (x >>= f) :=
  Machine.Follows.bind (quiet_chains env) hx hf

theorem quietly_pure (a : α) : Quietly env (pure a : M α) := Machine.Follows.pure (quiet_chains env) a

variable {e : Int} {g : Nat} {r : Except Int Unit} {vm vm' : Vm}

theorem quietly_throw (he : e ≠ EVM_ERROR_BALANCE_TOO_LOW) : Quietly env (throw e : M α) :=
  Machine.Follows.throw fun vm => Quiet.stop vm fun _ h => he (Option.some.inj h)

theorem quietly_throw_bind (he : e ≠ EVM_ERROR_BALANCE_TOO_LOW) (f : α → M β) :
    Quietly env ((throw e : M α) >>= f) := quietly_throw he

theorem quietly_fault (f : Fault) : Quietly env (Machine.fault f : M α) := Machine.Follows.fault f

theorem quietly_get : Quietly env (get : M Vm) := Machine.Follows.get (quiet_chains env)

theorem quietly_checked {x : Checked α} (hx : Guarded.errorless x) : Quietly env (checked x) :=
  Machine.Follows.ofGuarded (quiet_chains env) fun e _ h => absurd h (hx e)

theorem quietly_guard (p : Prop) [Decidable p] (f : Fault) : Quietly env (checked (Guarded.guard p f)) :=
  quietly_checked (Guarded.errorless_guard p f)

theorem quietly_ofEnv {x : Except Int α} (hx : env.Fair → x ≠ .error EVM_ERROR_BALANCE_TOO_LOW) :
    Quietly env (checked (ofEnv x)) := by
  refine Machine.Follows.ofGuarded (quiet_chains env) fun e vm h => Quiet.stop vm fun hfair he => ?_
  rw [Option.some.inj he] at h
  exact hx hfair (raises_ofEnv.1 h)

theorem quietly_getEvm : Quietly env getEvm := quietly_get.bind fun _ => quietly_pure _

theorem quietly_modifyEvm {f : evm_t → evm_t}
    (hf : ∀ evm, f evm = { evm with stack := (f evm).stack, memory := (f evm).memory, pos := (f evm).pos }) :
    Quietly env (modifyEvm f) := by
  refine Machine.Follows.modify (fun _ => rfl) fun vm => ⟨.inl rfl, ?_, ?_, sameFrames_refl _, rfl, ?_, by simp⟩
  · rw [hf vm.evm]
  · rw [hf vm.evm]
  · exact Seen.cons (over_congr (by rw [hf vm.evm]) _) (Seen.refl _ _)

theorem quietly_modify {f : Vm → Vm} (hf : ∀ vm, f vm = { vm with next_buf := (f vm).next_buf, freed := (f vm).freed }) :
    Quietly env (modify f : M PUnit) := by
  refine Machine.Follows.modify (fun vm => by rw [hf vm]) fun vm => ?_
  have hevm : (f vm).evm = vm.evm := by rw [hf vm]
  have hpar : (f vm).parents = vm.parents := by rw [hf vm]
  refine ⟨.inl rfl, by rw [hevm], by rw [hevm], by rw [hpar]; exact sameFrames_refl _, by rw [hf vm], ?_, by simp⟩
  unfold Vm.frames
  rw [hevm, hpar]
  exact Seen.refl _ _

/-! ## Gas -/

theorem quietly_outOfGas : Quietly env (outOfGas : M α) := by
  intro vm r vm' h
  obtain ⟨rfl, rfl⟩ := ends_throw.1 h
  refine ⟨_, rfl, .inr ⟨rfl, rfl⟩, rfl, le_refl _, sameFrames_refl _, rfl, Seen.refl _ _, fun _ => ?_⟩
  rw [errorOf_error]
  decide

theorem subgas_ends (h : ends (subgas g) vm r vm') :
    (g ≤ vm.evm.gas ∧ r = .ok () ∧ vm' = { vm with evm := { vm.evm with gas := vm.evm.gas - g } }) ∨
      (vm.evm.gas < g ∧ r = .error EVM_ERROR_OUT_OF_GAS ∧
        vm' = { vm with trace := vm.trace ++ [.unpaid vm.parents.length] }) := by
  unfold subgas at h
  rw [ends_getEvm_bind] at h
  split at h
  · next hlt =>
    obtain ⟨rfl, rfl⟩ := ends_throw.1 h
    exact .inr ⟨hlt, rfl, rfl⟩
  · next hge =>
    obtain ⟨rfl, rfl⟩ := ends_modifyEvm.1 h
    exact .inl ⟨by omega, rfl, rfl⟩

theorem subgas_pays (h : g ≤ vm.evm.gas) :
    ends (subgas g) vm (.ok ()) { vm with evm := { vm.evm with gas := vm.evm.gas - g } } := by
  unfold subgas
  rw [ends_getEvm_bind, if_neg (by omega)]
  exact ends_modifyEvm.2 ⟨rfl, rfl⟩

theorem subgas_fails (h : vm.evm.gas < g) :
    ∃ vm', ends (subgas g) vm (.error EVM_ERROR_OUT_OF_GAS) vm' := by
  refine ⟨{ vm with trace := vm.trace ++ [.unpaid vm.parents.length] }, ?_⟩
  unfold subgas outOfGas record
  rw [ends_getEvm_bind, if_pos h]
  rfl

theorem quietly_subgas (g : Nat) : Quietly env (subgas g) := by
  intro vm r vm' h
  rcases subgas_ends h with ⟨hle, rfl, rfl⟩ | ⟨hlt, rfl, rfl⟩
  · refine ⟨[], by simp, .inl rfl, rfl, Nat.sub_le _ _, sameFrames_refl _, rfl, ?_, by simp⟩
    exact Seen.cons (over_congr rfl _) (Seen.refl _ _)
  · exact ⟨_, rfl, .inr ⟨rfl, rfl⟩, rfl, le_refl _, sameFrames_refl _, rfl, Seen.refl _ _, fun _ => by decide⟩

/-! ## The stack -/

theorem push_outcome {data : Bytes} (h : ends (evm_stack_push data) vm r vm') :
    (r = .error EVM_ERROR_STACK_LIMIT ∧ vm' = vm) ∨ (∃ stack, r = .ok () ∧ vm' = vm.withStack stack) := by
  unfold evm_stack_push at h
  rw [ends_getEvm_bind] at h
  split at h
  · exact .inl (ends_throw.1 h)
  · next stack _ => exact .inr ⟨stack, ends_modifyEvm.1 h⟩

theorem quietly_push (data : Bytes) : Quietly env (evm_stack_push data) := by
  refine quietly_getEvm.bind fun evm => ?_
  split
  · exact quietly_throw (by decide)
  · exact quietly_modifyEvm fun _ => rfl

theorem quietly_push_int (n : Nat) : Quietly env (evm_stack_push_int n) := quietly_push _

theorem quietly_push_long (n : Nat) : Quietly env (evm_stack_push_long n) := by
  unfold evm_stack_push_long
  simp only
  split
  · exact quietly_push _
  · exact quietly_push _

theorem quietly_pop_ref : Quietly env evm_stack_pop_ref := by
  refine quietly_getEvm.bind fun evm => ?_
  split
  · exact quietly_throw (by decide)
  · exact (quietly_modifyEvm fun _ => rfl).bind fun _ => quietly_pure _

theorem quietly_pop (len : Nat) : Quietly env (evm_stack_pop len) := quietly_pop_ref.bind fun _ => quietly_pure _

theorem quietly_pop_byte : Quietly env evm_stack_pop_byte := quietly_pop_ref.bind fun _ => quietly_pure _

theorem quietly_pop_int : Quietly env evm_stack_pop_int := quietly_pop_ref.bind fun _ => quietly_pure _

theorem quietly_get_ref (pos : Nat) : Quietly env (evm_stack_get_ref pos) := by
  refine quietly_getEvm.bind fun evm => ?_
  simp only
  split
  · exact quietly_throw_bind (by decide) _
  · split
    · exact quietly_pure _
    · exact quietly_throw (by decide)

/-! ## The memory -/

theorem quietly_extend_memory (n : Nat) : Quietly env (extend_memory n) := by
  refine quietly_getEvm.bind fun evm => ?_
  simp only
  split
  · exact quietly_pure _
  · split
    · exact (quietly_subgas _).bind fun _ => (quietly_modifyEvm fun _ => rfl).bind fun _ => quietly_pure _
    · exact (quietly_modifyEvm fun _ => rfl).bind fun _ => quietly_pure _

theorem quietly_mem_check (n : Nat) (read_only : Bool) : Quietly env (mem_check n read_only) := by
  unfold mem_check
  split
  · exact quietly_outOfGas
  · refine (quietly_extend_memory n).bind fun n => ?_
    split
    · exact quietly_pure _
    · exact quietly_modifyEvm fun _ => rfl

theorem quietly_mem_readi (off len : Nat) : Quietly env (evm_mem_readi off len) := by
  unfold evm_mem_readi
  split
  · exact quietly_pure _
  · exact (quietly_mem_check _ _).bind fun _ => quietly_getEvm.bind fun _ => quietly_pure _

theorem quietly_mem_read (off : Bytes) (len : Nat) : Quietly env (evm_mem_read off len) := by
  unfold evm_mem_read
  simp only
  split
  · exact quietly_outOfGas
  · exact quietly_mem_readi _ _

theorem quietly_mem_read_ref (off len : Nat) : Quietly env (evm_mem_read_ref off len) :=
  (quietly_mem_check _ _).bind fun _ => quietly_getEvm.bind fun _ => quietly_pure _

theorem quietly_mem_copy (off : Nat) {read : M Bytes} (hread : Quietly env read) (len : Nat) :
    Quietly env (evm_mem_copy off read len) :=
  (quietly_mem_check _ _).bind fun _ => hread.bind fun _ => quietly_modifyEvm fun _ => rfl

theorem quietly_mem_write (off : Nat) (src : Bytes) (len : Nat) : Quietly env (evm_mem_write off src len) :=
  quietly_mem_copy off (quietly_pure src) len

/-! ## Accounts -/

/-- A step on all frames leaves new ones, or it raises an error and changes nothing. -/
theorem withFrames_ends {f : List evm_t → Checked (α × List evm_t)} {r : Except Int α} :
    ends (withFrames f) vm r vm' ↔
      (∃ a g gs, r = .ok a ∧ Guarded.ok (f vm.frames) (a, g :: gs) ∧ vm' = { vm with evm := g, parents := gs }) ∨
        (∃ e, r = .error e ∧ Guarded.raises (f vm.frames) e) ∧ vm' = vm := by
  unfold withFrames
  rw [ends_get_bind]
  constructor
  · intro h
    rcases ends_bind.1 h with ⟨⟨a, gs⟩, t, hf, h⟩ | ⟨e, rfl, hf⟩
    · obtain ⟨hok, rfl⟩ := ends_ofGuarded_ok.1 hf
      rcases gs with _ | ⟨g, gs⟩
      · exact absurd h ends_fault
      · obtain ⟨rfl, rfl⟩ := ends_pure.1 h
        exact .inl ⟨a, g, gs, rfl, hok, rfl⟩
    · obtain ⟨he, rfl⟩ := ends_ofGuarded_error.1 hf
      exact .inr ⟨⟨e, rfl, he⟩, rfl⟩
  · rintro (⟨a, g, gs, rfl, hok, rfl⟩ | ⟨⟨e, rfl, he⟩, rfl⟩)
    · exact ends_bind_ok.2 ⟨_, _, ends_ofGuarded_ok.2 ⟨hok, rfl⟩, ends_pure.2 ⟨rfl, rfl⟩⟩
    · exact ends_bind.2 (.inr ⟨e, rfl, ends_ofGuarded_error.2 ⟨he, rfl⟩⟩)

theorem withFrames_ok {f : List evm_t → Checked (α × List evm_t)} {a : α} :
    ends (withFrames f) vm (.ok a) vm' ↔
      ∃ g gs, Guarded.ok (f vm.frames) (a, g :: gs) ∧ vm' = { vm with evm := g, parents := gs } := by
  simp [withFrames_ends]

theorem quietly_withFrames {f : List evm_t → Checked (α × List evm_t)} {r : Except Int α}
    (hf : ∀ a gs, Guarded.ok (f vm.frames) (a, gs) → List.Forall₂ SameFrame vm.frames gs ∧ Seen env vm.frames gs)
    (hfair : env.Fair → ¬ Guarded.raises (f vm.frames) EVM_ERROR_BALANCE_TOO_LOW)
    (h : ends (withFrames f) vm r vm') : ∃ new, vm'.trace = vm.trace ++ new ∧ Quiet env new vm (Machine.errorOf r) vm' := by
  rcases withFrames_ends.1 h with ⟨a, g, gs, rfl, hok, rfl⟩ | ⟨⟨e, rfl, he⟩, rfl⟩
  · obtain ⟨hsame, hseen⟩ := hf _ _ hok
    obtain ⟨hhead, htail⟩ := List.forall₂_cons.1 hsame
    refine ⟨[], by simp, .inl rfl, ?_, ?_, htail, rfl, hseen, by simp⟩
    · rw [hhead]
    · rw [hhead]
  · refine ⟨[], by simp, Quiet.stop _ fun henv heq => hfair henv ?_⟩
    rw [← Option.some.inj heq]
    exact he

theorem quietly_get_account (adr : Bytes) (create : Bool) : Quietly env (get_account env adr create) := by
  intro vm r vm' h
  refine quietly_withFrames (fun a gs hok => ?_) (fun hfair => get_account_fair hfair _ _ _) h
  have hgot := get_account_ok hok
  exact ⟨hgot.same, hgot.seen⟩

theorem quietly_get_storage (adr key : Bytes) : Quietly env (get_storage env adr key false) := by
  intro vm r vm' h
  unfold get_storage at h
  rw [ends_get_bind] at h
  refine quietly_withFrames (fun a gs hok => ?_) (fun hfair => get_storage_fair hfair _ _ _ _ _) h
  have hgot := get_storage_ok (n := vm.frames.length) rfl hok
  exact ⟨hgot.same, hgot.seen⟩

theorem quietly_own_account (adr : Bytes) : Quietly env (own_account adr) := by
  refine quietly_getEvm.bind fun evm => ?_
  split
  · exact quietly_pure _
  · exact quietly_fault _

/-! ## Buffers -/

theorem quietly_alive (code : Code) : Quietly env (alive code) := by
  refine quietly_get.bind fun vm => ?_
  split
  · split
    · exact quietly_fault _
    · exact quietly_pure _
  · exact quietly_pure _

theorem quietly_new_buffer (bytes : Bytes) : Quietly env (new_buffer bytes) := by
  intro vm r vm' h
  obtain ⟨rfl, rfl⟩ := ends_pure.1 h
  exact ⟨[], by simp, .inl rfl, rfl, le_refl _, sameFrames_refl _, rfl, Seen.refl _ _, by simp⟩

theorem quietly_free_buffer (b : Option Buffer) : Quietly env (free_buffer b) := by
  unfold free_buffer
  split
  · exact quietly_modify fun _ => rfl
  · exact quietly_pure _

/-- Freeing a buffer changes no frame. -/
theorem free_buffer_ends {b : Option Buffer} {vm vm' : Vm} {r : Except Int Unit} (h : ends (free_buffer b) vm r vm') :
    r = .ok () ∧ vm'.evm = vm.evm ∧ vm'.parents = vm.parents ∧ vm'.trace = vm.trace := by
  unfold free_buffer at h
  split at h
  · obtain ⟨rfl, rfl⟩ := ends_modify.1 h
    exact ⟨rfl, rfl, rfl, rfl⟩
  · obtain ⟨rfl, rfl⟩ := ends_pure.1 h
    exact ⟨rfl, rfl, rfl, rfl⟩

theorem quietly_source_bytes (src : Code) (pos len : Nat) : Quietly env (source_bytes src pos len) := by
  unfold source_bytes
  simp only
  split
  · exact quietly_pure _
  · exact (quietly_alive _).bind fun _ => (quietly_guard _ _).bind fun _ => quietly_pure _

/-! ## Opcodes -/

theorem quietly_op_math (op : MATH) (mod : Bool) : Quietly env (op_math op mod) := by
  have hswitch : ∀ a b, Quietly env (math_switch op mod a b) := by
    intro a b
    cases op with
    | EXP =>
      refine quietly_getEvm.bind fun evm => (quietly_checked (errorless_big_log256 _ _)).bind fun n => ?_
      exact (quietly_subgas _).bind fun _ => quietly_pure _
    | ADD => exact quietly_checked (errorless_big_add _ _ _ _)
    | SUB => exact quietly_checked (errorless_big_sub _ _ _)
    | MUL => exact quietly_checked (errorless_big_mul _ _ _ _)
    | DIV => exact quietly_checked (errorless_big_div _ _ _)
    | SDIV => exact quietly_checked (errorless_big_div _ _ _)
    | MOD => exact quietly_checked (errorless_big_mod _ _ _)
    | SMOD => exact quietly_checked (errorless_big_mod _ _ _)
  refine quietly_pop_ref.bind fun a => quietly_pop_ref.bind fun b => (hswitch a b).bind fun r => ?_
  split
  · exact quietly_pop_ref.bind fun _ => (quietly_checked (errorless_big_mod _ _ _)).bind fun _ => quietly_push _
  · exact quietly_push _

theorem quietly_op_signextend : Quietly env op_signextend := by
  have hword : ∀ k val, Guarded.errorless (signextend_word k val) :=
    fun _ _ => Guarded.errorless_bind (Guarded.errorless_guard _ _) fun _ => Guarded.errorless_pure _
  refine quietly_pop_int.bind fun k => ?_
  split
  · exact quietly_pure _
  · exact quietly_pop_ref.bind fun _ => (quietly_checked (hword _ _)).bind fun _ => quietly_push _

theorem quietly_op_is_zero : Quietly env op_is_zero := quietly_pop_ref.bind fun _ => quietly_push _

theorem quietly_op_not : Quietly env op_not := quietly_pop_ref.bind fun _ => quietly_push _

theorem quietly_op_bit (op : BIT) : Quietly env (op_bit op) :=
  quietly_pop_ref.bind fun _ => quietly_pop_ref.bind fun _ => quietly_push _

theorem quietly_op_cmp (ord : Ordering) (sig : Bool) : Quietly env (op_cmp ord sig) :=
  quietly_pop_ref.bind fun _ => quietly_pop_ref.bind fun _ => quietly_push _

theorem quietly_op_byte : Quietly env op_byte := by
  refine quietly_pop_byte.bind fun pos => quietly_pop_ref.bind fun b => ?_
  split
  · exact quietly_push _
  · split
    · exact quietly_push _
    · split
      · exact (quietly_checked (errorless_rd _ _)).bind fun _ => quietly_push _
      · exact quietly_push _

theorem quietly_op_shift (left : SHIFT) : Quietly env (op_shift left) := by
  refine quietly_getEvm.bind fun evm => ?_
  simp only
  split
  · exact quietly_throw_bind (by decide) _
  · refine quietly_pop_byte.bind fun pos => quietly_pop_ref.bind fun b => ?_
    split
    · split
      · exact quietly_push _
      · exact quietly_push _
    · split
      · exact quietly_push _
      · exact quietly_push _
      · split
        · exact quietly_push _
        · exact quietly_push _

theorem quietly_op_dataload : Quietly env op_dataload := by
  refine quietly_pop_int.bind fun pos => quietly_getEvm.bind fun evm => ?_
  split
  · exact quietly_push_int _
  · split
    · exact quietly_push _
    · split
      · exact quietly_push _
      · exact quietly_push_int _

theorem quietly_op_sha3 : Quietly env (op_sha3 env) := by
  have hread : ∀ offset len, Quietly env (op_sha3.read_source offset len) := by
    intro offset len
    unfold op_sha3.read_source
    split
    · exact quietly_pure _
    · exact quietly_mem_read_ref _ _
  refine quietly_pop_int.bind fun offset => quietly_pop_int.bind fun len => ?_
  split
  · exact quietly_outOfGas
  · exact (hread _ _).bind fun _ => (quietly_subgas _).bind fun _ => quietly_push _

theorem quietly_popped_bytes (n : Nat) : Quietly env (popped_bytes n) :=
  quietly_getEvm.bind fun _ => (quietly_guard _ _).bind fun _ => quietly_pure _

theorem quietly_op_account (key : AccountKey) : Quietly env (op_account env key) := by
  have hdata : ∀ ac, Quietly env (account_data env key ac) := by
    intro ac
    cases key with
    | CODE_HASH =>
      simp only [account_data]
      split
      · exact quietly_pure _
      · exact (quietly_alive _).bind fun _ => (quietly_guard _ _).bind fun _ => quietly_pure _
    | _ => exact quietly_pure _
  have hcached : Quietly env (cached_account_data env key) := by
    unfold cached_account_data
    split
    · exact quietly_pure _
    · refine (quietly_popped_bytes _).bind fun _ => (quietly_get_account _ _).bind fun ac => ?_
      split
      · exact hdata _
      · exact quietly_pure _
  have henv : ∀ e, Quietly env (env_account_data env key e) := by
    intro e
    refine quietly_getEvm.bind fun evm => ?_
    cases key with
    | BLOCKHASH => exact quietly_ofEnv fun h => h.blockhash _
    | BALANCE => exact (quietly_popped_bytes _).bind fun _ => quietly_ofEnv fun h => h.balance _
    | CODE_SIZE => exact (quietly_popped_bytes _).bind fun _ => quietly_ofEnv fun h => h.code_size _ _
    | CODE_HASH => exact (quietly_popped_bytes _).bind fun _ => quietly_ofEnv fun h => h.code_hash _ _ _
  refine quietly_getEvm.bind fun evm => ?_
  split
  · exact quietly_throw (by decide)
  · refine quietly_pop_ref.bind fun e => hcached.bind fun data => ?_
    split
    · exact quietly_push _
    · exact (henv e).bind fun _ => quietly_push _

theorem quietly_op_header (index : Int) : Quietly env (op_header env index) := by
  refine (quietly_ofEnv fun h => h.blockheader).bind fun b => ?_
  split
  · exact quietly_push _
  · exact quietly_fault _
  · exact quietly_push_int _
  · exact quietly_fault _

theorem quietly_op_datacopy (src : evm_t → Code) (check_size : Bool) : Quietly env (op_datacopy src check_size) := by
  have hfill : ∀ mem_pos data_len len, Quietly env (op_datacopy.fill_zeros mem_pos data_len len) := by
    intro mem_pos data_len len
    unfold op_datacopy.fill_zeros
    split
    · exact quietly_mem_write _ _ _
    · exact quietly_pure _
  refine quietly_pop_int.bind fun mem_pos => quietly_pop_int.bind fun data_pos => quietly_pop_int.bind fun data_len => ?_
  refine (quietly_subgas _).bind fun _ => quietly_getEvm.bind fun evm => ?_
  split
  · exact quietly_throw (by decide)
  · refine (hfill _ _ _).bind fun _ => ?_
    split
    · exact quietly_mem_copy _ (quietly_source_bytes _ _ _) _
    · exact quietly_pure _

theorem quietly_op_extcodecopy : Quietly env (op_extcodecopy env) := by
  refine (quietly_pop 20).bind fun address => quietly_pop_int.bind fun mem_pos => quietly_pop_int.bind fun code_pos => ?_
  refine quietly_pop_int.bind fun data_len => (quietly_subgas _).bind fun _ => (quietly_get_account _ _).bind fun ac => ?_
  split
  · split
    · exact quietly_mem_copy _ (quietly_source_bytes _ _ _) _
    · exact quietly_mem_write _ _ _
  · exact quietly_mem_write _ _ _

theorem quietly_op_pop : Quietly env op_pop := quietly_pop_ref.bind fun _ => quietly_pure _

theorem quietly_op_mload : Quietly env op_mload :=
  quietly_pop_ref.bind fun _ => (quietly_mem_read _ _).bind fun _ => quietly_push _

theorem quietly_op_mstore (len : Nat) : Quietly env (op_mstore len) := by
  refine quietly_pop_int.bind fun offset => quietly_pop_ref.bind fun data => ?_
  split
  · exact quietly_mem_write _ _ _
  · exact quietly_mem_write _ _ _

theorem quietly_op_dup (pos : Nat) : Quietly env (op_dup pos) := (quietly_get_ref pos).bind fun _ => quietly_push _

theorem quietly_op_swap (pos : Nat) : Quietly env (op_swap pos) :=
  (quietly_get_ref 1).bind fun _ => (quietly_get_ref pos).bind fun _ => quietly_modifyEvm fun _ => rfl

theorem quietly_op_jump (cond : Bool) : Quietly env (op_jump cond) := by
  have hjump : ∀ pos, Quietly env (jump_to pos) := by
    intro pos
    refine quietly_getEvm.bind fun evm => ?_
    split
    · exact quietly_throw (by decide)
    · refine (quietly_alive _).bind fun _ => (quietly_checked (errorless_rd _ _)).bind fun op => ?_
      refine (quietly_guard _ _).bind fun _ => ?_
      split
      · exact quietly_throw (by decide)
      · split
        · exact quietly_throw (by decide)
        · exact quietly_modifyEvm fun _ => rfl
  refine quietly_pop_int.bind fun pos => ?_
  split
  · refine quietly_pop_byte.bind fun c => ?_
    split
    · exact quietly_pure _
    · exact hjump pos
  · exact hjump pos

theorem quietly_op_sload : Quietly env (op_sload env) := by
  refine quietly_pop_ref.bind fun key => quietly_getEvm.bind fun evm => (quietly_get_storage _ _).bind fun s => ?_
  split
  · exact quietly_push _
  · exact (quietly_ofEnv fun h => h.storage _ _).bind fun _ => quietly_push _

/-- A push fails without an unpaid amount, so that another error may take its place. -/
theorem quietly_push_error (he : e ≠ EVM_ERROR_BALANCE_TOO_LOW) (data : Bytes) :
    Quietly env (Machine.mapError (fun _ => e) (evm_stack_push data)) := by
  intro vm r vm' h
  obtain ⟨q, rfl, hq⟩ := ends_mapError.1 h
  rcases push_outcome hq with ⟨rfl, rfl⟩ | ⟨stack, rfl, rfl⟩
  · exact ⟨[], by simp, Quiet.stop _ fun _ h => he (Option.some.inj h)⟩
  · refine ⟨[], by simp [Vm.withStack], .inl rfl, rfl, le_refl _, sameFrames_refl _, rfl, ?_, nofun⟩
    exact Seen.cons (over_congr rfl _) (Seen.refl _ _)

theorem quietly_op_push (len : Nat) : Quietly env (op_push len) := by
  refine quietly_getEvm.bind fun evm => ?_
  split
  · refine (quietly_source_bytes _ _ _).bind fun data => ?_
    exact (quietly_modifyEvm fun _ => rfl).bind fun _ => quietly_push _
  · refine (quietly_source_bytes _ _ _).bind fun data => ?_
    exact (quietly_push_error (by decide) _).bind fun _ => quietly_modifyEvm fun _ => rfl

/-! ## The table -/

theorem quietly_op_exec {m : M Unit} (hm : Quietly env m) (gc : Nat) : Quietly env (op_exec m gc) :=
  (quietly_subgas gc).bind fun _ => hm

theorem quietly_math_op (n : Nat) : Quietly env (math_op n) := by
  unfold math_op
  split
  all_goals with_reducible first
    | exact quietly_op_exec (quietly_op_math _ _) _
    | exact quietly_op_exec (quietly_op_cmp _ _) _
    | exact quietly_op_exec (quietly_op_bit _) _
    | exact quietly_op_exec (quietly_op_shift _) _
    | exact quietly_op_exec quietly_op_signextend _
    | exact quietly_op_exec quietly_op_is_zero _
    | exact quietly_op_exec quietly_op_not _
    | exact quietly_op_exec quietly_op_byte _
    | exact quietly_throw (by decide)

theorem quietly_info_op (n : Nat) (evm : evm_t) : Quietly env (info_op env n evm) := by
  have hchain : Quietly env (info_op.push_chain_id evm) := by
    unfold info_op.push_chain_id
    split
    · exact quietly_push_long _
    · exact quietly_throw (by decide)
  unfold info_op
  split
  all_goals with_reducible first
    | exact quietly_op_exec (quietly_push _) _
    | exact quietly_op_exec (quietly_push_int _) _
    | exact quietly_op_exec (quietly_op_header _) _
    | exact quietly_op_exec (quietly_op_account _) _
    | exact quietly_op_exec (quietly_op_datacopy _ _) _
    | exact quietly_op_exec quietly_op_sha3 _
    | exact quietly_op_exec quietly_op_dataload _
    | exact quietly_op_exec quietly_op_extcodecopy _
    | exact quietly_op_exec hchain _
    | exact quietly_throw (by decide)

theorem quietly_memory_op {n : Nat} (evm : evm_t) (h : n ≠ 0x55) : Quietly env (memory_op env n evm) := by
  have hgas : Quietly env memory_op.push_gas := quietly_getEvm.bind fun _ => quietly_push_long _
  unfold memory_op
  split
  all_goals with_reducible first
    | exact absurd rfl h
    | exact quietly_op_exec (quietly_push_int _) _
    | exact quietly_op_exec (quietly_op_mstore _) _
    | exact quietly_op_exec (quietly_op_jump _) _
    | exact quietly_op_exec quietly_op_pop _
    | exact quietly_op_exec quietly_op_mload _
    | exact quietly_op_exec quietly_op_sload _
    | exact quietly_op_exec hgas _
    | exact quietly_op_exec (quietly_pure _) _
    | exact quietly_throw (by decide)

end

end In3.Evm
