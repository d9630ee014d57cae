import In3.Evm.Frames
/-!
# Sub calls and whole runs

A sub call is taken apart (`sub_call_ends`): its frame runs, the result is reported to the caller, the
gas is settled and the frame is taken away. What the single operations leave of the frames that wait
then holds for a sub call, for every opcode and, by induction on the depth, for a whole run
(`isolates_evm_run`).
-/
open Lib Guarded Machine

namespace In3.Evm

section
variable {env : Env} {P : Prop} {α : Type}

/-! ## The start of a call -/

/-- The code is looked up in the frame of the caller, which keeps a copy of the account. -/
theorem isolates_set_code (address : Option Bytes) (code_address caller : Bytes) :
    Isolates env P 0 0 (set_code env address code_address caller) := by
  unfold set_code
  split
  · exact (isolates_modifyEvm _).bind fun _ => quietly_getEvm.isolates.bind fun _ => isolates_create_account _ _ _
  · refine (isolates_atParent_waiting (quietly_get_account _ _) fun _ _ _ => waiting_get_account).bind fun ac => ?_
    split
    · exact isolates_modifyEvm _
    · exact isolates_pure _

theorem isolates_hand_over (value : Bytes) (mode : Mode) : Isolates env P 0 0 (hand_over env value mode) := by
  unfold hand_over
  split
  · exact isolates_pure _
  split
  · exact isolates_throw _
  · refine (isolates_modifyEvm _).bind fun _ => isolates_get.bind fun vm => ?_
    split
    · exact isolates_transfer_value _ _ _ _ _
    · exact isolates_fault _

/-- The gas of the call is taken from the caller. -/
theorem isolates_share_gas (value : Bytes) (gas : Nat) (mode : Mode) (res : Except Int Unit) :
    Isolates env P 0 0 (share_gas value gas mode res) := by
  refine isolates_get.bind fun vm => ?_
  split
  · exact isolates_fault _
  refine (isolates_modifyEvm _).bind fun _ => ?_
  rcases res with e | _
  · exact isolates_pure _
  simp only
  generalize (if mode = .CREATE then _ else _) = shared
  split
  · split
    · exact isolates_pure _
    · exact (isolates_modifyEvm _).bind fun _ => isolates_pure _
  · exact (isolates_parent_gas _ (·.refund)).bind fun _ => isolates_pure _

theorem isolates_update_subcall_gas (address : Option Bytes) (code_address caller value : Bytes) (gas : Nat) (mode : Mode) :
    Isolates env P 0 0 (update_subcall_gas env address code_address caller value gas mode) := by
  refine Isolates.bind ?_ fun res => isolates_share_gas _ _ _ _
  exact ((isolates_set_code _ _ _).bind fun _ => isolates_hand_over _ _).attempt

theorem isolates_run_child {run : M Unit} (hrun : Isolates env P 0 0 run) (value : Bytes) (mode : Mode)
    (res : Except Int Unit) : Isolates env P 0 0 (run_child run value mode res) := by
  refine quietly_getEvm.isolates.bind fun before => ?_
  split
  · exact isolates_pure _
  · refine hrun.attempt.bind fun success => quietly_getEvm.isolates.bind fun evm => ?_
    split
    · exact (isolates_modifyEvm _).bind fun _ => isolates_pure _
    · exact isolates_pure _

/-! ## The end of a call -/

/-- What is left of `end_call` in front of `finalize_subcall_gas`. -/
def report (address : Option Bytes) (code_address : Bytes) (out_offset out_len : Nat) (success : Except Int Unit) :
    M (Except Int Unit) := do
  let res ← push_result address success
  let evm ← getEvm
  end_call.hand_back address code_address out_offset out_len success evm res

theorem isolates_update_account_code (address : Option Bytes) (code_address : Bytes) (data : Buffer) :
    Isolates env P 0 0 (update_account_code address code_address data) := by
  unfold update_account_code
  split
  · exact isolates_pure _
  · exact (quietly_own_account _).isolates.bind fun _ => isolates_put_account _ _

/-- The result is written to the memory of the caller. -/
theorem isolates_return_result (address : Option Bytes) (code_address : Bytes) (out_offset out_len : Nat) (data : Buffer)
    (res : Except Int Unit) : Isolates env P 1 0 (return_result address code_address out_offset out_len data res) := by
  have hwrite : Isolates env P 1 0 (return_result.write_result out_offset out_len data res) := by
    unfold return_result.write_result
    split
    · exact (isolates_atParent (quietly_mem_write _ _ _)).attempt
    · exact isolates_pure _
  have hcode : Isolates env P 1 0 (update_account_code address code_address data) :=
    (isolates_update_account_code _ _ _).mono (by omega) (by omega)
  have hlast : Isolates env P 1 0 (modifyParent fun parent => { parent with last_returned := some data }) :=
    isolates_modifyParent fun _ => rfl
  refine hwrite.bind fun res => hcode.bind fun _ => ?_
  split
  · exact isolates_pure _
  · refine isolates_get.bind fun vm => (quietly_free_buffer _).isolates.bind fun _ => ?_
    exact hlast.bind fun _ => (isolates_modifyEvm _).bind fun _ => isolates_pure _

theorem isolates_report (address : Option Bytes) (code_address : Bytes) (out_offset out_len : Nat)
    (success : Except Int Unit) : Isolates env P 1 0 (report address code_address out_offset out_len success) := by
  have hpush : Isolates env P 1 0 (push_result address success) := by
    refine quietly_getEvm.isolates.bind fun evm => ?_
    split
    · exact (isolates_atParent (quietly_push _)).attempt
    · exact (isolates_atParent (quietly_push_int _)).attempt
  unfold report end_call.hand_back
  refine hpush.bind fun res => quietly_getEvm.isolates.bind fun evm => ?_
  split
  · split
    · exact isolates_return_result _ _ _ _ _ _
    · exact isolates_pure _
  · exact isolates_pure _

/-- What the caller sees may change here, and what the frames behind it see does not. -/
theorem isolates_copy_state : Isolates env P 0 1 copy_state := by
  intro vm r vm' h
  unfold copy_state at h
  rw [ends_get_bind] at h
  split at h
  · exact absurd h ends_fault
  · next dst rest hps =>
    rcases ends_bind.1 h with ⟨⟨logs, nodes⟩, t, hlogs, h⟩ | ⟨e, rfl, hlogs⟩
    · obtain ⟨rfl, rfl⟩ := ends_set.1 h
      refine ⟨[], by simp, by simp [hps], ?_, fun _ _ => ?_⟩
      · rw [hps]
        exact .cons rfl (waiting_refl rest)
      · rw [hps]
        exact Seen.refl _ _
    · obtain ⟨-, rfl⟩ := ends_ofGuarded_error.1 hlogs
      exact ⟨[], by simp, Isolated.of_parents rfl⟩

theorem isolates_finalize_subcall (success : Except Int Unit) : Isolates env P 0 1 (finalize_subcall_gas success) := by
  have hgas : ∀ f : evm_t → Nat, Isolates env P 0 1 (modifyParent fun parent => { parent with gas := f parent }) :=
    fun f => (isolates_parent_gas f (·.refund)).mono (by omega) (by omega)
  refine quietly_getEvm.isolates.bind fun evm => ?_
  simp only
  split
  · split
    · refine isolates_copy_state.bind fun _ => (hgas _).bind fun _ => ?_
      split
      · exact hgas _
      · exact isolates_pure _
    · refine (hgas _).bind fun _ => ?_
      split
      · exact hgas _
      · exact isolates_pure _
  · split
    · exact hgas _
    · exact isolates_pure _

/-! ## Sub calls -/

/-- The new frame is in front. -/
def Vm.entered (vm : Vm) (child : evm_t) : Vm :=
  { vm with evm := child, parents := vm.evm :: vm.parents, trace := vm.trace ++ [.enter] }

/-- What is left of `evm_sub_call` in front of `end_call`. -/
def run_call (env : Env) (run : Bytes → M Unit) (address : Option Bytes) (code_address value caller : Bytes) (gas : Nat)
    (mode : Mode) : M (Except Int Unit) := do
  let res ← update_subcall_gas env address code_address caller value gas mode
  run_child (run code_address) value mode res

theorem sure_getEvm : Sure getEvm := sure_get.bind fun _ => sure_pure _

theorem sure_modifyEvm (f : evm_t → evm_t) : Sure (modifyEvm f) := sure_modify _

theorem sure_modifyParent (f : evm_t → evm_t) : Sure (modifyParent f) := sure_modify _

theorem sure_own_account (adr : Bytes) : Sure (own_account adr) := by
  refine sure_getEvm.bind fun evm => ?_
  split
  · exact sure_pure _
  · exact sure_fault _

theorem sure_free_buffer (b : Option Buffer) : Sure (free_buffer b) := by
  intro vm e vm' h
  cases (free_buffer_ends h).1

/-- The errors of a called frame are handed to the caller as a value. -/
theorem sure_run_call (run : Bytes → M Unit) (address : Option Bytes) (code_address value caller : Bytes) (gas : Nat)
    (mode : Mode) : Sure (run_call env run address code_address value caller gas mode) := by
  have hshare : ∀ res, Sure (share_gas value gas mode res) := by
    intro res
    refine sure_get.bind fun vm => ?_
    split
    · exact sure_fault _
    refine (sure_modifyEvm _).bind fun _ => ?_
    rcases res with e | _
    · exact sure_pure _
    simp only
    generalize (if mode = .CREATE then _ else _) = shared
    split
    · split
      · exact sure_pure _
      · exact (sure_modifyEvm _).bind fun _ => sure_pure _
    · exact (sure_modifyParent _).bind fun _ => sure_pure _
  refine ((sure_attempt _).bind fun _ => hshare _).bind fun res => sure_getEvm.bind fun before => ?_
  split
  · exact sure_pure _
  · refine (sure_attempt _).bind fun success => sure_getEvm.bind fun evm => ?_
    split
    · exact (sure_modifyEvm _).bind fun _ => sure_pure _
    · exact sure_pure _

theorem sure_push_result (address : Option Bytes) (success : Except Int Unit) : Sure (push_result address success) :=
  sure_getEvm.bind fun _ => sure_attempt _

theorem sure_hand_back (address : Option Bytes) (code_address : Bytes) (out_offset out_len : Nat)
    (success : Except Int Unit) (evm : evm_t) (res : Except Int Unit) :
    Sure (end_call.hand_back address code_address out_offset out_len success evm res) := by
  have hcode : ∀ data, Sure (update_account_code address code_address data) := by
    intro data
    unfold update_account_code
    split
    · exact sure_pure _
    · exact (sure_own_account _).bind fun _ => sure_modifyEvm _
  have hresult : ∀ data, Sure (return_result address code_address out_offset out_len data res) := by
    intro data
    unfold return_result return_result.write_result
    refine Machine.Sure.bind ?_ fun res => (hcode _).bind fun _ => ?_
    · split
      · exact sure_attempt _
      · exact sure_pure _
    · split
      · exact sure_pure _
      · refine sure_get.bind fun vm => (sure_free_buffer _).bind fun _ => (sure_modifyParent _).bind fun _ => ?_
        exact (sure_modifyEvm _).bind fun _ => sure_pure _
  unfold end_call.hand_back
  split
  · split
    · exact hresult _
    · exact sure_pure _
  · exact sure_pure _

theorem errorless_log_at (nodes : List (Option logs_t)) (k : Nat) : errorless (log_at nodes k) := by
  unfold log_at
  split
  · exact errorless_pure _
  · exact errorless_fault _

theorem errorless_last_log (nodes : List (Option logs_t)) (rounds k : Nat) : errorless (last_log nodes rounds k) := by
  induction rounds generalizing k with
  | zero => exact errorless_fault _
  | succ rounds ih =>
    refine errorless_bind (errorless_log_at _ _) fun log => ?_
    split
    · exact ih _
    · exact errorless_pure _

theorem errorless_copy_logs (dst src : Option Nat) (nodes : List (Option logs_t)) :
    errorless (copy_logs dst src nodes) := by
  unfold copy_logs
  split
  · exact errorless_pure _
  · refine errorless_bind (errorless_last_log _ _ _) fun last => ?_
    exact errorless_bind (errorless_log_at _ _) fun _ => errorless_pure _

theorem errorless_free_logs (rounds : Nat) (first : Option Nat) (nodes : List (Option logs_t)) :
    errorless (free_logs rounds first nodes) := by
  induction rounds generalizing first nodes with
  | zero =>
    cases first with
    | none => exact errorless_pure _
    | some k => exact errorless_fault _
  | succ rounds ih =>
    cases first with
    | none => exact errorless_pure _
    | some k => exact errorless_bind (errorless_log_at _ _) fun _ => ih _ _

theorem sure_finalize_subcall (success : Except Int Unit) : Sure (finalize_subcall_gas success) := by
  have hcopy : Sure copy_state := by
    refine sure_get.bind fun vm => ?_
    split
    · exact sure_fault _
    · exact (sure_ofGuarded (errorless_copy_logs _ _ _)).bind fun _ => sure_set _
  have hgas : ∀ f g : evm_t → evm_t, ∀ p : Prop, ∀ _ : Decidable p,
      Sure (modifyParent f >>= fun _ => if p then modifyParent g else pure ()) := by
    intro f g p _
    refine (sure_modifyParent _).bind fun _ => ?_
    split
    · exact sure_modifyParent _
    · exact sure_pure _
  refine sure_getEvm.bind fun evm => ?_
  simp only
  split
  · split
    · exact hcopy.bind fun _ => hgas _ _ _ _
    · exact hgas _ _ _ _
  · split
    · exact sure_modifyParent _
    · exact sure_pure _

variable {address : Option Bytes} {code_address : Bytes} {out_len out_offset : Nat} {r : Except Int Unit} {vm vm' : Vm}

/-- Freeing a frame changes no frame. -/
theorem evm_free_ends (h : ends evm_free vm r vm') :
    r = .ok () ∧ vm'.evm = vm.evm ∧ vm'.parents = vm.parents ∧ vm'.trace = vm.trace := by
  unfold evm_free at h
  rw [ends_get_bind, (sure_free_buffer _).ends_bind] at h
  obtain ⟨_, s, hs, h⟩ := h
  rw [(sure_free_buffer _).ends_bind] at h
  obtain ⟨_, t, ht, h⟩ := h
  rw [checked, (sure_ofGuarded (errorless_free_logs _ _ _)).ends_bind] at h
  obtain ⟨nodes, u, hu, h⟩ := h
  obtain ⟨-, rfl⟩ := ends_ofGuarded_ok.1 hu
  obtain ⟨rfl, rfl⟩ := ends_modify.1 h
  obtain ⟨-, he, hp, ht'⟩ := free_buffer_ends hs
  obtain ⟨-, he', hp', ht''⟩ := free_buffer_ends ht
  exact ⟨rfl, he'.trans he, hp'.trans hp, ht''.trans ht'⟩

theorem pop_frame_ends {kept : Bool} {created : Option Bytes}
    (h : ends (pop_frame kept created) vm r vm') :
    r = .ok () ∧ vm.parents = vm'.frames ∧ vm'.trace = vm.trace ++ [.leave kept created] := by
  unfold pop_frame record at h
  rw [ends_modify_bind] at h
  rcases ends_bind.1 h with ⟨_, t, hfree, h⟩ | ⟨e, -, hfree⟩
  · obtain ⟨-, -, hps, htrace⟩ := evm_free_ends hfree
    rw [ends_get_bind] at h
    split at h
    · exact absurd h ends_fault
    · next p ps hp =>
      obtain ⟨rfl, rfl⟩ := ends_set.1 h
      exact ⟨rfl, hps.symm.trans hp, htrace⟩
  · cases (evm_free_ends hfree).1

variable {run : Bytes → M Unit} {success : Except Int Unit}

/-- The end of a call: the result is reported, the gas is settled and the frame is taken away. -/
theorem end_call_ends
    (h : ends (end_call address code_address out_offset out_len success) vm r vm') :
    ∃ reported settled, ends (report address code_address out_offset out_len success) vm (.ok r) reported ∧
      ends (finalize_subcall_gas success) reported (.ok ()) settled ∧
      settled.parents = vm'.frames ∧ ∃ kept created, vm'.trace = settled.trace ++ [.leave kept created] := by
  unfold end_call at h
  rw [(sure_push_result _ _).ends_bind] at h
  obtain ⟨pushed, s, hpush, h⟩ := h
  rw [sure_getEvm.ends_bind] at h
  obtain ⟨evm, t, hevm, h⟩ := h
  rw [(sure_hand_back _ _ _ _ _ _ _).ends_bind] at h
  obtain ⟨res, reported, hback, h⟩ := h
  rw [(sure_finalize_subcall _).ends_bind] at h
  obtain ⟨_, settled, hsettled, h⟩ := h
  have hreport : ends (report address code_address out_offset out_len success) vm (.ok res) reported := by
    unfold report
    rw [ends_bind_of_ok hpush, ends_bind_of_ok hevm]
    exact hback
  rcases ends_bind.1 h with ⟨_, u, hpop, h⟩ | ⟨e, -, hpop⟩
  · obtain ⟨rfl, rfl⟩ := ends_ofExcept.1 h
    obtain ⟨-, hframes, htrace⟩ := pop_frame_ends hpop
    exact ⟨reported, settled, hreport, hsettled, hframes, _, _, htrace⟩
  · cases (pop_frame_ends hpop).1

/-- A sub call fails before there is a frame, or the frame runs and the call ends. -/
theorem sub_call_ends {value data caller origin : Bytes}
    {gas : Nat} {mode : Mode}
    (h : ends (evm_sub_call env run address code_address value data caller origin gas mode out_offset out_len) vm r vm') :
    (∃ e, r = .error e ∧ vm' = vm) ∨
      ∃ child success ended, evm_prepare_evm env address code_address origin caller mode = .ok child ∧
        ends (run_call env run address code_address value caller gas mode)
          (vm.entered (sub_frame vm.evm child value data mode)) (.ok success) ended ∧
        ends (end_call address code_address out_offset out_len success) ended r vm' := by
  unfold evm_sub_call at h
  rw [ends_getEvm_bind] at h
  rcases hprepare : evm_prepare_evm env address code_address origin caller mode with e | child
  · simp only [hprepare] at h
    obtain ⟨rfl, rfl⟩ := ends_throw.1 h
    exact .inl ⟨e, rfl, rfl⟩
  · simp only [hprepare, push_frame, record] at h
    rw [bind_assoc, ends_modify_bind, ends_modify_bind, ← bind_assoc] at h
    have hrun : Sure (run_call env run address code_address value caller gas mode) := sure_run_call _ _ _ _ _ _ _
    obtain ⟨success, ended, hended, h⟩ := hrun.ends_bind.1 h
    exact .inr ⟨child, success, ended, rfl, hended, h⟩

theorem isolates_run_call (hrun : ∀ a, Isolates env P 0 0 (run a)) (address : Option Bytes)
    (code_address value caller : Bytes) (gas : Nat) (mode : Mode) :
    Isolates env P 0 0 (run_call env run address code_address value caller gas mode) :=
  (isolates_update_subcall_gas _ _ _ _ _ _).bind fun _ => isolates_run_child (hrun _) _ _ _

/-- The frames behind the caller are as isolated as in a run, with one frame less. -/
theorem isolated_end_call (env : Env) (P : Prop)
    (h : ends (end_call address code_address out_offset out_len success) vm r vm') :
    ∃ new, vm'.trace = vm.trace ++ new ∧ vm'.parents.length + 1 = vm.parents.length ∧
      List.Forall₂ Waiting (vm.parents.drop 1) vm'.parents ∧
      (P → (∀ e ∈ new, e.Calm env) → Seen env (vm.parents.drop 1) vm'.parents) := by
  obtain ⟨reported, settled, hreport, hsettle, hframes, kept, created, htrace⟩ := end_call_ends h
  obtain ⟨m, hm, hreported⟩ := isolates_report (P := P) address code_address out_offset out_len success _ _ _ hreport
  obtain ⟨n, hn, hsettled⟩ := isolates_finalize_subcall (P := P) success _ _ _ hsettle
  have hboth := (isolated_chains env P 1 1).seq (hreported.mono (le_refl 1) (Nat.zero_le 1))
    (hsettled.mono (Nat.zero_le 1) (le_refl 1))
  obtain ⟨hdepth, hwait, hseen⟩ := hboth
  have hdrop : settled.parents.drop 1 = vm'.parents := by
    rw [hframes]
    rfl
  rw [hdrop] at hwait hseen
  refine ⟨m ++ n ++ [.leave kept created], ?_, ?_, hwait, fun hP hcalm => hseen hP fun e he => ?_⟩
  · rw [htrace, hn, hm]
    simp
  · rw [← hdepth, hframes]
    rfl
  · exact hcalm e (List.mem_append_left _ he)

theorem isolates_sub_call (hrun : ∀ a, Isolates env P 0 0 (run a)) (address : Option Bytes)
    (code_address value data caller origin : Bytes) (gas : Nat) (mode : Mode) (out_offset out_len : Nat) :
    Isolates env P 0 0
      (evm_sub_call env run address code_address value data caller origin gas mode out_offset out_len) := by
  intro vm r vm' h
  rcases sub_call_ends h with ⟨e, rfl, rfl⟩ | ⟨child, success, ended, -, hcall, hend⟩
  · exact ⟨[], by simp, Isolated.of_parents rfl⟩
  · obtain ⟨m, hm, hran⟩ := isolates_run_call hrun address code_address value caller gas mode _ _ _ hcall
    obtain ⟨n, hn, hdepth, hwait, hseen⟩ := isolated_end_call env P hend
    -- the frames behind the caller
    have hbehind := hran.mono (Nat.zero_le 1) (Nat.zero_le 1)
    refine ⟨.enter :: (m ++ n), ?_, ?_, waiting_trans hbehind.waiting hwait, fun hP hcalm => ?_⟩
    · rw [hn, hm]
      simp [Vm.entered]
    · have hlen := hbehind.depth
      have hentered : ∀ f, (vm.entered f).parents.length = vm.parents.length + 1 := fun _ => rfl
      rw [hentered] at hlen
      omega
    · refine (hbehind.seen hP fun e he => ?_).trans (hseen hP fun e he => ?_)
      · exact hcalm e (List.mem_cons_of_mem _ (List.mem_append_left n he))
      · exact hcalm e (List.mem_cons_of_mem _ (List.mem_append_right m he))

/-! ## Opcodes and whole runs -/

section
variable {run : Bytes → M Unit} (hrun : ∀ a, Isolates env P 0 0 (run a))
include hrun

theorem isolates_op_call (mode : CALL) : Isolates env P 0 0 (op_call env run mode) := by
  have hranges : ∀ a b c d, Isolates env P 0 0 (check_ranges a b c d) := by
    have hrange : ∀ a b c, Isolates env P 0 0 (check_ranges.check_range a b c) := by
      intro a b c
      unfold check_ranges.check_range
      split
      · exact isolates_pure _
      · exact (quietly_mem_check _ _).isolates
    intro a b c d vm r vm' h
    obtain ⟨q, rfl, hq⟩ := ends_mapError.1 h
    obtain ⟨new, htrace, hiso⟩ := (hrange _ _ _).bind (fun _ => hrange _ _ _) vm q vm' hq
    exact ⟨new, htrace, hiso.depth, hiso.waiting, hiso.seen⟩
  have hvalue : Isolates env P 0 0 (pop_value mode) := by
    unfold pop_value
    split
    · exact quietly_pop_ref.isolates
    · exact isolates_pure _
  have hint : Isolates env P 0 0 evm_stack_pop_int := quietly_pop_int.isolates
  refine quietly_pop_ref.isolates.bind fun _ => (quietly_pop 20).isolates.bind fun _ => hvalue.bind fun _ => ?_
  refine hint.bind fun _ => hint.bind fun _ => hint.bind fun _ => hint.bind fun _ => (hranges _ _ _ _).bind fun _ => ?_
  refine quietly_getEvm.isolates.bind fun evm => ?_
  cases mode with
  | CALL => exact isolates_sub_call hrun _ _ _ _ _ _ _ _ _ _
  | CODE => exact isolates_sub_call hrun _ _ _ _ _ _ _ _ _ _
  | DELEGATE => exact isolates_sub_call hrun _ _ _ _ _ _ _ _ _ _
  | STATIC => exact isolates_sub_call hrun _ _ _ _ _ _ _ _ _ _

theorem isolates_op_create (use_salt : Bool) : Isolates env P 0 0 (op_create env run use_salt) := by
  have haddress : ∀ in_data, Isolates env P 0 0 (create_address env in_data use_salt) := by
    intro in_data
    unfold create_address
    split
    · refine quietly_getEvm.isolates.bind fun evm => ?_
      split
      · exact isolates_throw _
      · exact (quietly_pop _).isolates.bind fun _ => isolates_pure _
    · refine quietly_getEvm.isolates.bind fun evm => (quietly_get_account _ _).isolates.bind fun _ => ?_
      exact (quietly_own_account _).isolates.bind fun _ => isolates_pure _
  have hint : Isolates env P 0 0 evm_stack_pop_int := quietly_pop_int.isolates
  refine quietly_pop_ref.isolates.bind fun _ => hint.bind fun _ => hint.bind fun _ => ?_
  refine (quietly_mem_check _ _).isolates.bind fun _ => (quietly_mem_read_ref _ _).isolates.bind fun _ => ?_
  refine (haddress _).bind fun _ => quietly_getEvm.isolates.bind fun evm => (quietly_get_account _ _).isolates.bind fun _ => ?_
  refine (quietly_own_account _).isolates.bind fun ac => (isolates_sub_call hrun _ _ _ _ _ _ _ _ _ _).attempt.bind fun res => ?_
  refine (quietly_own_account _).isolates.bind fun ac' => ?_
  split
  · exact (isolates_increment_nonce _).bind fun _ => isolates_ofExcept _
  · exact isolates_ofExcept _

theorem isolates_system_op (n : Nat) (evm : evm_t) : Isolates env P 0 0 (system_op env run n evm) := by
  unfold system_op
  split
  all_goals with_reducible first
    | exact isolates_op_exec (isolates_op_create hrun _) _
    | exact isolates_op_exec (isolates_op_call hrun _) _
    | exact isolates_op_exec isolates_op_selfdestruct _
    | exact isolates_op_return _
    | exact isolates_throw _

/-- Every opcode but `SSTORE` leaves the frames that wait isolated. -/
theorem isolates_run_op {op : UInt8} (hop : op ≠ 0x55) (evm : evm_t) : Isolates env P 0 0 (run_op env run op evm) := by
  have hn : op.toNat ≠ 0x55 := fun h => hop (UInt8.toNat_inj.1 h)
  unfold run_op
  simp only
  split
  · exact isolates_modifyEvm _
  split
  · exact (quietly_math_op _).isolates
  split
  · exact (quietly_info_op _ _).isolates
  split
  · exact (quietly_memory_op _ hn).isolates
  split
  · exact isolates_op_exec (quietly_op_push _).isolates _
  split
  · exact isolates_op_exec (quietly_op_dup _).isolates _
  split
  · exact isolates_op_exec (quietly_op_swap _).isolates _
  split
  · exact isolates_op_exec (isolates_op_log _) _
  · exact isolates_system_op hrun _ _

end

/-- One opcode: an `SSTORE` is in the record, with the frames in front of it. -/
theorem isolates_evm_execute (hrun : ∀ a, Isolates env True 0 0 (run a)) :
    Isolates env True 0 0 (evm_execute env run) := by
  intro vm r vm' h
  -- behind the record, under the condition that it states
  have hrest : IsolatesAt env (Event.Calm env (.step vm.evm vm.parents)) 0 0
      { vm with trace := vm.trace ++ [.step vm.evm vm.parents] } (do
        alive vm.evm.code
        let op ← checked (rd vm.evm.code.data vm.evm.pos)
        modifyEvm fun evm => { evm with pos := evm.pos + 1 }
        let evm ← getEvm
        run_op env run op evm) := by
    refine IsolatesAt.bind ((quietly_alive _).isolates _) fun _ t ht => ?_
    obtain rfl := alive_ok ht
    refine IsolatesAt.bind (isolates_checked _ _) fun op t ht => ?_
    obtain ⟨hop, rfl⟩ := ends_checked_ok.1 ht
    refine IsolatesAt.bind (isolates_modifyEvm _ _) fun _ t ht => ?_
    obtain ⟨-, rfl⟩ := ends_modifyEvm.1 ht
    refine IsolatesAt.bind (quietly_getEvm.isolates _) fun evm t ht => ?_
    obtain ⟨-, rfl⟩ := ends_getEvm.1 ht
    by_cases hsstore : op = 0x55
    · subst hsstore
      intro r vm' h
      obtain ⟨new, htrace, hiso⟩ := isolatesAt_op_sstore _ r vm' h
      refine ⟨new, htrace, hiso.depth, hiso.waiting, fun hcalm => hiso.seen ?_⟩
      intro key hkey hcreates
      exact calm_alike (f := vm.evm) rfl rfl (hcalm (ok_rd.1 hop) key hkey) hcreates
    · exact isolates_run_op (fun a => (hrun a).given) hsstore _ _
  obtain ⟨new, htrace, hiso⟩ := hrest r vm' h
  refine ⟨.step vm.evm vm.parents :: new, by rw [htrace, List.append_assoc]; rfl, hiso.depth, hiso.waiting, fun _ hcalm => ?_⟩
  refine hiso.seen (hcalm _ List.mem_cons_self) fun e he => ?_
  exact hcalm e (List.mem_cons_of_mem _ he)

theorem isolates_opcode_loop {execute : M Unit} (h : Isolates env P 0 0 execute) (n : Nat) :
    Isolates env P 0 0 (opcode_loop execute n) := by
  induction n with
  | zero => exact isolates_pure _
  | succ n ih =>
    refine quietly_getEvm.isolates.bind fun evm => ?_
    split
    · refine h.attempt.bind fun res => ?_
      split
      · exact isolates_throw _
      · exact (isolates_ofExcept _).bind fun _ => ih
    · exact isolates_pure _

/-- A whole run leaves the frames that wait as they are, but for gas, refunds, logs and copies of accounts. -/
theorem isolates_evm_run (depth : Nat) (code_address : Bytes) : Isolates env True 0 0 (evm_run env depth code_address) := by
  induction depth generalizing code_address with
  | zero => exact isolates_fault _
  | succ depth ih =>
    refine isolates_init_gas.bind fun _ => ?_
    split
    · exact isolates_precompiled _
    refine (isolates_modifyEvm _).bind fun _ => (isolates_opcode_loop (isolates_evm_execute ih) _).bind fun _ => ?_
    refine quietly_getEvm.isolates.bind fun evm => ?_
    split
    · exact isolates_deposit_code.bind fun _ => isolates_finalize
    · exact isolates_finalize

end

end In3.Evm
