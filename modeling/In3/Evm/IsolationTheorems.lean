import In3.Evm.ReturnTheorems
/-!
# What a caller sees behind a call

Behind a call that is kept the caller sees what its frame saw at the end: `copy_state` merges the
accounts. Behind a call that failed or was reverted it sees what it saw before, unless a word was
created on the way: `op_sstore` creates a word in all frames, with the value that the environment has
for the outermost account.
-/
open Lib Machine

namespace In3.Evm

/-! ## The lists of a frame -/

section Lists
open Guarded
variable {env : Env} {adr s_key : Bytes} {create : Bool} {evm g : evm_t} {ps gs : List evm_t}

/-- The source puts a new account in front of its list, and so does `insert`: the address is not there, so that no entry is
taken out for it. -/
theorem get_account_prepends {ac : Option account_t} (h : ok (evm_get_account env adr create (evm :: ps)) (ac, g :: gs)) :
    g = evm ∨ ∃ ac, g.accounts.entries = ⟨adr, ac⟩ :: evm.accounts.entries := by
  have hput : ∀ ac, evm.accounts.lookup adr = none → (evm.put adr ac).accounts.entries = ⟨adr, ac⟩ :: evm.accounts.entries :=
    fun _ hnone => AList.entries_insert_of_notMem (AList.lookup_eq_none.1 hnone)
  cases account_step.1 h with
  | own => exact .inl rfl
  | copied hnone => exact .inr ⟨_, hput _ hnone⟩
  | made hnone => exact .inr ⟨_, hput _ hnone⟩
  | missing => exact .inl rfl

/-- Likewise for a new word of an account. -/
theorem get_storage_prepends {n : Nat} {ac : account_t} {value : Option Bytes} (hac : evm.accounts.lookup adr = some ac)
    (h : ok (evm_get_storage env adr s_key create (n + 1) (evm :: ps)) (value, g :: gs)) :
    g = evm ∨ ∃ ac' w, g.accounts.lookup adr = some ac' ∧ ac'.storage.entries = ⟨padLeft 32 s_key, w⟩ :: ac.storage.entries := by
  have hget : ok (evm_get_account env adr create (evm :: ps)) (some ac, evm :: ps) := account_step.2 (.own hac)
  cases storage_step.1 h with
  | unknown hget' => cases ok_unique hget hget'
  | own hget' =>
    cases ok_unique hget hget'
    exact .inl rfl
  | put hget' hnone =>
    cases ok_unique hget hget'
    exact .inr ⟨_, _, AList.lookup_insert _, AList.entries_insert_of_notMem (AList.lookup_eq_none.1 hnone)⟩
  | missing hget' =>
    cases ok_unique hget hget'
    exact .inl rfl

end Lists

/-- Every address is in the list of accounts once, and every key in the words of an account. -/
def evm_t.Unique (evm : evm_t) : Prop :=
  evm.accounts.entries.NodupKeys ∧ ∀ adr ac, evm.accounts.lookup adr = some ac → ac.storage.entries.NodupKeys

theorem unique (evm : evm_t) : evm.Unique := ⟨evm.accounts.nodupKeys, fun _ ac _ => ac.storage.nodupKeys⟩

/-! ## The end of a call -/

/-- The changes of the frame are kept: it succeeded and was not reverted. -/
def Kept (success : Except Int Unit) (ended : Vm) : Prop := succeeded success = true ∧ ended.evm.state ≠ .REVERTED

section
variable {env : Env} {vm vm' : Vm} {success : Except Int Unit}

theorem copy_state_view (env : Env) (h : ends copy_state vm (.ok ()) vm') : view env vm'.parents = view env vm.frames := by
  unfold copy_state at h
  rw [ends_get_bind] at h
  split at h
  · exact absurd h ends_fault
  · next dst rest hps =>
    obtain ⟨⟨logs, nodes⟩, t, hlogs, h⟩ := ends_bind_ok.1 h
    obtain ⟨-, rfl⟩ := ends_set.1 h
    rw [Vm.frames, hps]
    exact over_copy _ _ _ rfl

theorem settle_gas_view (env : Env) (f g : evm_t → Nat) {p : Prop} [Decidable p]
    (h : ends (do
      modifyParent fun parent => { parent with gas := f parent }
      if p then modifyParent fun parent => { parent with gas := g parent }) vm (.ok ()) vm') :
    view env vm'.parents = view env vm.parents := by
  have hgas : ∀ (k : evm_t → Nat) {s t : Vm} {u : Unit},
      ends (modifyParent fun parent => { parent with gas := k parent }) s (.ok u) t →
        view env t.parents = view env s.parents := by
    intro k s t u h
    obtain ⟨-, rfl⟩ := ends_modify.1 h
    cases hps : s.parents with
    | nil => rfl
    | cons p ps => exact over_congr rfl _
  obtain ⟨_, t, hfirst, h⟩ := ends_bind_ok.1 h
  split at h
  · exact (hgas g h).trans (hgas f hfirst)
  · obtain ⟨-, rfl⟩ := ends_pure.1 h
    exact hgas f hfirst

theorem finalize_view (env : Env) (h : ends (finalize_subcall_gas success) vm (.ok ()) vm') :
    (Kept success vm → view env vm'.parents = view env vm.frames) ∧
      (¬ Kept success vm → view env vm'.parents = view env vm.parents) := by
  unfold finalize_subcall_gas at h
  rw [ends_getEvm_bind] at h
  dsimp only at h
  split at h
  · next hsucc =>
    split at h
    · next hstate =>
      obtain ⟨_, t, hcopy, h⟩ := ends_bind_ok.1 h
      refine ⟨fun _ => ?_, fun hkept => absurd ⟨hsucc, hstate⟩ hkept⟩
      rw [settle_gas_view env _ _ h, copy_state_view env hcopy]
    · next hstate => exact ⟨fun hkept => absurd hkept.2 hstate, fun _ => settle_gas_view env _ _ h⟩
  · next hfail =>
    refine ⟨fun hkept => absurd hkept.1 hfail, fun _ => ?_⟩
    split at h
    · obtain ⟨-, rfl⟩ := ends_modify.1 h
      cases hps : vm.parents with
      | nil => rfl
      | cons p ps => exact over_congr rfl _
    · obtain ⟨-, rfl⟩ := ends_pure.1 h
      rfl

end

/-- The running frame stays in its state. -/
def KeepsState {α : Type} (x : M α) : Prop := ∀ vm r vm', ends x vm r vm' → vm'.evm.state = vm.evm.state

section
variable {α β : Type}

theorem KeepsState.bind {x : M α} {f : α → M β} (hx : KeepsState x) (hf : ∀ a, KeepsState (f a)) : KeepsState (x >>= f) := by
  intro vm r vm' h
  rcases ends_bind.1 h with ⟨a, t, ha, hb⟩ | ⟨e, -, he⟩
  · exact (hf a t r vm' hb).trans (hx vm _ t ha)
  · exact hx vm _ vm' he

theorem keepsState_pure (a : α) : KeepsState (pure a : M α) := by
  intro vm r vm' h
  rw [(ends_pure.1 h).2]

theorem keepsState_modify {f : Vm → Vm} (hf : ∀ vm, (f vm).evm.state = vm.evm.state) : KeepsState (modify f : M PUnit) := by
  intro vm r vm' h
  rw [(ends_modify.1 h).2]
  exact hf vm

theorem keepsState_modifyParent (f : evm_t → evm_t) : KeepsState (modifyParent f) := keepsState_modify fun _ => rfl

theorem keepsState_get : KeepsState (get : M Vm) := by
  intro vm r vm' h
  rw [(ends_get.1 h).2]

theorem keepsState_getEvm : KeepsState getEvm := keepsState_get.bind fun _ => keepsState_pure _

theorem keepsState_attempt_atParent (x : M α) : KeepsState (attempt (atParent x)) := by
  intro vm r vm' h
  obtain ⟨q, -, h⟩ := ends_attempt.1 h
  obtain ⟨p, ps, t, -, -, rfl⟩ := atParent_ends h
  rfl

end

theorem keepsState_report (address : Option Bytes) (code_address : Bytes) (out_offset out_len : Nat)
    (success : Except Int Unit) : KeepsState (report address code_address out_offset out_len success) := by
  have hcode : ∀ data, KeepsState (update_account_code address code_address data) := by
    intro data
    unfold update_account_code
    split
    · exact keepsState_pure _
    · refine KeepsState.bind (fun vm r vm' h => ?_) fun ac => keepsState_modify fun _ => rfl
      obtain ⟨-, -, -, rfl⟩ := own_account_ends.1 h
      rfl
  have hfree : ∀ b, KeepsState (free_buffer b) := by
    intro b
    unfold free_buffer
    split
    · exact keepsState_modify fun _ => rfl
    · exact keepsState_pure _
  have hresult : ∀ data res, KeepsState (return_result address code_address out_offset out_len data res) := by
    intro data res
    unfold return_result return_result.write_result
    refine KeepsState.bind ?_ fun res => (hcode data).bind fun _ => ?_
    · split
      · exact keepsState_attempt_atParent _
      · exact keepsState_pure _
    · split
      · exact keepsState_pure _
      · refine keepsState_get.bind fun vm => (hfree _).bind fun _ => ?_
        refine (keepsState_modifyParent _).bind fun _ => KeepsState.bind ?_ fun _ => keepsState_pure _
        exact keepsState_modify fun _ => rfl
  unfold report push_result end_call.hand_back
  refine (keepsState_getEvm.bind fun _ => keepsState_attempt_atParent _).bind fun res => keepsState_getEvm.bind fun evm => ?_
  split
  · split
    · exact hresult _ _
    · exact keepsState_pure _
  · exact keepsState_pure _

/-! ## Calls -/

/-- What the caller sees behind a call: `ended` is the machine behind the run of its frame, and `reported` the one behind
the report of the result, where a creation has set the code of its account. -/
structure Separates (env : Env) (vm : Vm) (success : Except Int Unit) (ended reported vm' : Vm) : Prop where
  kept : Kept success ended → view env vm'.frames = view env reported.frames
  dropped : ¬ Kept success ended → view env vm'.frames = view env vm.frames
  unique : ∀ f ∈ vm'.frames, f.Unique

/-- The parts of a call from `vm` to `vm'`. -/
structure CallParts (env : Env) (depth : Nat) (c : CallArgs) (vm : Vm) (success : Except Int Unit) (ended reported : Vm)
    (r : Except Int Unit) : Prop where
  run : ∃ child, evm_prepare_evm env c.address c.code_address c.origin c.caller c.mode = .ok child ∧
    ends (run_call env (evm_run env depth) c.address c.code_address c.value c.caller c.gas c.mode)
      (vm.entered (sub_frame vm.evm child c.value c.data c.mode)) (.ok success) ended
  report : ends (report c.address c.code_address c.out_offset c.out_len success) ended (.ok r) reported

/-- A call shows the caller either all that its frame saw or nothing, if it is kept or no foreign word is created while
it runs. -/
theorem sub_call_separates {env : Env} {depth : Nat} {c : CallArgs} {vm vm' : Vm} {r : Except Int Unit} {new : List Event}
    (h : ends (c.sub_call env (evm_run env depth)) vm r vm') (htrace : vm'.trace = vm.trace ++ new) :
    ((∃ e, r = .error e) ∧ vm' = vm) ∨
      ∃ success ended reported, CallParts env depth c vm success ended reported r ∧
        ((Kept success ended ∨ ∀ e ∈ new, e.Calm env) → Separates env vm success ended reported vm') := by
  rcases sub_call_ends h with ⟨e, rfl, rfl⟩ | ⟨child, success, ended, hchild, hrun, hend⟩
  · exact .inl ⟨⟨e, rfl⟩, rfl⟩
  obtain ⟨reported, settled, hreport, hsettle, hframes, kept, created, hleave⟩ := end_call_ends hend
  refine .inr ⟨success, ended, reported, ⟨⟨child, hchild, hrun⟩, hreport⟩, fun hcond => ?_⟩
  have hstate := keepsState_report c.address c.code_address c.out_offset c.out_len success _ _ _ hreport
  have hkept : Kept success reported ↔ Kept success ended := by
    unfold Kept
    rw [hstate]
  obtain ⟨hyes, hno⟩ := finalize_view env hsettle
  rw [hframes] at hyes hno
  refine ⟨fun hk => hyes (hkept.2 hk), fun hk => ?_, fun f _ => unique f⟩
  rw [hno (mt hkept.1 hk)]
  -- the parts of the record
  have hisolates : Isolates env True 0 0 (run_call env (evm_run env depth) c.address c.code_address c.value c.caller c.gas
    c.mode) := isolates_run_call (isolates_evm_run depth) _ _ _ _ _ _
  obtain ⟨m, hm, hran⟩ := hisolates _ _ _ hrun
  have hreports : Isolates env True 1 0 (report c.address c.code_address c.out_offset c.out_len success) :=
    isolates_report _ _ _ _ _
  obtain ⟨n, hn, hreported⟩ := hreports _ _ _ hreport
  have hsettles : Isolates env True 0 1 (finalize_subcall_gas success) := isolates_finalize_subcall success
  obtain ⟨o, ho, -⟩ := hsettles _ _ _ hsettle
  have hnew : new = .enter :: (m ++ n ++ o) ++ [.leave kept created] := by
    rw [hleave, ho, hn, hm] at htrace
    have hsame : vm.trace ++ new = vm.trace ++ (.enter :: (m ++ n ++ o) ++ [.leave kept created]) := by
      rw [← htrace]
      simp [Vm.entered]
    exact List.append_cancel_left hsame
  have hcalm := hcond.resolve_left hk
  rw [hnew] at hcalm
  have hseen : Seen env vm.frames ended.parents := hran.seen trivial fun e he => hcalm e (by simp [he])
  have hseen' : Seen env ended.parents reported.parents := hreported.seen trivial fun e he => hcalm e (by simp [he])
  rw [(hseen.trans hseen').view_eq]

/-! ## A call that is reverted -/

/-- `SSTORE` of 1 under the key 0, and `REVERT`. -/
def storeAndRevert : Bytes := [0x60, 1, 0x60, 0, 0x55, 0x60, 0, 0x60, 0, 0xFD]

/-- An environment where the account of `calling` has the word `w` under every key, and the other ones have none. -/
def wordEnv (w : Bytes) : Env :=
  { codeEnv storeAndRevert with storage := fun self _ => if self = List.replicate 20 0 then .ok w else .ok [] }

/-- Behind the call, behind the run of its frame, and behind the report. -/
def reverted (w : Bytes) : Vm := behind (calledArgs.sub_call (wordEnv w) (evm_run (wordEnv w) 1)) calling

def revertedEnded (w : Bytes) : Vm :=
  behind (run_call (wordEnv w) (evm_run (wordEnv w) 1) calledArgs.address calledArgs.code_address [] calledArgs.caller 65535
    .CALL) (calling.entered (sub_frame calling.evm (calledFrame storeAndRevert) [] [] .CALL))

def revertedReported (w : Bytes) : Vm :=
  behind (report calledArgs.address calledArgs.code_address 0 2 (.ok ())) (revertedEnded w)

theorem calm_wordEnv (e : Event) : e.Calm (wordEnv []) := by
  have hword : ∀ adr key, (wordEnv []).word adr key = List.replicate 32 0 := by
    intro adr key
    unfold Env.word wordEnv
    dsimp only
    split_ifs <;> rfl
  cases e with
  | step evm parents =>
    intro _ key _ _
    rw [hword, hword]
  | _ => trivial

/-- What the machine does with the reverted frame, without words and with the word 5 in the outermost account. -/
structure RevertedRuns : Prop where
  ends : ∀ w ∈ [[], [5]],
    ends (calledArgs.sub_call (wordEnv w) (evm_run (wordEnv w) 1)) calling (.ok ()) (reverted w)
  parts : CallParts (wordEnv [5]) 1 calledArgs calling (.ok ()) (revertedEnded [5]) (revertedReported [5]) (.ok ())
  dropped : ¬ Kept (.ok ()) (revertedEnded [5])
  word : (view (wordEnv [5]) (reverted [5]).frames).storage calledArgs.code_address (List.replicate 32 0) ≠
    (view (wordEnv [5]) calling.frames).storage calledArgs.code_address (List.replicate 32 0)

theorem revertedRuns : RevertedRuns := by
  have all : (∀ w ∈ [[], [5]],
        ends (calledArgs.sub_call (wordEnv w) (evm_run (wordEnv w) 1)) calling (.ok ()) (reverted w)) ∧
      evm_prepare_evm (wordEnv [5]) calledArgs.address calledArgs.code_address calledArgs.origin calledArgs.caller .CALL =
        .ok (calledFrame storeAndRevert) ∧
      ends (run_call (wordEnv [5]) (evm_run (wordEnv [5]) 1) calledArgs.address calledArgs.code_address []
        calledArgs.caller 65535 .CALL) (calling.entered (sub_frame calling.evm (calledFrame storeAndRevert) [] [] .CALL))
        (.ok (.ok ())) (revertedEnded [5]) ∧
      ends (report calledArgs.address calledArgs.code_address 0 2 (.ok ())) (revertedEnded [5]) (.ok (.ok ()))
        (revertedReported [5]) ∧
      (revertedEnded [5]).evm.state = .REVERTED ∧
      (view (wordEnv [5]) (reverted [5]).frames).storage calledArgs.code_address (List.replicate 32 0) ≠
        (view (wordEnv [5]) calling.frames).storage calledArgs.code_address (List.replicate 32 0) := by
    decide +kernel
  obtain ⟨hends, hprepare, hrun, hreport, hstate, hword⟩ := all
  exact ⟨hends, ⟨⟨_, hprepare, hrun⟩, hreport⟩, fun h => h.2 hstate, hword⟩

theorem sub_call_separates_reverted :
    ∃ success ended reported, CallParts (wordEnv []) 1 calledArgs calling success ended reported (.ok ()) ∧
      Separates (wordEnv []) calling success ended reported (reverted []) := by
  have hends := revertedRuns.ends [] (by decide)
  have hempty : calling.trace = [] := rfl
  have htrace : (reverted []).trace = calling.trace ++ (reverted []).trace := by rw [hempty, List.nil_append]
  rcases sub_call_separates hends htrace with ⟨⟨e, he⟩, -⟩ | ⟨success, ended, reported, hparts, hsep⟩
  · cases he
  · exact ⟨success, ended, reported, hparts, hsep (.inr fun e _ => calm_wordEnv e)⟩

/-- The word 5 of the outermost account is seen in the other account behind a call that was reverted. -/
theorem word_left_behind :
    ends (calledArgs.sub_call (wordEnv [5]) (evm_run (wordEnv [5]) 1)) calling (.ok ()) (reverted [5]) ∧
      CallParts (wordEnv [5]) 1 calledArgs calling (.ok ()) (revertedEnded [5]) (revertedReported [5]) (.ok ()) ∧
      ¬ Separates (wordEnv [5]) calling (.ok ()) (revertedEnded [5]) (revertedReported [5]) (reverted [5]) := by
  refine ⟨revertedRuns.ends [5] (by decide), revertedRuns.parts, ?_⟩
  intro h
  have hword := congrArg (fun v => v.storage calledArgs.code_address (List.replicate 32 0)) (h.dropped revertedRuns.dropped)
  exact revertedRuns.word hword

end In3.Evm
