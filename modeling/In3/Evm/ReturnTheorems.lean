import In3.Evm.PopTheorems
import In3.Evm.SubCalls
/-!
# Returned data

A call hands the data that its frame returned to the caller: to the output range of the memory and to
`last_returned`. The data of an earlier call stay there, if the frame failed or returned nothing, and
the output range is filled up with zeros behind shorter data. `RETURNDATACOPY` fails if it starts
behind the data, wherever it ends.
-/
open Lib Machine List

namespace In3.Evm

/-! ## What the caller gets -/

/-- The data that a frame returned at its end; none, if it failed. -/
def returned (success : Except Int Unit) (ended : Vm) : Bytes :=
  if succeeded success then (ended.evm.return_data.map (·.bytes)).getD [] else []

def evm_t.lastReturned (evm : evm_t) : Bytes := (evm.last_returned.map (·.bytes)).getD []

def HandsOver (success : Except Int Unit) (ended : Vm) : Prop :=
  succeeded success = true ∧ ended.evm.return_data.isSome = true

/-- What the caller has behind the report: the data in the output range and in `last_returned`. -/
structure Handed (data : Buffer) (out_offset out_len : Nat) (p p' : evm_t) : Prop where
  last : p'.last_returned = some data
  bytes : p'.memory.tape.byte = writeAt p.memory.tape.byte out_offset (fitted out_len data.bytes)

/-- What a call leaves with the caller: the data of its frame, or what was there before. -/
inductive Reported (out_offset out_len : Nat) (success : Except Int Unit) (ended : Vm) (f g : evm_t) : Prop where
  | handed {data : Buffer} (hsucc : succeeded success = true) (hdata : ended.evm.return_data = some data)
      (hhanded : Handed data out_offset out_len f g)
  | kept (hover : ¬ HandsOver success ended) (hlast : g.last_returned = f.last_returned)
      (hbyte : g.memory.tape.byte = f.memory.tape.byte)

section
variable {vm vm' : Vm} {p : evm_t} {ps : List evm_t} {address : Option Bytes} {code_address : Bytes}
  {out_offset out_len : Nat} {success res : Except Int Unit} {data : Buffer}

theorem Reported.congr {f f' g g' : evm_t} (h : Reported out_offset out_len success vm f g)
    (hf : f.last_returned = f'.last_returned ∧ f.memory.tape.byte = f'.memory.tape.byte)
    (hg : g'.last_returned = g.last_returned ∧ g'.memory.tape.byte = g.memory.tape.byte) :
    Reported out_offset out_len success vm f' g' := by
  cases h with
  | handed hsucc hdata hhanded =>
    exact .handed hsucc hdata ⟨by rw [hg.1, hhanded.last], by rw [hg.2, hhanded.bytes, hf.2]⟩
  | kept hover hlast hbyte => exact .kept hover (by rw [hg.1, hlast, hf.1]) (by rw [hg.2, hbyte, hf.2])

theorem push_result_ends (h : ends (push_result address success) vm (.ok res) vm') (hps : vm.parents = p :: ps) :
    vm'.evm = vm.evm ∧ ∃ stack, vm'.parents = { p with stack := stack } :: ps := by
  unfold push_result at h
  rw [ends_getEvm_bind] at h
  obtain ⟨q, -, h⟩ := ends_attempt.1 h
  obtain ⟨p', ps', t, hps', hx, rfl⟩ := atParent_ends h
  obtain ⟨rfl, rfl⟩ := List.cons.inj (hps'.symm.trans hps)
  have hpush : ∃ data, ends (evm_stack_push data) { vm with evm := p', parents := ps' } q t := by
    split at hx
    · exact ⟨_, hx⟩
    · exact ⟨_, hx⟩
  obtain ⟨data, hpush⟩ := hpush
  rcases push_outcome hpush with ⟨-, rfl⟩ | ⟨stack, -, rfl⟩
  · exact ⟨rfl, p'.stack, rfl⟩
  · exact ⟨rfl, stack, rfl⟩

theorem write_result_ends (hm : p.memory.WF) (hps : vm.parents = p :: ps)
    (h : ends (return_result.write_result out_offset out_len data res) vm (.ok (.ok ())) vm') :
    vm'.evm = vm.evm ∧ ∃ gas m, vm'.parents = { p with gas := gas, memory := m } :: ps ∧
      m.tape.byte = writeAt p.memory.tape.byte out_offset (fitted out_len data.bytes) := by
  unfold return_result.write_result at h
  split at h
  · obtain ⟨q, hq, h⟩ := ends_attempt.1 h
    obtain rfl := Except.ok.inj hq
    obtain ⟨p', ps', t, hps', hx, rfl⟩ := atParent_ends h
    obtain ⟨rfl, rfl⟩ := List.cons.inj (hps'.symm.trans hps)
    obtain ⟨gas, m, rfl, -, -, htape⟩ := mem_write_ok hx hm
    exact ⟨rfl, gas, m, rfl, congrArg Tape.byte htape⟩
  · next hzero =>
    obtain ⟨-, rfl⟩ := ends_pure.1 h
    have hlen : out_len = 0 := not_not.1 hzero
    refine ⟨rfl, p.gas, p.memory, hps, ?_⟩
    rw [hlen]
    simp [fitted]

theorem return_result_ends (hm : p.memory.WF) (hps : vm.parents = p :: ps)
    (h : ends (return_result address code_address out_offset out_len data res) vm (.ok (.ok ())) vm') :
    ∃ p', vm'.parents = p' :: ps ∧ Handed data out_offset out_len p p' := by
  have hcode : ∀ {s t : Vm} {u : Unit}, ends (update_account_code address code_address data) s (.ok u) t →
      t.parents = s.parents := by
    intro s t u h
    unfold update_account_code at h
    split at h
    · exact congrArg Vm.parents (ends_pure.1 h).2
    · obtain ⟨ac, _, hac, hput⟩ := ends_bind_ok.1 h
      obtain ⟨-, -, -, rfl⟩ := own_account_ends.1 hac
      obtain ⟨-, rfl⟩ := ends_modifyEvm.1 hput
      rfl
  obtain ⟨res, s, hwrite, h⟩ := ends_bind_ok.1 h
  obtain ⟨_, t, ht, h⟩ := ends_bind_ok.1 h
  rcases res with e | _
  · cases (ends_pure.1 h).1
  obtain ⟨-, gas, m, hparents, htape⟩ := write_result_ends hm hps hwrite
  rw [← hcode ht] at hparents
  rw [ends_get_bind] at h
  obtain ⟨_, u, hfree, h⟩ := ends_bind_ok.1 h
  obtain ⟨-, -, hu, -⟩ := free_buffer_ends hfree
  unfold modifyParent modifyEvm at h
  rw [ends_modify_bind] at h
  obtain ⟨-, rfl⟩ := ends_pure.1 h
  refine ⟨{ p with gas := gas, memory := m, last_returned := some data }, ?_, rfl, htape⟩
  rw [hu, hparents]

theorem report_ends (hm : p.memory.WF) (hps : vm.parents = p :: ps)
    (h : ends (report address code_address out_offset out_len success) vm (.ok (.ok ())) vm') :
    ∃ p', vm'.parents = p' :: ps ∧ Reported out_offset out_len success vm p p' := by
  obtain ⟨pushed, s, hpush, h⟩ := ends_bind_ok.1 h
  obtain ⟨hevm, stack, hs⟩ := push_result_ends hpush hps
  rw [ends_getEvm_bind, hevm] at h
  unfold end_call.hand_back at h
  rcases hdata : vm.evm.return_data with _ | data
  · simp only [hdata] at h
    obtain ⟨-, rfl⟩ := ends_pure.1 h
    refine ⟨_, hs, .kept (fun hover => ?_) rfl rfl⟩
    have := hover.2
    rw [hdata] at this
    cases this
  · simp only [hdata] at h
    split at h
    · next hsucc =>
      obtain ⟨p', hp', hlast, hbytes⟩ := return_result_ends (p := { p with stack := stack }) hm hs h
      exact ⟨p', hp', .handed hsucc hdata ⟨hlast, hbytes⟩⟩
    · next hfail =>
      obtain ⟨-, rfl⟩ := ends_pure.1 h
      exact ⟨_, hs, .kept (fun hover => hfail hover.1) rfl rfl⟩

end

/-! ## Calls -/

variable {env : Env} {len off : Nat} {pos : Bytes} {r : Except Int Unit} {src : Code} {depth out_len out_offset : Nat}
  {f g : evm_t} {op : CallOp} {read : M Bytes} {rest : List Bytes} {vm vm' : Vm}

theorem sub_call_caller {address : Option Bytes} {code_address value data caller origin : Bytes}
    {gas : Nat} {mode : Mode} (hm : vm.evm.memory.WF)
    (h : ends (evm_sub_call env (evm_run env depth) address code_address value data caller origin gas mode out_offset
      out_len) vm (.ok ()) vm') :
    ∃ child success ended, evm_prepare_evm env address code_address origin caller mode = .ok child ∧
      ends (run_call env (evm_run env depth) address code_address value caller gas mode)
        (vm.entered (sub_frame vm.evm child value data mode)) (.ok success) ended ∧
      Reported out_offset out_len success ended vm.evm vm'.evm := by
  rcases sub_call_ends h with ⟨e, he, -⟩ | ⟨child, success, ended, hchild, hrun, hend⟩
  · cases he
  obtain ⟨reported, settled, hreport, hsettle, hframes, -⟩ := end_call_ends hend
  -- the caller waits while the frame runs
  have hisolates : Isolates env True 0 0 (run_call env (evm_run env depth) address code_address value caller gas mode) :=
    isolates_run_call (isolates_evm_run depth) _ _ _ _ _ _
  obtain ⟨_, -, hran⟩ := hisolates _ _ _ hrun
  have hwaits : List.Forall₂ Waiting (vm.evm :: vm.parents) ended.parents := hran.waiting
  obtain ⟨p, ps, hwait, -, hp⟩ := forall₂_cons_left_iff.1 hwaits
  obtain ⟨p', hp', hreported⟩ := report_ends (by rw [hwait]; exact hm) hp hreport
  -- and it keeps what was reported while the gas is settled
  have hisolates' : Isolates env True 0 1 (finalize_subcall_gas success) := isolates_finalize_subcall success
  obtain ⟨_, -, hsettled⟩ := hisolates' _ _ _ hsettle
  have hwait' := hsettled.waiting
  rw [hp', hframes] at hwait'
  have hcaller : Waiting p' vm'.evm := (forall₂_cons.1 hwait').1
  exact ⟨child, success, ended, hchild, hrun, hreported.congr ⟨by rw [hwait], by rw [hwait]⟩ ⟨by rw [hcaller], by rw [hcaller]⟩⟩

/-- The caller `f` gets the data and nothing else: `g` is the caller behind the call. -/
structure CallReturns (out_offset out_len : Nat) (data : Bytes) (f g : evm_t) : Prop where
  last : g.lastReturned = data
  beside : ∀ i, i < out_offset ∨ out_offset + min out_len data.length ≤ i → g.memory.tape.byte i = f.memory.tape.byte i

/-- There are data, or none are left from an earlier call; and the output range ends with the data, or there are zeros
in the rest of it. -/
structure Unspoiled (out_offset out_len : Nat) (success : Except Int Unit) (ended : Vm) (f : evm_t) : Prop where
  fresh : HandsOver success ended ∨ f.lastReturned = []
  zeros : HandsOver success ended → ∀ i, out_offset + (returned success ended).length ≤ i → i < out_offset + out_len →
    f.memory.tape.byte i = 0

theorem writeAt_fitted_behind (c : Nat → UInt8) {i : Nat} {src : Bytes} (hi : off + src.length ≤ i)
    (hlen : i < off + len) : writeAt c off (fitted len src) i = 0 := by
  obtain ⟨k, rfl⟩ := Nat.exists_eq_add_of_le (show off ≤ i by omega)
  rw [writeAt_inside c off _ (by rw [length_fitted]; omega)]
  unfold fitted
  rw [getElem_append_right (by rw [length_take]; omega), getElem_replicate]

theorem handed_returns_iff {data : Buffer}
    (h : Handed data out_offset out_len f g) :
    CallReturns out_offset out_len data.bytes f g ↔
      ∀ i, out_offset + data.bytes.length ≤ i → i < out_offset + out_len → f.memory.tape.byte i = 0 := by
  obtain ⟨hlast, hbytes⟩ := h
  constructor
  · intro hreturns i hi hlen
    rw [← hreturns.beside i (.inr (by omega)), hbytes]
    exact writeAt_fitted_behind _ hi hlen
  · intro hzeros
    refine ⟨?_, fun i hi => ?_⟩
    · unfold evm_t.lastReturned
      rw [hlast]
      rfl
    · rw [hbytes]
      by_cases hin : out_offset ≤ i ∧ i < out_offset + out_len
      · rw [writeAt_fitted_behind _ (by omega) hin.2, hzeros i (by omega) hin.2]
      · exact writeAt_outside _ _ _ (by rw [length_fitted]; omega)

theorem returns_iff {success : Except Int Unit} {ended : Vm} (h : Reported out_offset out_len success ended f g) :
    CallReturns out_offset out_len (returned success ended) f g ↔ Unspoiled out_offset out_len success ended f := by
  rcases h with @⟨data, hsucc, hdata, hhanded⟩ | ⟨hover, hlast, hbyte⟩
  · have hreturned : returned success ended = data.bytes := by
      unfold returned
      rw [if_pos hsucc, hdata]
      rfl
    have hover : HandsOver success ended := ⟨hsucc, by rw [hdata]; rfl⟩
    rw [hreturned, handed_returns_iff hhanded]
    constructor
    · intro hzeros
      exact ⟨.inl hover, fun _ => by rw [hreturned]; exact hzeros⟩
    · intro hclean
      rw [← hreturned]
      exact hclean.zeros hover
  · have hreturned : returned success ended = [] := by
      unfold returned
      split
      · next hsucc =>
        rcases hdata : ended.evm.return_data with _ | data
        · rfl
        · exact absurd ⟨hsucc, by rw [hdata]; rfl⟩ hover
      · rfl
    have hsame : g.lastReturned = f.lastReturned := congrArg (fun b => (b.map Buffer.bytes).getD []) hlast
    rw [hreturned]
    constructor
    · intro hreturns
      exact ⟨.inr (by rw [← hsame]; exact hreturns.last), fun hsome => absurd hsome hover⟩
    · intro hclean
      refine ⟨?_, fun i _ => by rw [hbyte]⟩
      rw [hsame]
      exact hclean.fresh.resolve_left hover

/-! ## The operations -/

structure CallArgs where
  address : Option Bytes
  code_address : Bytes
  value : Bytes
  data : Bytes
  caller : Bytes
  origin : Bytes
  gas : Nat
  mode : Mode
  out_offset : Nat
  out_len : Nat
  deriving DecidableEq

def CallArgs.sub_call (env : Env) (run : Bytes → M Unit) (c : CallArgs) : M Unit :=
  evm_sub_call env run c.address c.code_address c.value c.data c.caller c.origin c.gas c.mode c.out_offset c.out_len

def call_args (mode : CALL) : M CallArgs := do
  let gas_limit ← evm_stack_pop_ref
  let address ← evm_stack_pop 20
  let value ← pop_value mode
  let in_offset ← evm_stack_pop_int
  let in_len ← evm_stack_pop_int
  let out_offset ← evm_stack_pop_int
  let out_len ← evm_stack_pop_int
  let gas := bytes_to_long gas_limit
  check_ranges in_offset in_len out_offset out_len
  let evm ← getEvm
  let data := (evm.memory.data.drop in_offset).take in_len
  match mode with
  | .CALL => return ⟨some address, address, value, data, evm.address, evm.origin, gas, .CALL, out_offset, out_len⟩
  | .CODE => return ⟨some evm.address, address, value, data, evm.address, evm.origin, gas, .CALLCODE, out_offset, out_len⟩
  | .DELEGATE =>
    return ⟨some evm.address, address, evm.call_value, data, evm.caller, evm.origin, gas, .DELEGATE, out_offset, out_len⟩
  | .STATIC => return ⟨some address, address, [0], data, evm.address, evm.origin, gas, .STATIC, out_offset, out_len⟩

def create_args (env : Env) (use_salt : Bool) : M CallArgs := do
  let value ← evm_stack_pop_ref
  let in_offset ← evm_stack_pop_int
  let in_len ← evm_stack_pop_int
  mem_check (in_offset + in_len) true
  let in_data ← evm_mem_read_ref in_offset in_len
  let address ← create_address env in_data use_salt
  let evm ← getEvm
  let _ ← get_account env evm.address false
  return ⟨none, address, value, in_data, evm.address, evm.origin, 0, .CREATE, 0, 0⟩

/-- The rest of `op_create`. -/
def create_call (env : Env) (run : Bytes → M Unit) (c : CallArgs) : M Unit := do
  let ac ← own_account c.caller
  let res ← attempt (c.sub_call env run)
  let ac' ← own_account c.caller
  if ac.nonce.getD 31 0 = ac'.nonce.getD 31 0 then increment_nonce c.caller
  Machine.ofExcept res

theorem op_call_args (env : Env) (run : Bytes → M Unit) (mode : CALL) :
    op_call env run mode = call_args mode >>= fun c => c.sub_call env run := by
  unfold op_call call_args
  cases mode <;> simp only [bind_assoc, pure_bind, CallArgs.sub_call]

theorem op_create_args (env : Env) (run : Bytes → M Unit) (use_salt : Bool) :
    op_create env run use_salt = create_args env use_salt >>= create_call env run := by
  unfold op_create create_args create_call
  simp only [bind_assoc, pure_bind, CallArgs.sub_call]

/-- The operations that make a sub call. -/
inductive CallOp where
  | call (mode : CALL)
  | create (use_salt : Bool)
  deriving DecidableEq

def CallOp.run (env : Env) (run : Bytes → M Unit) : CallOp → M Unit
  | .call mode => op_call env run mode
  | .create use_salt => op_create env run use_salt

def CallOp.args (env : Env) : CallOp → M CallArgs
  | .call mode => call_args mode
  | .create use_salt => create_args env use_salt

/-- The memory may have grown, and no byte of it changed. -/
structure SameBytes (f g : evm_t) : Prop where
  wf : g.memory.WF
  byte : g.memory.tape.byte = f.memory.tape.byte
  last : g.last_returned = f.last_returned

def TakesOperands {α : Type} (x : M α) : Prop :=
  ∀ vm a vm', vm.evm.memory.WF → ends x vm (.ok a) vm' → SameBytes vm.evm vm'.evm

section
variable {α β : Type}

theorem TakesOperands.bind {x : M α} {f : α → M β} (hx : TakesOperands x) (hf : ∀ a, TakesOperands (f a)) :
    TakesOperands (x >>= f) := by
  intro vm b vm' hm h
  obtain ⟨a, t, ha, hb⟩ := ends_bind_ok.1 h
  have hfirst := hx vm a t hm ha
  have hrest := hf a t b vm' hfirst.wf hb
  exact ⟨hrest.wf, hrest.byte.trans hfirst.byte, hrest.last.trans hfirst.last⟩

theorem takesOperands_of_same {x : M α} (h : ∀ vm a vm', ends x vm (.ok a) vm' →
    vm'.evm.memory = vm.evm.memory ∧ vm'.evm.last_returned = vm.evm.last_returned) : TakesOperands x := by
  intro vm a vm' hm hends
  obtain ⟨hmem, hlast⟩ := h vm a vm' hends
  exact ⟨by rw [hmem]; exact hm, by rw [hmem], hlast⟩

theorem takesOperands_pure (a : α) : TakesOperands (pure a : M α) := by
  apply takesOperands_of_same
  intro vm b vm' h
  obtain ⟨-, rfl⟩ := ends_pure.1 h
  exact ⟨rfl, rfl⟩

theorem takesOperands_getEvm : TakesOperands getEvm := by
  apply takesOperands_of_same
  intro vm b vm' h
  obtain ⟨-, rfl⟩ := ends_getEvm.1 h
  exact ⟨rfl, rfl⟩

theorem takesOperands_pop_ref : TakesOperands evm_stack_pop_ref := by
  apply takesOperands_of_same
  intro vm e vm' h
  obtain ⟨s, -, rfl⟩ := pop_ref_ok h
  exact ⟨rfl, rfl⟩

theorem takesOperands_pop (len : Nat) : TakesOperands (evm_stack_pop len) :=
  takesOperands_pop_ref.bind fun _ => takesOperands_pure _

theorem takesOperands_pop_int : TakesOperands evm_stack_pop_int := takesOperands_pop_ref.bind fun _ => takesOperands_pure _

theorem takesOperands_mem_check (n : Nat) (read_only : Bool) : TakesOperands (mem_check n read_only) := by
  intro vm a vm' hm h
  obtain ⟨gas, m, rfl, hgrown, -, -⟩ := mem_check_ok h hm
  have hbyte : m.tape.byte = vm.evm.memory.tape.byte := by rw [hgrown.tape]
  exact ⟨hgrown.wf hm, hbyte, rfl⟩

theorem takesOperands_get_account (env : Env) (adr : Bytes) (create : Bool) : TakesOperands (get_account env adr create) := by
  apply takesOperands_of_same
  intro vm ac vm' h
  have hwait := waiting_get_account h
  exact ⟨by rw [hwait], by rw [hwait]⟩

theorem takesOperands_own_account (adr : Bytes) : TakesOperands (own_account adr) := by
  apply takesOperands_of_same
  intro vm ac vm' h
  obtain ⟨-, -, -, rfl⟩ := own_account_ends.1 h
  exact ⟨rfl, rfl⟩

theorem takesOperands_throw (e : Int) : TakesOperands (throw e : M α) := by
  intro vm a vm' _ h
  cases (ends_throw.1 h).1

end

theorem takesOperands_args (env : Env) (op : CallOp) : TakesOperands (op.args env) := by
  have hint := takesOperands_pop_int
  cases op with
  | call mode =>
    have hranges : ∀ a b c d, TakesOperands (check_ranges a b c d) := by
      have hrange : ∀ a b c, TakesOperands (check_ranges.check_range a b c) := by
        intro a b c
        unfold check_ranges.check_range
        split
        · exact takesOperands_pure _
        · exact takesOperands_mem_check _ _
      intro a b c d vm u vm' hm h
      obtain ⟨q, hq, hends⟩ := ends_mapError.1 h
      cases q with
      | error e => cases hq
      | ok v => exact (hrange _ _ _).bind (fun _ => hrange _ _ _) vm v vm' hm hends
    have hvalue : TakesOperands (pop_value mode) := by
      unfold pop_value
      split
      · exact takesOperands_pop_ref
      · exact takesOperands_pure _
    refine takesOperands_pop_ref.bind fun _ => (takesOperands_pop 20).bind fun _ => hvalue.bind fun _ => ?_
    refine hint.bind fun _ => hint.bind fun _ => hint.bind fun _ => hint.bind fun _ => (hranges _ _ _ _).bind fun _ => ?_
    refine takesOperands_getEvm.bind fun evm => ?_
    cases mode <;> exact takesOperands_pure _
  | create use_salt =>
    have haddress : ∀ in_data, TakesOperands (create_address env in_data use_salt) := by
      intro in_data
      unfold create_address
      split
      · refine takesOperands_getEvm.bind fun evm => ?_
        split
        · exact takesOperands_throw _
        · exact (takesOperands_pop _).bind fun _ => takesOperands_pure _
      · refine takesOperands_getEvm.bind fun evm => (takesOperands_get_account _ _ _).bind fun _ => ?_
        exact (takesOperands_own_account _).bind fun _ => takesOperands_pure _
    refine takesOperands_pop_ref.bind fun _ => hint.bind fun _ => hint.bind fun _ => (takesOperands_mem_check _ _).bind fun _ => ?_
    refine ((takesOperands_mem_check _ _).bind fun _ => takesOperands_getEvm.bind fun _ => takesOperands_pure _).bind fun _ => ?_
    refine (haddress _).bind fun _ => takesOperands_getEvm.bind fun _ => (takesOperands_get_account _ _ _).bind fun _ => ?_
    exact takesOperands_pure _

/-- The run of the frame that the operation makes: from `vm` it ends with `success` in `ended`. -/
def Callee (env : Env) (depth : Nat) (op : CallOp) (vm : Vm) (c : CallArgs) (success : Except Int Unit) (ended : Vm) : Prop :=
  ∃ t child, ends (op.args env) vm (.ok c) t ∧
    evm_prepare_evm env c.address c.code_address c.origin c.caller c.mode = .ok child ∧
    ends (run_call env (evm_run env depth) c.address c.code_address c.value c.caller c.gas c.mode)
      (t.entered (sub_frame t.evm child c.value c.data c.mode)) (.ok success) ended

theorem Callee.unique {c d : CallArgs} {success success' : Except Int Unit} {ended ended' : Vm}
    (h : Callee env depth op vm c success ended) (h' : Callee env depth op vm d success' ended') :
    c = d ∧ success = success' ∧ ended = ended' := by
  obtain ⟨t, child, hargs, hchild, hrun⟩ := h
  obtain ⟨t', child', hargs', hchild', hrun'⟩ := h'
  obtain ⟨hc, rfl⟩ := ends_unique hargs hargs'
  cases hc
  rw [hchild] at hchild'
  cases hchild'
  obtain ⟨hs, hended⟩ := ends_unique hrun hrun'
  exact ⟨rfl, Except.ok.inj hs, hended⟩

theorem call_op_ends {run : Bytes → M Unit}
    (h : ends (op.run env run) vm (.ok ()) vm') :
    ∃ c t u, ends (op.args env) vm (.ok c) t ∧ ends (c.sub_call env run) t (.ok ()) u ∧
      vm'.evm.memory = u.evm.memory ∧ vm'.evm.last_returned = u.evm.last_returned := by
  cases op with
  | call mode =>
    rw [CallOp.run, op_call_args] at h
    obtain ⟨c, t, hargs, hcall⟩ := ends_bind_ok.1 h
    exact ⟨c, t, vm', hargs, hcall, rfl, rfl⟩
  | create use_salt =>
    rw [CallOp.run, op_create_args] at h
    obtain ⟨c, t, hargs, hcall⟩ := ends_bind_ok.1 h
    obtain ⟨ac, _, hac, hcall'⟩ := ends_bind_ok.1 hcall
    obtain ⟨-, -, -, rfl⟩ := own_account_ends.1 hac
    obtain ⟨res, u, hsub, hrest⟩ := ends_attempt_bind.1 hcall'
    obtain ⟨ac', _, hac', hrest'⟩ := ends_bind_ok.1 hrest
    obtain ⟨-, -, -, rfl⟩ := own_account_ends.1 hac'
    split at hrest'
    · obtain ⟨_, v, hnonce, hres⟩ := ends_bind_ok.1 hrest'
      obtain ⟨rfl, rfl⟩ := ends_ofExcept.1 hres
      unfold increment_nonce at hnonce
      obtain ⟨ac'', _, hown, _, _, hsum, _, _, hset, hput⟩ := by simpa only [ends_bind_ok] using hnonce
      obtain ⟨-, -, -, rfl⟩ := own_account_ends.1 hown
      obtain ⟨-, rfl⟩ := ends_checked_ok.1 hsum
      obtain ⟨-, rfl⟩ := ends_checked_ok.1 hset
      obtain ⟨-, rfl⟩ := ends_modifyEvm.1 hput
      exact ⟨c, _, _, hargs, hsub, rfl, rfl⟩
    · obtain ⟨rfl, rfl⟩ := ends_ofExcept.1 hrest'
      exact ⟨c, _, _, hargs, hsub, rfl, rfl⟩

theorem call_op_returns_iff (hm : vm.evm.memory.WF)
    (h : ends (op.run env (evm_run env depth)) vm (.ok ()) vm') :
    ∃ c success ended, Callee env depth op vm c success ended ∧
      (CallReturns c.out_offset c.out_len (returned success ended) vm.evm vm'.evm ↔
        Unspoiled c.out_offset c.out_len success ended vm.evm) := by
  obtain ⟨c, t, u, hargs, hcall, hmem, hlast⟩ := call_op_ends h
  obtain ⟨hwf, hbyte, hlast'⟩ := takesOperands_args env op vm c t hm hargs
  obtain ⟨child, success, ended, hchild, hrun, hreported⟩ := sub_call_caller hwf hcall
  exact ⟨c, success, ended, ⟨t, child, hargs, hchild, hrun⟩,
    returns_iff (hreported.congr ⟨hlast', hbyte⟩ ⟨hlast, by rw [hmem]⟩)⟩

/-! ## Copying the returned data -/

/-- A copy of `len` bytes from `pos` on, of `size` bytes of data, fails if it reaches behind them; it is left aside that
it may have too little gas. -/
def CopyChecked (size : Nat) (pos len : Bytes) : Prop :=
  ∀ (vm vm' : Vm) (dst : Bytes) (rest : List Bytes) (r : Except Int Unit), vm.evm.lastReturned.length = size →
    vm.evm.stack.entries = dst :: pos :: len :: rest →
    ends (op_datacopy (·.returned_source) true) vm r vm' → r ≠ .error EVM_ERROR_OUT_OF_GAS →
    ((∃ e, r = .error e) ↔ size < beNat pos + beNat len)

/-- Where a copy starts decides, and not where it ends. -/
def StartsRight (size pos len : Nat) : Prop :=
  (size < pos + len → len < MEM_LIMIT → size ≤ min pos MEM_LIMIT) ∧ (pos + len ≤ size → min pos MEM_LIMIT < size)

/-- Only the gas can be missing, and where it is not, `p` holds. -/
def OnlyGas {α : Type} (x : M α) (p : Prop) : Prop :=
  ∀ vm r vm', ends x vm r vm' → r = .error EVM_ERROR_OUT_OF_GAS ∨ (∃ a, r = .ok a) ∧ p

section
variable {α β : Type} {x : M α} {p q : Prop}

theorem onlyGas_of_sure (h : Sure x) (hp : p) : OnlyGas x p := by
  intro vm r vm' hx
  rcases r with e | a
  · exact absurd hx (h _ _ _)
  · exact .inr ⟨⟨a, rfl⟩, hp⟩

theorem OnlyGas.mono (h : OnlyGas x p) (hpq : p → q) : OnlyGas x q :=
  fun vm r vm' hx => (h vm r vm' hx).imp_right (And.imp_right hpq)

theorem OnlyGas.bind {f : α → M β} (hx : OnlyGas x p) (hf : ∀ a, p → OnlyGas (f a) q) : OnlyGas (x >>= f) q := by
  intro vm r vm' h
  rcases ends_bind.1 h with ⟨a, t, ha, h⟩ | ⟨e, rfl, he⟩
  · rcases hx _ _ _ ha with herr | ⟨-, hp⟩
    · cases herr
    · exact hf a hp t r vm' h
  · rcases hx _ _ _ he with herr | ⟨⟨a, ha⟩, -⟩
    · exact .inl (by rw [Except.error.inj herr])
    · cases ha

end

theorem onlyGas_mem_check (n : Nat) (read_only : Bool) : OnlyGas (mem_check n read_only) (n < MEM_LIMIT) := by
  have hgas : ∀ g, OnlyGas (subgas g) True := by
    intro g vm r vm' h
    rcases subgas_ends h with ⟨-, hok, -⟩ | ⟨-, herr, -⟩
    · exact .inr ⟨⟨_, hok⟩, trivial⟩
    · exact .inl herr
  have hextend : OnlyGas (extend_memory n) True := by
    refine (onlyGas_of_sure sure_getEvm trivial).bind fun evm _ => ?_
    dsimp only
    split
    · exact onlyGas_of_sure (sure_pure _) trivial
    split
    · exact (hgas _).bind fun _ _ => onlyGas_of_sure ((sure_modifyEvm _).bind fun _ => sure_pure _) trivial
    · exact onlyGas_of_sure ((sure_modifyEvm _).bind fun _ => sure_pure _) trivial
  unfold mem_check
  split
  · exact fun vm r vm' h => .inl (ends_throw.1 h).1
  · next hlimit =>
    refine hextend.bind fun _ _ => onlyGas_of_sure ?_ (by omega)
    split
    · exact sure_pure _
    · exact sure_modifyEvm _

theorem onlyGas_mem_copy (off len : Nat) (hread : Sure read) : OnlyGas (evm_mem_copy off read len) (off + len < MEM_LIMIT) :=
  (onlyGas_mem_check _ _).bind fun _ hlimit => onlyGas_of_sure (hread.bind fun _ => sure_modifyEvm _) hlimit

theorem sure_source_bytes (src : Code) (pos len : Nat) : Sure (source_bytes src pos len) := by
  have halive : Sure (alive src) := by
    refine sure_get.bind fun vm => ?_
    split
    · split
      · exact sure_fault _
      · exact sure_pure _
    · exact sure_pure _
  unfold source_bytes
  dsimp only
  split
  · exact sure_pure _
  · exact halive.bind fun _ => (sure_ofGuarded (Guarded.errorless_guard _ _)).bind fun _ => sure_pure _

theorem onlyGas_copy (src : Code) (mem_pos pos len : Nat) :
    OnlyGas (do
      op_datacopy.fill_zeros mem_pos len (src.rest pos len)
      if src.rest pos len ≠ 0 then evm_mem_copy mem_pos (source_bytes src pos len) (src.rest pos len) else return ())
      (0 < len → mem_pos + len < MEM_LIMIT) := by
  have hfill : OnlyGas (op_datacopy.fill_zeros mem_pos len (src.rest pos len))
      (src.rest pos len < len → mem_pos + len < MEM_LIMIT) := by
    unfold op_datacopy.fill_zeros
    split
    · exact (onlyGas_mem_copy _ _ (sure_pure _)).mono fun hlimit _ => by omega
    · next hge => exact onlyGas_of_sure (sure_pure _) fun hlt => absurd hlt hge
  refine hfill.bind fun _ hzeros => ?_
  split
  · refine (onlyGas_mem_copy _ _ (sure_source_bytes _ _ _)).mono fun hlimit _ => ?_
    rcases Nat.lt_or_ge (src.rest pos len) len with hlt | hge
    · exact hzeros hlt
    · omega
  · next hzero => exact onlyGas_of_sure (sure_pure _) fun hpos => hzeros (by omega)

theorem returned_source_len (evm : evm_t) : evm.returned_source.len = evm.lastReturned.length := by
  unfold evm_t.returned_source evm_t.lastReturned
  cases evm.last_returned with
  | none => rfl
  | some b => rfl

theorem returndatacopy_outcome {dst len : Bytes}
    (hstack : vm.evm.stack.entries = dst :: pos :: len :: rest)
    (h : ends (op_datacopy (·.returned_source) true) vm r vm') (hgas : r ≠ .error EVM_ERROR_OUT_OF_GAS) :
    (vm.evm.lastReturned.length ≤ min (beNat pos) MEM_LIMIT ∧ r = .error EVM_ERROR_ILLEGAL_MEMORY_ACCESS) ∨
      (min (beNat pos) MEM_LIMIT < vm.evm.lastReturned.length ∧ r = .ok () ∧
        (vm.evm.lastReturned.length < beNat pos + beNat len → beNat len < MEM_LIMIT)) := by
  obtain ⟨s, hs, hbind⟩ := pop_int_bind hstack
  unfold op_datacopy at h
  rw [hbind] at h
  have htop : (vm.withStack s).evm.stack.entries = pos :: len :: rest := hs
  obtain ⟨s', hs', hbind'⟩ := pop_int_bind htop
  rw [hbind'] at h
  have htop' : ((vm.withStack s).withStack s').evm.stack.entries = len :: rest := hs'
  obtain ⟨s'', hs'', hbind''⟩ := pop_int_bind htop'
  rw [hbind''] at h
  rcases ends_bind.1 h with ⟨_, t, hpaid, h⟩ | ⟨e, rfl, hunpaid⟩
  · obtain rfl := subgas_ok hpaid
    rw [ends_getEvm_bind] at h
    have hlen := returned_source_len vm.evm
    generalize hsrc : vm.evm.returned_source = src at hlen
    have hsame : ∀ stack gas, evm_t.returned_source { vm.evm with stack := stack, gas := gas } = src := fun _ _ => hsrc
    simp only [Vm.withStack, hsame, hlen, true_and] at h
    by_cases hbehind : vm.evm.lastReturned.length ≤ min (beNat pos) MEM_LIMIT
    · rw [if_pos hbehind] at h
      exact .inl ⟨hbehind, (ends_throw.1 h).1⟩
    · rw [if_neg hbehind] at h
      rcases onlyGas_copy _ _ _ _ _ _ _ h with herr | ⟨⟨_, hok⟩, hlimit⟩
      · exact absurd herr hgas
      · refine .inr ⟨by omega, hok, fun hover => ?_⟩
        have hpos : 0 < MEM_LIMIT := by decide
        rcases Nat.eq_zero_or_pos (beNat len) with hzero | hlarge
        · omega
        · have := hlimit (by omega)
          omega
  · rcases subgas_ends hunpaid with ⟨-, hok, -⟩ | ⟨-, herr, -⟩
    · cases hok
    · exact absurd (by rw [Except.error.inj herr]) hgas

/-! A copy that can be paid: the memory is large enough already. -/

theorem mem_copy_ends {src : Bytes} (hread : ends read vm (.ok src) vm)
    (hlen : off + len ≤ vm.evm.memory.len) (hdata : off + len ≤ vm.evm.memory.data.length) (hlimit : off + len < MEM_LIMIT) :
    ends (evm_mem_copy off read len) vm (.ok ())
      { vm with evm := { vm.evm with memory := vm.evm.memory.write off src len } } := by
  have hcheck : ends (mem_check (off + len) false) vm (.ok ()) vm := by
    have hextend : ends (extend_memory (off + len)) vm (.ok (off + len)) vm := by
      unfold extend_memory
      rw [ends_getEvm_bind, if_pos hlen]
      exact ends_pure.2 ⟨rfl, rfl⟩
    have hgrow : grow_buffer (off + len) vm.evm.memory = vm.evm.memory := by
      unfold grow_buffer
      rw [if_neg (by omega)]
    unfold mem_check
    rw [if_neg (by omega), ends_bind_of_ok hextend, if_neg Bool.false_ne_true]
    refine ends_modifyEvm.2 ⟨rfl, ?_⟩
    rw [hgrow]
  unfold evm_mem_copy
  rw [ends_bind_of_ok hcheck, ends_bind_of_ok hread]
  exact ends_modifyEvm.2 ⟨rfl, rfl⟩

theorem length_write {m : Memory} (src : Bytes) (h : off + len ≤ m.data.length) :
    (m.write off src len).data.length = m.data.length := by
  simp only [Memory.write, length_append, length_take, length_replicate, length_drop]
  omega

theorem source_bytes_ends {pos : Nat} (len : Nat) (hbuf : ∀ id ∈ src.buf, id ∉ vm.freed)
    (hdata : src.data.length = src.len) (hpos : pos ≤ src.len) :
    ∃ data, ends (source_bytes src pos len) vm (.ok data) vm := by
  have halive : ends (alive src) vm (.ok ()) vm := by
    unfold alive
    rw [ends_get_bind]
    cases hb : src.buf with
    | none => exact ends_pure.2 ⟨rfl, rfl⟩
    | some id =>
      simp only [if_neg (hbuf id hb)]
      exact ends_pure.2 ⟨rfl, rfl⟩
  have hroom : pos + src.rest pos len ≤ src.data.length := by
    unfold Code.rest
    omega
  unfold source_bytes
  dsimp only
  split
  · exact ⟨[], ends_pure.2 ⟨rfl, rfl⟩⟩
  · have hguard : ends (checked (Guarded.guard (pos + src.rest pos len ≤ src.data.length)
        (.read src.data.length src.data.length))) vm (.ok ()) vm := ends_checked_ok.2 ⟨Guarded.ok_guard.2 hroom, rfl⟩
    refine ⟨(src.data.drop pos).take (src.rest pos len), ?_⟩
    rw [ends_bind_of_ok halive, ends_bind_of_ok hguard]
    exact ends_pure.2 ⟨rfl, rfl⟩

theorem copy_ends {pos : Nat} (hbuf : ∀ id ∈ src.buf, id ∉ vm.freed)
    (hsrc : src.data.length = src.len) (hpos : pos ≤ src.len) (hlimit : len < MEM_LIMIT)
    (hlen : MEM_LIMIT ≤ vm.evm.memory.len) (hdata : MEM_LIMIT ≤ vm.evm.memory.data.length) :
    ∃ vm', ends (do
      op_datacopy.fill_zeros 0 len (src.rest pos len)
      if src.rest pos len ≠ 0 then evm_mem_copy 0 (source_bytes src pos len) (src.rest pos len) else return ())
      vm (.ok ()) vm' := by
  have hrest : src.rest pos len ≤ len := min_le_right _ _
  obtain ⟨t, hfill, hfreed, hlen', hdata'⟩ : ∃ t, ends (op_datacopy.fill_zeros 0 len (src.rest pos len)) vm (.ok ()) t ∧
      t.freed = vm.freed ∧ t.evm.memory.len = vm.evm.memory.len ∧ t.evm.memory.data.length = vm.evm.memory.data.length := by
    unfold op_datacopy.fill_zeros
    split
    · exact ⟨_, mem_copy_ends (ends_pure.2 ⟨rfl, rfl⟩) (by omega) (by omega) (by omega), rfl, rfl,
        length_write [] (by omega)⟩
    · exact ⟨vm, ends_pure.2 ⟨rfl, rfl⟩, rfl, rfl, rfl⟩
  simp only [ends_bind_of_ok hfill]
  split
  · obtain ⟨data, hread⟩ := source_bytes_ends len (fun id hid => by rw [hfreed]; exact hbuf id hid) hsrc hpos
    exact ⟨_, mem_copy_ends hread (by omega) (by omega) (by omega)⟩
  · exact ⟨t, ends_pure.2 ⟨rfl, rfl⟩⟩

theorem returndatacopy_ends {len : Bytes}
    (hstack : vm.evm.stack.entries = [] :: pos :: len :: rest) (hgas : (beNat len + 31) / 32 * G_COPY ≤ vm.evm.gas)
    (hfreed : vm.freed = []) (hlen : MEM_LIMIT ≤ vm.evm.memory.len) (hdata : MEM_LIMIT ≤ vm.evm.memory.data.length)
    (hlimit : beNat len < MEM_LIMIT) :
    ∃ r vm', ends (op_datacopy (·.returned_source) true) vm r vm' ∧ r ≠ .error EVM_ERROR_OUT_OF_GAS := by
  obtain ⟨s, hs, hbind⟩ := pop_int_bind hstack
  have htop : (vm.withStack s).evm.stack.entries = pos :: len :: rest := hs
  obtain ⟨s', hs', hbind'⟩ := pop_int_bind htop
  have htop' : ((vm.withStack s).withStack s').evm.stack.entries = len :: rest := hs'
  obtain ⟨s'', -, hbind''⟩ := pop_int_bind htop'
  have hcut : min (beNat len) MEM_LIMIT = beNat len := by omega
  have hpaid : (beNat len + 31) / 32 * G_COPY ≤ (((vm.withStack s).withStack s').withStack s'').evm.gas := hgas
  obtain ⟨src, hsrc, hbytes⟩ : ∃ src, vm.evm.returned_source = src ∧ src.data.length = src.len := by
    refine ⟨_, rfl, ?_⟩
    unfold evm_t.returned_source
    cases vm.evm.last_returned with
    | none => rfl
    | some b => rfl
  have hsame : ∀ stack gas, evm_t.returned_source { vm.evm with stack := stack, gas := gas } = src := fun _ _ => hsrc
  unfold op_datacopy
  simp only [hbind, hbind', hbind'', hcut, ends_bind_of_ok (subgas_pays hpaid)]
  simp only [ends_getEvm_bind, Vm.withStack, hsame, true_and]
  split
  · exact ⟨_, _, ends_throw.2 ⟨rfl, rfl⟩, by decide⟩
  · next hin =>
    have hbuf : ∀ id ∈ src.buf, id ∉ vm.freed := by simp [hfreed]
    have hstart : min (beNat pos) MEM_LIMIT ≤ src.len := by omega
    generalize hvm : ({ vm with evm := { vm.evm with stack := s'', gas := vm.evm.gas - (beNat len + 31) / 32 * G_COPY } } : Vm) = t
    have hbuf' : ∀ id ∈ src.buf, id ∉ t.freed := by
      rw [← hvm]
      exact hbuf
    have hmem : t.evm.memory = vm.evm.memory := by rw [← hvm]
    obtain ⟨vm', hends⟩ := copy_ends hbuf' hbytes hstart hlimit (by rw [hmem]; exact hlen) (by rw [hmem]; exact hdata)
    refine ⟨_, vm', hends, ?_⟩
    intro h
    cases h

/-- A frame that copies to the start of its memory. -/
def copying (size : Nat) (pos len : Bytes) (hpos : pos.length ≤ 32) (hlen : len.length ≤ 32) : Vm :=
  let vm := Vm.ofStack ⟨[[], pos, len], [], by simp [EVM_STACK_LIMIT], by simp [hpos, hlen]⟩
  { vm with evm := { vm.evm with
      memory := { data := replicate MEM_LIMIT 0, len := MEM_LIMIT }
      gas := (MEM_LIMIT + 31) / 32 * G_COPY
      last_returned := some ⟨0, replicate size 0⟩ } }

theorem copying_ends (size : Nat) {len : Bytes} (hpos : pos.length ≤ 32) (hlen : len.length ≤ 32)
    (hlimit : beNat len < MEM_LIMIT) :
    ∃ r vm', ends (op_datacopy (·.returned_source) true) (copying size pos len hpos hlen) r vm' ∧
      r ≠ .error EVM_ERROR_OUT_OF_GAS := by
  have hgas : (beNat len + 31) / 32 * G_COPY ≤ (copying size pos len hpos hlen).evm.gas :=
    Nat.mul_le_mul_right _ (Nat.div_le_div_right (by omega))
  have hdata : MEM_LIMIT ≤ (copying size pos len hpos hlen).evm.memory.data.length := length_replicate.ge
  exact returndatacopy_ends rfl hgas rfl (le_refl _) hdata hlimit

theorem copy_checked_iff {size : Nat} {len : Bytes} (hpos : pos.length ≤ 32) (hlen : len.length ≤ 32) :
    CopyChecked size pos len ↔ StartsRight size (beNat pos) (beNat len) := by
  have hsize : ∀ h h', (copying size pos len h h').evm.lastReturned.length = size := fun _ _ => length_replicate
  constructor
  · intro hchecked
    -- a copy that can be paid shows which way it goes
    have hcopy : beNat len < MEM_LIMIT →
        (size ≤ min (beNat pos) MEM_LIMIT ↔ size < beNat pos + beNat len) := by
      intro hlimit
      obtain ⟨r, vm', hends, hgas⟩ := copying_ends size hpos hlen hlimit
      have hiff := hchecked _ vm' [] [] r (hsize hpos hlen) rfl hends hgas
      rcases returndatacopy_outcome rfl hends hgas with ⟨hbehind, rfl⟩ | ⟨hin, rfl, -⟩
      · rw [hsize] at hbehind
        exact ⟨fun _ => hiff.1 ⟨_, rfl⟩, fun _ => hbehind⟩
      · rw [hsize] at hin
        refine ⟨fun h => absurd h (by omega), fun h => ?_⟩
        obtain ⟨e, he⟩ := hiff.2 h
        cases he
    refine ⟨fun hover hlimit => (hcopy hlimit).2 hover, fun hin => ?_⟩
    by_contra hbehind
    have hzero : beNat len = 0 := by omega
    have hover := (hcopy (by rw [hzero]; decide)).1 (by omega)
    omega
  · rintro ⟨hover, hin⟩ vm vm' dst rest r rfl hstack hends hgas
    rcases returndatacopy_outcome hstack hends hgas with ⟨hbehind, rfl⟩ | ⟨hstart, rfl, hlimit⟩
    · refine ⟨fun _ => ?_, fun _ => ⟨_, rfl⟩⟩
      by_contra hle
      have := hin (by omega)
      omega
    · refine ⟨nofun, fun h => ?_⟩
      have := hover h (hlimit h)
      omega

/-! ## Both together -/

/-- The caller gets exactly what its frame returned if there is something, or nothing is left from before, and the output
range is not longer than the data or has zeros there; a copy of the data is checked right if it starts on the same side
of their end as it ends. -/
theorem return_data_iff {env : Env} {depth : Nat} {op : CallOp} {vm vm' : Vm} (hm : vm.evm.memory.WF)
    (h : ends (op.run env (evm_run env depth)) vm (.ok ()) vm') {size : Nat} {pos len : Bytes}
    (hpos : pos.length ≤ 32) (hlen : len.length ≤ 32) :
    (∃ c success ended, Callee env depth op vm c success ended ∧
      (CallReturns c.out_offset c.out_len (returned success ended) vm.evm vm'.evm ↔
        Unspoiled c.out_offset c.out_len success ended vm.evm)) ∧
    (CopyChecked size pos len ↔ StartsRight size (beNat pos) (beNat len)) :=
  ⟨call_op_returns_iff hm h, copy_checked_iff hpos hlen⟩

def codeEnv (code : Bytes) : Env :=
  { bareEnv with code_size := fun _ _ => .ok (int_to_bytes code.length), code_copy := fun _ _ _ => .ok code }

/-- A caller with one byte from an earlier call, and the operands of a `CALL` with two bytes of output. -/
def calling : Vm :=
  let vm := Vm.ofStack ⟨[[255, 255], [1, 1], [], [], [], [], [2]], [], by decide, by decide⟩
  { vm with
    evm := { vm.evm with gas := 100000, memory := ⟨9 :: 9 :: replicate 30 0, 32⟩, last_returned := some ⟨0, [7]⟩ }
    next_buf := 1 }

/-- The machine behind a run that ends. -/
def behind {α : Type} (x : M α) (vm : Vm) : Vm :=
  match x.run.run vm with
  | .ok (_, vm') => vm'
  | .error _ => vm

def called (code : Bytes) : Vm := behind (CallOp.run (codeEnv code) (evm_run (codeEnv code) 1) (.call .CALL)) calling

/-- The operands of the `CALL`, and the frame that it makes. -/
def calledArgs : CallArgs :=
  let account := replicate 18 0 ++ [1, 1]
  ⟨some account, account, [], [], replicate 20 0, replicate 20 0, 65535, .CALL, 0, 2⟩

def calledFrame (code : Bytes) : evm_t :=
  { code := { data := code, len := code.length }, address := calledArgs.code_address, account := calledArgs.code_address
    origin := calledArgs.origin, caller := calledArgs.caller }

def calledEnded (code : Bytes) : Vm :=
  let t := behind (CallOp.args (codeEnv code) (.call .CALL)) calling
  behind (run_call (codeEnv code) (evm_run (codeEnv code) 1) calledArgs.address calledArgs.code_address [] calledArgs.caller
    65535 .CALL) (t.entered (sub_frame t.evm (calledFrame code) [] [] .CALL))

/-- `RETURN` of the first `n` bytes of the memory. -/
def returnBytes (n : UInt8) : Bytes := [0x60, n, 0x60, 0, 0xF3]

/-- What the machine does with a frame that stops and with frames that return one byte and two bytes. -/
theorem calledRuns :
    (∀ code ∈ [[0x00], returnBytes 1, returnBytes 2],
      ends (CallOp.args (codeEnv code) (.call .CALL)) calling (.ok calledArgs)
        (behind (CallOp.args (codeEnv code) (.call .CALL)) calling) ∧
      evm_prepare_evm (codeEnv code) calledArgs.address calledArgs.code_address calledArgs.origin calledArgs.caller .CALL =
        .ok (calledFrame code) ∧
      ends (run_call (codeEnv code) (evm_run (codeEnv code) 1) calledArgs.address calledArgs.code_address []
        calledArgs.caller 65535 .CALL)
        ((behind (CallOp.args (codeEnv code) (.call .CALL)) calling).entered
          (sub_frame (behind (CallOp.args (codeEnv code) (.call .CALL)) calling).evm (calledFrame code) [] [] .CALL))
        (.ok (.ok ())) (calledEnded code)) ∧
    ends (CallOp.run (codeEnv (returnBytes 2)) (evm_run (codeEnv (returnBytes 2)) 1) (.call .CALL)) calling (.ok ())
      (called (returnBytes 2)) ∧
    (called [0x00]).evm.lastReturned ≠ returned (.ok ()) (calledEnded [0x00]) ∧
    (∀ n ∈ [1, 2], (returned (.ok ()) (calledEnded (returnBytes n))).length = n.toNat) ∧
    (calledEnded (returnBytes 2)).evm.return_data.isSome = true ∧
    (called (returnBytes 1)).evm.memory.tape.byte 1 ≠ calling.evm.memory.tape.byte 1 := by
  decide +kernel

theorem callee_calledEnded {code : Bytes} (h : code ∈ [[0x00], returnBytes 1, returnBytes 2]) :
    Callee (codeEnv code) 1 (.call .CALL) calling calledArgs (.ok ()) (calledEnded code) :=
  ⟨_, _, calledRuns.1 code h⟩

/-- The frame returns as many bytes as the caller asks for, and two bytes are copied up to the end of the data. -/
theorem return_data_of_call :
    CallReturns 0 2 (returned (.ok ()) (calledEnded (returnBytes 2))) calling.evm (called (returnBytes 2)).evm ∧
      CopyChecked 32 [30] [2] := by
  obtain ⟨-, hends, -, hcount, hhanded, -⟩ := calledRuns
  obtain ⟨⟨c, success, ended, hcallee, hreturns⟩, hcopy⟩ :=
    @return_data_iff _ _ _ _ _ ⟨by decide, by decide⟩ hends 32 [30] [2] (by decide) (by decide)
  obtain ⟨hc, hsuccess, hended⟩ := hcallee.unique (callee_calledEnded (by simp))
  rw [hc, hsuccess, hended] at hreturns
  refine ⟨hreturns.2 ⟨.inl ⟨rfl, hhanded⟩, fun _ i hlow hhigh => ?_⟩, hcopy.2 (by unfold StartsRight; decide)⟩
  rw [hcount 2 (by simp)] at hlow
  exact absurd hhigh (Nat.not_lt.2 hlow)

/-- The byte of an earlier call stays behind a frame that returns nothing, the second byte of the output range is
overwritten behind a frame that returns one byte, and a copy of two bytes from the last one on does not fail. -/
theorem return_data_spoiled :
    (Callee (codeEnv [0x00]) 1 (.call .CALL) calling calledArgs (.ok ()) (calledEnded [0x00]) ∧
      ¬ CallReturns 0 2 (returned (.ok ()) (calledEnded [0x00])) calling.evm (called [0x00]).evm) ∧
    (Callee (codeEnv (returnBytes 1)) 1 (.call .CALL) calling calledArgs (.ok ()) (calledEnded (returnBytes 1)) ∧
      ¬ CallReturns 0 2 (returned (.ok ()) (calledEnded (returnBytes 1))) calling.evm (called (returnBytes 1)).evm) ∧
    ¬ CopyChecked 32 [31] [2] := by
  obtain ⟨-, -, hleft, hcount, -, hsecond⟩ := calledRuns
  refine ⟨⟨callee_calledEnded (by simp), fun h => ?_⟩, ⟨callee_calledEnded (by simp), fun h => ?_⟩, fun h => ?_⟩
  · exact hleft h.last
  · have hbyte := h.beside 1 (.inr (by rw [hcount 1 (by simp)]; decide))
    exact hsecond hbyte
  · have hstart := (copy_checked_iff (by decide) (by decide)).1 h
    exact absurd hstart (by unfold StartsRight; decide)

end In3.Evm
