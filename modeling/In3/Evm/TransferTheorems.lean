import In3.Evm.SignedTheorems
import In3.Evm.Quiet
import In3.Lib.Cells
/-!
# Transfers of value

`transfer_value` brings the two accounts into the running frame, pays the gas, and then changes two balances. The first part
changes nothing that a frame sees, whether it ends with an error or not. The second part is a move on the ledger of the
balances that the frame sees, as long as the balance of the receiver does not pass 256 bits.
-/
open Lib Guarded Machine

namespace In3.Evm

def Vm.balance (env : Env) (vm : Vm) (adr : Bytes) : Nat := beNat ((view env vm.frames).balance adr)

def Vm.Sized (vm : Vm) : Prop := ∀ f ∈ vm.frames, ∀ adr ac, f.accounts.lookup adr = some ac → ac.balance.length = 32

/-- Balances and nonces of the environment have at most 32 bytes. -/
def Env.Sized (env : Env) : Prop :=
  ∀ adr b, env.balance adr = .ok b ∨ env.nonce adr = .ok b → (optimize_len b).length ≤ 32

variable {ac : account_t} {adr src : Bytes} {env : Env} {vm vm' : Vm} {α : Type}

theorem balance_of_seen (h : Seen env vm.frames vm'.frames) : vm'.balance env = vm.balance env := by
  funext adr
  rw [Vm.balance, Vm.balance, h.view_eq]

/-! ## The size of what is seen -/

theorem ok_uint256_set (h : src.length ≤ 32) : ok (uint256_set src) (padLeft 32 src) := by
  rw [uint256_set, ok_bind]
  exact ⟨(), ok_guard.2 h, ok_pure.2 rfl⟩

theorem length_uint256_set {w : Bytes} (h : ok (uint256_set src) w) : w.length = 32 := by
  simp only [uint256_set, ok_bind, ok_guard, ok_pure] at h
  obtain ⟨_, hle, rfl⟩ := h
  exact length_padLeft hle

theorem env_account_length {create : Bool}
    (h : ok (env_account env adr create) (some ac)) : ac.balance.length = 32 := by
  unfold env_account at h
  simp only [ok_bind] at h
  obtain ⟨b, -, c, -, n, -, h⟩ := h
  split at h
  · simp only [ok_bind, ok_pure, Option.some.injEq] at h
    obtain ⟨balance, hbalance, nonce, -, rfl⟩ := h
    exact length_uint256_set hbalance
  · simp at h

theorem env_balance_length (env : Env) (adr : Bytes) : (env.view.balance adr).length = 32 := by
  show (env.account adr).balance.length = 32
  unfold Env.account
  split
  · next ac hac => exact env_account_length hac
  · rfl

theorem view_balance_length {fs : List evm_t}
    (h : ∀ f ∈ fs, ∀ adr ac, f.accounts.lookup adr = some ac → ac.balance.length = 32) (adr : Bytes) :
    ((view env fs).balance adr).length = 32 := by
  induction fs with
  | nil => exact env_balance_length env adr
  | cons f fs ih =>
    have hview : (view env (f :: fs)).balance adr =
        ((f.accounts.lookup adr).map (·.balance)).getD ((view env fs).balance adr) := rfl
    rw [hview]
    rcases hac : f.accounts.lookup adr with _ | ac
    · exact ih fun g hg => h g (List.mem_cons_of_mem f hg)
    · exact h f List.mem_cons_self adr ac hac

/-! ## Runs that change nothing that is seen -/

def Sees (env : Env) {α : Type} (x : M α) : Prop := ∀ vm r vm', ends x vm r vm' → Seen env vm.frames vm'.frames

section
variable {env : Env} {α β : Type}

theorem Quietly.sees {x : M α} (h : Quietly env x) : Sees env x := by
  intro vm r vm' hends
  obtain ⟨_, -, hquiet⟩ := h vm r vm' hends
  exact hquiet.seen

theorem Sees.bind {x : M α} {f : α → M β} (hx : Sees env x) (hf : ∀ a, Sees env (f a)) : Sees env (x >>= f) := by
  intro vm r vm' h
  rcases ends_bind.1 h with ⟨a, t, hx', hf'⟩ | ⟨e, -, hx'⟩
  · exact (hx vm _ t hx').trans (hf a t r vm' hf')
  · exact hx vm _ vm' hx'

theorem pay_ends (env : Env) {g : Nat} {vm vm' : Vm} {r : Except Int Unit} (h : ends (pay g) vm r vm') :
    vm'.evm.accounts = vm.evm.accounts ∧ Seen env vm.frames vm'.frames := by
  unfold pay at h
  rw [ends_get_bind] at h
  split at h
  · have hquiet : Quietly env (subgas g) := quietly_subgas g
    have hseen := hquiet.sees vm r vm' h
    rcases subgas_ends h with ⟨-, -, rfl⟩ | ⟨-, -, rfl⟩
    · exact ⟨rfl, hseen⟩
    · exact ⟨rfl, hseen⟩
  · unfold atParent at h
    rw [ends_get_bind] at h
    rcases hparents : vm.parents with _ | ⟨parent, rest⟩
    · rw [hparents] at h
      exact absurd h ends_fault
    · rw [hparents] at h
      rw [ends_set_bind, ends_attempt_bind] at h
      obtain ⟨q, t, hsub, h⟩ := h
      obtain ⟨-, rfl⟩ := h
      have htail : Seen env (parent :: rest) (t.evm :: t.parents) := (quietly_subgas g).sees _ _ _ hsub
      refine ⟨rfl, ?_⟩
      unfold Vm.frames
      rw [hparents]
      exact Seen.cons (by rw [htail.view_eq]) htail

theorem sees_pay (g : Nat) : Sees env (pay g) := fun _ _ _ h => (pay_ends env h).2

theorem sees_new_receiver (to_account : Bytes) (ac_to : Option account_t) : Sees env (new_receiver env to_account ac_to) := by
  unfold new_receiver
  split
  · exact (quietly_pure _).sees
  · exact (sees_pay _).bind fun _ => (quietly_get_account _ _).sees.bind fun _ => (quietly_pure _).sees

end

/-! ## The two parts of a transfer -/

def prepare (env : Env) (from_account to_account value : Bytes) (base_gas : Nat) : M Unit := do
  let _ ← get_account env from_account true
  let ac_to ← get_account env to_account false
  checked (Guarded.guard (value.length ≤ 32) (.write value.length 32))
  new_receiver env to_account ac_to
  pay base_gas

def settle (from_account to_account value : Bytes) (is_call : Bool) : M Unit := do
  let ac_from ← own_account from_account
  if big_cmp ac_from.balance value < 0 then if is_call then return () else throw EVM_ERROR_BALANCE_TOO_LOW
  else
    let balance ← checked (big_sub ac_from.balance value 32)
    let balance ← checked (uint256_set balance)
    put_account from_account { ac_from with balance := balance }
    let ac_to ← own_account to_account
    let balance ← checked (big_add ac_to.balance value 32 32)
    let balance ← checked (uint256_set balance)
    put_account to_account { ac_to with balance := balance }

theorem transfer_value_eq (env : Env) (from_account to_account value : Bytes) (base_gas : Nat) (is_call : Bool) :
    transfer_value env from_account to_account value base_gas is_call =
      if big_is_zero value then pure ()
      else prepare env from_account to_account value base_gas >>= fun _ => settle from_account to_account value is_call := by
  unfold transfer_value prepare settle
  split
  · rfl
  · simp only [bind_assoc]

theorem big_is_zero_zero {value : Bytes} (h : big_is_zero value = true) : beNat value = 0 := by
  have hzero : optimize_len value = [0] := of_decide_eq_true h
  have hnat := beNat_stripZeros value
  rw [← optimize_len, hzero] at hnat
  exact hnat.symm

theorem sees_prepare (env : Env) (from_account to_account value : Bytes) (base_gas : Nat) :
    Sees env (prepare env from_account to_account value base_gas) := by
  refine (quietly_get_account _ _).sees.bind fun _ => (quietly_get_account _ _).sees.bind fun _ => ?_
  exact (quietly_guard _ _).sees.bind fun _ => (sees_new_receiver _ _).bind fun _ => sees_pay _

/-! ## The balances behind `settle` -/

theorem own_account_ends {r : Except Int account_t} :
    ends (own_account adr) vm r vm' ↔ ∃ ac, vm.evm.accounts.lookup adr = some ac ∧ r = .ok ac ∧ vm' = vm := by
  unfold own_account
  rw [ends_getEvm_bind]
  rcases vm.evm.accounts.lookup adr with _ | ac
  · simp
  · simp

theorem own_balance (env : Env) (h : vm.evm.accounts.lookup adr = some ac) :
    ac.balance = (view env vm.frames).balance adr := (accountOf_own _ h).balance

def Vm.withBalance (vm : Vm) (adr : Bytes) (ac : account_t) (balance : Bytes) : Vm :=
  { vm with evm := vm.evm.put adr { ac with balance := balance } }

theorem put_account_ends {balance : Bytes} :
    ends (put_account adr { ac with balance := balance }) vm (.ok ()) (vm.withBalance adr ac balance) :=
  ends_modifyEvm.2 ⟨rfl, rfl⟩

theorem view_withBalance (env : Env) (vm : Vm) (adr : Bytes) (ac : account_t) (balance : Bytes) :
    (view env (vm.withBalance adr ac balance).frames).balance = Function.update (view env vm.frames).balance adr balance := by
  funext a
  have hlook : (vm.withBalance adr ac balance).evm.accounts.lookup a =
      if a = adr then some { ac with balance := balance } else vm.evm.accounts.lookup a := by
    split
    · next h => rw [h]; exact AList.lookup_insert _
    · next h => exact AList.lookup_insert_ne h
  have hview : (view env (vm.withBalance adr ac balance).frames).balance a =
      ((((vm.withBalance adr ac balance).evm.accounts.lookup a).map (·.balance)).getD ((view env vm.parents).balance a)) := rfl
  rw [hview, hlook, Function.update_apply]
  split
  · rfl
  · rfl

theorem lookup_withBalance {a : Bytes} (adr : Bytes) (ac : account_t) (balance : Bytes)
    (h : (vm.evm.accounts.lookup a).isSome) : ((vm.withBalance adr ac balance).evm.accounts.lookup a).isSome := by
  by_cases ha : a = adr
  · rw [ha]
    have : (vm.withBalance adr ac balance).evm.accounts.lookup adr = some { ac with balance := balance } := AList.lookup_insert _
    rw [this]
    rfl
  · have : (vm.withBalance adr ac balance).evm.accounts.lookup a = vm.evm.accounts.lookup a := AList.lookup_insert_ne ha
    rw [this]
    exact h

/-- The two accounts are in the running frame. -/
def Vm.Ready (vm : Vm) (from_account to_account : Bytes) : Prop :=
  (vm.evm.accounts.lookup from_account).isSome ∧ (vm.evm.accounts.lookup to_account).isSome

/-- The balance of the receiver is cut to 256 bits. -/
def wrapped (bal : Bytes → Nat) (from_account to_account : Bytes) (v : Nat) : Bytes → Nat :=
  let taken := Function.update bal from_account (bal from_account - v)
  Function.update taken to_account ((taken to_account + v) % 2 ^ 256)

/-- The two outcomes of `settle`. -/
inductive Settled (env : Env) (from_account to_account value : Bytes) (is_call : Bool) (vm : Vm) :
    Except Int Unit → Vm → Prop where
  | low (h : vm.balance env from_account < beNat value) :
    Settled env from_account to_account value is_call vm
      (if is_call then .ok () else .error EVM_ERROR_BALANCE_TOO_LOW) vm
  | moved (vm' : Vm) (h : beNat value ≤ vm.balance env from_account)
      (hbal : vm'.balance env = wrapped (vm.balance env) from_account to_account (beNat value)) :
    Settled env from_account to_account value is_call vm (.ok ()) vm'

section
variable {env : Env} {from_account to_account value : Bytes} {is_call : Bool} {vm vm' : Vm} {r : Except Int Unit}

theorem set_balance {x : Checked Bytes} {b : Bytes} (hx : ok x b) (hb : b.length ≤ 32) {f : Bytes → M Unit} :
    ends (checked x >>= fun b => checked (uint256_set b) >>= f) vm r vm' ↔ ends (f (padLeft 32 b)) vm r vm' := by
  rw [ends_bind_of_ok (ends_checked_ok.2 ⟨hx, rfl⟩),
    ends_bind_of_ok (ends_checked_ok.2 ⟨ok_uint256_set hb, rfl⟩)]

theorem settle_ends (is_call : Bool) (hsized : ∀ a, ((view env vm.frames).balance a).length = 32) (hvalue : value.length ≤ 32)
    (hready : vm.Ready from_account to_account) :
    ∃ r vm', ends (settle from_account to_account value is_call) vm r vm' ∧
      Settled env from_account to_account value is_call vm r vm' := by
  obtain ⟨ac_from, hfrom⟩ := Option.isSome_iff_exists.1 hready.1
  have hbal := own_balance env hfrom
  have hnat : beNat ac_from.balance = vm.balance env from_account := by rw [Vm.balance, hbal]
  unfold settle
  by_cases hlow : big_cmp ac_from.balance value < 0
  · have hlt := (big_cmp_iff _ _).1.1 hlow
    rw [hnat] at hlt
    refine ⟨_, vm, ?_, .low hlt⟩
    rw [ends_bind_of_ok (own_account_ends.2 ⟨ac_from, hfrom, rfl, rfl⟩), if_pos hlow]
    cases is_call
    · exact ends_throw.2 ⟨rfl, rfl⟩
    · exact ends_pure.2 ⟨rfl, rfl⟩
  · have hle : beNat value ≤ vm.balance env from_account := by
      rw [(big_cmp_iff _ _).1] at hlow
      omega
    have hlen : ac_from.balance.length ≤ 32 := by rw [hbal, hsized]
    obtain ⟨taken, htaken, htakenLen, -, htakenNat⟩ := big_sub_ok (le_refl 32) hlen hvalue
    -- the receiver is looked up behind the first change, since it may be the sender
    have hto := lookup_withBalance from_account ac_from (padLeft 32 taken) hready.2
    obtain ⟨ac_to, hto⟩ := Option.isSome_iff_exists.1 hto
    obtain ⟨given, hgiven, hgivenLen, -, hgivenNat⟩ := big_add_ok ac_to.balance value (le_refl 32) (by decide)
    refine ⟨.ok (), (vm.withBalance from_account ac_from (padLeft 32 taken)).withBalance to_account ac_to (padLeft 32 given), ?_,
      .moved _ hle ?_⟩
    · rw [ends_bind_of_ok (own_account_ends.2 ⟨ac_from, hfrom, rfl, rfl⟩), if_neg hlow, set_balance htaken htakenLen,
        ends_bind_of_ok put_account_ends, ends_bind_of_ok (own_account_ends.2 ⟨ac_to, hto, rfl, rfl⟩),
        set_balance hgiven hgivenLen]
      exact put_account_ends
    · have htake : beNat taken = vm.balance env from_account - beNat value := by
        have hlt := beNat_lt ac_from.balance
        rw [htakenNat, hnat]
        have hpow : 256 ^ ac_from.balance.length ≤ 256 ^ 32 := Nat.pow_le_pow_right (by norm_num) hlen
        rw [show vm.balance env from_account + 256 ^ 32 - beNat value =
          (vm.balance env from_account - beNat value) + 256 ^ 32 by omega, Nat.add_mod_right, Nat.mod_eq_of_lt (by omega)]
      funext a
      have htaken' : ∀ a, beNat ((view env (vm.withBalance from_account ac_from (padLeft 32 taken)).frames).balance a) =
          Function.update (vm.balance env) from_account (vm.balance env from_account - beNat value) a := by
        intro a
        rw [view_withBalance, Function.update_apply, Function.update_apply]
        split
        · rw [beNat_padLeft, htake]
        · rfl
      have hreceiver : beNat ac_to.balance =
          Function.update (vm.balance env) from_account (vm.balance env from_account - beNat value) to_account := by
        rw [own_balance env hto, htaken']
      rw [Vm.balance, view_withBalance, wrapped, Function.update_apply, Function.update_apply]
      split
      · rw [beNat_padLeft, hgivenNat, hreceiver, pow_word]
      · exact htaken' a

theorem settle_outcome (hsized : ∀ a, ((view env vm.frames).balance a).length = 32) (hvalue : value.length ≤ 32)
    (hready : vm.Ready from_account to_account)
    (h : ends (settle from_account to_account value is_call) vm r vm') :
    Settled env from_account to_account value is_call vm r vm' := by
  obtain ⟨q, t, hends, hsettled⟩ := settle_ends is_call hsized hvalue hready
  obtain ⟨rfl, rfl⟩ := ends_unique h hends
  exact hsettled

end

/-! ## The accounts behind `prepare` -/

section
variable {env : Env} {adr : Bytes} {create : Bool} {vm vm' : Vm} {found : Option account_t} {gs : List evm_t}

theorem evm_get_account_keeps {f g : evm_t} {fs : List evm_t}
    (h : ok (evm_get_account env adr create (f :: fs)) (found, g :: gs)) {a : Bytes} (ha : (f.accounts.lookup a).isSome) :
    (g.accounts.lookup a).isSome := by
  have hput : ∀ ac, ((f.put adr ac).accounts.lookup a).isSome := by
    intro ac
    rw [put_accounts]
    by_cases hadr : a = adr
    · rw [hadr, AList.lookup_insert]
      rfl
    · rwa [AList.lookup_insert_ne hadr]
  cases account_step.1 h with
  | own => exact ha
  | copied => exact hput _
  | made => exact hput _
  | missing => exact ha

theorem get_account_ends (h : ends (get_account env adr create) vm (.ok found) vm') :
    (found.isSome → (vm'.evm.accounts.lookup adr).isSome) ∧ (create = true → found.isSome) ∧
      ∀ a, (vm.evm.accounts.lookup a).isSome → (vm'.evm.accounts.lookup a).isSome := by
  obtain ⟨g, gs, hok, rfl⟩ := withFrames_ok.1 h
  have hgot := get_account_ok hok
  refine ⟨fun hsome => ?_, fun hcreate => ?_, fun a => evm_get_account_keeps hok⟩
  · obtain ⟨ac, rfl⟩ := Option.isSome_iff_exists.1 hsome
    obtain ⟨-, _, _, hframes, hlook⟩ := hgot.own ac rfl
    cases hframes
    rw [hlook]
    rfl
  · subst hcreate
    obtain ⟨ac, rfl⟩ := hgot.created (List.cons_ne_nil _ _)
    rfl

theorem get_account_of_ok
    (h : ok (evm_get_account env adr create vm.frames) (found, gs)) :
    ∃ vm', ends (get_account env adr create) vm (.ok found) vm' := by
  rcases gs with _ | ⟨g, gs⟩
  · cases (get_account_ok h).same
  · exact ⟨_, withFrames_ok.2 ⟨g, gs, h, rfl⟩⟩

theorem prepare_ready {from_account to_account value : Bytes} {base_gas : Nat}
    (h : ends (prepare env from_account to_account value base_gas) vm (.ok ()) vm') :
    vm'.Ready from_account to_account := by
  simp only [prepare, ends_bind_ok] at h
  obtain ⟨_, vm1, hget1, ac_to, vm2, hget2, _, _, hguard, _, vm3, hnew, hpay⟩ := h
  obtain ⟨-, rfl⟩ := ends_checked_ok.1 hguard
  obtain ⟨hsome1, hcreated, -⟩ := get_account_ends hget1
  obtain ⟨hsome2, -, hkeeps2⟩ := get_account_ends hget2
  have hfrom2 := hkeeps2 _ (hsome1 (hcreated rfl))
  have haccounts := (pay_ends env hpay).1
  unfold Vm.Ready
  rw [haccounts]
  unfold new_receiver at hnew
  rcases ac_to with _ | ac_to
  · simp only [ends_bind_ok] at hnew
    obtain ⟨_, vm4, hpay', _, vm5, hget3, hend⟩ := hnew
    obtain ⟨-, rfl⟩ := ends_pure.1 hend
    obtain ⟨hsome3, hcreated3, hkeeps3⟩ := get_account_ends hget3
    rw [← (pay_ends env hpay').1] at hfrom2
    exact ⟨hkeeps3 _ hfrom2, hsome3 (hcreated3 rfl)⟩
  · obtain ⟨-, rfl⟩ := ends_pure.1 hnew
    exact ⟨hfrom2, hsome2 rfl⟩

end

/-! ## Every transfer ends -/

/-- The run ends from every state. -/
def Ends {α : Type} (x : M α) : Prop := ∀ vm, ∃ r vm', ends x vm r vm'

theorem Ends.bind {β : Type} {x : M α} {f : α → M β} (hx : Ends x) (hf : ∀ a, Ends (f a)) : Ends (x >>= f) := by
  intro vm
  obtain ⟨r, t, hx'⟩ := hx vm
  rcases r with e | a
  · exact ⟨.error e, t, ends_bind.2 (.inr ⟨e, rfl, hx'⟩)⟩
  · obtain ⟨q, u, hf'⟩ := hf a t
    exact ⟨q, u, (ends_bind_of_ok hx').2 hf'⟩

theorem ends_pure_any (a : α) : Ends (pure a : M α) := fun vm => ⟨.ok a, vm, ends_pure.2 ⟨rfl, rfl⟩⟩

theorem ends_safe {x : Checked α} (h : safe x) : Ends (checked x) := by
  intro vm
  rcases hx : x.run with f | e | a
  · exact absurd hx (h f)
  · exact ⟨.error e, vm, ends_ofGuarded_error.2 ⟨hx, rfl⟩⟩
  · exact ⟨.ok a, vm, ends_checked_ok.2 ⟨hx, rfl⟩⟩

theorem ends_subgas (g : Nat) : Ends (subgas g) := by
  intro vm
  by_cases hgas : vm.evm.gas < g
  · obtain ⟨vm', hfails⟩ := subgas_fails hgas
    exact ⟨_, vm', hfails⟩
  · exact ⟨_, _, subgas_pays (Nat.le_of_not_lt hgas)⟩

theorem ends_pay (g : Nat) : Ends (pay g) := by
  intro vm
  unfold pay
  by_cases hparents : vm.parents = []
  · obtain ⟨r, vm', h⟩ := ends_subgas g vm
    refine ⟨r, vm', ?_⟩
    rw [ends_get_bind, if_pos hparents]
    exact h
  · obtain ⟨parent, rest, hcons⟩ := List.exists_cons_of_ne_nil hparents
    obtain ⟨q, t, h⟩ := ends_subgas g { vm with evm := parent, parents := rest }
    refine ⟨q, { t with evm := vm.evm, parents := t.evm :: t.parents }, ?_⟩
    rw [ends_get_bind, if_neg hparents, atParent, ends_get_bind, hcons]
    rw [ends_set_bind, ends_attempt_bind]
    refine ⟨q, t, h, ?_⟩
    exact ends_ofExcept.2 ⟨rfl, rfl⟩

section
variable {env : Env}

theorem safe_ofEnv {α : Type} (r : Except Int α) : safe (ofEnv r) := by
  intro f hf
  cases hf

theorem safe_env_account (h : env.Sized) (adr : Bytes) (create : Bool) : safe (env_account env adr create) := by
  refine safe_bind.2 ⟨safe_ofEnv _, fun balance hbalance => ?_⟩
  refine safe_bind.2 ⟨safe_ofEnv _, fun code_size _ => ?_⟩
  refine safe_bind.2 ⟨safe_ofEnv _, fun nonce hnonce => ?_⟩
  have hb : (optimize_len balance).length ≤ 32 := h adr balance (.inl (Except.ok.inj hbalance))
  have hn : (optimize_len nonce).length ≤ 32 := h adr nonce (.inr (Except.ok.inj hnonce))
  dsimp only
  split
  · simp only [uint256_set, faultsIn_bind, faultsIn_guard, faultsIn_pure, hb, hn, not_true_eq_false,
      false_imp_iff, implies_true, and_true]
  · exact faultsIn_pure

theorem safe_get_account (h : env.Sized) (adr : Bytes) (create : Bool) (fs : List evm_t) :
    safe (evm_get_account env adr create fs) := by
  induction fs with
  | nil => exact faultsIn_pure
  | cons f fs ih =>
    rw [evm_get_account]
    split
    · exact faultsIn_pure
    · refine safe_bind.2 ⟨ih, ?_⟩
      rintro ⟨found, ps⟩ -
      rcases found with _ | ac
      · refine safe_bind.2 ⟨safe_env_account h adr create, fun ac _ => ?_⟩
        rcases ac with _ | ac
        · exact faultsIn_pure
        · exact faultsIn_pure
      · exact faultsIn_pure

theorem ends_get_account (h : env.Sized) (adr : Bytes) (create : Bool) : Ends (get_account env adr create) := by
  intro vm
  rcases hx : (evm_get_account env adr create vm.frames).run with f | e | ⟨found, gs⟩
  · exact absurd hx (safe_get_account h adr create vm.frames f)
  · exact ⟨.error e, vm, withFrames_ends.2 (.inr ⟨⟨e, rfl, hx⟩, rfl⟩)⟩
  · obtain ⟨vm', hends⟩ := get_account_of_ok hx
    exact ⟨.ok found, vm', hends⟩

theorem ends_prepare (h : env.Sized) {value : Bytes} (hvalue : value.length ≤ 32) (from_account to_account : Bytes)
    (base_gas : Nat) : Ends (prepare env from_account to_account value base_gas) := by
  refine (ends_get_account h _ _).bind fun _ => (ends_get_account h _ _).bind fun ac_to => ?_
  refine (ends_safe (faultsIn_guard.2 fun hlong => hlong hvalue)).bind fun _ => Ends.bind ?_ fun _ => ends_pay _
  rcases ac_to with _ | ac_to
  · exact (ends_pay _).bind fun _ => (ends_get_account h _ _).bind fun _ => ends_pure_any _
  · exact ends_pure_any _

end

/-! ## Accounts with a balance are found -/

section
variable {env : Env} {adr : Bytes} {create : Bool}

theorem env_balance_default (h : ∀ ac, (env_account env adr true).run ≠ .ok (.ok (some ac))) :
    env.view.balance adr = List.replicate 32 0 := by
  show (env.account adr).balance = _
  unfold Env.account
  split
  · next ac hac => exact absurd hac (h ac)
  · rfl

theorem env_account_found (h : beNat (env.view.balance adr) ≠ 0) : ∃ ac, ok (env_account env adr create) (some ac) := by
  rcases hrun : (env_account env adr true).run with f | e | ac
  · rw [env_balance_default (by simp [hrun])] at h
    exact absurd rfl h
  · rw [env_balance_default (by simp [hrun])] at h
    exact absurd rfl h
  rcases ac with _ | ac
  · exact absurd hrun env_account_create
  have hbalance : env.view.balance adr = ac.balance := by simp [Env.view, Env.account, hrun]
  have hok : ok (env_account env adr true) (some ac) := hrun
  refine ⟨ac, ?_⟩
  unfold env_account at hok ⊢
  simp only [ok_bind, true_or, if_true] at hok ⊢
  obtain ⟨b, hb, c, hc, n, hn, w, hw, hrest⟩ := hok
  refine ⟨b, hb, c, hc, n, hn, ?_⟩
  -- a balance that is not zero has a value
  have hac : ac.balance = w := by
    obtain ⟨_, _, hac⟩ := hrest
    rw [← Option.some.inj (ok_pure.1 hac)]
  have hvalue : has_value (optimize_len b) = true := by
    have hnat : beNat (optimize_len b) ≠ 0 := by
      simp only [uint256_set, ok_bind, ok_pure] at hw
      obtain ⟨_, _, hw⟩ := hw
      rwa [hbalance, hac, ← hw, beNat_padLeft] at h
    have hnonzero : ¬ (optimize_len b = [] ∨ optimize_len b = [0]) := by
      rintro (hnil | hzero)
      · exact hnat (by rw [hnil]; rfl)
      · exact hnat (by rw [hzero]; rfl)
    unfold has_value
    rcases hopt : optimize_len b with _ | ⟨x, _ | ⟨y, t⟩⟩
    · exact absurd (.inl hopt) hnonzero
    · have hx : x ≠ 0 := fun hx => hnonzero (.inr (by rw [hopt, hx]))
      simp [hx]
    · simp
  rw [if_pos (.inr (.inl hvalue)), ok_bind]
  exact ⟨w, hw, by rwa [ok_bind]⟩

theorem get_account_found (create : Bool) {fs : List evm_t} (hfs : fs ≠ []) (h : beNat ((view env fs).balance adr) ≠ 0) :
    ∃ ac gs, ok (evm_get_account env adr create fs) (some ac, gs) := by
  induction fs with
  | nil => exact absurd rfl hfs
  | cons f fs ih =>
    rcases hown : f.accounts.lookup adr with _ | ac
    · have hbehind : (view env (f :: fs)).balance adr = (view env fs).balance adr := by
        simp [evm_t.over, hown]
      rw [hbehind] at h
      rcases fs with _ | ⟨f', fs⟩
      · obtain ⟨ac, hac⟩ := env_account_found h
        exact ⟨ac, _, account_step.2 (.made hown (ok_pure.2 rfl) hac)⟩
      · obtain ⟨ac, gs, hok⟩ := ih (List.cons_ne_nil _ _) h
        exact ⟨_, _, account_step.2 (.copied hown hok)⟩
    · exact ⟨ac, _, account_step.2 (.own hown)⟩

theorem pay_zero (vm : Vm) : ∃ vm', ends (pay 0) vm (.ok ()) vm' := by
  obtain ⟨r, vm', h⟩ := ends_pay 0 vm
  rcases r with e | u
  · unfold pay at h
    rw [ends_get_bind] at h
    split at h
    · rcases subgas_ends h with ⟨-, hr, -⟩ | ⟨hlt, -⟩
      · cases hr
      · exact absurd hlt (Nat.not_lt_zero _)
    · unfold atParent at h
      rw [ends_get_bind] at h
      split at h
      · exact absurd h ends_fault
      · rw [ends_set_bind, ends_attempt_bind] at h
        obtain ⟨q, t, hsub, h⟩ := h
        rw [ends_modify_bind, ends_ofExcept] at h
        rcases subgas_ends hsub with ⟨-, hq, -⟩ | ⟨hlt, -⟩
        · rw [hq] at h
          cases h.1
        · exact absurd hlt (Nat.not_lt_zero _)
  · exact ⟨vm', h⟩

theorem prepare_found {from_account to_account value : Bytes} {vm : Vm} (hvalue : value.length ≤ 32)
    (hfrom : vm.balance env from_account ≠ 0) (hto : vm.balance env to_account ≠ 0) :
    ∃ vm', ends (prepare env from_account to_account value 0) vm (.ok ()) vm' := by
  obtain ⟨ac1, gs1, hok1⟩ := get_account_found true (List.cons_ne_nil vm.evm vm.parents) hfrom
  obtain ⟨vm1, hget1⟩ := get_account_of_ok hok1
  have hquiet : Quietly env (get_account env from_account true) := quietly_get_account _ _
  have hseen := hquiet.sees _ _ _ hget1
  have hto1 : beNat ((view env vm1.frames).balance to_account) ≠ 0 := by
    rw [← hseen.view_eq]
    exact hto
  obtain ⟨ac2, gs2, hok2⟩ := get_account_found false (List.cons_ne_nil vm1.evm vm1.parents) hto1
  obtain ⟨vm2, hget2⟩ := get_account_of_ok hok2
  obtain ⟨vm3, hpay⟩ := pay_zero vm2
  refine ⟨vm3, ?_⟩
  unfold prepare
  rw [ends_bind_of_ok hget1, ends_bind_of_ok hget2,
    ends_bind_of_ok (ends_checked_ok.2 ⟨(ok_guard (u := ())).2 hvalue, rfl⟩)]
  exact hpay

end

/-! ## Transfers -/

section
variable {env : Env} {vm vm' : Vm} {from_account to_account value : Bytes} {base_gas : Nat} {is_call : Bool} {r : Except Int Unit}

theorem transfer_outcome (hsized : vm.Sized) (hvalue : value.length ≤ 32)
    (h : ends (transfer_value env from_account to_account value base_gas is_call) vm r vm') :
    (vm'.balance env = vm.balance env ∧ ((∃ e, r = .error e) ∨ beNat value = 0 ∨
        vm.balance env from_account < beNat value ∧ is_call = true)) ∨
      (r = .ok () ∧ beNat value ≤ vm.balance env from_account ∧
        vm'.balance env = wrapped (vm.balance env) from_account to_account (beNat value)) := by
  rw [transfer_value_eq] at h
  split at h
  · next hzero =>
    obtain ⟨-, rfl⟩ := ends_pure.1 h
    exact .inl ⟨rfl, .inr (.inl (big_is_zero_zero hzero))⟩
  · rcases ends_bind.1 h with ⟨_, t, hprepare, hsettle⟩ | ⟨e, rfl, hprepare⟩
    · have hseen := sees_prepare _ _ _ _ _ _ _ _ hprepare
      have hlength : ∀ a, ((view env t.frames).balance a).length = 32 := by
        rw [← hseen.view_eq]
        exact view_balance_length hsized
      have hbal := balance_of_seen hseen
      rcases settle_outcome hlength hvalue (prepare_ready hprepare) hsettle with hlow | ⟨_, hle, hmoved⟩
      · refine .inl ⟨hbal, ?_⟩
        rw [hbal] at hlow
        cases is_call
        · exact .inl ⟨_, rfl⟩
        · exact .inr (.inr ⟨hlow, rfl⟩)
      · rw [hbal] at hle hmoved
        exact .inr ⟨rfl, hle, hmoved⟩
    · exact .inl ⟨balance_of_seen (sees_prepare _ _ _ _ _ _ _ _ hprepare), .inl ⟨e, rfl⟩⟩

structure TransferRight (env : Env) (vm : Vm) (from_account to_account value : Bytes) (base_gas : Nat) (is_call : Bool) :
    Prop where
  ends : env.Sized → ∃ r vm', Machine.ends (transfer_value env from_account to_account value base_gas is_call) vm r vm'
  kept : ∀ r vm', Machine.ends (transfer_value env from_account to_account value base_gas is_call) vm r vm' →
    ((∃ e, r = .error e) ∨ vm.balance env from_account < beNat value) → vm'.balance env = vm.balance env
  refused : ∀ r vm', Machine.ends (transfer_value env from_account to_account value base_gas is_call) vm r vm' →
    vm.balance env from_account < beNat value → (∃ e, r = .error e) ∨ r = .ok () ∧ is_call = true
  moved : ∀ vm', Machine.ends (transfer_value env from_account to_account value base_gas is_call) vm (.ok ()) vm' →
    beNat value ≤ vm.balance env from_account →
      Moved (vm.balance env) (vm'.balance env) from_account to_account (beNat value)
  sum : ∀ r vm', Machine.ends (transfer_value env from_account to_account value base_gas is_call) vm r vm' →
    ∀ S : Finset Bytes, from_account ∈ S → to_account ∈ S → ∑ a ∈ S, vm'.balance env a = ∑ a ∈ S, vm.balance env a

theorem transfer_ends (hsized : vm.Sized) (hvalue : value.length ≤ 32) (henv : env.Sized) :
    ∃ r vm', Machine.ends (transfer_value env from_account to_account value base_gas is_call) vm r vm' := by
  rw [transfer_value_eq]
  split
  · exact ends_pure_any _ vm
  · obtain ⟨r, t, hprepare⟩ := ends_prepare henv hvalue from_account to_account base_gas vm
    rcases r with e | u
    · exact ⟨.error e, t, ends_bind.2 (.inr ⟨e, rfl, hprepare⟩)⟩
    · have hlength : ∀ a, ((view env t.frames).balance a).length = 32 := by
        rw [← (sees_prepare _ _ _ _ _ _ _ _ hprepare).view_eq]
        exact view_balance_length hsized
      obtain ⟨q, vm', hsettle, -⟩ := settle_ends is_call hlength hvalue (prepare_ready hprepare)
      exact ⟨q, vm', (ends_bind_of_ok hprepare).2 hsettle⟩

theorem balance_lt (env : Env) (hsized : vm.Sized) (adr : Bytes) : vm.balance env adr < 2 ^ 256 := by
  have hlt := beNat_lt ((view env vm.frames).balance adr)
  rwa [view_balance_length hsized] at hlt

theorem moved_wrapped {bal : Bytes → Nat} {v : Nat} (hle : v ≤ bal from_account) (hbound : bal from_account < 2 ^ 256)
    (hroom : from_account = to_account ∨ bal to_account + v < 2 ^ 256) :
    Moved bal (wrapped bal from_account to_account v) from_account to_account v := by
  refine ⟨hle, ?_⟩
  have hlt : Function.update bal from_account (bal from_account - v) to_account + v < 2 ^ 256 := by
    rw [Function.update_apply]
    split
    · omega
    · next hne =>
      rcases hroom with heq | hroom
      · exact absurd heq.symm hne
      · exact hroom
  rw [wrapped, Nat.mod_eq_of_lt hlt]

theorem moved_zero (bal : Bytes → Nat) (s t : Bytes) : Moved bal bal s t 0 :=
  ⟨Nat.zero_le _, by simp⟩

theorem transfer_right (hsized : vm.Sized) (hvalue : value.length ≤ 32)
    (hroom : from_account = to_account ∨ vm.balance env from_account < beNat value ∨
      vm.balance env to_account + beNat value < 2 ^ 256) :
    TransferRight env vm from_account to_account value base_gas is_call := by
  have hmoved : beNat value ≤ vm.balance env from_account →
      Moved (vm.balance env) (wrapped (vm.balance env) from_account to_account (beNat value)) from_account to_account
        (beNat value) := by
    intro hle
    refine moved_wrapped hle (balance_lt env hsized _) ?_
    rcases hroom with heq | hlow | hroom
    · exact .inl heq
    · omega
    · exact .inr hroom
  refine ⟨transfer_ends hsized hvalue, ?_, ?_, ?_, ?_⟩
  · rintro r vm' h hkept
    rcases transfer_outcome hsized hvalue h with ⟨hbal, -⟩ | ⟨rfl, hle, -⟩
    · exact hbal
    · rcases hkept with ⟨e, he⟩ | hlow
      · cases he
      · omega
  · intro r vm' h hlow
    rcases transfer_outcome hsized hvalue h with ⟨-, herr | hzero | ⟨-, hcall⟩⟩ | ⟨-, hle, -⟩
    · exact .inl herr
    · omega
    · rcases r with e | u
      · exact .inl ⟨e, rfl⟩
      · exact .inr ⟨rfl, hcall⟩
    · omega
  · intro vm' h hle
    rcases transfer_outcome hsized hvalue h with ⟨hbal, ⟨e, he⟩ | hzero | ⟨hlow, -⟩⟩ | ⟨-, -, hbal⟩
    · cases he
    · rw [hbal, hzero]
      exact moved_zero _ _ _
    · omega
    · rw [hbal]
      exact hmoved hle
  · intro r vm' h S hs ht
    rcases transfer_outcome hsized hvalue h with ⟨hbal, -⟩ | ⟨-, hle, hbal⟩
    · rw [hbal]
    · rw [hbal]
      exact (hmoved hle).sum_eq hs ht

theorem transfer_wraps (hsized : vm.Sized) (hvalue : value.length ≤ 32) (hne : from_account ≠ to_account)
    (hle : beNat value ≤ vm.balance env from_account) (hover : 2 ^ 256 ≤ vm.balance env to_account + beNat value) :
    ¬ TransferRight env vm from_account to_account value 0 is_call := by
  intro hright
  have hbound := balance_lt env hsized to_account
  have hshort := beNat_lt_word hvalue
  have hfrom : vm.balance env from_account ≠ 0 := by omega
  have hto : vm.balance env to_account ≠ 0 := by omega
  obtain ⟨t, hprepare⟩ := prepare_found hvalue hfrom hto
  have hseen := sees_prepare _ _ _ _ _ _ _ _ hprepare
  have hlength : ∀ a, ((view env t.frames).balance a).length = 32 := by
    rw [← hseen.view_eq]
    exact view_balance_length hsized
  obtain ⟨q, vm', hsettle, hsettled⟩ := settle_ends is_call hlength hvalue (prepare_ready hprepare)
  have hbal := balance_of_seen hseen
  rcases hsettled with hlow | ⟨_, -, hmoved⟩
  · rw [hbal] at hlow
    omega
  · have hends : ends (transfer_value env from_account to_account value 0 is_call) vm (.ok ()) vm' := by
      rw [transfer_value_eq, if_neg, ends_bind_of_ok hprepare]
      · exact hsettle
      · intro hzero
        have := big_is_zero_zero hzero
        omega
    obtain ⟨-, hright⟩ := hright.moved vm' hends hle
    -- the balance of the receiver is smaller than what it should be
    have hto := congrFun hright to_account
    rw [hmoved, hbal, wrapped, Function.update_self, Function.update_self, Function.update_of_ne hne.symm] at hto
    omega

/-- Every transfer conserves the balances if and only if the receiver's balance stays below 2^256. -/
theorem transfer_iff (hsized : vm.Sized) (hvalue : value.length ≤ 32) :
    (∀ base_gas is_call, TransferRight env vm from_account to_account value base_gas is_call) ↔
      from_account = to_account ∨ vm.balance env from_account < beNat value ∨
        vm.balance env to_account + beNat value < 2 ^ 256 := by
  constructor
  · intro hright
    by_contra hnot
    simp only [not_or, not_lt] at hnot
    obtain ⟨hne, hle, hover⟩ := hnot
    exact transfer_wraps hsized hvalue hne hle hover (hright 0 false)
  · intro hroom base_gas is_call
    exact transfer_right hsized hvalue hroom

end

/-- The account 1 has five, and all others have the balance that is given here. -/
def richEnv (others : Bytes) : Env where
  balance adr := if adr = List.replicate 20 1 then .ok [5] else .ok others
  nonce _ := .ok []
  code_size _ _ := .ok []
  code_copy _ _ _ := .ok []
  code_hash _ _ _ := .ok []
  blockhash _ := .ok []
  blockheader := .ok []
  storage _ _ := .ok []
  keccak := Hash.ofTable []
  precompiled _ _ := none

theorem ofStack_sized (s : Stack) : (Vm.ofStack s).Sized := by
  intro f hf adr ac hac
  obtain rfl := List.mem_singleton.1 hf
  cases hac

theorem transfer_of_three :
    TransferRight (richEnv [7]) (Vm.ofStack Stack.empty) (List.replicate 20 1) (List.replicate 20 2) [3] 0 false :=
  (transfer_iff (ofStack_sized _) (by decide)).2 (.inr (.inr (by decide))) 0 false

/-- One more than 2^256 - 1 is a balance of zero. -/
theorem transfer_to_full_account :
    ¬ TransferRight (richEnv (List.replicate 32 255)) (Vm.ofStack Stack.empty) (List.replicate 20 1) (List.replicate 20 2) [1] 0
      false :=
  transfer_wraps (ofStack_sized _) (by decide) (by decide) (by decide) (by decide)

end In3.Evm
