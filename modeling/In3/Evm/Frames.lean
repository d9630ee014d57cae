import In3.Evm.MemoryTheorems
import In3.Evm.TransferTheorems
/-!
# The frames that wait

A frame that waits for a sub call may get and lose gas, refunds, logs and copies of accounts, and
nothing else (`Waiting`). What it sees stays as well, as long as no word is created for an account of
which the environment shows another word than for the outermost one (`Event.Calm`): `op_sstore` makes
such a word in every frame.
-/
open Lib Guarded Machine List

namespace In3.Evm

/-! ## What changes in a frame that waits -/

/-- What may change in a frame that waits. -/
def Waiting (f g : evm_t) : Prop := g = { f with accounts := g.accounts, gas := g.gas, refund := g.refund, logs := g.logs }

theorem Waiting.refl (f : evm_t) : Waiting f f := rfl

variable {P : Prop} {env : Env} {f g : evm_t} {fs gs : List evm_t} {i j : Nat} {new : List Event} {o : Option Int}
  {vm vm' : Vm}

theorem Waiting.trans {h : evm_t} (hfg : Waiting f g) (hgh : Waiting g h) : Waiting f h := by
  unfold Waiting at *
  rw [hgh, hfg]

theorem SameFrame.waiting (h : SameFrame f g) : Waiting f g := by
  unfold Waiting
  rw [h]

theorem waiting_refl (fs : List evm_t) : List.Forall₂ Waiting fs fs := forall₂_same.2 fun f _ => Waiting.refl f

theorem waiting_trans {hs : List evm_t} (h : List.Forall₂ Waiting fs gs) (h' : List.Forall₂ Waiting gs hs) :
    List.Forall₂ Waiting fs hs := by
  induction h generalizing hs with
  | nil =>
    cases h'
    exact .nil
  | cons hfg _ ih =>
    cases h' with
    | cons hgh ht => exact .cons (hfg.trans hgh) (ih ht)

theorem Seen.drop (h : Seen env fs gs) (n : Nat) : Seen env (fs.drop n) (gs.drop n) := by
  intro k
  rw [drop_drop, drop_drop]
  exact h _

/-! ## Words that are created -/

/-- `evm_get_storage` does not find the word, so that `op_sstore` creates it. -/
def Creates (env : Env) (frames : List evm_t) (adr key : Bytes) : Prop :=
  ∃ gs, ok (evm_get_storage env adr key false frames.length frames) (none, gs)

/-- The word that an `SSTORE` creates is the one of the account, although the outermost account is asked. -/
def CalmAt (env : Env) (evm : evm_t) (parents : List evm_t) : Prop :=
  ∀ key ∈ evm.stack.entries.head?, Creates env (evm :: parents) evm.account key →
    env.word (parents.getLast?.getD evm).address key = env.word evm.account key

/-- An opcode that is no `SSTORE`, or one that creates no foreign word. -/
def Event.Calm (env : Env) : Event → Prop
  | .step evm parents => evm.code.data[evm.pos]? = some 0x55 → CalmAt env evm parents
  | _ => True

/-! ## Runs -/

/-- What a run leaves of the frames that wait: those from `i` on only changed as they may, and those
from `j` on see the same, if `P` holds and what was executed is calm. -/
structure Isolated (env : Env) (P : Prop) (i j : Nat) (new : List Event) (vm : Vm) (_o : Option Int) (vm' : Vm) : Prop where
  depth : vm'.parents.length = vm.parents.length
  waiting : List.Forall₂ Waiting (vm.parents.drop i) (vm'.parents.drop i)
  seen : P → (∀ e ∈ new, e.Calm env) → Seen env (vm.parents.drop j) (vm'.parents.drop j)

theorem Isolated.of_parents
    (h : vm'.parents = vm.parents) : Isolated env P i j new vm o vm' := by
  refine ⟨by rw [h], ?_, fun _ _ => ?_⟩
  · rw [h]
    exact waiting_refl _
  · rw [h]
    exact Seen.refl _ _

/-- Isolation is kept by one run behind another. -/
theorem isolated_chains (env : Env) (P : Prop) (i j : Nat) : Chains (Isolated env P i j) where
  stop vm := Isolated.of_parents rfl
  seq := by
    rintro m n s t u o ⟨hdepth, hwait, hseen⟩ ⟨hdepth', hwait', hseen'⟩
    refine ⟨hdepth'.trans hdepth, waiting_trans hwait hwait', fun hP hcalm => ?_⟩
    refine (hseen hP fun e he => ?_).trans (hseen' hP fun e he => ?_)
    · exact hcalm e (mem_append_left n he)
    · exact hcalm e (mem_append_right m he)

theorem Isolated.mono {k l : Nat}
    (h : Isolated env P i j new vm o vm') (hi : i ≤ k) (hj : j ≤ l) : Isolated env P k l new vm o vm' := by
  obtain ⟨hdepth, hwait, hseen⟩ := h
  obtain ⟨m, rfl⟩ := Nat.exists_eq_add_of_le hi
  obtain ⟨n, rfl⟩ := Nat.exists_eq_add_of_le hj
  refine ⟨hdepth, ?_, fun hP hcalm => ?_⟩
  · rw [← drop_drop, ← drop_drop]
    exact forall₂_drop m hwait
  · rw [← drop_drop, ← drop_drop]
    exact (hseen hP hcalm).drop n

/-- However `x` ends, the frames that wait are isolated from it. -/
abbrev Isolates (env : Env) (P : Prop) (i j : Nat) {α : Type} (x : M α) : Prop := Follows Vm.trace (Isolated env P i j) x

abbrev IsolatesAt (env : Env) (P : Prop) (i j : Nat) (vm : Vm) {α : Type} (x : M α) : Prop :=
  FollowsAt Vm.trace (Isolated env P i j) vm x

section
variable {env : Env} {P : Prop} {i j : Nat} {α β : Type}

theorem Isolates.bind {x : M α} {f : α → M β} (hx : Isolates env P i j x) (hf : ∀ a, Isolates env P i j (f a)) :
    Isolates env P i j (x >>= f) := Machine.Follows.bind (isolated_chains env P i j) hx hf

variable {adr key : Bytes} {f g : evm_t} {vm vm' : Vm}

theorem IsolatesAt.bind {x : M α} {f : α → M β} (hx : IsolatesAt env P i j vm x)
    (hf : ∀ a t, ends x vm (.ok a) t → IsolatesAt env P i j t (f a)) : IsolatesAt env P i j vm (x >>= f) :=
  Machine.FollowsAt.bind (isolated_chains env P i j) hx hf

theorem Isolates.mono {x : M α} {k l : Nat} (h : Isolates env P i j x) (hi : i ≤ k) (hj : j ≤ l) : Isolates env P k l x :=
  Machine.Follows.mono h fun _ _ _ _ hx => hx.mono hi hj

theorem Isolates.given {x : M α} (h : Isolates env True i j x) : Isolates env P i j x :=
  Machine.Follows.mono h fun _ _ _ _ hx => ⟨hx.depth, hx.waiting, fun _ => hx.seen trivial⟩

theorem Isolates.attempt {x : M α} (h : Isolates env P i j x) : Isolates env P i j (attempt x) :=
  Machine.Follows.attempt h fun hx => ⟨hx.depth, hx.waiting, hx.seen⟩

theorem isolates_pure (a : α) : Isolates env P i j (pure a : M α) := Machine.Follows.pure (isolated_chains env P i j) a

theorem isolates_get : Isolates env P i j (get : M Vm) := Machine.Follows.get (isolated_chains env P i j)

theorem isolates_throw (e : Int) : Isolates env P i j (throw e : M α) := Machine.Follows.throw fun _ => Isolated.of_parents rfl

theorem isolates_fault (f : Fault) : Isolates env P i j (Machine.fault f : M α) := Machine.Follows.fault f

theorem isolates_ofExcept (q : Except Int α) : Isolates env P i j (Machine.ofExcept q : M α) :=
  Machine.Follows.ofExcept fun _ => Isolated.of_parents rfl

theorem isolates_checked (x : Checked α) : Isolates env P i j (checked x) :=
  Machine.Follows.ofGuarded (isolated_chains env P i j) fun _ _ _ => Isolated.of_parents rfl

theorem isolates_record (e : Event) : Isolates env P i j (record e) := by
  intro vm r vm' h
  obtain ⟨-, rfl⟩ := ends_modify.1 h
  exact ⟨[e], rfl, Isolated.of_parents rfl⟩

theorem isolates_modifyEvm (f : evm_t → evm_t) : Isolates env P i j (modifyEvm f) :=
  Machine.Follows.modify (fun _ => rfl) fun _ => Isolated.of_parents rfl

theorem isolates_put_account (adr : Bytes) (ac : account_t) : Isolates env P i j (put_account adr ac) := isolates_modifyEvm _

theorem Quiet.isolated {new : List Event} {o : Option Int} (h : Quiet env new vm o vm') :
    Isolated env P 0 0 new vm o vm' :=
  ⟨h.parents.length_eq.symm, h.parents.imp fun _ _ hs => hs.waiting, fun _ _ => h.seen.tail⟩

/-- What is quiet changes nothing that a waiting frame sees. -/
theorem Quietly.isolates {x : M α} (h : Quietly env x) : Isolates env P i j x :=
  Machine.Follows.mono h fun _ _ _ _ hx => hx.isolated.mono (Nat.zero_le i) (Nat.zero_le j)

theorem isolates_op_exec {m : M Unit} (hm : Isolates env P 0 0 m) (gc : Nat) : Isolates env P 0 0 (op_exec m gc) :=
  (quietly_subgas gc).isolates.bind fun _ => hm

/-! ## In the next frame -/

/-- `atParent` takes the running frame away and puts it back behind the step. -/
theorem atParent_ends {x : M α} {r : Except Int α} (h : ends (atParent x) vm r vm') :
    ∃ p ps t, vm.parents = p :: ps ∧ ends x { vm with evm := p, parents := ps } r t ∧
      vm' = { t with evm := vm.evm, parents := t.evm :: t.parents } := by
  unfold atParent at h
  rw [ends_get_bind] at h
  split at h
  · exact absurd h ends_fault
  · next p ps hps =>
    rw [ends_set_bind, ends_attempt_bind] at h
    obtain ⟨q, t, hx, h⟩ := h
    obtain ⟨rfl, rfl⟩ := ends_ofExcept.1 h
    exact ⟨p, ps, t, hps, hx, rfl⟩

/-- A quiet step in the next frame may change that frame, but not what it sees. -/
theorem isolates_atParent {x : M α} (hx : Quietly env x) : Isolates env P 1 0 (atParent x) := by
  intro vm r vm' h
  obtain ⟨p, ps, t, hps, hends, rfl⟩ := atParent_ends h
  obtain ⟨new, htrace, hquiet⟩ := hx _ r t hends
  have hlen := hquiet.parents.length_eq
  refine ⟨new, htrace, ?_, ?_, fun _ _ => ?_⟩
  · rw [hps]
    exact congrArg (· + 1) hlen.symm
  · rw [hps]
    exact hquiet.parents.imp fun _ _ hs => hs.waiting
  · rw [hps]
    exact hquiet.seen

theorem isolates_atParent_waiting {x : M α} (hx : Quietly env x)
    (hwait : ∀ vm r vm', ends x vm r vm' → Waiting vm.evm vm'.evm) : Isolates env P 0 0 (atParent x) := by
  intro vm r vm' h
  obtain ⟨new, htrace, hiso⟩ := isolates_atParent (P := P) hx vm r vm' h
  obtain ⟨p, ps, t, hps, hends, rfl⟩ := atParent_ends h
  refine ⟨new, htrace, hiso.depth, ?_, hiso.seen⟩
  have htail := hiso.waiting
  rw [hps] at htail ⊢
  exact .cons (hwait _ r t hends) htail

theorem waiting_subgas {g : Nat} {r : Except Int Unit} (h : ends (subgas g) vm r vm') :
    Waiting vm.evm vm'.evm := by
  rcases subgas_ends h with ⟨-, -, rfl⟩ | ⟨-, -, rfl⟩
  · rfl
  · rfl

variable {create : Bool} {fs : List evm_t}

theorem waiting_get_account {r : Except Int (Option account_t)}
    (h : ends (get_account env adr create) vm r vm') : Waiting vm.evm vm'.evm := by
  rcases withFrames_ends.1 h with ⟨a, g, gs, rfl, hok, rfl⟩ | ⟨-, rfl⟩
  · exact (forall₂_cons.1 (get_account_ok hok).same).1.waiting
  · rfl

theorem isolates_modifyParent {f : evm_t → evm_t} (hf : ∀ p, (f p).accounts = p.accounts) : Isolates env P 1 0 (modifyParent f) := by
  refine Machine.Follows.modify (fun _ => rfl) fun vm => ?_
  rcases hps : vm.parents with _ | ⟨p, ps⟩
  · exact Isolated.of_parents (by simp [hps])
  · refine ⟨by simp [hps], ?_, fun _ _ => ?_⟩
    · simpa [hps] using waiting_refl ps
    · simp only [hps]
      exact Seen.cons (over_congr (hf p).symm _) (Seen.refl _ _)

theorem isolates_modifyParent_waiting {f : evm_t → evm_t} (hf : ∀ p, (f p).accounts = p.accounts)
    (hwait : ∀ p, Waiting p (f p)) : Isolates env P 0 0 (modifyParent f) := by
  intro vm r vm' h
  have hone : Isolates env P 1 0 (modifyParent f) := isolates_modifyParent hf
  obtain ⟨new, htrace, hiso⟩ := hone vm r vm' h
  obtain ⟨-, rfl⟩ := ends_modify.1 h
  refine ⟨new, htrace, hiso.depth, ?_, hiso.seen⟩
  rcases hps : vm.parents with _ | ⟨p, ps⟩
  · simp
  · exact .cons (hwait p) (waiting_refl ps)

theorem isolates_parent_gas (gas refund : evm_t → Nat) :
    Isolates env P 0 0 (modifyParent fun parent => { parent with gas := gas parent, refund := refund parent }) :=
  isolates_modifyParent_waiting (fun _ => rfl) fun _ => rfl

/-! ## Accounts and values -/

theorem isolates_pay (g : Nat) : Isolates env P 0 0 (pay g) := by
  refine isolates_get.bind fun vm => ?_
  split
  · exact (quietly_subgas g).isolates
  · exact isolates_atParent_waiting (quietly_subgas g) fun _ _ _ => waiting_subgas

theorem isolates_increment_nonce (adr : Bytes) : Isolates env P 0 0 (increment_nonce adr) := by
  refine (quietly_own_account adr).isolates.bind fun ac => (isolates_checked _).bind fun _ => ?_
  exact (isolates_checked _).bind fun _ => isolates_put_account _ _

/-- Values are moved between the copies of accounts in the running frame. -/
theorem isolates_transfer_value (from_account to_account value : Bytes) (base_gas : Nat) (is_call : Bool) :
    Isolates env P 0 0 (transfer_value env from_account to_account value base_gas is_call) := by
  have hreceiver : ∀ ac_to, Isolates env P 0 0 (new_receiver env to_account ac_to) := by
    intro ac_to
    unfold new_receiver
    split
    · exact isolates_pure _
    · exact (isolates_pay _).bind fun _ => (quietly_get_account _ _).isolates.bind fun _ => isolates_pure _
  unfold transfer_value
  split
  · exact isolates_pure _
  refine (quietly_get_account _ _).isolates.bind fun _ => (quietly_get_account _ _).isolates.bind fun ac_to => ?_
  refine (isolates_checked _).bind fun _ => (hreceiver _).bind fun _ => (isolates_pay _).bind fun _ => ?_
  refine (quietly_own_account _).isolates.bind fun ac_from => ?_
  split
  · split
    · exact isolates_pure _
    · exact isolates_throw _
  refine (isolates_checked _).bind fun _ => (isolates_checked _).bind fun _ => (isolates_put_account _ _).bind fun _ => ?_
  refine (quietly_own_account _).isolates.bind fun ac_to => (isolates_checked _).bind fun _ => ?_
  exact (isolates_checked _).bind fun _ => isolates_put_account _ _

theorem isolates_create_account (data code_address caller : Bytes) :
    Isolates env P 0 0 (evm_create_account env data code_address caller) := by
  refine (quietly_get_account _ _).isolates.bind fun _ => (isolates_modifyEvm _).bind fun _ => ?_
  refine (quietly_own_account _).isolates.bind fun _ => (isolates_put_account _ _).bind fun _ => ?_
  exact (quietly_get_account _ _).isolates.bind fun _ => isolates_increment_nonce _

/-! ## Words -/

/-- Looking up an account reads nothing of the frame but its accounts. -/
theorem get_account_alike {hs : List evm_t} {found : Option account_t}
    (hacc : g.accounts = f.accounts) (h : ok (evm_get_account env adr create (f :: fs)) (found, hs)) :
    ∃ f' ps, hs = f' :: ps ∧ f'.address = f.address ∧
      ok (evm_get_account env adr create (g :: fs)) (found, { g with accounts := f'.accounts } :: ps) := by
  have hself : { g with accounts := f.accounts } = g := by rw [← hacc]
  have hput : ∀ ac, { g with accounts := (f.put adr ac).accounts } = g.put adr ac := by
    intro ac
    rw [put_accounts, ← hacc]
    rfl
  cases account_step.1 h with
  | own hown => exact ⟨f, fs, rfl, rfl, by rw [hself]; exact account_step.2 (.own (hacc ▸ hown))⟩
  | copied hnone hrec => exact ⟨_, _, rfl, rfl, by rw [hput]; exact account_step.2 (.copied (hacc ▸ hnone) hrec)⟩
  | made hnone hrec henv => exact ⟨_, _, rfl, rfl, by rw [hput]; exact account_step.2 (.made (hacc ▸ hnone) hrec henv)⟩
  | missing hnone hrec henv =>
    exact ⟨f, _, rfl, rfl, by rw [hself]; exact account_step.2 (.missing (hacc ▸ hnone) hrec henv)⟩

theorem Creates.alike (hacc : g.accounts = f.accounts)
    (haddress : g.address = f.address) (h : Creates env (f :: fs) adr key) : Creates env (g :: fs) adr key := by
  obtain ⟨gs, h⟩ := h
  unfold Creates
  cases storage_step.1 h with
  | unknown hget =>
    obtain ⟨_, _, -, -, hget'⟩ := get_account_alike hacc hget
    exact ⟨_, storage_step.2 (.unknown hget')⟩
  | missing hget hnone hrec henv =>
    obtain ⟨_, _, ⟨⟩, haddress', hget'⟩ := get_account_alike hacc hget
    refine ⟨_, storage_step.2 (.missing hget' hnone hrec ?_)⟩
    rwa [haddress, ← haddress']

/-- Whether a created word is the right one depends on the accounts and the address of the frame only. -/
theorem calm_alike (hacc : g.accounts = f.accounts) (haddress : g.address = f.address)
    (h : Creates env (f :: fs) adr key → env.word (fs.getLast?.getD f).address key = env.word adr key)
    (hg : Creates env (g :: fs) adr key) : env.word (fs.getLast?.getD g).address key = env.word adr key := by
  have houter : (fs.getLast?.getD g).address = (fs.getLast?.getD f).address := by
    cases fs.getLast? with
    | none => exact haddress
    | some root => rfl
  rw [houter]
  exact h (hg.alike hacc.symm haddress.symm)

/-- A word is created with the value it has for the account that is asked. -/
theorem env_storage_word {self w : Bytes} (h : ok (env_storage env self adr key true) (some w)) :
    w = env.word self key := by
  unfold env_storage at h
  unfold Env.word
  rw [if_neg (by simp)] at h
  rcases hst : env.storage self (beNat key) with e | data
  · rw [hst] at h
    simp at h
  · rw [hst] at h
    simp only [true_or, if_true, uint256_set, ok_bind, ok_pure] at h
    obtain ⟨_, ⟨_, _, rfl⟩, hw⟩ := h
    exact (Option.some.inj hw).symm

/-- A created word is not seen, if it is the one of the account. -/
theorem isolatesAt_created
    (hP : P → env.word (vm.parents.getLast?.getD vm.evm).address key = env.word adr key) :
    IsolatesAt env P 0 0 vm (get_storage env adr key true) := by
  intro r vm' h
  unfold get_storage at h
  rw [ends_get_bind] at h
  rcases withFrames_ends.1 h with ⟨a, g, gs, rfl, hok, rfl⟩ | ⟨-, rfl⟩
  · have hsame := get_storage_same hok
    obtain ⟨-, htail⟩ := forall₂_cons.1 hsame
    refine ⟨[], by simp, htail.length_eq.symm, htail.imp fun _ _ hs => hs.waiting, fun hp _ => ?_⟩
    have hgot : GotWord env adr key vm.frames a (g :: gs) := by
      refine get_storage_got rfl (fun self w hself hw => ?_) hok
      have hlast : (vm.parents.getLast?.getD vm.evm).address = self := by
        have hmap := hself rfl
        rw [List.getLast?_map, Vm.frames, List.getLast?_cons] at hmap
        exact Option.some.inj hmap
      rw [env_storage_word hw, ← hlast, hP hp]
      unfold Env.view Env.word
      simp
    exact hgot.seen.tail
  · exact ⟨[], by simp, Isolated.of_parents rfl⟩

theorem isolatesAt_current_word
    (hP : P → Creates env vm.frames vm.evm.account key →
      env.word (vm.parents.getLast?.getD vm.evm).address key = env.word vm.evm.account key) :
    IsolatesAt env P 0 0 vm (current_word env key) := by
  refine IsolatesAt.bind (quietly_getEvm.isolates vm) fun evm t ht => ?_
  obtain ⟨hevm, rfl⟩ := ends_getEvm.1 ht
  obtain rfl := Except.ok.inj hevm
  refine IsolatesAt.bind ((quietly_get_storage _ _).isolates t) fun s u hu => ?_
  rcases s with _ | value
  · refine IsolatesAt.bind (isolatesAt_created fun hp => ?_) fun s v _ => ?_
    · -- the frames are the same but for copies of accounts
      unfold get_storage at hu
      rw [ends_get_bind] at hu
      rcases withFrames_ends.1 hu with ⟨a, g, gs, ha, hok, rfl⟩ | ⟨⟨e, he, -⟩, -⟩
      · cases ha
        have hlast := congrArg List.getLast? (addresses_same (get_storage_same hok))
        rw [List.getLast?_map, List.getLast?_map, Vm.frames, List.getLast?_cons, List.getLast?_cons] at hlast
        have haddr : (gs.getLast?.getD g).address = (t.parents.getLast?.getD t.evm).address := Option.some.inj hlast
        rw [haddr]
        exact hP hp ⟨_, hok⟩
      · cases he
    · cases s with
      | none => exact isolates_fault _ v
      | some value => exact isolates_pure _ v
  · exact isolates_pure _ u

theorem isolates_note_wrap (gas g : Nat) : Isolates env P i j (note_wrap gas g) := by
  unfold note_wrap
  split
  · exact isolates_record _
  · exact isolates_pure _

/-- The gas and the refunds of `SSTORE` are those of the running frame. -/
theorem isolates_sstore_net_gas (original current value : Bytes) (l_current : Nat) :
    Isolates env P 0 0 (sstore_net_gas original current value l_current) := by
  have hback : Isolates env P 0 0 take_back_refund := by
    exact quietly_getEvm.isolates.bind fun _ => (isolates_note_wrap _ _).bind fun _ => isolates_modifyEvm _
  have hrefund : ∀ r, Isolates env P 0 0 (add_refund r) := fun _ => isolates_modifyEvm _
  have hpay : ∀ g, Isolates env P 0 0 (subgas g) := fun g => (quietly_subgas g).isolates
  -- `x` may stand in front of the rest
  have hmaybe : ∀ (p : Prop) [Decidable p] (x y : M Unit), Isolates env P 0 0 x → Isolates env P 0 0 y →
      Isolates env P 0 0 (if p then x >>= fun _ => y else y) := by
    intro p _ x y hx hy
    split
    · exact hx.bind fun _ => hy
    · exact hy
  unfold sstore_net_gas
  simp only
  split
  · exact hpay _
  split
  · exact hmaybe _ _ _ (hpay _) (hmaybe _ _ _ (hrefund _) (hpay _))
  · split
    · split
      · exact hback.bind fun _ => hmaybe _ _ _ (hrefund _) (hpay _)
      · exact (hrefund _).bind fun _ => hmaybe _ _ _ (hrefund _) (hpay _)
    · exact hmaybe _ _ _ (hrefund _) (hpay _)

theorem isolates_sstore_old_gas (value : Bytes) (created : Bool) : Isolates env P 0 0 (sstore_old_gas value created) := by
  unfold sstore_old_gas
  simp only
  split
  · exact (quietly_subgas _).isolates.bind fun _ => isolates_modifyEvm _
  · split
    · exact (quietly_subgas _).isolates
    · exact (quietly_subgas _).isolates

/-- `SSTORE`; the word that it creates is the one that is to be seen, if the step is calm. -/
theorem isolatesAt_op_sstore (vm : Vm) : IsolatesAt env (CalmAt env vm.evm vm.parents) 0 0 vm (op_sstore env) := by
  have hset : ∀ key value, Isolates env (CalmAt env vm.evm vm.parents) 0 0 (set_word key value) := by
    intro key value
    exact quietly_getEvm.isolates.bind fun _ => (quietly_own_account _).isolates.bind fun _ => isolates_put_account _ _
  refine IsolatesAt.bind (quietly_pop_ref.isolates vm) fun key t ht => ?_
  obtain ⟨s, hs, rfl⟩ := pop_ref_ok ht
  refine IsolatesAt.bind (quietly_pop_ref.isolates _) fun value u hu => ?_
  obtain ⟨s', -, rfl⟩ := pop_ref_ok hu
  refine IsolatesAt.bind (isolatesAt_current_word fun hcalm hcreates => ?_) fun p v _ => ?_
  · have hkey : key ∈ vm.evm.stack.entries.head? := by
      rw [hs]
      rfl
    exact calm_alike (f := vm.evm) rfl rfl (hcalm key hkey) hcreates
  · refine quietly_getEvm.isolates.bind (fun evm => ?_) v
    split
    · exact (isolates_sstore_net_gas _ _ _ _).bind fun _ => hset _ _
    · exact (isolates_sstore_old_gas _ _).bind fun _ => hset _ _

/-! ## Logs and the ends of a frame -/

theorem isolates_op_log (len : Nat) : Isolates env P 0 0 (op_log len) := by
  have htopics : ∀ n, Isolates env P 0 0 (pop_topics n) := by
    intro n
    induction n with
    | zero => exact isolates_pure _
    | succ n ih => exact quietly_pop_ref.isolates.bind fun _ => ih
  have hadd : ∀ topics data, Isolates env P 0 0 (add_log topics data) := by
    intro topics data
    refine isolates_get.bind fun vm => (isolates_record _).bind fun _ => ?_
    exact Machine.Follows.modify (fun _ => rfl) fun _ => Isolated.of_parents rfl
  refine quietly_pop_int.isolates.bind fun _ => quietly_pop_int.isolates.bind fun _ => (isolates_checked _).bind fun _ => ?_
  refine (quietly_subgas _).isolates.bind fun _ => (quietly_mem_readi _ _).isolates.bind fun _ => ?_
  exact quietly_getEvm.isolates.bind fun _ => (hadd _ _).bind fun _ => htopics _

theorem isolates_op_return (revert : Bool) : Isolates env P 0 0 (op_return revert) := by
  refine quietly_pop_int.isolates.bind fun _ => quietly_pop_int.isolates.bind fun _ => quietly_getEvm.isolates.bind fun _ => ?_
  refine (quietly_free_buffer _).isolates.bind fun _ => (quietly_mem_readi _ _).isolates.bind fun _ => ?_
  exact (quietly_new_buffer _).isolates.bind fun _ => isolates_modifyEvm _

theorem isolates_op_selfdestruct : Isolates env P 0 0 (op_selfdestruct env) := by
  have hheir : ∀ adr tmp, Isolates env P 0 0 (pass_on.new_heir env adr tmp) := by
    intro adr tmp
    unfold pass_on.new_heir
    split
    · exact isolates_pure _
    · refine quietly_getEvm.isolates.bind fun evm => ?_
      split
      · exact (quietly_subgas _).isolates.bind fun _ => (quietly_get_account _ _).isolates.bind fun _ => isolates_pure _
      · exact (quietly_get_account _ _).isolates.bind fun _ => isolates_pure _
  have hpass : ∀ adr, Isolates env P 0 0 (pass_on env adr) := by
    intro adr
    refine quietly_getEvm.isolates.bind fun evm => (quietly_own_account _).isolates.bind fun _ => ?_
    split
    · refine (quietly_get_account _ _).isolates.bind fun _ => (hheir _ _).bind fun _ => ?_
      exact isolates_transfer_value _ _ _ _ _
    · exact isolates_pure _
  refine (quietly_pop 20).isolates.bind fun adr => quietly_getEvm.isolates.bind fun evm => ?_
  refine (quietly_get_account _ _).isolates.bind fun _ => (isolates_modifyEvm _).bind fun _ => (hpass _).bind fun _ => ?_
  exact (quietly_own_account _).isolates.bind fun _ => (isolates_put_account _ _).bind fun _ => isolates_modifyEvm _

theorem isolates_init_gas : Isolates env P 0 0 init_gas := isolates_modifyEvm _

/-- The end of a run gives gas and refunds to the next frame. -/
theorem isolates_finalize : Isolates env P 0 0 finalize_and_refund_gas := by
  refine isolates_get.bind fun vm => (isolates_record _).bind fun _ => ?_
  simp only
  split
  · exact isolates_pure _
  split
  · split
    · refine (isolates_note_wrap _ _).bind fun _ => (isolates_note_wrap _ _).bind fun _ => ?_
      exact (isolates_parent_gas _ _).bind fun _ => isolates_modifyEvm _
    · exact isolates_modifyEvm _
  · exact isolates_modifyEvm _

theorem isolates_precompiled (address : Bytes) : Isolates env P 0 0 (evm_run_precompiled env address) := by
  refine quietly_getEvm.isolates.bind fun evm => ?_
  split
  · exact isolates_throw _
  · refine (quietly_subgas _).isolates.bind fun _ => (isolates_checked _).bind fun data => ?_
    split
    · exact isolates_pure _
    · exact (quietly_new_buffer _).isolates.bind fun _ => isolates_modifyEvm _

theorem isolates_deposit_code : Isolates env P 0 0 (deposit_code env) := by
  refine quietly_getEvm.isolates.bind fun evm => ?_
  simp only
  split
  · exact isolates_throw _
  · refine (quietly_subgas _).isolates.bind fun _ => (quietly_get_account _ _).isolates.bind fun _ => ?_
    exact (quietly_own_account _).isolates.bind fun _ => isolates_put_account _ _

end

end In3.Evm
