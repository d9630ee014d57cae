import In3.Evm.Run
/-!
# Errors of the arithmetic and of the environment

A call that fails for want of balance has its own error, on which the gas of the call depends. The
arithmetic has faults but no errors, and the lookups have the errors of the environment. So only a
transfer has this error, if the environment does not use it.
-/
open Lib Guarded

namespace In3.Evm

/-- The error of a transfer without enough balance is not one of the environment. -/
structure Env.Fair (env : Env) : Prop where
  balance : ∀ adr, env.balance adr ≠ .error EVM_ERROR_BALANCE_TOO_LOW
  nonce : ∀ adr, env.nonce adr ≠ .error EVM_ERROR_BALANCE_TOO_LOW
  code_size : ∀ adr len, env.code_size adr len ≠ .error EVM_ERROR_BALANCE_TOO_LOW
  code_copy : ∀ adr offset len, env.code_copy adr offset len ≠ .error EVM_ERROR_BALANCE_TOO_LOW
  code_hash : ∀ self adr len, env.code_hash self adr len ≠ .error EVM_ERROR_BALANCE_TOO_LOW
  blockhash : ∀ n, env.blockhash n ≠ .error EVM_ERROR_BALANCE_TOO_LOW
  blockheader : env.blockheader ≠ .error EVM_ERROR_BALANCE_TOO_LOW
  storage : ∀ self key, env.storage self key ≠ .error EVM_ERROR_BALANCE_TOO_LOW
  precompiled : ∀ n data cost, env.precompiled n data ≠ some (cost, .error EVM_ERROR_BALANCE_TOO_LOW)

/-! ## The arithmetic -/

theorem errorless_rd (b : Bytes) (i : Nat) : errorless (rd b i) := by
  unfold rd
  split
  · exact errorless_pure _
  · exact errorless_fault _

theorem errorless_rd_last (b : Bytes) (len : Nat) : errorless (rd_last b len) := by
  unfold rd_last
  split
  · exact errorless_pure _
  · exact errorless_rd _ _

theorem errorless_big_add (a b : Bytes) (size max : Nat) : errorless (big_add a b size max) := by
  have hloop : ∀ a b n la lb carry out, errorless (add_loop a b size n la lb carry out) := by
    intro a b n
    induction n with
    | zero => exact fun _ _ _ _ => errorless_pure _
    | succ n ih =>
      intro la lb carry out
      refine errorless_bind (errorless_rd_last _ _) fun x => errorless_bind (errorless_rd_last _ _) fun y => ?_
      exact errorless_bind (errorless_guard _ _) fun _ => ih _ _ _ _
  exact hloop _ _ _ _ _ _ _

theorem errorless_big_sub (a b : Bytes) (size : Nat) : errorless (big_sub a b size) := by
  have hloop : ∀ a b n la lb borrow out, errorless (sub_loop a b size n la lb borrow out) := by
    intro a b n
    induction n with
    | zero => exact fun _ _ _ _ => errorless_pure _
    | succ n ih =>
      intro la lb borrow out
      refine errorless_bind (errorless_rd_last _ _) fun x => errorless_bind (errorless_rd_last _ _) fun y => ?_
      exact errorless_bind (errorless_guard _ _) fun _ => ih _ _ _ _
  refine errorless_bind (hloop _ _ _ _ _ _ _) fun out => ?_
  exact errorless_ite (errorless_bind (errorless_guard _ _) fun _ => errorless_pure _) (errorless_pure _)

theorem errorless_big_mul (a b : Bytes) (size max : Nat) : errorless (big_mul a b size max) := by
  have hcolumn : ∀ a b n y val, errorless (mul_column a b n y val) := by
    intro a b n
    induction n with
    | zero => exact fun _ _ => errorless_pure _
    | succ n ih =>
      intro y val
      unfold mul_column
      split
      · exact errorless_bind (errorless_rd _ _) fun _ => errorless_bind (errorless_rd _ _) fun _ => ih _ _
      · exact errorless_pure _
  have hput : ∀ i val out, errorless (put i val out) :=
    fun _ _ _ => errorless_bind (errorless_guard _ _) fun _ => errorless_pure _
  have hlow : ∀ a b n i val out, errorless (mul_low a b n i val out) := by
    intro a b n
    induction n with
    | zero => exact fun _ _ _ => errorless_pure _
    | succ n ih =>
      exact fun i val out => errorless_bind (hcolumn _ _ _ _ _) fun _ => errorless_bind (hput _ _ _) fun _ => ih _ _ _
  have hhigh : ∀ a b n i val out, errorless (mul_high a b n i val out) := by
    intro a b n
    induction n with
    | zero => exact fun _ _ _ => errorless_pure _
    | succ n ih =>
      exact fun i val out => errorless_bind (hcolumn _ _ _ _ _) fun _ => errorless_bind (hput _ _ _) fun _ => ih _ _ _
  unfold big_mul
  simp only
  split
  · exact errorless_bind (errorless_guard _ _) fun _ => errorless_pure _
  · refine errorless_bind (hlow _ _ _ _ _ _) fun low => errorless_bind (hhigh _ _ _ _ _ _) fun high => ?_
    exact errorless_bind (hput _ _ _) fun _ => errorless_bind (errorless_guard _ _) fun _ => errorless_pure _

theorem errorless_big_log256 (mem : Bytes) (len : Nat) : errorless (big_log256 mem len) := by
  induction mem generalizing len with
  | nil => exact errorless_fault _
  | cons x mem ih =>
    unfold big_log256
    split
    · exact ih _
    · exact errorless_pure _

theorem errorless_big_divmod (n d : Bytes) : errorless (big_divmod n d) := by
  unfold big_divmod
  simp only
  split
  · refine errorless_bind (errorless_guard _ _) fun _ => ?_
    split
    · exact errorless_pure _
    · exact errorless_pure _
  · exact errorless_bind (errorless_guard _ _) fun _ => errorless_pure _

theorem errorless_big_div (a b : Bytes) (sig : Bool) : errorless (big_div a b sig) := by
  unfold big_div
  simp only
  split
  · exact errorless_pure _
  · split
    · exact errorless_bind (errorless_big_divmod _ _) fun _ => errorless_pure _
    · exact errorless_bind (errorless_big_divmod _ _) fun _ => errorless_pure _

theorem errorless_big_mod (a b : Bytes) (sig : Bool) : errorless (big_mod a b sig) := by
  unfold big_mod
  simp only
  split
  · exact errorless_pure _
  split
  · exact errorless_pure _
  split
  · exact errorless_bind (errorless_big_divmod _ _) fun _ => errorless_pure _
  split
  · exact errorless_bind (errorless_rd _ _) fun _ => errorless_pure _
  · exact errorless_bind (errorless_big_divmod _ _) fun _ => errorless_pure _

/-! ## The lookups -/

theorem raises_ofEnv {α : Type} {x : Except Int α} {e : Int} : raises (ofEnv x) e ↔ x = .error e := by
  unfold raises ofEnv
  rw [ExceptT.run_mk, Except.ok.injEq]

theorem errorless_uint256_set (src : Bytes) : errorless (uint256_set src) :=
  errorless_bind (errorless_guard _ _) fun _ => errorless_pure _

theorem errorless_env_storage (env : Env) (self adr s_key : Bytes) (create : Bool) :
    errorless (env_storage env self adr s_key create) := by
  unfold env_storage
  split
  · refine errorless_ite ?_ (errorless_pure _)
    exact errorless_bind (errorless_uint256_set _) fun _ => errorless_pure _
  · exact errorless_ite (errorless_fault _) (errorless_pure _)

section
variable {env : Env} (hfair : env.Fair)
include hfair

theorem env_account_fair (adr : Bytes) (create : Bool) :
    ¬ raises (env_account env adr create) EVM_ERROR_BALANCE_TOO_LOW := by
  unfold env_account
  simp only [raises_bind, raises_ofEnv, hfair.balance, hfair.code_size, hfair.nonce, false_or]
  rintro ⟨_, _, _, _, _, _, h⟩
  split at h
  · simp only [raises_bind, raises_pure, and_false, exists_false, or_false] at h
    rcases h with h | ⟨_, _, h⟩
    · exact errorless_uint256_set _ _ h
    · exact errorless_uint256_set _ _ h
  · exact raises_pure h

theorem get_account_fair (adr : Bytes) (create : Bool) (fs : List evm_t) :
    ¬ raises (evm_get_account env adr create fs) EVM_ERROR_BALANCE_TOO_LOW := by
  induction fs with
  | nil => exact raises_pure
  | cons f fs ih =>
    rw [evm_get_account]
    split
    · exact raises_pure
    · intro h
      rcases raises_bind.1 h with h | ⟨⟨found, ps⟩, -, h⟩
      · exact ih h
      · rcases found with _ | ac
        · rcases raises_bind.1 h with h | ⟨ac, -, h⟩
          · exact env_account_fair hfair _ _ h
          · rcases ac with _ | ac <;> exact raises_pure h
        · exact raises_pure h

theorem get_storage_fair (adr key : Bytes) (create : Bool) (n : Nat) (fs : List evm_t) :
    ¬ raises (evm_get_storage env adr key create n fs) EVM_ERROR_BALANCE_TOO_LOW := by
  induction n generalizing fs with
  | zero => exact raises_pure
  | succ n ih =>
    intro h
    rcases raises_bind.1 h with h | ⟨⟨ac, gs⟩, -, h⟩
    · exact get_account_fair hfair _ _ _ h
    · simp only at h
      split at h
      · split at h
        · exact raises_pure h
        · rcases raises_bind.1 h with h | ⟨⟨found, ps⟩, -, h⟩
          · exact ih _ h
          · rcases found with _ | w
            · rcases raises_bind.1 h with h | ⟨w, -, h⟩
              · exact errorless_env_storage _ _ _ _ _ _ h
              · rcases w with _ | w <;> exact raises_pure h
            · exact raises_pure h
      · exact raises_pure h

end

end In3.Evm
