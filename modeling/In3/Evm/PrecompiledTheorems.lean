import In3.Evm.Precompiled
import In3.Evm.Quiet
/-!
# What the precompiled contracts return

The specification reads the call data as if they went on with zeros. `ecrecover` and `ripemd160` give
20 bytes as a word, and `modexp` gives as many bytes as the modulus is declared to have.

The contracts give the 20 bytes alone, and a power in its shortest spelling. So a result is the
specified one if it is empty, or if the power needs every byte of the declared length.
-/
open Lib Guarded Machine List

namespace In3.Evm

/-! ## The specification -/

inductive Contract where
  | ecrecover
  | ripemd160
  | modexp
  deriving DecidableEq, Repr

def Contract.address : Contract → Bytes
  | .ecrecover => List.replicate 19 0 ++ [1]
  | .ripemd160 => List.replicate 19 0 ++ [3]
  | .modexp => List.replicate 19 0 ++ [5]

/-- The key behind a signature in the call data: the digest, 27 or 28 as a word, and `r` and `s`. -/
def signer (lib : Library) (data : Bytes) : Option Bytes :=
  match beNat (extended data 32 32) with
  | 27 => lib.recover (extended data 0 32) (extended data 64 64 ++ [0])
  | 28 => lib.recover (extended data 0 32) (extended data 64 64 ++ [1])
  | _ => none

def baseLength (data : Bytes) : Nat := beNat (extended data 0 32)
def expLength (data : Bytes) : Nat := beNat (extended data 32 32)
def modLength (data : Bytes) : Nat := beNat (extended data 64 32)

/-- The power; it is zero for the modulus zero. -/
def power (data : Bytes) : Nat :=
  mp_exptmod (beNat (extended data 96 (baseLength data)))
    (beNat (extended data (96 + baseLength data) (expLength data)))
    (beNat (extended data (96 + baseLength data + expLength data) (modLength data)))

def Contract.output (lib : Library) (data : Bytes) : Contract → Bytes
  | .ecrecover => ((signer lib data).map fun pubkey => padLeft 32 ((lib.keccak.fn pubkey).drop 12)).getD []
  | .ripemd160 => padLeft 32 (lib.ripemd160 data)
  | .modexp => padLeft (modLength data) (beBytes (power data))

structure Started (vm : Vm) (data : Bytes) : Prop where
  call_data : vm.evm.call_data = data
  return_data : vm.evm.return_data = none
  gas : vm.evm.gas < 2 ^ 64

def evm_t.returned (evm : evm_t) : Bytes := (evm.return_data.map Buffer.bytes).getD []

/-- Every frame that runs the contract gets its output, unless it cannot pay for it. -/
def Contract.Follows (lib : Library) (c : Contract) (data : Bytes) : Prop :=
  ∀ vm, Started vm data →
    (∃ vm', ends (run_contract lib c.address) vm (.error EVM_ERROR_OUT_OF_GAS) vm') ∨
      ∃ vm', ends (run_contract lib c.address) vm (.ok ()) vm' ∧ vm'.evm.returned = c.output lib data

/-- The signature that is given to the library: `27` is taken off if it can be. -/
def givenSignature (data : Bytes) : Bytes :=
  let v := beNat (extended data 32 32)
  extended data 64 64 ++ [UInt8.ofNat (if 27 ≤ v then v - 27 else v)]

/-- The call data for which a contract returns its output. -/
def Contract.Meets (lib : Library) (data : Bytes) : Contract → Prop
  | .ecrecover => signer lib data = none ∧
      (data.length < 128 ∨ 256 ≤ beNat (extended data 32 32) ∨ lib.recover (extended data 0 32) (givenSignature data) = none)
  | .ripemd160 => False
  | .modexp => 96 + baseLength data % 2 ^ 32 + expLength data % 2 ^ 32 + modLength data % 2 ^ 32 ≤ data.length ∧
      (modLength data = 0 ∨ modLength data ≤ 64 ∧ 256 ^ (modLength data - 1) ≤ power data)

/-! ## Paying for a contract -/

/-- In front of the price there is no error but -1, and behind it there is none. -/
structure Priced.Regular (p : Priced) : Prop where
  raised : ∀ e, raises p e → e = -1
  price : ∀ cost res, ok p (cost, res) → cost < 2 ^ 64
  errorless : ∀ cost res, ok p (cost, res) → errorless res

/-- The contract ends with these data. -/
def Priced.Gives (p : Priced) (out : Bytes) : Prop :=
  ∃ cost res r, ok p (cost, res) ∧ ok res r ∧ r.getD [] = out

def Vm.paid (vm : Vm) (cost : Nat) (r : Option Bytes) : Vm :=
  match r with
  | none => { vm with evm := { vm.evm with gas := vm.evm.gas - cost } }
  | some data =>
    { vm with
      evm := { vm.evm with gas := vm.evm.gas - cost, return_data := some ⟨vm.next_buf, data⟩ }
      next_buf := vm.next_buf + 1 }

variable {cost off : Nat} {data : Bytes} {p : Priced} {r : Option Bytes} {res : Checked (Option Bytes)} {vm vm' : Vm}

theorem returned_paid (h : vm.evm.return_data = none) (cost : Nat) (r : Option Bytes) :
    (vm.paid cost r).evm.returned = r.getD [] := by
  cases r with
  | none => simp [Vm.paid, evm_t.returned, h]
  | some data => simp [Vm.paid, evm_t.returned]

theorem ends_charge
    (hp : ok p (cost, res)) (hgas : cost ≤ vm.evm.gas) (hres : ok res r) :
    ends (charge p) vm (.ok ()) (vm.paid cost r) := by
  unfold charge checked
  rw [ends_bind_of_ok (ends_ofGuarded_ok.2 ⟨hp, rfl⟩)]
  rw [ends_bind_of_ok (subgas_pays hgas), ends_bind_of_ok (ends_ofGuarded_ok.2 ⟨hres, rfl⟩)]
  cases r with
  | none => exact ends_pure.2 ⟨rfl, rfl⟩
  | some data => rfl

theorem ends_charge_unpaid
    (hp : ok p (cost, res)) (hgas : vm.evm.gas < cost) :
    ∃ vm', ends (charge p) vm (.error EVM_ERROR_OUT_OF_GAS) vm' := by
  obtain ⟨vm', h⟩ := subgas_fails hgas
  refine ⟨vm', ?_⟩
  unfold charge checked
  rw [ends_bind_of_ok (ends_ofGuarded_ok.2 ⟨hp, rfl⟩)]
  rw [ends_bind]
  exact .inr ⟨_, rfl, h⟩

theorem charge_ok (h : ends (charge p) vm (.ok ()) vm') :
    ∃ cost res r, ok p (cost, res) ∧ ok res r ∧ vm' = vm.paid cost r := by
  have hrun := h
  unfold charge checked at h
  simp only [ends_bind_ok, ends_ofGuarded_ok] at h
  obtain ⟨⟨cost, res⟩, _, ⟨hp, rfl⟩, _, _, hpaid, r, _, ⟨hres, rfl⟩, -⟩ := h
  rcases subgas_ends hpaid with ⟨hle, -, -⟩ | ⟨-, herr, -⟩
  · exact ⟨cost, res, r, hp, hres, (ends_unique hrun (ends_charge hp hle hres)).2⟩
  · cases herr

theorem Priced.Regular.unpaid (hp : p.Regular)
    (h : ends (charge p) vm (.error EVM_ERROR_OUT_OF_GAS) vm') : ∃ cost, vm.evm.gas < cost ∧ cost < 2 ^ 64 := by
  unfold charge checked at h
  rw [ends_bind] at h
  rcases h with ⟨⟨cost, res⟩, vm₁, hok, h⟩ | ⟨e, he, hraise⟩
  · obtain ⟨hpre, rfl⟩ := ends_ofGuarded_ok.1 hok
    rcases Nat.lt_or_ge vm₁.evm.gas cost with hlt | hge
    · exact ⟨cost, hlt, hp.price cost res hpre⟩
    · rw [ends_bind_of_ok (subgas_pays hge), ends_bind] at h
      rcases h with ⟨data, vm₂, -, h⟩ | ⟨e, -, hraise⟩
      · cases data with
        | none => cases (ends_pure.1 h).1
        | some data => cases h
      · exact absurd (ends_ofGuarded_error.1 hraise).1 (hp.errorless cost res hpre e)
  · cases he
    have := hp.raised _ (ends_ofGuarded_error.1 hraise).1
    exact absurd this (by decide)

/-- A frame with as much gas as there can be. -/
def richVm (data : Bytes) : Vm :=
  let vm := Vm.ofStack Stack.empty
  { vm with evm := { vm.evm with call_data := data, gas := 2 ^ 64 - 1 } }

theorem started_richVm (data : Bytes) : Started (richVm data) data :=
  ⟨rfl, rfl, show 2 ^ 64 - 1 < 2 ^ 64 by norm_num⟩

theorem ends_run_contract {lib : Library} {address : Bytes} (h : vm.evm.call_data = data)
    {r : Except Int Unit} :
    ends (run_contract lib address) vm r vm' ↔ ends (charge (contract lib (address.getD 19 0) data)) vm r vm' := by
  unfold run_contract
  rw [ends_getEvm_bind, h]

theorem follows_iff_gives {lib : Library} {c : Contract}
    (hp : (contract lib (c.address.getD 19 0) data).Regular) :
    c.Follows lib data ↔ (contract lib (c.address.getD 19 0) data).Gives (c.output lib data) := by
  constructor
  · intro h
    rcases h (richVm data) (started_richVm data) with ⟨vm', hrun⟩ | ⟨vm', hrun, hout⟩
    · rw [ends_run_contract (started_richVm data).call_data] at hrun
      obtain ⟨cost, hlt, hcost⟩ := hp.unpaid hrun
      have hgas : (richVm data).evm.gas = 2 ^ 64 - 1 := rfl
      omega
    · rw [ends_run_contract (started_richVm data).call_data] at hrun
      obtain ⟨cost, res, r, hok, hres, rfl⟩ := charge_ok hrun
      rw [returned_paid (started_richVm data).return_data] at hout
      exact ⟨cost, res, r, hok, hres, hout⟩
  · rintro ⟨cost, res, r, hok, hres, hout⟩ vm hvm
    rcases Nat.lt_or_ge vm.evm.gas cost with hlt | hge
    · obtain ⟨vm', h⟩ := ends_charge_unpaid hok hlt
      exact .inl ⟨vm', (ends_run_contract hvm.call_data).2 h⟩
    · refine .inr ⟨vm.paid cost r, (ends_run_contract hvm.call_data).2 (ends_charge hok hge hres), ?_⟩
      rw [returned_paid hvm.return_data, hout]

/-! ## Addresses and hashes -/

theorem regular_pure (hcost : cost < 2 ^ 64) (hres : errorless res) :
    Priced.Regular (pure (cost, res)) where
  raised _ h := absurd h raises_pure
  price _ _ h := by
    cases ok_pure.1 h
    exact hcost
  errorless _ _ h := by
    cases ok_pure.1 h
    exact hres

theorem gives_pure {out : Bytes} :
    Priced.Gives (pure (cost, pure r)) out ↔ r.getD [] = out := by
  constructor
  · rintro ⟨cost', res, r', hok, hres, hout⟩
    cases ok_pure.1 hok
    cases ok_pure.1 hres
    exact hout
  · intro h
    exact ⟨cost, pure r, r, ok_pure.2 rfl, ok_pure.2 rfl, h⟩

theorem word_price_lt (base per_word len : Nat) : word_price base per_word len < 2 ^ 64 :=
  Nat.lt_trans (Nat.mod_lt _ (by norm_num)) (by norm_num)

theorem follows_ripemd160 (lib : Library) (data : Bytes) : ¬ Contract.ripemd160.Follows lib data := by
  have hcontract : contract lib (Contract.ripemd160.address.getD 19 0) data = pre_ripemd160 lib data := rfl
  rw [follows_iff_gives, hcontract, pre_ripemd160, gives_pure]
  · intro h
    have hlen := congrArg List.length h
    rw [Contract.output, length_padLeft (by rw [lib.ripemd160_length]; norm_num), Option.getD_some,
      lib.ripemd160_length] at hlen
    omega
  · exact regular_pure (word_price_lt _ _ _) (errorless_pure _)

/-- The key that `pre_ecrecover` finds. -/
def recovered (lib : Library) (data : Bytes) : Option Bytes :=
  if data.length < 128 then none
  else
    match optimize_len ((data.drop 32).take 32) with
    | [v] => lib.recover (data.take 32) ((data.drop 64).take 64 ++ [if 27 ≤ v then v - 27 else v])
    | _ => none

theorem pre_ecrecover_eq (lib : Library) (data : Bytes) :
    pre_ecrecover lib data =
      pure (G_PRE_EC_RECOVER, pure ((recovered lib data).map fun pubkey => (lib.keccak.fn pubkey).drop 12)) := by
  unfold pre_ecrecover recovered
  split
  · rfl
  · rcases optimize_len ((data.drop 32).take 32) with _ | ⟨v, _ | ⟨w, rest⟩⟩
    · rfl
    · rfl
    · rfl

theorem given_byte (v : UInt8) : (if 27 ≤ v then v - 27 else v) = UInt8.ofNat (if 27 ≤ v.toNat then v.toNat - 27 else v.toNat) := by
  have hle : 27 ≤ v ↔ 27 ≤ v.toNat := UInt8.le_iff_toNat_le
  by_cases h : 27 ≤ v
  · rw [if_pos h, if_pos (hle.1 h)]
    apply UInt8.toNat_inj.1
    have hlt : v.toNat < 256 := v.toNat_lt
    rw [UInt8.toNat_sub_of_le _ _ h, UInt8.toNat_ofNat', Nat.mod_eq_of_lt (by omega)]
    rfl
  · rw [if_neg h, if_neg fun h' => h (hle.2 h'), UInt8.ofNat_toNat]

theorem recovered_of_small (lib : Library) (hlen : 128 ≤ data.length) (hv : beNat (extended data 32 32) < 256) :
    recovered lib data = lib.recover (extended data 0 32) (givenSignature data) := by
  have hword : extended data 32 32 = (data.drop 32).take 32 := extended_of_le (by omega)
  have hne : extended data 32 32 ≠ [] := ne_nil_of_length_pos (by rw [length_extended]; norm_num)
  obtain ⟨x, rest, hs, hx⟩ := stripZeros_cases hne
  have hnum : beNat (x :: rest) = beNat (extended data 32 32) := by rw [← hs, beNat_stripZeros]
  have hrest : rest = [] := by
    by_cases h0 : x = 0
    · exact hx h0
    · have hlo := le_beNat_cons (b := rest) h0
      rw [hnum] at hlo
      have hone : (256 : Nat) ^ rest.length < 256 ^ 1 := Nat.lt_of_le_of_lt hlo hv
      rw [Nat.pow_lt_pow_iff_right (by norm_num)] at hone
      exact length_eq_zero_iff.1 (by omega)
  subst hrest
  have hv : beNat (extended data 32 32) = x.toNat := by
    rw [← hnum]
    simp
  unfold recovered givenSignature
  rw [if_neg (by omega), optimize_len, ← hword, hs]
  dsimp only
  rw [given_byte x, hv, extended_of_le (b := data) (by omega : 0 + 32 ≤ _), extended_of_le (b := data) (by omega : 64 + 64 ≤ _), drop_zero]

theorem recovered_of_large (lib : Library) (hv : 256 ≤ beNat (extended data 32 32)) :
    recovered lib data = none := by
  unfold recovered
  split
  · rfl
  · next hlen =>
    rw [extended_of_le (by omega)] at hv
    split
    · next v hs =>
      have hnum : beNat ((data.drop 32).take 32) = beNat [v] := by rw [← hs, optimize_len, beNat_stripZeros]
      have hlt := beNat_lt [v]
      rw [← hnum] at hlt
      exact absurd hlt (by simpa using hv)
    · rfl

theorem recovered_eq_none (lib : Library) (data : Bytes) :
    recovered lib data = none ↔
      data.length < 128 ∨ 256 ≤ beNat (extended data 32 32) ∨ lib.recover (extended data 0 32) (givenSignature data) = none := by
  rcases Nat.lt_or_ge data.length 128 with hshort | hlen
  · simp [recovered, hshort]
  · rcases Nat.lt_or_ge (beNat (extended data 32 32)) 256 with hv | hv
    · rw [recovered_of_small lib hlen hv]
      constructor
      · exact fun h => .inr (.inr h)
      · rintro (h | h | h)
        · omega
        · omega
        · exact h
    · simp [recovered_of_large lib hv, hv]

theorem follows_ecrecover (lib : Library) (data : Bytes) :
    Contract.ecrecover.Follows lib data ↔ signer lib data = none ∧ recovered lib data = none := by
  have hcontract : contract lib (Contract.ecrecover.address.getD 19 0) data = pre_ecrecover lib data := rfl
  have haddress : ∀ pubkey, ((lib.keccak.fn pubkey).drop 12).length = 20 := fun pubkey => by
    rw [length_drop, lib.keccak.len]
  have hword : ∀ pubkey, (padLeft 32 ((lib.keccak.fn pubkey).drop 12)).length = 32 := fun pubkey =>
    length_padLeft (by rw [haddress]; norm_num)
  rw [follows_iff_gives, hcontract, pre_ecrecover_eq, gives_pure, Contract.output]
  · -- the lengths are 0 or 20 on the one side, and 0 or 32 on the other one
    constructor
    · intro h
      have hlen := congrArg List.length h
      rcases hr : recovered lib data with _ | found
      · rcases hs : signer lib data with _ | pubkey
        · exact ⟨rfl, rfl⟩
        · simp [hr, hs, hword] at hlen
      · rcases hs : signer lib data with _ | pubkey
        · simp [hr, hs, lib.keccak.len] at hlen
        · simp [hr, hs, hword, lib.keccak.len] at hlen
    · rintro ⟨hs, hr⟩
      rw [hs, hr]
      rfl
  · rw [hcontract, pre_ecrecover_eq]
    exact regular_pure (by decide) (errorless_pure _)

/-! ## Powers -/

theorem errorless_highest_bit (data : Bytes) (off l_exp i rounds : Nat) :
    errorless (highest_bit data off l_exp i rounds) := by
  induction rounds generalizing i with
  | zero => exact errorless_pure _
  | succ rounds ih =>
    exact errorless_bind (errorless_rd data _) fun x => errorless_ite (errorless_pure _) (ih (i + 1))

theorem errorless_mp_import (data : Bytes) (off len : Nat) : errorless (mp_import data off len) :=
  errorless_bind (errorless_guard _ _) fun _ => errorless_pure _

theorem ok_highest_bit (l_exp : Nat) {i rounds : Nat} (h : off + i + rounds ≤ data.length) :
    ∃ hp, ok (highest_bit data off l_exp i rounds) hp := by
  induction rounds generalizing i with
  | zero => exact ⟨0, ok_pure.2 rfl⟩
  | succ rounds ih =>
    have hbyte : ok (rd data (off + i)) data[off + i] := by
      unfold rd
      rw [List.getElem?_eq_getElem (by omega)]
      exact ok_pure.2 rfl
    obtain ⟨hp, hrest⟩ := ih (i := i + 1) (by omega)
    unfold highest_bit
    simp only [ok_bind]
    by_cases hx : data[off + i] ≠ 0
    · exact ⟨_, _, hbyte, by rw [if_pos hx]; exact ok_pure.2 rfl⟩
    · exact ⟨hp, _, hbyte, by rw [if_neg hx]; exact hrest⟩

theorem ok_mp_import {len n : Nat} :
    ok (mp_import data off len) n ↔ (len = 0 ∨ off + len ≤ data.length) ∧ beNat ((data.drop off).take len) = n := by
  simp only [mp_import, ok_bind, ok_guard, ok_pure, exists_const]

def givenPower (data : Bytes) : Nat :=
  mp_exptmod (beNat ((data.drop 96).take (declared data 0)))
    (beNat ((data.drop (96 + declared data 0)).take (declared data 32)))
    (beNat ((data.drop (96 + declared data 0 + declared data 32)).take (declared data 64)))

theorem errorless_modexp_result (data : Bytes) (l_base l_exp l_mod : Nat) :
    errorless (modexp_result data l_base l_exp l_mod) := by
  refine errorless_bind (errorless_mp_import _ _ _) fun _ => ?_
  refine errorless_bind (errorless_mp_import _ _ _) fun _ => ?_
  refine errorless_bind (errorless_mp_import _ _ _) fun _ => ?_
  exact errorless_bind (errorless_guard _ _) fun _ => errorless_pure _

theorem regular_throw : Priced.Regular (throw (-1)) where
  raised _ h := (raises_throw.1 h).symm
  price _ _ h := absurd h ok_throw
  errorless _ _ h := absurd h ok_throw

theorem regular_pre_modexp (data : Bytes) : (pre_modexp data).Regular := by
  unfold pre_modexp
  dsimp only
  split
  · exact regular_throw
  · split
    · exact regular_throw
    · constructor
      · intro e h
        exact absurd h (errorless_bind (errorless_highest_bit _ _ _ _ _) (fun _ => errorless_pure _) e)
      · intro cost res h
        obtain ⟨hp, -, h⟩ := ok_bind.1 h
        cases ok_pure.1 h
        exact Nat.lt_of_le_of_lt (Nat.div_le_self _ _) (Nat.mod_lt _ (by norm_num))
      · intro cost res h
        obtain ⟨hp, -, h⟩ := ok_bind.1 h
        cases ok_pure.1 h
        exact errorless_modexp_result _ _ _ _

theorem ok_modexp_result (h96 : 96 ≤ data.length) :
    ok (modexp_result data (declared data 0) (declared data 32) (declared data 64)) r ↔
      96 + declared data 0 + declared data 32 + declared data 64 ≤ data.length ∧
        (beBytes (givenPower data)).length ≤ 64 ∧ r = some (beBytes (givenPower data)) := by
  simp only [modexp_result, ok_bind, ok_mp_import, ok_guard, ok_pure]
  constructor
  · rintro ⟨_, ⟨hbase, rfl⟩, _, ⟨hexp, rfl⟩, _, ⟨hmod, rfl⟩, _, hsize, rfl⟩
    exact ⟨by omega, hsize, rfl⟩
  · rintro ⟨hfit, hsize, rfl⟩
    exact ⟨_, ⟨.inr (by omega), rfl⟩, _, ⟨.inr (by omega), rfl⟩, _, ⟨.inr (by omega), rfl⟩, (), hsize, rfl⟩

/-- The sum of the lengths is checked modulo `2 ^ 32`, but a larger one ends with a read behind the
call data. -/
theorem gives_pre_modexp (data out : Bytes) :
    (pre_modexp data).Gives out ↔
      96 + declared data 0 + declared data 32 + declared data 64 ≤ data.length ∧
        (beBytes (givenPower data)).length ≤ 64 ∧ beBytes (givenPower data) = out := by
  unfold Priced.Gives pre_modexp
  constructor
  · rintro ⟨cost, res, r, hok, hres, hout⟩
    simp only [ok_ite_throw, ok_bind] at hok
    obtain ⟨h96, -, hp, -, hpair⟩ := hok
    cases hpair
    obtain ⟨hfit, hsize, rfl⟩ := (ok_modexp_result (by omega)).1 hres
    exact ⟨hfit, hsize, hout⟩
  · rintro ⟨hfit, hsize, hout⟩
    have hexp : 96 + declared data 0 + 0 + min (declared data 32) 32 ≤ data.length := by omega
    obtain ⟨hp, hhp⟩ := ok_highest_bit (declared data 32) hexp
    rw [if_neg (by omega), if_neg (by omega)]
    exact ⟨_, _, _, ok_bind.2 ⟨hp, hhp, ok_pure.2 rfl⟩, (ok_modexp_result (by omega)).2 ⟨hfit, hsize, rfl⟩, hout⟩

theorem declared_eq (h : off + 32 ≤ data.length) :
    declared data off = beNat (extended data off 32) % 2 ^ 32 := by
  have hsplit : extended data off 32 = (data.drop off).take 28 ++ (data.drop (28 + off)).take 4 := by
    rw [extended_of_le h, show 32 = 28 + 4 from rfl, take_add, drop_drop, Nat.add_comm off 28]
  have hlow : ((data.drop (28 + off)).take 4).length = 4 := by
    rw [length_take, length_drop]
    omega
  have hlt := beNat_lt ((data.drop (28 + off)).take 4)
  rw [hlow] at hlt
  rw [hsplit, beNat_append, hlow, declared, bytes_to_int, take_of_length_le (by omega)]
  omega

theorem mp_exptmod_lt {base exp mod w : Nat} (h : mod < 256 ^ w) : mp_exptmod base exp mod < 256 ^ w := by
  unfold mp_exptmod
  split
  · exact Nat.pow_pos (by norm_num)
  · next hm => exact Nat.lt_trans (Nat.mod_lt _ (Nat.pos_of_ne_zero hm)) h

theorem power_lt (data : Bytes) : power data < 256 ^ modLength data := by
  apply mp_exptmod_lt
  have h := beNat_lt (extended data (96 + baseLength data + expLength data) (modLength data))
  rwa [length_extended] at h

theorem lengths_of_power_pos (h : 0 < power data) : 96 + baseLength data + expLength data < data.length := by
  by_contra hle
  have hmod : beNat (extended data (96 + baseLength data + expLength data) (modLength data)) = 0 :=
    beNat_extended_of_length_le (by omega) _
  rw [power, hmod] at h
  exact Nat.lt_irrefl 0 h

theorem givenPower_eq (hb : declared data 0 = baseLength data) (he : declared data 32 = expLength data)
    (hm : declared data 64 = modLength data) (hfit : 96 + baseLength data + expLength data + modLength data ≤ data.length) :
    givenPower data = power data := by
  unfold givenPower power
  rw [hb, he, hm, extended_of_le (by omega), extended_of_le (by omega), extended_of_le (by omega)]

theorem powers_agree_iff (hlen : data.length < 2 ^ 32) (hb : declared data 0 = baseLength data % 2 ^ 32)
    (he : declared data 32 = expLength data % 2 ^ 32) (hm : declared data 64 = modLength data % 2 ^ 32)
    (hfit : 96 + declared data 0 + declared data 32 + declared data 64 ≤ data.length) :
    ((beBytes (givenPower data)).length ≤ 64 ∧ givenPower data = power data ∧
        (modLength data = 0 ∨ 256 ^ (modLength data - 1) ≤ power data)) ↔
      modLength data = 0 ∨ modLength data ≤ 64 ∧ 256 ^ (modLength data - 1) ≤ power data := by
  constructor
  · rintro ⟨hsize, heq, h0 | hpow⟩
    · exact .inl h0
    · rw [heq] at hsize
      have hlt := lt_length_beBytes hpow
      exact .inr ⟨by omega, hpow⟩
  · rintro (h0 | ⟨hsmall, hpow⟩)
    · have hzero : power data = 0 := by
        have hlt := power_lt data
        rw [h0] at hlt
        omega
      have hgiven : givenPower data = 0 := by
        rw [givenPower, hm, h0]
        rfl
      rw [hgiven, hzero]
      exact ⟨by decide, rfl, .inl h0⟩
    · have hpos : 0 < power data := Nat.lt_of_lt_of_le (Nat.pow_pos (by norm_num)) hpow
      have hlengths := lengths_of_power_pos hpos
      rw [Nat.mod_eq_of_lt (by omega)] at hb he hm
      have heq := givenPower_eq hb he hm (by omega)
      have hsize := length_beBytes_le (power_lt data)
      rw [heq]
      exact ⟨by omega, rfl, .inr hpow⟩

theorem follows_modexp (lib : Library) (hlen : data.length < 2 ^ 32) :
    Contract.modexp.Follows lib data ↔ Contract.modexp.Meets lib data := by
  have hcontract : contract lib (Contract.modexp.address.getD 19 0) data = pre_modexp data := rfl
  rw [follows_iff_gives, hcontract, gives_pre_modexp, Contract.output, beBytes_eq_padLeft_iff (power_lt data), Contract.Meets]
  · rcases Nat.lt_or_ge data.length 96 with hshort | h96
    · exact ⟨fun h => absurd h.1 (by omega), fun h => absurd h.1 (by omega)⟩
    · have hb : declared data 0 = baseLength data % 2 ^ 32 := declared_eq (by omega)
      have he : declared data 32 = expLength data % 2 ^ 32 := declared_eq (by omega)
      have hm : declared data 64 = modLength data % 2 ^ 32 := declared_eq (by omega)
      rw [← hb, ← he, ← hm]
      exact and_congr_right fun hfit => powers_agree_iff hlen hb he hm hfit
  · exact regular_pre_modexp data

/-- A contract returns its output exactly for the call data that meet its condition: there is no key to
recover, or the power needs every byte of the declared length. For a hash there are none. -/
theorem precompiled_iff (lib : Library) (c : Contract) {data : Bytes} (hlen : data.length < 2 ^ 32) :
    c.Follows lib data ↔ c.Meets lib data := by
  cases c with
  | ecrecover =>
    rw [follows_ecrecover, recovered_eq_none]
    rfl
  | ripemd160 => exact iff_of_false (follows_ripemd160 lib data) id
  | modexp => exact follows_modexp lib hlen

/-! ## Cases -/

/-- A library that recovers a key from every signature with this last byte. -/
def sampleLibrary (last : UInt8) : Library where
  keccak := Hash.ofTable []
  sha256 := Hash.ofTable []
  ripemd160 _ := List.replicate 20 7
  ripemd160_length _ := rfl
  recover _ signature := if signature.getLast? = some last then some (List.replicate 64 1) else none
  pre_ec_add _ := throw (-1)
  pre_ec_mul _ := throw (-1)
  pre_blake2 _ := throw (-1)

def powerData (base exp mod : Bytes) : Bytes :=
  word base.length ++ word exp.length ++ word mod.length ++ base ++ exp ++ mod

/-- A digest, 27, `r` and `s`. -/
def signedData : Bytes := List.replicate 32 9 ++ word 27 ++ List.replicate 64 1

/-- `3 ^ 5 % 251` is 243 and fills its byte. -/
theorem precompiled_of_filled : Contract.modexp.Follows (sampleLibrary 0) (powerData [3] [5] [251]) :=
  (precompiled_iff (sampleLibrary 0) .modexp (by decide)).2 ⟨by decide, .inr ⟨by decide, by decide⟩⟩

/-- The address of a signer and a hash come with 20 bytes, `3 ^ 1 % 5` with one byte where two are
declared, and a power of 65 bytes is written over the end of the 64 bytes. Without any call data
`modexp` fails. -/
theorem precompiled_narrow :
    (∃ vm, ends (run_contract (sampleLibrary 0) Contract.ecrecover.address) (richVm signedData) (.ok ()) vm ∧
      vm.evm.returned.length = 20 ∧ (Contract.ecrecover.output (sampleLibrary 0) signedData).length = 32) ∧
    (∃ vm, ends (run_contract (sampleLibrary 0) Contract.ripemd160.address) (richVm []) (.ok ()) vm ∧
      vm.evm.returned = List.replicate 20 7 ∧
      Contract.ripemd160.output (sampleLibrary 0) [] = List.replicate 12 0 ++ List.replicate 20 7) ∧
    (∃ vm, ends (run_contract (sampleLibrary 0) Contract.modexp.address) (richVm (powerData [3] [1] [0, 5])) (.ok ()) vm ∧
      vm.evm.returned = [3] ∧ Contract.modexp.output (sampleLibrary 0) (powerData [3] [1] [0, 5]) = [0, 3]) ∧
    faults (run_contract (sampleLibrary 0) Contract.modexp.address)
      (richVm (powerData (1 :: List.replicate 64 0) [1] (2 :: List.replicate 64 0))) (.write 64 64) ∧
    (∃ vm, ends (run_contract (sampleLibrary 0) Contract.modexp.address) (richVm []) (.error (-1)) vm ∧
      Contract.modexp.output (sampleLibrary 0) [] = []) :=
  ⟨⟨(richVm signedData).paid 3000 (some (List.replicate 20 0)), by decide +kernel, by decide +kernel, by decide +kernel⟩,
    ⟨(richVm []).paid 600 (some (List.replicate 20 7)), by decide, by decide, by decide⟩,
    ⟨(richVm (powerData [3] [1] [0, 5])).paid 0 (some [3]), by decide, by decide, by decide⟩,
    by decide +kernel, ⟨richVm [], by decide +kernel, by decide +kernel⟩⟩

end In3.Evm
