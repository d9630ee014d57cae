import In3.Evm.Run
/-!
# The precompiled contracts (`verifier/eth1/evm/precompiled.c`)

A contract reads the call data, asks for its price, and sets the returned data. What happens in front
of the price and behind it are two runs: the first one ends with the price and with the second one,
which is only run if the price is paid. `none` is a result that leaves the returned data as they are.

The hashes and the curves are parameters. `mp_exptmod` is taken as what it is for; it fails for the
modulus zero, and then its result stays zero.
-/
open Lib

namespace In3.Evm

def G_PRE_EC_RECOVER : Nat := 3000
def G_PRE_SHA256 : Nat := 60
def G_PRE_SHA256_WORD : Nat := 12
def G_PRE_RIPEMD160 : Nat := 600
def G_PRE_RIPEMD160_WORD : Nat := 120
def G_PRE_IDENTITY : Nat := 15
def G_PRE_IDENTITY_WORD : Nat := 3
def G_PRE_MODEXP_GQUAD_DIVISOR : Nat := 20

/-- What is done in front of the price; the price; what is done behind it. -/
abbrev Priced := Checked (Nat × Checked (Option Bytes))

/-- What the contracts call. -/
structure Library where
  keccak : Hash
  sha256 : Hash
  ripemd160 : Bytes → Bytes
  ripemd160_length : ∀ b, (ripemd160 b).length = 20
  /-- `crypto_recover`: the public key for a digest and a signature of 65 bytes -/
  recover (digest signature : Bytes) : Option Bytes
  pre_ec_add : Bytes → Priced
  pre_ec_mul : Bytes → Priced
  pre_blake2 : Bytes → Priced

/-- A price for every begun word of the call data. -/
def word_price (base per_word len : Nat) : Nat := (base + (len + 31) % 2 ^ 32 / 32 * per_word) % 2 ^ 32

def pre_ecrecover (lib : Library) (call_data : Bytes) : Priced :=
  return (G_PRE_EC_RECOVER,
    if call_data.length < 128 then return none
    else
      match optimize_len ((call_data.drop 32).take 32) with
      | [v] =>
        let sig := (call_data.drop 64).take 64 ++ [if 27 ≤ v then v - 27 else v]
        return (lib.recover (call_data.take 32) sig).map fun pubkey => (lib.keccak.fn pubkey).drop 12
      | _ => return none)

def pre_sha256 (lib : Library) (call_data : Bytes) : Priced :=
  return (word_price G_PRE_SHA256 G_PRE_SHA256_WORD call_data.length, return some (lib.sha256.fn call_data))

def pre_ripemd160 (lib : Library) (call_data : Bytes) : Priced :=
  return (word_price G_PRE_RIPEMD160 G_PRE_RIPEMD160_WORD call_data.length, return some (lib.ripemd160 call_data))

def pre_identity (call_data : Bytes) : Priced :=
  return (word_price G_PRE_IDENTITY G_PRE_IDENTITY_WORD call_data.length, return some call_data)

/-! ## Powers -/

def mp_import (data : Bytes) (off len : Nat) : Checked Nat := do
  Guarded.guard (len = 0 ∨ off + len ≤ data.length) (.read off data.length)
  return beNat ((data.drop off).take len)

def mp_exptmod (base exp mod : Nat) : Nat := if mod = 0 then 0 else base ^ exp % mod

/-- `hp`: the place of the highest bit of the exponent at `off`, if it is in the first `rounds` bytes
from the byte `i` on. It is kept in a byte. -/
def highest_bit (data : Bytes) (off l_exp : Nat) : Nat → Nat → Checked Nat
  | _, 0 => return 0
  | i, rounds + 1 => do
    let x ← rd data (off + i)
    if x ≠ 0 then return (8 * (l_exp - i - 1) + Nat.log2 x.toNat) % 256
    else highest_bit data off l_exp (i + 1) rounds

/-- `ael`. -/
def adjusted_exp (l_exp hp : Nat) : Nat := if l_exp ≤ 32 then hp else (8 * (l_exp - 32) + hp) % 2 ^ 32

def mult_complexity (lm : Nat) : Nat :=
  if lm ≤ 64 then lm * lm
  else if lm ≤ 1024 then lm * lm / 4 + 96 * lm - 3072
  else lm * lm / 16 + 480 * lm - 199680

def modexp_price (l_base l_mod ael : Nat) : Nat :=
  mult_complexity (max l_mod l_base) * max 1 ael % 2 ^ 64 / G_PRE_MODEXP_GQUAD_DIVISOR

/-- The declared length at `off`: the last four bytes of a word. -/
def declared (call_data : Bytes) (off : Nat) : Nat := bytes_to_int ((call_data.drop (28 + off)).take 4)

/-- `pre_modexp` behind its price: the result is exported into 64 bytes. -/
def modexp_result (call_data : Bytes) (l_base l_exp l_mod : Nat) : Checked (Option Bytes) := do
  let m_base ← mp_import call_data 96 l_base
  let m_exp ← mp_import call_data (96 + l_base) l_exp
  let m_mod ← mp_import call_data (96 + l_base + l_exp) l_mod
  let res := mp_export (mp_exptmod m_base m_exp m_mod)
  Guarded.guard (res.length ≤ 64) (Fault.write 64 64)
  return some res

def pre_modexp (call_data : Bytes) : Priced :=
  let l_base := declared call_data 0
  let l_exp := declared call_data 32
  let l_mod := declared call_data 64
  if call_data.length < 96 then throw (-1)
  else if call_data.length < (96 + l_base + l_exp + l_mod) % 2 ^ 32 then throw (-1)
  else do
    let hp ← highest_bit call_data (96 + l_base) l_exp 0 (min l_exp 32)
    return (modexp_price l_base l_mod (adjusted_exp l_exp hp), modexp_result call_data l_base l_exp l_mod)

/-! ## Running a contract -/

def contract (lib : Library) (id : UInt8) (call_data : Bytes) : Priced :=
  match id.toNat with
  | 1 => pre_ecrecover lib call_data
  | 2 => pre_sha256 lib call_data
  | 3 => pre_ripemd160 lib call_data
  | 4 => pre_identity call_data
  | 5 => pre_modexp call_data
  | 6 => lib.pre_ec_add call_data
  | 7 => lib.pre_ec_mul call_data
  | 9 => lib.pre_blake2 call_data
  | _ => throw (-1)

/-- The price is paid, and the result is the returned data of the frame. -/
def charge (p : Priced) : M Unit := do
  let (cost, res) ← checked p
  subgas cost
  let data ← checked res
  match data with
  | none => return ()
  | some data =>
    let buffer ← new_buffer data
    modifyEvm fun evm => { evm with return_data := some buffer }

/-- `evm_run_precompiled` with the contracts themselves. -/
def run_contract (lib : Library) (address : Bytes) : M Unit := do
  let evm ← getEvm
  charge (contract lib (address.getD 19 0) evm.call_data)

end In3.Evm
