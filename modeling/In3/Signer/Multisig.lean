import In3.Lib.Region
import In3.Nano.Blockheader
import In3.Nano.Serialize
/-!
# Multi signature wallets (`signer/multisig/multisig.c`)

`gs_prepare_tx` collects signatures of the owners until there are as many as the threshold: the account
itself, the signatures that were passed, and the owners who approved the hash before. Then it executes
the transaction through the wallet, or approves its hash.

The signatures are collected in an array that is not cleared. An entry has a pointer to an address, and
a recovered address is written through the pointer that the entry has from an earlier signature which
was not taken. That signature has been read by then, and it is the address of no other entry, so here an
entry holds the address itself; the pointer of the next entry is kept beside the array. A pointer that
was never set is a region of size 0. The length of a passed string is below `2 ^ 28`.
-/
open Lib

namespace In3.Signer

abbrev MsRun := Guarded Access ReqError

structure multisig_t where
  address : Bytes
  threshold : Nat
  owners : Option (List Bytes)
  deriving DecidableEq, Repr

structure tx_data_t where
  nonce : Bytes
  to_address : Bytes
  value : Bytes
  data : Bytes
  gas : Bytes
  gas_price : Bytes
  v : Bytes
  deriving DecidableEq, Repr

/-- `sig_data_t`; `data` is a part of the passed signatures, its offset and its length. -/
structure sig_data_t where
  address : Bytes
  sig : Bytes
  data : Nat × Nat
  deriving DecidableEq, Repr

/-- What `gs_prepare_tx` reads: the account, the transaction, the passed signatures, and what a call of
the wallet with some data returns. -/
structure Prepare where
  crypto : Crypto
  account : Bytes
  old_tx : Bytes
  msSigs : Option Bytes
  call : Bytes → Except ReqError Bytes

def Prepare.called (ctx : Prepare) (data : Bytes) : MsRun Bytes := ExceptT.mk (.ok (ctx.call data))

/-! ## The transaction -/

def tx_field (raw : Bytes) (index : Int) (name : String) : MsRun Bytes :=
  match rlp_decode_in_list raw index none with
  | none => Guarded.fault (.read raw.length raw.length)
  | some (1, some b) => return b
  | some _ => throw (.set_error ("invalid " ++ name ++ " in txdata") IN3_EINVAL)

def decode_tx (raw : Bytes) : MsRun tx_data_t := do
  let nonce ← tx_field raw 0 "nonce"
  let gas_price ← tx_field raw 1 "gasprice"
  let gas ← tx_field raw 2 "gas"
  let to_address ← tx_field raw 3 "to"
  let value ← tx_field raw 4 "value"
  let data ← tx_field raw 5 "data"
  let v ← tx_field raw 6 "v"
  return { nonce, to_address, value, data, gas, gas_price, v }

def cpy_right (raw : Bytes) (index : Nat) (data : Bytes) : MsRun Bytes :=
  Region.store raw (4 + index * 32 + 32 - data.length) data

/-- The number of bytes that some data take with their length in front of them. -/
def padded_size (len : Nat) : Nat := ((len + 31) / 32 + 1) * 32

/-- The arguments that the two calls of the wallet share, in a cleared buffer. -/
def call_data (tx_data : tx_data_t) (size : Nat) (selector : Bytes) : MsRun Bytes := do
  let offset_data := 4 + 10 * 32
  let raw ← Region.store (List.replicate size 0) 0 selector
  let raw ← cpy_right raw 0 tx_data.to_address
  let raw ← cpy_right raw 1 tx_data.value
  let raw ← Region.store raw (4 + 64 + 28) (int_to_bytes (offset_data - 4))
  let raw ← Region.store raw (offset_data + 28) (int_to_bytes tx_data.data.length)
  let raw ← Region.store raw (offset_data + 32) tx_data.data
  let raw ← cpy_right raw 4 tx_data.gas
  let raw ← cpy_right raw 5 tx_data.gas
  cpy_right raw 6 tx_data.gas_price

def get_tx_hash (ctx : Prepare) (tx_data : tx_data_t) (nonce : Nat) : MsRun Bytes := do
  let raw ← call_data tx_data (4 + 10 * 32 + padded_size tx_data.data.length) [0xd8, 0xd1, 0x1f, 0x78]
  let raw ← Region.store raw (4 + 9 * 32 + 24) (long_to_bytes nonce)
  let result ← ctx.called raw
  if result.length ≠ 32 then throw (.set_error "invalid getTransactionHash result!" IN3_EINVAL)
  return result

/-! ## The owners -/

/-- `is_valid`: the new address is one of the owners, and not that of the first entry. The loop over the
`sig_count` entries compares with the first one each time. -/
def is_valid (data : List sig_data_t) (owners : List Bytes) (new_sig : Bytes) (sig_count : Nat) : Bool :=
  owners.contains new_sig && (List.range sig_count).all fun _ => (data.head?.map (·.address)) ≠ some new_sig

def unless_waiting {α : Type} (x : MsRun α) : MsRun (Except ReqError α) :=
  ExceptT.mk (x.run.map fun
    | .ok a => .ok (.ok a)
    | .error (.ret code) => if code = IN3_WAITING then .ok (.error (.ret code)) else .error (.ret code)
    | .error e => .error e)

/-- `ensure_owners`: the wallet with its owners and its threshold. -/
def ensure_owners (ctx : Prepare) (ms : multisig_t) : MsRun multisig_t :=
  match ms.owners with
  | some _ => return ms
  | none => do
    let ret ← unless_waiting fetch_owners
    match ctx.call [0xe7, 0x52, 0x35, 0xb8], ret with
    | .ok tmp, ret =>
      if tmp.length ≠ 32 then throw (.set_error "invalid threshold result" IN3_ERPC)
      else
        let owners ← ExceptT.mk (.ok ret)
        return { ms with owners := some owners, threshold := bytes_to_int (tmp.drop 28) }
    | .error e, .ok _ => throw e
    | .error _, .error e => throw e
where
  fetch_owners : MsRun (List Bytes) := do
    let tmp ← ctx.called [0xa0, 0xe6, 0x7e, 0x2b]
    if tmp.length < 64 then throw (.set_error "invalid owner result" IN3_ERPC)
    let owners_len := bytes_to_int ((tmp.drop 60).take 4)
    if tmp.length ≠ (64 + 32 * owners_len) % 2 ^ 32 then throw (.set_error "invalid owner result length" IN3_ERPC)
    (List.range owners_len).mapM fun i : Nat => Region.slice tmp (i * 32 + 64 + 12) 20

/-! ## Passed signatures -/

/-- The entries that were taken, the place in the signatures to which the pointer of the next entry
points, and the signatures. -/
structure Collected where
  sig_data : List sig_data_t
  slot : Option Nat
  signatures : Bytes
  deriving DecidableEq, Repr

/-- The address that signed a hash. -/
def ecrecover_sig (C : Crypto) (hash sig : Bytes) : Option Bytes :=
  (C.recover hash sig).map fun pubkey => (C.keccak.fn pubkey).drop 12

def read_signature (C : Crypto) (tx_hash : Bytes) (i : Nat) (s : Collected) : MsRun (sig_data_t × Collected) := do
  let v ← Region.byte s.signatures (i + 64)
  let sig ← Region.slice s.signatures i 65
  if v = 0 then
    let offset := bytes_to_int ((sig.drop 60).take 4)
    let size ← Region.slice s.signatures (offset + 28) 4
    let entry := { address := (sig.drop 12).take 20, sig := sig, data := (offset, (32 + bytes_to_int size) % 2 ^ 32) }
    return (entry, { s with slot := some (i + 12) })
  else if v = 1 then
    return ({ address := (sig.drop 12).take 20, sig := sig, data := (0, 0) }, { s with slot := some (i + 12) })
  else if 26 < v then
    match ecrecover_sig C tx_hash sig with
    | none => throw (.set_error "could not recover the signature" IN3_EINVAL)
    | some address =>
      match s.slot with
      | none => Guarded.fault (.write 0 0)
      | some at_ =>
        let signatures ← Region.store s.signatures at_ address
        return ({ address := address, sig := sig, data := (0, 0) }, { s with signatures := signatures })
  else throw (.set_error "invalid signature (v-value)" IN3_EINVAL)

/-- The loop of `fill_signature`; there are at most `rounds` signatures behind `i`. -/
def fill_loop (C : Crypto) (owners : List Bytes) (threshold : Nat) (tx_hash : Bytes) : Nat → Nat → Collected → MsRun Collected
  | 0, _, s => return s
  | rounds + 1, i, s =>
    if i < s.signatures.length ∧ s.sig_data.length < threshold then do
      let (entry, s) ← read_signature C tx_hash i s
      if is_valid s.sig_data owners entry.address s.sig_data.length then
        fill_loop C owners threshold tx_hash rounds (i + 65) { s with sig_data := s.sig_data ++ [entry], slot := none }
      else fill_loop C owners threshold tx_hash rounds (i + 65) s
    else return s

def fill_signature (C : Crypto) (signatures : Option Bytes) (owners : List Bytes) (threshold : Nat)
    (sig_data : List sig_data_t) (tx_hash : Bytes) : MsRun Collected :=
  match signatures with
  | none => return ⟨sig_data, none, []⟩
  | some signatures => fill_loop C owners threshold tx_hash (signatures.length / 65 + 1) 0 ⟨sig_data, none, signatures⟩

/-! ## Approved hashes -/

def check_approved (owner tx_hash : Bytes) : Bytes := [0x7d, 0x83, 0x29, 0x74] ++ List.replicate 12 0 ++ owner ++ tx_hash

def approved_entry (owner : Bytes) : sig_data_t :=
  { address := owner, sig := List.replicate 12 0 ++ owner ++ List.replicate 33 0, data := (0, 0) }

def add_approved (ctx : Prepare) (owners : List Bytes) (threshold : Nat) (tx_hash : Bytes) :
    List Bytes → List sig_data_t → MsRun (List sig_data_t)
  | [], sig_data => return sig_data
  | owner :: rest, sig_data =>
    if sig_data.length < threshold then
      if is_valid sig_data owners owner sig_data.length then do
        let result ← ctx.called (check_approved owner tx_hash)
        if result.length ≠ 32 then throw (.set_error "invalid response for approved check" IN3_EINVAL)
        else if result.getD 31 0 ≠ 0 then add_approved ctx owners threshold tx_hash rest (sig_data ++ [approved_entry owner])
        else add_approved ctx owners threshold tx_hash rest sig_data
      else add_approved ctx owners threshold tx_hash rest sig_data
    else return sig_data

/-! ## The new transaction -/

/-- `create_signatures`: the signatures of 65 bytes, and behind them the data to which they point. -/
def create_signatures (signatures : Bytes) (sig_data : List sig_data_t) : MsRun Bytes :=
  (sig_data.zipIdx).foldlM (fun bb (e, i) => do
    if e.data.2 = 0 then return bb
    else
      let bb' ← Region.store bb (i * 65 + 32) (List.replicate 28 0 ++ int_to_bytes bb.length)
      let data ← Region.slice signatures e.data.1 e.data.2
      return bb' ++ data) (sig_data.map (·.sig)).flatten

def get_exec_tx_data (tx_data : tx_data_t) (signatures : Bytes) (sig_data : List sig_data_t) : MsRun Bytes := do
  let sigs ← create_signatures signatures sig_data
  let offset_sig := 4 + 10 * 32 + padded_size tx_data.data.length
  let raw ← call_data tx_data (offset_sig + padded_size sigs.length) [0x6a, 0x76, 0x12, 0x02]
  let raw ← Region.store raw (4 + 9 * 32 + 28) (int_to_bytes (offset_sig - 4))
  let raw ← Region.store raw (offset_sig + 28) (int_to_bytes sigs.length)
  Region.store raw (offset_sig + 32) sigs

def rlp_encode_uint (val : Nat) : Bytes := rlp_encode_item (uint_bytes (long_to_bytes val))

/-- A transaction to the wallet without a value. -/
def wallet_tx (tx_data : tx_data_t) (gas : Nat) (ms data : Bytes) : Bytes :=
  rlp_encode_to_list (rlp_encode_item tx_data.nonce ++ rlp_encode_item tx_data.gas_price ++ rlp_encode_uint gas ++
    rlp_encode_item ms ++ rlp_encode_item [] ++ rlp_encode_item data ++ rlp_encode_item tx_data.v ++
    rlp_encode_item [] ++ rlp_encode_item [])

def exec_tx (tx_data : tx_data_t) (signatures : Bytes) (sig_data : List sig_data_t) (ms : Bytes) : MsRun Bytes := do
  let data ← get_exec_tx_data tx_data signatures sig_data
  return wallet_tx tx_data ((bytes_to_long tx_data.gas + 300000) % 2 ^ 64) ms data

def approve_hash (tx_data : tx_data_t) (hash ms : Bytes) : Bytes :=
  wallet_tx tx_data 100000 ms ([0xd4, 0xd9, 0xbd, 0xcd] ++ hash)

def own_entry (account : Bytes) : sig_data_t :=
  { address := account, sig := List.replicate 12 0 ++ account ++ List.replicate 32 0 ++ [1], data := (0, 0) }

/-- What `gs_prepare_tx` has when it decides. -/
structure Decision where
  owners : List Bytes
  threshold : Nat
  tx_data : tx_data_t
  tx_hash : Bytes
  signatures : Bytes
  sig_data : List sig_data_t
  deriving DecidableEq, Repr

/-- The first part of `gs_prepare_tx`: the owners and the nonce. -/
def prepare_wallet (ms : multisig_t) (ctx : Prepare) : MsRun (multisig_t × Nat) := do
  let ret ← unless_waiting (ensure_owners ctx ms)
  let tmp ← ctx.called [0xaf, 0xfe, 0xd0, 0xe0]
  if tmp.length ≠ 32 then throw (.set_error "invalid nonce result" IN3_ERPC)
  let ms ← ExceptT.mk (.ok ret)
  return (ms, bytes_to_long (tmp.drop 24))

def own_signature (owners : List Bytes) (threshold : Nat) (account : Bytes) : MsRun (List sig_data_t) :=
  if is_valid [] owners account 0 then do
    Guarded.guard (0 < threshold) (.write 0 0)
    return [own_entry account]
  else return []

/-- `gs_prepare_tx` up to the decision. -/
def collect (ms : multisig_t) (ctx : Prepare) : MsRun Decision := do
  let (ms, nonce) ← prepare_wallet ms ctx
  let owners := ms.owners.getD []
  let sig_data ← own_signature owners ms.threshold ctx.account
  let tx_data ← decode_tx ctx.old_tx
  let tx_hash ← get_tx_hash ctx tx_data nonce
  let s ← fill_signature ctx.crypto ctx.msSigs owners ms.threshold sig_data tx_hash
  let sig_data ← add_approved ctx owners ms.threshold tx_hash owners s.sig_data
  return { owners, threshold := ms.threshold, tx_data, tx_hash, signatures := s.signatures, sig_data }

/-- `gs_prepare_tx`: the new transaction. -/
def gs_prepare_tx (ms : multisig_t) (ctx : Prepare) : MsRun Bytes := do
  let d ← collect ms ctx
  if d.threshold ≤ d.sig_data.length then exec_tx d.tx_data d.signatures d.sig_data ms.address
  else if is_valid d.sig_data d.owners ctx.account 0 then return approve_hash d.tx_data d.tx_hash ms.address
  else throw (.set_error
    "the account is not an owner and does not have enough signatures to execute the transaction!" IN3_EINVAL)

end In3.Signer
