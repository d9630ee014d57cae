import In3.Basic.Account
import In3.Nano.BlockheaderTheorems
/-!
# The block of an account request

The last parameter of an account request may be a block number. The header is
compared with it only if its token is a small number by then: a hex string is still
a string, unless some accessor has read it before, and a number of more than 28
bits is stored as bytes. `block_checked_iff` says that the comparison is made for
no other token, whatever the response is.
-/
open Lib Run

namespace In3

/-! ## Requests -/

/-- The token shows the block number `n`: a number as the parser stores it, or a hex string. -/
def Denotes : Tok → Nat → Prop
  | .integer v, n => v < 2 ^ 28 ∧ v = n
  | .bytes (some b), n => beNat b = n ∧ n < 2 ^ 64
  | .string s false, n => is_hex s = true ∧ 2 < s.length ∧ beNat (hex_to_bytes (s.drop 2)) = n ∧ n < 2 ^ 64
  | _, _ => False

/-- A request for the state of an account: its address, for `eth_getStorageAt` a key, and the block. -/
structure AccountRequest where
  method : Method
  address : Tok
  key : Tok
  block : Tok
  addr : Bytes
  keyBytes : Bytes
  method_eq : method ∈ [.eth_getBalance, .eth_getTransactionCount, .eth_getCode, .eth_getStorageAt]
  address_eq : d_bytes_st address = .bytes (some addr)
  addr_len : addr.length = 20
  key_eq : d_bytes key = some keyBytes

def AccountRequest.params (rq : AccountRequest) : List Tok :=
  if rq.method = .eth_getStorageAt then [rq.address, rq.key, rq.block] else [rq.address, rq.block]

theorem AccountRequest.last_param (rq : AccountRequest) (text : Bytes) :
    d_get_at (.array text rq.params) (d_len (.array text rq.params) - 1) = some rq.block := by
  unfold AccountRequest.params
  split <;> rfl

theorem AccountRequest.first_param (rq : AccountRequest) (text : Bytes) :
    d_get_at (.array text rq.params) 0 = some rq.address := by
  unfold AccountRequest.params
  split <;> rfl

theorem AccountRequest.method_ne (rq : AccountRequest) : rq.method ≠ .in3_nodeList ∧ rq.method ≠ .eth_call := by
  have h := rq.method_eq
  constructor
  · intro e
    rw [e] at h
    revert h
    decide
  · intro e
    rw [e] at h
    revert h
    decide

def AccountRequest.Answers (rq : AccountRequest) (vc : AccountCtx) : Prop :=
  vc.method = rq.method ∧ vc.result.isSome ∧ ∃ text, vc.request.prop K_PARAMS = .array text rq.params

def response_number (vc : AccountCtx) : Option Nat := (d_bytes (vc.proof.prop K_BLOCK)).bind header_number_of

/-! ## The check -/

variable {C : Crypto} {header root : Bytes} {rq : AccountRequest} {vc : AccountCtx}

theorem header_number_of_ok {vc : Vctx} {expected : Option Bytes}
    (h : (eth_verify_blockheader C vc (some header) expected).ok ()) :
    ∃ number, rlp_decode_in_list header BLOCKHEADER_NUMBER none = some (1, some number) := by
  unfold eth_verify_blockheader at h
  simp only [ok_check, ok_bind, ok_lift, not_not] at h
  obtain ⟨-, ⟨r, temp⟩, hdec, hr, number, hnum, -⟩ := h
  dsimp only at hr hnum
  rw [hr, hnum] at hdec
  exact ⟨number, hdec⟩

theorem checked_block_of_answers (h : rq.Answers vc)
    (ht : d_type rq.block = .T_INTEGER) : checked_block vc = some rq.block := by
  obtain ⟨hm, -, text, hp⟩ := h
  have hmethod : vc.method ≠ .in3_nodeList := hm ▸ rq.method_ne.1
  unfold checked_block
  rw [hp, if_neg hmethod, rq.last_param]
  simp [ht]

theorem number_checked {n : Nat} (hn : Denotes rq.block n)
    (ht : d_type rq.block = .T_INTEGER) (ha : rq.Answers vc) (h : (eth_verify_account_proof C vc).ok ()) :
    response_number vc = some n := by
  have hlong : d_long rq.block = n := by
    cases hb : rq.block with
    | integer v =>
      rw [hb] at hn
      obtain ⟨hv, rfl⟩ := hn
      exact Nat.mod_eq_of_lt hv
    | bytes _ | string _ _ | array _ _ | object _ _ | boolean _ | null =>
      rw [hb] at ht
      cases ht
  have hres : vc.result.isNone = false := by
    have := ha.2.1
    cases hr : vc.result <;> simp_all
  unfold eth_verify_account_proof at h
  rw [hres, if_neg (by decide)] at h
  split at h
  case isTrue => simp at h
  case isFalse =>
    split at h
    case h_1 => simp at h
    case h_2 header hheader =>
      simp only [ok_bind, ok_orFail] at h
      obtain ⟨_, hverified, _, hblock, -⟩ := h
      obtain ⟨number, hdec⟩ := header_number_of_ok hverified
      unfold check_block at hblock
      simp only [checked_block_of_answers ha ht, ok_bind, ok_lift, hdec, Option.some.injEq, exists_eq_left',
        if_true, ok_ite_throw, not_not, hlong] at hblock
      simp [response_number, hheader, header_number_of, hdec, hblock.1]

/-! ## Other tokens -/

/-- A header of nine fields with the number `n` below 128, and no other content. -/
def numberHeader (n : UInt8) : Bytes :=
  rlp_encode_to_list (List.replicate 3 0x80 ++ rlp_encode_item (List.replicate 32 0) ++ List.replicate 4 0x80 ++ [n])

/-- A storage entry with the value zero and no proof nodes. -/
def missingSlot (key : Tok) : Tok := .object [] [(K_KEY, key), (K_VALUE, .integer 0), (K_PROOF, .array [] [])]

/-- An entry that shows an account as missing, with no proof nodes at all. -/
def missingEntry (addr : Bytes) (key : Tok) : Tok :=
  .object [] [(K_ADDRESS, .bytes (some addr)), (K_ACCOUNT_PROOF, .array [] []), (K_NONCE, .integer 0),
    (K_BALANCE, .integer 0), (K_STORAGE_HASH, .bytes (some EMPTY_ROOT_HASH)), (K_CODE_HASH, .bytes (some EMPTY_HASH)),
    (K_STORAGE_PROOF, .array [] [missingSlot key])]

/-- A response to the request with the header `numberHeader n` that needs no signature. -/
def missingResponse (rq : AccountRequest) (n : UInt8) : AccountCtx where
  signers := []
  version := 2
  registry_id := List.replicate 32 0
  verified_hashes := []
  proof := .object [] [(K_BLOCK, .bytes (some (numberHeader n))), (K_ACCOUNTS, .array [] [missingEntry rq.addr rq.key])]
  signers_length := by decide
  method := rq.method
  request := .object [] [(K_PARAMS, .array [] rq.params)]
  result := some (if rq.method = .eth_getCode then .string [48, 120] false else .integer 0)
  has_proof := true

theorem verify_trie_nil {path : Bytes} (h : root.length = 32) :
    verify_trie C root path [] .null = some true := by
  simp [verify_trie, h, trie_verify_proof, verify_nodes]

theorem missingEntry_account (addr : Bytes) (key : Tok) (hr : root.length = 32)
    (hroot : rlp_decode_in_list header BLOCKHEADER_STATE_ROOT none = some (1, some root)) :
    (verify_account_entry C header (missingEntry addr key)).ok () := by
  obtain ⟨address, haddr⟩ : ∃ address, d_bytesl ((missingEntry addr key).prop K_ADDRESS) 20 = some address := ⟨_, rfl⟩
  have hproof : d_get (missingEntry addr key) K_ACCOUNT_PROOF = some (.array [] []) := rfl
  have hvec : d_create_bytes_vec (.array [] []) = some [] := rfl
  have hexp : account_expected (missingEntry addr key) = .null := by
    have hsame : is_not_existened (missingEntry addr key) = is_not_existened (missingEntry [] .null) := rfl
    have hne : is_not_existened (missingEntry [] .null) = true := by decide
    rw [account_expected, hsame, if_pos hne]
  unfold verify_account_entry
  simp [hroot, haddr, hproof, hvec, hexp, verify_trie_nil hr]

theorem missingSlot_ok (key : Tok) (root : Bytes) : (verify_storage C root true (missingSlot key)).ok () := by
  have hval : (missingSlot key).prop K_VALUE = .integer 0 := rfl
  have hproof : (missingSlot key).prop K_PROOF = .array [] [] := rfl
  have hzero : optimize_len (d_bytes_to (.integer 0) 32) = [0] := by decide
  simp [verify_storage, hval, hproof, hzero, d_type, d_len]

theorem missingEntry_storage (addr : Bytes) (key : Tok) :
    (verify_storage_entries C (missingEntry addr key)).ok () := by
  have hproof : d_get (missingEntry addr key) K_STORAGE_PROOF = some (.array [] [missingSlot key]) := rfl
  have hhash : d_get (missingEntry addr key) K_STORAGE_HASH = some (.bytes (some EMPTY_ROOT_HASH)) := rfl
  have hroot : storage_root (missingEntry addr key) = some EMPTY_ROOT_HASH := by
    have hsame : storage_root (missingEntry addr key) = storage_root (missingEntry [] .null) := rfl
    rw [hsame]
    decide
  have hmem : memcmp_eq EMPTY_ROOT_HASH EMPTY_ROOT_HASH 32 = some true := by decide
  unfold verify_storage_entries
  simp only [hproof, hhash, ok_bind, ok_lift, hroot, Option.some.injEq, exists_eq_left', hmem, ok_forM]
  intro p hp
  rw [List.mem_singleton.1 hp]
  exact missingSlot_ok key _

theorem address_found (rq : AccountRequest) :
    d_eq_ptr (some rq.address) (entry_address (missingEntry rq.addr rq.key)) = true := by
  have haddr : d_get (missingEntry rq.addr rq.key) K_ADDRESS = some (.bytes (some rq.addr)) := rfl
  have hpad : d_bytesl_st (.bytes (some rq.addr)) 20 = .bytes (some rq.addr) := by
    simp [d_bytesl_st, d_bytes, d_bytes_st, rq.addr_len]
  have hflat : d_eq_flat (.bytes (some rq.addr)) (.bytes (some rq.addr)) = true := by
    simp [d_eq_flat, b_cmp]
  have heq := rq.address_eq
  unfold entry_address d_eq_ptr
  rw [haddr, Option.map_some, hpad]
  cases ht : rq.address with
  | bytes d =>
    rw [ht] at heq
    obtain rfl : d = some rq.addr := by simpa [d_bytes_st] using heq
    exact hflat
  | string s converted =>
    rw [ht] at heq
    have hst : d_long_st (.string s converted) = .bytes (some rq.addr) := by
      -- only a hex string becomes bytes
      have hbytes : d_is_bytes (.string s converted) = true := by
        by_cases hx : (!converted && is_hex s) = true
        · simp only [is_hex, Bool.and_eq_true] at hx
          simp only [d_is_bytes, Bool.and_eq_true]
          exact ⟨hx.1, hx.2.1⟩
        · rw [d_bytes_st_text (by simpa using hx)] at heq
          cases heq
      rw [d_long_st, if_pos hbytes, heq]
    show d_eq_flat (d_long_st (.string s converted)) (d_long_st (.bytes (some rq.addr))) = true
    rw [hst]
    exact hflat
  | array _ _ | object _ _ | boolean _ | integer _ | null =>
    rw [ht] at heq
    cases heq

theorem missingResponse_answers (rq : AccountRequest) (n : UInt8) : rq.Answers (missingResponse rq n) :=
  ⟨rfl, rfl, [], rfl⟩

theorem missingResponse_result (rq : AccountRequest) (n : UInt8) :
    (check_result C (missingResponse rq n) (missingEntry rq.addr rq.key)).ok () := by
  have hbal : d_get (missingEntry rq.addr rq.key) K_BALANCE = some (.integer 0) := rfl
  have hnonce : d_get (missingEntry rq.addr rq.key) K_NONCE = some (.integer 0) := rfl
  have hcode : (missingEntry rq.addr rq.key).prop K_CODE_HASH = .bytes (some EMPTY_HASH) := rfl
  have hstorage : (missingEntry rq.addr rq.key).prop K_STORAGE_PROOF = .array [] [missingSlot rq.key] := rfl
  have hparams : (missingResponse rq n).request.prop K_PARAMS = .array [] rq.params := rfl
  have hmethod : (missingResponse rq n).method = rq.method := rfl
  have hresult : (missingResponse rq n).result = some (if rq.method = .eth_getCode then .string [48, 120] false else .integer 0) := rfl
  have hcases := rq.method_eq
  simp only [List.mem_cons, List.not_mem_nil, or_false] at hcases
  unfold check_result
  rw [hmethod, hresult, hparams]
  rcases hcases with hm | hm | hm | hm
  · simp [hm, hbal, d_eq_ptr, d_eq, d_eq_flat, d_long_st, d_bytes_st]
  · simp [hm, hnonce, d_eq_ptr, d_eq, d_eq_flat, d_long_st, d_bytes_st]
  · have hread : d_bytesl (d_bytesl_st (.bytes (some EMPTY_HASH)) 32) 32 = some EMPTY_HASH := by decide
    have hdata : d_bytes (.string [48, 120] false) = some [] := by decide
    have hmem : memcmp_eq EMPTY_HASH EMPTY_HASH 32 = some true := by decide
    simp [hm, hcode, hread, hdata, hmem]
  · have hkey : d_get_at (.array [] rq.params) 1 = some rq.key := by simp [AccountRequest.params, hm, d_get_at]
    have hslot : find_slot [missingSlot rq.key] rq.keyBytes = some (missingSlot rq.key) := by
      have hk : (missingSlot rq.key).prop K_KEY = rq.key := rfl
      have hcmp : b_cmp ((d_bytes rq.key).map optimize_len) (some (optimize_len rq.keyBytes)) = true := by
        rw [rq.key_eq]
        exact b_cmp_iff.2 rfl
      simp [find_slot, hk, hcmp]
    have hval : (missingSlot rq.key).prop K_VALUE = .integer 0 := rfl
    simp [hm, hkey, rq.key_eq, hstorage, d_iter, hslot, hval]

theorem missingResponse_accepted (C : Crypto) (rq : AccountRequest) {n : UInt8} {number : Bytes}
    (hroot : rlp_decode_in_list (numberHeader n) BLOCKHEADER_STATE_ROOT none = some (1, some root)) (hr : root.length = 32)
    (hnum : rlp_decode_in_list (numberHeader n) BLOCKHEADER_NUMBER none = some (1, some number))
    (ht : d_type rq.block ≠ .T_INTEGER) : (eth_verify_account_proof C (missingResponse rq n)).ok () := by
  have hheader : d_bytes ((missingResponse rq n).proof.prop K_BLOCK) = some (numberHeader n) := rfl
  have haccounts : d_get (missingResponse rq n).proof K_ACCOUNTS = some (.array [] [missingEntry rq.addr rq.key]) := rfl
  have hparams : (missingResponse rq n).request.prop K_PARAMS = .array [] rq.params := rfl
  have hmethod : (missingResponse rq n).method = rq.method := rfl
  have hsigners : (missingResponse rq n).signers = [] := rfl
  have hcache : get_verified_hash (missingResponse rq n).toVctx (bytes_to_long number) = none := rfl
  have hne : numberHeader n ≠ [] := by simp [numberHeader, rlp_encode_to_list]
  have hblock : checked_block (missingResponse rq n) = none := by
    simp [checked_block, hparams, rq.last_param, ht]
  have hcontract : requested_account (missingResponse rq n) = pure (some rq.address) := by
    simp [requested_account, hmethod, rq.method_ne.1, rq.method_ne.2, hparams, rq.first_param]
  have hentry : (verify_proof C (numberHeader n) (missingEntry rq.addr rq.key)).ok () := by
    simp only [verify_proof, ok_bind]
    exact ⟨(), missingEntry_account _ _ hr hroot, missingEntry_storage _ _⟩
  have hfound : (verify_accounts C (numberHeader n) (some rq.address) [missingEntry rq.addr rq.key]).ok
      (some (missingEntry rq.addr rq.key)) := by
    simp only [verify_accounts, ok_bind, ok_orFail, ok_pure, address_found, if_true]
    exact ⟨(), hentry, none, rfl, trivial⟩
  have haccount : (proofed_account C (missingResponse rq n) (numberHeader n)).ok (missingEntry rq.addr rq.key) := by
    unfold proofed_account
    simp only [hcontract, haccounts, d_iter, pure_bind, ok_bind, ok_lift, Option.some.injEq, exists_eq_left']
    exact ⟨_, hfound, by simp⟩
  have hverified : (eth_verify_blockheader C (missingResponse rq n).toVctx (some (numberHeader n)) none).ok () := by
    unfold eth_verify_blockheader
    simp [hne, hnum, hcache, hsigners]
  have hsome : (missingResponse rq n).result.isNone = false := rfl
  have hproof : (missingResponse rq n).has_proof = true := rfl
  unfold eth_verify_account_proof
  simp only [hsome, hproof, hheader, Bool.false_eq_true, Bool.true_eq_false, if_false, ok_bind, ok_orFail]
  refine ⟨(), hverified, (), ?_, _, haccount, missingResponse_result rq n⟩
  simp [check_block, hblock]

theorem numberHeader_fields : ∀ n ∈ [1, 2],
    rlp_decode_in_list (numberHeader n) BLOCKHEADER_STATE_ROOT none = some (1, some (List.replicate 32 0)) ∧
      rlp_decode_in_list (numberHeader n) BLOCKHEADER_NUMBER none = some (1, some [n]) := by
  decide +kernel

/-- A request for a block is only answered for that block, whatever the response is,
exactly if the token of the block is a small number by then. -/
theorem block_checked_iff (rq : AccountRequest) (n : Nat) (hn : Denotes rq.block n) :
    (∀ C vc, rq.Answers vc → (eth_verify_account_proof C vc).ok () → response_number vc = some n) ↔
      d_type rq.block = .T_INTEGER := by
  constructor
  · intro h
    by_contra ht
    -- a response with another number passes
    have hother : ∀ m ∈ ([1, 2] : List UInt8), m.toNat = n := by
      intro m hm
      obtain ⟨hroot, hnum⟩ := numberHeader_fields m hm
      have hok := missingResponse_accepted ⟨.ofTable [], fun _ _ => none⟩ rq hroot (by decide) hnum ht
      have hheader : d_bytes ((missingResponse rq m).proof.prop K_BLOCK) = some (numberHeader m) := rfl
      have hnumber := h _ _ (missingResponse_answers rq m) hok
      simp only [response_number, hheader, Option.bind_some, header_number_of, hnum, if_true, Option.some.injEq] at hnumber
      rw [← hnumber]
      simp [bytes_to_long, beNat_cons]
    have h1 : (1 : UInt8).toNat = n := hother 1 (by simp)
    have h2 : (2 : UInt8).toNat = n := hother 2 (by simp)
    exact absurd (h1.trans h2.symm) (by decide)
  · intro ht C vc ha hok
    exact number_checked hn ht ha hok

/-- `eth_getBalance` for an address that is missing, at the given block. -/
def balanceRequest (block : Tok) : AccountRequest where
  method := .eth_getBalance
  address := .bytes (some (List.replicate 20 1))
  key := .integer 0
  block := block
  addr := List.replicate 20 1
  keyBytes := [0]
  method_eq := by decide
  address_eq := rfl
  addr_len := rfl
  key_eq := rfl

/-- Keccak on the address and on the headers with the numbers 1 and 100. -/
def missingCrypto : Crypto where
  keccak := .ofTable [(List.replicate 20 1, word 0xe9654a4d194318e8ef7e64c6cbc31c341c650a6a039ea448faf8101af403da4d),
    (numberHeader 1, word 0xbac5f7536623012e1a3d326711a002ac85cc4e226334e6d0169a4d5f21bd4530),
    (numberHeader 100, word 0xb943c977f9fc713e340ff3f6aba85bbdfddc471e0cd7335237b4fd83c8cbecc3)]
  recover _ _ := none

/-- The block `0x64` is asked for, and a header with the number 1 passes. -/
theorem other_block_accepted :
    Denotes (balanceRequest (.string [48, 120, 54, 52] false)).block 100 ∧
      (balanceRequest (.string [48, 120, 54, 52] false)).Answers
        (missingResponse (balanceRequest (.string [48, 120, 54, 52] false)) 1) ∧
      (eth_verify_account_proof missingCrypto (missingResponse (balanceRequest (.string [48, 120, 54, 52] false)) 1)).ok () ∧
      response_number (missingResponse (balanceRequest (.string [48, 120, 54, 52] false)) 1) = some 1 :=
  ⟨⟨by decide, by decide, by decide, by decide⟩, missingResponse_answers _ _, by decide, by decide⟩

/-- The block 100 as a number: a header with that number passes, and has it. -/
theorem block_checked_hundred :
    (eth_verify_account_proof missingCrypto (missingResponse (balanceRequest (.integer 100)) 100)).ok () ∧
      response_number (missingResponse (balanceRequest (.integer 100)) 100) = some 100 := by
  have hok : (eth_verify_account_proof missingCrypto (missingResponse (balanceRequest (.integer 100)) 100)).ok () := by decide
  have hden : Denotes (balanceRequest (.integer 100)).block 100 := ⟨by norm_num, rfl⟩
  exact ⟨hok, (block_checked_iff _ 100 hden).2 rfl _ _ (missingResponse_answers _ _) hok⟩

end In3
