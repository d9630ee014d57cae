import In3.Nano.Blockheader
/-!
# Theorems about signed headers

A header that passes was confirmed by every requested signer as long as each
signer has a bit of its own and all bits are asked for. With 64 signers the mask
of all signers is empty, and with up to 31 more it is too small. On a chain of
version 1 nobody signs the registry id.
-/
open Lib List Run

namespace In3

/-! ## What an accepted header shows -/

section
variable (C : Crypto) (vc : Vctx) (header_number : Nat) (block_hash : Bytes)

/-- What has to be signed: the block hash, the number as a word, and the registry id. -/
def signed_message : Bytes := block_hash ++ beFix 32 header_number ++ vc.registry_id

/-- The entry is a signature by `a` of the header and the registry. -/
structure Confirms (a : Bytes) (sig : Tok) : Prop where
  no_error : d_get sig K_ERROR = none
  block : d_long (sig.prop K_BLOCK) = header_number
  hash : d_bytesl (sig.prop K_BLOCK_HASH) 32 = some block_hash
  signed : ecrecover_signature C (C.keccak.fn (signed_message vc header_number block_hash)) sig = some a

def SignsError (a : Bytes) (sig : Tok) : Prop :=
  ∃ err s h, d_get sig K_ERROR = some err ∧ signed_err err = some s ∧ compute_err_hash C err s = some h ∧
    ecrecover_signature C h s = some a

def AllSigned (signatures : List Tok) : Prop :=
  (∀ a ∈ vc.signers, ∃ sig ∈ signatures, Confirms C vc header_number block_hash a sig) ∧
    ∀ a ∈ vc.signers, ∀ sig ∈ signatures, ¬ SignsError C a sig

/-! ## One entry -/

variable {C vc header_number block_hash} {a b h : Bytes} {masks masks' : Nat × Nat} {n res : Nat} {seen : List Tok}
  {sig : Tok} {signers : List Bytes}

theorem eq_of_memcmp (ha : a.length ≤ n) (hb : b.length = n)
    (h : memcmp_eq a b n = some true) : a = b := by
  obtain ⟨-, -, htake⟩ := memcmp_eq_true h
  rwa [take_of_length_le ha, take_of_length_le (le_of_eq hb)] at htake

theorem length_d_bytesl {t : Tok} (h : d_bytesl t n = some b) : b.length ≤ n := by
  unfold d_bytesl at h
  rw [Option.map_eq_some_iff] at h
  obtain ⟨x, -, rfl⟩ := h
  split
  · next hx => rw [length_padLeft (by omega)]
  · simp

theorem verify_signature_bit {i : Nat}
    (hb : (eth_verify_signature C signers h sig).testBit i = true) :
    ∃ j, j % 32 = i ∧ ∃ hj : j < signers.length, ecrecover_signature C h sig = some signers[j] := by
  unfold eth_verify_signature at hb
  cases ha : ecrecover_signature C h sig with
  | none => simp [ha] at hb
  | some addr =>
    cases hf : signers.findIdx? (· = addr) with
    | none => simp [ha, hf] at hb
    | some j =>
      obtain ⟨hj, he, -⟩ := List.findIdx?_eq_some_iff_getElem.1 hf
      have hbit : j % 32 = i := by simpa [ha, hf, Nat.testBit_two_pow] using hb
      exact ⟨j, hbit, hj, by rw [← of_decide_eq_true he]⟩

theorem verify_signature_ne_zero (ha : a ∈ signers)
    (hr : ecrecover_signature C h sig = some a) : eth_verify_signature C signers h sig ≠ 0 := by
  unfold eth_verify_signature
  rw [hr]
  cases hf : signers.findIdx? (· = a) with
  | none =>
    have := List.findIdx?_eq_none_iff.1 hf a ha
    simp at this
  | some j => simp [hf]

/-- From version 2 on the whole message is hashed. -/
theorem compute_msg_hash_eq (hlen : block_hash.length = 32) (hid : vc.registry_id.length = 32) (hv : 1 < vc.version)
    (hn : header_number < 2 ^ 64) :
    compute_msg_hash C vc header_number block_hash = C.keccak.fn (signed_message vc header_number block_hash) := by
  have hnumber : replicate 24 0 ++ long_to_bytes header_number = beFix 32 header_number := by
    apply beNat_inj
    · simp [long_to_bytes]
    · rw [beNat_zeros, long_to_bytes, beNat_beFix, beNat_beFix]
      omega
  have hall : (block_hash ++ beFix 32 header_number ++ vc.registry_id).length ≤ 96 := by simp [hlen, hid]
  rw [compute_msg_hash, if_pos hv, append_assoc block_hash, hnumber, take_of_length_le hall, signed_message]

theorem validate_sig_ok (hlen : block_hash.length = 32)
    (h : (validate_sig C vc header_number block_hash sig).ok res) :
    d_long (sig.prop K_BLOCK) = header_number ∧ d_bytesl (sig.prop K_BLOCK_HASH) 32 = some block_hash ∧
      eth_verify_signature C vc.signers (compute_msg_hash C vc header_number block_hash) sig = res := by
  unfold validate_sig at h
  simp only [ok_check, not_not] at h
  obtain ⟨hn, h⟩ := h
  cases hb : d_bytesl (sig.prop K_BLOCK_HASH) 32 with
  | none => simp [hb] at h
  | some sig_hash =>
    simp only [hb, ok_bind, ok_lift, ok_check, ok_pure] at h
    obtain ⟨same, hsame, hs, hres⟩ := h
    have hs : same = true := by simpa using hs
    subst hs
    exact ⟨hn, by rw [eq_of_memcmp (length_d_bytesl hb) hlen hsame], hres⟩

theorem check_res_ok {u : Unit} : (check_res res).ok u ↔ res < 2 ^ 31 := by
  unfold check_res
  simp

theorem validate_err_ok {err : Tok} (h : (validate_err C vc header_number err sig).ok res) :
    ∀ hash, compute_err_hash C err sig = some hash → eth_verify_signature C vc.signers hash sig = res := by
  intro hash hhash
  unfold validate_err at h
  rw [hhash] at h
  simp only [ok_check, ok_pure] at h
  exact h.2

/-! ## The loop -/

structure Recorded (C : Crypto) (vc : Vctx) (header_number : Nat) (block_hash : Bytes) (seen : List Tok)
    (masks : Nat × Nat) : Prop where
  confirmed : compute_msg_hash C vc header_number block_hash = C.keccak.fn (signed_message vc header_number block_hash) →
    ∀ i, masks.1.testBit i = true → ∃ j, j % 32 = i ∧ ∃ hj : j < vc.signers.length,
      ∃ sig ∈ seen, Confirms C vc header_number block_hash vc.signers[j] sig
  erred : masks.2 = 0 → ∀ a ∈ vc.signers, ∀ sig ∈ seen, ¬ SignsError C a sig
  small : masks.1 < 2 ^ 31 ∧ masks.2 < 2 ^ 31

theorem Recorded.init : Recorded C vc header_number block_hash [] (0, 0) :=
  ⟨by simp, by simp, by norm_num⟩

theorem Recorded.step (hlen : block_hash.length = 32)
    (hr : Recorded C vc header_number block_hash seen masks)
    (h : (check_entry C vc header_number block_hash masks sig).ok masks') :
    Recorded C vc header_number block_hash (seen ++ [sig]) masks' := by
  have old : compute_msg_hash C vc header_number block_hash = C.keccak.fn (signed_message vc header_number block_hash) →
      ∀ i, masks.1.testBit i = true → ∃ j, j % 32 = i ∧ ∃ hj : j < vc.signers.length,
        ∃ sig' ∈ seen ++ [sig], Confirms C vc header_number block_hash vc.signers[j] sig' := by
    intro hmsg i hi
    obtain ⟨j, hj, hlt, sig', hs, hc⟩ := hr.confirmed hmsg i hi
    exact ⟨j, hj, hlt, sig', mem_append_left _ hs, hc⟩
  unfold check_entry at h
  cases herr : d_get sig K_ERROR with
  | none =>
    simp only [herr, ok_bind, check_res_ok, ok_pure] at h
    obtain ⟨res, hv, -, hlt, rfl⟩ := h
    obtain ⟨hn, hh, hres⟩ := validate_sig_ok hlen hv
    refine ⟨?_, ?_, Nat.or_lt_two_pow hr.small.1 hlt, hr.small.2⟩
    · intro hmsg i hi
      rw [Nat.testBit_or, Bool.or_eq_true] at hi
      rcases hi with hi | hi
      · exact old hmsg i hi
      · rw [← hres, hmsg] at hi
        obtain ⟨j, hj, hlt, hs⟩ := verify_signature_bit hi
        exact ⟨j, hj, hlt, sig, by simp, herr, hn, hh, hs⟩
    · intro h0 a ha sig' hs
      rcases mem_append.1 hs with hs | hs
      · exact hr.erred h0 a ha sig' hs
      · rw [mem_singleton.1 hs]
        rintro ⟨err, s, hash, he, -⟩
        rw [herr] at he
        cases he
  | some err =>
    cases hsig : signed_err err with
    | none =>
      simp only [herr, hsig, ok_ite_throw, ok_pure] at h
      obtain ⟨-, rfl⟩ := h
      refine ⟨old, ?_, hr.small⟩
      intro h0 a ha sig' hs
      rcases mem_append.1 hs with hs | hs
      · exact hr.erred h0 a ha sig' hs
      · rw [mem_singleton.1 hs]
        rintro ⟨err', s, hash, he, hs', -⟩
        rw [herr, Option.some_inj] at he
        rw [← he, hsig] at hs'
        cases hs'
    | some s =>
      simp only [herr, hsig, ok_bind, check_res_ok, ok_pure] at h
      obtain ⟨res, hv, -, hlt, rfl⟩ := h
      refine ⟨old, ?_, hr.small.1, Nat.or_lt_two_pow hr.small.2 hlt⟩
      intro h0 a ha sig' hs
      obtain ⟨h1, h2⟩ := Nat.or_eq_zero_iff.1 h0
      rcases mem_append.1 hs with hs | hs
      · exact hr.erred h1 a ha sig' hs
      · rw [mem_singleton.1 hs]
        rintro ⟨err', s', hash, he, hs', hhash, hrec⟩
        rw [herr, Option.some_inj] at he
        subst he
        rw [hsig, Option.some_inj] at hs'
        subst hs'
        exact verify_signature_ne_zero ha hrec ((validate_err_ok hv hash hhash).trans h2)

theorem Recorded.run {entries : List Tok} (hlen : block_hash.length = 32)
    (hr : Recorded C vc header_number block_hash seen masks)
    (h : (entries.foldlM (check_entry C vc header_number block_hash) masks).ok masks') :
    Recorded C vc header_number block_hash (seen ++ entries) masks' := by
  induction entries generalizing seen masks with
  | nil =>
    simp only [foldlM_nil, ok_pure] at h
    rw [← h, append_nil]
    exact hr
  | cons sig entries ih =>
    simp only [foldlM_cons, ok_bind] at h
    obtain ⟨m, hm, h⟩ := h
    have := ih (hr.step hlen hm) h
    rwa [append_assoc] at this

/-! ## The header -/

/-- The number field of a header, as `eth_verify_blockheader` reads it. -/
def header_number_of (header : Bytes) : Option Nat :=
  match rlp_decode_in_list header BLOCKHEADER_NUMBER none with
  | some (r, some temp) => if r = 1 then some (bytes_to_long temp) else none
  | _ => none

theorem blockheader_ok_iff {header : Bytes} {expected : Option Bytes} {number : Nat}
    (hnum : header_number_of header = some number) (hcache : get_verified_hash vc number = none)
    (hsig : vc.signers ≠ []) :
    (eth_verify_blockheader C vc (some header) expected).ok () ↔
      header ≠ [] ∧ (expected.isSome → expected = some (C.keccak.fn header)) ∧
      ∃ signatures, d_get vc.proof K_SIGNATURES = some signatures ∧ ∃ confirmed,
        ((signature_list signatures).foldlM (check_entry C vc number (C.keccak.fn header)) (0, 0)).ok (confirmed, 0) ∧
        confirmed = all_mask vc.signers.length := by
  unfold header_number_of at hnum
  unfold eth_verify_blockheader
  rcases hr : rlp_decode_in_list header BLOCKHEADER_NUMBER none with _ | ⟨r, _ | temp⟩
  · simp [hr] at hnum
  · simp [hr] at hnum
  · simp only [hr, Option.ite_none_right_eq_some, Option.some_inj] at hnum
    obtain ⟨rfl, rfl⟩ := hnum
    simp only [Option.getD_some, ok_bind, ok_lift, ok_check, hr, Option.some_inj, exists_eq_left', hcache,
      if_neg hsig, ne_eq, not_true_eq_false, not_false_eq_true, true_and]
    cases hp : d_get vc.proof K_SIGNATURES with
    | none => simp
    | some signatures =>
      simp only [ok_bind, ok_check, ok_ite_throw, ok_pure, and_true, not_and, not_not,
        Option.some_inj, exists_eq_left']
      refine and_congr_right fun _ => and_congr_right fun _ => ⟨?_, ?_⟩
      · rintro ⟨⟨confirmed, erred⟩, hloop, hall, herr⟩
        subst herr
        exact ⟨confirmed, hloop, by simpa using hall⟩
      · rintro ⟨confirmed, hloop, hall⟩
        exact ⟨(confirmed, 0), hloop, by simpa using hall, rfl⟩

/-! ## The mask of all signers -/

theorem all_mask_full (h : 32 ≤ n % 64) : all_mask n = 2 ^ 32 - 1 := by
  unfold all_mask
  obtain ⟨d, hd⟩ : ∃ d, n % 64 = 32 + d := ⟨n % 64 - 32, by omega⟩
  have hpos : 1 ≤ 2 ^ d := Nat.one_le_two_pow
  rw [hd, pow_add]
  omega

theorem all_mask_small (h : n % 64 < 32) : all_mask n = 2 ^ (n % 64) - 1 := by
  have hlt : 2 ^ (n % 64) < 2 ^ 32 := Nat.pow_lt_pow_right (by norm_num) h
  exact Nat.mod_eq_of_lt (by omega)

theorem Recorded.all_signed {confirmed : Nat}
    (hr : Recorded C vc header_number block_hash seen (confirmed, 0))
    (hall : confirmed = all_mask vc.signers.length)
    (hn : compute_msg_hash C vc header_number block_hash = C.keccak.fn (signed_message vc header_number block_hash) ∧
      vc.signers.length < 64 ∨ 32 ≤ vc.signers.length % 64) :
    AllSigned C vc header_number block_hash seen := by
  have hlow : ¬ 32 ≤ vc.signers.length % 64 := by
    intro h
    have := hr.small.1
    rw [hall, all_mask_full h] at this
    norm_num at this
  obtain ⟨hmsg, h64⟩ := hn.resolve_right hlow
  have hmod : vc.signers.length % 64 = vc.signers.length := Nat.mod_eq_of_lt h64
  refine ⟨?_, hr.erred rfl⟩
  intro a ha
  obtain ⟨i, hi, rfl⟩ := getElem_of_mem ha
  have hbit : confirmed.testBit i = true := by
    rw [hall, all_mask_small (by omega), hmod]
    simpa using hi
  obtain ⟨j, hj, hjl, sig, hsig, hc⟩ := hr.confirmed hmsg i hbit
  have hji : j = i := by omega
  subst hji
  exact ⟨sig, hsig, hc⟩

end

/-! ## A header with too few signatures

The first signers sign, the others do not. To write down signatures for any
number of signers, the hash function and the recovery here only copy bytes. -/

/-- An address in front of which 12 zero bytes make a word, hashed to itself; the message of version 1 has 64 bytes. -/
def copy_word (b : Bytes) : Bytes := if b.length = 64 then replicate 32 1 else takeD 32 (replicate 12 0 ++ b) 0

theorem length_copy_word (b : Bytes) : (copy_word b).length = 32 := by
  unfold copy_word
  split
  · exact length_replicate
  · exact takeD_length 32 _ 0

def copyHash : Hash := ⟨copy_word, length_copy_word⟩

/-- A signature is only valid for messages of the version. -/
def copyCrypto (version : Nat) : Crypto :=
  ⟨copyHash, fun msg sig => if (msg = replicate 32 1 ↔ version ≤ 1) then some ((sig.drop 12).take 20) else none⟩

def signerAddress (i : Nat) : Bytes := beFix 20 i

/-- A header whose ninth field is the number 5. -/
def shortHeader : Bytes := [0xc9, 0x80, 0x80, 0x80, 0x80, 0x80, 0x80, 0x80, 0x80, 0x05]

def confirmation (C : Crypto) (i : Nat) : Tok :=
  .object [] [(K_BLOCK, .integer 5), (K_BLOCK_HASH, .bytes (some (C.keccak.fn shortHeader))),
    (K_R, .bytes (some (replicate 12 0 ++ signerAddress i))), (K_S, .bytes (some (replicate 32 0)))]

def partlySigned (C : Crypto) (version n m : Nat) (hn : n < 256) : Vctx where
  signers := (range n).map signerAddress
  version := version
  registry_id := replicate 32 0
  verified_hashes := []
  proof := .object [] [(K_SIGNATURES, .array [] ((range m).map (confirmation C)))]
  signers_length := by simpa using hn

variable {i n : Nat}

theorem signerAddress_inj {j : Nat} (hi : i < 256) (hj : j < 256) (h : signerAddress i = signerAddress j) : i = j := by
  have hb := congrArg beNat h
  simp only [signerAddress, beNat_beFix] at hb
  rwa [Nat.mod_eq_of_lt (by omega), Nat.mod_eq_of_lt (by omega)] at hb

theorem d_bytesl_full {b : Bytes} (h : b.length = n) : d_bytesl (.bytes (some b)) n = some b := by
  simp [d_bytesl, d_bytes, h]

/-- The signer of a confirmation, for the messages of the version only. -/
theorem ecrecover_confirmation (version : Nat) (msg : Bytes) (i : Nat) :
    ecrecover_signature (copyCrypto version) msg (confirmation (copyCrypto version) i) =
      if (msg = replicate 32 1 ↔ version ≤ 1) then some (signerAddress i) else none := by
  have h1 : (confirmation (copyCrypto version) i).prop K_MSG_HASH = .null := rfl
  have h2 : (confirmation (copyCrypto version) i).prop K_R = .bytes (some (replicate 12 0 ++ signerAddress i)) := rfl
  have h3 : (confirmation (copyCrypto version) i).prop K_S = .bytes (some (replicate 32 0)) := rfl
  have hl : (signerAddress i).length = 20 := length_beFix 20 i
  have hsig : ∀ s : Bytes, ((replicate 12 0 ++ signerAddress i ++ s).drop 12).take 20 = signerAddress i := by
    intro s
    rw [append_assoc, drop_left' (by simp), take_left' hl]
  unfold ecrecover_signature
  rw [h1, h2, h3, d_bytesl_full (by simp [hl]), d_bytesl_full (by simp)]
  simp only [d_bytesl, d_bytes, Option.map_none, Option.isSome_none, Bool.false_and, Bool.false_eq_true, if_false]
  rw [if_neg (by simp [hl])]
  simp only [copyCrypto, copyHash, append_assoc] at hsig ⊢
  split
  · rw [Option.map_some, hsig, copy_word, if_neg (by omega), takeD_eq_take _ (by simp [hl]), take_of_length_le (by simp [hl]),
      drop_left' (by simp)]
  · rfl

theorem findIdx_signer (hn : n < 256) (hi : i < n) :
    ((range n).map signerAddress).findIdx? (· = signerAddress i) = some i := by
  rw [List.findIdx?_eq_some_iff_getElem]
  refine ⟨by simpa using hi, by simp, ?_⟩
  intro j hj
  have hne : signerAddress j ≠ signerAddress i := fun h => by
    have := signerAddress_inj (by omega) (by omega) h
    omega
  simpa using hne

theorem or_next_bit (m : Nat) : (2 ^ m - 1) ||| 2 ^ m = 2 ^ (m + 1) - 1 := by
  apply Nat.eq_of_testBit_eq
  intro i
  by_cases h : m = i
  · simp [h]
  · have : i < m ↔ i < m + 1 := by omega
    simp [h, this]

section
variable (version : Nat) {n m : Nat} (hn : n < 256)

/-- What is hashed is a message of the version. -/
theorem compute_msg_hash_copy :
    compute_msg_hash (copyCrypto version) (partlySigned (copyCrypto version) version n m hn) 5 (copyHash.fn shortHeader) =
      replicate 32 1 ↔ version ≤ 1 := by
  have h96 : copyHash.fn (copyHash.fn shortHeader ++ replicate 24 0 ++ long_to_bytes 5 ++ replicate 32 0) ≠ replicate 32 1 := by
    decide
  have h64 : copyHash.fn ((copyHash.fn shortHeader ++ replicate 24 0 ++ long_to_bytes 5 ++ replicate 32 0).take 64) =
      replicate 32 1 := by decide
  have hversion : (partlySigned (copyCrypto version) version n m hn).version = version := rfl
  rw [compute_msg_hash, hversion]
  by_cases hv : 1 < version
  · rw [if_pos hv]
    exact iff_of_false h96 (by omega)
  · rw [if_neg hv]
    exact iff_of_true h64 (by omega)

theorem check_confirmation {i : Nat} (hi : i < n) (h31 : i < 31) (masks : Nat × Nat) :
    (check_entry (copyCrypto version) (partlySigned (copyCrypto version) version n m hn) 5 (copyHash.fn shortHeader) masks
      (confirmation (copyCrypto version) i)).ok (masks.1 ||| 2 ^ i, masks.2) := by
  have h1 : d_get (confirmation (copyCrypto version) i) K_ERROR = none := rfl
  have h2 : (confirmation (copyCrypto version) i).prop K_BLOCK = .integer 5 := rfl
  have h3 : (confirmation (copyCrypto version) i).prop K_BLOCK_HASH = .bytes (some (copyHash.fn shortHeader)) := rfl
  have hlen : (copyHash.fn shortHeader).length = 32 := copyHash.len _
  have hbit : eth_verify_signature (copyCrypto version) (partlySigned (copyCrypto version) version n m hn).signers
      (compute_msg_hash (copyCrypto version) (partlySigned (copyCrypto version) version n m hn) 5 (copyHash.fn shortHeader))
      (confirmation (copyCrypto version) i) = 2 ^ i := by
    unfold eth_verify_signature
    rw [ecrecover_confirmation, if_pos (compute_msg_hash_copy version hn)]
    simp [partlySigned, findIdx_signer hn hi, Nat.mod_eq_of_lt (show i < 32 by omega)]
  have hcmp : memcmp_eq (copyHash.fn shortHeader) (copyHash.fn shortHeader) 32 = some true := by
    simp [memcmp_eq, hlen]
  have hlt : 2 ^ i < 2 ^ 31 := Nat.pow_lt_pow_right (by norm_num) h31
  unfold check_entry
  simp only [h1, ok_bind, check_res_ok]
  refine ⟨2 ^ i, ?_, (), hlt, rfl⟩
  unfold validate_sig
  simp only [h2, h3, d_bytesl_full hlen, ok_check, ok_bind, ok_lift, ok_pure]
  exact ⟨by decide, true, hcmp, by decide, hbit⟩

theorem check_confirmations (hm : m ≤ n) (h31 : m ≤ 31) (m' : Nat) :
    (((range m).map (confirmation (copyCrypto version))).foldlM (check_entry (copyCrypto version)
      (partlySigned (copyCrypto version) version n m' hn) 5 (copyHash.fn shortHeader)) (0, 0)).ok (2 ^ m - 1, 0) := by
  induction m with
  | zero => simp
  | succ m ih =>
    rw [range_succ, map_append, foldlM_append]
    simp only [ok_bind, map_cons, foldlM_cons]
    refine ⟨(2 ^ m - 1, 0), ih (by omega) (by omega), (2 ^ (m + 1) - 1, 0), ?_, rfl⟩
    rw [← or_next_bit m]
    exact check_confirmation version hn (by omega) (by omega) (2 ^ m - 1, 0)

/-- The last of the signers did not sign what has to be signed. -/
theorem not_confirmed (h : version ≤ 1 ∨ m < n) {sig : Tok} (hmem : sig ∈ (range m).map (confirmation (copyCrypto version)))
    (hm : m ≤ n) : ¬ Confirms (copyCrypto version) (partlySigned (copyCrypto version) version n m hn) 5 (copyHash.fn shortHeader)
      (signerAddress (n - 1)) sig := by
  intro hconf
  obtain ⟨i, hi, rfl⟩ := mem_map.1 hmem
  have hi := mem_range.1 hi
  have hne : copyHash.fn (copyHash.fn shortHeader ++ beFix 32 5 ++ replicate 32 0) ≠ replicate 32 1 := by decide
  have hrec := hconf.signed
  rw [ecrecover_confirmation, Option.ite_none_right_eq_some, Option.some_inj] at hrec
  have hv : ¬ version ≤ 1 := fun hv => hne (hrec.1.2 hv)
  have := signerAddress_inj (by omega) (by omega) hrec.2
  omega

end

/-! ## Every requested signer -/

theorem lt_of_header_number {header : Bytes} {number : Nat} (h : header_number_of header = some number) :
    number < 2 ^ 64 := by
  unfold header_number_of at h
  split at h
  · rw [← Option.some_inj.1 (Option.ite_none_right_eq_some.1 h).2, bytes_to_long_eq]
    exact Nat.mod_lt _ (by norm_num)
  · cases h

/-- A header that is not in the cache passes only with the confirmations of all `n`
requested signers, and with no signed error, exactly when the chain has a version
above 1 and `n` is below 64, or the shift count `n % 64` is at least 32. -/
theorem header_signed_iff (n version : Nat) (h1 : 1 ≤ n) (h255 : n ≤ 255) :
    (∀ (C : Crypto) (vc : Vctx) (header : Bytes) (expected_blockhash : Option Bytes) (number : Nat),
      vc.signers.length = n → vc.version = version → vc.registry_id.length = 32 →
      header_number_of header = some number → get_verified_hash vc number = none →
      (eth_verify_blockheader C vc (some header) expected_blockhash).ok () →
      ∃ signatures, d_get vc.proof K_SIGNATURES = some signatures ∧
        AllSigned C vc number (C.keccak.fn header) (signature_list signatures)) ↔
    1 < version ∧ n < 64 ∨ 32 ≤ n % 64 := by
  constructor
  · intro h
    by_contra hc
    have hm : n % 64 < 32 ∧ (version ≤ 1 ∨ n % 64 < n) := by omega
    have hn : n < 256 := by omega
    have hnum : header_number_of shortHeader = some 5 := by decide
    have hsig : (partlySigned (copyCrypto version) version n (n % 64) hn).signers ≠ [] := by simp [partlySigned]; omega
    have hok : (eth_verify_blockheader (copyCrypto version) (partlySigned (copyCrypto version) version n (n % 64) hn)
        (some shortHeader) none).ok () := by
      rw [blockheader_ok_iff hnum rfl hsig]
      refine ⟨by decide, by simp, _, rfl, 2 ^ (n % 64) - 1, ?_, ?_⟩
      · exact check_confirmations version hn (by omega) (by omega) (n % 64)
      · simp [partlySigned, all_mask_small hm.1]
    obtain ⟨signatures, hs, hall, -⟩ := h (copyCrypto version) _ shortHeader none 5 (by simp [partlySigned]) rfl
      (by simp [partlySigned]) hnum rfl hok
    obtain ⟨sig, hmem, hconf⟩ := hall (signerAddress (n - 1)) (by
      simp only [partlySigned, mem_map, mem_range]
      exact ⟨n - 1, by omega, rfl⟩)
    have hs' : signatures = .array [] ((range (n % 64)).map (confirmation (copyCrypto version))) :=
      (Option.some_inj.1 hs).symm
    rw [hs'] at hmem
    exact not_confirmed version hn hm.2 hmem (Nat.mod_le _ _) hconf
  · intro hn C vc header expected number hlen hversion hid hnum hcache hok
    have hsig : vc.signers ≠ [] := by
      intro h
      rw [h] at hlen
      simp at hlen
      omega
    obtain ⟨-, -, signatures, hs, confirmed, hloop, hall⟩ := (blockheader_ok_iff hnum hcache hsig).1 hok
    have hrec := Recorded.init.run (C.keccak.len header) hloop
    refine ⟨signatures, hs, hrec.all_signed hall ?_⟩
    rw [hlen]
    refine hn.imp_left fun h => ⟨?_, h.2⟩
    exact compute_msg_hash_eq (C.keccak.len header) hid (by omega) (lt_of_header_number hnum)

def shortHeaderHash : Bytes := word 0xafba84da3554c3a824d85b4296716d4b2b27a7a3bd88280d0040b1a51f9b5aec

/-- The message a signer of `shortHeader` signs, with a registry id of zero. -/
def shortHeaderMsg : Bytes := word 0x0c9f1d5d31405a5f1e649bf88b082bd3fe9b33fe907ccdf52f8f20452c32f871

/-- A private key's signature of `shortHeaderMsg`: `r`, `s`, `v`, and the public key with its hash. -/
structure Signature where
  r : Nat
  s : Nat
  v : Nat
  pubkey : Nat
  hash : Nat

def Signature.tok (x : Signature) : Tok :=
  .object [] [(K_BLOCK, .integer 5), (K_BLOCK_HASH, .bytes (some shortHeaderHash)), (K_R, .bytes (some (word x.r))),
    (K_S, .bytes (some (word x.s))), (K_V, .integer (27 + x.v))]

def signatureCrypto (xs : List Signature) : Crypto where
  keccak := .ofTable ([(shortHeader, shortHeaderHash),
    (shortHeaderHash ++ replicate 31 0 ++ [5] ++ replicate 32 0, shortHeaderMsg)] ++
    xs.map fun x => (padLeft 64 (beBytes x.pubkey), word x.hash))
  recover msg sig := (xs.map fun x =>
    ((shortHeaderMsg, word x.r ++ word x.s ++ [UInt8.ofNat x.v]), padLeft 64 (beBytes x.pubkey))).lookup (msg, sig)

def unsigned64 : Vctx := partlySigned (signatureCrypto []) 2 64 0 (by norm_num)

/-- With 64 requested signers a header passes without any signature. -/
theorem unsigned_header_accepted :
    (eth_verify_blockheader (signatureCrypto []) unsigned64 (some shortHeader) none).ok () ∧
    unsigned64.signers.length = 64 ∧ header_number_of shortHeader = some 5 ∧ get_verified_hash unsigned64 5 = none ∧
    (d_get unsigned64.proof K_SIGNATURES).map signature_list = some [] ∧ signerAddress 0 ∈ unsigned64.signers ∧
    ¬ AllSigned (signatureCrypto []) unsigned64 5 shortHeaderHash [] := by
  refine ⟨by decide, by decide, by decide, by decide, by rfl, by decide, ?_⟩
  intro h
  obtain ⟨sig, hsig, -⟩ := h.1 (signerAddress 0) (by decide)
  simp at hsig

/-- The signatures of the private keys 1 and 2. -/
def twoSignatures : List Signature :=
  [⟨0x5cbdf0646e5db4eaa398f365f2ea7a0e3d419b7e0330e39ce92bddedcac4f9bc,
    0x1584fe08e932901a08dbc6f2804b0cdf7fd4dd584d1622183c710dc3b1520b4c, 1,
    0x79be667ef9dcbbac55a06295ce870b07029bfcdb2dce28d959f2815b16f81798483ada7726a3c4655da4fbfc0e1108a8fd17b448a68554199c47d08ffb10d4b8,
    0xc0a6c424ac7157ae408398df7e5f4552091a69125d5dfcb7b8c2659029395bdf⟩,
   ⟨0x774ae7f858a9411e5ef4246b70c65aac5649980be5c17891bbec17895da008cb,
    0x5d86d3277709ebf1d4b331046a7e1a12a26289db3009c318eae1ddf23254057a, 0,
    0xc6047f9441ed7d6d3045406e95c07cd85c778e4b8cef3ca7abac09b95c709ee51ae168fea63dc339a3c58419466ceaeef7f632653266d0e1236431a950cfe52a,
    0xeedf1a9c68b3f4a8b1a1032b2b5ad5c4795c026514f8317c7a215e218dccd6cf⟩]

def twoSigners : Vctx where
  signers := [padLeft 20 (beBytes 0x7e5f4552091a69125d5dfcb7b8c2659029395bdf),
    padLeft 20 (beBytes 0x2b5ad5c4795c026514f8317c7a215e218dccd6cf)]
  version := 2
  registry_id := replicate 32 0
  verified_hashes := []
  proof := .object [] [(K_SIGNATURES, .array [] (twoSignatures.map Signature.tok))]
  signers_length := by decide

theorem header_signed_twoSigners :
    ∃ signatures, d_get twoSigners.proof K_SIGNATURES = some signatures ∧
      AllSigned (signatureCrypto twoSignatures) twoSigners 5 ((signatureCrypto twoSignatures).keccak.fn shortHeader)
        (signature_list signatures) :=
  (header_signed_iff 2 2 (by norm_num) (by norm_num)).2 (by norm_num) (signatureCrypto twoSignatures) twoSigners
    shortHeader none 5 rfl rfl rfl (by decide) (by decide) (by decide +kernel)

end In3
