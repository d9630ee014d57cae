import In3.Signer.Multisig
/-!
# Whose signatures are collected

A signature is taken if it is that of an owner, and not that of the owner who is first in the array. So
the first owner is counted once, and every other owner as often as they sign or have approved the hash.
-/
open Lib Guarded List

namespace In3.Signer

/-! ## Owners that are offered -/

def signerAt (C : Crypto) (tx_hash signatures : Bytes) (i : Nat) : Option Bytes :=
  let v := signatures.getD (i + 64) 0
  let sig := (signatures.drop i).take 65
  if v = 0 ∨ v = 1 then some ((sig.drop 12).take 20)
  else if 26 < v then ecrecover_sig C tx_hash sig
  else none

def signersFrom (C : Crypto) (tx_hash signatures : Bytes) : Nat → Nat → List Bytes
  | 0, _ => []
  | rounds + 1, i =>
    if i < signatures.length then
      (signerAt C tx_hash signatures i).toList ++ signersFrom C tx_hash signatures rounds (i + 65)
    else []

def signers (C : Crypto) (tx_hash signatures : Bytes) : List Bytes :=
  signersFrom C tx_hash signatures (signatures.length / 65 + 1) 0

def HasApproved (ctx : Prepare) (tx_hash owner : Bytes) : Prop :=
  ∃ result, ctx.call (check_approved owner tx_hash) = .ok result ∧ result.length = 32 ∧ result.getD 31 0 ≠ 0

instance (ctx : Prepare) (tx_hash owner : Bytes) : Decidable (HasApproved ctx tx_hash owner) :=
  match h : ctx.call (check_approved owner tx_hash) with
  | .ok result =>
    if hr : result.length = 32 ∧ result.getD 31 0 ≠ 0 then .isTrue ⟨result, h, hr⟩
    else .isFalse fun ⟨_, h', hr'⟩ => hr (Except.ok.inj (h.symm.trans h') ▸ hr')
  | .error _ => .isFalse fun ⟨_, h', _⟩ => by rw [h] at h'; cases h'

/-- The owners in the order in which they are offered: the account, the signers, those who approved. -/
def offered (ctx : Prepare) (owners : List Bytes) (tx_hash : Bytes) : List Bytes :=
  ([ctx.account] ++ signers ctx.crypto tx_hash (ctx.msSigs.getD []) ++ owners.filter fun o => HasApproved ctx tx_hash o).filter
    (owners.contains ·)

/-! ## Taking what is offered -/

/-- One address that is offered. -/
def take (owners : List Bytes) (threshold : Nat) (taken : List Bytes) (a : Bytes) : List Bytes :=
  if taken.length < threshold ∧ owners.contains a ∧ taken.head? ≠ some a then taken ++ [a] else taken

section Take
variable {owners : List Bytes} {threshold : Nat} {first : Bytes} {taken xs : List Bytes}

theorem foldl_take_full (h : threshold ≤ taken.length) (xs : List Bytes) :
    xs.foldl (take owners threshold) taken = taken := by
  induction xs with
  | nil => rfl
  | cons a xs ih => rw [foldl_cons, take, if_neg (by omega), ih]

theorem foldl_take_filter (xs taken : List Bytes) :
    (xs.filter (owners.contains ·)).foldl (take owners threshold) taken = xs.foldl (take owners threshold) taken := by
  induction xs generalizing taken with
  | nil => rfl
  | cons a xs ih =>
    by_cases ha : owners.contains a
    · rw [filter_cons_of_pos ha, foldl_cons, foldl_cons, ih]
    · rw [filter_cons_of_neg ha, foldl_cons, ih, take, if_neg fun h => ha h.2.1]

theorem foldl_take_cons (hxs : ∀ a ∈ xs, owners.contains a) :
    xs.foldl (take owners threshold) (first :: taken) =
      first :: taken ++ (xs.filter (· ≠ first)).take (threshold - (taken.length + 1)) := by
  induction xs generalizing taken with
  | nil => simp
  | cons a xs ih =>
    have ha := hxs a mem_cons_self
    have hrest : ∀ b ∈ xs, owners.contains b := fun b hb => hxs b (mem_cons_of_mem _ hb)
    rw [foldl_cons]
    by_cases hfull : threshold ≤ taken.length + 1
    · have hnone : threshold - (taken.length + 1) = 0 := by omega
      rw [take, if_neg (by simp only [length_cons]; omega), ih hrest, hnone, take_zero, take_zero]
    · by_cases heq : a = first
      · rw [take, if_neg (by simp [heq]), ih hrest, filter_cons_of_neg (by simp [heq])]
      · have hne : first ≠ a := fun h => heq h.symm
        have hstep : take owners threshold (first :: taken) a = first :: (taken ++ [a]) := by
          rw [take, if_pos ⟨by simp only [length_cons]; omega, ha, by simpa using hne⟩]
          rfl
        have hroom : threshold - (taken.length + 1) = threshold - ((taken ++ [a]).length + 1) + 1 := by
          rw [length_append, length_singleton]
          omega
        rw [hstep, ih hrest, filter_cons_of_pos (by simpa using heq), hroom]
        simp

theorem foldl_take_nil (ht : 0 < threshold) (hxs : ∀ a ∈ first :: xs, owners.contains a) :
    (first :: xs).foldl (take owners threshold) [] = first :: (xs.filter (· ≠ first)).take (threshold - 1) := by
  have hfirst : take owners threshold [] first = [first] := by
    rw [take, if_pos ⟨ht, hxs first mem_cons_self, by simp⟩]
    rfl
  rw [foldl_cons, hfirst, foldl_take_cons fun a ha => hxs a (mem_cons_of_mem _ ha)]
  rfl

end Take

/-! ## The three sources -/

def addresses (sig_data : List sig_data_t) : List Bytes := sig_data.map (·.address)

@[simp] theorem addresses_append (a b : List sig_data_t) : addresses (a ++ b) = addresses a ++ addresses b := map_append

@[simp] theorem length_addresses (a : List sig_data_t) : (addresses a).length = a.length := length_map _

variable {C : Crypto} {a passed tx_hash : Bytes} {ctx : Prepare} {i : Nat} {s : Collected}
  {data r sig_data : List sig_data_t} {owners : List Bytes} {s' : Collected} {threshold : Nat}

theorem is_valid_iff :
    is_valid data owners a data.length = true ↔ owners.contains a = true ∧ (addresses data).head? ≠ some a := by
  unfold is_valid addresses
  cases data with
  | nil => simp
  | cons e rest =>
    rw [Bool.and_eq_true, all_eq_true]
    constructor
    · rintro ⟨ho, hall⟩
      exact ⟨ho, by simpa using hall 0 (by simp)⟩
    · rintro ⟨ho, hne⟩
      exact ⟨ho, fun _ _ => by simpa using hne⟩

theorem addresses_take (owners : List Bytes) (hroom : data.length < threshold)
    (e : sig_data_t) :
    take owners threshold (addresses data) e.address =
      addresses (if is_valid data owners e.address data.length then data ++ [e] else data) := by
  unfold take
  rw [length_addresses]
  by_cases hv : is_valid data owners e.address data.length = true
  · rw [if_pos ⟨hroom, is_valid_iff.1 hv⟩, if_pos hv, addresses_append]
    rfl
  · rw [if_neg fun h => hv (is_valid_iff.2 h.2), if_neg hv]

/-- The signatures from `i` on are as they were passed, and the pointer of the next entry leads to one in front of them. -/
structure Unread (s : Collected) (passed : Bytes) (i : Nat) : Prop where
  length : s.signatures.length = passed.length
  rest : s.signatures.drop i = passed.drop i
  slot : ∀ p, s.slot = some p → p + 20 ≤ i

theorem length_ecrecover_sig {hash sig : Bytes} (h : ecrecover_sig C hash sig = some a) : a.length = 20 := by
  obtain ⟨pubkey, -, rfl⟩ := Option.map_eq_some_iff.1 h
  rw [length_drop, C.keccak.len]

theorem Unread.mono {j : Nat} (h : Unread s passed i) (hij : i ≤ j) : Unread s passed j where
  length := h.length
  rest := by
    rw [show j = i + (j - i) by omega, ← drop_drop, ← drop_drop, h.rest]
  slot p hp := Nat.le_trans (h.slot p hp) hij

theorem Unread.store {signatures : Bytes} {p : Nat} (h : Unread s passed i) (hp : s.slot = some p)
    (ha : a.length = 20) (hstore : ok (Region.store s.signatures p a : MsRun Bytes) signatures) :
    Unread { s with signatures := signatures } passed i where
  length := (Region.length_of_ok_store hstore).trans h.length
  rest := by
    obtain ⟨⟨-, hle⟩, rfl⟩ := Region.ok_store.1 hstore
    have hslot := h.slot p hp
    rw [Int.toNat_natCast] at hle ⊢
    have hfront : (s.signatures.take p ++ a).length = p + 20 := by
      rw [length_append, length_take]
      omega
    rw [← h.rest, drop_append, drop_of_length_le (by omega), nil_append, drop_drop, hfront]
    congr 1
    omega
  slot := h.slot

theorem read_signature_ok {e : sig_data_t}
    (hs : Unread s passed i) (h : ok (read_signature C tx_hash i s) (e, s')) :
    signerAt C tx_hash passed i = some e.address ∧ s'.sig_data = s.sig_data ∧ Unread s' passed (i + 65) := by
  unfold read_signature at h
  simp only [ok_bind, Region.ok_byte, Region.ok_slice] at h
  obtain ⟨v, ⟨-, hv⟩, sig, ⟨-, hsig⟩, h⟩ := h
  have hv' : passed.getD (i + 64) 0 = v := by
    have hget : s.signatures.getD (i + 64) 0 = passed.getD (i + 64) 0 := by
      have := congrArg (List.getD · 64 0) hs.rest
      simpa [getD_eq_getElem?_getD, List.getElem?_drop] using this
    rw [← hget]
    congr 1
  have hsig' : (passed.drop i).take 65 = sig := by
    rw [← hs.rest, ← hsig, Int.toNat_natCast]
  have hmono := hs.mono (show i ≤ i + 65 by omega)
  unfold signerAt
  rw [hv', hsig']
  split at h
  · next h0 =>
    simp only [ok_bind] at h
    obtain ⟨size, -, h⟩ := h
    cases h
    exact ⟨if_pos (.inl h0), rfl, hmono.length, hmono.rest, by simp⟩
  · next h0 =>
    split at h
    · next h1 =>
      cases ok_pure.1 h
      exact ⟨if_pos (.inr h1), rfl, hmono.length, hmono.rest, by simp⟩
    · next h1 =>
      rw [if_neg (not_or.2 ⟨h0, h1⟩)]
      split at h
      · next h26 =>
        rw [if_pos h26]
        rcases hrec : ecrecover_sig C tx_hash sig with _ | a
        · rw [hrec] at h
          exact absurd h ok_throw
        · rw [hrec] at h
          rcases hslot : s.slot with _ | p
          · rw [hslot] at h
            exact absurd h ok_fault
          · rw [hslot] at h
            simp only [ok_bind] at h
            obtain ⟨signatures, hstore, h⟩ := h
            cases h
            have hread := hs.store hslot (length_ecrecover_sig hrec) hstore
            rw [hslot] at hread
            exact ⟨rfl, rfl, hread.mono (by omega)⟩
      · exact absurd h ok_throw

theorem fill_loop_ok {rounds : Nat}
    (hs : Unread s passed i) (h : ok (fill_loop C owners threshold tx_hash rounds i s) s') :
    addresses s'.sig_data =
      (signersFrom C tx_hash passed rounds i).foldl (take owners threshold) (addresses s.sig_data) := by
  induction rounds generalizing i s with
  | zero =>
    cases ok_pure.1 h
    rfl
  | succ rounds ih =>
    unfold fill_loop at h
    unfold signersFrom
    rw [hs.length] at h
    split at h
    · next hmore =>
      rw [if_pos hmore.1]
      obtain ⟨⟨e, s₁⟩, hread, h⟩ := ok_bind.1 h
      obtain ⟨hsigner, hsame, hs₁⟩ := read_signature_ok hs hread
      have hroom : s₁.sig_data.length < threshold := hsame ▸ hmore.2
      rw [hsigner, Option.toList_some, singleton_append, foldl_cons, ← hsame, addresses_take owners hroom]
      dsimp only at h
      split at h
      · next hv =>
        rw [if_pos hv]
        have hs₂ : Unread { s₁ with sig_data := s₁.sig_data ++ [e], slot := none } passed (i + 65) :=
          ⟨hs₁.length, hs₁.rest, by simp⟩
        exact ih hs₂ h
      · next hv =>
        rw [if_neg hv]
        exact ih hs₁ h
    · next hstop =>
      cases ok_pure.1 h
      split
      · next hlt => rw [foldl_take_full]; rw [length_addresses]; omega
      · rfl

theorem fill_signature_ok {signatures : Option Bytes}
    (h : ok (fill_signature C signatures owners threshold sig_data tx_hash) s) :
    addresses s.sig_data = (signers C tx_hash (signatures.getD [])).foldl (take owners threshold) (addresses sig_data) := by
  cases signatures with
  | none =>
    cases ok_pure.1 h
    rfl
  | some signatures =>
    have hstart : Unread ⟨sig_data, none, signatures⟩ signatures 0 := ⟨rfl, rfl, by simp⟩
    exact fill_loop_ok hstart h

theorem ok_called {data r : Bytes} : ok (ctx.called data) r ↔ ctx.call data = .ok r := by
  unfold ok Prepare.called
  rw [ExceptT.run_mk, Except.ok.injEq]

theorem add_approved_ok {rest : List Bytes}
    (h : ok (add_approved ctx owners threshold tx_hash rest sig_data) r) :
    addresses r =
      (rest.filter fun o => HasApproved ctx tx_hash o).foldl (take owners threshold) (addresses sig_data) := by
  induction rest generalizing sig_data with
  | nil =>
    cases ok_pure.1 h
    rfl
  | cons owner rest ih =>
    unfold add_approved at h
    split at h
    · next hroom =>
      have htake := addresses_take owners hroom (approved_entry owner)
      rw [show (approved_entry owner).address = owner from rfl] at htake
      split at h
      · next hv =>
        rw [if_pos hv] at htake
        obtain ⟨result, hcall, h⟩ := ok_bind.1 h
        rw [ok_called] at hcall
        rw [ok_ite_throw] at h
        obtain ⟨hlen, h⟩ := h
        have hiff : HasApproved ctx tx_hash owner ↔ result.getD 31 0 ≠ 0 := by
          constructor
          · rintro ⟨result', hcall', -, hne⟩
            rw [hcall] at hcall'
            cases hcall'
            exact hne
          · exact fun hne => ⟨result, hcall, by omega, hne⟩
        split at h
        · next hne =>
          rw [filter_cons_of_pos (by simpa using hiff.2 hne), foldl_cons, htake]
          exact ih h
        · next hne =>
          rw [filter_cons_of_neg (by simpa using fun ha => hne (hiff.1 ha))]
          exact ih h
      · next hv =>
        rw [if_neg hv] at htake
        by_cases ha : HasApproved ctx tx_hash owner
        · rw [filter_cons_of_pos (by simpa using ha), foldl_cons, htake]
          exact ih h
        · rw [filter_cons_of_neg (by simpa using ha)]
          exact ih h
    · next hfull =>
      cases ok_pure.1 h
      rw [foldl_take_full]
      rw [length_addresses]
      omega

theorem own_signature_ok {account : Bytes}
    (h : ok (own_signature owners threshold account) r) : addresses r = take owners threshold [] account := by
  unfold own_signature at h
  have hv : is_valid [] owners account 0 = owners.contains account := by simp [is_valid]
  rw [hv] at h
  unfold take
  split at h
  · next hin =>
    simp only [ok_bind, ok_guard, ok_pure, exists_const] at h
    obtain ⟨hpos, rfl⟩ := h
    rw [if_pos ⟨hpos, hin, by simp⟩]
    rfl
  · next hin =>
    cases ok_pure.1 h
    rw [if_neg fun h => hin h.2.1]
    rfl

theorem collect_ok {ms : multisig_t} {d : Decision} (h : ok (collect ms ctx) d) :
    addresses d.sig_data = (offered ctx d.owners d.tx_hash).foldl (take d.owners d.threshold) [] := by
  unfold collect at h
  simp only [ok_bind, ok_pure] at h
  obtain ⟨⟨ms', nonce⟩, -, own, hown, tx_data, -, tx_hash, -, s, hfill, sig_data, hadd, rfl⟩ := h
  rw [offered, foldl_take_filter, foldl_append, foldl_append, foldl_cons, foldl_nil,
    ← own_signature_ok hown, ← fill_signature_ok hfill, ← add_approved_ok hadd]

/-! ## The quorum -/

/-- The entries are those of at least as many different owners as the threshold says. -/
def Quorum (d : Decision) : Prop :=
  ∃ signed : List Bytes, signed.Nodup ∧ d.threshold ≤ signed.length ∧ ∀ a ∈ signed, a ∈ d.owners ∧ a ∈ addresses d.sig_data

/-- When the transaction is executed, there is a quorum exactly if no owner but the first one is taken twice: behind the first
one, and without the repetitions of the first one, the owners that are needed are offered once each. -/
theorem quorum_iff {ms : multisig_t} {ctx : Prepare} {d : Decision} (hok : ok (collect ms ctx) d)
    (hexec : d.threshold ≤ d.sig_data.length) :
    Quorum d ↔ ∀ first rest, offered ctx d.owners d.tx_hash = first :: rest →
      ((rest.filter (· ≠ first)).take (d.threshold - 1)).Nodup := by
  have htaken := collect_ok hok
  have hin : ∀ a ∈ offered ctx d.owners d.tx_hash, d.owners.contains a := fun a ha => (mem_filter.1 ha).2
  rw [← length_addresses] at hexec
  by_cases hzero : d.threshold = 0
  · refine iff_of_true ⟨[], nodup_nil, by omega, by simp⟩ fun first rest _ => ?_
    rw [hzero]
    exact nodup_nil
  · rcases hoff : offered ctx d.owners d.tx_hash with _ | ⟨first, rest⟩
    · rw [hoff] at htaken
      rw [htaken] at hexec
      exact absurd hexec (by simpa using hzero)
    · rw [hoff] at htaken hin
      rw [foldl_take_nil (by omega) hin] at htaken
      have hmem : ∀ a ∈ addresses d.sig_data, a ∈ d.owners := by
        intro a ha
        rw [htaken] at ha
        rcases mem_cons.1 ha with rfl | ha
        · simpa using hin a mem_cons_self
        · have hrest := mem_of_mem_filter (mem_of_mem_take ha)
          simpa using hin a (mem_cons_of_mem _ hrest)
      have hnodup : (addresses d.sig_data).Nodup ↔ ((rest.filter (· ≠ first)).take (d.threshold - 1)).Nodup := by
        rw [htaken, nodup_cons]
        refine ⟨And.right, fun h => ⟨fun hmem => ?_, h⟩⟩
        simpa using (mem_filter.1 (mem_of_mem_take hmem)).2
      have hlen : (addresses d.sig_data).length ≤ d.threshold := by
        rw [htaken, length_cons, length_take]
        omega
      have hquorum : Quorum d ↔ (addresses d.sig_data).Nodup := by
        constructor
        · rintro ⟨signed, hs, hcount, hall⟩
          have hsub := subperm_of_subset hs fun a ha => (hall a ha).2
          exact (hsub.perm_of_length_le (by omega)).nodup_iff.1 hs
        · intro h
          exact ⟨_, h, hexec, fun a ha => ⟨hmem a ha, ha⟩⟩
      rw [hquorum, hnodup]
      constructor
      · intro h first' rest' heq
        cases heq
        exact h
      · intro h
        exact h first rest rfl

/-! ## A wallet with three owners -/

def ownerN (n : UInt8) : Bytes := replicate 20 n

/-- A signature that refers to an approval. -/
def approvalOf (owner : Bytes) : Bytes := replicate 12 0 ++ owner ++ replicate 32 0 ++ [1]

def threeOwners : multisig_t := ⟨ownerN 9, 3, some [ownerN 1, ownerN 2, ownerN 3]⟩

/-- The first owner sends a transaction of the value 5 and passes some signatures; nobody approved it on chain. -/
def sentByFirst (sigs : Bytes) : Prepare where
  crypto := ⟨Hash.ofTable [], fun _ _ => none⟩
  account := ownerN 1
  old_tx := [0xdd, 1, 2, 0x82, 0x52, 0x08, 0x94] ++ ownerN 8 ++ [5, 0x80, 1]
  msSigs := some sigs
  call _ := .ok (replicate 32 0)

/-- What is decided when the signatures of two other owners are passed. -/
def decisionWith (second third : Bytes) : Decision where
  owners := [ownerN 1, ownerN 2, ownerN 3]
  threshold := 3
  tx_data := { nonce := [1], to_address := ownerN 8, value := [5], data := [], gas := [0x52, 0x08], gas_price := [2], v := [1] }
  tx_hash := replicate 32 0
  signatures := approvalOf second ++ approvalOf third
  sig_data := [own_entry (ownerN 1), ⟨second, approvalOf second, (0, 0)⟩, ⟨third, approvalOf third, (0, 0)⟩]

/-- Three different owners are a quorum. -/
theorem quorum_of_three :
    ok (collect threeOwners (sentByFirst (approvalOf (ownerN 2) ++ approvalOf (ownerN 3))))
      (decisionWith (ownerN 2) (ownerN 3)) ∧ Quorum (decisionWith (ownerN 2) (ownerN 3)) := by
  have hok : ok (collect threeOwners (sentByFirst (approvalOf (ownerN 2) ++ approvalOf (ownerN 3))))
      (decisionWith (ownerN 2) (ownerN 3)) := by decide +kernel
  refine ⟨hok, (quorum_iff hok (by decide)).2 fun first rest h => ?_⟩
  have hoff : offered (sentByFirst (approvalOf (ownerN 2) ++ approvalOf (ownerN 3))) [ownerN 1, ownerN 2, ownerN 3]
      (replicate 32 0) = [ownerN 1, ownerN 2, ownerN 3] := by decide +kernel
  cases hoff.symm.trans h
  decide

/-- The second owner signs twice, and the transaction of three is executed for two of them. -/
theorem quorum_of_two :
    ok (collect threeOwners (sentByFirst (approvalOf (ownerN 2) ++ approvalOf (ownerN 2))))
      (decisionWith (ownerN 2) (ownerN 2)) ∧
      (decisionWith (ownerN 2) (ownerN 2)).threshold ≤ (decisionWith (ownerN 2) (ownerN 2)).sig_data.length ∧
      ¬ Quorum (decisionWith (ownerN 2) (ownerN 2)) := by
  refine ⟨by decide +kernel, by decide, ?_⟩
  rintro ⟨signed, hnodup, hcount, hall⟩
  have hsub : signed ⊆ [ownerN 1, ownerN 2] := by
    intro a ha
    have hmem : a ∈ [ownerN 1, ownerN 2, ownerN 2] := (hall a ha).2
    simpa using hmem
  have hle := (subperm_of_subset hnodup hsub).length_le
  have hthree : 3 ≤ signed.length := hcount
  exact absurd (Nat.le_trans hthree hle) (by decide)

end In3.Signer
