import In3.Btc.CompactTheorems
import In3.Btc.Merkle
import In3.Lib.MerkleTree
import In3.Lib.Pieces
/-!
# Roots and proofs of a block's Merkle tree

The in-place rounds compute one level of the tree each, so that the root is the one of the abstract
tree as long as there are at least two hashes. The verification accepts a branch as soon as one of the
hashes on the way is the root, and it reads 32 bytes even where fewer are left.
-/
open Lib Guarded List

namespace In3.Btc
open Evm (memcmp memcmp_eq_compare)

def pairHash (H : Hash) (a b : Bytes) : Bytes := H.fn (a ++ b)

/-! ## Verification -/

theorem memcmp_eq_zero_iff {a b : Bytes} (h : a.length = b.length) : memcmp a b = 0 ↔ a = b := by
  rw [(memcmp_eq_compare h).2]
  exact ⟨beNat_inj h, congrArg beNat⟩

section Verify
variable {H : Hash} {target proof : Bytes}

def MeetsOn (H : Hash) (target : Bytes) (hash : Bytes) (index : Int) (hashes : List Bytes) : Prop :=
  ∃ j ≤ hashes.length, MerkleTree.climb (pairHash H) hash index (hashes.take j) = target

variable {hash : Bytes} {hashes : List Bytes} {index : Int}

theorem meetsOn_nil : MeetsOn H target hash index [] ↔ hash = target := by
  constructor
  · rintro ⟨j, -, h⟩
    rwa [take_nil] at h
  · exact fun h => ⟨0, le_rfl, h⟩

theorem meetsOn_cons {s : Bytes} :
    MeetsOn H target hash index (s :: hashes) ↔
      hash = target ∨ MeetsOn H target (H.fn (if index % 2 = 1 then s ++ hash else hash ++ s)) (index / 2) hashes := by
  have hstep : ∀ j, MerkleTree.climb (pairHash H) hash index ((s :: hashes).take (j + 1)) =
      MerkleTree.climb (pairHash H) (H.fn (if index % 2 = 1 then s ++ hash else hash ++ s)) (index / 2) (hashes.take j) := by
    intro j
    rw [take_succ_cons, MerkleTree.climb]
    split_ifs <;> rfl
  constructor
  · rintro ⟨j, hj, h⟩
    cases j with
    | zero => exact .inl h
    | succ j => exact .inr ⟨j, by simpa using hj, by rw [← hstep]; exact h⟩
  · rintro (h | ⟨j, hj, h⟩)
    · exact ⟨0, Nat.zero_le _, h⟩
    · exact ⟨j + 1, by simpa using hj, by rw [hstep]; exact h⟩

/-- The loop on whole hashes with some bytes behind them: those are read unless a hash on the way matches. -/
theorem ok_verify_loop (ht : target.length = 32) (h32 : ∀ s ∈ hashes, s.length = 32) {tail : Bytes}
    (htail : tail.length < 32) {fuel p : Nat} (hhash : hash.length = 32)
    (hp : p ≤ proof.length) (hproof : proof.drop p = hashes.flatten ++ tail) (hfuel : hashes.length < fuel) (b : Bool) :
    ok (verify_loop H target proof fuel p index hash) b ↔
      if tail = [] then (b = true ↔ MeetsOn H target hash index hashes)
      else b = true ∧ MeetsOn H target hash index hashes := by
  induction hashes generalizing fuel p index hash with
  | nil =>
    obtain ⟨fuel, rfl⟩ : ∃ n, fuel = n + 1 := ⟨fuel - 1, by omega⟩
    have hcmp := memcmp_eq_zero_iff (a := target) (b := hash) (by omega)
    rw [flatten_nil, nil_append] at hproof
    rw [verify_loop, meetsOn_nil]
    by_cases hnil : tail = []
    · have hend : p = proof.length := by
        rw [hnil] at hproof
        exact le_antisymm hp (drop_eq_nil_iff.1 hproof)
      rw [if_pos hend, if_pos hnil]
      by_cases heq : target = hash
      · rw [decide_eq_true (hcmp.2 heq)]
        cases b <;> simp [heq]
      · cases b <;> simp [hcmp, heq, Ne.symm heq]
    · have hlen := congrArg List.length hproof
      rw [length_drop] at hlen
      have hend : p ≠ proof.length := fun he => hnil (length_eq_zero_iff.1 (by omega))
      rw [if_neg hend, if_neg hnil]
      by_cases heq : target = hash
      · rw [if_pos (hcmp.2 heq)]
        simp [heq]
      · rw [if_neg (fun h => heq (hcmp.1 h))]
        simp only [ok_bind, Region.ok_slice, Ne.symm heq, and_false, iff_false]
        omega
  | cons s hashes ih =>
    obtain ⟨fuel, rfl⟩ : ∃ n, fuel = n + 1 := ⟨fuel - 1, by omega⟩
    have hs := h32 s mem_cons_self
    have hcmp := memcmp_eq_zero_iff (a := target) (b := hash) (by omega)
    rw [flatten_cons, append_assoc] at hproof
    have hlen := congrArg List.length hproof
    rw [length_drop, length_append] at hlen
    have hnext : proof.drop (p + 32) = hashes.flatten ++ tail := by
      rw [← drop_drop, hproof, ← hs, drop_left]
    have hread : (proof.drop p).take 32 = s := by
      rw [hproof, ← hs, take_left]
    rw [verify_loop, if_neg (by omega), meetsOn_cons]
    by_cases heq : target = hash
    · rw [if_pos (hcmp.2 heq)]
      simp [heq]
    · rw [if_neg (fun h => heq (hcmp.1 h)), Region.slice_eq_pure (by omega), Int.toNat_natCast, hread]
      simp only [Ne.symm heq, false_or]
      exact ih (fun x hx => h32 x (mem_cons_of_mem _ hx)) (H.len _) (by omega) hnext (by simpa using hfuel)

end Verify

def proofHashes (proof : Bytes) : List Bytes := pieces 32 proof

theorem proofHashes_append (proof : Bytes) :
    (proofHashes proof).flatten ++ proof.drop (32 * (proof.length / 32)) = proof := pieces_append 32 proof

@[simp] theorem length_proofHashes (proof : Bytes) : (proofHashes proof).length = proof.length / 32 := length_pieces 32 proof

theorem length_of_mem_proofHashes {proof s : Bytes} (h : s ∈ proofHashes proof) : s.length = 32 := length_of_mem_pieces h

/-- What the verification must have checked when it accepts. -/
structure Accepted (H : Hash) (target proof : Bytes) (index : Int) (start_hash : Bytes) : Prop where
  whole : proof.length % 32 = 0
  folds : MerkleTree.climb (pairHash H) start_hash.reverse index (proofHashes proof) = target
  below : index < 2 ^ (proof.length / 32)

/-- The verification reads inside of the proof and accepts only what it must have checked, exactly if the proof is made
of whole hashes, no earlier hash on the way is the root unless the last one is, and the index has no other bits. -/
theorem merkle_verify_iff (H : Hash) {target start_hash : Bytes} (ht : target.length = 32) (hs : start_hash.length = 32)
    (proof : Bytes) (index : Int) :
    (∃ b, ok (btc_merkle_verify_proof H target proof index start_hash) b ∧
      (b = true → Accepted H target proof index start_hash)) ↔
    proof.length % 32 = 0 ∧
      (∀ j < proof.length / 32, MerkleTree.climb (pairHash H) start_hash.reverse index ((proofHashes proof).take j) = target →
        MerkleTree.climb (pairHash H) start_hash.reverse index (proofHashes proof) = target) ∧
      (MerkleTree.climb (pairHash H) start_hash.reverse index (proofHashes proof) = target → index < 2 ^ (proof.length / 32)) := by
  have hwhole : proof.drop (32 * (proof.length / 32)) = [] ↔ proof.length % 32 = 0 := by
    rw [drop_eq_nil_iff]
    omega
  have hloop : ∀ b, ok (btc_merkle_verify_proof H target proof index start_hash) b ↔
      if proof.length % 32 = 0 then (b = true ↔ MeetsOn H target start_hash.reverse index (proofHashes proof))
      else b = true ∧ MeetsOn H target start_hash.reverse index (proofHashes proof) := by
    intro b
    unfold btc_merkle_verify_proof
    rw [rev_copy_eq hs]
    simp only [← hwhole]
    exact ok_verify_loop ht (fun s => length_of_mem_proofHashes) (by rw [length_drop]; omega)
      (by rw [length_reverse, hs]) (Nat.zero_le _) (proofHashes_append proof).symm (by rw [length_proofHashes]; omega) b
  have hall : (proofHashes proof).take (proof.length / 32) = proofHashes proof :=
    take_of_length_le (by rw [length_proofHashes])
  simp only [hloop]
  by_cases hw : proof.length % 32 = 0
  · simp only [hw, true_and]
    constructor
    · rintro ⟨b, hb, hacc⟩
      refine ⟨fun j hj hmeet => ?_, fun hfold => ?_⟩
      · exact (hacc (hb.2 ⟨j, by rw [length_proofHashes]; omega, hmeet⟩)).folds
      · exact (hacc (hb.2 ⟨proof.length / 32, by rw [length_proofHashes], by rw [hall]; exact hfold⟩)).below
    · rintro ⟨hearly, hbelow⟩
      by_cases hmeets : MeetsOn H target start_hash.reverse index (proofHashes proof)
      · refine ⟨true, iff_of_true rfl hmeets, fun _ => ?_⟩
        obtain ⟨j, hj, hmeet⟩ := hmeets
        rw [length_proofHashes] at hj
        have hfold : MerkleTree.climb (pairHash H) start_hash.reverse index (proofHashes proof) = target := by
          rcases Nat.lt_or_eq_of_le hj with hlt | rfl
          · exact hearly j hlt hmeet
          · rwa [hall] at hmeet
        exact ⟨hw, hfold, hbelow hfold⟩
      · exact ⟨false, iff_of_false (by simp) hmeets, by simp⟩
  · simp only [hw, false_and, iff_false]
    rintro ⟨b, ⟨hb, -⟩, hacc⟩
    exact hw (hacc hb).whole

/-- The double SHA-256 of some pairs of hashes. -/
def pairSha : Hash := .ofTable
  [(replicate 32 7 ++ replicate 32 1, word 0xcfabe66fa793cfb25ab492347b7ace992afc41f51359d3f918c1e8c1327f1bfd),
    (replicate 32 1 ++ replicate 32 7, word 0x9581e96b9a93dfc09e23c4e220f1ededb639c187eb90639e8409791d0dc10630),
    (replicate 32 1 ++ replicate 32 2, word 0x39ce20bede82c96b8908bec4a157b09c549b3db90b9b474bda9ae9b9030310b4),
    (replicate 32 1 ++ replicate 32 1, word 0x61a088b4cf1f244e52e5e88fcd91b3b7d6135ebff53476ecc8436e23b5e7f095)]

/-- The hash is the right one of two. -/
theorem merkle_verify_one_hash :
    ∃ b, ok (btc_merkle_verify_proof pairSha (pairHash pairSha (replicate 32 7) (replicate 32 1)) (replicate 32 7) 1
        (replicate 32 1)) b ∧
      (b = true → Accepted pairSha (pairHash pairSha (replicate 32 7) (replicate 32 1)) (replicate 32 7) 1 (replicate 32 1)) :=
  (merkle_verify_iff pairSha (by decide) rfl (replicate 32 7) 1).2
    ⟨by decide, by decide, fun _ => by decide⟩

/-- A hash on the way that is the root, an index with bits that nothing checks, and a proof with one byte too many. -/
theorem merkle_verify_too_early :
    (ok (btc_merkle_verify_proof pairSha (replicate 32 1) (replicate 32 7) 0 (replicate 32 1)) true ∧
      MerkleTree.climb (pairHash pairSha) (replicate 32 1) 0 (proofHashes (replicate 32 7)) ≠ replicate 32 1) ∧
    (ok (btc_merkle_verify_proof pairSha (replicate 32 1) [] 5 (replicate 32 1)) true ∧
      ¬ (5 : Int) < 2 ^ (([] : Bytes).length / 32)) ∧
    Guarded.faults (btc_merkle_verify_proof pairSha (replicate 32 2) (replicate 33 7) 0 (replicate 32 1)) (.read 32 33) := by
  refine ⟨⟨?_, ?_⟩, ⟨?_, ?_⟩, ?_⟩
  · decide
  · decide
  · decide
  · decide
  · decide

/-! ## The root -/

section Root
variable {H : Hash} {hashes l : List Bytes}

theorem getD_parent_rounds (hlen : l.length ≤ hashes.length)
    (hl : ∀ j < l.length, hashes.getD j [] = l.getD j []) {k : Nat} (hk : k ≤ (l.length + 1) / 2) :
    ((range k).foldl (parent_round H l.length) hashes).length = hashes.length ∧
      ∀ j, ((range k).foldl (parent_round H l.length) hashes).getD j [] =
        if j < k then (MerkleTree.parents (pairHash H) l).getD j [] else hashes.getD j [] := by
  induction k with
  | zero => simp
  | succ k ih =>
    obtain ⟨ihlen, ihget⟩ := ih (by omega)
    rw [range_succ, foldl_append, foldl_cons, foldl_nil]
    generalize (range k).foldl (parent_round H l.length) hashes = cur at *
    refine ⟨by rw [parent_round, length_set, ihlen], fun j => ?_⟩
    -- both children are still the ones of the level below
    have hchild : ∀ i, k ≤ i → i < l.length → cur.getD i [] = l.getD i [] := by
      intro i hi hil
      rw [ihget, if_neg (by omega), hl i hil]
    have hvalue : H.fn (cur.getD (2 * k) [] ++ cur.getD (if 2 * k + 1 = l.length then 2 * k else 2 * k + 1) []) =
        (MerkleTree.parents (pairHash H) l).getD k [] := by
      rw [MerkleTree.getD_parents (pairHash H) [] l (by omega), pairHash, hchild (2 * k) (by omega) (by omega),
        MerkleTree.sibling, if_neg (by omega : ¬ 2 * k % 2 = 1)]
      by_cases hlast : 2 * k + 1 = l.length
      · rw [if_pos hlast, if_neg (by omega), hchild (2 * k) (by omega) (by omega)]
      · rw [if_neg hlast, if_pos (by omega), hchild (2 * k + 1) (by omega) (by omega)]
    rw [parent_round, hvalue]
    rcases Nat.lt_trichotomy j k with hlt | rfl | hgt
    · rw [if_pos (by omega), getD_eq_getElem?_getD, List.getElem?_set_ne (by omega), ← getD_eq_getElem?_getD, ihget,
        if_pos hlt]
    · rw [if_pos (by omega), getD_eq_getElem?_getD, List.getElem?_set_self (by omega)]
      rfl
    · rw [if_neg (by omega), getD_eq_getElem?_getD, List.getElem?_set_ne (by omega), ← getD_eq_getElem?_getD, ihget,
        if_neg (by omega)]

theorem ok_create_parent_hashes {fuel : Nat} (hlen : l.length ≤ hashes.length)
    (hl : ∀ j < l.length, hashes.getD j [] = l.getD j []) (hpos : 0 < l.length) (hfuel : l.length ≤ fuel)
    (hint : 64 * ((l.length + 1) / 2) < 2 ^ 31) :
    ∃ tmp, ok (create_parent_hashes H fuel hashes l.length) tmp ∧
      tmp.getD 0 [] = MerkleTree.root (pairHash H) [] (MerkleTree.parents (pairHash H) l) := by
  induction fuel generalizing hashes l with
  | zero => omega
  | succ fuel ih =>
    obtain ⟨hlevel, hget⟩ := getD_parent_rounds (H := H) hlen hl (le_refl _)
    have hcount := MerkleTree.length_parents (pairHash H) l
    rw [create_parent_hashes]
    generalize (range ((l.length + 1) / 2)).foldl (parent_round H l.length) hashes = level at *
    simp only [ok_bind, ok_guard, hint, exists_const, true_and]
    by_cases hmore : 1 < (l.length + 1) / 2
    · simp only [hmore]
      rw [MerkleTree.root_eq_parents _ _ (by omega), ← hcount]
      exact ih (by rw [hcount]; omega) (fun j hj => by rw [hget, if_pos (by omega)]) (by omega) (by omega) (by omega)
    · simp only [hmore, if_false, ok_pure, exists_eq_left']
      obtain ⟨a, ha⟩ := length_eq_one_iff.1 (show (MerkleTree.parents (pairHash H) l).length = 1 by omega)
      rw [hget, if_pos (by omega), ha]
      rfl

end Root

/-- The Merkle root of transaction hashes as Bitcoin defines it; hashes are shown in reverse order. -/
def bitcoinRoot (H : Hash) (hashes : List Bytes) : Bytes :=
  (MerkleTree.root (pairHash H) [] (hashes.map List.reverse)).reverse

def bitcoinBranch (H : Hash) (hashes : List Bytes) (i : Nat) : Bytes :=
  (MerkleTree.branch (pairHash H) [] (hashes.map List.reverse) i).flatten

section Agree
variable {H : Hash} {hashes : List Bytes}

theorem length_of_mem_reversed (h32 : ∀ x ∈ hashes, x.length = 32) : ∀ x ∈ hashes.map List.reverse, x.length = 32 := by
  intro x hx
  obtain ⟨y, hy, rfl⟩ := mem_map.1 hx
  rw [length_reverse, h32 y hy]

theorem map_rev_copy (h32 : ∀ x ∈ hashes, x.length = 32) : hashes.map rev_copy = hashes.map List.reverse :=
  map_congr_left fun x hx => rev_copy_eq (h32 x hx)

theorem ok_create_root (h32 : ∀ x ∈ hashes, x.length = 32) (hne : hashes ≠ []) (r : Bytes) :
    ok (btc_merkle_create_root H hashes) r ↔
      hashes.length + 1 < 2 ^ 26 ∧
        r = (MerkleTree.root (pairHash H) [] (MerkleTree.parents (pairHash H) (hashes.map List.reverse))).reverse := by
  have hpos : 0 < hashes.length := length_pos_iff.2 hne
  have hlen : (hashes.map List.reverse).length = hashes.length := length_map _
  unfold btc_merkle_create_root
  simp only [ok_bind, ok_guard, exists_const, if_neg (Nat.ne_of_gt hpos), map_rev_copy h32, ok_pure]
  by_cases hint : hashes.length + 1 < 2 ^ 26
  · obtain ⟨tmp, htmp, hroot⟩ := ok_create_parent_hashes (H := H) (le_refl (hashes.map List.reverse).length) (fun _ _ => rfl)
      (by omega) (le_refl _) (by omega)
    rw [hlen] at htmp
    have hroot32 : (tmp.getD 0 []).length = 32 := by
      rw [hroot]
      refine MerkleTree.forall_root (P := fun x => x.length = 32) _ (fun a b => H.len _) _ (fun h => ?_)
        (MerkleTree.forall_parents (pairHash H) (fun a b => H.len _) _)
      have := congrArg List.length h
      rw [MerkleTree.length_parents, length_nil] at this
      omega
    constructor
    · rintro ⟨-, tmp', htmp', rfl⟩
      obtain rfl := ok_unique htmp htmp'
      exact ⟨hint, by rw [rev_copy_eq hroot32, hroot]⟩
    · rintro ⟨-, rfl⟩
      exact ⟨by omega, tmp, htmp, by rw [rev_copy_eq hroot32, hroot]⟩
  · simp only [hint, false_and, iff_false]
    rintro ⟨-, tmp, htmp, -⟩
    obtain ⟨n, hn⟩ : ∃ n, hashes.length = n + 1 := ⟨hashes.length - 1, by omega⟩
    rw [hn, create_parent_hashes, ok_bind] at htmp
    obtain ⟨_, hguard, -⟩ := htmp
    rw [ok_guard] at hguard
    omega

theorem ok_verify_branch (h32 : ∀ x ∈ hashes, x.length = 32) {i : Nat} (hi : i < hashes.length) :
    ok (btc_merkle_verify_proof H (bitcoinRoot H hashes).reverse (bitcoinBranch H hashes i) i (hashes.getD i [])) true := by
  have hlen : (hashes.map List.reverse).length = hashes.length := length_map _
  have hrev := length_of_mem_reversed h32
  have hne : hashes.map List.reverse ≠ [] := ne_nil_of_length_pos (by omega)
  have hleaf : (hashes.getD i []).length = 32 := by
    rw [getD_eq_getElem?_getD, List.getElem?_eq_getElem hi]
    exact h32 _ (getElem_mem hi)
  have hstart : (hashes.map List.reverse).getD i [] = (hashes.getD i []).reverse := by
    rw [getD_eq_getElem?_getD, getD_eq_getElem?_getD, List.getElem?_map, List.getElem?_eq_getElem hi]
    rfl
  have hbranch := MerkleTree.forall_branch (P := fun x => x.length = 32) (pairHash H) (fun a b => H.len _) [] hrev (i := i)
    (by omega)
  have hroot := MerkleTree.forall_root (P := fun x => x.length = 32) (pairHash H) (fun a b => H.len _) [] hne hrev
  have hclimb := MerkleTree.climb_branch (pairHash H) [] (l := hashes.map List.reverse) (i := i) (by omega)
  rw [hstart] at hclimb
  unfold btc_merkle_verify_proof bitcoinRoot bitcoinBranch
  rw [rev_copy_eq hleaf, reverse_reverse]
  have hcount := length_flatten_of_forall hbranch
  refine (ok_verify_loop hroot hbranch (show ([] : Bytes).length < 32 by simp) (by rw [length_reverse, hleaf]) (Nat.zero_le _)
    (by rw [drop_zero, append_nil]) (by omega) true).2 ?_
  refine iff_of_true rfl ⟨_, le_rfl, ?_⟩
  rw [take_length, hclimb]

end Agree

/-- The root that is computed is the Bitcoin root and every transaction has an accepted branch for it, exactly if the
sizes are numbers of their type and a single hash is its own parent. -/
theorem merkle_root_and_proof_iff (H : Hash) {hashes : List Bytes} (hne : hashes ≠ []) (h32 : ∀ x ∈ hashes, x.length = 32) :
    (ok (btc_merkle_create_root H hashes) (bitcoinRoot H hashes) ∧
      ∀ i < hashes.length,
        ok (btc_merkle_verify_proof H (bitcoinRoot H hashes).reverse (bitcoinBranch H hashes i) i (hashes.getD i [])) true) ↔
    hashes.length + 1 < 2 ^ 26 ∧
      (hashes.length = 1 → H.fn ((hashes.getD 0 []).reverse ++ (hashes.getD 0 []).reverse) = (hashes.getD 0 []).reverse) := by
  have hlen : (hashes.map List.reverse).length = hashes.length := length_map _
  rw [and_iff_left fun i hi => ok_verify_branch h32 hi, ok_create_root h32 hne]
  refine and_congr_right fun _ => ?_
  by_cases hone : hashes.length = 1
  · obtain ⟨x, rfl⟩ := length_eq_one_iff.1 hone
    simp only [length_singleton, forall_const]
    show x.reverse.reverse = (H.fn (x.reverse ++ x.reverse)).reverse ↔ H.fn (x.reverse ++ x.reverse) = x.reverse
    rw [reverse_inj, eq_comm]
  · have hpos : 0 < hashes.length := length_pos_iff.2 hne
    simp only [hone, false_implies, iff_true]
    unfold bitcoinRoot
    rw [MerkleTree.root_eq_parents _ _ (by omega)]

theorem merkle_root_and_proof_of_two :
    ok (btc_merkle_create_root pairSha [replicate 32 1, replicate 32 2])
        (bitcoinRoot pairSha [replicate 32 1, replicate 32 2]) ∧
      ∀ i < 2, ok (btc_merkle_verify_proof pairSha (bitcoinRoot pairSha [replicate 32 1, replicate 32 2]).reverse
        (bitcoinBranch pairSha [replicate 32 1, replicate 32 2] i) i ([replicate 32 1, replicate 32 2].getD i [])) true :=
  (merkle_root_and_proof_iff pairSha (by simp) (by simp)).2 ⟨by decide, by simp⟩

/-- The root of a single transaction is its hash, but the hash of the hash with itself is returned. -/
theorem merkle_root_of_one :
    bitcoinRoot pairSha [replicate 32 1] = replicate 32 1 ∧
      ok (btc_merkle_create_root pairSha [replicate 32 1]) (pairHash pairSha (replicate 32 1) (replicate 32 1)).reverse ∧
      pairHash pairSha (replicate 32 1) (replicate 32 1) ≠ replicate 32 1 := by
  refine ⟨?_, ?_, ?_⟩
  · decide
  · decide
  · decide

end In3.Btc
