import In3.Nodeselect.Registry
import In3.Lib.LittleEndian
/-!
# Indexes and storage slots of nodes (`nodeselect/full/registry.c`)

The loop of `create_random_indexes` adds an index only if it is not there yet, so the indexes differ whatever the hash
function gives. The array for the indexes of the required addresses has one byte for each of them, and an index has four.

A slot of an array element is the hash of the array's slot plus an offset. `b256_add` adds all of it, but the offset is
computed with 32 bits.
-/
open Lib List

namespace In3

/-! ## Indexes -/

/-- The indexes of a limited list: the given ones first, all of them different, and the added ones below the number of
servers. -/
structure IndexesRight (total_servers node_limit : Nat) (seed_indexes indexes : List Nat) : Prop where
  all : indexes.length = node_limit
  first : seed_indexes <+: indexes
  distinct : indexes.Nodup
  below : ∀ i ∈ indexes.drop seed_indexes.length, i < total_servers

section
variable {keccak : Hash} {fuel total_servers node_limit : Nat} {seed_indexes out : List Nat}

theorem random_loop_right {seed_data : Bytes} {step pos : Nat} {indexes : List Nat} (hpos : pos < total_servers)
    (hlen : indexes.length ≤ node_limit) (hright : IndexesRight total_servers indexes.length seed_indexes indexes)
    (h : random_loop keccak total_servers node_limit fuel seed_data step pos indexes = some out) :
    IndexesRight total_servers node_limit seed_indexes out := by
  induction fuel generalizing seed_data step pos indexes with
  | zero => cases h
  | succ fuel ih =>
    have hnext : ∀ step, (pos + step) % total_servers < total_servers := fun step => Nat.mod_lt _ (by omega)
    rw [random_loop] at h
    split at h
    · next hfull =>
      cases h
      rwa [Nat.le_antisymm hfull hlen]
    · next hfull =>
      split at h
      · exact ih (hnext _) hlen hright h
      · next hnew =>
        refine ih (hnext _) (by rw [length_append, length_singleton]; omega) ⟨rfl, ?_, ?_, ?_⟩ h
        · exact hright.first.trans (prefix_append _ _)
        · refine nodup_append.2 ⟨hright.distinct, nodup_singleton _, ?_⟩
          intro a ha b hb hab
          rw [hab, mem_singleton.1 hb] at ha
          exact hnew ha
        · rw [drop_append_of_le_length hright.first.length_le]
          intro i hi
          rcases mem_append.1 hi with hi | hi
          · exact hright.below i hi
          · rwa [mem_singleton.1 hi]

theorem create_random_indexes_right {seed : Bytes} (hlimit : node_limit < total_servers) (hdistinct : seed_indexes.Nodup)
    (h : create_random_indexes keccak fuel total_servers node_limit (some seed) seed_indexes = some out) :
    IndexesRight total_servers node_limit seed_indexes out := by
  rw [create_random_indexes] at h
  split at h
  · cases h
  · next hfits =>
    refine random_loop_right (Nat.mod_lt _ (by omega)) (by omega) ⟨rfl, prefix_rfl, hdistinct, ?_⟩ h
    simp

end

def first_missing : List Tok → List Tok → Option Nat
  | [], _ => none
  | t :: ts, nodes =>
    match find_address (d_bytesl t 20) nodes with
    | none => some 0
    | some (_, nodes) => (first_missing ts nodes).map (· + 1)

/-- No index of a required address is written outside of its array, nor copied behind the end of the other one. -/
def WritesInside (node_limit : Nat) (required nodes : List Tok) : Prop :=
  (required_indexes required.length 0 required nodes).run ≠ none ∧
    ∀ r, (required_indexes required.length 0 required nodes).ok r → r.1.length ≤ node_limit

/-- The last index would end behind the array, so the loop only ends early, at a missing address. -/
theorem required_indexes_spec (size i : Nat) (required nodes : List Tok) (hi : 4 * i ≤ size)
    (h : size < 4 * (i + required.length)) :
    (∀ r, ¬ (required_indexes size i required nodes).ok r) ∧
      ((required_indexes size i required nodes).run ≠ none ↔
        ∃ k, first_missing required nodes = some k ∧ 4 * (i + k) ≤ size) := by
  induction required generalizing i nodes with
  | nil => simp at h; omega
  | cons t ts ih =>
    rw [required_indexes, first_missing]
    cases hfind : find_address (d_bytesl t 20) nodes with
    | none => exact ⟨fun _ => Run.ok_throw, iff_of_true nofun ⟨0, rfl, hi⟩⟩
    | some found =>
      obtain ⟨index, nodes⟩ := found
      dsimp only
      by_cases hsize : size < 4 * (i + 1)
      · rw [if_pos hsize]
        refine ⟨fun _ => Run.ok_undefined, iff_of_false (not_not.2 rfl) ?_⟩
        rintro ⟨k, hk, hle⟩
        obtain ⟨k, -, rfl⟩ := Option.map_eq_some_iff.1 hk
        omega
      · rw [if_neg hsize]
        obtain ⟨hnot, hiff⟩ := ih (i + 1) nodes (by omega) (by rw [length_cons] at h; omega)
        constructor
        · intro r hr
          obtain ⟨rest, hrest, -⟩ := Run.ok_bind.1 hr
          exact hnot rest hrest
        · have hrun : ∀ f : List Nat × List Tok → Run Err (List Nat × List Tok),
              (required_indexes size (i + 1) ts nodes >>= f).run ≠ none ↔ (required_indexes size (i + 1) ts nodes).run ≠ none := by
            intro f
            rw [ExceptT.run_bind]
            rcases hx : (required_indexes size (i + 1) ts nodes).run with _ | _ | r
            · simp
            · simp
            · exact absurd hx (hnot r)
          rw [hrun, hiff]
          constructor
          · rintro ⟨k, hk, hle⟩
            exact ⟨k + 1, Option.map_eq_some_iff.2 ⟨k, hk, rfl⟩, by omega⟩
          · rintro ⟨_, hk, hle⟩
            obtain ⟨k, hmissing, rfl⟩ := Option.map_eq_some_iff.1 hk
            exact ⟨k, hmissing, by omega⟩

/-- For every list: the indexes of a run that ends are right, and they are written inside of their arrays if and only if no
address is required, or one is missing before the indexes reach the end of their array. -/
theorem random_indexes_iff (keccak : Hash) (total_servers node_limit : Nat) (required nodes : List Tok)
    (hlimit : node_limit < total_servers) :
    (∀ (seed : Bytes) (seed_indexes : List Nat) (fuel : Nat) (out : List Nat), seed_indexes.Nodup →
        create_random_indexes keccak fuel total_servers node_limit (some seed) seed_indexes = some out →
        IndexesRight total_servers node_limit seed_indexes out) ∧
      (WritesInside node_limit required nodes ↔
        required = [] ∨ ∃ k, first_missing required nodes = some k ∧ 4 * k ≤ required.length) := by
  refine ⟨fun seed seed_indexes fuel out hdistinct h => create_random_indexes_right hlimit hdistinct h, ?_⟩
  cases required with
  | nil =>
    refine iff_of_true ⟨nofun, fun r hr => ?_⟩ (.inl rfl)
    cases Run.ok_pure.1 hr
    exact Nat.zero_le _
  | cons t ts =>
    obtain ⟨hnot, hiff⟩ := required_indexes_spec (t :: ts).length 0 (t :: ts) nodes (Nat.zero_le _)
      (by rw [length_cons]; omega)
    simp only [Nat.zero_add] at hiff
    rw [WritesInside, hiff]
    exact ⟨fun h => .inr h.1, fun h => ⟨h.resolve_left (cons_ne_nil t ts), fun r hr => absurd hr (hnot r)⟩⟩

/-- A seed of 32 bytes whose first six bytes are the step 3 and whose next six are the start 5. -/
def seedOfFive : Bytes := beFix 6 3 ++ beFix 6 5 ++ beFix 20 18

def seedKeccak : Hash := .ofTable [(seedOfFive, word 0xcf4c97a051cbaf0dae3c7142f10c636178cd5422fb23fddadf8afb254be82d60)]

def addressNode (address : UInt8) (index : Nat) : Tok :=
  .object [] [(K_ADDRESS, .bytes (some (replicate 20 address))), (K_INDEX, .integer index)]

/-- Four of ten servers: the start 5 is taken already, so the seed is hashed once. Of the two required addresses the first one
is missing, so that no index is written. -/
theorem random_indexes_of_ten :
    create_random_indexes seedKeccak 5 10 4 (some seedOfFive) [5] = some [5, 8, 1, 4] ∧
      IndexesRight 10 4 [5] [5, 8, 1, 4] ∧
      WritesInside 4 [.bytes (some (replicate 20 3)), .bytes (some (replicate 20 1))] [addressNode 1 5, addressNode 2 8] := by
  have hrun : create_random_indexes seedKeccak 5 10 4 (some seedOfFive) [5] = some [5, 8, 1, 4] := by decide +kernel
  have hiff := random_indexes_iff seedKeccak 10 4 [.bytes (some (replicate 20 3)), .bytes (some (replicate 20 1))]
    [addressNode 1 5, addressNode 2 8] (by decide)
  exact ⟨hrun, hiff.1 seedOfFive [5] 5 _ (by decide) hrun, hiff.2.2 (.inr ⟨0, by decide, by decide⟩)⟩

/-- One node of which the address is required: its index has four bytes, and the array has one. -/
theorem seed_index_outside :
    ¬ WritesInside 1 [.bytes (some (replicate 20 1))] [addressNode 1 0] :=
  fun h => h.1 rfl

/-! ## Slots -/

@[simp] theorem length_add_loop (a b : Bytes) (carry : Nat) : (add_loop a b carry).length = a.length := by
  fun_induction add_loop a b carry <;> simp_all

theorem leNat_digit (n : Nat) (b : Bytes) : leNat (UInt8.ofNat (n &&& 0xFF) :: b) = n % 256 + 256 * leNat b := by
  have hand : n &&& 0xFF = n % 256 := Nat.and_two_pow_sub_one_eq_mod n 8
  rw [leNat_cons, hand, UInt8.toNat_ofNat', Nat.mod_mod]

theorem add_step (n m w : Nat) : n % 256 + 256 * ((m + n / 256) % w) = (n + 256 * m) % (256 * w) := by
  have hmod : (n + 256 * m) % 256 = n % 256 := Nat.add_mul_mod_self_left n 256 m
  have hdiv : (n + 256 * m) / 256 = m + n / 256 := by omega
  rw [Nat.mod_mul, hmod, hdiv]

theorem leNat_add_loop (a b : Bytes) (carry : Nat) (h : b.length ≤ a.length) :
    leNat (add_loop a b carry) = (leNat a + leNat b + carry) % 256 ^ a.length := by
  fun_induction add_loop a b carry with
  | case1 b carry =>
    simp [Nat.mod_one]
  | case2 x a y b carry carry' ih =>
    rw [leNat_digit, ih (by simpa using h), leNat_cons, leNat_cons, length_cons, pow_succ', Nat.shiftRight_eq_div_pow,
      add_step]
    exact congrArg (· % (256 * 256 ^ a.length)) (by simp only [carry']; ring)
  | case3 x a =>
    rw [leNat_nil, Nat.add_zero, Nat.mod_eq_of_lt (leNat_lt _)]
  | case4 x a carry hcarry carry' ih =>
    rw [leNat_digit, ih (Nat.zero_le _), leNat_cons, length_cons, pow_succ', Nat.shiftRight_eq_div_pow, add_step]
    exact congrArg (· % (256 * 256 ^ a.length)) (by simp only [leNat_nil]; ring)

theorem b256_add_eq {a b : Bytes} (ha : a.length = 32) (hb : b.length ≤ 32) :
    b256_add a b = beFix 32 (beNat a + beNat b) := by
  have hle : (optimize_len b).length ≤ 32 := (length_stripZeros_le b).trans hb
  apply beNat_inj
  · simp [b256_add, ha]
  · rw [b256_add, beNat_reverse, leNat_add_loop _ _ _ (by simpa [ha] using hle), ← beNat_reverse, ← beNat_reverse,
      reverse_reverse, reverse_reverse, length_reverse, ha, beNat_beFix, Nat.add_zero, optimize_len, beNat_stripZeros]

/-- The offset is computed with 32 bits. -/
theorem get_storage_array_key_eq (keccak : Hash) (pos array_index : Nat) {struct_size : Nat} (struct_pos : Nat)
    (h : struct_size ≠ 0) :
    get_storage_array_key keccak pos array_index struct_size struct_pos =
      beFix 32 (beNat (keccak.fn (replicate 28 0 ++ int_to_bytes pos)) +
        (array_index * struct_size + struct_pos) % 2 ^ 32) := by
  have hoffset : beNat (int_to_bytes (array_index * struct_size + struct_pos)) = (array_index * struct_size + struct_pos) % 2 ^ 32 :=
    beNat_beFix 4 _
  rw [get_storage_array_key, if_neg h, b256_add_eq (keccak.len _) (by simp [int_to_bytes]), hoffset]

theorem eq_of_beFix {n m : Nat} (hn : n < 2 ^ 256) (hm : m < 2 ^ 256) (h : beFix 32 n = beFix 32 m) : n = m := by
  have hnat := congrArg beNat h
  rwa [beNat_beFix, beNat_beFix, Nat.mod_eq_of_lt (by norm_num at hn ⊢; exact hn),
    Nat.mod_eq_of_lt (by norm_num at hm ⊢; exact hm)] at hnat

def constant_hash (n : Nat) : Hash := ⟨fun _ => beFix 32 n, fun _ => length_beFix 32 n⟩

/-- For every slot and all 32-bit numbers: `b256_add` is the addition modulo `2 ^ 256`, and the key is the hash of the slot
plus the offset of the field, for every hash function, if and only if there is an offset and it has 32 bits. -/
theorem storage_key_iff (pos array_index struct_size struct_pos : UInt32) :
    (∀ a b : Bytes, a.length = 32 → 1 ≤ b.length → b.length ≤ 32 → b256_add a b = beFix 32 (beNat a + beNat b)) ∧
      ((∀ keccak : Hash, get_storage_array_key keccak pos.toNat array_index.toNat struct_size.toNat struct_pos.toNat =
          beFix 32 (beNat (keccak.fn (replicate 28 0 ++ int_to_bytes pos.toNat)) +
            (array_index.toNat * struct_size.toNat + struct_pos.toNat))) ↔
        struct_size ≠ 0 ∧ array_index.toNat * struct_size.toNat + struct_pos.toNat < 2 ^ 32) := by
  refine ⟨fun a b ha _ hb => b256_add_eq ha hb, ?_⟩
  have hproduct := Nat.mul_le_mul array_index.toNat_lt.le struct_size.toNat_lt.le
  have hpos := struct_pos.toNat_lt
  rw [← UInt32.toNat_inj.ne, UInt32.toNat_zero]
  generalize struct_size.toNat = size at *
  by_cases hsize : size = 0
  · refine iff_of_false (fun hall => ?_) (fun h => h.1 hsize)
    -- without a size the key does not depend on the hash
    have hzero : beNat (beFix 32 0) = 0 := by decide
    have hone : beNat (beFix 32 1) = 1 := by decide
    have h0 := hall (constant_hash 0)
    have h1 := hall (constant_hash 1)
    simp only [get_storage_array_key, if_pos hsize, constant_hash, hzero, hone] at h0 h1
    have heq := eq_of_beFix (by omega) (by omega) (h0.symm.trans h1)
    omega
  · simp only [get_storage_array_key_eq _ _ _ _ hsize]
    constructor
    · intro hall
      have hzero : beNat (beFix 32 0) = 0 := by decide
      have h0 := hall (constant_hash 0)
      simp only [constant_hash, hzero] at h0
      have heq := eq_of_beFix (by omega) (by omega) h0
      exact ⟨hsize, by omega⟩
    · rintro ⟨-, hbits⟩ keccak
      rw [Nat.mod_eq_of_lt hbits]

/-- The slot of node `2 ^ 30` is computed with an offset that has lost its highest bit. -/
theorem offset_wraps :
    get_storage_array_key (constant_hash 0) 0 (2 ^ 30) 5 4 = beFix 32 (2 ^ 30 + 4) ∧
      get_storage_array_key (constant_hash 0) 0 (2 ^ 30) 5 4 ≠ beFix 32 (2 ^ 30 * 5 + 4) := by
  decide

end In3
