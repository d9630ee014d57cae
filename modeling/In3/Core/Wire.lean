import In3.Core.Binary
/-!
# What stands on the wire

The items of a binary document form a tree whatever the parser makes of them. `wire_item` reads
that tree without an array of tokens, and `build` is what the parser does to its array for an
item. A run of `read_token` succeeds exactly if the item can be read and can be built
(`read_token_ok_iff`).
-/
open Lib Guarded

namespace In3

/-- An item of a binary document. A leaf has its type, its length and the place of its data; a
node has its type, and its items with their keys. -/
inductive Wire where
  | count (len : Nat)
  | reference (idx : Nat)
  | leaf (type len : Nat) (data : Option Nat)
  | node (type : Nat) (keys : List Nat) (items : List Wire)

/-! ## Reading the items -/

section Items
variable (d : Bytes)

def wire_elements (item : Nat → BinRun (Wire × Nat)) : Nat → Nat → BinRun (List Wire × Nat)
  | 0, p => pure ([], p)
  | n + 1, p => do
    let (w, p) ← item p
    let (ws, p) ← wire_elements item n p
    pure (w :: ws, p)

def wire_properties (item : Nat → BinRun (Wire × Nat)) : Nat → Nat → BinRun (List Nat × List Wire × Nat)
  | 0, p => pure ([], [], p)
  | n + 1, p => do
    if d.length ≤ p + 2 then throw (-3)
    let key ← read_bytes d p 2
    let (w, p) ← item (p + 2)
    let (keys, ws, p) ← wire_properties item n p
    pure (beNat key :: keys, w :: ws, p)

def wire_item : Nat → Nat → BinRun (Wire × Nat)
  | 0, _ => Guarded.fault .rounds
  | fuel + 1, p => do
    let (type, len, p) ← read_head d p
    if type = 6 ∧ 0 < len then
      if JSON_MAX_ALLOWED_TOKENS < len then throw (-4)
      else pure (.count len, p)
    else if type = 4 ∧ 1 < len then pure (.reference (len - 2), p)
    else if type = 2 then do
      let (ws, p) ← wire_elements (wire_item fuel) len p
      pure (.node 2 (List.range len) ws, p)
    else if type = 3 then do
      let (keys, ws, p) ← wire_properties d (wire_item fuel) len p
      pure (.node 3 keys ws, p)
    else if type = 1 then
      if d.length < p + 1 + len then throw (-4)
      else
        let x ← read_byte d (p + len)
        if x ≠ 0 then throw (-4)
        else pure (.leaf 1 len (some p), p + 1 + len)
    else if type = 0 then
      if d.length < p + len then throw (-3)
      else pure (.leaf 0 len (some p), p + len)
    else pure (.leaf type len none, p)

def wire_items : Nat → Nat → BinRun (List Wire)
  | 0, _ => Guarded.fault .rounds
  | fuel + 1, p =>
    if p < d.length then do
      let (w, p) ← wire_item d (d.length + 1) p
      let ws ← wire_items fuel p
      pure (w :: ws)
    else pure []

def wire : BinRun (List Wire) := wire_items d (d.length + 1) 0

end Items

/-! ## Building the tokens -/

section Build
variable (m : Platform)

mutual

/-- What an item does to the array of tokens. -/
def build : Wire → bin_ctx_t → BinRun bin_ctx_t
  | .count len, jp => pure { jp with allocated := max jp.allocated len }
  | .reference idx, jp => read_reference m jp (idx + 2)
  | .leaf type len none, jp => pure (next_item jp type len)
  | .leaf type len (some p), jp => pure (set_data (next_item jp type len) jp.result.length p)
  | .node type keys items, jp => build_items items keys (next_item jp type items.length)

/-- Items with their keys; the outermost ones have none. -/
def build_items : List Wire → List Nat → bin_ctx_t → BinRun bin_ctx_t
  | [], _, jp => pure jp
  | w :: ws, [], jp => do
    let jp ← build w jp
    build_items ws [] jp
  | w :: ws, key :: keys, jp => do
    let ll := jp.result.length
    let jp ← build w jp
    build_items ws keys (set_key jp ll key)

end

end Build

variable {d : Bytes} {item : Nat → BinRun (Wire × Nat)} {m : Platform} {n p q : Nat} {ws : List Wire}

theorem length_wire_elements
    (h : (wire_elements item n p).ok (ws, q)) : ws.length = n := by
  induction n generalizing p q ws with
  | zero =>
    rw [wire_elements, ok_pure] at h
    obtain ⟨rfl, -⟩ := Prod.mk.inj h
    rfl
  | succ n ih =>
    simp only [wire_elements, ok_bind, Prod.exists] at h
    obtain ⟨w, p₁, -, ws', q', hws, rfl, -⟩ := h
    rw [List.length_cons, ih hws]

theorem length_wire_properties {keys : List Nat}
    (h : (wire_properties d item n p).ok (keys, ws, q)) : keys.length = n ∧ ws.length = n := by
  induction n generalizing p q keys ws with
  | zero =>
    obtain ⟨rfl, rfl, -⟩ := h
    exact ⟨rfl, rfl⟩
  | succ n ih =>
    simp only [wire_properties, ok_check, ok_bind, Prod.exists] at h
    obtain ⟨-, key, -, w, p₁, -, keys', ws', q', hws, rfl, rfl, -⟩ := h
    obtain ⟨hkeys, hlen⟩ := ih hws
    exact ⟨by rw [List.length_cons, hkeys], by rw [List.length_cons, hlen]⟩

/-! ## The parser builds what it reads -/

section Parser
variable {m : Platform} {d : Bytes} {value : bin_ctx_t → Nat → BinRun (bin_ctx_t × Nat)}
  {item : Nat → BinRun (Wire × Nat)}
  (hvalue : ∀ jp p jp' q, (value jp p).ok (jp', q) ↔ ∃ w, (item p).ok (w, q) ∧ (build m w jp).ok jp')
include hvalue

theorem read_array_ok_iff (n i : Nat) (jp : bin_ctx_t) (p : Nat) (jp' : bin_ctx_t) (q : Nat) :
    (read_array value n i jp p).ok (jp', q) ↔
      ∃ ws, (wire_elements item n p).ok (ws, q) ∧ (build_items m ws (List.range' i n) jp).ok jp' := by
  induction n generalizing i jp p with
  | zero =>
    simp only [read_array, wire_elements, ok_pure, Prod.mk.injEq]
    constructor
    · rintro ⟨rfl, rfl⟩
      exact ⟨[], ⟨rfl, rfl⟩, by simp [build_items]⟩
    · rintro ⟨ws, ⟨rfl, rfl⟩, hbuild⟩
      simp only [build_items, ok_pure] at hbuild
      exact ⟨hbuild, rfl⟩
  | succ n ih =>
    simp only [read_array, wire_elements, ok_bind, ok_pure, Prod.exists, List.range'_succ, hvalue, ih]
    constructor
    · rintro ⟨jp₁, p₁, ⟨w, hw, hbuild⟩, ws, hws, hbuilds⟩
      refine ⟨w :: ws, ⟨w, p₁, hw, ws, q, hws, rfl⟩, ?_⟩
      rw [build_items, ok_bind]
      exact ⟨jp₁, hbuild, hbuilds⟩
    · rintro ⟨_, ⟨w, p₁, hw, ws, q', hws, h⟩, hbuild⟩
      obtain ⟨rfl, rfl⟩ := Prod.mk.inj h
      rw [build_items, ok_bind] at hbuild
      obtain ⟨jp₁, hbuild, hbuilds⟩ := hbuild
      exact ⟨jp₁, p₁, ⟨w, hw, hbuild⟩, ws, hws, hbuilds⟩

theorem read_object_ok_iff (n : Nat) (jp : bin_ctx_t) (p : Nat) (jp' : bin_ctx_t) (q : Nat) :
    (read_object d value n jp p).ok (jp', q) ↔
      ∃ keys ws, (wire_properties d item n p).ok (keys, ws, q) ∧ (build_items m ws keys jp).ok jp' := by
  induction n generalizing jp p with
  | zero =>
    simp only [read_object, wire_properties, ok_pure, Prod.mk.injEq]
    constructor
    · rintro ⟨rfl, rfl⟩
      exact ⟨[], [], ⟨rfl, rfl, rfl⟩, by simp [build_items]⟩
    · rintro ⟨keys, ws, ⟨rfl, rfl, rfl⟩, hbuild⟩
      simp only [build_items, ok_pure] at hbuild
      exact ⟨hbuild, rfl⟩
  | succ n ih =>
    simp only [read_object, wire_properties, ok_check, ok_bind, Prod.exists, hvalue, ih]
    constructor
    · rintro ⟨hp, key, hkey, jp₁, p₁, ⟨w, hw, hbuild⟩, keys, ws, hws, hbuilds⟩
      refine ⟨beNat key :: keys, w :: ws, ⟨hp, key, hkey, w, p₁, hw, keys, ws, q, hws, rfl⟩, ?_⟩
      rw [build_items, ok_bind]
      exact ⟨jp₁, hbuild, hbuilds⟩
    · rintro ⟨_, _, ⟨hp, key, hkey, w, p₁, hw, keys, ws, q', hws, h⟩, hbuild⟩
      obtain ⟨rfl, rfl, rfl⟩ := h
      rw [build_items, ok_bind] at hbuild
      obtain ⟨jp₁, hbuild, hbuilds⟩ := hbuild
      exact ⟨hp, key, hkey, jp₁, p₁, ⟨w, hw, hbuild⟩, keys, ws, hws, hbuilds⟩

end Parser

theorem built {P : Prop} {w : Wire} {jp jp₁ jp' : bin_ctx_t} (hw : build m w jp = pure jp₁) :
    (P ∧ jp₁ = jp' ∧ p = q) ↔ ∃ w', (P ∧ w = w' ∧ p = q) ∧ (build m w' jp).ok jp' := by
  constructor
  · rintro ⟨hP, rfl, rfl⟩
    exact ⟨w, ⟨hP, rfl, rfl⟩, by rw [hw, ok_pure]⟩
  · rintro ⟨_, ⟨hP, rfl, rfl⟩, hbuild⟩
    rw [hw, ok_pure] at hbuild
    exact ⟨hP, hbuild, rfl⟩

theorem read_token_ok_iff (fuel : Nat) (jp : bin_ctx_t) (p : Nat) (jp' : bin_ctx_t) (q : Nat) :
    (read_token m d fuel jp p).ok (jp', q) ↔ ∃ w, (wire_item d fuel p).ok (w, q) ∧ (build m w jp).ok jp' := by
  induction fuel generalizing jp p jp' q with
  | zero => simp [read_token, wire_item]
  | succ fuel ih =>
    rw [read_token, wire_item]
    refine ok_bind_iff fun ⟨type, len, p₁⟩ => ?_
    dsimp only
    by_cases hcount : type = 6 ∧ 0 < len
    · simp only [if_pos hcount, ok_ite_throw, ok_pure, Prod.mk.injEq]
      exact built rfl
    rw [if_neg hcount, if_neg hcount]
    by_cases href : type = 4 ∧ 1 < len
    · have hlen : len - 2 + 2 = len := by omega
      simp only [if_pos href, ok_bind, ok_pure, Prod.mk.injEq]
      constructor
      · rintro ⟨_, hread, rfl, rfl⟩
        exact ⟨.reference (len - 2), ⟨rfl, rfl⟩, by rwa [build, hlen]⟩
      · rintro ⟨_, ⟨rfl, rfl⟩, hbuild⟩
        rw [build, hlen] at hbuild
        exact ⟨jp', hbuild, rfl, rfl⟩
    rw [if_neg href, if_neg href]
    by_cases h2 : type = 2
    · subst h2
      simp only [if_true, ok_bind, ok_pure, Prod.exists, Prod.mk.injEq, read_array_ok_iff ih]
      constructor
      · rintro ⟨ws, hws, hbuild⟩
        refine ⟨_, ⟨ws, q, hws, rfl, rfl⟩, ?_⟩
        rw [build, length_wire_elements hws, List.range_eq_range']
        exact hbuild
      · rintro ⟨_, ⟨ws, q', hws, rfl, rfl⟩, hbuild⟩
        rw [build, length_wire_elements hws, List.range_eq_range'] at hbuild
        exact ⟨ws, hws, hbuild⟩
    rw [if_neg h2, if_neg h2]
    by_cases h3 : type = 3
    · subst h3
      simp only [if_true, ok_bind, ok_pure, Prod.exists, Prod.mk.injEq, read_object_ok_iff ih]
      constructor
      · rintro ⟨keys, ws, hws, hbuild⟩
        refine ⟨_, ⟨keys, ws, q, hws, rfl, rfl⟩, ?_⟩
        rw [build, (length_wire_properties hws).2]
        exact hbuild
      · rintro ⟨_, ⟨keys, ws, q', hws, rfl, rfl⟩, hbuild⟩
        rw [build, (length_wire_properties hws).2] at hbuild
        exact ⟨keys, ws, hws, hbuild⟩
    rw [if_neg h3, if_neg h3]
    by_cases h1 : type = 1
    · subst h1
      simp only [if_true, ok_bind, ok_ite_throw, ok_pure, Prod.mk.injEq]
      constructor
      · rintro ⟨hlen, x, hx, h0, rfl, rfl⟩
        exact ⟨.leaf 1 len (some p₁), ⟨hlen, x, hx, h0, rfl, rfl⟩, by simp [build]⟩
      · rintro ⟨_, ⟨hlen, x, hx, h0, rfl, rfl⟩, hbuild⟩
        rw [build, ok_pure] at hbuild
        exact ⟨hlen, x, hx, h0, hbuild, rfl⟩
    rw [if_neg h1, if_neg h1]
    by_cases h0 : type = 0
    · subst h0
      simp only [if_true, ok_ite_throw, ok_pure, Prod.mk.injEq]
      exact built rfl
    rw [if_neg h0, if_neg h0]
    simpa only [ok_pure, Prod.mk.injEq, true_and] using built (P := True) rfl

theorem read_tokens_ok_iff (fuel : Nat) (jp : bin_ctx_t) (p : Nat) (jp' : bin_ctx_t) :
    (read_tokens m d fuel jp p).ok jp' ↔ ∃ ws, (wire_items d fuel p).ok ws ∧ (build_items m ws [] jp).ok jp' := by
  induction fuel generalizing jp p with
  | zero => simp [read_tokens, wire_items]
  | succ fuel ih =>
    rw [read_tokens, wire_items]
    by_cases hp : p < d.length
    · simp only [if_pos hp, ok_bind, ok_pure, Prod.exists, read_token_ok_iff, ih]
      constructor
      · rintro ⟨jp₁, p₁, ⟨w, hw, hbuild⟩, ws, hws, hbuilds⟩
        refine ⟨w :: ws, ⟨w, p₁, hw, ws, hws, rfl⟩, ?_⟩
        rw [build_items, ok_bind]
        exact ⟨jp₁, hbuild, hbuilds⟩
      · rintro ⟨_, ⟨w, p₁, hw, ws, hws, rfl⟩, hbuild⟩
        rw [build_items, ok_bind] at hbuild
        obtain ⟨jp₁, hbuild, hbuilds⟩ := hbuild
        exact ⟨jp₁, p₁, ⟨w, hw, hbuild⟩, ws, hws, hbuilds⟩
    · simp only [if_neg hp, ok_pure]
      constructor
      · rintro rfl
        exact ⟨[], rfl, by simp [build_items]⟩
      · rintro ⟨_, rfl, hbuild⟩
        rwa [build_items, ok_pure] at hbuild

theorem parse_binary_ok_iff {jp : bin_ctx_t} :
    (parse_binary m d).ok jp ↔ ∃ ws, (wire d).ok ws ∧ (build_items m ws [] ⟨[], 0, true⟩).ok jp :=
  read_tokens_ok_iff _ _ _ _

end In3
