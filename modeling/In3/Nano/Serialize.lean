import In3.Core.Data
import In3.Nano.Rlp
/-!
# Serializing tokens (`nano/serialize.c`)

`rlp_add` writes a token as an RLP string: a number without its leading zeros, an
address or bytes as they are, a hash padded to 32 bytes. A token without bytes
(an array or an object) is skipped, so the list has an item less.
-/
open Lib Lib.Rlp

namespace In3

def K_NONCE := key "nonce"
def K_BALANCE := key "balance"
def K_STORAGE_HASH := key "storageHash"
def K_CODE_HASH := key "codeHash"

/-- The `ml` argument of `rlp_add`. -/
def UINT : Int := 0
def HASH : Int := 32

/-- A number without leading zeros; zero has no bytes. -/
def uint_bytes (b : Bytes) : Bytes := if optimize_len b = [0] then [] else optimize_len b

/-- The string that `rlp_add_bytes` encodes. -/
def field_bytes (b : Bytes) (ml : Int) : Bytes :=
  let b := if ml = UINT then uint_bytes b else b
  let ml := if 0 ≤ ml then ml else if b = [] then 0 else -ml
  if (b.length : Int) < ml then padLeft ml.toNat b else b

/-- The string that `rlp_add` encodes, if it does not skip the token. -/
def rlp_field (t : Tok) (ml : Int) : Option Bytes :=
  if d_type t = .T_NULL then some (field_bytes [] ml)
  else
    match d_bytes t with
    | some b => some (field_bytes b ml)
    | none => if d_type t = .T_BYTES then some (field_bytes [] ml) else none

def rlp_add (t : Tok) (ml : Int) : Bytes :=
  match rlp_field t ml with
  | some b => rlp_encode_item b
  | none => []

/-- `serialize_account`. `d_getl` pads the hashes before they are read. -/
def serialize_account (a : Tok) : Bytes :=
  rlp_encode_to_list (rlp_add (a.prop K_NONCE) UINT ++ rlp_add (a.prop K_BALANCE) UINT ++
    rlp_add (d_bytesl_st (a.prop K_STORAGE_HASH) 32) HASH ++ rlp_add (d_bytesl_st (a.prop K_CODE_HASH) 32) HASH)

/-! ## The coder writes RLP -/

theorem bb_write_long_be_eq (val len : Nat) : bb_write_long_be val len = beFix len val := by
  induction len generalizing val with
  | zero => rfl
  | succ len ih =>
    unfold bb_write_long_be at ih ⊢
    rw [List.range_succ, List.map_append, beFix, ← ih]
    congr 1
    · apply List.map_congr_left
      intro j hj
      have hj := List.mem_range.1 hj
      rw [show 8 * (len + 1 - 1 - j) = 8 + 8 * (len - 1 - j) by omega, Nat.shiftRight_add,
        Nat.shiftRight_eq_div_pow val 8]
    · simp

theorem long_length_eq {w len : Nat} (offset : Nat) (hlo : 256 ^ w ≤ len) (hhi : len < 256 ^ (w + 1)) :
    UInt8.ofNat (offset + 55 + (w + 1)) :: bb_write_long_be len (w + 1) =
      UInt8.ofNat (offset + 55 + (beBytes len).length) :: beBytes len := by
  rw [bb_write_long_be_eq, beBytes_eq_beFix hlo hhi, length_beFix]

theorem rlp_add_length_eq {x : Item} (hb : ¬ x.bare) (h : x.payload.length < 2 ^ 32) :
    rlp_add_length x.payload.length x.base = x.header := by
  unfold rlp_add_length Item.header
  rw [if_neg hb]
  by_cases h56 : x.payload.length < 56
  · rw [if_pos h56, if_pos h56]
  rw [if_neg h56]
  -- one case for each number of length bytes
  split
  · have hone : bb_write_long_be x.payload.length 1 = [UInt8.ofNat x.payload.length] := by
      simp [bb_write_long_be, Nat.mod_eq_of_lt, *]
    rw [← long_length_eq (w := 0) x.base (by omega) (by omega), hone]
  split
  · exact long_length_eq (w := 1) x.base (by omega) (by omega)
  split
  · exact long_length_eq (w := 2) x.base (by omega) (by omega)
  · exact long_length_eq (w := 3) x.base (by omega) (by omega)

theorem rlp_encode_item_eq {b : Bytes} (h : b.length < 2 ^ 32) : rlp_encode_item b = (str b).enc := by
  unfold rlp_encode_item Item.enc
  by_cases hb : (str b).bare
  · obtain ⟨-, c, rfl, hc⟩ := hb
    have hbare : (str [c]).bare := ⟨rfl, c, rfl, hc⟩
    simp [hc, Item.header, hbare]
  have hlen := rlp_add_length_eq hb h
  rw [← hlen]
  rcases b with _ | ⟨c, _ | ⟨d, b⟩⟩
  · rfl
  · have hc : ¬ c.toNat < 0x80 := fun hc => hb ⟨rfl, c, rfl, hc⟩
    simp [hc, rlp_add_length, Item.base]
  · dsimp only
    split
    · rename_i h56
      simp only [rlp_add_length, h56, if_true, Item.base, Bool.false_eq_true, if_false, Nat.add_comm]
    · rfl

theorem rlp_encode_to_list_eq {b : Bytes} (h : b.length < 2 ^ 32) : rlp_encode_to_list b = (list b).enc := by
  unfold rlp_encode_to_list Item.enc
  rw [← rlp_add_length_eq (list_not_bare b) h]
  rfl

end In3
