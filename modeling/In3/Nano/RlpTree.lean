import In3.Nano.RlpDecode
import In3.Nano.Serialize
/-!
# Trees of items and lists

A tree of byte strings is written with `rlp_encode_item` and `rlp_encode_list`, the
children of a list into a builder of their own. `rlp_decode` finds every node of it
again: one call for each position on the way from the root.
-/
open Lib Lib.Rlp

namespace In3

inductive Tree where
  | item (b : Bytes)
  | list (ts : List Tree)

mutual

def Tree.encode : Tree → Bytes
  | .item b => rlp_encode_item b
  | .list ts => rlp_encode_list (encodeAll ts)

/-- The builder with the children of a list. -/
def encodeAll : List Tree → Bytes
  | [] => []
  | t :: ts => t.encode ++ encodeAll ts

end

namespace Tree

/-- The code that `rlp_decode` returns for a node. -/
def kind : Tree → Int
  | .item _ => 1
  | .list _ => 2

/-- The payload of a node: its bytes, or its encoded children. -/
def content : Tree → Bytes
  | .item b => b
  | .list ts => encodeAll ts

/-- The node at a position, which is a path of indices from the root. -/
def get : Tree → List Nat → Option Tree
  | t, [] => some t
  | .item _, _ :: _ => none
  | .list ts, j :: path => ts[j]?.bind fun t => get t path

/-- The node as an item of its parent. -/
def toItem (t : Tree) : Item := ⟨t.kind = 2, t.content⟩

end Tree

/-- Walking down: each call decodes inside the item that the one before returned. -/
def walk : Bytes → Nat → List Nat → Option (Int × Option Bytes)
  | b, j, [] => rlp_decode_to b j none
  | b, j, k :: path => do
    let (_, d) ← rlp_decode_to b j none
    walk (← d) k path

/-! ## The encoding -/

theorem rlp_encode_list_eq {b : Bytes} (h : b.length < 2 ^ 32) : rlp_encode_list b = (Rlp.list b).enc :=
  rlp_encode_to_list_eq h

theorem Tree.content_le_encode (t : Tree) : t.content.length ≤ t.encode.length := by
  cases t with
  | item b => simp [content, encode, rlp_encode_item]
  | list ts => simp [content, encode, rlp_encode_list]

theorem Tree.encode_eq {t : Tree} (h : t.content.length < 2 ^ 32) : t.encode = t.toItem.enc := by
  cases t with
  | item b =>
    exact rlp_encode_item_eq h
  | list ts =>
    exact rlp_encode_list_eq h

theorem encodeAll_eq {ts : List Tree} (h : (encodeAll ts).length < 2 ^ 32) : encodeAll ts = encAll (ts.map Tree.toItem) := by
  induction ts with
  | nil => rfl
  | cons t ts ih =>
    have hle := t.content_le_encode
    rw [encodeAll, List.length_append] at h
    rw [encodeAll, List.map_cons, encAll_cons, ih (by omega), Tree.encode_eq (by omega)]

theorem kindOf_toItem (t : Tree) : kindOf t.toItem = t.kind := by
  cases t <;> rfl

/-! ## Walking -/

section Children
variable {ts : List Tree} (h : (encodeAll ts).length < 2 ^ 31)
include h

theorem decode_child {j : Nat} {t : Tree} (hj : ts[j]? = some t) :
    rlp_decode_to (encodeAll ts) j none = some (t.kind, some t.content) ∧ t.content.length < 2 ^ 31 := by
  obtain ⟨hlt, rfl⟩ := List.getElem?_eq_some_iff.1 hj
  have heq := encodeAll_eq (lt_trans h (by norm_num))
  rw [heq] at h ⊢
  have hat := rlp_decode_to_at _ h j (by simpa using hlt) none
  have hpay := payload_lt h ts[j].toItem (List.mem_map_of_mem (List.getElem_mem hlt))
  rw [List.getElem_map, kindOf_toItem] at hat
  exact ⟨hat, hpay⟩

theorem decode_children :
    rlp_decode_len (encodeAll ts) = some (ts.length : Int) ∧
      ∀ j : Nat, ts.length ≤ j → rlp_decode (encodeAll ts) j = some (0, none) := by
  have heq := encodeAll_eq (lt_trans h (by norm_num))
  rw [heq] at h ⊢
  refine ⟨?_, fun j hj => rlp_decode_past _ h j (by simpa using hj)⟩
  rw [rlp_decode_len_eq _ h, List.length_map]

theorem walk_children {j : Nat} {path : List Nat} {s : Tree} (hs : (Tree.list ts).get (j :: path) = some s) :
    walk (encodeAll ts) j path = some (s.kind, some s.content) ∧ s.content.length < 2 ^ 31 := by
  -- induction on the path: the content of a child is again what the next call decodes
  induction path generalizing ts j with
  | nil =>
    rw [Tree.get, Option.bind_eq_some_iff] at hs
    obtain ⟨t, ht, hs⟩ := hs
    obtain rfl := Option.some.inj hs
    exact decode_child h ht
  | cons k path ih =>
    rw [Tree.get, Option.bind_eq_some_iff] at hs
    obtain ⟨t, ht, hs⟩ := hs
    obtain ⟨hdecode, hlen⟩ := decode_child h ht
    cases t with
    | item b => cases hs
    | list us =>
      have hrest := ih hlen hs
      rw [walk, hdecode]
      exact hrest

end Children

/-- For every tree with payloads of less than `2 ^ 31` bytes and every position in it: the
calls of `rlp_decode` on the way return the kind and the bytes of the node. A list has as
many items as it has children, and behind them there is nothing. -/
theorem rlp_round_trip (t : Tree) (h : t.content.length < 2 ^ 31) (path : List Nat) (s : Tree)
    (hs : t.get path = some s) :
    walk t.encode 0 path = some (s.kind, some s.content) ∧
      ∀ ts, s = .list ts → rlp_decode_len s.content = some (ts.length : Int) ∧
        ∀ j : Nat, ts.length ≤ j → rlp_decode s.content j = some (0, none) := by
  have hroot : rlp_decode_to t.encode 0 none = some (t.kind, some t.content) := by
    rw [Tree.encode_eq (lt_trans h (by norm_num)), ← kindOf_toItem]
    exact rlp_decode_to_one t.toItem h none
  have hwalk : walk t.encode 0 path = some (s.kind, some s.content) ∧ s.content.length < 2 ^ 31 := by
    cases path with
    | nil =>
      obtain rfl := Option.some.inj hs
      exact ⟨hroot, h⟩
    | cons j path =>
      cases t with
      | item b => cases hs
      | list ts =>
        have hrest := walk_children h hs
        rw [walk, Nat.cast_zero, hroot]
        exact hrest
  refine ⟨hwalk.1, ?_⟩
  rintro ts rfl
  exact decode_children hwalk.2

/-- A list of a byte, a long string and a nested list. -/
def sampleTree : Tree := .list [.item [5], .item (List.replicate 60 7), .list [.item [], .item [0x80]]]

theorem rlp_round_trip_sample :
    sampleTree.content.length < 2 ^ 31 ∧ sampleTree.get [2, 1] = some (.item [0x80]) ∧
      walk sampleTree.encode 0 [2, 1] = some (1, some [0x80]) := by
  have hlen : sampleTree.content.length < 2 ^ 31 := by decide
  have hget : sampleTree.get [2, 1] = some (.item [0x80]) := rfl
  exact ⟨hlen, hget, (rlp_round_trip sampleTree hlen [2, 1] _ hget).1⟩

end In3
