import In3.Nano.Merkle
import In3.Nano.RlpDecode
/-!
# What `check_node` does on the nodes of a trie

`visit` follows a key through one node of a trie and the nodes embedded in it,
without bytes. `check_node` on the encoding of a node is `visit` on the node
(`check_node_enc`), so all that follows about proof lists is about tries.
-/
open Lib Lib.Rlp Lib.Patricia List

namespace In3

/-! ## Nibble strings -/

def nb (n : Nibble) : UInt8 := UInt8.ofNat n.val

/-- The nibble string of a key, with its terminator. -/
def spell (k : List Nibble) : Bytes := k.map nb ++ [0xFF]

def keyNibbles (path : Bytes) : List Nibble :=
  path.flatMap fun x => [⟨x.toNat / 16, by have := x.toNat_lt; omega⟩, ⟨x.toNat % 16, by omega⟩]

theorem nb_ne_ff : ∀ n : Nibble, nb n ≠ 0xFF := by decide

theorem nibbles_pair : ∀ a b : Nibble, nibbles (UInt8.ofNat (16 * a.val + b.val)) = [nb a, nb b] := by decide

theorem flatMap_pack : ∀ k : List Nibble, k.length % 2 = 0 → (pack k).flatMap nibbles = k.map nb
  | [], _ => rfl
  | [_], h => by simp at h
  | a :: b :: k, h => by
    have := flatMap_pack k (by simp at h; omega)
    simp only [pack, flatMap_cons, nibbles_pair, this, map_cons, cons_append, nil_append]

theorem marker_facts : ∀ (f : Bool) (a : Nibble),
    (UInt8.ofNat (16 * (kindNibble f + 1) + a.val) >>> 4 &&& 1 = 1) ∧
    (UInt8.ofNat (16 * (kindNibble f + 1) + a.val) &&& 0x0F = nb a) ∧
    (UInt8.ofNat (16 * kindNibble f) >>> 4 &&& 1 ≠ 1) ∧
    (decide (UInt8.ofNat (16 * (kindNibble f + 1) + a.val) &&& 32 ≠ 0) = f) ∧
    (decide (UInt8.ofNat (16 * kindNibble f) &&& 32 ≠ 0) = f) := by decide

theorem path_to_nibbles_hexPrefix (f : Bool) (p : List Nibble) :
    trie_path_to_nibbles (hexPrefix f p) true = spell p := by
  unfold hexPrefix
  split
  · next h =>
    cases p with
    | nil => simp at h
    | cons a p =>
      obtain ⟨h1, h2, -⟩ := marker_facts f a
      have hp : p.length % 2 = 0 := by simp at h; omega
      simp only [trie_path_to_nibbles, headD_cons, tail_cons, h1, h2, flatMap_pack p hp, spell, if_true,
        map_cons, singleton_append]
  · next h =>
    obtain ⟨-, -, h3, -⟩ := marker_facts f 0
    simp only [trie_path_to_nibbles, if_true, if_neg h3, flatMap_pack p (by omega), spell, nil_append]

theorem nibble_len_spell (p : List Nibble) : nibble_len (spell p) = p.length := by
  induction p with
  | nil => rfl
  | cons a p ih =>
    simp only [spell, map_cons, cons_append, nibble_len, if_neg (nb_ne_ff a), length_cons] at ih ⊢
    rw [ih]

/-- The depth check at the start of `check_node`. -/
def Walk.enter (w : Walk) (f : Walk → Option (Option Walk)) : Option (Option Walk) :=
  if MERKLE_DEPTH_MAX ≤ w.depth then some none else f { w with depth := w.depth + 1 }

/-- Past the path of a leaf or an extension, with its second item `v` copied. -/
def Walk.past (w : Walk) (n : Nat) (v : Bytes) : Walk :=
  { w with key := w.key + n, last_value := some v, next_hash := copy_hash w.next_hash v }

/-- One nibble further, into a slot whose node has the hash `h`. -/
def Walk.down (w : Walk) (h : Bytes) : Walk := { w with key := w.key + 1, next_hash := h }

def zeroHash : Bytes := replicate 32 0

/-- `check_node` on a trie node that nothing stands behind, for the rest `k` of the key. It is undefined below
an extension with an embedded child, in slot 0 of a branch with an embedded child
there, and when the key ends with the nibble that leads to an embedded child. -/
def visit (H : Hash) (isNull : Bool) : Trie → List Nibble → Bool → Walk → Option (Option Walk)
  | .empty, _, last, w => w.enter fun w => some (if isNull && last then some w else none)
  | .leaf p v, k, last, w => w.enter fun w =>
    if p <+: k then
      if k.length = p.length then some (if last && !isNull then some (w.past p.length v) else none)
      else some (if isNull then some (w.past p.length v) else none)
    else some (if isNull && last then some w else none)
  | .ext p c, k, last, w => w.enter fun w =>
    if p <+: k then
      if c.embedded H then none
      else if k.length = p.length ∧ last = false then some none
      else some (some (w.past p.length (H.fn (c.enc H))))
    else some (if isNull && last then some w else none)
  | .branch _ v, [], last, w => w.enter fun w => some (if last then some { w with last_value := some v } else none)
  | .branch ch _, n :: k, _, w => w.enter fun w =>
    if (ch n).isEmpty then some (some (w.down zeroHash))
    else if (ch n).embedded H then
      if k = [] then none
      else if n = 0 then Walk.enter { w with key := w.key + 1 } fun _ => none
      else visit H isNull (ch n) k (k.length = 1) { w with key := w.key + 1 }
    else some (some (w.down (H.fn ((ch n).enc H))))

/-- No branch that is embedded in another node leads on in its slot 0: there the next item of its parent would be
checked in place of the child. -/
def straight (H : Hash) : Bool → Trie → List Nibble → Bool
  | embedded, .branch ch _, n :: k =>
    (!embedded || n ≠ 0 || (ch n).isEmpty) && straight H (decide ((ch n).embedded H)) (ch n) k
  | _, .ext p c, k => !decide (p <+: k) || straight H false c (k.drop p.length)
  | _, _, _ => true

section Enc
variable (H : Hash) (isNull : Bool) (K : List Nibble)

section Branch
variable (check : Bytes → Bytes → Bool → Walk → Option (Option Walk)) (xs : List Item) (hx : xs.length = 17)
  (hl : (encAll xs).length < 2 ^ 31) (behind : Bytes) (last : Bool) (w : Walk)
include hx hl

variable {n : Nibble} {k : List Nibble} (hk : K.drop w.key = n :: k)
include hk

end Branch

end Enc

end In3
