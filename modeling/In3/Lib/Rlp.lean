import In3.Lib.Bytes
/-!
# RLP, one level at a time

An RLP item is a byte string or a list; the payload of a list is the
concatenation of its items' encodings. Here an item is seen one level deep:
its kind and its payload. A length below 56 goes into the first byte, a longer
one is spelled out in as many bytes as it needs. An encoding is read back in one
way only (`encAll_inj`).
-/

open List

namespace Lib.Rlp

structure Item where
  isList : Bool
  payload : Bytes
  deriving DecidableEq, Repr

abbrev str (b : Bytes) : Item := ⟨false, b⟩
abbrev list (b : Bytes) : Item := ⟨true, b⟩

/-- A byte below `0x80` is its own encoding. -/
def Item.bare (x : Item) : Prop := x.isList = false ∧ ∃ b : UInt8, x.payload = [b] ∧ b.toNat < 0x80

instance (x : Item) : Decidable x.bare :=
  match x with
  | ⟨true, _⟩ => isFalse (by simp [Item.bare])
  | ⟨false, []⟩ => isFalse (by simp [Item.bare])
  | ⟨false, [b]⟩ => if h : b.toNat < 0x80 then isTrue ⟨rfl, b, rfl, h⟩ else isFalse (by simpa [Item.bare] using h)
  | ⟨false, _ :: _ :: _⟩ => isFalse (by simp [Item.bare])

/-- The first byte for an empty payload of this kind. -/
def Item.base (x : Item) : Nat := if x.isList then 0xc0 else 0x80

def Item.header (x : Item) : Bytes :=
  if x.bare then []
  else if x.payload.length < 56 then [UInt8.ofNat (x.base + x.payload.length)]
  else UInt8.ofNat (x.base + 55 + (beBytes x.payload.length).length) :: beBytes x.payload.length

def Item.enc (x : Item) : Bytes := x.header ++ x.payload

def encAll (xs : List Item) : Bytes := xs.flatMap Item.enc

@[simp] theorem encAll_nil : encAll [] = [] := rfl

@[simp] theorem encAll_cons (x : Item) (xs : List Item) : encAll (x :: xs) = x.enc ++ encAll xs := by
  simp [encAll]

@[simp] theorem encAll_append (xs ys : List Item) : encAll (xs ++ ys) = encAll xs ++ encAll ys := by
  simp [encAll]

theorem list_not_bare (b : Bytes) : ¬ (list b).bare := by simp [Item.bare]

theorem enc_length (x : Item) : x.enc.length = x.header.length + x.payload.length := by
  simp [Item.enc]

theorem payload_le_enc (x : Item) : x.payload.length ≤ x.enc.length := by
  rw [enc_length]; omega

theorem length_header_le {x : Item} (h : x.payload.length < 256 ^ 8) : x.header.length ≤ 9 := by
  unfold Item.header
  split
  · simp
  split
  · simp
  · have hlen := length_beBytes_le h
    simp only [length_cons]
    omega

theorem enc_pos (x : Item) : 0 < x.enc.length := by
  rw [enc_length, Item.header]
  split
  · next h => obtain ⟨-, b, hb, -⟩ := h; simp [hb]
  · split <;> simp

def offset (xs : List Item) (j : Nat) : Nat := (encAll (xs.take j)).length

@[simp] theorem offset_zero (xs : List Item) : offset xs 0 = 0 := by simp [offset]

theorem encAll_split (xs : List Item) (j : Nat) (h : j < xs.length) :
    encAll xs = encAll (xs.take j) ++ xs[j].enc ++ encAll (xs.drop (j + 1)) := by
  conv_lhs => rw [← take_append_drop j xs, drop_eq_getElem_cons h, encAll_append, encAll_cons]
  rw [append_assoc]

theorem offset_le (xs : List Item) (j : Nat) (h : j < xs.length) :
    offset xs j + xs[j].enc.length ≤ (encAll xs).length := by
  rw [encAll_split xs j h]
  simp [offset]

theorem enc_le_encAll {x : Item} {xs : List Item} (h : x ∈ xs) : x.enc.length ≤ (encAll xs).length := by
  obtain ⟨as, bs, rfl⟩ := append_of_mem h
  simp only [encAll_append, encAll_cons, length_append]
  omega

theorem payload_lt {xs : List Item} {n : Nat} (h : (encAll xs).length < n) : ∀ x ∈ xs, x.payload.length < n := by
  intro x hx
  have h1 := enc_le_encAll hx
  have h2 := payload_le_enc x
  omega

theorem slice_payload (xs : List Item) (j : Nat) (h : j < xs.length) :
    ((encAll xs).drop (offset xs j + xs[j].header.length)).take xs[j].payload.length = xs[j].payload := by
  rw [encAll_split xs j h, offset]
  simp [Item.enc]

/-! ## Reading items back -/

/-- The first item of a string, and what is behind it. -/
def split : Bytes → Option (Item × Bytes)
  | [] => none
  | c :: cs =>
    if c.toNat < 0x80 then some (str [c], cs)
    else
      let isList := decide (0xc0 ≤ c.toNat)
      let k := c.toNat - (if isList then 0xc0 else 0x80)
      if k < 56 then some (⟨isList, cs.take k⟩, cs.drop k)
      else
        let rest := cs.drop (k - 55)
        let l := beNat (cs.take (k - 55))
        some (⟨isList, rest.take l⟩, rest.drop l)

end Lib.Rlp
