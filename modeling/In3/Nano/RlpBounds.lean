import In3.Nano.RlpDecode
/-!
# What `rlp_decode` reads, and where it goes

The loop of `rlp_decode` is a step relation on its position `i` and its count `p`. At
a position the input announces an item: a number of length bytes, and a length that is
a signed 32-bit number (`announced`). The next position is the end of that item, counted
modulo `2 ^ 64`, so a negative length leads backwards.

The loop stays in the buffer exactly if no reached item is cut off in its length bytes,
and it goes forward exactly if no item that it skips ends at or before its own start.
-/
open Lib Lib.Rlp List

namespace In3

/-! ## The item at a position -/

def len_bytes (c : UInt8) : Nat :=
  if c.toNat < 0xb8 then 0
  else if c.toNat < 0xc0 then c.toNat - 0xb7
  else if c.toNat < 0xf8 then 0
  else c.toNat - 0xf7

/-- A length of `bs.length` bytes. Only four bytes have a place in an `int`; the ones
before them are shifted onto the same places again. -/
def spelled (bs : Bytes) : Int := toInt32 (beNat (bs.take (bs.length - 4)) ||| beNat (bs.drop (bs.length - 4)))

def announced (b : Bytes) (i : Nat) : Int :=
  match b[i]? with
  | none => 0
  | some c =>
    if c.toNat < 0x80 then 1
    else if c.toNat < 0xb8 then c.toNat - 0x80
    else if 0xc0 ≤ c.toNat ∧ c.toNat < 0xf8 then c.toNat - 0xc0
    else spelled ((b.drop (i + 1)).take (len_bytes c))

def content (b : Bytes) (i : Nat) : Nat :=
  match b[i]? with
  | none => i
  | some c => if c.toNat < 0x80 then i else i + len_bytes c + 1

def LengthInside (b : Bytes) (i : Nat) : Prop := ∀ c ∈ b[i]?, i + len_bytes c < b.length

/-! ## Signed lengths -/

/-- A 32-bit number as a `size_t`, after it was an `int`. -/
def sext (v : Nat) : Nat := if v < 2 ^ 31 then v else v + (2 ^ 64 - 2 ^ 32)

theorem sext_toNat (x : BitVec 32) : sext x.toNat = (x.signExtend 64).toNat := by
  rw [BitVec.toNat_signExtend, sext]
  by_cases h : x.toNat < 2 ^ 31
  · have hmsb : x.msb = false := by
      rw [BitVec.msb_eq_decide]
      simpa using h
    rw [if_pos h, hmsb]
    simp
    omega
  · have hmsb : x.msb = true := by
      rw [BitVec.msb_eq_decide]
      simp
      omega
    rw [if_neg h, hmsb]
    simp
    omega

variable {b bs : Bytes} {h : Head} {i p v : Nat}

theorem sext_or {u : Nat} (hu : u < 2 ^ 32) (hv : v < 2 ^ 32) : sext u ||| sext v = sext (u ||| v) := by
  have h := sext_toNat (BitVec.ofNat 32 u ||| BitVec.ofNat 32 v)
  rw [BitVec.signExtend_or, BitVec.toNat_or, BitVec.toNat_or, ← sext_toNat, ← sext_toNat] at h
  simp only [BitVec.toNat_ofNat, Nat.mod_eq_of_lt hu, Nat.mod_eq_of_lt hv] at h
  exact h.symm

theorem shl_int_eq (x sh : Nat) : shl_int x sh = sext ((x <<< (sh % 32)) % 2 ^ 32) := rfl

/-- The bits of some length bytes, each at its place modulo 32. -/
def or32 : Bytes → Nat
  | [] => 0
  | x :: xs => x.toNat <<< (8 * xs.length % 32) ||| or32 xs

theorem shl_byte_lt (x : UInt8) (n : Nat) : x.toNat <<< (8 * n % 32) < 2 ^ 32 := by
  have hx := x.toNat_lt
  have hle : 8 * n % 32 ≤ 24 := by omega
  calc x.toNat <<< (8 * n % 32) = x.toNat * 2 ^ (8 * n % 32) := Nat.shiftLeft_eq _ _
    _ ≤ 255 * 2 ^ 24 := Nat.mul_le_mul (by omega) (Nat.pow_le_pow_right (by norm_num) hle)
    _ < 2 ^ 32 := by norm_num

theorem or32_lt (bs : Bytes) : or32 bs < 2 ^ 32 := by
  induction bs with
  | nil => simp [or32]
  | cons x xs ih => exact Nat.or_lt_two_pow (shl_byte_lt x xs.length) ih

theorem read_len_or (b : Bytes) (k i v : Nat) (hv : v < 2 ^ 32) (h : i + k < b.length) :
    (range k).foldlM (fun l n => do
      let x ← b[i + 1 + n]?
      some (l ||| shl_int x.toNat (8 * (k - n - 1)))) (sext v) =
    some (sext (v ||| or32 ((b.drop (i + 1)).take k))) := by
  induction k generalizing i v with
  | zero => simp [or32]
  | succ k ih =>
    have hi : i + 1 < b.length := by omega
    have hlen : ((b.drop (i + 1 + 1)).take k).length = k := by
      simp
      omega
    have hx := shl_byte_lt b[i + 1] k
    have hstep : sext v ||| shl_int b[i + 1].toNat (8 * (k + 1 - 0 - 1)) = sext (v ||| b[i + 1].toNat <<< (8 * k % 32)) := by
      rw [shl_int_eq, show k + 1 - 0 - 1 = k by omega, Nat.mod_eq_of_lt hx, sext_or hv hx]
    have hrest := ih (i + 1) (v ||| b[i + 1].toNat <<< (8 * k % 32)) (Nat.or_lt_two_pow hv hx) (by omega)
    rw [range_succ_eq_map, foldlM_cons, List.getElem?_eq_getElem hi]
    simp only [Option.bind_eq_bind, Option.bind_some, foldlM_map]
    rw [drop_eq_getElem_cons hi, take_succ_cons, or32, hlen, ← Nat.or_assoc, ← hrest]
    congr 1
    funext l n
    rw [show i + 1 + (n + 1) = i + 1 + 1 + n by omega, show k + 1 - (n + 1) - 1 = k - n - 1 by omega]
    rfl

theorem or32_short (h : bs.length ≤ 4) : or32 bs = beNat bs := by
  induction bs with
  | nil => rfl
  | cons x xs ih =>
    have hlt : beNat xs < 2 ^ (8 * xs.length) := by
      rw [pow_mul]
      exact beNat_lt xs
    rw [length_cons] at h
    rw [or32, ih (by omega), Nat.mod_eq_of_lt (by omega), or_shl _ hlt, pow_mul, beNat_cons]
    rfl

theorem or32_append (bs cs : Bytes) (h : cs.length = 4) : or32 (bs ++ cs) = or32 bs ||| or32 cs := by
  induction bs with
  | nil => simp [or32]
  | cons x xs ih =>
    have hplace : 8 * (xs.length + 4) % 32 = 8 * xs.length % 32 := by omega
    rw [cons_append, or32, or32, ih, length_append, h, hplace, Nat.or_assoc]

theorem or32_eq (h : bs.length ≤ 8) :
    or32 bs = beNat (bs.take (bs.length - 4)) ||| beNat (bs.drop (bs.length - 4)) := by
  rcases Nat.lt_or_ge 4 bs.length with h4 | h4
  · have hlen : (bs.drop (bs.length - 4)).length = 4 := by
      rw [length_drop]
      omega
    have hshort : (bs.take (bs.length - 4)).length ≤ 4 := by
      rw [length_take]
      omega
    rw [← or32_short (le_of_eq hlen), ← or32_short hshort, ← or32_append _ _ hlen, take_append_drop]
  · rw [Nat.sub_eq_zero_of_le h4, or32_short h4]
    simp

theorem read_len_spelled (b : Bytes) (i k : Nat) (hk : k ≤ 8) (h : i + k < b.length) :
    ∃ v < 2 ^ 32, read_len b i k = some (sext v) ∧ toInt32 v = spelled ((b.drop (i + 1)).take k) := by
  have hlen : ((b.drop (i + 1)).take k).length = k := by
    simp
    omega
  have hread := read_len_or b k i 0 (by norm_num) h
  rw [Nat.zero_or] at hread
  refine ⟨or32 ((b.drop (i + 1)).take k), or32_lt _, hread, ?_⟩
  rw [or32_eq (by omega), spelled]

theorem some_of_mem_foldlM {α β : Type} {f : β → α → Option β} {xs : List α} {a r : β}
    (h : xs.foldlM f a = some r) {x : α} (hx : x ∈ xs) : ∃ c d, f c x = some d := by
  induction xs generalizing a with
  | nil => cases hx
  | cons y ys ih =>
    rw [foldlM_cons, Option.bind_eq_bind, Option.bind_eq_some_iff] at h
    obtain ⟨d, hd, hrest⟩ := h
    rcases mem_cons.1 hx with rfl | hx
    · exact ⟨a, d, hd⟩
    · exact ih hrest hx

theorem read_len_cut (b : Bytes) (i k : Nat) (hi : i < b.length) (h : b.length ≤ i + k) : read_len b i k = none := by
  by_contra hne
  obtain ⟨l, hl⟩ := Option.ne_none_iff_exists'.1 hne
  -- the byte at the end of the buffer is one of them
  obtain ⟨c, d, hd⟩ := some_of_mem_foldlM hl (x := b.length - (i + 1)) (mem_range.2 (by omega))
  rw [List.getElem?_eq_none (by omega)] at hd
  cases hd

/-! ## One round -/

/-- What a round finds at a position: the item that is announced there. -/
structure Found (b : Bytes) (i : Nat) (h : Head) : Prop where
  kind : h.kind = 1 ∨ h.kind = 2
  start : h.start = content b i
  len : ∃ v < 2 ^ 32, h.len = sext v ∧ toInt32 v = announced b i
  next : (h.last + 1) % 2 ^ 64 = (h.start + h.len) % 2 ^ 64

theorem sext_small (h : v < 2 ^ 31) : sext v = v := if_pos h

theorem item_head_found (hi : i < b.length) (hc : LengthInside b i) :
    ∃ h, item_head b i = some h ∧ Found b i h := by
  have hget : b[i]? = some b[i] := List.getElem?_eq_getElem hi
  have hcomplete := hc b[i] hget
  have hlt := b[i].toNat_lt
  set c := b[i] with hcdef
  have short : ∀ {v : Nat}, v < 2 ^ 31 → (v : Int) = announced b i →
      ∃ w < 2 ^ 32, v = sext w ∧ toInt32 w = announced b i := by
    intro v hv hann
    exact ⟨v, by omega, (sext_small hv).symm, by rw [toInt32_small hv, hann]⟩
  simp only [item_head, hget, Option.bind_eq_bind, Option.bind_some]
  -- the five kinds of first bytes
  rcases (show c.toNat < 0x80 ∨ 0x80 ≤ c.toNat ∧ c.toNat < 0xb8 ∨ 0xb8 ≤ c.toNat ∧ c.toNat < 0xc0 ∨
    0xc0 ≤ c.toNat ∧ c.toNat < 0xf8 ∨ 0xf8 ≤ c.toNat by omega) with h | ⟨hlo, h⟩ | ⟨hlo, h⟩ | ⟨hlo, h⟩ | h
  · rw [if_pos h]
    refine ⟨_, rfl, .inl rfl, ?_, short (by norm_num) ?_, rfl⟩
    · simp [content, hget, h]
    · simp [announced, hget, h]
  · rw [if_neg (by omega), if_pos h]
    refine ⟨_, rfl, .inl rfl, ?_, short (by dsimp only; omega) ?_, ?_⟩
    · simp [content, hget, show ¬ c.toNat < 0x80 by omega, len_bytes, h]
    · simp only [announced, hget, show ¬ c.toNat < 0x80 by omega, h, if_true, if_false]
      omega
    · dsimp only
      omega
  · rw [if_neg (by omega), if_neg (by omega), if_pos h]
    have hk : len_bytes c = c.toNat - 0xb7 := by
      rw [len_bytes, if_neg (by omega), if_pos h]
    rw [hk] at hcomplete
    obtain ⟨v, hv, hread, hspell⟩ := read_len_spelled b i (c.toNat - 0xb7) (by omega) hcomplete
    rw [hread, Option.bind_some]
    refine ⟨_, rfl, .inl rfl, ?_, ⟨v, hv, rfl, ?_⟩, ?_⟩
    · simp [content, hget, show ¬ c.toNat < 0x80 by omega, hk]
    · rw [hspell]
      simp only [announced, hget, show ¬ c.toNat < 0x80 by omega, show ¬ c.toNat < 0xb8 by omega,
        show ¬ 0xc0 ≤ c.toNat by omega, false_and, if_false, hk]
    · dsimp only
      omega
  · rw [if_neg (by omega), if_neg (by omega), if_neg (by omega), if_pos h]
    refine ⟨_, rfl, .inr rfl, ?_, short (by dsimp only; omega) ?_, ?_⟩
    · simp [content, hget, show ¬ c.toNat < 0x80 by omega, len_bytes, show ¬ c.toNat < 0xb8 by omega,
        show ¬ c.toNat < 0xc0 by omega, h]
    · simp only [announced, hget, show ¬ c.toNat < 0x80 by omega, show ¬ c.toNat < 0xb8 by omega, hlo, h, and_self,
        if_true, if_false]
      omega
    · dsimp only
      omega
  · rw [if_neg (by omega), if_neg (by omega), if_neg (by omega), if_neg (by omega)]
    have hk : len_bytes c = c.toNat - 0xf7 := by
      rw [len_bytes, if_neg (by omega), if_neg (by omega), if_neg (by omega)]
    rw [hk] at hcomplete
    obtain ⟨v, hv, hread, hspell⟩ := read_len_spelled b i (c.toNat - 0xf7) (by omega) hcomplete
    rw [hread, Option.bind_some]
    refine ⟨_, rfl, .inr rfl, ?_, ⟨v, hv, rfl, ?_⟩, ?_⟩
    · simp [content, hget, show ¬ c.toNat < 0x80 by omega, hk]
    · rw [hspell]
      simp only [announced, hget, show ¬ c.toNat < 0x80 by omega, show ¬ c.toNat < 0xb8 by omega,
        show ¬ c.toNat < 0xf8 by omega, and_false, if_false, hk]
    · dsimp only
      omega

theorem item_head_cut (hi : i < b.length) (hc : ¬ LengthInside b i) : item_head b i = none := by
  have hget : b[i]? = some b[i] := List.getElem?_eq_getElem hi
  have hcut : b.length ≤ i + len_bytes b[i] := by
    by_contra hlt
    exact hc fun c hcmem => by
      obtain rfl := Option.some.inj (hget.symm.trans hcmem)
      omega
  unfold len_bytes at hcut
  simp only [item_head, hget, Option.bind_eq_bind, Option.bind_some]
  split at hcut
  · omega
  split at hcut
  · rw [if_neg (by omega), if_neg (by omega), if_pos (by assumption), read_len_cut b i _ hi hcut]
    rfl
  split at hcut
  · omega
  · rw [if_neg (by omega), if_neg (by omega), if_neg (by omega), if_neg (by assumption), read_len_cut b i _ hi hcut]
    rfl

theorem content_le (hi : i < b.length) (hc : LengthInside b i) :
    i ≤ content b i ∧ content b i ≤ b.length := by
  have hget : b[i]? = some b[i] := List.getElem?_eq_getElem hi
  have hcomplete := hc b[i] hget
  simp only [content, hget]
  split <;> omega

/-! ## The loop as steps -/

/-- A round that goes on, from a position and a count to the next ones. -/
def Step (b : Bytes) (index : Int) (s t : Nat × Nat) : Prop :=
  s.1 < b.length ∧ toInt32 s.2 ≠ index ∧ ∃ h, item_head b s.1 = some h ∧ t = ((h.last + 1) % 2 ^ 64, s.2 + 1)

/-- The loop comes to position `i` with count `p`. -/
def Reaches (b : Bytes) (index : Int) (i p : Nat) : Prop := Relation.ReflTransGen (Step b index) (0, 0) (i, p)

section
variable {b : Bytes} {index : Int} {code : Nat → Nat → Int → Int}

theorem Step.unique : Relator.RightUnique (Step b index) := by
  rintro s t u ⟨-, -, h, hh, rfl⟩ ⟨-, -, h', hh', rfl⟩
  obtain rfl := Option.some.inj (hh.symm.trans hh')
  rfl

variable {s t : Nat × Nat}

theorem Step.loop (h : Step b index s t) (fuel : Nat) :
    rlp_loop b code index (fuel + 1) s.1 s.2 = rlp_loop b code index fuel t.1 t.2 := by
  obtain ⟨hlt, hne, h, hh, rfl⟩ := h
  rw [rlp_loop, if_pos hlt, hh, Option.bind_eq_bind, Option.bind_some, if_neg hne]

/-- What the loop returns where it makes no step. -/
def outcome (b : Bytes) (code : Nat → Nat → Int → Int) (index : Int) (s : Nat × Nat) :
    Option (Int × Option (Nat × Nat)) :=
  if s.1 < b.length then
    (item_head b s.1).map fun h => (code h.len h.start h.kind, some (h.start, h.len % 2 ^ 32))
  else if index < 0 then some (if s.1 = b.length then toInt32 s.2 else -3, none)
  else some (if b.length < s.1 then -1 else 0, none)

theorem loop_stop (h : ∀ t, ¬ Step b index s t) (fuel : Nat) :
    rlp_loop b code index (fuel + 1) s.1 s.2 = outcome b code index s := by
  rw [rlp_loop, outcome]
  by_cases hlt : s.1 < b.length
  · rcases hh : item_head b s.1 with _ | head
    · rfl
    · have hindex : toInt32 s.2 = index := by
        by_contra hne
        exact h _ ⟨hlt, hne, head, hh, rfl⟩
      simp [hindex]
  · rw [if_neg hlt, if_neg hlt]

theorem loop_ends {fuel : Nat} (h31 : index < 2 ^ 31) (hs : (s.2 : Int) ≤ index)
    (hf : index < s.2 + fuel) :
    ∃ t, Relation.ReflTransGen (Step b index) s t ∧ (∀ u, ¬ Step b index t u) ∧
      rlp_loop b code index fuel s.1 s.2 = outcome b code index t := by
  induction fuel generalizing s with
  | zero => omega
  | succ fuel ih =>
    by_cases hstep : ∃ t, Step b index s t
    · obtain ⟨t, ht⟩ := hstep
      have hcount : t.2 = s.2 + 1 := by
        obtain ⟨-, -, h, -, rfl⟩ := ht
        rfl
      have hne : (s.2 : Int) ≠ index := by
        intro e
        exact ht.2.1 (by rw [toInt32_small (by omega), e])
      obtain ⟨u, hu, hstop, heq⟩ := ih (s := t) (by omega) (by omega)
      exact ⟨u, .head ht hu, hstop, by rw [ht.loop, heq]⟩
    · have hstop : ∀ t, ¬ Step b index s t := fun t ht => hstep ⟨t, ht⟩
      exact ⟨s, .refl, hstop, loop_stop hstop fuel⟩

theorem step_or_last {u : Nat × Nat} (hu : Relation.ReflTransGen (Step b index) s u)
    (ht : Relation.ReflTransGen (Step b index) s t) (hstop : ∀ v, ¬ Step b index t v) :
    u = t ∨ ∃ v, Step b index u v := by
  rcases Relation.ReflTransGen.total_of_right_unique Step.unique hu ht with hut | htu
  · exact (Relation.ReflTransGen.cases_head hut).imp id fun ⟨v, hv, _⟩ => ⟨v, hv⟩
  · rcases Relation.ReflTransGen.cases_head htu with e | ⟨v, hv, -⟩
    · exact .inl e.symm
    · exact absurd hv (hstop v)

end

/-! ## Reads and ranges -/

def decode (in_place : Bool) (b : Bytes) (index : Int) : Option (Int × Option (Nat × Nat)) :=
  if in_place then rlp_decode_in_place b index else rlp_decode b index

def item_code (in_place : Bool) (b : Bytes) : Nat → Nat → Int → Int := if in_place then ref_in_place else ref b

/-- No byte behind the buffer is read, and a returned item lies in the buffer. -/
def DecodesInside (in_place : Bool) (b : Bytes) (index : Int) : Prop :=
  ∃ r d, decode in_place b index = some (r, d) ∧ (r = 1 ∨ r = 2 → ∃ s l, d = some (s, l) ∧ s + l ≤ b.length)

/-- The item at `i` lies in the buffer, or its range is found to leave it. A result in
place of the argument is only compared with itself, so there an item that is cut off
passes. Else a negative length passes unless it leads before the buffer. -/
def Bounded (in_place : Bool) (b : Bytes) (i : Nat) : Prop :=
  if in_place then 0 ≤ announced b i → content b i + announced b i ≤ b.length
  else announced b i < 0 → content b i + announced b i < 0

theorem decode_eq (in_place : Bool) (b : Bytes) (index : Int) :
    decode in_place b index = rlp_loop b (item_code in_place b) index (2 ^ 32) 0 0 := by
  cases in_place with
  | true => simp [decode, item_code, rlp_decode_in_place]
  | false => simp [decode, item_code, rlp_decode]

theorem signed_len (hf : Found b i h) :
    0 ≤ announced b i ∧ (h.len : Int) = announced b i ∧ announced b i < 2 ^ 31 ∨
      announced b i < 0 ∧ (h.len : Int) = announced b i + 2 ^ 64 ∧ -2 ^ 31 ≤ announced b i := by
  obtain ⟨v, hv, hlen, hann⟩ := hf.len
  rw [← hann, hlen, sext, toInt32, Nat.mod_eq_of_lt hv]
  split <;> omega

theorem ref_found (hf : Found b i h) :
    ref b h.len h.start h.kind =
      if 0 ≤ content b i + announced b i ∧ content b i + announced b i ≤ b.length then h.kind else -1 := by
  have hend : (if h.len < 2 ^ 63 then (h.start : Int) + h.len else h.start + h.len - 2 ^ 64) =
      content b i + announced b i := by
    rw [hf.start]
    rcases signed_len hf with ⟨_, hlen, _⟩ | ⟨_, hlen, _⟩
    · rw [if_pos (by omega), hlen]
    · omega
  simp only [ref, hend]

theorem ref_in_place_found (hf : Found b i h) :
    ref_in_place h.len h.start h.kind = if 0 ≤ announced b i then h.kind else -1 := by
  unfold ref_in_place
  rcases signed_len hf with ⟨hpos, hlen, hmax⟩ | ⟨hneg, hlen, hmin⟩
  · rw [if_pos hpos, if_pos ⟨by omega, by omega⟩]
  · rw [if_neg (by omega), if_neg (by omega)]

theorem bounded_iff (in_place : Bool) (hb : b.length < 2 ^ 32) (hi : i < b.length)
    (hc : LengthInside b i) (hf : Found b i h) :
    (item_code in_place b h.len h.start h.kind = 1 ∨ item_code in_place b h.len h.start h.kind = 2 →
      h.start + h.len % 2 ^ 32 ≤ b.length) ↔ Bounded in_place b i := by
  have hle := content_le hi hc
  have hlen := signed_len hf
  have hkind := hf.kind
  have hstart := hf.start
  unfold Bounded item_code
  cases in_place with
  | true =>
    simp only [if_true, ref_in_place_found hf]
    split <;> omega
  | false =>
    simp only [Bool.false_eq_true, if_false, ref_found hf]
    split <;> omega

/-- For every buffer and every index that is not negative: `rlp_decode` stays in the
buffer if and only if every item it reaches has its length bytes in the buffer, and
the item asked for is bounded. -/
theorem decodes_inside_iff (in_place : Bool) (b : Bytes) (hb : b.length < 2 ^ 32) (index : Int) (h0 : 0 ≤ index)
    (h31 : index < 2 ^ 31) :
    DecodesInside in_place b index ↔
      ∀ i p, Reaches b index i p → i < b.length →
        LengthInside b i ∧ (toInt32 p = index → Bounded in_place b i) := by
  obtain ⟨t, hreach, hstop, hloop⟩ := @loop_ends b index (item_code in_place b) (0, 0) (2 ^ 32) h31 h0
    (by dsimp only; omega)
  have hdecode : decode in_place b index = outcome b (item_code in_place b) index t := by
    rw [decode_eq, hloop]
  -- at the last state: an end, an item that is cut off, or the item asked for
  have hlast : DecodesInside in_place b index ↔
      (t.1 < b.length → LengthInside b t.1 ∧ (toInt32 t.2 = index → Bounded in_place b t.1)) := by
    unfold DecodesInside
    rw [hdecode, outcome]
    by_cases hlt : t.1 < b.length
    · rw [if_pos hlt]
      by_cases hc : LengthInside b t.1
      · obtain ⟨h, hh, hf⟩ := item_head_found hlt hc
        have hindex : toInt32 t.2 = index := by
          by_contra hne
          exact hstop _ ⟨hlt, hne, h, hh, rfl⟩
        simp only [hh, Option.map_some, Option.some_inj, Prod.mk.injEq, hlt, hc, hindex, true_and, forall_const,
          ← bounded_iff in_place hb hlt hc hf]
        constructor
        · rintro ⟨_, _, ⟨rfl, rfl⟩, hr⟩ hcode
          obtain ⟨_, _, he, hle⟩ := hr hcode
          cases he
          exact hle
        · intro hr
          exact ⟨_, _, ⟨rfl, rfl⟩, fun hcode => ⟨_, _, rfl, hr hcode⟩⟩
      · simp [item_head_cut hlt hc, hlt, hc]
    · rw [if_neg hlt, if_neg (by omega)]
      simp only [Option.some_inj, Prod.mk.injEq, hlt, false_imp_iff, iff_true]
      refine ⟨_, _, ⟨rfl, rfl⟩, fun hr => ?_⟩
      split at hr <;> omega
  rw [hlast]
  constructor
  · intro h i p hip hi
    rcases step_or_last hip hreach hstop with rfl | ⟨v, hlt, hne, head, hh, -⟩
    · exact h hi
    · refine ⟨?_, fun e => absurd e hne⟩
      by_contra hc
      rw [item_head_cut hi hc] at hh
      cases hh
  · intro h hi
    exact h t.1 t.2 hreach hi

/-- Two items are decoded in bounds, so both are complete and the second is bounded. -/
theorem decodes_inside_two :
    DecodesInside false [0x83, 1, 2, 3, 5] 1 ∧
      ∀ i p, Reaches [0x83, 1, 2, 3, 5] 1 i p → i < 5 →
        LengthInside [0x83, 1, 2, 3, 5] i ∧ (toInt32 p = 1 → Bounded false [0x83, 1, 2, 3, 5] i) := by
  have hin : DecodesInside false [0x83, 1, 2, 3, 5] 1 :=
    ⟨1, some (4, 1), by decide, fun _ => ⟨4, 1, rfl, by decide⟩⟩
  exact ⟨hin, (decodes_inside_iff false [0x83, 1, 2, 3, 5] (by decide) 1 (by decide) (by decide)).1 hin⟩

/-- A string of five bytes that announces the length -5. -/
def backItem : Bytes := [0xbb, 0xff, 0xff, 0xff, 0xfb]

/-- A length byte behind the buffer is read, a length with the sign bit gives a range of
almost `2 ^ 32` bytes, and in place an item without its content passes. -/
theorem decodes_outside :
    ¬ DecodesInside false [0xb8] 0 ∧ ¬ DecodesInside false backItem 0 ∧ ¬ DecodesInside true [0x85] 0 := by
  have h2 : decode false backItem 0 = some (1, some (5, 4294967291)) := by decide
  have h3 : decode true [0x85] 0 = some (1, some (1, 5)) := by decide
  refine ⟨?_, ?_, ?_⟩
  · rintro ⟨r, d, h, -⟩
    cases h
  · rintro ⟨r, d, h, hin⟩
    rw [h2] at h
    cases h
    obtain ⟨s, l, he, hle⟩ := hin (.inl rfl)
    cases he
    revert hle
    decide
  · rintro ⟨r, d, h, hin⟩
    rw [h3] at h
    cases h
    obtain ⟨s, l, he, hle⟩ := hin (.inl rfl)
    cases he
    revert hle
    decide

/-! ## Progress -/

/-- Each round that goes on increases the position, and the loop ends after at most as
many rounds as the buffer has bytes. -/
structure Progress (b : Bytes) (index : Int) : Prop where
  step : ∀ i p, Reaches b index i p → i < b.length → toInt32 p ≠ index → ∃ j, Step b index (i, p) (j, p + 1) ∧ i < j
  ends : ∃ i p, Reaches b index i p ∧ p ≤ b.length ∧ ∀ s, ¬ Step b index (i, p) s

/-- The item at `i` ends behind `i`. An end before the buffer is one far behind it. -/
def Forward (b : Bytes) (i : Nat) : Prop :=
  ¬ (0 ≤ content b i + announced b i ∧ content b i + announced b i ≤ i)

theorem next_forward (hb : b.length < 2 ^ 32) (hi : i < b.length) (hc : LengthInside b i)
    (hf : Found b i h) : i < (h.last + 1) % 2 ^ 64 ↔ Forward b i := by
  have hle := content_le hi hc
  have hlen := signed_len hf
  rw [hf.next, hf.start]
  unfold Forward
  omega

section
variable {b : Bytes} {index : Int} {i p : Nat}

theorem Step.found {j q : Nat} (h : Step b index (i, p) (j, q)) :
    LengthInside b i ∧ ∃ head, Found b i head ∧ j = (head.last + 1) % 2 ^ 64 ∧ q = p + 1 := by
  obtain ⟨hlt, -, head, hh, he⟩ := h
  have hc : LengthInside b i := by
    by_contra hc
    rw [item_head_cut hlt hc] at hh
    cases hh
  obtain ⟨head', hh', hf⟩ := item_head_found hlt hc
  obtain rfl := Option.some.inj (hh.symm.trans hh')
  cases he
  exact ⟨hc, head, hf, rfl, rfl⟩

theorem rounds_le (hinc : ∀ i p j q, Reaches b index i p → Step b index (i, p) (j, q) → i < j)
    (h : Reaches b index i p) : p ≤ i ∧ p ≤ b.length := by
  obtain ⟨s, hs⟩ : ∃ s, s = (i, p) := ⟨_, rfl⟩
  unfold Reaches at h
  rw [← hs] at h
  suffices hall : s.2 ≤ s.1 ∧ s.2 ≤ b.length by rwa [hs] at hall
  clear hs
  induction h with
  | refl => exact ⟨le_refl _, Nat.zero_le _⟩
  | @tail s t hreach hstep ih =>
    have hlt := hinc s.1 s.2 t.1 t.2 hreach hstep
    obtain ⟨hi, -, h, -, rfl⟩ := hstep
    omega

theorem exists_last (hinc : ∀ i p j q, Reaches b index i p → Step b index (i, p) (j, q) → i < j) :
    ∃ i p, Reaches b index i p ∧ ∀ s, ¬ Step b index (i, p) s := by
  -- induction on the distance to the end of the buffer
  suffices hfrom : ∀ n i p, b.length - i ≤ n → Reaches b index i p →
      ∃ i p, Reaches b index i p ∧ ∀ s, ¬ Step b index (i, p) s from
    hfrom _ 0 0 (le_refl _) .refl
  intro n
  induction n with
  | zero =>
    intro i p hn hreach
    exact ⟨i, p, hreach, fun s hs => absurd hs.1 (by dsimp only; omega)⟩
  | succ n ih =>
    intro i p hn hreach
    by_cases hstep : ∃ s, Step b index (i, p) s
    · obtain ⟨⟨j, q⟩, hs⟩ := hstep
      have hlt := hinc i p j q hreach hs
      have hi := hs.1
      exact ih j q (by dsimp only at hi; omega) (.tail hreach hs)
    · exact ⟨i, p, hreach, fun s hs => hstep ⟨s, hs⟩⟩

end

/-- For every buffer and every index: the loop makes progress if and only if every item
that it skips has its length bytes in the buffer and ends behind its own position. -/
theorem progress_iff (b : Bytes) (hb : b.length < 2 ^ 32) (index : Int) :
    Progress b index ↔
      ∀ i p, Reaches b index i p → i < b.length → toInt32 p ≠ index → LengthInside b i ∧ Forward b i := by
  constructor
  · intro h i p hreach hi hne
    obtain ⟨j, hstep, hlt⟩ := h.step i p hreach hi hne
    obtain ⟨hc, head, hf, rfl, -⟩ := hstep.found
    exact ⟨hc, (next_forward hb hi hc hf).1 hlt⟩
  · intro h
    have hinc : ∀ i p j q, Reaches b index i p → Step b index (i, p) (j, q) → i < j := by
      intro i p j q hreach hstep
      obtain ⟨hc, head, hf, rfl, -⟩ := hstep.found
      exact (next_forward hb hstep.1 hc hf).2 (h i p hreach hstep.1 hstep.2.1).2
    refine ⟨fun i p hreach hi hne => ?_, ?_⟩
    · obtain ⟨hc, hfwd⟩ := h i p hreach hi hne
      obtain ⟨head, hh, hf⟩ := item_head_found hi hc
      exact ⟨_, ⟨hi, hne, head, hh, rfl⟩, (next_forward hb hi hc hf).2 hfwd⟩
    · obtain ⟨i, p, hreach, hlast⟩ := exists_last hinc
      exact ⟨i, p, hreach, (rounds_le hinc hreach).2, hlast⟩

theorem progress_short : Progress [0x82, 0x80, 5] (-1) := by
  have hall : ∀ i < 3, LengthInside [0x82, 0x80, 5] i ∧ Forward [0x82, 0x80, 5] i := by
    unfold LengthInside Forward
    decide +kernel
  exact (progress_iff [0x82, 0x80, 5] (by decide) (-1)).2 fun i p _ hi _ => hall i hi

theorem step_backItem (hp : p < 2 ^ 32 - 1) : Step backItem (-1) (0, p) (0, p + 1) := by
  have hne : toInt32 p ≠ -1 := by
    unfold toInt32
    split <;> omega
  have hhead : item_head backItem 0 = some ⟨1, 5, 2 ^ 64 - 5, 2 ^ 64 - 1⟩ := by decide
  have hlen : 0 < backItem.length := by decide
  exact ⟨hlen, hne, _, hhead, rfl⟩

theorem reaches_backItem (hp : p ≤ 2 ^ 32 - 1) : Reaches backItem (-1) 0 p := by
  induction p with
  | zero => exact .refl
  | succ p ih => exact .tail (ih (by omega)) (step_backItem (by omega))

/-- `rlp_decode_len` stays at the start of these five bytes for `2 ^ 32 - 1` rounds. -/
theorem no_progress : Reaches backItem (-1) 0 (2 ^ 32 - 1) ∧ ¬ Progress backItem (-1) := by
  refine ⟨reaches_backItem (le_refl _), fun h => ?_⟩
  obtain ⟨j, hstep, hlt⟩ := h.step 0 0 .refl (by decide) (by decide)
  have he := Step.unique hstep (step_backItem (p := 0) (by norm_num))
  cases he
  exact absurd hlt (lt_irrefl 0)

/-! ## Wrapping in place -/

/-- `rlp_encode_to_item` with its scratch builder, as `rlp_wrap_list` is `rlp_encode_to_list`. -/
def rlp_wrap_item (bb : Bytes) : Option Bytes :=
  if bb.length = 1 ∧ bb.headD 0 < 0x80 then some bb
  else do
    let d ← scratch_write [] (if bb.length < 56 then [UInt8.ofNat (bb.length + 0x80)] else rlp_add_length bb.length 0x80)
    return d ++ bb

theorem length_rlp_add_length_lt (len offset : Nat) : (rlp_add_length len offset).length < 4 ↔ len < 0x10000 := by
  unfold rlp_add_length bb_write_long_be
  split_ifs <;> simp <;> omega

theorem scratch_write_nil (val : Bytes) : scratch_write [] val = if val.length < 4 then some val else none := by
  simp [scratch_write]

theorem rlp_wrap_item_eq {bb : Bytes} (h : bb.length < 0x10000) : rlp_wrap_item bb = some (rlp_encode_item bb) := by
  have hfits : (if bb.length < 56 then [UInt8.ofNat (bb.length + 0x80)] else rlp_add_length bb.length 0x80).length < 4 := by
    split
    · simp
    · exact (length_rlp_add_length_lt _ _).2 h
  rw [rlp_wrap_item, scratch_write_nil, if_pos hfits]
  match bb with
  | [] => rfl
  | [x] =>
    by_cases hx : x < 0x80
    · have hx' : x.toNat < 0x80 := hx
      simp [rlp_encode_item, hx, hx']
    · have hx' : ¬ x.toNat < 0x80 := hx
      simp [rlp_encode_item, hx, hx']
  | _ :: _ :: _ => simp [rlp_encode_item]

/-- For every content: it is wrapped as `rlp_encode_list` and `rlp_encode_item` encode it, in a scratch builder that does
not grow, if and only if its length has at most two bytes. -/
theorem wrapped_in_place_iff (bb : Bytes) :
    rlp_wrap_list bb = some (rlp_encode_list bb) ∧ rlp_wrap_item bb = some (rlp_encode_item bb) ↔ bb.length < 0x10000 := by
  constructor
  · rintro ⟨hlist, -⟩
    by_contra hlong
    rw [rlp_wrap_list, scratch_write_nil, if_neg (mt (length_rlp_add_length_lt _ _).1 hlong)] at hlist
    cases hlist
  · intro h
    refine ⟨?_, rlp_wrap_item_eq h⟩
    rw [rlp_wrap_list, scratch_write_nil, if_pos ((length_rlp_add_length_lt _ _).2 h)]
    rfl

/-- The prefix of 64 KB has four bytes, for which the scratch builder would have to grow. -/
theorem long_content_not_wrapped :
    rlp_wrap_list (replicate 0x10000 0) = none ∧ rlp_wrap_item (replicate 0x10000 0) = none := by
  have hlen : ∀ offset, ¬ (rlp_add_length 0x10000 offset).length < 4 := fun offset =>
    mt (length_rlp_add_length_lt _ offset).1 (lt_irrefl _)
  constructor
  · rw [rlp_wrap_list, length_replicate, scratch_write_nil, if_neg (hlen _)]
    rfl
  · rw [rlp_wrap_item, length_replicate, if_neg (by omega), if_neg (by omega), scratch_write_nil, if_neg (hlen _)]
    rfl

end In3
