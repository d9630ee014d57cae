import In3.Nano.Rlp
/-!
# Decoding what was encoded

On a string of encoded items with payloads of less than `2 ^ 31` bytes, `rlp_decode`
finds item `j` with its kind and its payload, counts the items for a negative index
and returns 0 behind the last one. No read leaves the string and no length is
cut or wrapped.
-/
open Lib Lib.Rlp List

namespace In3

/-- The code `rlp_decode` returns for an item. -/
def kindOf (x : Item) : Int := if x.isList then 2 else 1

/-! ## The length bytes -/

theorem shl_int_small {x sh : Nat} (hs : sh < 32) (h : x * 2 ^ sh < 2 ^ 31) : shl_int x sh = x <<< sh := by
  have e : x <<< sh = x * 2 ^ sh := Nat.shiftLeft_eq x sh
  have hm : x * 2 ^ sh % 2 ^ 32 = x * 2 ^ sh := Nat.mod_eq_of_lt (by omega)
  simp only [shl_int]
  rw [Nat.mod_eq_of_lt hs, e, hm, if_pos h]

theorem shl_byte (x : UInt8) (sh : Nat) (h : sh ≤ 16) : shl_int x.toNat sh = x.toNat <<< sh := by
  refine shl_int_small (by omega) ?_
  calc x.toNat * 2 ^ sh ≤ 255 * 2 ^ 16 :=
        Nat.mul_le_mul (by have := x.toNat_lt; omega) (Nat.pow_le_pow_right (by norm_num) h)
    _ < 2 ^ 31 := by norm_num

theorem or_shl (a : Nat) {i b : Nat} (h : b < 2 ^ i) : a <<< i ||| b = a * 2 ^ i + b := by
  rw [← Nat.shiftLeft_add_eq_or_of_lt h, Nat.shiftLeft_eq]

theorem read_len_eq (pre bs post : Bytes) (c : UInt8) (hl : bs.length ≤ 4) (hv : beNat bs < 2 ^ 31) :
    read_len (pre ++ c :: bs ++ post) pre.length bs.length = some (beNat bs) := by
  have get : ∀ n, (pre ++ c :: bs ++ post)[pre.length + 1 + n]? = (bs ++ post)[n]? := by
    intro n
    rw [append_assoc, List.getElem?_append_right (by omega)]
    simp [show pre.length + 1 + n - pre.length = n + 1 by omega]
  simp only [read_len, get]
  -- the shift counts differ with the number of bytes, so each number is one case
  match bs, hl, hv with
  | [], _, _ => rfl
  | [x], _, hv =>
    simp [range_succ, beNat, shl_byte x 0 (by norm_num)]
  | [x, y], _, hv =>
    have e0 := shl_byte y 0 (by norm_num)
    have e1 := shl_byte x 8 (by norm_num)
    have h0 : y.toNat < 2 ^ 8 := y.toNat_lt
    simp [range_succ, beNat, e0, e1]
    rw [or_shl _ h0]
    ring
  | [x, y, z], _, hv =>
    have e0 := shl_byte z 0 (by norm_num)
    have e1 := shl_byte y 8 (by norm_num)
    have e2 := shl_byte x 16 (by norm_num)
    have h0 : z.toNat < 2 ^ 8 := z.toNat_lt
    have h1 : y.toNat * 2 ^ 8 + z.toNat < 2 ^ 16 := by have := y.toNat_lt; omega
    simp [range_succ, beNat, e0, e1, e2]
    rw [Nat.or_assoc, or_shl _ h0, or_shl _ h1]
    ring
  | [x, y, z, w], _, hv =>
    have e0 := shl_byte w 0 (by norm_num)
    have e1 := shl_byte z 8 (by norm_num)
    have e2 := shl_byte y 16 (by norm_num)
    have e3 : shl_int x.toNat 24 = x.toNat <<< 24 := by
      simp only [beNat, foldl_cons, foldl_nil] at hv
      exact shl_int_small (by norm_num) (by linarith)
    have h0 : w.toNat < 2 ^ 8 := w.toNat_lt
    have h1 : z.toNat * 2 ^ 8 + w.toNat < 2 ^ 16 := by have := z.toNat_lt; omega
    have h2 : y.toNat * 2 ^ 16 + (z.toNat * 2 ^ 8 + w.toNat) < 2 ^ 24 := by have := y.toNat_lt; linarith
    simp [range_succ, beNat, e0, e1, e2, e3]
    rw [Nat.or_assoc, or_shl _ h0, Nat.or_assoc, or_shl _ h1, or_shl _ h2]
    ring

/-! ## One item -/

theorem toNat_ofNat_lt {n : Nat} (h : n < 256) : (UInt8.ofNat n).toNat = n := by
  rw [UInt8.toNat_ofNat']; exact Nat.mod_eq_of_lt h

theorem base_le (x : Item) : 0x80 ≤ x.base ∧ x.base ≤ 0xc0 := by
  unfold Item.base; split <;> omega

theorem item_head_enc (pre post : Bytes) (x : Item) (hp : x.payload.length < 2 ^ 31)
    (h : (pre ++ x.enc ++ post).length < 2 ^ 32) :
    item_head (pre ++ x.enc ++ post) pre.length =
      some ⟨kindOf x, pre.length + x.header.length, x.payload.length, pre.length + x.enc.length - 1⟩ := by
  have hlen : pre.length + x.enc.length < 2 ^ 32 := by
    simp only [length_append] at h; omega
  rw [enc_length] at hlen
  by_cases hb : x.bare
  · obtain ⟨hl, c, hc, hc80⟩ := hb
    have hh : x.header = [] := by rw [Item.header, if_pos ⟨hl, c, hc, hc80⟩]
    simp [item_head, Item.enc, hh, hc, hc80, kindOf, hl]
  by_cases hs : x.payload.length < 56
  · have hh : x.header = [UInt8.ofNat (x.base + x.payload.length)] := by rw [Item.header, if_neg hb, if_pos hs]
    have hget : (pre ++ x.enc ++ post)[pre.length]? = some (UInt8.ofNat (x.base + x.payload.length)) := by
      simp [Item.enc, hh]
    have hv := toNat_ofNat_lt (n := x.base + x.payload.length) (by have := base_le x; omega)
    have hmod : (pre.length + x.payload.length) % 2 ^ 64 = pre.length + x.payload.length :=
      Nat.mod_eq_of_lt (by omega)
    simp only [item_head, hget, Option.bind_eq_bind, Option.bind_some, hv, enc_length, hh, length_singleton]
    cases hx : x.isList with
    | false =>
      have hbase : x.base = 0x80 := by simp [Item.base, hx]
      simp only [hbase, kindOf, hx]
      rw [if_neg (by omega), if_pos (by omega), Nat.add_sub_cancel_left, hmod]
      simp; omega
    | true =>
      have hbase : x.base = 0xc0 := by simp [Item.base, hx]
      simp only [hbase, kindOf, hx]
      rw [if_neg (by omega), if_neg (by omega), if_neg (by omega), if_pos (by omega), Nat.add_sub_cancel_left, hmod]
      simp; omega
  · set bs := beBytes x.payload.length with hbs
    have hbn : beNat bs = x.payload.length := beNat_beBytes _
    have hb4 : bs.length ≤ 4 := length_beBytes_le (by omega)
    have hb1 : 0 < bs.length := length_beBytes_pos (by omega)
    have hh : x.header = UInt8.ofNat (x.base + 55 + bs.length) :: bs := by
      rw [Item.header, if_neg hb, if_neg hs]
    have hget : (pre ++ x.enc ++ post)[pre.length]? = some (UInt8.ofNat (x.base + 55 + bs.length)) := by
      simp [Item.enc, hh]
    have hv := toNat_ofNat_lt (n := x.base + 55 + bs.length) (by have := base_le x; omega)
    have hrd : read_len (pre ++ x.enc ++ post) pre.length bs.length = some x.payload.length := by
      have := read_len_eq pre bs (x.payload ++ post) (UInt8.ofNat (x.base + 55 + bs.length)) hb4 (by omega)
      rw [hbn] at this
      rw [← this, Item.enc, hh]
      simp
    rw [hh, length_cons] at hlen
    have hmod : (pre.length + x.payload.length + bs.length) % 2 ^ 64 = pre.length + x.payload.length + bs.length :=
      Nat.mod_eq_of_lt (by omega)
    simp only [item_head, hget, Option.bind_eq_bind, Option.bind_some, hv, enc_length, hh, length_cons]
    cases hx : x.isList with
    | false =>
      have hbase : x.base = 0x80 := by simp [Item.base, hx]
      have hk : 0x80 + 55 + bs.length - 0xb7 = bs.length := by omega
      simp only [hbase, kindOf, hx]
      rw [if_neg (by omega), if_neg (by omega), if_pos (by omega), hk, hrd]
      simp only [Option.bind_some, hmod]
      simp; omega
    | true =>
      have hbase : x.base = 0xc0 := by simp [Item.base, hx]
      have hk : 0xc0 + 55 + bs.length - 0xf7 = bs.length := by omega
      simp only [hbase, kindOf, hx]
      rw [if_neg (by omega), if_neg (by omega), if_neg (by omega), if_neg (by omega), hk, hrd]
      simp only [Option.bind_some, hmod]
      simp; omega

/-! ## The loop -/

theorem ref_inside {b : Bytes} {l s : Nat} {r : Int} (hl : l < 2 ^ 31) (h : s + l ≤ b.length) : ref b l s r = r := by
  simp only [ref]
  rw [if_pos ⟨by omega, by omega⟩]

theorem rlp_loop_skip (pre post : Bytes) (x : Item) (hx : x.payload.length < 2 ^ 31)
    (h : (pre ++ x.enc ++ post).length < 2 ^ 32) {code : Nat → Nat → Int → Int} {index : Int} {fuel p : Nat}
    (hp : p < 2 ^ 31) (hi : index ≠ p) :
    rlp_loop (pre ++ x.enc ++ post) code index (fuel + 1) pre.length p =
      rlp_loop (pre ++ x.enc ++ post) code index fuel (pre ++ x.enc).length (p + 1) := by
  have hpos := enc_pos x
  have hlen : pre.length + x.enc.length < 2 ^ 32 := by
    simp only [length_append] at h; omega
  have hlt : pre.length < (pre ++ x.enc ++ post).length := by
    simp only [length_append]; omega
  have hnext : (pre.length + x.enc.length - 1 + 1) % 2 ^ 64 = (pre ++ x.enc).length := by
    rw [Nat.sub_add_cancel (by omega), Nat.mod_eq_of_lt (by omega), length_append]
  rw [rlp_loop, if_pos hlt, item_head_enc pre post x hx h]
  simp only [Option.bind_eq_bind, Option.bind_some]
  rw [if_neg (by rw [toInt32_small hp]; exact Ne.symm hi), hnext]

section Loop
variable {code : Nat → Nat → Int → Int}

theorem rlp_loop_at (xs : List Item) (hxs : ∀ x ∈ xs, x.payload.length < 2 ^ 31) (pre : Bytes) (p fuel j : Nat)
    (hj : j < xs.length) (hf : j < fuel) (h : (pre ++ encAll xs).length < 2 ^ 32) (hp : p + xs.length < 2 ^ 31)
    (hcode : ∀ l s r, l < 2 ^ 31 → s + l ≤ (pre ++ encAll xs).length → code l s r = r) :
    rlp_loop (pre ++ encAll xs) code ((p + j : Nat) : Int) fuel pre.length p =
      some (kindOf xs[j], some (pre.length + offset xs j + xs[j].header.length, xs[j].payload.length)) := by
  induction xs generalizing pre p fuel j with
  | nil => simp at hj
  | cons x xs ih =>
    obtain ⟨fuel, rfl⟩ : ∃ f, fuel = f + 1 := ⟨fuel - 1, by omega⟩
    rw [encAll_cons, ← append_assoc] at h hcode ⊢
    obtain ⟨hx, hxs⟩ := forall_mem_cons.1 hxs
    have hp' : p < 2 ^ 31 := by omega
    cases j with
    | zero =>
      have hpos := enc_pos x
      have hlen : pre.length + x.enc.length ≤ (pre ++ x.enc ++ encAll xs).length := by
        simp only [length_append]; omega
      rw [enc_length] at hlen hpos
      rw [rlp_loop, if_pos (by omega), item_head_enc pre _ x hx h]
      simp only [Option.bind_eq_bind, Option.bind_some, Nat.add_zero, toInt32_small hp', if_true,
        getElem_cons_zero, offset_zero]
      rw [hcode _ _ _ hx (by omega), Nat.mod_eq_of_lt (by omega)]
    | succ j =>
      have hlen : p + 1 + xs.length < 2 ^ 31 := by simp only [length_cons] at hp; omega
      rw [rlp_loop_skip pre _ x hx h hp' (by push_cast; omega)]
      have := ih hxs (pre ++ x.enc) (p + 1) fuel j (by simpa using hj) (by omega) h hlen hcode
      rw [show p + (j + 1) = p + 1 + j by omega, this]
      simp only [getElem_cons_succ, offset, take_succ_cons, encAll_cons, length_append]
      congr 4
      omega

theorem rlp_loop_end (xs : List Item) (hxs : ∀ x ∈ xs, x.payload.length < 2 ^ 31) (pre : Bytes) (p fuel : Nat)
    (index : Int) (hf : xs.length < fuel) (h : (pre ++ encAll xs).length < 2 ^ 32) (hp : p + xs.length < 2 ^ 31)
    (hi : ∀ j < xs.length, index ≠ (p + j : Nat)) :
    rlp_loop (pre ++ encAll xs) code index fuel pre.length p =
      some (if index < 0 then ((p + xs.length : Nat) : Int) else 0, none) := by
  induction xs generalizing pre p fuel with
  | nil =>
    obtain ⟨fuel, rfl⟩ : ∃ f, fuel = f + 1 := ⟨fuel - 1, by simp at hf; omega⟩
    have hp' : p < 2 ^ 31 := by simpa using hp
    rw [rlp_loop]
    simp only [encAll_nil, append_nil, lt_irrefl, if_false, toInt32_small hp',
      length_nil]
    split <;> rfl
  | cons x xs ih =>
    obtain ⟨fuel, rfl⟩ : ∃ f, fuel = f + 1 := ⟨fuel - 1, by simp at hf; omega⟩
    obtain ⟨hx, hxs⟩ := forall_mem_cons.1 hxs
    simp only [length_cons] at hf hp hi
    rw [encAll_cons, ← append_assoc] at h ⊢
    rw [rlp_loop_skip pre _ x hx h (by omega) (by simpa using hi 0 (by omega)),
      ih hxs (pre ++ x.enc) (p + 1) fuel (by omega) h (by omega) (fun j hj => by
        have := hi (j + 1) (by omega)
        rwa [show p + (j + 1) = p + 1 + j by omega] at this)]
    simp only [length_cons]
    rw [show p + 1 + xs.length = p + (xs.length + 1) by omega]

end Loop

theorem length_le_encAll (xs : List Item) : xs.length ≤ (encAll xs).length := by
  induction xs with
  | nil => simp
  | cons x xs ih =>
    have := enc_pos x
    rw [encAll_cons, length_append, length_cons]; omega

/-! ## Results -/

section Encoded
variable (xs : List Item) (h : (encAll xs).length < 2 ^ 31)
include h

theorem rlp_decode_at (j : Nat) (hj : j < xs.length) :
    rlp_decode (encAll xs) (j : Nat) =
      some (kindOf xs[j], some (offset xs j + xs[j].header.length, xs[j].payload.length)) := by
  have hl := length_le_encAll xs
  have hat := rlp_loop_at xs (payload_lt h) [] 0 (2 ^ 32) j hj (by omega) (by simp; omega) (by omega)
    (fun _ _ _ => ref_inside)
  simpa [rlp_decode] using hat

theorem rlp_loop_none (code : Nat → Nat → Int → Int) (index : Int) (hi : ∀ j < xs.length, index ≠ (j : Nat)) :
    rlp_loop (encAll xs) code index (2 ^ 32) 0 0 = some (if index < 0 then (xs.length : Int) else 0, none) := by
  have hl := length_le_encAll xs
  have hend := @rlp_loop_end code xs (payload_lt h) [] 0 (2 ^ 32) index (by omega) (by simp; omega) (by omega)
    (by simpa using hi)
  simpa using hend

theorem rlp_decode_past (j : Nat) (hj : xs.length ≤ j) : rlp_decode (encAll xs) (j : Nat) = some (0, none) := by
  have hend := rlp_loop_none xs h (ref (encAll xs)) (j : Nat) (fun i hi => by omega)
  rwa [if_neg (by omega)] at hend

theorem rlp_decode_neg (i : Int) (hi : i < 0) : rlp_decode (encAll xs) i = some ((xs.length : Int), none) := by
  have hend := rlp_loop_none xs h (ref (encAll xs)) i (fun j hj => by omega)
  rwa [if_pos hi] at hend

theorem rlp_decode_len_eq : rlp_decode_len (encAll xs) = some (xs.length : Int) := by
  rw [rlp_decode_len, rlp_decode_neg xs h (-1) (by omega)]; rfl

end Encoded

theorem sub_payload (xs : List Item) (j : Nat) (hj : j < xs.length) :
    sub (encAll xs) (offset xs j + xs[j].header.length, xs[j].payload.length) = some xs[j].payload := by
  have := offset_le xs j hj
  rw [enc_length] at this
  rw [sub, if_pos (by simp only; omega), slice_payload xs j hj]

theorem rlp_decode_to_at (xs : List Item) (h : (encAll xs).length < 2 ^ 31) (j : Nat) (hj : j < xs.length)
    (old : Option Bytes) :
    rlp_decode_to (encAll xs) (j : Nat) old = some (kindOf xs[j], some xs[j].payload) := by
  simp [rlp_decode_to, rlp_decode_at xs h j hj, sub_payload xs j hj]

section Self
variable (xs : List Item) (h : (encAll xs).length < 2 ^ 31)
include h

end Self

theorem rlp_decode_to_one (x : Item) (h : x.payload.length < 2 ^ 31) (old : Option Bytes) :
    rlp_decode_to x.enc 0 old = some (kindOf x, some x.payload) := by
  have hone : x.enc = encAll [x] := by simp
  have hhead := length_header_le (x := x) (by omega)
  have hlen : (encAll [x]).length < 2 ^ 32 := by
    rw [← hone, enc_length]
    omega
  have hat := @rlp_loop_at (ref (encAll [x])) [x] (by simpa using h) [] 0 (2 ^ 32) 0 (by simp) (by norm_num) hlen
    (by simp) (fun _ _ _ => ref_inside)
  have hdecode : rlp_decode (encAll [x]) 0 = _ := hat
  rw [hone, rlp_decode_to, hdecode]
  have hsub := sub_payload [x] 0 (by simp)
  simpa using hsub

end In3
