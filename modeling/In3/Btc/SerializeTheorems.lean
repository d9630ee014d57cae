import In3.Btc.Serialize
/-!
# Integers are read back as they were written

`uint_to_le` and `le_to_int` agree on every 32-bit value. The other pairs do not: `le_to_long` shifts
five bytes by 24, so that it never returns more than 32 bits, and `long_to_compact_uint` writes the
bytes of the value over its own marker. Both agree with their readers as long as the value is small.
-/
open Lib Guarded List Region

namespace In3.Btc

/-! ## What the writers write -/

theorem byte_of_and (v : Nat) : UInt8.ofNat (v &&& 0xFF) = UInt8.ofNat (v % 256) := by
  rw [show 0xFF = 2 ^ 8 - 1 by rfl, Nat.and_two_pow_sub_one_eq_mod]

theorem uint_to_le_eq (buf : Bytes) (index value : Nat) :
    uint_to_le buf index value = Region.store buf index (leFix 4 value) := by
  unfold uint_to_le
  simp only [byte_of_and, leFix, Nat.div_div_eq_div_mul, Nat.shiftRight_eq_div_pow]

theorem long_to_le_eq (buf : Bytes) (index value : Nat) :
    long_to_le buf index value = Region.store buf index (leFix 8 value) := by
  unfold long_to_le
  simp only [byte_of_and, leFix, Nat.div_div_eq_div_mul, Nat.shiftRight_eq_div_pow]

/-! ## What the readers read -/

theorem le_int_value (a b c e : UInt8) :
    e.toNat <<< 24 ||| c.toNat <<< 16 ||| b.toNat <<< 8 ||| a.toNat = leNat [a, b, c, e] := by
  have ha := a.toNat_lt
  have hb := b.toNat_lt
  have hc := c.toNat_lt
  rw [Nat.or_assoc, Nat.or_assoc, shift_or (by omega : a.toNat < 2 ^ 8), shift_or (by omega : a.toNat + 2 ^ 8 * b.toNat < 2 ^ 16),
    shift_or (by omega : a.toNat + 2 ^ 8 * b.toNat + 2 ^ 16 * c.toNat < 2 ^ 24)]
  simp only [leNat_cons, leNat_nil]
  omega

/-- The value of `le_to_long`: the upper five bytes fall together. -/
def long_value (d : Bytes) : Nat :=
  leNat (d.take 3) +
    2 ^ 24 * ((d.getD 7 0).toNat ||| (d.getD 6 0).toNat ||| (d.getD 5 0).toNat ||| (d.getD 4 0).toNat ||| (d.getD 3 0).toNat)

variable {buf data : Bytes} {index n v : Nat}

/-- What is computed of a slice is the value of its bytes. -/
theorem ok_slice_value {f g : Bytes → Nat} {k : Nat} {p : Int} (hvalue : ∀ d : Bytes, d.length = k → f d = g d) :
    ok (slice data p k >>= fun d => (pure (f d) : BtcRun Nat)) n ↔
      (0 ≤ p ∧ p.toNat + k ≤ data.length) ∧ g ((data.drop p.toNat).take k) = n := by
  simp only [ok_bind, ok_slice, ok_pure]
  constructor
  · rintro ⟨d, ⟨hb, rfl⟩, rfl⟩
    refine ⟨hb, (hvalue _ ?_).symm⟩
    rw [length_take, length_drop]
    omega
  · rintro ⟨hb, rfl⟩
    refine ⟨_, ⟨hb, rfl⟩, hvalue _ ?_⟩
    rw [length_take, length_drop]
    omega

theorem ok_le_to_int {p : Int} :
    ok (le_to_int data p) n ↔ (0 ≤ p ∧ p.toNat + 4 ≤ data.length) ∧ leNat ((data.drop p.toNat).take 4) = n := by
  refine ok_slice_value fun d hd => ?_
  match d, hd with
  | [a, b, c, e], _ => exact le_int_value a b c e

theorem ok_le_to_long {p : Int} :
    ok (le_to_long data p) n ↔
      (0 ≤ p ∧ p.toNat + 8 ≤ data.length) ∧ long_value ((data.drop p.toNat).take 8) = n := by
  refine ok_slice_value fun d hd => ?_
  match d, hd with
  | [a, b, c, e, f, g, h, i], _ =>
    have ha := a.toNat_lt
    have hb := b.toNat_lt
    have hc := c.toNat_lt
    show i.toNat <<< 24 ||| h.toNat <<< 24 ||| g.toNat <<< 24 ||| f.toNat <<< 24 ||| e.toNat <<< 24 |||
      c.toNat <<< 16 ||| b.toNat <<< 8 ||| a.toNat = leNat [a, b, c] + 2 ^ 24 * _
    rw [Nat.or_assoc, Nat.or_assoc, ← Nat.shiftLeft_or_distrib, ← Nat.shiftLeft_or_distrib, ← Nat.shiftLeft_or_distrib,
      ← Nat.shiftLeft_or_distrib, shift_or (by omega : a.toNat < 2 ^ 8),
      shift_or (by omega : a.toNat + 2 ^ 8 * b.toNat < 2 ^ 16),
      shift_or (by omega : a.toNat + 2 ^ 8 * b.toNat + 2 ^ 16 * c.toNat < 2 ^ 24)]
    simp only [leNat_cons, leNat_nil, getD_cons_succ, getD_cons_zero]
    omega

theorem long_value_lt (d : Bytes) : long_value d < 2 ^ 32 := by
  have hlow : leNat (d.take 3) < 2 ^ 24 := by
    refine lt_of_lt_of_le (leNat_lt _) ?_
    calc 256 ^ (d.take 3).length ≤ 256 ^ 3 := Nat.pow_le_pow_right (by norm_num) (by rw [length_take]; omega)
      _ = 2 ^ 24 := by norm_num
  have hbyte : ∀ i, (d.getD i 0).toNat < 2 ^ 8 := fun i => (d.getD i 0).toNat_lt
  have hhigh := Nat.or_lt_two_pow (Nat.or_lt_two_pow (Nat.or_lt_two_pow (Nat.or_lt_two_pow (hbyte 7) (hbyte 6)) (hbyte 5))
    (hbyte 4)) (hbyte 3)
  unfold long_value
  omega

theorem long_value_small {d : Bytes} (hd : d.length = 8) (h : leNat d < 2 ^ 32) : long_value d = leNat d := by
  match d, hd with
  | [a, b, c, e, f, g, i, j], _ =>
    simp only [leNat_cons] at h
    have hf : f.toNat = 0 := by omega
    have hg : g.toNat = 0 := by omega
    have hi : i.toNat = 0 := by omega
    have hj : j.toNat = 0 := by omega
    show leNat [a, b, c] + 2 ^ 24 * (j.toNat ||| i.toNat ||| g.toNat ||| f.toNat ||| e.toNat) = leNat [a, b, c, e, f, g, i, j]
    rw [hf, hg, hj]
    simp only [leNat_cons, leNat_nil, Nat.zero_or, hi]
    omega

/-! ## Variable sizes -/

theorem size_one_iff : get_compact_uint_size v = 1 ↔ v ≤ 0xFC := by
  unfold get_compact_uint_size
  split_ifs <;> omega

theorem size_nine_iff : get_compact_uint_size v = 9 ↔ 0xFFFFFFFF < v := by
  unfold get_compact_uint_size
  split_ifs <;> omega

theorem compact_bytes_cons (h : 0xFC < v) :
    ∃ rest, compact_bytes v (get_compact_uint_size v) = UInt8.ofNat (v % 256) :: UInt8.ofNat (v / 4 % 256) :: rest := by
  have htwo : ∀ n, range (n + 2) = 0 :: 1 :: (range n).map (· + 2) := by
    intro n
    rw [range_succ_eq_map, range_succ_eq_map]
    simp
  obtain ⟨n, hn⟩ : ∃ n, get_compact_uint_size v - 1 = n + 2 := by
    unfold get_compact_uint_size
    split_ifs
    · exact ⟨6, rfl⟩
    · exact ⟨2, rfl⟩
    · exact ⟨0, rfl⟩
  unfold compact_bytes
  rw [hn, htwo, map_cons, map_cons]
  have hone : v >>> (1 <<< 1) = v / 4 := Nat.shiftRight_eq_div_pow v 2
  simp only [byte_of_and, hone]
  exact ⟨_, rfl⟩

theorem ok_compact_small {buf' : Bytes} (hv : v ≤ 0xFC) :
    ok (long_to_compact_uint buf index v) buf' ↔ ok (Region.store buf index [UInt8.ofNat v] : BtcRun Bytes) buf' := by
  have hsize := size_one_iff.2 hv
  have hmarker : compact_marker v = UInt8.ofNat v := by
    unfold compact_marker
    rw [if_neg (by omega), if_neg (by omega), if_neg (by omega), byte_of_and, Nat.mod_eq_of_lt (by omega)]
  unfold long_to_compact_uint
  rw [hsize, hmarker]
  simp

theorem ok_compact_large {buf' : Bytes} (hv : 0xFC < v)
    (h : ok (long_to_compact_uint buf index v) buf') :
    ∃ tail, buf'.drop index = UInt8.ofNat (v % 256) :: UInt8.ofNat (v / 4 % 256) :: tail := by
  have hsize : 1 < get_compact_uint_size v := by
    unfold get_compact_uint_size
    split_ifs <;> omega
  unfold long_to_compact_uint at h
  simp only [ok_bind, hsize] at h
  obtain ⟨mid, -, h⟩ := h
  have hread := slice_of_ok_store h
  obtain ⟨rest, hrest⟩ := compact_bytes_cons hv
  rw [hrest, Int.toNat_natCast] at hread
  refine ⟨rest ++ (buf'.drop index).drop (rest.length + 2), ?_⟩
  conv_lhs => rw [← take_append_drop (rest.length + 2) (buf'.drop index)]
  rw [length_cons, length_cons] at hread
  rw [hread]
  rfl

theorem decode_var_int_cases {p : Nat} (h : ok (decode_var_int data p) (v, n)) :
    (n = 3 ∧ data.getD p 0 = 0xFD ∧ v = leNat ((data.drop (p + 1)).take 2)) ∨
      (n = 5 ∧ data.getD p 0 = 0xFE ∧ v = leNat ((data.drop (p + 1)).take 4)) ∨
      (n = 9 ∧ data.getD p 0 = 0xFF ∧ v = long_value ((data.drop (p + 1)).take 8)) ∨
      (n = 1 ∧ data.getD p 0 < 0xFD ∧ v = (data.getD p 0).toNat) := by
  unfold decode_var_int at h
  simp only [ok_bind, ok_byte, Int.toNat_natCast] at h
  obtain ⟨x, ⟨hp, hx⟩, h⟩ := h
  have hnext : ((p : Int) + 1).toNat = p + 1 := by omega
  rw [hx]
  by_cases hfd : x = 0xFD
  · simp only [hfd, if_true, ok_bind, ok_slice, hnext] at h
    obtain ⟨d, ⟨hb, hd⟩, rfl, rfl⟩ := h
    refine .inl ⟨rfl, hfd, ?_⟩
    rw [hd]
    have hlen : d.length = 2 := by
      rw [← hd, length_take, length_drop]
      omega
    obtain ⟨a, b, rfl⟩ := List.length_eq_two.1 hlen
    have ha := a.toNat_lt
    show b.toNat <<< 8 ||| a.toNat = leNat [a, b]
    rw [shift_or (by omega : a.toNat < 2 ^ 8)]
    simp only [leNat_cons, leNat_nil]
    omega
  by_cases hfe : x = 0xFE
  · rw [if_neg hfd, if_pos hfe] at h
    simp only [ok_bind, ok_le_to_int] at h
    obtain ⟨val, ⟨-, hval⟩, rfl, rfl⟩ := h
    exact .inr (.inl ⟨rfl, hfe, hval.symm⟩)
  by_cases hff : x = 0xFF
  · rw [if_neg hfd, if_neg hfe, if_pos hff] at h
    simp only [ok_bind, ok_le_to_long] at h
    obtain ⟨val, ⟨-, hval⟩, rfl, rfl⟩ := h
    exact .inr (.inr (.inl ⟨rfl, hff, hval.symm⟩))
  · simp only [hfd, hfe, hff] at h
    obtain ⟨rfl, rfl⟩ := h
    refine .inr (.inr (.inr ⟨rfl, ?_, rfl⟩))
    have h1 : x.toNat ≠ 0xFD := fun e => hfd (UInt8.toNat_inj.1 e)
    have h2 : x.toNat ≠ 0xFE := fun e => hfe (UInt8.toNat_inj.1 e)
    have h3 : x.toNat ≠ 0xFF := fun e => hff (UInt8.toNat_inj.1 e)
    have := x.toNat_lt
    show x.toNat < 253
    omega

theorem ok_decode_small {p : Nat} {x : UInt8} (hp : p < data.length) (hx : data.getD p 0 = x) (h : x < 0xFD) :
    ok (decode_var_int data p) (x.toNat, 1) := by
  have hne : x ≠ 0xFD ∧ x ≠ 0xFE ∧ x ≠ 0xFF := by
    refine ⟨?_, ?_, ?_⟩ <;> rintro rfl <;> exact absurd h (by decide)
  unfold decode_var_int
  simp only [ok_bind, ok_byte]
  refine ⟨x, ⟨⟨by omega, hp⟩, hx⟩, ?_⟩
  simp [hne.1, hne.2.1, hne.2.2]

/-- `decode_var_int` reads back what `long_to_compact_uint` wrote, and both use `get_compact_uint_size` bytes. -/
def CompactReadsBack (buf : Bytes) (index v : Nat) : Prop :=
  ∃ buf', ok (long_to_compact_uint buf index v) buf' ∧
    ok (decode_var_int buf' index) (v, get_compact_uint_size v)

def LongReadsBack (buf : Bytes) (index v : Nat) : Prop :=
  ∃ buf', ok (long_to_le buf index v) buf' ∧ ok (le_to_long buf' index) v

def IntReadsBack (buf : Bytes) (index v : Nat) : Prop :=
  ∃ buf', ok (uint_to_le buf index v) buf' ∧ ok (le_to_int buf' index) v

theorem compact_reads_back_iff (hbuf : index + get_compact_uint_size v ≤ buf.length) :
    CompactReadsBack buf index v ↔ v ≤ 0xFC := by
  unfold CompactReadsBack
  constructor
  · rintro ⟨buf', hwrite, hread⟩
    by_contra hlarge
    have hv : 0xFC < v := by omega
    obtain ⟨tail, htail⟩ := ok_compact_large hv hwrite
    have hfirst : buf'.getD index 0 = UInt8.ofNat (v % 256) := by
      have := congrArg (·.getD 0 0) htail
      simpa [getD_eq_getElem?_getD] using this
    have hbehind : buf'.drop (index + 1) = UInt8.ofNat (v / 4 % 256) :: tail := by
      rw [← drop_drop, htail]
      rfl
    have hbyte : (UInt8.ofNat (v % 256)).toNat = v % 256 := by rw [UInt8.toNat_ofNat']; omega
    have hbyte' : (UInt8.ofNat (v / 4 % 256)).toNat = v / 4 % 256 := by rw [UInt8.toNat_ofNat']; omega
    rcases decode_var_int_cases hread with ⟨-, hx, hval⟩ | ⟨-, hx, hval⟩ | ⟨hn, -, hval⟩ | ⟨hn, -, -⟩
    · -- the low six bits of the second byte would have to be 61, but they are ones
      rw [hfirst] at hx
      rw [hx] at hbyte
      rw [hbehind, take_succ_cons, leNat_cons] at hval
      have : v % 256 = 253 := hbyte.symm
      omega
    · rw [hfirst] at hx
      rw [hx] at hbyte
      rw [hbehind, take_succ_cons, leNat_cons] at hval
      have : v % 256 = 254 := hbyte.symm
      omega
    · have hlt := long_value_lt ((buf'.drop (index + 1)).take 8)
      have := size_nine_iff.1 hn
      omega
    · exact hlarge (size_one_iff.1 hn)
  · intro hv
    have hsize := size_one_iff.2 hv
    rw [hsize] at hbuf ⊢
    have hbyte : (UInt8.ofNat v).toNat = v := by
      rw [UInt8.toNat_ofNat']
      omega
    have hstore : ok (Region.store buf index [UInt8.ofNat v] : BtcRun Bytes)
        (buf.take index ++ [UInt8.ofNat v] ++ buf.drop (index + 1)) :=
      ok_store.2 ⟨⟨by omega, hbuf⟩, rfl⟩
    refine ⟨_, (ok_compact_small hv).2 hstore, ?_⟩
    have hget : (buf.take index ++ [UInt8.ofNat v] ++ buf.drop (index + 1)).getD index 0 = UInt8.ofNat v := by
      have hlen : (buf.take index).length = index := by
        rw [length_take]
        omega
      simp [hlen]
    have hdecode := ok_decode_small (by simp; omega) hget (by rw [UInt8.lt_iff_toNat_lt, hbyte]; show v < 253; omega)
    rwa [hbyte] at hdecode

/-! ## Fixed sizes -/

theorem long_reads_back_iff (hbuf : index + 8 ≤ buf.length) (hv : v < 2 ^ 64) :
    LongReadsBack buf index v ↔ v < 2 ^ 32 := by
  have hvalue : leNat (leFix 8 v) = v := by
    rw [leNat_leFix]
    exact Nat.mod_eq_of_lt (by omega)
  constructor
  · rintro ⟨buf', -, hread⟩
    obtain ⟨-, rfl⟩ := ok_le_to_long.1 hread
    exact long_value_lt _
  · intro hsmall
    obtain ⟨buf', hstore⟩ : ∃ buf', ok (Region.store buf index (leFix 8 v) : BtcRun Bytes) buf' :=
      ⟨_, ok_store.2 ⟨⟨by omega, by rw [length_leFix]; omega⟩, rfl⟩⟩
    have hread := slice_of_ok_store hstore
    have hlen := length_of_ok_store hstore
    refine ⟨buf', long_to_le_eq buf index v ▸ hstore, ok_le_to_long.2 ⟨⟨by omega, by rw [hlen]; omega⟩, ?_⟩⟩
    rw [length_leFix] at hread
    rw [hread, long_value_small (length_leFix 8 v) (by rw [hvalue]; exact hsmall), hvalue]

theorem int_reads_back (hbuf : index + 4 ≤ buf.length) (hv : v < 2 ^ 32) :
    IntReadsBack buf index v := by
  obtain ⟨buf', hstore⟩ : ∃ buf', ok (Region.store buf index (leFix 4 v) : BtcRun Bytes) buf' :=
    ⟨_, ok_store.2 ⟨⟨by omega, by rw [length_leFix]; omega⟩, rfl⟩⟩
  have hread := slice_of_ok_store hstore
  have hlen := length_of_ok_store hstore
  refine ⟨buf', uint_to_le_eq buf index v ▸ hstore, ok_le_to_int.2 ⟨⟨by omega, by rw [hlen]; omega⟩, ?_⟩⟩
  rw [length_leFix] at hread
  rw [hread, leNat_leFix]
  exact Nat.mod_eq_of_lt (by omega)

/-- The codecs at a value of 64 bits: the size of one byte, the low 32 bits and the values of 32 bits are kept. -/
theorem codecs_read_back_iff {v : Nat} (hv : v < 2 ^ 64) (buf : Bytes) (index : Nat) :
    (index + get_compact_uint_size v ≤ buf.length → (CompactReadsBack buf index v ↔ v ≤ 0xFC)) ∧
      (index + 8 ≤ buf.length → (LongReadsBack buf index v ↔ v < 2 ^ 32)) ∧
      (index + 4 ≤ buf.length → v < 2 ^ 32 → IntReadsBack buf index v) :=
  ⟨compact_reads_back_iff, fun h => long_reads_back_iff h hv, int_reads_back⟩

theorem codecs_read_back_at_252 :
    CompactReadsBack (replicate 8 0) 0 252 ∧ LongReadsBack (replicate 8 0) 0 252 ∧
      IntReadsBack (replicate 8 0) 0 252 := by
  have h := codecs_read_back_iff (v := 252) (by decide) (replicate 8 0) 0
  exact ⟨(h.1 (by decide)).2 (by decide), (h.2.1 (by decide)).2 (by decide), h.2.2 (by decide) (by decide)⟩

/-- 253 is read back as 63, and `2 ^ 32` as `2 ^ 24`. -/
theorem codecs_lose_values :
    (ok (long_to_compact_uint [0, 0, 0] 0 253) [253, 63, 0] ∧
      ok (decode_var_int [253, 63, 0] 0) (63, 3) ∧ ¬ CompactReadsBack [0, 0, 0] 0 253) ∧
    (ok (long_to_le (replicate 8 0) 0 (2 ^ 32)) [0, 0, 0, 0, 1, 0, 0, 0] ∧
      ok (le_to_long [0, 0, 0, 0, 1, 0, 0, 0] 0) (2 ^ 24) ∧
      ¬ LongReadsBack (replicate 8 0) 0 (2 ^ 32)) := by
  refine ⟨⟨rfl, rfl, ?_⟩, rfl, rfl, ?_⟩
  · rw [compact_reads_back_iff (by decide)]
    decide
  · rw [long_reads_back_iff (by decide) (by decide)]
    decide

end In3.Btc
