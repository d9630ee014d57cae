import In3.Btc.TargetTheorems
/-!
# Compact bits

Four bytes stand for a target: a mantissa of three bytes and an exponent. The bytes of the target are
written at an offset that is taken from the exponent, for a header and for a verified target alike, and
`mul_target` reads them back through a window of four bytes that ends at the last byte that is set.
-/
open Lib Guarded List Region

namespace In3.Btc

def exponent (bits : Bytes) : Nat := (bits.getD 3 0).toNat

def mantissa (bits : Bytes) : Nat := leNat (bits.take 3)

/-- The number that the bits stand for. -/
def compactValue (bits : Bytes) : Nat := mantissa bits * 256 ^ exponent bits / 256 ^ 3

/-- The exponents for which the bytes of the mantissa are inside of the target. -/
def Fits (bits : Bytes) : Prop := 3 ≤ exponent bits ∧ exponent bits ≤ 32

instance (bits : Bytes) : Decidable (Fits bits) := inferInstanceAs (Decidable (_ ∧ _))

theorem mantissa_lt (bits : Bytes) : mantissa bits < 256 ^ 3 := by
  refine lt_of_lt_of_le (leNat_lt _) (Nat.pow_le_pow_right (by norm_num) ?_)
  rw [length_take]
  omega

variable {bits t : Bytes} {z : Nat}

theorem compactValue_eq (h : Fits bits) : compactValue bits = mantissa bits * 256 ^ (exponent bits - 3) := by
  have hsplit : exponent bits = exponent bits - 3 + 3 := by
    have := h.1
    omega
  unfold compactValue
  rw [hsplit, pow_add, ← Nat.mul_assoc, Nat.mul_div_cancel _ (by positivity), Nat.add_sub_cancel]

/-! ## The target of some bits -/

theorem rev_copy_eq {src : Bytes} (h : src.length = 32) : rev_copy src = src.reverse := by
  unfold rev_copy rev_copyl
  rw [h, take_of_length_le (by omega), replicate_zero, append_nil]

theorem ok_target_from_bits (h : bits.length = 4) :
    ok (target_from_bits bits) t ↔
      Fits bits ∧ t = replicate (32 - exponent bits) 0 ++ (bits.take 3).reverse ++ replicate (exponent bits - 3) 0 := by
  have hlen : (bits.take 3).length = 3 := by
    rw [length_take]
    omega
  unfold target_from_bits
  simp only [ok_bind, ok_store, ok_pure, hlen, length_replicate]
  have he : (bits.getD 3 0).toNat = exponent bits := rfl
  have htoNat : ((exponent bits : Int) - 3).toNat = exponent bits - 3 := by omega
  rw [he, htoNat]
  have hreverse : Fits bits → rev_copy (List.take (exponent bits - 3) (replicate 32 0) ++ bits.take 3 ++
      List.drop (exponent bits - 3 + 3) (replicate 32 0)) =
      replicate (32 - exponent bits) 0 ++ (bits.take 3).reverse ++ replicate (exponent bits - 3) 0 := by
    rintro ⟨hlo, hhi⟩
    rw [rev_copy_eq (by simp only [length_append, length_take, length_drop, length_replicate]; omega)]
    simp only [reverse_append, take_replicate, drop_replicate, reverse_replicate, append_assoc]
    rw [show 32 - (exponent bits - 3 + 3) = 32 - exponent bits by omega, show min (exponent bits - 3) 32 = exponent bits - 3 by omega]
  constructor
  · rintro ⟨tmp, ⟨⟨hlo, hhi⟩, rfl⟩, rfl⟩
    have hfits : Fits bits := ⟨by omega, by omega⟩
    exact ⟨hfits, hreverse hfits⟩
  · rintro ⟨hfits, rfl⟩
    obtain ⟨hlo, hhi⟩ := hfits
    exact ⟨_, ⟨⟨by omega, by omega⟩, rfl⟩, hreverse ⟨hlo, hhi⟩⟩

theorem length_of_target (h : bits.length = 4) (ht : ok (target_from_bits bits) t) : t.length = 32 := by
  obtain ⟨⟨hlo, hhi⟩, rfl⟩ := (ok_target_from_bits h).1 ht
  simp only [length_append, length_replicate, length_reverse, length_take]
  omega

theorem beNat_of_target (h : bits.length = 4) (ht : ok (target_from_bits bits) t) :
    beNat t = mantissa bits * 256 ^ (exponent bits - 3) := by
  obtain ⟨-, rfl⟩ := (ok_target_from_bits h).1 ht
  rw [beNat_append, beNat_zeros, beNat_replicate_zero, beNat_reverse, length_replicate, Nat.add_zero, mantissa]

/-- A target is right if it has the value of its bits whenever that has 256 bits. -/
def IsTarget (bits t : Bytes) : Prop := compactValue bits < 2 ^ 256 → beNat t = compactValue bits

theorem target_from_bits_iff (h : bits.length = 4) :
    (∃ t, ok (target_from_bits bits) t ∧ IsTarget bits t) ↔ Fits bits := by
  constructor
  · rintro ⟨t, ht, -⟩
    exact ((ok_target_from_bits h).1 ht).1
  · intro hfits
    have ht := (ok_target_from_bits h).2 ⟨hfits, rfl⟩
    refine ⟨_, ht, fun _ => ?_⟩
    rw [beNat_of_target h ht, compactValue_eq hfits]

/-! ## The closest verified target -/

def entryDap (x : Bytes) : Nat := beNat (x.take 2)
def entryBits (x : Bytes) : Bytes := (x.drop 2).take 4

/-- The search reads the bits of this entry: it is closer than `dist` and than every entry in front of it. -/
def Reads (dap dist : Nat) (entries : List Bytes) (x : Bytes) : Prop :=
  ∃ pre post, entries = pre ++ x :: post ∧ dap_dist dap (entryDap x) < dist ∧
    ∀ y ∈ pre, dap_dist dap (entryDap x) < dap_dist dap (entryDap y)

variable {dap dist n v : Nat} {entries : List Bytes} {x : Bytes}

theorem not_reads_nil : ¬ Reads dap dist [] x := by
  rintro ⟨pre, post, h, -⟩
  simp at h

theorem reads_cons {e : Bytes} :
    Reads dap dist (e :: entries) x ↔
      (x = e ∧ dap_dist dap (entryDap e) < dist) ∨ Reads dap (min dist (dap_dist dap (entryDap e))) entries x := by
  constructor
  · rintro ⟨pre, post, hsplit, hdist, hpre⟩
    cases pre with
    | nil =>
      obtain ⟨rfl, rfl⟩ := List.cons.inj hsplit
      exact .inl ⟨rfl, hdist⟩
    | cons y pre =>
      obtain ⟨rfl, htail⟩ := List.cons.inj hsplit
      refine .inr ⟨pre, post, htail, lt_min hdist (hpre _ mem_cons_self), fun y hy => hpre y (mem_cons_of_mem _ hy)⟩
  · rintro (⟨rfl, hdist⟩ | ⟨pre, post, hsplit, hdist, hpre⟩)
    · exact ⟨[], entries, rfl, hdist, by simp⟩
    · obtain ⟨hd, he⟩ := lt_min_iff.1 hdist
      refine ⟨e :: pre, post, by rw [hsplit]; rfl, hd, ?_⟩
      intro y hy
      rcases mem_cons.1 hy with rfl | hy
      · exact he
      · exact hpre y hy

/-- The result of the search: what it started with if nothing was closer, or the target of the closest entry. -/
def Closest (dap dist : Nat) (entries : List Bytes) (start : Nat × Bytes) (r : Nat × Bytes) : Prop :=
  (r = start ∧ ∀ y ∈ entries, dist ≤ dap_dist dap (entryDap y)) ∨
    ∃ x ∈ entries, dap_dist dap (entryDap x) < dist ∧ (∀ y ∈ entries, dap_dist dap (entryDap x) ≤ dap_dist dap (entryDap y)) ∧
      r.1 = entryDap x ∧ IsTarget (entryBits x) r.2

section Search
variable {dap : Nat} {data : Bytes} {p fuel found dist : Nat} {target : Bytes} {r : Nat × Bytes}

theorem closest_loop_nil (hp : p ≤ data.length) (hdata : data.drop p = []) :
    ok (closest_loop data dap (fuel + 1) p found dist target) r ↔ r = (found, target) := by
  have hend : p = data.length := le_antisymm hp (drop_eq_nil_iff.1 hdata)
  rw [closest_loop, if_pos hend, ok_pure, eq_comm]

variable {e : Bytes}

theorem length_entryBits (he : e.length = 6) : (entryBits e).length = 4 := by
  rw [entryBits, length_take, length_drop]
  omega

variable {entries : List Bytes} {rest : Bytes}

theorem drop_entry (he : e.length = 6) (hdata : data.drop p = e ++ rest) :
    p + 6 ≤ data.length ∧ data.drop (p + 6) = rest := by
  constructor
  · have := congrArg List.length hdata
    rw [length_drop, length_append] at this
    omega
  · rw [← drop_drop, hdata, ← he, drop_left]

theorem closest_loop_cons (he : e.length = 6) (hdata : data.drop p = e ++ rest) :
    ok (closest_loop data dap (fuel + 1) p found dist target) r ↔
      if dap_dist dap (entryDap e) < dist then
        ∃ t, ok (target_from_bits (entryBits e)) t ∧
          if dap_dist dap (entryDap e) = 0 then r = (entryDap e, t)
          else ok (closest_loop data dap fuel (p + 6) (entryDap e) (dap_dist dap (entryDap e)) t) r
      else ok (closest_loop data dap fuel (p + 6) found dist target) r := by
  have hlen : data.length - p = 6 + rest.length := by
    rw [← length_drop, hdata, length_append, he]
  have hdap : (data.drop p).take 2 = e.take 2 := by
    rw [hdata, take_append_of_le_length (by omega)]
  have hbits : (data.drop (p + 2)).take 4 = entryBits e := by
    rw [← drop_drop, hdata, drop_append_of_le_length (by omega), take_append_of_le_length
      (by rw [length_drop]; omega), entryBits]
  have hoff : ((p : Int) + 2).toNat = p + 2 := by omega
  rw [closest_loop, if_neg (by omega), slice_eq_pure (by omega), slice_eq_pure (by omega)]
  have hentry : beNat (e.take 2) = entryDap e := rfl
  simp only [pure_bind, Int.toNat_natCast, hoff, hdap, hbits, hentry]
  split_ifs with hd hz
  · simp only [ok_bind, ok_pure, eq_comm]
  · rw [ok_bind]
  · exact Iff.rfl

theorem closest_loop_sound (h6 : ∀ x ∈ entries, x.length = 6) (hp : p ≤ data.length)
    (hdata : data.drop p = entries.flatten) (h : ok (closest_loop data dap fuel p found dist target) r) :
    (∀ x, Reads dap dist entries x → Fits (entryBits x)) ∧ Closest dap dist entries (found, target) r := by
  induction entries generalizing p fuel found dist target with
  | nil =>
    cases fuel with
    | zero => exact absurd h ok_fault
    | succ fuel =>
      refine ⟨fun x hx => absurd hx not_reads_nil, .inl ⟨(closest_loop_nil hp hdata).1 h, by simp⟩⟩
  | cons e entries ih =>
    cases fuel with
    | zero => exact absurd h ok_fault
    | succ fuel =>
      have he := h6 e mem_cons_self
      have h6' : ∀ x ∈ entries, x.length = 6 := fun x hx => h6 x (mem_cons_of_mem _ hx)
      have hbits := length_entryBits he
      obtain ⟨hle, hnext⟩ := drop_entry he hdata
      rw [closest_loop_cons he hdata] at h
      by_cases hd : dap_dist dap (entryDap e) < dist
      · rw [if_pos hd] at h
        obtain ⟨t, ht, h⟩ := h
        have hfits := ((ok_target_from_bits hbits).1 ht).1
        have htarget : IsTarget (entryBits e) t := fun _ => by rw [beNat_of_target hbits ht, compactValue_eq hfits]
        by_cases hz : dap_dist dap (entryDap e) = 0
        · -- nothing is closer than an entry of the same period
          rw [if_pos hz] at h
          refine ⟨fun x hx => ?_, .inr ⟨e, mem_cons_self, hd, fun y _ => by omega, by rw [h], by rw [h]; exact htarget⟩⟩
          rcases reads_cons.1 hx with ⟨rfl, -⟩ | ⟨-, -, -, hlt, -⟩
          · exact hfits
          · omega
        · rw [if_neg hz] at h
          obtain ⟨hreads, hclosest⟩ := ih h6' hle hnext h
          refine ⟨fun x hx => ?_, ?_⟩
          · rcases reads_cons.1 hx with ⟨rfl, -⟩ | hx
            · exact hfits
            · rw [min_eq_right (le_of_lt hd)] at hx
              exact hreads x hx
          · rcases hclosest with ⟨rfl, hall⟩ | ⟨x, hx, hlt, hall, hr⟩
            · refine .inr ⟨e, mem_cons_self, hd, ?_, rfl, htarget⟩
              intro y hy
              rcases mem_cons.1 hy with rfl | hy
              · exact le_rfl
              · exact hall y hy
            · refine .inr ⟨x, mem_cons_of_mem _ hx, by omega, ?_, hr⟩
              intro y hy
              rcases mem_cons.1 hy with rfl | hy
              · exact le_of_lt hlt
              · exact hall y hy
      · rw [if_neg hd] at h
        obtain ⟨hreads, hclosest⟩ := ih h6' hle hnext h
        refine ⟨fun x hx => ?_, ?_⟩
        · rcases reads_cons.1 hx with ⟨rfl, hlt⟩ | hx
          · exact absurd hlt hd
          · rw [min_eq_left (by omega)] at hx
            exact hreads x hx
        · rcases hclosest with ⟨rfl, hall⟩ | ⟨x, hx, hlt, hall, hr⟩
          · refine .inl ⟨rfl, ?_⟩
            intro y hy
            rcases mem_cons.1 hy with rfl | hy
            · omega
            · exact hall y hy
          · refine .inr ⟨x, mem_cons_of_mem _ hx, hlt, ?_, hr⟩
            intro y hy
            rcases mem_cons.1 hy with rfl | hy
            · omega
            · exact hall y hy

theorem closest_loop_total (h6 : ∀ x ∈ entries, x.length = 6) (hp : p ≤ data.length)
    (hdata : data.drop p = entries.flatten) (hfuel : entries.length < fuel)
    (h : ∀ x, Reads dap dist entries x → Fits (entryBits x)) :
    ∃ r, ok (closest_loop data dap fuel p found dist target) r := by
  induction entries generalizing p fuel found dist target with
  | nil =>
    obtain ⟨fuel, rfl⟩ := Nat.exists_eq_add_of_lt hfuel
    exact ⟨_, (closest_loop_nil hp hdata).2 rfl⟩
  | cons e entries ih =>
    obtain ⟨fuel, rfl⟩ : ∃ n, fuel = n + 1 := ⟨fuel - 1, by omega⟩
    have he := h6 e mem_cons_self
    have h6' : ∀ x ∈ entries, x.length = 6 := fun x hx => h6 x (mem_cons_of_mem _ hx)
    have hbits := length_entryBits he
    obtain ⟨hle, hnext⟩ := drop_entry he hdata
    have hfuel' : entries.length < fuel := by simpa using hfuel
    simp only [closest_loop_cons he hdata]
    by_cases hd : dap_dist dap (entryDap e) < dist
    · simp only [hd]
      have hfits := h e (reads_cons.2 (.inl ⟨rfl, hd⟩))
      have ht := (ok_target_from_bits hbits).2 ⟨hfits, rfl⟩
      by_cases hz : dap_dist dap (entryDap e) = 0
      · exact ⟨_, _, ht, by rw [if_pos hz]⟩
      · obtain ⟨r, hr⟩ := ih h6' hle hnext hfuel' fun x hx =>
          h x (reads_cons.2 (.inr (by rwa [min_eq_right (le_of_lt hd)])))
        exact ⟨r, _, ht, by rw [if_neg hz]; exact hr⟩
    · simp only [hd]
      exact ih h6' hle hnext hfuel' fun x hx => h x (reads_cons.2 (.inr (by rwa [min_eq_left (by omega)])))

end Search

theorem closest_target_iff {tc : TargetConf} (h6 : ∀ x ∈ entries, x.length = 6)
    (hdata : tc.data = entries.flatten) (dap : Nat) (target : Bytes) :
    (∃ r, ok (btc_get_closest_target tc dap target) r ∧ Closest dap 0xFFFFFFFF entries (0, target) r) ↔
      ∀ x, Reads dap 0xFFFFFFFF entries x → Fits (entryBits x) := by
  have hlen : tc.data.length = 6 * entries.length := by rw [hdata, length_flatten_of_forall h6]
  unfold btc_get_closest_target
  by_cases hempty : tc.data.length = 0
  · have hnil : entries = [] := length_eq_zero_iff.1 (by omega)
    simp only [hempty]
    rw [hnil]
    exact ⟨fun _ x hx => absurd hx not_reads_nil, fun _ => ⟨_, ok_pure.2 rfl, .inl ⟨rfl, by simp⟩⟩⟩
  · simp only [hempty]
    constructor
    · rintro ⟨r, hr, -⟩
      exact (closest_loop_sound h6 (Nat.zero_le _) hdata hr).1
    · intro hfits
      have hfuel : entries.length < tc.data.length / 6 + 2 := by omega
      obtain ⟨r, hr⟩ := closest_loop_total h6 (Nat.zero_le _) hdata hfuel hfits
      exact ⟨r, hr, (closest_loop_sound h6 (Nat.zero_le _) hdata hr).2⟩

/-! ## A percentage of a target -/

theorem last_set_eq {i : Nat} (hi : i < n) (hset : t.getD i 0 ≠ 0)
    (hzero : ∀ j, i < j → j < n → t.getD j 0 = 0) : last_set t n = some i := by
  induction n with
  | zero => omega
  | succ n ih =>
    rw [last_set]
    rcases Nat.lt_succ_iff_lt_or_eq.1 hi with hlt | rfl
    · rw [hzero n hlt (by omega)]
      exact ih hlt fun j hj hjn => hzero j hj (by omega)
    · rw [if_pos hset]

theorem last_set_none (h : ∀ j, j < n → t.getD j 0 = 0) : last_set t n = none := by
  induction n with
  | zero => rfl
  | succ n ih =>
    rw [last_set, h n (by omega)]
    exact ih fun j hj => h j (by omega)

/-- The bytes of the mantissa that are zero below the first one that is set. -/
def lowZeros (bits : Bytes) : Nat := if bits.getD 0 0 ≠ 0 then 0 else if bits.getD 1 0 ≠ 0 then 1 else 2

def upperMantissa (bits : Bytes) : Nat := mantissa bits / 256 ^ lowZeros bits

theorem upperMantissa_mul (h : bits.length = 4) :
    upperMantissa bits * 256 ^ lowZeros bits = mantissa bits := by
  apply Nat.div_mul_cancel
  match bits, h with
  | [a, b, c, e], _ =>
    show 256 ^ (if a ≠ 0 then 0 else if b ≠ 0 then 1 else 2) ∣ leNat [a, b, c]
    split_ifs with ha hb
    · exact ⟨_, (Nat.one_mul _).symm⟩
    · obtain rfl := not_not.1 ha
      exact ⟨leNat [b, c], by simp only [leNat_cons]; simp⟩
    · obtain rfl := not_not.1 ha
      obtain rfl := not_not.1 hb
      exact ⟨leNat [c], by simp only [leNat_cons]; simp; omega⟩

theorem getD_between_zeros (a b c : UInt8) (m n j : Nat) :
    (replicate m 0 ++ [c, b, a] ++ replicate n 0).getD j 0 =
      if j = m then c else if j = m + 1 then b else if j = m + 2 then a else 0 := by
  rw [getD_eq_getElem?_getD, append_assoc]
  rcases Nat.lt_or_ge j m with hlt | hge
  · rw [List.getElem?_append_left (by simpa using hlt), List.getElem?_replicate, if_pos hlt, if_neg (by omega), if_neg (by omega),
      if_neg (by omega)]
    rfl
  · rw [List.getElem?_append_right (by simpa using hge), length_replicate]
    obtain ⟨i, rfl⟩ := Nat.exists_eq_add_of_le hge
    rw [Nat.add_sub_cancel_left]
    match i with
    | 0 => simp
    | 1 => simp
    | 2 => simp
    | i + 3 =>
      rw [if_neg (by omega), if_neg (by omega), if_neg (by omega)]
      simp only [cons_append, nil_append, List.getElem?_cons_succ, List.getElem?_replicate]
      split <;> rfl

theorem mul_window_eq (h : bits.length = 4) (ht : ok (target_from_bits bits) t)
    (hm : mantissa bits ≠ 0) : mul_window t = 31 - exponent bits - lowZeros bits := by
  obtain ⟨⟨hlo, hhi⟩, rfl⟩ := (ok_target_from_bits h).1 ht
  match bits, h with
  | [a, b, c, e], _ =>
    have hbytes : (List.take 3 [a, b, c, e]).reverse = [c, b, a] := rfl
    have hzeros : lowZeros [a, b, c, e] = if a ≠ 0 then 0 else if b ≠ 0 then 1 else 2 := rfl
    rw [hbytes, hzeros]
    generalize exponent [a, b, c, e] = E at *
    have hget := getD_between_zeros a b c (32 - E) (E - 3)
    unfold mul_window
    by_cases ha : a = 0
    · by_cases hb : b = 0
      · have hc : c ≠ 0 := by
          rintro rfl
          subst ha hb
          exact hm rfl
        rw [last_set_eq (i := 32 - E) (by omega) (by rw [hget, if_pos rfl]; exact hc)
          fun j hj _ => by rw [hget, if_neg (by omega), ha, hb]; simp]
        simp only [ha, hb, ne_eq, not_true_eq_false, if_false]
        omega
      · rw [last_set_eq (i := 33 - E) (by omega) (by rw [hget, if_neg (by omega), if_pos (by omega)]; exact hb)
          fun j hj _ => by rw [hget, if_neg (by omega), if_neg (by omega), ha]; simp]
        simp only [ha, ne_eq, not_true_eq_false, if_false, hb, not_false_eq_true, if_true]
        omega
    · rw [last_set_eq (i := 34 - E) (by omega)
        (by rw [hget, if_neg (by omega), if_neg (by omega), if_pos (by omega)]; exact ha)
        fun j hj _ => by rw [hget, if_neg (by omega), if_neg (by omega), if_neg (by omega)]]
      simp only [ha, ne_eq, not_false_eq_true, if_true]
      omega

theorem mul_window_zero (h : bits.length = 4) (ht : ok (target_from_bits bits) t)
    (hm : mantissa bits = 0) : mul_window t = 28 := by
  have hlen := length_of_target h ht
  have hzero : t = replicate 32 0 := by
    apply beNat_inj
    · rw [hlen, length_replicate]
    · rw [beNat_of_target h ht, hm, beNat_replicate_zero, Nat.zero_mul]
  have hnone : last_set t 32 = none := by
    rw [hzero]
    exact last_set_none fun j hj => by rw [getD_eq_getElem?_getD, List.getElem?_replicate, if_pos hj]; rfl
  unfold mul_window
  rw [hnone]

theorem window_value {w : Bytes} (hlen : t.length = 32) (hz : z ≤ 28) (hv : v < 256 ^ 4)
    (ht : beNat t = v * 256 ^ z) :
    beNat ((t.drop (28 - z)).take 4) = v ∧ beNat (t.take (28 - z) ++ w ++ t.drop (28 - z + 4)) = beNat w * 256 ^ z := by
  have hsplit : t = t.take (28 - z) ++ ((t.drop (28 - z)).take 4 ++ t.drop (28 - z + 4)) := by
    rw [← drop_drop, take_append_drop, take_append_drop]
  have hwin : ((t.drop (28 - z)).take 4).length = 4 := by
    rw [length_take, length_drop]
    omega
  have htail : (t.drop (28 - z + 4)).length = z := by
    rw [length_drop]
    omega
  have hvalue := congrArg beNat hsplit
  rw [ht, ← append_assoc, beNat_append, beNat_append, hwin, htail] at hvalue
  have hlt := beNat_lt (t.drop (28 - z + 4))
  have hlt' := beNat_lt ((t.drop (28 - z)).take 4)
  rw [htail] at hlt
  rw [hwin] at hlt'
  -- digits to the base `256 ^ z`, and then to the base `256 ^ 4`
  obtain ⟨hhigh, hlow⟩ := (digit_eq_iff (a := v) (m := 0) (by positivity) hlt).1 (by rw [Nat.add_zero]; exact hvalue)
  obtain ⟨hfront, hmid⟩ : 0 = beNat (t.take (28 - z)) ∧ v = beNat ((t.drop (28 - z)).take 4) :=
    (digit_eq_iff hv hlt').1 (by rw [Nat.zero_mul, Nat.zero_add]; exact hhigh)
  refine ⟨hmid.symm, ?_⟩
  rw [beNat_append, beNat_append, htail, ← hfront, ← hlow, Nat.zero_mul, Nat.zero_add, Nat.add_zero]

theorem mul_target_value {t' : Bytes} {percent : Nat} (hlen : t.length = 32) (hv : v < 256 ^ 3) (ht : beNat t = v * 256 ^ z)
    (hwin : mul_window t = 28 - z) (h : ok (mul_target percent t) t') :
    z ≤ 28 ∧ beNat t' = (v + percent * v % 2 ^ 32 / 100) * 256 ^ z := by
  unfold mul_target at h
  simp only [ok_bind, ok_slice, ok_store, hwin] at h
  obtain ⟨w, ⟨⟨hlo, -⟩, rfl⟩, -, rfl⟩ := h
  have hz : z ≤ 28 := by omega
  have hoff : ((28 : Int) - z).toNat = 28 - z := by omega
  refine ⟨hz, ?_⟩
  obtain ⟨hread, -⟩ := window_value (w := []) hlen hz (by omega) ht
  rw [hoff, int_to_bytes, length_beFix]
  rw [(window_value hlen hz (by omega) ht).2, beNat_beFix, bytes_to_int, take_take, Nat.min_self, hread]
  rw [show (256 : Nat) ^ 4 = 2 ^ 32 by norm_num, Nat.mod_mod, Nat.mod_eq_of_lt (by omega)]

theorem mul_target_total (percent : Nat) (hlen : t.length = 32) (hz : z ≤ 28)
    (hwin : mul_window t = 28 - z) : ∃ t', ok (mul_target percent t) t' := by
  unfold mul_target
  simp only [ok_bind, ok_slice, ok_store, int_to_bytes, length_beFix]
  exact ⟨_, _, ⟨⟨by omega, by omega⟩, rfl⟩, ⟨by omega, by omega⟩, rfl⟩

/-- Whether `mul_target` adds the percentage of the mantissa: the window is inside of the target, nothing is cut off at
32 bits, and no part of the percentage falls below the window. -/
def Scalable (percent : Nat) (bits : Bytes) : Prop :=
  mantissa bits = 0 ∨ (exponent bits + lowZeros bits ≤ 31 ∧ percent * upperMantissa bits < 2 ^ 32 ∧
    (lowZeros bits = 0 ∨ 100 ∣ percent * upperMantissa bits))

instance (percent : Nat) (bits : Bytes) : Decidable (Scalable percent bits) :=
  inferInstanceAs (Decidable (_ ∨ (_ ∧ _ ∧ (_ ∨ _))))

theorem lowZeros_le (bits : Bytes) : lowZeros bits ≤ 2 := by
  unfold lowZeros
  split_ifs <;> omega

theorem percentage_iff (n k : Nat) (hk : k ≤ 2) :
    n % 2 ^ 32 / 100 * 256 ^ k = n * 256 ^ k / 100 ↔ n < 2 ^ 32 ∧ (k = 0 ∨ 100 ∣ n) := by
  interval_cases k
  · omega
  · omega
  · omega

theorem mul_target_iff (h : bits.length = 4) (ht : ok (target_from_bits bits) t) (percent : Nat) :
    (∃ t', ok (mul_target percent t) t' ∧
      beNat t' = (mantissa bits + mantissa bits * percent / 100) * 256 ^ (exponent bits - 3)) ↔ Scalable percent bits := by
  have hlen := length_of_target h ht
  have hvalue := beNat_of_target h ht
  obtain ⟨hlo, hhi⟩ := ((ok_target_from_bits h).1 ht).1
  unfold Scalable
  by_cases hm : mantissa bits = 0
  · have hwin := mul_window_zero h ht hm
    obtain ⟨t', ht'⟩ := mul_target_total (z := 0) percent hlen (by omega) (by rw [hwin]; rfl)
    have hzero := (mul_target_value (v := 0) (z := 0) hlen (by norm_num) (by rw [hvalue, hm]; simp) (by rw [hwin]; rfl) ht').2
    simp only [hm, true_or, iff_true]
    exact ⟨t', ht', by rw [hzero]; simp⟩
  · have hmul := upperMantissa_mul h
    have hk := lowZeros_le bits
    have hlt : upperMantissa bits < 256 ^ 3 := lt_of_le_of_lt (Nat.div_le_self _ _) (mantissa_lt bits)
    have hwin : mul_window t = 28 - (exponent bits + lowZeros bits - 3 : Nat) := by
      rw [mul_window_eq h ht hm]
      omega
    have hshift : beNat t = upperMantissa bits * 256 ^ (exponent bits + lowZeros bits - 3) := by
      rw [hvalue, ← hmul, Nat.mul_assoc, ← pow_add, show lowZeros bits + (exponent bits - 3) = exponent bits + lowZeros bits - 3 by omega]
    -- both sides as multiples of `256 ^ (exponent - 3)`
    have hexact : (upperMantissa bits + percent * upperMantissa bits % 2 ^ 32 / 100) * 256 ^ (exponent bits + lowZeros bits - 3) =
        (mantissa bits + mantissa bits * percent / 100) * 256 ^ (exponent bits - 3) ↔
        percent * upperMantissa bits < 2 ^ 32 ∧ (lowZeros bits = 0 ∨ 100 ∣ percent * upperMantissa bits) := by
      rw [show exponent bits + lowZeros bits - 3 = lowZeros bits + (exponent bits - 3) by omega, pow_add, ← Nat.mul_assoc,
        Nat.mul_left_inj (by positivity), Nat.add_mul, hmul, Nat.add_left_cancel_iff, ← percentage_iff _ _ hk,
        ← hmul, show upperMantissa bits * 256 ^ lowZeros bits * percent = percent * upperMantissa bits * 256 ^ lowZeros bits by ring]
    simp only [hm, false_or]
    rw [← hexact]
    constructor
    · rintro ⟨t', ht', heq⟩
      obtain ⟨hz, hval⟩ := mul_target_value hlen hlt hshift hwin ht'
      exact ⟨by omega, by rw [← hval, heq]⟩
    · rintro ⟨hin, heq⟩
      obtain ⟨t', ht'⟩ := mul_target_total percent hlen (by omega) hwin
      exact ⟨t', ht', by rw [(mul_target_value hlen hlt hshift hwin ht').2, heq]⟩

/-- The target of a header, the search for a verified target and the scaling of one: what they need of the bits. -/
theorem compact_targets_iff {header : Bytes} (hheader : header.length = 80) {tc : TargetConf} {entries : List Bytes}
    (h6 : ∀ x ∈ entries, x.length = 6) (hdata : tc.data = entries.flatten) (dap : Nat) (target : Bytes) {bits t : Bytes}
    (hbits : bits.length = 4) (ht : ok (target_from_bits bits) t) (percent : Nat) :
    ((∃ t, ok (btc_target_from_block header) t ∧ IsTarget (btc_block_get header .BTC_B_BITS) t) ↔
      Fits (btc_block_get header .BTC_B_BITS)) ∧
    ((∃ r, ok (btc_get_closest_target tc dap target) r ∧ Closest dap 0xFFFFFFFF entries (0, target) r) ↔
      ∀ x, Reads dap 0xFFFFFFFF entries x → Fits (entryBits x)) ∧
    ((∃ t', ok (mul_target percent t) t' ∧
      beNat t' = (mantissa bits + mantissa bits * percent / 100) * 256 ^ (exponent bits - 3)) ↔ Scalable percent bits) := by
  refine ⟨?_, closest_target_iff h6 hdata dap target, mul_target_iff hbits ht percent⟩
  apply target_from_bits_iff
  rw [btc_block_get, length_take, length_drop]
  omega

theorem compact_targets_at_genesis :
    (∃ t, ok (btc_target_from_block (replicate 72 0 ++ [0xFF, 0xFF, 0, 0x1D] ++ replicate 4 0)) t ∧
      IsTarget [0xFF, 0xFF, 0, 0x1D] t) ∧
    (∃ r, ok (btc_get_closest_target ⟨[0, 10, 0xFF, 0xFF, 0, 0x1D], 20, 10, 20⟩ 12 []) r ∧
      Closest 12 0xFFFFFFFF [[0, 10, 0xFF, 0xFF, 0, 0x1D]] (0, []) r) ∧
    (∃ t', ok (mul_target 10 (replicate 3 0 ++ [0, 0xFF, 0xFF] ++ replicate 26 0)) t' ∧
      beNat t' = (0xFFFF + 0xFFFF * 10 / 100) * 256 ^ 26) := by
  have hheader : (replicate 72 0 ++ [0xFF, 0xFF, 0, 0x1D] ++ replicate 4 0 : Bytes).length = 80 := rfl
  have h6 : ∀ x ∈ ([[0, 10, 0xFF, 0xFF, 0, 0x1D]] : List Bytes), x.length = 6 := by simp
  have hdata : (TargetConf.mk [0, 10, 0xFF, 0xFF, 0, 0x1D] 20 10 20).data = [[0, 10, 0xFF, 0xFF, 0, 0x1D]].flatten := rfl
  have hbits : ([0xFF, 0xFF, 0, 0x1D] : Bytes).length = 4 := rfl
  obtain ⟨hblock, hsearch, hscale⟩ := compact_targets_iff hheader h6 hdata 12 [] hbits rfl 10
  refine ⟨hblock.2 (by decide), hsearch.2 ?_, hscale.2 (by decide)⟩
  intro x hx
  rcases reads_cons.1 hx with ⟨rfl, -⟩ | hx
  · decide
  · exact absurd hx not_reads_nil

/-- The exponent 33 writes behind the target although the value has 256 bits, the exponent 2 writes in front of it, and
ten percent of the mantissa `0x100` are lost. -/
theorem compact_targets_lost :
    (compactValue [1, 0, 0, 33] < 2 ^ 256 ∧
      Guarded.faults (btc_target_from_block (replicate 72 0 ++ [1, 0, 0, 33] ++ replicate 4 0)) (.write 30 32)) ∧
    Guarded.faults (btc_target_from_block (replicate 72 0 ++ [0, 0, 1, 2] ++ replicate 4 0)) (.write (-1) 32) ∧
    Guarded.faults (btc_get_closest_target ⟨[0, 10, 1, 0, 0, 33], 20, 10, 20⟩ 12 []) (.write 30 32) ∧
    ok (target_from_bits [0, 1, 0, 0x1D]) (replicate 4 0 ++ [1] ++ replicate 27 0) ∧
    ok (mul_target 10 (replicate 4 0 ++ [1] ++ replicate 27 0))
      (replicate 4 0 ++ [1] ++ replicate 27 0) := by
  refine ⟨⟨by decide, by decide⟩, by decide, by decide, rfl, by decide⟩

end In3.Btc
