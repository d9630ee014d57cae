import In3.Evm.Blake2
import In3.Lib.Blake2b
import In3.Lib.LittleEndian
/-!
# The BLAKE2 contract and EIP-152

`eip152` is what the contract has to return. The mixing is the one of BLAKE2b, although it writes the words of the state one by
one, and the table gives the right rows for the first twelve rounds. What is returned is too long for all data, though.
-/
open Lib Guarded

namespace In3.Evm.Blake2

/-! ## EIP-152 -/

def word (data : Bytes) (p : Nat) : UInt64 := UInt64.ofNat (leNat ((data.drop p).take 8))

def state_bytes (h : Vector UInt64 8) : Bytes := (List.finRange 8).flatMap fun i => leFix 8 (h.get i).toNat

def round_count (data : Bytes) : Nat := beNat (data.take 4)

/-- The new state, for data of any length. -/
def new_state (data : Bytes) : Bytes :=
  state_bytes (Blake2b.compress (round_count data) (Vector.ofFn fun i => word data (4 + 8 * i))
    (Vector.ofFn fun i => word data (68 + 8 * i)) (word data 196) (word data 204) (data.getD 212 0 = 1))

/-- The result; `none` if the contract fails. -/
def eip152 (data : Bytes) : Option Bytes := if data.length = 213 ∧ data.getD 212 0 ≤ 1 then some (new_state data) else none

/-! ## Words and bytes -/

variable {data out : Bytes} {fresh : Vector UInt8 128} {m v : Vector UInt64 16} {r : Nat}

theorem le_to_long_eq {p : Nat} (h : p + 8 ≤ data.length) : le_to_long data p = word data p := by
  obtain ⟨a, b, c, d, e, f, g, i, hbytes⟩ : ∃ a b c d e f g i, (data.drop p).take 8 = [a, b, c, d, e, f, g, i] := by
    have hlen : ((data.drop p).take 8).length = 8 := by
      rw [List.length_take, List.length_drop]
      omega
    match (data.drop p).take 8, hlen with
    | [a, b, c, d, e, f, g, i], _ => exact ⟨a, b, c, d, e, f, g, i, rfl⟩
  have hget : ∀ k, k < 8 → data.getD (p + k) 0 = [a, b, c, d, e, f, g, i].getD k 0 := by
    intro k hk
    rw [← hbytes, List.getD_eq_getElem?_getD, List.getD_eq_getElem?_getD, List.getElem?_take_of_lt hk, List.getElem?_drop]
  have ha := a.toNat_lt
  have hb := b.toNat_lt
  have hc := c.toNat_lt
  have hd := d.toNat_lt
  have he := e.toNat_lt
  have hf := f.toNat_lt
  have hg := g.toNat_lt
  rw [le_to_long, word, hbytes]
  dsimp only
  rw [hget 0 (by omega), hget 1 (by omega), hget 2 (by omega), hget 3 (by omega), hget 4 (by omega), hget 5 (by omega),
    hget 6 (by omega), hget 7 (by omega)]
  simp only [List.getD_cons_zero, List.getD_cons_succ, leNat_cons, leNat_nil]
  rw [Nat.or_comm a.toNat, Lib.shift_or (by omega : a.toNat < 2 ^ 8), Nat.or_comm _ (c.toNat <<< 16),
    Lib.shift_or (by omega : a.toNat + 2 ^ 8 * b.toNat < 2 ^ 16), Nat.or_comm _ (d.toNat <<< 24),
    Lib.shift_or (by omega : a.toNat + 2 ^ 8 * b.toNat + 2 ^ 16 * c.toNat < 2 ^ 24), Nat.or_comm _ (e.toNat <<< 32),
    Lib.shift_or (by omega : a.toNat + 2 ^ 8 * b.toNat + 2 ^ 16 * c.toNat + 2 ^ 24 * d.toNat < 2 ^ 32),
    Nat.or_comm _ (f.toNat <<< 40),
    Lib.shift_or (by omega : a.toNat + 2 ^ 8 * b.toNat + 2 ^ 16 * c.toNat + 2 ^ 24 * d.toNat + 2 ^ 32 * e.toNat < 2 ^ 40),
    Nat.or_comm _ (g.toNat <<< 48),
    Lib.shift_or (by omega : a.toNat + 2 ^ 8 * b.toNat + 2 ^ 16 * c.toNat + 2 ^ 24 * d.toNat + 2 ^ 32 * e.toNat +
      2 ^ 40 * f.toNat < 2 ^ 48), Nat.or_comm _ (i.toNat <<< 56),
    Lib.shift_or (by omega : a.toNat + 2 ^ 8 * b.toNat + 2 ^ 16 * c.toNat + 2 ^ 24 * d.toNat + 2 ^ 32 * e.toNat +
      2 ^ 40 * f.toNat + 2 ^ 48 * g.toNat < 2 ^ 56)]
  congr 1
  omega

theorem toUInt8_shift (val : UInt64) (k : UInt64) (hk : k.toNat < 64) :
    (val >>> k).toUInt8 = UInt8.ofNat (val.toNat / 2 ^ k.toNat % 256) := by
  apply UInt8.toNat_inj.1
  rw [UInt64.toNat_toUInt8, UInt64.toNat_shiftRight, UInt8.toNat_ofNat', Nat.mod_eq_of_lt hk]
  omega

theorem le_from_long_eq (val : UInt64) : le_from_long val = leFix 8 val.toNat := by
  have hfirst : val.toUInt8 = UInt8.ofNat (val.toNat % 256) := by
    apply UInt8.toNat_inj.1
    rw [UInt64.toNat_toUInt8, UInt8.toNat_ofNat']
    omega
  simp only [le_from_long, leFix, hfirst, toUInt8_shift val 8 (by decide), toUInt8_shift val 16 (by decide),
    toUInt8_shift val 24 (by decide), toUInt8_shift val 32 (by decide), toUInt8_shift val 40 (by decide),
    toUInt8_shift val 48 (by decide), toUInt8_shift val 56 (by decide), Nat.div_div_eq_div_mul]
  rfl

/-! ## Mixing -/

theorem get_set {n : Nat} (v : Vector UInt64 n) (a b : Fin n) (x : UInt64) : (v.set a x).get b = if b = a then x else v.get b := by
  show (v.set a x)[b.val] = if b = a then x else v[b.val]
  rw [Vector.getElem_set]
  simp [Fin.ext_iff, eq_comm]

theorem ext_get {w : Vector UInt64 16} (h : ∀ k, v.get k = w.get k) : v = w :=
  Vector.ext fun i hi => h ⟨i, hi⟩

/-- The words are written one by one, and each is read behind its last change. -/
theorem G_eq (m : Vector UInt64 16) (hr : r < 12) (i : Fin 8) (a b c d : Fin 16) (h : [a, b, c, d].Nodup)
    (v : Vector UInt64 16) :
    G m r i a b c d v = pure (Blake2b.mix v a b c d (m.get ((SIGMA.get ⟨r, hr⟩).get ⟨2 * i + 0, by omega⟩))
      (m.get ((SIGMA.get ⟨r, hr⟩).get ⟨2 * i + 1, by omega⟩))) := by
  obtain ⟨⟨hab, hac, had⟩, ⟨hbc, hbd⟩, hcd⟩ : (a ≠ b ∧ a ≠ c ∧ a ≠ d) ∧ (b ≠ c ∧ b ≠ d) ∧ c ≠ d := by
    simpa using h
  rw [G, sigma_row, dif_pos hr, pure_bind]
  dsimp only
  congr 1
  apply ext_get
  intro k
  simp only [Blake2b.mix, get_set, if_neg hab, if_neg hac, if_neg had, if_neg hbc, if_neg hbd, if_neg hcd,
    if_neg hab.symm, if_neg hac.symm, if_neg had.symm, if_neg hbc.symm, if_neg hbd.symm, if_neg hcd.symm]
  by_cases ha : k = a
  · simp only [ha, if_neg hab, if_neg hac]
    rfl
  by_cases hb : k = b
  · simp only [hb, if_neg hbc, if_neg hbd]
    rfl
  by_cases hc : k = c
  · simp only [hc, if_neg hcd, if_neg hbc.symm]
    rfl
  by_cases hd : k = d
  · simp only [hd, if_neg hbd.symm, if_neg hcd.symm]
    rfl
  · simp [if_neg ha, if_neg hb, if_neg hc, if_neg hd]

theorem sigma_eq (r : Fin 12) : SIGMA.get r = Blake2b.row r := by
  revert r
  decide

theorem round_eq (hr : r < 12) : round m v r = pure (Blake2b.round m (Blake2b.row r) v) := by
  have hrow : SIGMA.get ⟨r, hr⟩ = Blake2b.row r := sigma_eq ⟨r, hr⟩
  unfold round
  simp only [G_eq m hr 0 0 4 8 12 (by decide), G_eq m hr 1 1 5 9 13 (by decide), G_eq m hr 2 2 6 10 14 (by decide),
    G_eq m hr 3 3 7 11 15 (by decide), G_eq m hr 4 0 5 10 15 (by decide), G_eq m hr 5 1 6 11 12 (by decide),
    G_eq m hr 6 2 7 8 13 (by decide), G_eq m hr 7 3 4 9 14 (by decide), hrow]
  rfl

theorem rounds_eq {n : Nat} (hn : n ≤ 12) :
    (List.range n).foldlM (round m) v = (pure (Blake2b.rounds m n v) : Checked _) := by
  induction n with
  | zero => rfl
  | succ n ih =>
    rw [List.range_succ, List.foldlM_append, ih (by omega), pure_bind, List.foldlM_cons, round_eq (by omega), Blake2b.rounds, Blake2b.rounds, List.range_succ, List.foldl_append]
    rfl

/-! ## The contract -/

theorem init_eq (h : Vector UInt64 8) (t_0 t_1 : UInt64) {f : UInt8} (hf : f ≤ 1) :
    h ++ #v[IV.get 0, IV.get 1, IV.get 2, IV.get 3, IV.get 4 ^^^ t_0, IV.get 5 ^^^ t_1,
       IV.get 6 ^^^ (if f ≠ 0 then 0xFFFFFFFFFFFFFFFF else 0), IV.get 7] = Blake2b.init h t_0 t_1 (f = 1) := by
  have hcases : f = 0 ∨ f = 1 := by
    have hle : f.toNat ≤ 1 := hf
    rcases Nat.le_one_iff_eq_zero_or_eq_one.1 hle with h0 | h1
    · exact .inl (UInt8.toNat_inj.1 h0)
    · exact .inr (UInt8.toNat_inj.1 h1)
  rcases hcases with rfl | rfl
  · rfl
  · rfl

theorem state_bytes_eq (h : Vector UInt64 8) (v : Vector UInt64 16) :
    (List.finRange 8).flatMap (fun i => le_from_long (h.get i ^^^ v.get (i.castLE (by decide)) ^^^ v.get (i.natAdd 8))) =
      state_bytes (Vector.ofFn fun i => h.get i ^^^ v.get (i.castAdd 8) ^^^ v.get (i.natAdd 8)) := by
  congr 1
  funext i
  rw [le_from_long_eq]
  congr 2
  show _ = (Vector.ofFn _)[i.val]
  rw [Vector.getElem_ofFn]
  rfl

theorem length_flatMap_words (w : Fin 8 → UInt64) : ((List.finRange 8).flatMap fun i => le_from_long (w i)).length = 64 := by
  simp [le_from_long]

theorem bytes_to_int_take (data : Bytes) : bytes_to_int (data.take 4) = round_count data := by
  rw [bytes_to_int, List.take_take, Nat.min_self, round_count]

theorem precompiled_blake2_eq (hlen : data.length = 213) (hflag : data.getD 212 0 ≤ 1)
    (hrounds : round_count data ≤ 12) : precompiled_blake2 data = pure (new_state data) := by
  have hcount : (to_int (bytes_to_int (data.take 4))).toNat = round_count data := by
    rw [bytes_to_int_take, to_int, if_pos (by omega), Int.toNat_natCast]
  have hh : (Vector.ofFn fun i : Fin 8 => le_to_long data (4 + 8 * i)) = Vector.ofFn fun i : Fin 8 => word data (4 + 8 * i) := by
    congr 1
    funext i
    exact le_to_long_eq (by omega)
  have hm : (Vector.ofFn fun i : Fin 16 => le_to_long data (68 + 8 * i)) = Vector.ofFn fun i : Fin 16 => word data (68 + 8 * i) := by
    congr 1
    funext i
    exact le_to_long_eq (by omega)
  have ht0 : le_to_long data 196 = word data 196 := le_to_long_eq (by omega)
  have ht1 : le_to_long data 204 = word data 204 := le_to_long_eq (by omega)
  unfold precompiled_blake2
  simp only [hh, hm, ht0, ht1, hcount]
  rw [init_eq _ _ _ hflag, rounds_eq hrounds, pure_bind, state_bytes_eq, new_state, Blake2b.compress]

theorem length_precompiled_blake2 (h : ok (precompiled_blake2 data) out) : out.length = 64 := by
  unfold precompiled_blake2 at h
  rw [ok_bind] at h
  obtain ⟨v, -, h⟩ := h
  rw [← ok_pure.1 h]
  exact length_flatMap_words _

/-- The contract ends as EIP-152 says: it fails, or it returns these bytes for the price of its rounds. -/
def Follows (fresh : Vector UInt8 128) (data : Bytes) : Prop :=
  match eip152 data with
  | none => ∃ e, raises (pre_blake2 fresh data) e
  | some out => ∃ res, ok (pre_blake2 fresh data) (round_count data, res) ∧ ok res (some out)

theorem length_returned {cost : Nat} {res : Checked (Option Bytes)}
    (h : ok (pre_blake2 fresh data) (cost, res)) (hres : ok res (some out)) : out.length = 128 := by
  unfold pre_blake2 at h
  split at h
  · exact absurd h ok_throw
  · cases ok_pure.1 h
    obtain ⟨state, hstate, hout⟩ := ok_bind.1 hres
    cases ok_pure.1 hout
    rw [List.length_append, List.length_drop, Vector.length_toList, length_precompiled_blake2 hstate]

theorem length_state_bytes (h : Vector UInt64 8) : (state_bytes h).length = 64 := by
  simp [state_bytes]

theorem not_follows (h : data.length = 213) : ¬ Follows fresh data := by
  intro hfollows
  unfold Follows eip152 at hfollows
  split_ifs at hfollows with hflag
  · obtain ⟨res, hok, hres⟩ := hfollows
    have hlen := length_returned hok hres
    rw [new_state, length_state_bytes] at hlen
    omega
  · obtain ⟨e, he⟩ := hfollows
    rw [pre_blake2, if_neg (by omega)] at he
    exact raises_pure he

/-- Only data of another length are answered as they should be. Of what is returned for 213 bytes, the first half is the new
state if there are at most twelve rounds. -/
theorem blake2_iff (fresh : Vector UInt8 128) (data : Bytes) :
    (Follows fresh data ↔ data.length ≠ 213) ∧
      (data.length = 213 → data.getD 212 0 ≤ 1 → round_count data ≤ 12 →
        ∃ res, ok (pre_blake2 fresh data) (round_count data, res) ∧
          ok res (some (new_state data ++ fresh.toList.drop 64))) := by
  refine ⟨⟨fun hfollows hlen => not_follows hlen hfollows, fun hlen => ?_⟩, fun hlen hflag hrounds => ?_⟩
  · unfold Follows eip152
    rw [if_neg fun h => hlen h.1]
    refine ⟨-1, ?_⟩
    rw [pre_blake2, if_pos hlen]
    exact raises_throw.2 rfl
  · refine ⟨pure (some (new_state data ++ fresh.toList.drop 64)), ?_, ok_pure.2 rfl⟩
    rw [pre_blake2, if_neg (by omega), bytes_to_int_take, precompiled_blake2_eq hlen hflag hrounds, pure_bind]
    exact ok_pure.2 rfl

/-- Data with this number of rounds in front of zeros, and this flag. -/
def sample (count : List UInt8) (flag : UInt8) : Bytes := count ++ List.replicate 208 0 ++ [flag]

/-- One round; a flag that is not one; a round behind the table; and a number of rounds that is a negative `int`. -/
theorem blake2_differs :
    ¬ Follows (Vector.replicate 128 0) (sample [0, 0, 0, 1] 0) ∧
      ¬ Follows (Vector.replicate 128 0) (sample [0, 0, 0, 1] 2) ∧
      Guarded.faults (precompiled_blake2 (sample [0, 0, 0, 13] 0)) (.read 192 192) ∧
      ok (precompiled_blake2 (sample [128, 0, 0, 0] 0)) (new_state (sample [0, 0, 0, 0] 0)) :=
  ⟨not_follows (by decide +kernel), not_follows (by decide +kernel), by decide +kernel, by decide +kernel⟩

end In3.Evm.Blake2
