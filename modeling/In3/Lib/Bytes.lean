import Mathlib.Data.List.Basic
import Mathlib.Tactic
/-!
# Byte strings as big-endian numbers

`beNat` reads a byte string as a number and `beBytes` writes a number with as
few bytes as possible. Leading zero bytes do not change the number
(`beNat_zeros`), and a string of at most `k` bytes is below `256 ^ k`.
-/

open List

namespace Lib

abbrev Bytes := List UInt8

-- named, so that all literals of `Fin 8` and `Fin 16` refer to them
instance neZero_eight : NeZero 8 := ⟨by decide⟩
instance neZero_sixteen : NeZero 16 := ⟨by decide⟩

/-- The big-endian number a byte string denotes. -/
def beNat (b : Bytes) : Nat := b.foldl (fun n x => n * 256 + x.toNat) 0

/-- The bytes of `n`, most significant first, with no leading zero (`fuel`
bounds the number of bytes). -/
def beFuel : Nat → Nat → Bytes
  | 0, _ => []
  | fuel + 1, n => if n = 0 then [] else beFuel fuel (n / 256) ++ [UInt8.ofNat (n % 256)]

/-- The shortest big-endian spelling of `n`; zero is the empty string. -/
def beBytes (n : Nat) : Bytes := beFuel n n

/-! ## Reading -/

theorem foldl_be (b : Bytes) (a : Nat) :
    b.foldl (fun n x => n * 256 + x.toNat) a = a * 256 ^ b.length + beNat b := by
  induction b generalizing a with
  | nil => simp [beNat]
  | cons x b ih =>
    simp only [beNat, foldl_cons, length_cons]
    rw [ih, ih (0 * 256 + x.toNat)]
    ring

@[simp] theorem beNat_nil : beNat [] = 0 := rfl

theorem beNat_cons (x : UInt8) (b : Bytes) : beNat (x :: b) = x.toNat * 256 ^ b.length + beNat b := by
  simp only [beNat, foldl_cons]
  rw [foldl_be]
  simp [beNat]

theorem beNat_append (a b : Bytes) : beNat (a ++ b) = beNat a * 256 ^ b.length + beNat b := by
  simp only [beNat, foldl_append]
  rw [foldl_be]
  rfl

theorem beNat_lt (b : Bytes) : beNat b < 256 ^ b.length := by
  induction b with
  | nil => simp
  | cons x b ih =>
    have hx : x.toNat ≤ 255 := by have := x.toNat_lt; omega
    have hm : x.toNat * 256 ^ b.length ≤ 255 * 256 ^ b.length := Nat.mul_le_mul_right _ hx
    rw [beNat_cons, length_cons]
    omega

variable {a b : Bytes} {n : Nat}

theorem beNat_lt_of_le (h : b.length ≤ n) : beNat b < 256 ^ n :=
  lt_of_lt_of_le (beNat_lt b) (Nat.pow_le_pow_right (by norm_num) h)

theorem beNat_inj (hl : a.length = b.length) (h : beNat a = beNat b) : a = b := by
  induction a generalizing b with
  | nil => exact (length_eq_zero_iff.1 hl.symm).symm
  | cons x a ih =>
    cases b with
    | nil => simp at hl
    | cons y b =>
      have hl' : a.length = b.length := by simpa using hl
      rw [beNat_cons, beNat_cons, hl'] at h
      have ha : beNat a < 256 ^ b.length := hl' ▸ beNat_lt a
      have hb := beNat_lt b
      have hxy : x.toNat = y.toNat := by
        have e := congrArg (· / 256 ^ b.length) h
        have hp : 0 < 256 ^ b.length := by positivity
        simpa [Nat.mul_comm _ (256 ^ b.length), Nat.mul_add_div hp, Nat.div_eq_of_lt ha, Nat.div_eq_of_lt hb] using e
      rw [hxy] at h
      rw [UInt8.toNat_inj.1 hxy, ih hl' (by omega)]

/-! ## Leading zeros -/

theorem beNat_replicate_zero (n : Nat) : beNat (replicate n 0) = 0 := by
  induction n with
  | zero => rfl
  | succ n ih => rw [replicate_succ, beNat_cons, ih]; simp

theorem beNat_zeros (n : Nat) (b : Bytes) : beNat (replicate n 0 ++ b) = beNat b := by
  rw [beNat_append, beNat_replicate_zero]; simp

/-- Padding on the left with zero bytes up to `n` bytes. -/
def padLeft (n : Nat) (b : Bytes) : Bytes := replicate (n - b.length) 0 ++ b

@[simp] theorem beNat_padLeft (n : Nat) (b : Bytes) : beNat (padLeft n b) = beNat b := beNat_zeros _ b

theorem length_padLeft (h : b.length ≤ n) : (padLeft n b).length = n := by
  simp [padLeft]; omega

/-! ## Writing -/

theorem beNat_beFuel (fuel n : Nat) (h : n ≤ fuel) : beNat (beFuel fuel n) = n := by
  induction fuel generalizing n with
  | zero => simp [beFuel]; omega
  | succ fuel ih =>
    unfold beFuel
    split
    · simp [*]
    · have hd : n / 256 ≤ fuel := by omega
      rw [beNat_append, ih _ hd]
      have hm : (UInt8.ofNat (n % 256)).toNat = n % 256 := by
        rw [UInt8.toNat_ofNat']; omega
      simp only [length_singleton, beNat, foldl_cons, foldl_nil]
      omega

theorem beNat_beBytes (n : Nat) : beNat (beBytes n) = n := beNat_beFuel n n (le_refl _)

theorem length_beFuel_le (fuel n k : Nat) (h : n < 256 ^ k) : (beFuel fuel n).length ≤ k := by
  induction fuel generalizing n k with
  | zero => simp [beFuel]
  | succ fuel ih =>
    unfold beFuel
    split
    · simp
    · cases k with
      | zero => simp at h; contradiction
      | succ k =>
        have := ih (n / 256) k (by rw [pow_succ] at h; omega)
        simp only [length_append, length_singleton]
        omega

theorem length_beBytes_le {k : Nat} (h : n < 256 ^ k) : (beBytes n).length ≤ k := length_beFuel_le n n k h

theorem length_beBytes_pos (h : 0 < n) : 0 < (beBytes n).length := by
  cases n with
  | zero => omega
  | succ n => simp [beBytes, beFuel]

def beFix : Nat → Nat → Bytes
  | 0, _ => []
  | w + 1, n => beFix w (n / 256) ++ [UInt8.ofNat (n % 256)]

@[simp] theorem length_beFix (w n : Nat) : (beFix w n).length = w := by
  induction w generalizing n with
  | zero => rfl
  | succ w ih => simp [beFix, ih]

theorem beNat_beFix (w n : Nat) : beNat (beFix w n) = n % 256 ^ w := by
  induction w generalizing n with
  | zero => simp [beFix, Nat.mod_one]
  | succ w ih =>
    have hm : (UInt8.ofNat (n % 256)).toNat = n % 256 := by rw [UInt8.toNat_ofNat']; omega
    have hd : n % 256 ^ (w + 1) = 256 * (n / 256 % 256 ^ w) + n % 256 := by
      rw [pow_succ, Nat.mul_comm, Nat.mod_mul]; omega
    rw [beFix, beNat_append, ih]
    simp only [length_singleton, beNat, foldl_cons, foldl_nil]
    omega

/-- A number with `w + 1` bytes is spelled the same with and without a width. -/
theorem beBytes_eq_beFix {w : Nat} (hlo : 256 ^ w ≤ n) (hhi : n < 256 ^ (w + 1)) : beBytes n = beFix (w + 1) n := by
  have hlt := beNat_lt (beBytes n)
  rw [beNat_beBytes] at hlt
  have hw : w < (beBytes n).length := (Nat.pow_lt_pow_iff_right (by norm_num : 1 < 256)).1 (lt_of_le_of_lt hlo hlt)
  have hle := length_beBytes_le hhi
  apply beNat_inj
  · rw [length_beFix]
    omega
  · rw [beNat_beBytes, beNat_beFix, Nat.mod_eq_of_lt hhi]

/-- A string without its leading zeros; one byte is kept. -/
def stripZeros : Bytes → Bytes
  | [] => []
  | [x] => [x]
  | x :: y :: b => if x = 0 then stripZeros (y :: b) else x :: y :: b

@[simp] theorem beNat_stripZeros (b : Bytes) : beNat (stripZeros b) = beNat b := by
  induction b using stripZeros.induct with
  | case1 => rfl
  | case2 x => rfl
  | case3 y b ih => rw [stripZeros, if_pos rfl, ih, beNat_cons 0]; simp
  | case4 x y b h => rw [stripZeros, if_neg h]

theorem length_stripZeros_le (b : Bytes) : (stripZeros b).length ≤ b.length := by
  induction b using stripZeros.induct with
  | case1 => simp [stripZeros]
  | case2 x => simp [stripZeros]
  | case3 y b ih =>
    rw [stripZeros, if_pos rfl]
    simp only [length_cons] at ih ⊢
    omega
  | case4 x y b h => simp [stripZeros, h]

/-- The highest byte of a string of more than one byte that starts with no zero counts. -/
theorem le_beNat_cons {x : UInt8} (h : x ≠ 0) : 256 ^ b.length ≤ beNat (x :: b) := by
  have hx : 1 ≤ x.toNat := by
    have h0 : x.toNat ≠ (0 : UInt8).toNat := fun e => h (UInt8.toNat_inj.1 e)
    have : (0 : UInt8).toNat = 0 := rfl
    omega
  have hm := Nat.mul_le_mul_right (256 ^ b.length) hx
  rw [beNat_cons]
  omega

theorem length_le_of_beNat_le {x y : UInt8} (hx : x ≠ 0) (h : beNat (x :: a) ≤ beNat (y :: b)) :
    a.length ≤ b.length := by
  by_contra hlt
  have h1 := le_beNat_cons (b := a) hx
  have h2 := beNat_lt (y :: b)
  have h3 : (256 : Nat) ^ (b.length + 1) ≤ 256 ^ a.length := Nat.pow_le_pow_right (by norm_num) (by omega)
  rw [length_cons] at h2
  omega

theorem stripZeros_cases (h : b ≠ []) :
    ∃ x a, stripZeros b = x :: a ∧ (x = 0 → a = []) := by
  induction b using stripZeros.induct with
  | case1 => exact absurd rfl h
  | case2 x => exact ⟨x, [], rfl, fun _ => rfl⟩
  | case3 y b ih => simpa [stripZeros] using ih (by simp)
  | case4 x y b hx => exact ⟨x, y :: b, by rw [stripZeros, if_neg hx], fun e => absurd e hx⟩

theorem stripZeros_congr (ha : a ≠ []) (hb : b ≠ []) (h : beNat a = beNat b) :
    stripZeros a = stripZeros b := by
  obtain ⟨x, s, hs, hx⟩ := stripZeros_cases ha
  obtain ⟨y, t, ht, hy⟩ := stripZeros_cases hb
  have he : beNat (x :: s) = beNat (y :: t) := by rw [← hs, ← ht, beNat_stripZeros, beNat_stripZeros, h]
  rw [hs, ht]
  apply beNat_inj _ he
  have hle : s.length ≤ t.length := by
    by_cases h0 : x = 0
    · simp [hx h0]
    · exact length_le_of_beNat_le h0 (le_of_eq he)
  have hge : t.length ≤ s.length := by
    by_cases h0 : y = 0
    · simp [hy h0]
    · exact length_le_of_beNat_le h0 (le_of_eq he.symm)
  simp only [length_cons]
  omega

theorem stripZeros_ne_nil (h : b ≠ []) : stripZeros b ≠ [] := by
  obtain ⟨x, a, hs, -⟩ := stripZeros_cases h
  simp [hs]

theorem beBytes_beNat (h : 0 < beNat b) : beBytes (beNat b) = stripZeros b := by
  have hne : b ≠ [] := by
    rintro rfl
    exact absurd h (Nat.lt_irrefl 0)
  obtain ⟨x, a, hs, h0⟩ := stripZeros_cases hne
  have hnum : beNat (x :: a) = beNat b := by rw [← hs, beNat_stripZeros]
  have hx : x ≠ 0 := by
    intro e
    rw [h0 e, e] at hnum
    rw [← hnum] at h
    exact absurd h (Nat.lt_irrefl 0)
  have hlo : 256 ^ a.length ≤ beNat b := hnum ▸ le_beNat_cons hx
  have hhi : beNat b < 256 ^ (a.length + 1) := hnum ▸ beNat_lt (x :: a)
  rw [hs, beBytes_eq_beFix hlo hhi]
  apply beNat_inj
  · rw [length_beFix, length_cons]
  · rw [beNat_beFix, Nat.mod_eq_of_lt hhi, hnum]

theorem beNat_take_eq_iff (n : Nat) (b : Bytes) : beNat (b.take n) = beNat b ↔ b.length ≤ n ∨ beNat b = 0 := by
  rcases Nat.lt_or_ge n b.length with hlt | hge
  · have happ := beNat_append (b.take n) (b.drop n)
    rw [take_append_drop] at happ
    have hpow : 256 ≤ 256 ^ (b.drop n).length := by
      rw [length_drop]
      exact Nat.le_self_pow (by omega) 256
    constructor
    · have hmul := Nat.mul_le_mul_left (beNat (b.take n)) hpow
      omega
    · rintro (hle | h0)
      · omega
      · have hz : beNat (b.take n) * 256 ^ (b.drop n).length = 0 := by omega
        rcases Nat.mul_eq_zero.1 hz with hz | hz
        · rw [hz, h0]
        · omega
  · simp [take_of_length_le hge, hge]

/-- A number below `2 ^ 256` as a 32-byte word. -/
def word (n : Nat) : Bytes := padLeft 32 (beBytes n)

theorem lt_length_beBytes {k : Nat} (h : 256 ^ k ≤ n) : k < (beBytes n).length := by
  have hlt := beNat_lt (beBytes n)
  rw [beNat_beBytes] at hlt
  exact (Nat.pow_lt_pow_iff_right (by norm_num)).1 (Nat.lt_of_le_of_lt h hlt)

/-- The shortest spelling of a number has `w` bytes if the number needs all of them. -/
theorem beBytes_eq_padLeft_iff {m w : Nat} (hm : m < 256 ^ w) :
    beBytes n = padLeft w (beBytes m) ↔ n = m ∧ (w = 0 ∨ 256 ^ (w - 1) ≤ m) := by
  have hlen : (padLeft w (beBytes m)).length = w := length_padLeft (length_beBytes_le hm)
  constructor
  · intro h
    have hnm : n = m := by
      have hnat := congrArg beNat h
      rwa [beNat_padLeft, beNat_beBytes, beNat_beBytes] at hnat
    subst hnm
    refine ⟨rfl, ?_⟩
    by_contra hshort
    have hw := length_beBytes_le (Nat.lt_of_not_le fun hle => hshort (.inr hle))
    rw [h] at hw
    omega
  · rintro ⟨rfl, hw⟩
    have hle : w ≤ (beBytes n).length := by
      rcases hw with rfl | hw
      · exact Nat.zero_le _
      · have := lt_length_beBytes hw
        omega
    rw [padLeft, Nat.sub_eq_zero_of_le hle]
    rfl

theorem length_flatten_of_forall {l : List Bytes} (h : ∀ x ∈ l, x.length = n) : l.flatten.length = n * l.length := by
  induction l with
  | nil => rfl
  | cons x l ih =>
    rw [flatten_cons, length_append, length_cons, h x mem_cons_self,
      ih fun y hy => h y (mem_cons_of_mem _ hy), Nat.mul_succ, Nat.add_comm]

/-! ## Reading past the end -/

/-- `len` bytes from `off` on; those behind the end are zero. -/
def extended (b : Bytes) (off len : Nat) : Bytes := List.takeD len (b.drop off) 0

@[simp] theorem length_extended (b : Bytes) (off len : Nat) : (extended b off len).length = len := takeD_length _ _ _

theorem extended_of_le {off len : Nat} (h : off + len ≤ b.length) : extended b off len = (b.drop off).take len :=
  takeD_eq_take 0 (by rw [length_drop]; omega)

theorem beNat_extended_of_length_le {off : Nat} (h : b.length ≤ off) (len : Nat) : beNat (extended b off len) = 0 := by
  rw [extended, drop_eq_nil_of_le h, takeD_nil, beNat_replicate_zero]

end Lib
