import In3.Lib.Digits
/-!
# Two's complement

`centered m n` is the residue `n` modulo `m` read as a number from `-m / 2` on, and `wrap m z` the
residue of any integer. A byte string can be read so as a number of its own length (`readSigned`).
-/

namespace Lib

def centered (m n : Nat) : Int := if 2 * n < m then n else (n : Int) - m

/-- The residue of an integer. -/
def wrap (m : Nat) (z : Int) : Nat := (z % m).toNat

/-- A byte string as a two's complement number of its own length. -/
def readSigned (b : Bytes) : Int := centered (256 ^ b.length) (beNat b)

theorem centered_neg_iff {m n : Nat} (h : n < m) : centered m n < 0 ↔ m ≤ 2 * n := by
  unfold centered
  split <;> omega

theorem natAbs_centered {m n : Nat} (h : n < m) : (centered m n).natAbs = if 2 * n < m then n else m - n := by
  unfold centered
  split <;> omega

theorem centered_mul {m n c : Nat} (hc : 0 < c) : centered (m * c) (n * c) = centered m n * c := by
  unfold centered
  have hiff : 2 * (n * c) < m * c ↔ 2 * n < m := by rw [← Nat.mul_assoc, Nat.mul_lt_mul_right hc]
  simp only [hiff]
  split
  · push_cast
    ring
  · push_cast
    ring

theorem wrap_natCast {m n : Nat} (h : n < m) : wrap m (n : Int) = n := by
  unfold wrap
  rw [← Int.natCast_mod, Int.toNat_natCast, Nat.mod_eq_of_lt h]

theorem wrap_neg {m n : Nat} (h : n < m) : wrap m (-(n : Int)) = (m - n) % m := by
  unfold wrap
  have hm : (-(n : Int)) % m = ((m - n : Nat) : Int) % m := by
    rw [Nat.cast_sub (le_of_lt h), show (m : Int) - n = -n + m * 1 by ring, Int.add_mul_emod_self_left]
  rw [hm, ← Int.natCast_mod, Int.toNat_natCast]

/-! ## Strings -/

theorem beNat_append_zeros (b : Bytes) (k : Nat) : beNat (b ++ List.replicate k 0) = beNat b * 256 ^ k := by
  rw [beNat_append, beNat_replicate_zero, List.length_replicate, Nat.add_zero]

theorem readSigned_append_zeros (b : Bytes) (k : Nat) :
    readSigned (b ++ List.replicate k 0) = readSigned b * (256 ^ k : Nat) := by
  unfold readSigned
  rw [beNat_append_zeros, List.length_append, List.length_replicate, pow_add, centered_mul (pow_256_pos k)]

theorem readSigned_neg_iff (b : Bytes) : readSigned b < 0 ↔ 128 ≤ (b.headD 0).toNat := by
  unfold readSigned
  rw [centered_neg_iff (beNat_lt b)]
  rcases b with _ | ⟨x, t⟩
  · simp
  · have hlt := beNat_lt t
    rw [beNat_cons, List.length_cons, List.headD_cons]
    constructor
    · by_contra hx
      have hle : x.toNat * 256 ^ t.length ≤ 127 * 256 ^ t.length := Nat.mul_le_mul_right _ (by omega)
      omega
    · intro h
      have hle : 128 * 256 ^ t.length ≤ x.toNat * 256 ^ t.length := Nat.mul_le_mul_right _ h
      omega

end Lib
