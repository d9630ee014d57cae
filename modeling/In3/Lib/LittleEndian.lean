import In3.Lib.Bytes
/-!
# Byte strings as little-endian numbers

`leNat` reads a byte string with its least significant byte first, and `leFix` writes
a number with a fixed number of bytes. Both are the big-endian functions on the
reversed string.
-/

namespace Lib

/-- The little-endian number a byte string denotes. -/
def leNat : Bytes → Nat
  | [] => 0
  | x :: b => x.toNat + 256 * leNat b

@[simp] theorem leNat_nil : leNat [] = 0 := rfl

@[simp] theorem leNat_cons (x : UInt8) (b : Bytes) : leNat (x :: b) = x.toNat + 256 * leNat b := rfl

theorem leNat_append (a b : Bytes) : leNat (a ++ b) = leNat a + 256 ^ a.length * leNat b := by
  induction a with
  | nil => simp
  | cons x a ih =>
    rw [List.cons_append, leNat_cons, leNat_cons, ih, List.length_cons]
    ring

theorem beNat_reverse (b : Bytes) : beNat b.reverse = leNat b := by
  induction b with
  | nil => rfl
  | cons x b ih =>
    rw [List.reverse_cons, beNat_append, leNat_cons, beNat_cons]
    simp only [List.length_nil, List.length_singleton, beNat_nil]
    omega

theorem leNat_lt (b : Bytes) : leNat b < 256 ^ b.length := by
  have := beNat_lt b.reverse
  rwa [beNat_reverse, List.length_reverse] at this

def leFix : Nat → Nat → Bytes
  | 0, _ => []
  | w + 1, n => UInt8.ofNat (n % 256) :: leFix w (n / 256)

@[simp] theorem length_leFix (w n : Nat) : (leFix w n).length = w := by
  induction w generalizing n with
  | zero => rfl
  | succ w ih => rw [leFix, List.length_cons, ih]

theorem leNat_leFix (w n : Nat) : leNat (leFix w n) = n % 256 ^ w := by
  induction w generalizing n with
  | zero => simp [leFix, Nat.mod_one]
  | succ w ih =>
    have hm : (UInt8.ofNat (n % 256)).toNat = n % 256 := by rw [UInt8.toNat_ofNat']; omega
    rw [leFix, leNat_cons, ih, hm, pow_succ', Nat.mod_mul]

theorem shift_or {n k : Nat} (h : n < 2 ^ k) (x : Nat) : x <<< k ||| n = n + 2 ^ k * x := by
  rw [← Nat.shiftLeft_add_eq_or_of_lt h, Nat.shiftLeft_eq]
  ring

end Lib
