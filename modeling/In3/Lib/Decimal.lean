import In3.Lib.Bytes
/-!
# Decimal strings

A string of ASCII digits denotes a number. Strings of one length are ordered as their numbers are,
whether they are compared as digits or as bytes.
-/

open List

namespace Lib

def IsDigit (x : UInt8) : Prop := 48 ≤ x.toNat ∧ x.toNat ≤ 57

instance : DecidablePred IsDigit := fun x => inferInstanceAs (Decidable (48 ≤ x.toNat ∧ x.toNat ≤ 57))

/-- The number of a string of digits. -/
def decNat (b : Bytes) : Nat := b.foldl (fun n x => n * 10 + (x.toNat - 48)) 0

theorem foldl_dec (b : Bytes) (a : Nat) :
    b.foldl (fun n x => n * 10 + (x.toNat - 48)) a = a * 10 ^ b.length + decNat b := by
  induction b generalizing a with
  | nil => simp [decNat]
  | cons x b ih =>
    unfold decNat
    rw [foldl_cons, foldl_cons, ih, ih (0 * 10 + _), length_cons]
    ring

theorem decNat_cons (x : UInt8) (b : Bytes) : decNat (x :: b) = (x.toNat - 48) * 10 ^ b.length + decNat b := by
  conv_lhs => rw [decNat, foldl_cons, foldl_dec]
  rw [Nat.zero_add]

theorem decNat_append (a b : Bytes) : decNat (a ++ b) = decNat a * 10 ^ b.length + decNat b := by
  conv_lhs => rw [decNat, foldl_append, foldl_dec]
  rfl

theorem decNat_lt {b : Bytes} (h : ∀ x ∈ b, IsDigit x) : decNat b < 10 ^ b.length := by
  induction b with
  | nil => simp [decNat]
  | cons x b ih =>
    obtain ⟨-, hx⟩ := h x mem_cons_self
    have hb := ih fun y hy => h y (mem_cons_of_mem _ hy)
    have hmul : (x.toNat - 48) * 10 ^ b.length ≤ 9 * 10 ^ b.length := Nat.mul_le_mul_right _ (by omega)
    rw [decNat_cons, length_cons]
    omega

/-- A string that starts with no zero needs all of its digits. -/
theorem le_decNat_cons {x : UInt8} {b : Bytes} (hx : IsDigit x) (h : x ≠ 48) : 10 ^ b.length ≤ decNat (x :: b) := by
  have hne : x.toNat ≠ 48 := fun e => h (UInt8.toNat_inj.1 e)
  have hone : 1 * 10 ^ b.length ≤ (x.toNat - 48) * 10 ^ b.length := Nat.mul_le_mul_right _ (by unfold IsDigit at hx; omega)
  rw [decNat_cons]
  omega

theorem decNat_lt_iff {a b : Bytes} (hlen : a.length = b.length) (ha : ∀ x ∈ a, IsDigit x) (hb : ∀ x ∈ b, IsDigit x) :
    decNat a < decNat b ↔ beNat a < beNat b := by
  induction a generalizing b with
  | nil =>
    obtain rfl : b = [] := length_eq_zero_iff.1 hlen.symm
    simp
  | cons x a ih =>
    obtain _ | ⟨y, b⟩ := b
    · cases hlen
    · have hab : a.length = b.length := by simpa using hlen
      have hda := decNat_lt fun z hz => ha z (mem_cons_of_mem _ hz)
      have hdb := decNat_lt fun z hz => hb z (mem_cons_of_mem _ hz)
      have hba := beNat_lt a
      have hbb := beNat_lt b
      obtain ⟨hx, -⟩ := ha x mem_cons_self
      obtain ⟨hy, -⟩ := hb y mem_cons_self
      have ih := ih hab (fun z hz => ha z (mem_cons_of_mem _ hz)) fun z hz => hb z (mem_cons_of_mem _ hz)
      rw [decNat_cons, decNat_cons, beNat_cons, beNat_cons]
      rw [hab] at hda hba ⊢
      -- the first digits decide, unless they are equal
      rcases Nat.lt_trichotomy x.toNat y.toNat with hlt | heq | hgt
      · have hd := Nat.mul_le_mul_right (10 ^ b.length) (show x.toNat - 48 + 1 ≤ y.toNat - 48 by omega)
        have hbe := Nat.mul_le_mul_right (256 ^ b.length) (show x.toNat + 1 ≤ y.toNat by omega)
        rw [Nat.add_mul] at hd hbe
        constructor
        · omega
        · omega
      · rw [heq]
        omega
      · have hd := Nat.mul_le_mul_right (10 ^ b.length) (show y.toNat - 48 + 1 ≤ x.toNat - 48 by omega)
        have hbe := Nat.mul_le_mul_right (256 ^ b.length) (show y.toNat + 1 ≤ x.toNat by omega)
        rw [Nat.add_mul] at hd hbe
        constructor
        · omega
        · omega

end Lib
