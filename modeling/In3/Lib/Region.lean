import In3.Lib.Bytes
import In3.Lib.Guarded
/-!
# A region of memory

A byte string as a region of memory: bytes are read from it and written to it at an
offset, and an access outside of it is an `Access` fault with the offset and the size
of the region. The offset is an integer, since a pointer may leave its region at both ends.
-/

open List

namespace Lib

/-- An access outside of its region, or a size that is too large for its type. -/
inductive Access where
  | read (index : Int) (size : Nat)
  | write (index : Int) (size : Nat)
  | overflow
  deriving DecidableEq, Repr

namespace Region
variable {ε : Type}

def slice (b : Bytes) (off : Int) (len : Nat) : Guarded Access ε Bytes := do
  Guarded.guard (0 ≤ off ∧ off.toNat + len ≤ b.length) (.read off b.length)
  return (b.drop off.toNat).take len

def byte (b : Bytes) (off : Int) : Guarded Access ε UInt8 := do
  Guarded.guard (0 ≤ off ∧ off.toNat < b.length) (.read off b.length)
  return b.getD off.toNat 0

/-- The bytes from the offset on are overwritten by `src`. -/
def store (b : Bytes) (off : Int) (src : Bytes) : Guarded Access ε Bytes := do
  Guarded.guard (0 ≤ off ∧ off.toNat + src.length ≤ b.length) (.write off b.length)
  return b.take off.toNat ++ src ++ b.drop (off.toNat + src.length)

variable {a b c done r src start : Bytes} {len : Nat} {off : Int}

@[simp] theorem ok_slice :
    Guarded.ok (slice b off len : Guarded Access ε Bytes) r ↔
      (0 ≤ off ∧ off.toNat + len ≤ b.length) ∧ (b.drop off.toNat).take len = r := by
  simp only [slice, Guarded.ok_bind, Guarded.ok_guard, Guarded.ok_pure, exists_const]

@[simp] theorem ok_byte {x : UInt8} :
    Guarded.ok (byte b off : Guarded Access ε UInt8) x ↔ (0 ≤ off ∧ off.toNat < b.length) ∧ b.getD off.toNat 0 = x := by
  simp only [byte, Guarded.ok_bind, Guarded.ok_guard, Guarded.ok_pure, exists_const]

@[simp] theorem ok_store :
    Guarded.ok (store b off src : Guarded Access ε Bytes) r ↔
      (0 ≤ off ∧ off.toNat + src.length ≤ b.length) ∧ b.take off.toNat ++ src ++ b.drop (off.toNat + src.length) = r := by
  simp only [store, Guarded.ok_bind, Guarded.ok_guard, Guarded.ok_pure, exists_const]

theorem faults_slice {f : Access} :
    Guarded.faults (slice b off len : Guarded Access ε Bytes) f ↔
      ¬ (0 ≤ off ∧ off.toNat + len ≤ b.length) ∧ Access.read off b.length = f := by
  unfold slice
  rw [Guarded.faults_bind, Guarded.faults_guard, or_iff_left]
  rintro ⟨_, -, h⟩
  exact Guarded.safe_of_ok (Guarded.ok_pure.2 rfl) _ h

theorem faults_byte {f : Access} :
    Guarded.faults (byte b off : Guarded Access ε UInt8) f ↔
      ¬ (0 ≤ off ∧ off.toNat < b.length) ∧ Access.read off b.length = f := by
  unfold byte
  rw [Guarded.faults_bind, Guarded.faults_guard, or_iff_left]
  rintro ⟨_, -, h⟩
  exact Guarded.safe_of_ok (Guarded.ok_pure.2 rfl) _ h

theorem slice_eq_pure (h : 0 ≤ off ∧ off.toNat + len ≤ b.length) :
    (slice b off len : Guarded Access ε Bytes) = pure ((b.drop off.toNat).take len) := by
  rw [slice, Guarded.guard, if_pos h, pure_bind]

theorem length_of_ok_store
    (h : Guarded.ok (store b off src : Guarded Access ε Bytes) r) : r.length = b.length := by
  obtain ⟨⟨_, hle⟩, rfl⟩ := ok_store.1 h
  simp only [length_append, length_take, length_drop]
  omega

theorem slice_of_ok_store (h : Guarded.ok (store b off src : Guarded Access ε Bytes) r) :
    (r.drop off.toNat).take src.length = src := by
  obtain ⟨⟨_, hle⟩, rfl⟩ := ok_store.1 h
  have htake : (b.take off.toNat).length = off.toNat := by
    rw [length_take]
    omega
  rw [append_assoc, drop_append_of_le_length (le_of_eq htake.symm), drop_of_length_le (le_of_eq htake),
    nil_append, take_left']
  rfl

theorem store_append (hoff : off = a.length) (h : src.length ≤ b.length) :
    (store (a ++ b) off src : Guarded Access ε Bytes) = pure (a ++ src ++ b.drop src.length) := by
  subst hoff
  have hroom : (0 : Int) ≤ a.length ∧ (a.length : Int).toNat + src.length ≤ (a ++ b).length := by
    rw [length_append]
    omega
  rw [store, Guarded.guard, if_pos hroom, pure_bind, Int.toNat_natCast, take_left, ← drop_drop, drop_left]

theorem slice_between (hoff : off = a.length) (hlen : len = b.length) :
    (slice (a ++ b ++ c) off len : Guarded Access ε Bytes) = pure b := by
  subst hoff hlen
  have hroom : (0 : Int) ≤ a.length ∧ (a.length : Int).toNat + b.length ≤ (a ++ b ++ c).length := by
    rw [length_append, length_append]
    omega
  rw [slice_eq_pure hroom, Int.toNat_natCast, append_assoc, drop_left, take_left]

theorem store_between (hoff : off = a.length) (hlen : src.length = b.length) :
    (store (a ++ b ++ c) off src : Guarded Access ε Bytes) = pure (a ++ src ++ c) := by
  have hroom : src.length ≤ (b ++ c).length := by
    rw [length_append]
    omega
  rw [append_assoc a b c, store_append hoff hroom, hlen, drop_left]

theorem byte_between {x : UInt8} (hoff : off = a.length) :
    (byte (a ++ x :: c) off : Guarded Access ε UInt8) = pure x := by
  subst hoff
  have hroom : (0 : Int) ≤ a.length ∧ (a.length : Int).toNat < (a ++ x :: c).length := by
    rw [length_append, length_cons]
    omega
  rw [byte, Guarded.guard, if_pos hroom]
  simp

/-! ## A buffer that is filled from the front -/

/-- The buffer `start` with `done` in the place of its first bytes. -/
def fill (start done : Bytes) : Bytes := done ++ start.drop done.length

theorem fill_nil (start : Bytes) : fill start [] = start := rfl

theorem fill_all (h : done.length = start.length) : fill start done = done := by
  rw [fill, drop_of_length_le (le_of_eq h.symm), append_nil]

theorem store_fill_over {last : Bytes} (hoff : off = done.length) (hlast : last.length ≤ src.length)
    (h : done.length + src.length ≤ start.length) :
    (store (fill start (done ++ last)) off src : Guarded Access ε Bytes) = pure (fill start (done ++ src)) := by
  have hdrop : (last ++ start.drop (done ++ last).length).drop src.length = start.drop (done ++ src).length := by
    rw [drop_append, drop_of_length_le hlast, nil_append, drop_drop, length_append, length_append]
    congr 1
    omega
  have hroom : src.length ≤ (last ++ start.drop (done ++ last).length).length := by
    rw [length_append, length_drop, length_append]
    omega
  rw [fill, append_assoc, store_append hoff hroom, hdrop, fill]

theorem store_fill (hoff : off = done.length) (h : done.length + src.length ≤ start.length) :
    (store (fill start done) off src : Guarded Access ε Bytes) = pure (fill start (done ++ src)) := by
  rw [← append_nil done] at hoff ⊢
  rw [store_fill_over (by rw [hoff, append_nil]) (Nat.zero_le _) h, append_nil]

theorem fill_skip {n : Nat} (h : done.length + n ≤ start.length) :
    fill start (done ++ (start.drop done.length).take n) = fill start done := by
  have hlen : ((start.drop done.length).take n).length = n := by
    rw [length_take, length_drop]
    omega
  rw [fill, fill, length_append, hlen, append_assoc, ← drop_drop, take_append_drop]

end Region

end Lib
