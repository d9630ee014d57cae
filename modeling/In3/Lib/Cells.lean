import Mathlib.Algebra.BigOperators.Group.Finset.Piecewise
import Mathlib.Data.List.GetD
import Mathlib.Tactic.SplitIfs
/-!
# Arrays without an end

A function from the places to the cells. A list is such an array with a default behind its end
(`cells`). A range of cells is read as a list (`readAt`), and a list is written over a range
(`writeAt`).
-/

open List

namespace Lib
variable {α : Type}

def cells (d : α) (l : List α) : Nat → α := fun i => l.getD i d

def readAt (c : Nat → α) (off len : Nat) : List α := (range len).map fun i => c (off + i)

def writeAt (c : Nat → α) (off : Nat) (src : List α) : Nat → α := fun i =>
  if off ≤ i then src.getD (i - off) (c i) else c i

@[simp] theorem length_readAt (c : Nat → α) (off len : Nat) : (readAt c off len).length = len := by
  simp [readAt]

@[simp] theorem writeAt_nil (c : Nat → α) (off : Nat) : writeAt c off [] = c := by
  funext i
  simp [writeAt]

theorem writeAt_inside (c : Nat → α) (off : Nat) (src : List α) {i : Nat} (h : i < src.length) :
    writeAt c off src (off + i) = src[i] := by
  simp [writeAt, h]

theorem writeAt_outside (c : Nat → α) (off : Nat) (src : List α) {i : Nat} (h : i < off ∨ off + src.length ≤ i) :
    writeAt c off src i = c i := by
  unfold writeAt
  split
  · rw [getD_eq_default _ _ (by omega)]
  · rfl

theorem writeAt_append (c : Nat → α) (off : Nat) (a b : List α) :
    writeAt c off (a ++ b) = writeAt (writeAt c (off + a.length) b) off a := by
  funext i
  rcases Nat.lt_or_ge i off with hlt | hge
  · rw [writeAt_outside _ _ _ (.inl hlt), writeAt_outside _ _ _ (.inl hlt), writeAt_outside _ _ _ (.inl (by omega))]
  obtain ⟨j, rfl⟩ := Nat.exists_eq_add_of_le hge
  rcases Nat.lt_or_ge j a.length with hin | hout
  · rw [writeAt_inside _ _ _ hin, writeAt_inside _ _ _ (by rw [length_append]; omega), getElem_append_left hin]
  · rw [writeAt_outside _ off a (.inr (by omega))]
    unfold writeAt
    rw [if_pos (by omega), if_pos (by omega), getD_append_right _ _ _ _ (by omega)]
    congr 1
    omega

theorem writeAt_singleton_inj {c : Nat → α} {off : Nat} {a b : α} : writeAt c off [a] = writeAt c off [b] ↔ a = b := by
  constructor
  · intro h
    have hcell := congrFun h (off + 0)
    rwa [writeAt_inside c off [a] (by simp), writeAt_inside c off [b] (by simp)] at hcell
  · rintro rfl
    rfl

/-! ## Lists -/

theorem cells_append_replicate (d : α) (l : List α) (n : Nat) : cells d (l ++ replicate n d) = cells d l := by
  funext i
  unfold cells
  rcases Nat.lt_or_ge i l.length with h | h
  · rw [getD_append _ _ _ _ h]
  · rw [getD_append_right _ _ _ _ h, getD_eq_default l d h]
    simp [List.getElem?_replicate]
    split_ifs <;> rfl

theorem cells_replace (d : α) (l : List α) (off : Nat) (src : List α) (h : off + src.length ≤ l.length) :
    cells d (l.take off ++ src ++ l.drop (off + src.length)) = writeAt (cells d l) off src := by
  funext i
  have htake : (l.take off).length = off := by rw [length_take]; omega
  rcases Nat.lt_or_ge i off with hlt | hge
  · rw [writeAt_outside _ _ _ (.inl hlt)]
    unfold cells
    rw [append_assoc, getD_append _ _ _ _ (by omega)]
    simp [hlt]
  obtain ⟨j, rfl⟩ := Nat.exists_eq_add_of_le hge
  rcases Nat.lt_or_ge j src.length with hin | hout
  · rw [writeAt_inside _ _ _ hin]
    unfold cells
    rw [append_assoc, getD_append_right _ _ _ _ (by omega), htake, Nat.add_sub_cancel_left,
      getD_append _ _ _ _ hin, getD_eq_getElem _ _ hin]
  · rw [writeAt_outside _ _ _ (.inr (by omega))]
    unfold cells
    rw [getD_append_right _ _ _ _ (by rw [length_append]; omega), length_append]
    simp only [getD_eq_getElem?_getD, List.getElem?_drop]
    congr 2
    omega

theorem readAt_cells (d : α) (l : List α) (off len : Nat) :
    readAt (cells d l) off len = (l.drop off).take len ++ replicate (len - ((l.drop off).take len).length) d := by
  apply ext_getElem
  · have hle : ((l.drop off).take len).length ≤ len := length_take_le _ _
    rw [length_append, length_replicate, readAt, length_map, length_range]
    omega
  · intro i hi _
    have hlt : i < len := by simpa using hi
    simp only [readAt, getElem_map, getElem_range, cells]
    rcases Nat.lt_or_ge (off + i) l.length with h | h
    · rw [getElem_append_left (by simp; omega), getElem_take, getElem_drop, getD_eq_getElem _ _ h]
    · rw [getElem_append_right (by simp; omega), getElem_replicate, getD_eq_default _ _ h]

theorem readAt_cells_eq_iff (d : α) (l : List α) (off : Nat) {len : Nat} (h : 0 < len) :
    (l.drop off).take len = readAt (cells d l) off len ↔ off + len ≤ l.length := by
  constructor
  · intro heq
    have hlen := congrArg List.length heq
    simp only [length_take, length_drop, length_readAt] at hlen
    omega
  · intro hle
    have hlen : ((l.drop off).take len).length = len := by
      rw [length_take, length_drop]
      omega
    rw [readAt_cells, hlen, Nat.sub_self, replicate_zero, append_nil]

/-! ## Ledgers

A ledger gives each account an amount. `Moved` says that an amount goes from one account to another one, or to itself. The sum
over any accounts that the two are among stays the same. -/

section Ledgers
variable {ι : Type} [DecidableEq ι] {bal bal' : ι → Nat} {s r : ι} {v : Nat}

/-- `v` is taken from `s`, and then it is given to `r`. -/
def Moved (bal bal' : ι → Nat) (s r : ι) (v : Nat) : Prop :=
  v ≤ bal s ∧ bal' = Function.update (Function.update bal s (bal s - v)) r (Function.update bal s (bal s - v) r + v)

theorem sum_update_add (f : ι → Nat) {S : Finset ι} (hs : s ∈ S) (b : Nat) :
    ∑ a ∈ S, Function.update f s b a + f s = ∑ a ∈ S, f a + b := by
  rw [Finset.sum_update_of_mem hs, ← Finset.sum_sdiff (Finset.singleton_subset_iff.2 hs), Finset.sum_singleton]
  omega

theorem Moved.sum_eq (h : Moved bal bal' s r v) {S : Finset ι} (hs : s ∈ S) (hr : r ∈ S) :
    ∑ a ∈ S, bal' a = ∑ a ∈ S, bal a := by
  obtain ⟨hle, rfl⟩ := h
  have htake := sum_update_add bal hs (bal s - v)
  have hgive := sum_update_add (Function.update bal s (bal s - v)) hr (Function.update bal s (bal s - v) r + v)
  omega

end Ledgers

end Lib
