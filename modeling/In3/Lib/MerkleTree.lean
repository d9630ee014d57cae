import Mathlib.Data.List.Basic
import Mathlib.Tactic
/-!
# Binary hash trees over a list

The leaves are joined in pairs, level by level, by a function `node`; the last one of an odd level is
joined with itself. `root` is what is left, `branch` collects the siblings on the way up from a leaf, and
`climb` joins a value with them by the bits of an index. Climbing from a leaf along its branch gives
the root (`climb_branch`).
-/

open List

namespace Lib.MerkleTree
variable {α : Type} (node : α → α → α)

/-- The next level. -/
def parents : List α → List α
  | [] => []
  | [a] => [node a a]
  | a :: b :: rest => node a b :: parents rest

@[simp] theorem length_parents (l : List α) : (parents node l).length = (l.length + 1) / 2 := by
  fun_induction parents node l with
  | case1 => simp
  | case2 a => simp
  | case3 a b rest ih =>
    simp only [length_cons]
    omega

/-- The value next to place `i`; the last value of an odd level is its own neighbour. -/
def sibling (d : α) (l : List α) (i : Nat) : α :=
  if i % 2 = 1 then l.getD (i - 1) d else if i + 1 < l.length then l.getD (i + 1) d else l.getD i d

theorem getD_parents (d : α) (l : List α) {i : Nat} (h : 2 * i < l.length) :
    (parents node l).getD i d = node (l.getD (2 * i) d) (sibling d l (2 * i)) := by
  fun_induction parents node l generalizing i with
  | case1 => simp at h
  | case2 a =>
    obtain rfl : i = 0 := by simp at h; omega
    rfl
  | case3 a b rest ih =>
    cases i with
    | zero => simp [sibling]
    | succ i =>
      have hi : 2 * i < rest.length := by simp at h; omega
      have hstep : sibling d (a :: b :: rest) (2 * (i + 1)) = sibling d rest (2 * i) := by
        have hlast : 2 * (i + 1) + 1 < (a :: b :: rest).length ↔ 2 * i + 1 < rest.length := by
          simp only [length_cons]
          omega
        unfold sibling
        rw [if_neg (by omega : ¬ 2 * (i + 1) % 2 = 1), if_neg (by omega : ¬ 2 * i % 2 = 1)]
        simp only [hlast]
        rw [show 2 * (i + 1) = 2 * i + 1 + 1 by ring]
        simp only [getD_cons_succ]
      rw [getD_cons_succ, ih hi, hstep, show 2 * (i + 1) = 2 * i + 1 + 1 by ring, getD_cons_succ, getD_cons_succ]

theorem getD_parents_half (d : α) (l : List α) {i : Nat} (h : i < l.length) :
    (parents node l).getD (i / 2) d =
      if i % 2 = 1 then node (sibling d l i) (l.getD i d) else node (l.getD i d) (sibling d l i) := by
  have hhalf : 2 * (i / 2) < l.length := by omega
  rw [getD_parents node d l hhalf]
  by_cases hodd : i % 2 = 1
  · rw [if_pos hodd]
    have hleft : 2 * (i / 2) = i - 1 := by omega
    have hsib : sibling d l (i - 1) = l.getD i d := by
      unfold sibling
      rw [if_neg (by omega), if_pos (by omega), show i - 1 + 1 = i by omega]
    rw [hleft, hsib, sibling, if_pos hodd]
  · rw [if_neg hodd, show 2 * (i / 2) = i by omega]

/-- The root; `d` is the root of no leaves. The number bounds the levels. -/
def rootWithin (d : α) : Nat → List α → α
  | 0, l => l.headD d
  | n + 1, l => if l.length ≤ 1 then l.headD d else rootWithin d n (parents node l)

def root (d : α) (l : List α) : α := rootWithin node d l.length l

/-- Levels above the root change nothing. -/
theorem rootWithin_eq (d : α) {m n : Nat} {l : List α} (hm : l.length ≤ m + 1) (hn : l.length ≤ n + 1) :
    rootWithin node d m l = rootWithin node d n l := by
  induction m generalizing n l with
  | zero =>
    cases n with
    | zero => rfl
    | succ n => rw [rootWithin, rootWithin, if_pos hm]
  | succ m ih =>
    rw [rootWithin]
    cases n with
    | zero => rw [if_pos (by omega), rootWithin]
    | succ n =>
      rw [rootWithin]
      split_ifs with hone
      · rfl
      · exact ih (by rw [length_parents]; omega) (by rw [length_parents]; omega)

theorem root_eq_parents (d : α) {l : List α} (h : 1 < l.length) : root node d l = root node d (parents node l) := by
  obtain ⟨n, hn⟩ : ∃ n, l.length = n + 1 := ⟨l.length - 1, by omega⟩
  unfold root
  rw [hn, rootWithin, if_neg (by omega)]
  exact rootWithin_eq node d (by rw [length_parents]; omega) (by omega)

/-- The siblings on the way up from place `i`. -/
def branchWithin (d : α) : Nat → List α → Nat → List α
  | 0, _, _ => []
  | n + 1, l, i => if l.length ≤ 1 then [] else sibling d l i :: branchWithin d n (parents node l) (i / 2)

def branch (d : α) (l : List α) (i : Nat) : List α := branchWithin node d l.length l i

/-- A value joined with the given siblings, steered by the bits of the index. -/
def climb : α → Int → List α → α
  | h, _, [] => h
  | h, i, s :: rest => climb (if i % 2 = 1 then node s h else node h s) (i / 2) rest

theorem climb_branchWithin (d : α) {n : Nat} {l : List α} {i : Nat} (hn : l.length ≤ n + 1) (hi : i < l.length) :
    climb node (l.getD i d) i (branchWithin node d n l i) = rootWithin node d n l := by
  induction n generalizing l i with
  | zero =>
    obtain rfl : i = 0 := by omega
    cases l <;> rfl
  | succ n ih =>
    rw [branchWithin, rootWithin]
    by_cases hone : l.length ≤ 1
    · rw [if_pos hone, if_pos hone]
      obtain rfl : i = 0 := by omega
      cases l <;> rfl
    · have hstep := getD_parents_half node d l hi
      have hbit : ((i : Int) % 2 = 1) ↔ i % 2 = 1 := by omega
      rw [if_neg hone, if_neg hone, climb]
      simp only [hbit]
      rw [← hstep]
      exact ih (by rw [length_parents]; omega) (by rw [length_parents]; omega)

/-- Along its branch every leaf climbs to the root. -/
theorem climb_branch (d : α) {l : List α} {i : Nat} (hi : i < l.length) :
    climb node (l.getD i d) i (branch node d l i) = root node d l :=
  climb_branchWithin node d (by omega) hi

/-! ## Values with a property -/

section Forall
variable {P : α → Prop} (hnode : ∀ a b, P (node a b))
include hnode

theorem forall_parents (l : List α) : ∀ x ∈ parents node l, P x := by
  fun_induction parents node l with
  | case1 => simp
  | case2 a => simpa using hnode a a
  | case3 a b rest ih => simpa using ⟨hnode a b, ih⟩

theorem forall_root (d : α) {l : List α} (hne : l ≠ []) (hl : ∀ x ∈ l, P x) : P (root node d l) := by
  have hall : ∀ n (l : List α), l ≠ [] → (∀ x ∈ l, P x) → P (rootWithin node d n l) := by
    intro n
    induction n with
    | zero =>
      intro l hne hl
      obtain ⟨a, rest, rfl⟩ := exists_cons_of_ne_nil hne
      exact hl a mem_cons_self
    | succ n ih =>
      intro l hne hl
      obtain ⟨a, rest, rfl⟩ := exists_cons_of_ne_nil hne
      rw [rootWithin]
      split_ifs with hone
      · exact hl a mem_cons_self
      · refine ih _ (fun h => ?_) (forall_parents node hnode _)
        have := congrArg List.length h
        rw [length_parents, length_nil] at this
        omega
  exact hall _ l hne hl

theorem forall_branch (d : α) {l : List α} (hl : ∀ x ∈ l, P x) {i : Nat} (hi : i < l.length) :
    ∀ x ∈ branch node d l i, P x := by
  have hmem : ∀ (l : List α) j, j < l.length → (∀ x ∈ l, P x) → P (l.getD j d) := by
    intro l j hj hl
    rw [getD_eq_getElem?_getD, List.getElem?_eq_getElem hj]
    exact hl _ (getElem_mem hj)
  have hall : ∀ n (l : List α) i, i < l.length → (∀ x ∈ l, P x) → ∀ x ∈ branchWithin node d n l i, P x := by
    intro n
    induction n with
    | zero => simp [branchWithin]
    | succ n ih =>
      intro l i hi hl
      rw [branchWithin]
      split_ifs with hone
      · simp
      · simp only [mem_cons, forall_eq_or_imp]
        refine ⟨?_, ih _ _ (by rw [length_parents]; omega) (forall_parents node hnode _)⟩
        unfold sibling
        split_ifs with hodd hright
        · exact hmem l _ (by omega) hl
        · exact hmem l _ hright hl
        · exact hmem l _ hi hl
  exact hall _ l i hi hl

end Forall

end Lib.MerkleTree
