import In3.Lib.Bytes
/-!
# Pieces and walks

A string is cut into pieces of one length; what is left at the end is shorter than a piece. A walk goes
from state to state along a list of pieces, each step related by `R`.
-/

open List

namespace Lib

/-! ## Pieces -/

section Pieces
variable {α : Type}

def pieces (n : Nat) (b : List α) : List (List α) := (range (b.length / n)).map fun j => (b.drop (n * j)).take n

@[simp] theorem length_pieces (n : Nat) (b : List α) : (pieces n b).length = b.length / n := by
  rw [pieces, length_map, length_range]

theorem flatten_pieces_take (n k : Nat) (b : List α) :
    ((range k).map fun j => (b.drop (n * j)).take n).flatten = b.take (n * k) := by
  induction k with
  | zero => simp
  | succ k ih =>
    rw [range_succ, map_append, flatten_append, ih, Nat.mul_succ, take_add]
    simp

theorem pieces_append (n : Nat) (b : List α) : (pieces n b).flatten ++ b.drop (n * (b.length / n)) = b := by
  rw [pieces, flatten_pieces_take, take_append_drop]

theorem length_of_mem_pieces {n : Nat} {b s : List α} (h : s ∈ pieces n b) : s.length = n := by
  obtain ⟨j, hj, rfl⟩ := mem_map.1 h
  rw [mem_range] at hj
  have hle : n * (j + 1) ≤ b.length := (Nat.mul_le_mul_left n hj).trans (Nat.mul_div_le _ _)
  rw [Nat.mul_succ] at hle
  rw [length_take, length_drop]
  omega

theorem pieces_cons {n : Nat} {a b : List α} (hn : 0 < n) (ha : a.length = n) : pieces n (a ++ b) = a :: pieces n b := by
  have hlen : (a ++ b).length / n = b.length / n + 1 := by
    rw [length_append, ha, Nat.add_comm, Nat.add_div_right _ hn]
  unfold pieces
  rw [hlen, range_succ_eq_map, map_cons, map_map, Nat.mul_zero, drop_zero, take_left' ha]
  congr 1
  refine map_congr_left fun j _ => ?_
  rw [Function.comp_apply, Nat.mul_succ, Nat.add_comm, ← drop_drop, drop_left' ha]

theorem pieces_flatten_append {n : Nat} (hn : 0 < n) {l : List (List α)} (hl : ∀ a ∈ l, a.length = n) (b : List α) :
    pieces n (l.flatten ++ b) = l ++ pieces n b := by
  induction l with
  | nil => rfl
  | cons a l ih =>
    obtain ⟨ha, hl⟩ := forall_mem_cons.1 hl
    rw [flatten_cons, append_assoc, pieces_cons hn ha, ih hl]
    rfl

theorem pieces_flatten {n : Nat} (hn : 0 < n) {l : List (List α)} (hl : ∀ a ∈ l, a.length = n) : pieces n l.flatten = l := by
  have h := pieces_flatten_append hn hl []
  have hnil : pieces n ([] : List α) = [] := by
    unfold pieces
    rw [length_nil, Nat.zero_div]
    rfl
  rwa [hnil, append_nil, append_nil] at h

theorem pieces_split {n c : Nat} (hn : 0 < n) {b : List α} (h : n * c ≤ b.length) :
    pieces n b = pieces n (b.take (n * c)) ++ pieces n (b.drop (n * c)) := by
  have hlen : (b.take (n * c)).length = n * c := by rw [length_take, Nat.min_eq_left h]
  have hflat : (pieces n (b.take (n * c))).flatten = b.take (n * c) := by
    have hwhole := pieces_append n (b.take (n * c))
    rwa [hlen, Nat.mul_div_cancel_left _ hn, drop_of_length_le hlen.le, append_nil] at hwhole
  calc pieces n b = pieces n ((pieces n (b.take (n * c))).flatten ++ b.drop (n * c)) := by rw [hflat, take_append_drop]
    _ = _ := pieces_flatten_append hn (fun _ => length_of_mem_pieces) _

end Pieces

/-! ## Walks -/

section Along
variable {σ β : Type} {R : σ → β → σ → Prop}

def Along (R : σ → β → σ → Prop) : σ → List β → σ → Prop
  | s, [], t => t = s
  | s, x :: rest, t => ∃ m, R s x m ∧ Along R m rest t

theorem along_append {s t : σ} {xs ys : List β} : Along R s (xs ++ ys) t ↔ ∃ m, Along R s xs m ∧ Along R m ys t := by
  induction xs generalizing s with
  | nil => exact ⟨fun h => ⟨s, rfl, h⟩, by rintro ⟨m, rfl, h⟩; exact h⟩
  | cons x xs ih =>
    constructor
    · rintro ⟨m, hx, h⟩
      obtain ⟨k, hk, h⟩ := ih.1 h
      exact ⟨k, ⟨m, hx, hk⟩, h⟩
    · rintro ⟨k, ⟨m, hx, hk⟩, h⟩
      exact ⟨m, hx, ih.2 ⟨k, hk, h⟩⟩

theorem Along.unique (hR : ∀ {s x t u}, R s x t → R s x u → t = u) {s t u : σ} {xs : List β} (ht : Along R s xs t) (hu : Along R s xs u) :
    t = u := by
  induction xs generalizing s with
  | nil => exact ht.trans hu.symm
  | cons x xs ih =>
    obtain ⟨m, hm, ht⟩ := ht
    obtain ⟨m', hm', hu⟩ := hu
    obtain rfl := hR hm hm'
    exact ih ht hu

end Along

end Lib
