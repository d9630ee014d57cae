import In3.Lib.Bytes
/-!
# Hash functions

A hash function is any function to 32-byte strings. Nothing here says that it is
hard to invert; a result that needs it names the strings that must not collide.
-/

namespace Lib

/-- A hash function with 32-byte digests. -/
structure Hash where
  fn : Bytes → Bytes
  len : ∀ b, (fn b).length = 32

/-- The hash function with the given digests, and zero for every other string. -/
def Hash.ofTable (table : List (Bytes × Bytes)) : Hash where
  fn b := List.takeD 32 ((table.lookup b).getD []) 0
  len _ := List.takeD_length 32 _ 0

/-- No string of `xs` collides with a string of `ys`. -/
def NoCollision (H : Hash) (xs ys : List Bytes) : Prop := ∀ x ∈ xs, ∀ y ∈ ys, H.fn x = H.fn y → x = y

instance (H : Hash) (xs ys : List Bytes) : Decidable (NoCollision H xs ys) :=
  inferInstanceAs (Decidable (∀ x ∈ xs, ∀ y ∈ ys, H.fn x = H.fn y → x = y))

theorem NoCollision.tail {H : Hash} {x y : Bytes} {xs ys : List Bytes} (h : NoCollision H (x :: xs) (y :: ys)) :
    NoCollision H xs ys :=
  fun a ha b hb => h a (List.mem_cons_of_mem _ ha) b (List.mem_cons_of_mem _ hb)

end Lib
