import In3.Lib.Guarded
/-!
# Readings of a string

A `Reading` takes fields off the front of a string. It stops with `cut` where the string ends inside of
a field, and with `over` where a length that was read goes beyond the end. A run that walks over the
string with a pointer `Mirrors` the reading if it faults where the reading is cut, fails where it is
over, and succeeds with a related result where the reading does; `mirrors_bind` follows a sequence.
A `Row` of values stands one behind the other at the front of a string.
-/

open List

namespace Lib

inductive Stop where
  | cut
  | over
  deriving DecidableEq, Repr

abbrev Reading (β : Type) := Except Stop β

theorem Reading.bind_eq_ok {α β : Type} {x : Reading α} {f : α → Reading β} {b : β} :
    (x >>= f) = .ok b ↔ ∃ a, x = .ok a ∧ f a = .ok b := by
  cases x <;> simp [bind, Except.bind]

theorem Reading.check_eq_ok {α : Type} {p : Prop} [Decidable p] {s : Stop} {x : Reading α} {a : α} :
    (if p then throw s else x) = .ok a ↔ ¬ p ∧ x = .ok a := by
  by_cases h : p <;> simp [h]

section Mirrors
variable {φ ε α β γ δ : Type}

/-- The run does what the reading says; `e` is its error. -/
def Mirrors (e : ε) (x : Guarded φ ε α) (y : Reading β) (P : β → α → Prop) : Prop :=
  match y with
  | .error .cut => ∃ f, Guarded.faults x f
  | .error .over => Guarded.raises x e
  | .ok b => ∃ a, Guarded.ok x a ∧ P b a

variable {e : ε}

theorem mirrors_pure {a : α} {b : β} {P : β → α → Prop} (h : P b a) : Mirrors e (pure a : Guarded φ ε α) (pure b) P :=
  ⟨a, Guarded.ok_pure.2 rfl, h⟩

theorem mirrors_throw {P : β → α → Prop} : Mirrors e (throw e : Guarded φ ε α) (throw .over : Reading β) P :=
  Guarded.raises_throw.2 rfl

theorem mirrors_bind {x : Guarded φ ε α} {y : Reading β} {P : β → α → Prop} {f : α → Guarded φ ε γ} {g : β → Reading δ}
    {Q : δ → γ → Prop} (hx : Mirrors e x y P) (hf : ∀ b a, y = .ok b → P b a → Mirrors e (f a) (g b) Q) :
    Mirrors e (x >>= f) (y >>= g) Q := by
  rcases y with (_ | _) | b
  · obtain ⟨k, hk⟩ := hx
    exact ⟨k, Guarded.faults_bind.2 (.inl hk)⟩
  · exact Guarded.raises_bind.2 (.inl hx)
  · obtain ⟨a, ha, hP⟩ := hx
    have hnext := hf b a rfl hP
    show Mirrors e (x >>= f) (g b) Q
    rcases hg : g b with (_ | _) | d
    · rw [hg] at hnext
      obtain ⟨k, hk⟩ := hnext
      exact ⟨k, Guarded.faults_bind.2 (.inr ⟨a, ha, hk⟩)⟩
    · rw [hg] at hnext
      exact Guarded.raises_bind.2 (.inr ⟨a, ha, hnext⟩)
    · rw [hg] at hnext
      obtain ⟨c, hc, hQ⟩ := hnext
      exact ⟨c, Guarded.ok_bind.2 ⟨a, ha, hc⟩, hQ⟩

theorem mirrors_of_ok {x : Guarded φ ε α} {a : α} {f : α → Guarded φ ε γ} {y : Reading δ} {Q : δ → γ → Prop}
    (hx : Guarded.ok x a) (hf : Mirrors e (f a) y Q) : Mirrors e (x >>= f) y Q := by
  have hstep : Mirrors e x (pure a : Reading α) fun b c => c = b := ⟨a, hx, rfl⟩
  show Mirrors e (x >>= f) ((pure a : Reading α) >>= fun _ => y) Q
  refine mirrors_bind hstep ?_
  rintro b _ hb rfl
  cases hb
  exact hf

theorem Mirrors.of_ok {x : Guarded φ ε α} {y : Reading β} {P : β → α → Prop} (h : Mirrors e x y P) {a : α}
    (ha : Guarded.ok x a) : ∃ b, y = .ok b ∧ P b a := by
  rcases y with (_ | _) | b
  · obtain ⟨f, hf⟩ := h
    exact absurd hf (Guarded.safe_of_ok ha f)
  · exact absurd ha (Guarded.not_ok_of_raises h a)
  · obtain ⟨a', ha', hP⟩ := h
    exact ⟨b, rfl, Guarded.ok_unique ha ha' ▸ hP⟩

end Mirrors

/-! ## Rows of values -/

section Row
variable {σ α β : Type} {R : List σ → β → Nat → Prop}

/-- The values stand one behind the other; `R s x w` says that `x` is at the front of `s` and takes `w` symbols. -/
def Row (R : List σ → β → Nat → Prop) : List β → List σ → Nat → Prop
  | [], _, w => w = 0
  | x :: rest, s, w => ∃ u v, R s x u ∧ Row R rest (s.drop u) v ∧ w = u + v

theorem Row.unique (hR : ∀ {s x u v}, R s x u → R s x v → u = v) {xs : List β} {s : List σ} {w w' : Nat} (h : Row R xs s w)
    (h' : Row R xs s w') : w = w' := by
  induction xs generalizing s w w' with
  | nil => exact h.trans h'.symm
  | cons x rest ih =>
    obtain ⟨u, v, hx, hrest, rfl⟩ := h
    obtain ⟨u', v', hx', hrest', rfl⟩ := h'
    obtain rfl := hR hx hx'
    rw [ih hrest hrest']

/-- Values that are each read from their own code are read from their codes in a row. -/
theorem row_flatten {f : α → β} {enc : α → List σ} {xs : List α} (h : ∀ x ∈ xs, ∀ rest, R (enc x ++ rest) (f x) (enc x).length)
    (rest : List σ) : Row R (xs.map f) ((xs.map enc).flatten ++ rest) (xs.map enc).flatten.length := by
  induction xs with
  | nil => rfl
  | cons x xs ih =>
    obtain ⟨hx, hxs⟩ := forall_mem_cons.1 h
    rw [map_cons, map_cons, flatten_cons, append_assoc, length_append]
    refine ⟨_, _, hx _, ?_, rfl⟩
    rw [drop_left]
    exact ih hxs

theorem row_flatten_self {enc : β → List σ} {xs : List β} (h : ∀ x ∈ xs, ∀ rest, R (enc x ++ rest) x (enc x).length) (rest : List σ) :
    Row R xs ((xs.map enc).flatten ++ rest) (xs.map enc).flatten.length := by
  have hrow := row_flatten (f := id) h rest
  rwa [map_id] at hrow

/-- If some value is not read from its code for some `z`, then the row is not read for the `z` of the first such value: the
values before it are read whatever `z` is. -/
theorem exists_not_row {ζ : Type} (hR : ∀ {s x u v}, R s x u → R s x v → u = v) {f : α → β} {good : α → Prop} {enc : ζ → α → List σ}
    {xs : List α} (hgood : ∀ x ∈ xs, good x → ∀ z rest, R (enc z x ++ rest) (f x) (enc z x).length)
    (hbad : ∀ x ∈ xs, ¬ good x → ∃ z, ∀ rest w, ¬ R (enc z x ++ rest) (f x) w) (h : ∃ x ∈ xs, ¬ good x) :
    ∃ z, ∀ rest w, ¬ Row R (xs.map f) ((xs.map (enc z)).flatten ++ rest) w := by
  induction xs with
  | nil =>
    obtain ⟨x, hx, -⟩ := h
    cases hx
  | cons x xs ih =>
    obtain ⟨hgx, hgxs⟩ := forall_mem_cons.1 hgood
    obtain ⟨hbx, hbxs⟩ := forall_mem_cons.1 hbad
    by_cases hx : good x
    · obtain ⟨z, hz⟩ := ih hgxs hbxs (by
        obtain ⟨y, hy, hny⟩ := h
        rcases mem_cons.1 hy with rfl | hy
        · exact absurd hx hny
        · exact ⟨y, hy, hny⟩)
      refine ⟨z, fun rest w hrow => ?_⟩
      rw [map_cons, map_cons, flatten_cons, append_assoc] at hrow
      obtain ⟨u, v, hu, hv, -⟩ := hrow
      obtain rfl := hR hu (hgx hx z _)
      rw [drop_left] at hv
      exact hz rest v hv
    · obtain ⟨z, hz⟩ := hbx hx
      refine ⟨z, fun rest w hrow => ?_⟩
      rw [map_cons, map_cons, flatten_cons, append_assoc] at hrow
      obtain ⟨u, v, hu, -⟩ := hrow
      exact hz _ _ hu

end Row

end Lib
