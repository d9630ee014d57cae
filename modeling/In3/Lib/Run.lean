import Mathlib.Tactic
/-!
# Runs that may fail or be undefined

A C function that returns an error code is a `Run`: it succeeds with a value,
fails with an error, or does something the language leaves undefined (`none`).
`Run.ok` says that it succeeds. Its lemmas take a run apart step by step, so a
proof about a successful run never unfolds the monad.
-/

namespace Lib

abbrev Run (ε α : Type) := ExceptT ε Option α

namespace Run
variable {ε α β : Type}

def ok (x : Run ε α) (a : α) : Prop := x.run = some (.ok a)

instance [DecidableEq ε] [DecidableEq α] (x : Run ε α) (a : α) : Decidable (ok x a) :=
  inferInstanceAs (Decidable (x.run = some (.ok a)))

/-- What has no defined result. -/
def undefined : Run ε α := ExceptT.mk none

/-- A value that is only defined in some cases. -/
def lift (x : Option α) : Run ε α := ExceptT.mk (x.map .ok)

def orFail {δ : Type} (x : Run ε α) (e : δ) : Run δ α :=
  ExceptT.mk (x.run.map fun r => match r with
    | .ok a => .ok a
    | .error _ => .error e)

theorem ok_iff {x : Run ε α} {a : α} : ok x a ↔ x.run = some (.ok a) := Iff.rfl

theorem run_undefined : (undefined : Run ε α).run = none := rfl

theorem run_lift {x : Option α} : (lift x : Run ε α).run = x.map .ok := rfl

@[simp] theorem ok_pure {a b : α} : ok (pure a : Run ε α) b ↔ a = b := by
  simp [ok_iff]

@[simp] theorem ok_throw {e : ε} {b : α} : ¬ ok (throw e : Run ε α) b := by
  simp [ok_iff]

@[simp] theorem ok_undefined {b : α} : ¬ ok (undefined : Run ε α) b := by
  simp [ok_iff, run_undefined]

@[simp] theorem ok_lift {x : Option α} {b : α} : ok (lift x : Run ε α) b ↔ x = some b := by
  cases x <;> simp [ok_iff, run_lift]

@[simp] theorem ok_bind {x : Run ε α} {f : α → Run ε β} {b : β} : ok (x >>= f) b ↔ ∃ a, ok x a ∧ ok (f a) b := by
  simp only [ok_iff]
  rw [ExceptT.run_bind]
  rcases h : x.run with _ | _ | a
  · simp
  · simp
  · simp

@[simp] theorem ok_check {p : Prop} [Decidable p] {e : ε} {f : α → Run ε β} {x : Run ε β} {b : β} :
    ok (if p then throw e >>= f else x) b ↔ ¬ p ∧ ok x b := by
  by_cases h : p <;> simp [h]

@[simp] theorem ok_ite_throw {p : Prop} [Decidable p] {e : ε} {x : Run ε β} {b : β} :
    ok (if p then throw e else x) b ↔ ¬ p ∧ ok x b := by
  by_cases h : p <;> simp [h]

@[simp] theorem ok_orFail {δ : Type} {x : Run ε α} {e : δ} {a : α} : ok (orFail x e) a ↔ ok x a := by
  unfold ok orFail
  rcases x.run with _ | _ | b <;> simp

theorem defined_bind {x : Run ε α} {f : α → Run ε β} (hx : ∃ r, x.run = some r) (hf : ∀ a, ∃ r, (f a).run = some r) :
    ∃ r, (x >>= f).run = some r := by
  obtain ⟨e | a, hx⟩ := hx
  · exact ⟨.error e, by rw [ExceptT.run_bind, hx]; rfl⟩
  · obtain ⟨r, hr⟩ := hf a
    exact ⟨r, by rw [ExceptT.run_bind, hx]; exact hr⟩

theorem ok_forM {f : α → Run ε Unit} {xs : List α} : ok (forM xs f) () ↔ ∀ x ∈ xs, ok (f x) () := by
  induction xs with
  | nil => simp
  | cons x xs ih =>
    rw [List.forM_cons, ok_bind, List.forall_mem_cons, ← ih]
    exact ⟨fun ⟨_, hx, hxs⟩ => ⟨hx, hxs⟩, fun ⟨hx, hxs⟩ => ⟨(), hx, hxs⟩⟩

end Run

end Lib
