import In3.Lib.Guarded
/-!
# Runs over a state

A `Machine` run changes a state and ends with a value or with an error, or it stops with a fault.
The state of a run that ends with an error is the one it left behind. `Machine.ends` describes an
outcome and its lemmas take a run apart step by step.

The state may hold a record to which a run appends. `Machine.Follows` is a relation between the part
of the record that a run appended, the states before and behind it, and its error, if any. For a
relation that chains (`Machine.Chains`) it follows the parts of the run.
-/

namespace Lib

/-- A run over the state `σ` with errors in `ε` and faults in `φ`. -/
abbrev Machine (σ φ ε α : Type) := ExceptT ε (StateT σ (Except φ)) α

namespace Machine
variable {σ φ ε α β : Type} {x : Machine σ φ ε α} {f : α → Machine σ φ ε β} {s s' t : σ} {q r : Except ε α}

/-- The run from `s` ends with `r` in `s'`. -/
def ends (x : Machine σ φ ε α) (s : σ) (r : Except ε α) (s' : σ) : Prop := x.run.run s = .ok (r, s')

def faults (x : Machine σ φ ε α) (s : σ) (f : φ) : Prop := x.run.run s = .error f

instance [DecidableEq σ] [DecidableEq φ] [DecidableEq ε] [DecidableEq α] (x : Machine σ φ ε α) (s : σ) (r : Except ε α)
    (s' : σ) : Decidable (ends x s r s') :=
  inferInstanceAs (Decidable (x.run.run s = .ok (r, s')))

instance [DecidableEq σ] [DecidableEq φ] [DecidableEq ε] [DecidableEq α] (x : Machine σ φ ε α) (s : σ) (f : φ) :
    Decidable (faults x s f) :=
  inferInstanceAs (Decidable (x.run.run s = .error f))

def fault (f : φ) : Machine σ φ ε α := ExceptT.mk fun _ => .error f

/-- A run that does not touch the state. -/
def ofGuarded (x : Guarded φ ε α) : Machine σ φ ε α := ExceptT.mk fun s => x.run.map fun r => (r, s)

/-- The outcome of a run as a value: the run itself does not fail. -/
def attempt (x : Machine σ φ ε α) : Machine σ φ ε (Except ε α) :=
  ExceptT.mk fun s => (x.run.run s).map fun p => (.ok p.1, p.2)

/-- The value or the error of a result. -/
def ofExcept (r : Except ε α) : Machine σ φ ε α := ExceptT.mk fun s => .ok (r, s)

def mapError (f : ε → ε) (x : Machine σ φ ε α) : Machine σ φ ε α :=
  ExceptT.mk fun s => (x.run.run s).map fun p => (p.1.mapError f, p.2)

theorem ends_of_run (h : x.run.run s = .ok (q, t)) : ends x s r s' ↔ r = q ∧ s' = t := by
  rw [ends, h, Except.ok.injEq, Prod.mk.injEq, eq_comm, @eq_comm _ t]

theorem ends_unique {u : σ} (h : ends x s q t) (h' : ends x s r u) : q = r ∧ t = u := by
  obtain ⟨rfl, rfl⟩ := (ends_of_run h').1 h
  exact ⟨rfl, rfl⟩

@[simp] theorem ends_pure {a : α} : ends (pure a : Machine σ φ ε α) s r s' ↔ r = .ok a ∧ s' = s := ends_of_run rfl

@[simp] theorem ends_throw {e : ε} : ends (throw e : Machine σ φ ε α) s r s' ↔ r = .error e ∧ s' = s := ends_of_run rfl

@[simp] theorem ends_fault {f : φ} : ¬ ends (fault f : Machine σ φ ε α) s r s' := by
  simp [ends, fault, ExceptT.run, ExceptT.mk, StateT.run]

@[simp] theorem ends_get {r : Except ε σ} : ends (get : Machine σ φ ε σ) s r s' ↔ r = .ok s ∧ s' = s := ends_of_run rfl

@[simp] theorem ends_set {r : Except ε PUnit} : ends (set t : Machine σ φ ε PUnit) s r s' ↔ r = .ok ⟨⟩ ∧ s' = t :=
  ends_of_run rfl

@[simp] theorem ends_modify {f : σ → σ} {r : Except ε PUnit} :
    ends (modify f : Machine σ φ ε PUnit) s r s' ↔ r = .ok ⟨⟩ ∧ s' = f s := ends_of_run rfl

@[simp] theorem ends_ofExcept : ends (ofExcept q : Machine σ φ ε α) s r s' ↔ r = q ∧ s' = s := ends_of_run rfl

theorem ends_bind {r : Except ε β} :
    ends (x >>= f) s r s' ↔
      (∃ a t, ends x s (.ok a) t ∧ ends (f a) t r s') ∨ ∃ e, r = .error e ∧ ends x s (.error e) s' := by
  have hrun : (x >>= f).run.run s = match x.run.run s with
      | .error g => .error g
      | .ok (.error e, t) => .ok (.error e, t)
      | .ok (.ok a, t) => (f a).run.run t := by
    simp only [bind, ExceptT.bind, ExceptT.run, ExceptT.mk, StateT.bind, StateT.run]
    rcases x s with g | ⟨e | a, t⟩ <;> rfl
  unfold ends
  rw [hrun]
  rcases hx : x.run.run s with g | ⟨e | a, t⟩
  · simp
  · simp only [Except.ok.injEq, Prod.mk.injEq, reduceCtorEq, false_and, exists_false, false_or, Except.error.injEq]
    constructor
    · rintro ⟨rfl, rfl⟩
      exact ⟨e, rfl, rfl, rfl⟩
    · rintro ⟨_, rfl, rfl, rfl⟩
      exact ⟨rfl, rfl⟩
  · simp only [Except.ok.injEq, Prod.mk.injEq, reduceCtorEq, false_and, and_false, exists_false, or_false]
    constructor
    · intro h
      exact ⟨a, t, ⟨rfl, rfl⟩, h⟩
    · rintro ⟨_, _, ⟨rfl, rfl⟩, h⟩
      exact h

theorem ends_bind_of_ok {a : α} {r : Except ε β} (h : ends x s (.ok a) t) : ends (x >>= f) s r s' ↔ ends (f a) t r s' := by
  rw [ends_bind]
  constructor
  · rintro (⟨b, u, hx, hf⟩ | ⟨e, rfl, hx⟩)
    · obtain ⟨hb, rfl⟩ := ends_unique hx h
      rw [Except.ok.inj hb] at hf
      exact hf
    · exact absurd (ends_unique hx h).1 (by simp)
  · intro hf
    exact .inl ⟨a, t, h, hf⟩

@[simp] theorem ends_bind_ok {b : β} :
    ends (x >>= f) s (.ok b) s' ↔ ∃ a t, ends x s (.ok a) t ∧ ends (f a) t (.ok b) s' := by
  rw [ends_bind]
  simp

theorem ends_ofGuarded {x : Guarded φ ε α} : ends (ofGuarded x : Machine σ φ ε α) s r s' ↔ x.run = .ok r ∧ s' = s := by
  unfold ends ofGuarded
  rw [ExceptT.run_mk]
  simp only [StateT.run]
  rcases x.run with g | q
  · simp [Except.map]
  · simp only [Except.map, Except.ok.injEq, Prod.mk.injEq, @eq_comm _ s']

@[simp] theorem ends_ofGuarded_ok {x : Guarded φ ε α} {a : α} :
    ends (ofGuarded x : Machine σ φ ε α) s (.ok a) s' ↔ Guarded.ok x a ∧ s' = s := ends_ofGuarded

theorem ends_ofGuarded_error {x : Guarded φ ε α} {e : ε} :
    ends (ofGuarded x : Machine σ φ ε α) s (.error e) s' ↔ Guarded.raises x e ∧ s' = s := ends_ofGuarded

/-- A run whose outcome is changed behind its end. -/
theorem ends_map {γ : Type} {g : Except ε α → Except ε γ} {r : Except ε γ} :
    ends (ExceptT.mk fun s => (x.run.run s).map fun p => (g p.1, p.2) : Machine σ φ ε γ) s r s' ↔
      ∃ q, r = g q ∧ ends x s q s' := by
  unfold ends
  rw [ExceptT.run_mk]
  simp only [StateT.run]
  rcases hx : x.run s with e | ⟨q, t⟩
  · simp [Except.map]
  · simp only [Except.map, Except.ok.injEq, Prod.mk.injEq]
    constructor
    · rintro ⟨rfl, rfl⟩
      exact ⟨q, rfl, rfl, rfl⟩
    · rintro ⟨_, rfl, rfl, rfl⟩
      exact ⟨rfl, rfl⟩

@[simp] theorem ends_attempt {r : Except ε (Except ε α)} :
    ends (attempt x) s r s' ↔ ∃ q, r = .ok q ∧ ends x s q s' := ends_map

theorem ends_mapError {f : ε → ε} : ends (mapError f x) s r s' ↔ ∃ q, r = q.mapError f ∧ ends x s q s' := ends_map

/-! A first part that always succeeds is gone through. -/

@[simp] theorem ends_get_bind {f : σ → Machine σ φ ε α} :
    ends (get >>= f) s r s' ↔ ends (f s) s r s' := ends_bind_of_ok (ends_get.2 ⟨rfl, rfl⟩)

@[simp] theorem ends_set_bind {f : PUnit → Machine σ φ ε α} :
    ends (set t >>= f) s r s' ↔ ends (f ⟨⟩) t r s' := ends_bind_of_ok (ends_set.2 ⟨rfl, rfl⟩)

@[simp] theorem ends_modify_bind {g : σ → σ} {f : PUnit → Machine σ φ ε α} :
    ends (modify g >>= f) s r s' ↔ ends (f ⟨⟩) (g s) r s' := ends_bind_of_ok (ends_modify.2 ⟨rfl, rfl⟩)

theorem ends_attempt_bind {f : Except ε α → Machine σ φ ε β} {r : Except ε β} :
    ends (attempt x >>= f) s r s' ↔ ∃ q t, ends x s q t ∧ ends (f q) t r s' := by
  rw [ends_bind]
  simp only [ends_attempt]
  constructor
  · rintro (⟨q, t, ⟨_, hq, hx⟩, hf⟩ | ⟨_, _, _, hq, _⟩)
    · rw [← Except.ok.inj hq] at hx
      exact ⟨q, t, hx, hf⟩
    · cases hq
  · rintro ⟨q, t, hx, hf⟩
    exact .inl ⟨q, t, ⟨q, rfl, hx⟩, hf⟩

/-! ## Runs without an error -/

/-- The run does not end with an error; it may stop with a fault. -/
def Sure (x : Machine σ φ ε α) : Prop := ∀ s e s', ¬ ends x s (.error e) s'

theorem sure_pure (a : α) : Sure (pure a : Machine σ φ ε α) := by
  intro s e s' h
  cases (ends_pure.1 h).1

theorem sure_fault (f : φ) : Sure (fault f : Machine σ φ ε α) := fun _ _ _ => ends_fault

theorem sure_get : Sure (get : Machine σ φ ε σ) := by
  intro s e s' h
  cases (ends_get.1 h).1

theorem sure_set (t : σ) : Sure (set t : Machine σ φ ε PUnit) := by
  intro s e s' h
  cases (ends_set.1 h).1

theorem sure_modify (f : σ → σ) : Sure (modify f : Machine σ φ ε PUnit) := by
  intro s e s' h
  cases (ends_modify.1 h).1

theorem sure_attempt (x : Machine σ φ ε α) : Sure (attempt x) := by
  intro s e s' h
  obtain ⟨q, hq, -⟩ := ends_attempt.1 h
  cases hq

theorem sure_ofGuarded {x : Guarded φ ε α} (h : Guarded.errorless x) : Sure (ofGuarded x : Machine σ φ ε α) := by
  intro s e s' hx
  exact h e (ends_ofGuarded_error.1 hx).1

theorem Sure.bind (hx : Sure x) (hf : ∀ a, Sure (f a)) : Sure (x >>= f) := by
  intro s e s' h
  rcases ends_bind.1 h with ⟨a, t, -, hfa⟩ | ⟨_, -, hxe⟩
  · exact hf a t e s' hfa
  · exact hx s _ s' hxe

theorem Sure.ends_bind (hx : Sure x) {r : Except ε β} :
    ends (x >>= f) s r s' ↔ ∃ a t, ends x s (.ok a) t ∧ ends (f a) t r s' := by
  rw [Machine.ends_bind]
  constructor
  · rintro (h | ⟨e, -, h⟩)
    · exact h
    · exact absurd h (hx s e s')
  · exact .inl

/-! ## Records -/

def errorOf (r : Except ε α) : Option ε :=
  match r with
  | .ok _ => none
  | .error e => some e

@[simp] theorem errorOf_ok (a : α) : errorOf (.ok a : Except ε α) = none := rfl

@[simp] theorem errorOf_error (e : ε) : errorOf (.error e : Except ε α) = some e := rfl

section
variable {τ : Type} {log : σ → List τ} {R S : List τ → σ → Option ε → σ → Prop}

/-- Every outcome of the run from `s` meets `R`, with what it appended to the record. -/
def FollowsAt (log : σ → List τ) (R : List τ → σ → Option ε → σ → Prop) (s : σ) (x : Machine σ φ ε α) : Prop :=
  ∀ r s', ends x s r s' → ∃ new, log s' = log s ++ new ∧ R new s (errorOf r) s'

/-- The same from every state. -/
def Follows (log : σ → List τ) (R : List τ → σ → Option ε → σ → Prop) (x : Machine σ φ ε α) : Prop :=
  ∀ s, FollowsAt log R s x

/-- A relation that holds for a run of several parts as soon as it holds for each of them. -/
structure Chains (R : List τ → σ → Option ε → σ → Prop) : Prop where
  stop : ∀ s, R [] s none s
  seq : ∀ {m n s t u o}, R m s none t → R n t o u → R (m ++ n) s o u

theorem Follows.mono (h : Follows log R x) (hRS : ∀ new s o s', R new s o s' → S new s o s') :
    Follows log S x := by
  intro s r s' hx
  obtain ⟨new, hlog, hR⟩ := h s r s' hx
  exact ⟨new, hlog, hRS _ _ _ _ hR⟩

theorem Follows.fault (f : φ) : Follows log R (Machine.fault f : Machine σ φ ε α) :=
  fun _ _ _ h => absurd h ends_fault

theorem Follows.modify {f : σ → σ} (hlog : ∀ s, log (f s) = log s) (hR : ∀ s, R [] s none (f s)) :
    Follows log R (modify f : Machine σ φ ε PUnit) := by
  intro s r s' h
  obtain ⟨rfl, rfl⟩ := ends_modify.1 h
  exact ⟨[], by rw [hlog, List.append_nil], hR s⟩

theorem Follows.throw {e : ε} (he : ∀ s, R [] s (some e) s) : Follows log R (throw e : Machine σ φ ε α) := by
  intro s r s' h
  obtain ⟨rfl, rfl⟩ := ends_throw.1 h
  exact ⟨[], by rw [List.append_nil], he _⟩

theorem Follows.ofExcept (hq : ∀ s, R [] s (errorOf q) s) :
    Follows log R (Machine.ofExcept q : Machine σ φ ε α) := by
  intro s r s' h
  obtain ⟨rfl, rfl⟩ := ends_ofExcept.1 h
  exact ⟨[], by rw [List.append_nil], hq _⟩

section
variable (hc : Chains R)
include hc

theorem Follows.pure (a : α) : Follows log R (pure a : Machine σ φ ε α) := by
  intro s r s' h
  obtain ⟨rfl, rfl⟩ := ends_pure.1 h
  exact ⟨[], by rw [List.append_nil], hc.stop _⟩

theorem Follows.get : Follows log R (get : Machine σ φ ε σ) := by
  intro s r s' h
  obtain ⟨rfl, rfl⟩ := ends_get.1 h
  exact ⟨[], by rw [List.append_nil], hc.stop _⟩

theorem Follows.ofGuarded {x : Guarded φ ε α} (hx : ∀ e s, Guarded.raises x e → R [] s (some e) s) :
    Follows log R (Machine.ofGuarded x : Machine σ φ ε α) := by
  intro s r s' h
  rcases r with e | a
  · obtain ⟨he, rfl⟩ := ends_ofGuarded_error.1 h
    exact ⟨[], by rw [List.append_nil], hx e _ he⟩
  · obtain ⟨-, rfl⟩ := ends_ofGuarded_ok.1 h
    exact ⟨[], by rw [List.append_nil], hc.stop _⟩

theorem FollowsAt.bind (hx : FollowsAt log R s x)
    (hf : ∀ a t, ends x s (.ok a) t → FollowsAt log R t (f a)) : FollowsAt log R s (x >>= f) := by
  intro r s' h
  rcases ends_bind.1 h with ⟨a, t, hx', hf'⟩ | ⟨e, rfl, hx'⟩
  · obtain ⟨m, hm, hRm⟩ := hx _ t hx'
    obtain ⟨n, hn, hRn⟩ := hf a t hx' r s' hf'
    exact ⟨m ++ n, by rw [hn, hm, List.append_assoc], hc.seq hRm hRn⟩
  · exact hx _ s' hx'

theorem Follows.bind (hx : Follows log R x)
    (hf : ∀ a, Follows log R (f a)) : Follows log R (x >>= f) :=
  fun s => FollowsAt.bind hc (hx s) fun a t _ => hf a t

end

theorem Follows.attempt (h : Follows log R x) (hR : ∀ {new s o s'}, R new s o s' → R new s none s') :
    Follows log R (Machine.attempt x) := by
  intro s r s' hends
  obtain ⟨q, rfl, hx⟩ := ends_attempt.1 hends
  obtain ⟨new, hlog, hq⟩ := h s q s' hx
  exact ⟨new, hlog, hR hq⟩

end

end Machine

end Lib
