import In3.Evm.Run
/-!
# What a frame sees

A frame sees the accounts it has, behind them those of the frames that wait for it, and behind all of
them the environment. Looking an account or a word up copies it to the front, and changes nothing that
is seen (`Seen`), neither by the running frame nor by one that waits. `copy_state` hands to the next
frame what the ending one sees.
-/
open Lib Guarded List

namespace In3.Evm

/-! ## Views -/

structure View where
  balance : Bytes → Bytes
  nonce : Bytes → Bytes
  code : Bytes → Code
  storage : Bytes → Bytes → Bytes

def Env.account (env : Env) (adr : Bytes) : account_t :=
  match (env_account env adr true).run with
  | .ok (.ok (some ac)) => ac
  | _ => { balance := replicate 32 0, nonce := replicate 32 0, code := {}, storage := ∅ }

def Env.word (env : Env) (adr key : Bytes) : Bytes :=
  match env.storage adr (beNat key) with
  | .ok data => padLeft 32 data
  | .error _ => replicate 32 0

def Env.view (env : Env) : View where
  balance adr := (env.account adr).balance
  nonce adr := (env.account adr).nonce
  code adr := (env.account adr).code
  storage adr key := env.word adr key

/-- The accounts of a frame in front of a view. -/
def evm_t.over (evm : evm_t) (v : View) : View where
  balance adr := ((evm.accounts.lookup adr).map (·.balance)).getD (v.balance adr)
  nonce adr := ((evm.accounts.lookup adr).map (·.nonce)).getD (v.nonce adr)
  code adr := ((evm.accounts.lookup adr).map (·.code)).getD (v.code adr)
  storage adr key := ((evm.accounts.lookup adr).bind (·.storage.lookup key)).getD (v.storage adr key)

/-- What the first of the frames sees. -/
def view (env : Env) (frames : List evm_t) : View := frames.foldr evm_t.over env.view

@[simp] theorem view_cons (env : Env) (f : evm_t) (fs : List evm_t) : view env (f :: fs) = f.over (view env fs) := rfl

def Vm.frames (vm : Vm) : List evm_t := vm.evm :: vm.parents

/-- Each of the frames sees the same as before. -/
def Seen (env : Env) (fs gs : List evm_t) : Prop := ∀ k, view env (fs.drop k) = view env (gs.drop k)

theorem Seen.refl (env : Env) (fs : List evm_t) : Seen env fs fs := fun _ => rfl

variable {ac : account_t} {adr key : Bytes} {create : Bool} {env : Env} {evm f g : evm_t} {found : Option Bytes}
  {fs gs : List evm_t} {n : Nat} {v : View}

theorem Seen.trans {hs : List evm_t} (h : Seen env fs gs) (h' : Seen env gs hs) : Seen env fs hs :=
  fun k => (h k).trans (h' k)

theorem Seen.cons (h : f.over (view env fs) = g.over (view env gs))
    (h' : Seen env fs gs) : Seen env (f :: fs) (g :: gs) := by
  intro k
  cases k with
  | zero => exact h
  | succ k => exact h' k

theorem Seen.tail (h : Seen env (f :: fs) (g :: gs)) : Seen env fs gs :=
  fun k => h (k + 1)

theorem Seen.view_eq (h : Seen env fs gs) : view env fs = view env gs := h 0

theorem over_congr (h : f.accounts = g.accounts) (v : View) : f.over v = g.over v := by
  unfold evm_t.over
  rw [h]

def SameFrame (f g : evm_t) : Prop := g = { f with accounts := g.accounts }

theorem SameFrame.refl (f : evm_t) : SameFrame f f := rfl

theorem SameFrame.trans {h : evm_t} (hfg : SameFrame f g) (hgh : SameFrame g h) : SameFrame f h := by
  unfold SameFrame at *
  rw [hgh, hfg]

theorem sameFrames_refl (fs : List evm_t) : List.Forall₂ SameFrame fs fs :=
  forall₂_same.2 fun f _ => SameFrame.refl f

theorem sameFrames_trans {hs : List evm_t} (h : List.Forall₂ SameFrame fs gs) (h' : List.Forall₂ SameFrame gs hs) :
    List.Forall₂ SameFrame fs hs := by
  induction h generalizing hs with
  | nil =>
    cases h'
    exact .nil
  | cons hfg _ ih =>
    cases h' with
    | cons hgh ht => exact .cons (hfg.trans hgh) (ih ht)

/-! ## Looking up -/

/-- How `evm_get_account` ends in a frame `f`: the account is there, or it comes from behind or from the environment. -/
inductive AccountStep (env : Env) (adr : Bytes) (create : Bool) (f : evm_t) (fs : List evm_t) :
    Option account_t → List evm_t → Prop where
  | own {ac : account_t} (hown : f.accounts.lookup adr = some ac) : AccountStep env adr create f fs (some ac) (f :: fs)
  | copied {ac : account_t} {ps : List evm_t} (hnone : f.accounts.lookup adr = none)
      (hrec : ok (evm_get_account env adr create fs) (some ac, ps)) :
      AccountStep env adr create f fs (some { ac with storage := ∅ }) (f.put adr { ac with storage := ∅ } :: ps)
  | made {ac : account_t} {ps : List evm_t} (hnone : f.accounts.lookup adr = none)
      (hrec : ok (evm_get_account env adr create fs) (none, ps)) (henv : ok (env_account env adr create) (some ac)) :
      AccountStep env adr create f fs (some ac) (f.put adr ac :: ps)
  | missing {ps : List evm_t} (hnone : f.accounts.lookup adr = none)
      (hrec : ok (evm_get_account env adr create fs) (none, ps)) (henv : ok (env_account env adr create) none) :
      AccountStep env adr create f fs none (f :: ps)

theorem account_step {found : Option account_t} :
    ok (evm_get_account env adr create (f :: fs)) (found, gs) ↔ AccountStep env adr create f fs found gs := by
  rw [evm_get_account]
  constructor
  · intro h
    rcases hown : f.accounts.lookup adr with _ | ac
    · simp only [hown] at h
      obtain ⟨⟨_ | ac, ps⟩, hrec, h⟩ := ok_bind.1 h
      · obtain ⟨_ | ac, henv, h⟩ := ok_bind.1 h
        · cases ok_pure.1 h
          exact .missing hown hrec henv
        · cases ok_pure.1 h
          exact .made hown hrec henv
      · cases ok_pure.1 h
        exact .copied hown hrec
    · simp only [hown] at h
      cases ok_pure.1 h
      exact .own hown
  · rintro (hown | ⟨hnone, hrec⟩ | ⟨hnone, hrec, henv⟩ | ⟨hnone, hrec, henv⟩)
    · simp only [hown, ok_pure]
    · simp only [hnone]
      exact ok_bind.2 ⟨_, hrec, ok_pure.2 rfl⟩
    · simp only [hnone]
      exact ok_bind.2 ⟨_, hrec, ok_bind.2 ⟨_, henv, ok_pure.2 rfl⟩⟩
    · simp only [hnone]
      exact ok_bind.2 ⟨_, hrec, ok_bind.2 ⟨_, henv, ok_pure.2 rfl⟩⟩

@[simp] theorem put_accounts (evm : evm_t) (adr : Bytes) (ac : account_t) :
    (evm.put adr ac).accounts = evm.accounts.insert adr ac := rfl

theorem sameFrame_put (evm : evm_t) (adr : Bytes) (ac : account_t) : SameFrame evm (evm.put adr ac) := rfl

/-- The account shows what is seen of its address. -/
structure AccountOf (v : View) (adr : Bytes) (ac : account_t) : Prop where
  balance : ac.balance = v.balance adr
  nonce : ac.nonce = v.nonce adr
  code : ac.code = v.code adr

theorem over_put (h : AccountOf (evm.over v) adr ac)
    (hs : ∀ key, (ac.storage.lookup key).getD (v.storage adr key) = (evm.over v).storage adr key) :
    (evm.put adr ac).over v = evm.over v := by
  obtain ⟨hb, hn, hc⟩ := h
  have hother : ∀ a, a ≠ adr → (evm.put adr ac).accounts.lookup a = evm.accounts.lookup a := fun a ha => by
    rw [put_accounts, AList.lookup_insert_ne ha]
  have hself : (evm.put adr ac).accounts.lookup adr = some ac := AList.lookup_insert _
  unfold evm_t.over at *
  rw [View.mk.injEq]
  refine ⟨?_, ?_, ?_, ?_⟩
  · funext a
    by_cases ha : a = adr
    · rw [ha, hself]
      exact hb
    · rw [hother a ha]
  · funext a
    by_cases ha : a = adr
    · rw [ha, hself]
      exact hn
    · rw [hother a ha]
  · funext a
    by_cases ha : a = adr
    · rw [ha, hself]
      exact hc
    · rw [hother a ha]
  · funext a key
    by_cases ha : a = adr
    · rw [ha, hself]
      exact hs key
    · rw [hother a ha]

theorem over_put_copy (hnone : evm.accounts.lookup adr = none)
    (h : AccountOf v adr ac) (hs : ac.storage = ∅) : (evm.put adr ac).over v = evm.over v := by
  obtain ⟨hb, hn, hc⟩ := h
  apply over_put
  · refine ⟨?_, ?_, ?_⟩
    · simp [evm_t.over, hnone, hb]
    · simp [evm_t.over, hnone, hn]
    · simp [evm_t.over, hnone, hc]
  · simp [evm_t.over, hnone, hs]

theorem over_put_word {w : Bytes}
    (hac : evm.accounts.lookup adr = some ac) (hnone : ac.storage.lookup key = none) (hw : w = v.storage adr key) :
    (evm.put adr { ac with storage := ac.storage.insert key w }).over v = evm.over v := by
  apply over_put
  · refine ⟨?_, ?_, ?_⟩
    · simp [evm_t.over, hac]
    · simp [evm_t.over, hac]
    · simp [evm_t.over, hac]
  · intro k
    by_cases hk : k = key
    · subst hk
      simp [evm_t.over, hac, hnone, hw]
    · simp [evm_t.over, hac, AList.lookup_insert_ne hk]

theorem accountOf_own (v : View) (h : evm.accounts.lookup adr = some ac) :
    AccountOf (evm.over v) adr ac := by
  refine ⟨?_, ?_, ?_⟩
  · simp [evm_t.over, h]
  · simp [evm_t.over, h]
  · simp [evm_t.over, h]

theorem accountOf_behind (h : evm.accounts.lookup adr = none)
    (hac : AccountOf v adr ac) : AccountOf (evm.over v) adr ac := by
  obtain ⟨hb, hn, hc⟩ := hac
  refine ⟨?_, ?_, ?_⟩
  · simp [evm_t.over, h, hb]
  · simp [evm_t.over, h, hn]
  · simp [evm_t.over, h, hc]

/-- The account of the environment has no words of its own, and it does not matter whether it is to be created. -/
theorem env_account_ok
    (h : ok (env_account env adr create) (some ac)) : AccountOf env.view adr ac ∧ ac.storage = ∅ := by
  have htrue : ok (env_account env adr true) (some ac) := by
    unfold env_account at h ⊢
    simp only [ok_bind] at h ⊢
    obtain ⟨b, hb, c, hc, n, hn, h⟩ := h
    refine ⟨b, hb, c, hc, n, hn, ?_⟩
    split at h
    · exact h
    · simp at h
  have hacc : env.account adr = ac := by
    unfold Env.account
    rw [htrue]
  refine ⟨⟨congrArg account_t.balance hacc.symm, congrArg account_t.nonce hacc.symm, congrArg account_t.code hacc.symm⟩, ?_⟩
  · unfold env_account at htrue
    simp only [ok_bind, true_or, if_true, ok_pure] at htrue
    obtain ⟨_, _, _, _, _, _, _, _, _, _, hac⟩ := htrue
    rw [← Option.some.inj hac]

theorem env_account_create : ¬ ok (env_account env adr true) none := by
  unfold env_account
  simp only [ok_bind, true_or, if_true, ok_pure, reduceCtorEq, and_false, exists_false, not_false_eq_true]

/-- What `evm_get_account` leaves behind. -/
structure GotAccount (env : Env) (adr : Bytes) (create : Bool) (fs : List evm_t) (found : Option account_t)
    (gs : List evm_t) : Prop where
  same : List.Forall₂ SameFrame fs gs
  seen : Seen env fs gs
  own : ∀ ac, found = some ac → AccountOf (view env fs) adr ac ∧ ∃ g gs', gs = g :: gs' ∧ g.accounts.lookup adr = some ac
  missing : found = none → fs ≠ [] → ok (env_account env adr create) none
  words : found = none → (view env fs).storage adr = env.view.storage adr

theorem GotAccount.created {found : Option account_t}
    (h : GotAccount env adr true fs found gs) (hfs : fs ≠ []) : ∃ ac, found = some ac := by
  rcases found with _ | ac
  · exact absurd (h.missing rfl hfs) env_account_create
  · exact ⟨ac, rfl⟩

theorem get_account_ok {found : Option account_t}
    (h : ok (evm_get_account env adr create fs) (found, gs)) : GotAccount env adr create fs found gs := by
  induction fs generalizing found gs with
  | nil =>
    obtain ⟨rfl, rfl⟩ := Prod.mk.inj (ok_pure.1 h)
    exact ⟨.nil, Seen.refl _ _, by simp, by simp, fun _ => rfl⟩
  | cons f fs ih =>
    cases account_step.1 h with
    | own hown =>
      refine ⟨sameFrames_refl _, Seen.refl _ _, ?_, by simp, by simp⟩
      rintro _ ⟨⟩
      exact ⟨accountOf_own _ hown, f, fs, rfl, hown⟩
    | @copied ac _ hnone hrec =>
      obtain ⟨hsame, hseen, hfound, -, -⟩ := ih hrec
      obtain ⟨hof, -⟩ := hfound _ rfl
      have hclone : AccountOf (view env fs) adr { ac with storage := ∅ } := ⟨hof.balance, hof.nonce, hof.code⟩
      refine ⟨.cons (sameFrame_put _ _ _) hsame, Seen.cons ?_ hseen, ?_, by simp, by simp⟩
      · rw [← hseen.view_eq, over_put_copy hnone hclone rfl]
      · rintro _ ⟨⟩
        exact ⟨accountOf_behind hnone hclone, _, _, rfl, AList.lookup_insert _⟩
    | made hnone hrec henv =>
      obtain ⟨hsame, -, -, hmissing, -⟩ := ih hrec
      obtain ⟨hof, hempty⟩ := env_account_ok henv
      -- a frame behind this one would have got the same answer
      have hfs : fs = [] := by
        by_contra hne
        exact absurd (ok_unique henv (hmissing rfl hne)) (by simp)
      subst hfs
      cases hsame
      refine ⟨.cons (sameFrame_put _ _ _) .nil, Seen.cons (over_put_copy hnone hof hempty).symm (Seen.refl _ _), ?_,
        by simp, by simp⟩
      rintro _ ⟨⟩
      exact ⟨accountOf_behind hnone hof, _, _, rfl, AList.lookup_insert _⟩
    | missing hnone hrec henv =>
      obtain ⟨hsame, hseen, -, -, hwords⟩ := ih hrec
      refine ⟨.cons (SameFrame.refl f) hsame, Seen.cons (by rw [hseen.view_eq]) hseen, by simp, fun _ _ => henv, fun _ => ?_⟩
      rw [← hwords rfl]
      simp [evm_t.over, hnone]

/-! ## Words -/

theorem env_storage_ok {self w : Bytes} (h : ok (env_storage env self adr key false) (some w)) :
    w = env.view.storage adr (padLeft 32 key) := by
  unfold env_storage at h
  by_cases hself : self = adr
  · rw [if_neg (by simp [hself]), hself] at h
    unfold Env.view Env.word
    simp only [beNat_padLeft]
    rcases hst : env.storage adr (beNat key) with e | data
    · rw [hst] at h
      simp at h
    · rw [hst] at h
      by_cases hv : has_value data = true
      · simp only [hv, or_true, if_true, uint256_set, ok_bind, ok_pure] at h
        obtain ⟨_, ⟨_, _, rfl⟩, hw⟩ := h
        exact (Option.some.inj hw).symm
      · simp [hv] at h
  · rw [if_pos ⟨by simp, hself⟩] at h
    simp [has_value] at h

theorem env_storage_create {self : Bytes} : ¬ ok (env_storage env self adr key true) none := by
  unfold env_storage
  split
  · simp only [true_or, if_true, ok_bind, ok_pure, reduceCtorEq, and_false, exists_false, not_false_eq_true]
  · simp

/-- How `evm_get_storage` ends in the first of the frames: there is no account, or the word is there, or it is put there, or
there is none. -/
inductive StorageStep (env : Env) (adr key : Bytes) (create : Bool) (n : Nat) (fs : List evm_t) :
    Option Bytes → List evm_t → Prop where
  | unknown {gs : List evm_t} (hget : ok (evm_get_account env adr create fs) (none, gs)) : StorageStep env adr key create n fs none gs
  | own {ac : account_t} {g : evm_t} {ps : List evm_t} {w : Bytes}
      (hget : ok (evm_get_account env adr create fs) (some ac, g :: ps)) (hown : ac.storage.lookup (padLeft 32 key) = some w) :
      StorageStep env adr key create n fs (some w) (g :: ps)
  | put {ac : account_t} {g : evm_t} {ps qs : List evm_t} {w : Bytes} {found : Option Bytes}
      (hget : ok (evm_get_account env adr create fs) (some ac, g :: ps)) (hnone : ac.storage.lookup (padLeft 32 key) = none)
      (hrec : ok (evm_get_storage env adr key create n ps) (found, qs))
      (hw : found = some w ∨ found = none ∧ ok (env_storage env g.address adr key create) (some w)) :
      StorageStep env adr key create n fs (some w)
        (g.put adr { ac with storage := ac.storage.insert (padLeft 32 key) w } :: qs)
  | missing {ac : account_t} {g : evm_t} {ps qs : List evm_t}
      (hget : ok (evm_get_account env adr create fs) (some ac, g :: ps)) (hnone : ac.storage.lookup (padLeft 32 key) = none)
      (hrec : ok (evm_get_storage env adr key create n ps) (none, qs)) (henv : ok (env_storage env g.address adr key create) none) :
      StorageStep env adr key create n fs none (g :: qs)

theorem storage_step :
    ok (evm_get_storage env adr key create (n + 1) fs) (found, gs) ↔ StorageStep env adr key create n fs found gs := by
  rw [evm_get_storage, ok_bind]
  constructor
  · rintro ⟨⟨_ | ac, hs⟩, hget, h⟩
    · cases ok_pure.1 h
      exact .unknown hget
    · obtain ⟨-, g, ps, rfl, -⟩ := (get_account_ok hget).own ac rfl
      rcases hlook : ac.storage.lookup (padLeft 32 key) with _ | w
      · simp only [hlook] at h
        obtain ⟨⟨_ | w, qs⟩, hrec, h⟩ := ok_bind.1 h
        · obtain ⟨_ | w, henv, h⟩ := ok_bind.1 h
          · cases ok_pure.1 h
            exact .missing hget hlook hrec henv
          · cases ok_pure.1 h
            exact .put hget hlook hrec (.inr ⟨rfl, henv⟩)
        · cases ok_pure.1 h
          exact .put hget hlook hrec (.inl rfl)
      · simp only [hlook] at h
        cases ok_pure.1 h
        exact .own hget hlook
  · rintro (hget | ⟨hget, hown⟩ | ⟨hget, hnone, hrec, rfl | ⟨rfl, henv⟩⟩ | ⟨hget, hnone, hrec, henv⟩)
    · exact ⟨_, hget, ok_pure.2 rfl⟩
    · refine ⟨_, hget, ?_⟩
      simp only [hown, ok_pure]
    · refine ⟨_, hget, ?_⟩
      simp only [hnone]
      exact ok_bind.2 ⟨_, hrec, ok_pure.2 rfl⟩
    · refine ⟨_, hget, ?_⟩
      simp only [hnone]
      exact ok_bind.2 ⟨_, hrec, ok_bind.2 ⟨_, henv, ok_pure.2 rfl⟩⟩
    · refine ⟨_, hget, ?_⟩
      simp only [hnone]
      exact ok_bind.2 ⟨_, hrec, ok_bind.2 ⟨_, henv, ok_pure.2 rfl⟩⟩

theorem get_storage_same
    (h : ok (evm_get_storage env adr key create n fs) (found, gs)) : List.Forall₂ SameFrame fs gs := by
  induction n generalizing fs gs found with
  | zero =>
    cases ok_pure.1 h
    exact sameFrames_refl _
  | succ n ih =>
    cases storage_step.1 h with
    | unknown hget => exact (get_account_ok hget).same
    | own hget => exact (get_account_ok hget).same
    | put hget _ hrec => exact sameFrames_trans (get_account_ok hget).same (.cons (sameFrame_put _ _ _) (ih hrec))
    | missing hget _ hrec => exact sameFrames_trans (get_account_ok hget).same (.cons (SameFrame.refl _) (ih hrec))

theorem get_storage_created
    (hn : n = fs.length) (hfs : fs ≠ []) (h : ok (evm_get_storage env adr key true n fs) (found, gs)) :
    ∃ w, found = some w := by
  obtain ⟨n, rfl⟩ : ∃ m, n = m + 1 := ⟨n - 1, by have := length_pos_iff.2 hfs; omega⟩
  cases storage_step.1 h with
  | unknown hget => exact absurd ((get_account_ok hget).missing rfl hfs) env_account_create
  | own => exact ⟨_, rfl⟩
  | put => exact ⟨_, rfl⟩
  | missing _ _ _ henv => exact absurd henv env_storage_create

/-- What `evm_get_storage` leaves behind, if the environment is asked for the right word. -/
structure GotWord (env : Env) (adr key : Bytes) (fs : List evm_t) (found : Option Bytes) (gs : List evm_t) : Prop where
  same : List.Forall₂ SameFrame fs gs
  seen : Seen env fs gs
  word : ∀ w, found = some w → w = (view env fs).storage adr (padLeft 32 key)
  missing : found = none → (view env fs).storage adr (padLeft 32 key) = env.view.storage adr (padLeft 32 key)

/-- The accounts that the environment is asked for: with `create` only the outermost one. -/
def Asked (create : Bool) (fs : List evm_t) (self : Bytes) : Prop := create = true → (fs.map (·.address)).getLast? = some self

theorem addresses_same (h : List.Forall₂ SameFrame fs gs) : gs.map (·.address) = fs.map (·.address) := by
  induction h with
  | nil => rfl
  | cons hfg _ ih =>
    rw [map_cons, map_cons, ih, hfg]

section Behind
variable {ps qs : List evm_t} (hget : ok (evm_get_account env adr create fs) (some ac, g :: ps))
include hget

theorem addresses_behind : fs.map (·.address) = g.address :: ps.map (·.address) :=
  (addresses_same (get_account_ok hget).same).symm

/-- Behind this frame the same accounts are asked for. -/
theorem asked_behind {self : Bytes} (h : Asked create ps self) : Asked create fs self := by
  intro hcreate
  rw [addresses_behind hget, List.getLast?_cons, h hcreate]
  rfl

/-- The word is not in this frame. -/
theorem word_behind (hnone : ac.storage.lookup (padLeft 32 key) = none) :
    (view env fs).storage adr (padLeft 32 key) = (view env ps).storage adr (padLeft 32 key) := by
  obtain ⟨-, hseen, hown, -, -⟩ := get_account_ok hget
  obtain ⟨-, _, _, ⟨⟩, hg⟩ := hown ac rfl
  rw [hseen.view_eq]
  simp [evm_t.over, hg, hnone]

theorem seen_behind {g' : evm_t} (hsame : List.Forall₂ SameFrame ps qs) (hseen : Seen env ps qs) (hsg : SameFrame g g')
    (hg' : g'.over (view env qs) = g.over (view env qs)) : List.Forall₂ SameFrame fs (g' :: qs) ∧ Seen env fs (g' :: qs) := by
  have hgot := get_account_ok hget
  refine ⟨sameFrames_trans hgot.same (.cons hsg hsame), hgot.seen.trans (Seen.cons ?_ hseen)⟩
  rw [hg', hseen.view_eq]

end Behind

theorem get_storage_got
    (hn : n = fs.length) (hword : ∀ self w, Asked create fs self →
      ok (env_storage env self adr key create) (some w) → w = env.view.storage adr (padLeft 32 key))
    (h : ok (evm_get_storage env adr key create n fs) (found, gs)) : GotWord env adr key fs found gs := by
  induction n generalizing fs gs found with
  | zero =>
    cases ok_pure.1 h
    obtain rfl := length_eq_zero_iff.1 hn.symm
    exact ⟨.nil, Seen.refl _ _, by simp, fun _ => rfl⟩
  | succ n ih =>
    have hbehind : ∀ {ac g ps found qs}, ok (evm_get_account env adr create fs) (some ac, g :: ps) →
        ok (evm_get_storage env adr key create n ps) (found, qs) → n = ps.length ∧ GotWord env adr key ps found qs := by
      intro ac g ps found qs hget hrec
      have hlen := congrArg List.length (addresses_behind hget)
      simp only [length_map, length_cons] at hlen
      have hps : n = ps.length := by omega
      exact ⟨hps, ih hps (fun self w hself => hword self w (asked_behind hget hself)) hrec⟩
    cases storage_step.1 h with
    | unknown hget =>
      obtain ⟨hsame, hseen, -, -, hwords⟩ := get_account_ok hget
      exact ⟨hsame, hseen, by simp, fun _ => by rw [hwords rfl]⟩
    | own hget hlook =>
      obtain ⟨hsame, hseen, hown, -, -⟩ := get_account_ok hget
      obtain ⟨-, _, _, ⟨⟩, hg⟩ := hown _ rfl
      refine ⟨hsame, hseen, ?_, by simp⟩
      rw [hseen.view_eq]
      simp [evm_t.over, hg, hlook]
    | @put ac g ps qs w _ hget hnone hrec hput =>
      obtain ⟨hlen, hsame, hseen, hfound, hmissing⟩ := hbehind hget hrec
      have hw : w = (view env ps).storage adr (padLeft 32 key) := by
        rcases hput with rfl | ⟨rfl, henv⟩
        · exact hfound w rfl
        · rw [hmissing rfl]
          refine hword _ _ (fun hcreate => ?_) henv
          -- a frame behind this one would have created the word
          have hps : ps = [] := by
            by_contra hne
            subst hcreate
            obtain ⟨w, hw⟩ := get_storage_created hlen hne hrec
            cases hw
          rw [addresses_behind hget, hps]
          rfl
      obtain ⟨-, _, _, ⟨⟩, hg⟩ := (get_account_ok hget).own ac rfl
      obtain ⟨h1, h2⟩ := seen_behind hget hsame hseen (sameFrame_put _ _ _)
        (over_put_word hg hnone (hw.trans (by rw [hseen.view_eq])))
      refine ⟨h1, h2, ?_, by simp⟩
      rintro _ ⟨⟩
      rw [word_behind hget hnone, hw]
    | missing hget hnone hrec =>
      obtain ⟨-, hsame, hseen, -, hmissing⟩ := hbehind hget hrec
      obtain ⟨h1, h2⟩ := seen_behind hget hsame hseen (SameFrame.refl _) rfl
      exact ⟨h1, h2, by simp, fun _ => by rw [word_behind hget hnone, hmissing rfl]⟩

theorem get_storage_ok
    (hn : n = fs.length) (h : ok (evm_get_storage env adr key false n fs) (found, gs)) :
    GotWord env adr key fs found gs := get_storage_got hn (fun _ _ _ hw => env_storage_ok hw) h

/-! ## Merging -/

theorem lookup_merged_storage (src dst : Storage) (key : Bytes) :
    (src.foldl (fun s k w => s.insert k w) dst).lookup key = (src.lookup key).or (dst.lookup key) := by
  unfold AList.foldl AList.lookup
  have hnodup := src.nodupKeys
  generalize src.entries = l at hnodup ⊢
  induction l generalizing dst with
  | nil => simp
  | cons e l ih =>
    obtain ⟨k, w⟩ := e
    rw [nodupKeys_cons] at hnodup
    rw [foldl_cons, ih _ hnodup.2]
    by_cases hk : key = k
    · subst hk
      have hnone : l.dlookup key = none := dlookup_eq_none.2 hnodup.1
      rw [hnone, dlookup_cons_eq]
      exact AList.lookup_insert dst
    · have hne : AList.lookup key (dst.insert k w) = dst.lookup key := AList.lookup_insert_ne hk
      rw [dlookup_cons_ne _ _ hk]
      exact congrArg _ hne

theorem lookup_copy_accounts (l : List (Sigma fun _ : Bytes => account_t)) (hl : l.NodupKeys) (dst : Accounts) (adr : Bytes) :
    (copy_accounts l dst).lookup adr = ((l.dlookup adr).map (copy_account (dst.lookup adr))).or (dst.lookup adr) := by
  induction l generalizing dst with
  | nil => simp [copy_accounts]
  | cons e l ih =>
    obtain ⟨a, sa⟩ := e
    rw [nodupKeys_cons] at hl
    rw [copy_accounts, ih hl.2]
    by_cases ha : adr = a
    · subst ha
      have hnone : l.dlookup adr = none := dlookup_eq_none.2 hl.1
      rw [hnone, dlookup_cons_eq, AList.lookup_insert]
      rfl
    · rw [dlookup_cons_ne _ _ ha, AList.lookup_insert_ne ha]

theorem over_copy (src dst : evm_t) (v : View) {merged : evm_t}
    (h : merged.accounts = copy_accounts src.accounts.entries dst.accounts) : merged.over v = src.over (dst.over v) := by
  have hlook : ∀ adr, merged.accounts.lookup adr =
      ((src.accounts.lookup adr).map (copy_account (dst.accounts.lookup adr))).or (dst.accounts.lookup adr) := fun adr => by
    rw [h, lookup_copy_accounts _ src.accounts.nodupKeys]
    rfl
  unfold evm_t.over
  simp only [hlook, View.mk.injEq]
  refine ⟨?_, ?_, ?_, ?_⟩
  · funext adr
    rcases src.accounts.lookup adr with _ | sa <;> rcases dst.accounts.lookup adr with _ | da <;> rfl
  · funext adr
    rcases src.accounts.lookup adr with _ | sa <;> rcases dst.accounts.lookup adr with _ | da <;> rfl
  · funext adr
    rcases src.accounts.lookup adr with _ | sa <;> rcases dst.accounts.lookup adr with _ | da <;> rfl
  · funext adr key
    rcases src.accounts.lookup adr with _ | sa <;> rcases dst.accounts.lookup adr with _ | da
    · rfl
    · rfl
    · rfl
    · simp only [Option.map_some, Option.some_or, copy_account, Option.bind_some, lookup_merged_storage]
      rcases sa.storage.lookup key with _ | w <;> rfl

end In3.Evm
