import In3.Evm.TransferTheorems
/-!
# Words that the environment does not have

`evm_get_storage` asks the environment for a word that no frame has. `storage_answers` are the answers that it gets. An answer
that is an error is not passed on: the word is taken for one that does not exist, or, if it is to be created, the negative
length reaches `uint256_set`. SLOAD asks again when there is no word, and so it does end with the error.
-/
open Lib Guarded Machine

namespace In3.Evm

/-! ## The environment of a proof -/

/-- The environment of a proof, for the words. -/
def Env.ofProof (env : Env) (accounts : List ProofAccount) : Env :=
  { env with storage := fun self key => in3_get_env_storage accounts self (beBytes key) }

/-! ## What the environment is asked -/

/-- The frame asks the environment for a word that no frame behind it has. -/
def asks (create : Bool) (self adr : Bytes) : Bool := create ∨ self = adr

/-- The answers of the environment to a call of `evm_get_storage`, the first one first. -/
def storage_answers (env : Env) (adr s_key : Bytes) (create : Bool) : Nat → List evm_t → List (Except Int Bytes)
  | 0, _ => []
  | n + 1, frames =>
    match (evm_get_account env adr create frames).run with
    | .ok (.ok (some ac, evm :: parents)) =>
      match ac.storage.lookup (padLeft 32 s_key) with
      | some _ => []
      | none =>
        let behind := storage_answers env adr s_key create n parents
        match (evm_get_storage env adr s_key create n parents).run with
        | .ok (.ok (none, _)) => if asks create evm.address adr then behind ++ [env.storage evm.address (beNat s_key)] else behind
        | _ => behind
    | _ => []

section
variable {env : Env} {adr s_key self : Bytes} {create : Bool} {n : Nat} {fs : List evm_t}

theorem env_storage_unasked (h : asks create self adr = false) : env_storage env self adr s_key create = pure none := by
  have hcond : ¬ create = true ∧ self ≠ adr := by
    simpa [asks] using h
  unfold env_storage
  rw [if_pos (by simpa using hcond)]
  simp [has_value, hcond.1]

theorem asks_of_word {w : Bytes} (h : ok (env_storage env self adr s_key create) (some w)) : asks create self adr = true := by
  by_contra hasks
  rw [env_storage_unasked (Bool.eq_false_iff.2 hasks)] at h
  cases ok_pure.1 h

theorem env_storage_asked (h : asks create self adr = true) :
    env_storage env self adr s_key create =
      match env.storage self (beNat s_key) with
      | .ok data => if create ∨ has_value data then (do return some (← uint256_set data)) else return none
      | .error l => if create then Guarded.fault (.write (32 - l % 256) 32) else return none := by
  have hcond : ¬ (¬ create = true ∧ self ≠ adr) := by
    have : create = true ∨ self = adr := by simpa [asks] using h
    tauto
  have hask : (if ¬ create ∧ self ≠ adr then .ok [] else env.storage self (beNat s_key)) = env.storage self (beNat s_key) :=
    if_neg hcond
  unfold env_storage
  generalize (if ¬ create ∧ self ≠ adr then .ok [] else env.storage self (beNat s_key)) = answer at hask
  subst hask
  cases env.storage self (beNat s_key) with
  | error l => rfl
  | ok data => rfl

theorem answers_eq {a : Except Int Bytes} (h : a ∈ storage_answers env adr s_key false n fs) :
    a = env.storage adr (beNat s_key) := by
  induction n generalizing fs with
  | zero => cases h
  | succ n ih =>
    rw [storage_answers] at h
    split at h
    · split at h
      · cases h
      · split at h
        · split at h
          · next hasks =>
            rcases List.mem_append.1 h with h | h
            · exact ih h
            · rw [List.mem_singleton.1 h, of_decide_eq_true hasks |>.resolve_left (by simp)]
          · exact ih h
        · exact ih h
    · cases h

theorem answers_of_asks (hasks : asks create self adr = true) (hcreate : create = false) :
    ∀ a ∈ storage_answers env adr s_key create n fs, a = env.storage self (beNat s_key) := by
  subst hcreate
  intro a ha
  rw [answers_eq ha, (of_decide_eq_true hasks).resolve_left (by simp)]

theorem answers_nil_of_raises {e : Int} (h : raises (evm_get_storage env adr s_key create n fs) e) :
    storage_answers env adr s_key create n fs = [] := by
  induction n generalizing fs with
  | zero => rfl
  | succ n ih =>
    rw [evm_get_storage, raises_bind] at h
    rw [storage_answers]
    rcases h with h | ⟨⟨ac, gs⟩, hget, h⟩
    · rw [h]
    · rw [hget]
      rcases ac with _ | ac
      · rfl
      rcases gs with _ | ⟨evm, parents⟩
      · rfl
      dsimp only at h ⊢
      rcases hlook : ac.storage.lookup (padLeft 32 s_key) with _ | w
      · rw [hlook] at h
        rcases raises_bind.1 h with hrec | ⟨⟨found, ps⟩, hrec, h⟩
        · rw [hrec]
          exact ih hrec
        · rcases found with _ | w
          · rcases raises_bind.1 h with henv | ⟨value, -, h⟩
            · exact absurd henv (errorless_env_storage _ _ _ _ _ e)
            · rcases value with _ | w <;> exact absurd h raises_pure
          · exact absurd h raises_pure
      · rfl

/-- What the answers say about a call that succeeds. -/
structure Answered (adr s_key : Bytes) (create : Bool) (answers : List (Except Int Bytes)) (found : Option Bytes)
    (gs : List evm_t) : Prop where
  bytes : ∀ data, .ok data ∈ answers → data.length ≤ 32 ∧ (found.map beNat).getD 0 = beNat data
  errors : ∀ e, .error e ∈ answers → found = none ∧ create = false
  created : create = true → answers ≠ [] → found ≠ none
  stored : ∀ w, found = some w → ∃ g gs' ac, gs = g :: gs' ∧ g.accounts.lookup adr = some ac ∧
    ac.storage.lookup (padLeft 32 s_key) = some w

theorem stored_put (evm : evm_t) (ac : account_t) (w : Bytes) (ps : List evm_t) (v : Bytes) (h : some w = some v) :
    ∃ g gs' ac', evm.put adr { ac with storage := ac.storage.insert (padLeft 32 s_key) w } :: ps = g :: gs' ∧
      g.accounts.lookup adr = some ac' ∧ ac'.storage.lookup (padLeft 32 s_key) = some v :=
  ⟨_, _, _, rfl, AList.lookup_insert _, by rw [← h]; exact AList.lookup_insert _⟩

theorem has_value_false {data : Bytes} (h : has_value data = false) : data.length ≤ 32 ∧ beNat data = 0 := by
  rcases data with _ | ⟨x, _ | ⟨y, t⟩⟩
  · exact ⟨by simp, rfl⟩
  · have hx : x = 0 := by simpa [has_value] using h
    rw [hx]
    exact ⟨by simp, rfl⟩
  · simp [has_value] at h

theorem answered_asked {behind : List (Except Int Bytes)} {value : Option Bytes} {gs qs : List evm_t}
    (hasks : asks create self adr = true) (hself : create = false → ∀ a ∈ behind, a = env.storage self (beNat s_key))
    (hbehind : Answered adr s_key create behind none qs) (hvalue : ok (env_storage env self adr s_key create) value)
    (hstored : ∀ w, value = some w → ∃ g gs' ac, gs = g :: gs' ∧ g.accounts.lookup adr = some ac ∧
      ac.storage.lookup (padLeft 32 s_key) = some w) :
    Answered adr s_key create (behind ++ [env.storage self (beNat s_key)]) value gs := by
  rw [env_storage_asked hasks] at hvalue
  have hnil : create = true → behind = [] := by
    intro hcreate
    by_contra hne
    exact hbehind.created hcreate hne rfl
  rcases hanswer : env.storage self (beNat s_key) with l | data
  · rw [hanswer] at hvalue
    have hcreate : create = false := by
      cases create
      · rfl
      · simp at hvalue
    subst hcreate
    obtain rfl : none = value := by simpa using hvalue
    refine ⟨fun data hdata => ?_, fun _ _ => ⟨rfl, rfl⟩, by simp, hstored⟩
    rcases List.mem_append.1 hdata with hdata | hdata
    · exact hbehind.bytes data hdata
    · simp at hdata
  · rw [hanswer] at hvalue
    have hsame : ∀ a ∈ behind ++ [.ok data], a = .ok data := by
      intro a ha
      rcases List.mem_append.1 ha with ha | ha
      · cases create
        · rw [hself rfl a ha, hanswer]
        · rw [hnil rfl] at ha
          cases ha
      · exact List.mem_singleton.1 ha
    have herrors : ∀ e, .error e ∈ behind ++ [.ok data] → value = none ∧ create = false := by
      intro e he
      cases hsame _ he
    dsimp only at hvalue
    by_cases hput : create = true ∨ has_value data = true
    · rw [if_pos hput] at hvalue
      simp only [uint256_set, ok_bind, ok_guard, ok_pure] at hvalue
      obtain ⟨_, ⟨_, hlen, rfl⟩, rfl⟩ := hvalue
      refine ⟨fun d hd => ?_, herrors, by simp, hstored⟩
      cases hsame _ hd
      exact ⟨hlen, beNat_padLeft 32 data⟩
    · rw [if_neg hput] at hvalue
      obtain rfl := ok_pure.1 hvalue
      simp only [not_or, Bool.not_eq_true] at hput
      obtain ⟨hlen, hzero⟩ := has_value_false hput.2
      refine ⟨fun d hd => ?_, herrors, by simp [hput.1], hstored⟩
      cases hsame _ hd
      exact ⟨hlen, hzero.symm⟩

theorem get_storage_answered {found : Option Bytes} {gs : List evm_t}
    (h : ok (evm_get_storage env adr s_key create n fs) (found, gs)) :
    Answered adr s_key create (storage_answers env adr s_key create n fs) found gs := by
  induction n generalizing fs found gs with
  | zero =>
    cases ok_pure.1 h
    exact ⟨by simp [storage_answers], by simp [storage_answers], by simp [storage_answers], by simp⟩
  | succ n ih =>
    rw [storage_answers]
    cases storage_step.1 h with
    | unknown hget =>
      rw [hget]
      exact ⟨by simp, by simp, by simp, by simp⟩
    | own hget hown =>
      obtain ⟨-, _, _, ⟨⟩, hac⟩ := (get_account_ok hget).own _ rfl
      rw [hget]
      simp only [hown]
      refine ⟨by simp, by simp, by simp, ?_⟩
      rintro _ ⟨⟩
      exact ⟨_, _, _, rfl, hac, hown⟩
    | put hget hnone hrec hput =>
      have hbehind := ih hrec
      rw [hget]
      simp only [hnone]
      rw [hrec]
      rcases hput with rfl | ⟨rfl, henv⟩
      · exact ⟨hbehind.bytes, hbehind.errors, hbehind.created, stored_put _ _ _ _⟩
      · have hasks := asks_of_word henv
        simp only [hasks, if_true]
        exact answered_asked hasks (answers_of_asks hasks) hbehind henv (stored_put _ _ _ _)
    | missing hget hnone hrec henv =>
      have hbehind := ih hrec
      rw [hget]
      simp only [hnone]
      rw [hrec]
      dsimp only
      split
      · next hasks => exact answered_asked hasks (answers_of_asks hasks) hbehind henv (by simp)
      · exact ⟨hbehind.bytes, hbehind.errors, hbehind.created, by simp⟩

theorem get_storage_of_answers (hne : storage_answers env adr s_key create n fs ≠ [])
    (hgood : ∀ a ∈ storage_answers env adr s_key create n fs, ∃ data, a = .ok data ∧ data.length ≤ 32) :
    ∃ found gs, ok (evm_get_storage env adr s_key create n fs) (found, gs) := by
  induction n generalizing fs with
  | zero => exact absurd rfl hne
  | succ n ih =>
    rw [storage_answers] at hne hgood
    rcases hget : (evm_get_account env adr create fs).run with f | e | ⟨_ | ac, hs⟩
    · rw [hget] at hne
      exact absurd rfl hne
    · rw [hget] at hne
      exact absurd rfl hne
    · rw [hget] at hne
      exact absurd rfl hne
    rcases hs with _ | ⟨evm, parents⟩
    · rw [hget] at hne
      exact absurd rfl hne
    rw [hget] at hne hgood
    dsimp only at hne hgood
    rcases hlook : ac.storage.lookup (padLeft 32 s_key) with _ | w
    · rw [hlook] at hne hgood
      dsimp only at hne hgood
      -- the frames behind this one have succeeded
      obtain ⟨found, ps, hrec⟩ : ∃ found ps, ok (evm_get_storage env adr s_key create n parents) (found, ps) := by
        by_cases hbehind : storage_answers env adr s_key create n parents = []
        · rcases hrun : (evm_get_storage env adr s_key create n parents).run with f | e | ⟨found, ps⟩
          · rw [hrun] at hne
            exact absurd hbehind hne
          · rw [hrun] at hne
            exact absurd hbehind hne
          · exact ⟨found, ps, hrun⟩
        · refine ih hbehind fun a ha => hgood a ?_
          split
          · split
            · exact List.mem_append_left _ ha
            · exact ha
          · exact ha
      rw [hrec] at hgood
      rcases found with _ | w
      · obtain ⟨value, hvalue⟩ : ∃ value, ok (env_storage env evm.address adr s_key create) value := by
          by_cases hasks : asks create evm.address adr = true
          · rw [if_pos hasks] at hgood
            obtain ⟨data, hdata, hlen⟩ := hgood _ (List.mem_append_right _ (List.mem_singleton.2 rfl))
            rw [env_storage_asked hasks, hdata]
            dsimp only
            split
            · exact ⟨_, ok_bind.2 ⟨_, ok_uint256_set hlen, ok_pure.2 rfl⟩⟩
            · exact ⟨_, ok_pure.2 rfl⟩
          · rw [env_storage_unasked (Bool.eq_false_iff.2 hasks)]
            exact ⟨_, ok_pure.2 rfl⟩
        rcases value with _ | w
        · exact ⟨_, _, storage_step.2 (.missing hget hlook hrec hvalue)⟩
        · exact ⟨_, _, storage_step.2 (.put hget hlook hrec (.inr ⟨rfl, hvalue⟩))⟩
      · exact ⟨_, _, storage_step.2 (.put hget hlook hrec (.inl rfl))⟩
    · rw [hlook] at hne
      exact absurd rfl hne

end

/-! ## What is right about a call -/

/-- An error of the environment is passed on, and its bytes are the word. -/
structure StorageRight (env : Env) (adr s_key : Bytes) (create : Bool) (fs : List evm_t) : Prop where
  errors : ∀ e, .error e ∈ storage_answers env adr s_key create fs.length fs →
    raises (evm_get_storage env adr s_key create fs.length fs) e
  bytes : ∀ data, .ok data ∈ storage_answers env adr s_key create fs.length fs →
    ∃ found gs, ok (evm_get_storage env adr s_key create fs.length fs) (found, gs) ∧
      (found.map beNat).getD 0 = beNat data ∧
      ∀ w, found = some w → ∃ g gs' ac, gs = g :: gs' ∧ g.accounts.lookup adr = some ac ∧
        ac.storage.lookup (padLeft 32 s_key) = some w

/-- SLOAD ends with an error that the environment gives for its word. -/
def SloadRight (env : Env) (vm : Vm) : Prop :=
  ∀ key s r vm', vm.evm.stack.pop = some (key, s) → ends (op_sload env) vm r vm' →
    ∀ e, .error e ∈ storage_answers env vm.evm.account key false (vm.withStack s).frames.length (vm.withStack s).frames →
      r = .error e

section
variable {env : Env} {adr s_key : Bytes} {create : Bool} {fs : List evm_t}

theorem not_storageRight_of_error {e : Int} (h : .error e ∈ storage_answers env adr s_key create fs.length fs) :
    ¬ StorageRight env adr s_key create fs := by
  intro hright
  rw [answers_nil_of_raises (hright.errors e h)] at h
  cases h

theorem storageRight_iff :
    StorageRight env adr s_key create fs ↔
      ∀ a ∈ storage_answers env adr s_key create fs.length fs, ∃ data, a = .ok data ∧ data.length ≤ 32 := by
  constructor
  · intro hright a ha
    rcases a with e | data
    · exact absurd hright (not_storageRight_of_error ha)
    · obtain ⟨found, gs, hok, -⟩ := hright.bytes data ha
      exact ⟨data, rfl, ((get_storage_answered hok).bytes data ha).1⟩
  · intro hgood
    refine ⟨fun e he => ?_, fun data hdata => ?_⟩
    · obtain ⟨data, hdata, -⟩ := hgood _ he
      cases hdata
    · obtain ⟨found, gs, hok⟩ := get_storage_of_answers (List.ne_nil_of_mem hdata) hgood
      have hanswered := get_storage_answered hok
      exact ⟨found, gs, hok, (hanswered.bytes data hdata).2, hanswered.stored⟩

theorem get_storage_ends {vm vm' : Vm} {found : Option Bytes}
    (h : ends (get_storage env adr s_key create) vm (.ok found) vm') :
    ∃ gs, ok (evm_get_storage env adr s_key create vm.frames.length vm.frames) (found, gs) := by
  obtain ⟨g, gs, hok, -⟩ := withFrames_ok.1 (ends_get_bind.1 h)
  exact ⟨g :: gs, hok⟩

theorem get_storage_fails {vm vm' : Vm} {e : Int} (h : ends (get_storage env adr s_key create) vm (.error e) vm') :
    raises (evm_get_storage env adr s_key create vm.frames.length vm.frames) e := by
  rcases withFrames_ends.1 (ends_get_bind.1 h) with ⟨_, _, _, ⟨⟩, -⟩ | ⟨⟨_, ⟨⟩, hraises⟩, -⟩
  exact hraises

/-- SLOAD asks for its own account, and so the second answer is the first one again. -/
theorem sloadRight {vm : Vm} (hself : vm.evm.account = vm.evm.address) : SloadRight env vm := by
  intro key s r vm' hpop h e he
  have hfirst : ends evm_stack_pop_ref vm (.ok key) (vm.withStack s) := by
    unfold evm_stack_pop_ref
    rw [ends_getEvm_bind, hpop]
    exact ends_bind_ok.2 ⟨_, _, ends_modifyEvm.2 ⟨rfl, rfl⟩, ends_pure.2 ⟨rfl, rfl⟩⟩
  have hanswer := answers_eq he
  unfold op_sload at h
  rw [ends_bind_of_ok hfirst, ends_getEvm_bind] at h
  rcases ends_bind.1 h with ⟨found, t, hget, h⟩ | ⟨e', -, hget⟩
  · obtain ⟨gs, hok⟩ := get_storage_ends hget
    obtain ⟨rfl, -⟩ := (get_storage_answered hok).errors e he
    rw [show (vm.withStack s).evm.address = vm.evm.account from hself.symm, ← hanswer] at h
    rcases ends_bind.1 h with ⟨v, u, hv, -⟩ | ⟨e', rfl, hv⟩
    · cases (ends_checked_ok.1 hv).1
    · have hraises := raises_ofEnv.1 (ends_ofGuarded_error.1 hv).1
      rw [Except.error.inj hraises]
  · have hnil := answers_nil_of_raises (get_storage_fails hget)
    rw [Vm.withStack] at hnil he
    rw [hnil] at he
    cases he

/-- An error is passed on and bytes are kept if and only if the environment answers with at most 32 bytes. -/
theorem storage_iff {vm : Vm} (hself : vm.evm.account = vm.evm.address) :
    StorageRight env adr s_key create vm.frames ∧ SloadRight env vm ↔
      ∀ a ∈ storage_answers env adr s_key create vm.frames.length vm.frames, ∃ data, a = .ok data ∧ data.length ≤ 32 := by
  rw [storageRight_iff, and_iff_left (sloadRight hself)]

end

/-- The account 0 of the proof has the word 9 at the key 1. -/
def nineEnv : Env := (richEnv [7]).ofProof [⟨List.replicate 20 0, some [(some [1], some [9])]⟩]

theorem storage_of_nine :
    StorageRight nineEnv (List.replicate 20 0) [1] true (Vm.ofStack Stack.empty).frames ∧
      SloadRight nineEnv (Vm.ofStack Stack.empty) := by
  have hanswers : storage_answers nineEnv (List.replicate 20 0) [1] true (Vm.ofStack Stack.empty).frames.length
      (Vm.ofStack Stack.empty).frames = [.ok [9]] := by decide
  refine (storage_iff rfl).2 ?_
  intro a ha
  rw [hanswers, List.mem_singleton] at ha
  exact ⟨[9], ha, by decide⟩

/-- A proof without the account: its word does not exist, and to create it is a write in front of the entry. -/
theorem missing_word_lost :
    ¬ StorageRight ((richEnv [7]).ofProof []) (List.replicate 20 0) [1] false (Vm.ofStack Stack.empty).frames ∧
      ¬ StorageRight ((richEnv [7]).ofProof []) (List.replicate 20 0) [1] true (Vm.ofStack Stack.empty).frames := by
  have hanswers : ∀ create, .error EVM_ERROR_INVALID_ENV ∈ storage_answers ((richEnv [7]).ofProof []) (List.replicate 20 0) [1]
      create (Vm.ofStack Stack.empty).frames.length (Vm.ofStack Stack.empty).frames := by
    intro create
    cases create <;> decide
  exact ⟨not_storageRight_of_error (hanswers false), not_storageRight_of_error (hanswers true)⟩

end In3.Evm
