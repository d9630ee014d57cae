import In3.Signer.MultisigTheorems
/-!
# The configuration of a wallet (`ensure_owners` in `signer/multisig/multisig.c`)

The list of owners is allocated before its length is checked and before the threshold is known, and from then
on every further call takes the wallet as initialised. A list that was not filled from the result of the
contract is `some none` here, and a threshold that was never set is `none`.
-/
open Lib Guarded

namespace In3.Signer

/-- The outcome of a call of the contract. A success without a result has the result `[]`. -/
inductive Answer where
  | result (tmp : Bytes)
  | waiting
  | error
  deriving DecidableEq, Repr

/-- `IN3_OK`, `IN3_WAITING`, or an error. -/
inductive Ret where
  | ok
  | waiting
  | error
  deriving DecidableEq, Repr

/-- The outcomes of both calls, of which the second may not be made. -/
structure OwnersCalls where
  owners : Answer
  threshold : Answer

structure WalletConfig where
  owners : Option (Option (List Bytes))
  threshold : Option Nat
  deriving DecidableEq, Repr

def owners_len (tmp : Bytes) : Nat := bytes_to_int ((tmp.drop 60).take 4)

/-- The owners in a result that holds as many as it says. -/
def owners_in (tmp : Bytes) : Option (List Bytes) :=
  if tmp.length = 64 + 32 * owners_len tmp then
    some ((List.range (owners_len tmp)).map fun i => (tmp.drop (i * 32 + 64 + 12)).take 20)
  else none

def threshold_in (tmp : Bytes) : Option Nat := if tmp.length = 32 then some (bytes_to_int (tmp.drop 28)) else none

/-- The second half of `ensure_owners`; `ret` is the return value of the first one. -/
def get_threshold (ms : WalletConfig) (ret : Ret) : Answer → Ret × WalletConfig
  | .result tmp =>
    match threshold_in tmp with
    | some n => (ret, { ms with threshold := some n })
    | none => (.error, ms)
  | .waiting => (.waiting, ms)
  | .error => (if ret = .ok then .error else ret, ms)

def ensure_owners_calls (ms : WalletConfig) (calls : OwnersCalls) : Ret × WalletConfig :=
  if ms.owners.isSome then (.ok, ms)
  else
    match calls.owners with
    | .result tmp =>
      if tmp.length < 64 then (.error, ms)
      else if tmp.length ≠ (64 + 32 * owners_len tmp) % 2 ^ 32 then (.error, { ms with owners := some none })
      else get_threshold { ms with owners := some (owners_in tmp) } .ok calls.threshold
    | .waiting => get_threshold ms .waiting calls.threshold
    | .error => (.error, ms)

/-- Owners and threshold are both values that the contract returned. -/
def Complete (seen : List OwnersCalls) (ms : WalletConfig) : Prop :=
  ∃ owners n, ms.owners = some (some owners) ∧ ms.threshold = some n ∧
    (∃ c ∈ seen, ∃ tmp, c.owners = .result tmp ∧ owners_in tmp = some owners) ∧
    ∃ c ∈ seen, ∃ tmp, c.threshold = .result tmp ∧ threshold_in tmp = some n

/-- After every call that returns `IN3_OK` the configuration is complete; `seen` are the calls before. -/
def CompleteBeforeUse (ms : WalletConfig) (seen : List OwnersCalls) : List OwnersCalls → Prop
  | [] => True
  | c :: calls =>
    ((ensure_owners_calls ms c).1 = .ok → Complete (seen ++ [c]) (ensure_owners_calls ms c).2) ∧
      CompleteBeforeUse (ensure_owners_calls ms c).2 (seen ++ [c]) calls

def OwnersCalls.hasThreshold (c : OwnersCalls) : Bool :=
  match c.threshold with
  | .result tmp => (threshold_in tmp).isSome
  | _ => false

/-- What the first result with at least 64 bytes has to meet. If it holds the owners that it counts, it is the last
call, or the threshold comes with it or came (`known`) with a call that was still waiting for the
owners. Otherwise it is the last call, and its length only fits the count modulo `2^32` if no threshold comes with it. -/
def ArrivesTogether (known : Bool) : List OwnersCalls → Prop
  | [] => True
  | c :: calls =>
    match c.owners with
    | .result tmp =>
      if tmp.length < 64 then ArrivesTogether known calls
      else if tmp.length = 64 + 32 * owners_len tmp ∧ tmp.length < 2 ^ 32 then calls = [] ∨ (known || c.hasThreshold) = true
      else calls = [] ∧ (tmp.length = (64 + 32 * owners_len tmp) % 2 ^ 32 → c.hasThreshold = false)
    | .waiting => ArrivesTogether (known || c.hasThreshold) calls
    | .error => ArrivesTogether known calls

section
variable {ms : WalletConfig} {seen calls : List OwnersCalls}

/-- What is stored came from the contract. -/
def Stored (seen : List OwnersCalls) (ms : WalletConfig) : Prop :=
  (∀ owners, ms.owners = some (some owners) → ∃ c ∈ seen, ∃ tmp, c.owners = .result tmp ∧ owners_in tmp = some owners) ∧
    ∀ n, ms.threshold = some n → ∃ c ∈ seen, ∃ tmp, c.threshold = .result tmp ∧ threshold_in tmp = some n

theorem config_complete (h : Stored seen ms) :
    Complete seen ms ↔ (∃ owners, ms.owners = some (some owners)) ∧ ms.threshold.isSome = true := by
  rw [Option.isSome_iff_exists]
  constructor
  · rintro ⟨owners, n, ho, hn, -⟩
    exact ⟨⟨owners, ho⟩, n, hn⟩
  · rintro ⟨⟨owners, ho⟩, n, hn⟩
    exact ⟨owners, n, ho, hn, h.1 owners ho, h.2 n hn⟩

theorem Stored.later (h : Stored seen ms) (c : OwnersCalls) : Stored (seen ++ [c]) ms := by
  constructor
  · intro owners ho
    obtain ⟨d, hd, hd'⟩ := h.1 owners ho
    exact ⟨d, List.mem_append_left _ hd, hd'⟩
  · intro n hn
    obtain ⟨d, hd, hd'⟩ := h.2 n hn
    exact ⟨d, List.mem_append_left _ hd, hd'⟩

theorem get_threshold_cases (ms : WalletConfig) (ret : Ret) (c : OwnersCalls) :
    c.hasThreshold = true ∧ (∃ n tmp, c.threshold = .result tmp ∧ threshold_in tmp = some n ∧
        get_threshold ms ret c.threshold = (ret, { ms with threshold := some n })) ∨
      c.hasThreshold = false ∧ (get_threshold ms ret c.threshold).1 ≠ .ok ∧ (get_threshold ms ret c.threshold).2 = ms := by
  unfold OwnersCalls.hasThreshold get_threshold
  cases c.threshold with
  | result tmp =>
    cases hn : threshold_in tmp with
    | none => simp [hn]
    | some n => exact .inl ⟨by simp [hn], n, tmp, rfl, hn, by simp [hn]⟩
  | waiting => simp
  | error => cases ret <;> simp

theorem Stored.get_threshold {c : OwnersCalls} (h : Stored seen ms) (hc : c ∈ seen) (ret : Ret) :
    Stored seen (get_threshold ms ret c.threshold).2 := by
  rcases get_threshold_cases ms ret c with ⟨-, n, tmp, ht, hn, heq⟩ | ⟨-, -, heq⟩
  · rw [heq]
    refine ⟨h.1, ?_⟩
    rintro m ⟨⟩
    exact ⟨c, hc, tmp, ht, hn⟩
  · rwa [heq]

theorem owners_in_isSome (tmp : Bytes) : (owners_in tmp).isSome = true ↔ tmp.length = 64 + 32 * owners_len tmp := by
  unfold owners_in
  split <;> simp [*]

theorem used_iff (h : Stored seen ms) {o : Option (List Bytes)} (ho : ms.owners = some o) :
    CompleteBeforeUse ms seen calls ↔ calls = [] ∨ o.isSome = true ∧ ms.threshold.isSome = true := by
  induction calls generalizing seen with
  | nil => simp [CompleteBeforeUse]
  | cons c calls ih =>
    have hstep : ensure_owners_calls ms c = (.ok, ms) := by rw [ensure_owners_calls, if_pos (by simp [ho])]
    rw [CompleteBeforeUse, hstep, ih (h.later c), config_complete (h.later c)]
    cases o <;> simp_all

theorem arrivesTogether_iff (h : Stored seen ms) (ho : ms.owners = none) :
    CompleteBeforeUse ms seen calls ↔ ArrivesTogether ms.threshold.isSome calls := by
  induction calls generalizing seen ms with
  | nil => rfl
  | cons c calls ih =>
    rw [CompleteBeforeUse, ArrivesTogether, ensure_owners_calls, if_neg (by simp [ho])]
    cases hc : c.owners with
    | error => exact (and_iff_right nofun).trans (ih (h.later c) ho)
    | waiting =>
      have hstored := (h.later c).get_threshold (c := c) (by simp) .waiting
      rcases get_threshold_cases ms .waiting c with ⟨hT, n, tmp, -, -, heq⟩ | ⟨hF, hne, heq⟩
      · rw [heq] at hstored ⊢
        rw [hT, Bool.or_true]
        exact (and_iff_right nofun).trans (ih hstored ho)
      · rw [heq, hF, Bool.or_false]
        exact (and_iff_right fun hok => absurd hok hne).trans (ih (h.later c) ho)
    | result tmp =>
      dsimp only
      by_cases hshort : tmp.length < 64
      · rw [if_pos hshort, if_pos hshort]
        exact (and_iff_right nofun).trans (ih (h.later c) ho)
      rw [if_neg hshort, if_neg hshort]
      by_cases hfits : tmp.length = (64 + 32 * owners_len tmp) % 2 ^ 32
      · rw [if_neg (not_not.2 hfits)]
        have hstored : Stored (seen ++ [c]) { ms with owners := some (owners_in tmp) } := by
          refine ⟨?_, (h.later c).2⟩
          intro owners hin
          exact ⟨c, by simp, tmp, hc, Option.some_inj.1 hin⟩
        have hthen := hstored.get_threshold (c := c) (by simp) .ok
        have htaken : (tmp.length = 64 + 32 * owners_len tmp ∧ tmp.length < 2 ^ 32) ↔ (owners_in tmp).isSome = true := by
          rw [owners_in_isSome]
          omega
        simp only [htaken]
        rcases get_threshold_cases { ms with owners := some (owners_in tmp) } .ok c with ⟨hT, n, t, -, -, heq⟩ | ⟨hF, hne, heq⟩
        · rw [heq] at hthen ⊢
          rw [used_iff hthen rfl, config_complete hthen, hT]
          cases owners_in tmp with
          | none => simpa using fun _ => hfits
          | some owners => simp
        · rw [heq] at hthen ⊢
          rw [and_iff_right fun hok => absurd hok hne, used_iff hthen rfl, hF]
          cases owners_in tmp <;> simp
      · have hnot : ¬ (tmp.length = 64 + 32 * owners_len tmp ∧ tmp.length < 2 ^ 32) := by omega
        have hstored : Stored (seen ++ [c]) { ms with owners := some none } := ⟨nofun, (h.later c).2⟩
        rw [if_pos hfits, if_neg hnot, used_iff hstored rfl]
        simpa using fun _ h => absurd h hfits

end

/-- The configuration is complete whenever it is used, exactly if owners and threshold arrive together. -/
theorem ensure_owners_complete_iff (calls : List OwnersCalls) :
    CompleteBeforeUse ⟨none, none⟩ [] calls ↔ ArrivesTogether false calls :=
  arrivesTogether_iff ⟨nofun, nofun⟩ rfl

/-- A list with one owner. -/
def oneOwner : OwnersCalls := ⟨.result (word 32 ++ word 1 ++ List.replicate 12 0 ++ ownerN 7), .waiting⟩

/-- The threshold is still waited for when the owners arrive; the next call takes the wallet as initialised. -/
theorem threshold_missing :
    ensure_owners_calls ⟨none, none⟩ oneOwner = (.waiting, ⟨some (some [ownerN 7]), none⟩) ∧
      ensure_owners_calls ⟨some (some [ownerN 7]), none⟩ oneOwner = (.ok, ⟨some (some [ownerN 7]), none⟩) ∧
      ¬ CompleteBeforeUse ⟨none, none⟩ [] [oneOwner, oneOwner] := by
  have hfirst : ensure_owners_calls ⟨none, none⟩ oneOwner = (.waiting, ⟨some (some [ownerN 7]), none⟩) := by decide +kernel
  refine ⟨hfirst, rfl, ?_⟩
  rintro ⟨-, hsecond, -⟩
  rw [hfirst] at hsecond
  obtain ⟨_, n, _, hn, _⟩ := hsecond rfl
  cases hn

/-! ## The wallet of a run -/

/-- The outcome of a call, as far as `ensure_owners` tells outcomes apart. -/
def Prepare.answer (ctx : Prepare) (data : Bytes) : Answer :=
  match ctx.call data with
  | .ok tmp => .result tmp
  | .error e => if e = .ret IN3_WAITING then .waiting else .error

def Prepare.ownersCalls (ctx : Prepare) : OwnersCalls :=
  ⟨ctx.answer [0xa0, 0xe6, 0x7e, 0x2b], ctx.answer [0xe7, 0x52, 0x35, 0xb8]⟩

/-- A wallet with its owners has its threshold. -/
def multisig_t.config (ms : multisig_t) : WalletConfig := ⟨ms.owners.map some, ms.owners.map fun _ => ms.threshold⟩

section
variable {ctx : Prepare} {ms ms' : multisig_t} {tmp : Bytes} {owners : List Bytes}

theorem ok_of_unless_waiting {x : MsRun (List Bytes)} (h : ok (unless_waiting x) (.ok owners)) : ok x owners := by
  unfold ok unless_waiting at h
  rcases hx : x.run with e | (_ | code) | a
  · rw [hx] at h
    cases h
  · rw [hx] at h
    cases h
  · rw [hx, ExceptT.run_mk] at h
    dsimp only [Except.map] at h
    split at h <;> cases h
  · rw [hx] at h
    cases h
    exact hx

/-- As many owners as the result counts can only be read from one that holds them. -/
theorem owners_of_slices {n : Nat} (hcount : tmp.length = (64 + 32 * n) % 2 ^ 32)
    (h : ok ((List.range n).mapM fun i : Nat => (Region.slice tmp (i * 32 + 64 + 12) 20 : MsRun Bytes)) owners) :
    tmp.length = 64 + 32 * n ∧ owners = (List.range n).map fun i => (tmp.drop (i * 32 + 64 + 12)).take 20 := by
  have hall : ∀ (is : List Nat) (owners : List Bytes),
      ok (is.mapM fun i : Nat => (Region.slice tmp (i * 32 + 64 + 12) 20 : MsRun Bytes)) owners →
        (∀ i ∈ is, i * 32 + 96 ≤ tmp.length) ∧ owners = is.map fun i => (tmp.drop (i * 32 + 64 + 12)).take 20 := by
    intro is
    induction is with
    | nil => simp
    | cons i is ih =>
      intro owners h
      simp only [List.mapM_cons, ok_bind, Region.ok_slice, ok_pure] at h
      obtain ⟨owner, ⟨⟨-, hin⟩, rfl⟩, rest, hrest, rfl⟩ := h
      obtain ⟨hle, rfl⟩ := ih rest hrest
      exact ⟨List.forall_mem_cons.2 ⟨by omega, hle⟩, rfl⟩
  obtain ⟨hle, rfl⟩ := hall _ _ h
  refine ⟨?_, rfl⟩
  rcases n with _ | n
  · exact hcount
  · have hlast := hle n (List.mem_range.2 n.lt_succ_self)
    omega

/-- A run that gets the wallet goes on with what the configuration holds behind this call. -/
theorem config_of_ensure_owners (h : ok (ensure_owners ctx ms) ms') :
    ensure_owners_calls ms.config ctx.ownersCalls = (.ok, ms'.config) := by
  unfold ensure_owners at h
  rcases howners : ms.owners with _ | known
  · rw [howners] at h
    simp only [ok_bind] at h
    obtain ⟨ret, hfetch, h⟩ := h
    rcases hthreshold : ctx.call [0xe7, 0x52, 0x35, 0xb8] with e | threshold
    · rw [hthreshold] at h
      rcases ret with e' | _ <;> exact absurd h ok_throw
    · rw [hthreshold] at h
      simp only [ok_ite_throw, not_not, ok_bind, ok_pure] at h
      obtain ⟨hlen, owners, hret, rfl⟩ := h
      obtain rfl : ret = .ok owners := Except.ok.inj hret
      have hfetch := ok_of_unless_waiting hfetch
      simp only [ensure_owners.fetch_owners, ok_bind, ok_called, ok_check] at hfetch
      obtain ⟨tmp, hcall, hlong, hcount, hslices⟩ := hfetch
      have hcount : tmp.length = (64 + 32 * owners_len tmp) % 2 ^ 32 := not_not.1 hcount
      obtain ⟨hwhole, rfl⟩ := owners_of_slices hcount hslices
      have hin : owners_in tmp = some _ := if_pos hwhole
      simp only [ensure_owners_calls, multisig_t.config, howners, Prepare.ownersCalls, Prepare.answer, hcall, hthreshold]
      rw [Option.map_none, Option.isSome_none, if_neg Bool.false_ne_true]
      rw [if_neg hlong, if_neg (not_not.2 hcount)]
      simp [get_threshold, threshold_in, hlen, hin]
  · rw [howners] at h
    obtain rfl := ok_pure.1 h
    rw [ensure_owners_calls, if_pos (by simp [multisig_t.config, howners])]

end

end In3.Signer
