import In3.Zksync.Musig
import Mathlib.Data.List.GetD
/-!
# One share for a seed

A session makes at most one signature share: when its commitments become complete, which they stay. So a
seed is used twice only if a session is created with the seed of a share that was made before, or of
another open session. The code does not prevent this: after an error, at the end of a signature and
for too many sessions a session is freed, and the next request for its message creates it again with the
same seed, and with other commitments.
-/
open Lib Machine List

namespace In3.Zksync

section
variable {lib : Library}

/-! ## Merging -/

@[simp] theorem length_merged (pos : Nat) (old new : Words) : (merged pos old new).length = old.length := by
  simp [merged]

variable {conf : zksync_config_t} {i : Nat} {keccak : Hash} {message : Bytes} {req : Request}
  {answers : List (Except Int Tok)} {new old : Words} {o : Except Int Unit} {pos : Nat} {α : Type}

theorem getD_merged_of_set (h : memiszero (old.getD i []) = false) :
    (merged pos old new).getD i [] = old.getD i [] := by
  rcases Nat.lt_or_ge i old.length with hi | hi
  · rw [getD_eq_getElem _ _ hi] at h
    rw [getD_eq_getElem _ _ (by simpa using hi), getD_eq_getElem _ _ hi]
    simp [merged, h]
  · rw [getD_eq_default _ _ (by simpa using hi), getD_eq_default _ _ hi]

theorem getD_merged_own (pos : Nat) (old new : Words) : (merged pos old new).getD pos [] = old.getD pos [] := by
  rcases Nat.lt_or_ge pos old.length with hi | hi
  · simp [merged]
  · rw [getD_eq_default _ _ (by simpa using hi), getD_eq_default _ _ hi]

theorem is_complete_iff {w : Words} : is_complete w = true ↔ ∀ i < w.length, memiszero (w.getD i []) = false := by
  unfold is_complete
  rw [all_eq_true, forall_mem_iff_forall_getElem]
  constructor
  · intro h i hi
    rw [getD_eq_getElem _ _ hi]
    simpa using h i hi
  · intro h i hi
    have := h i hi
    rw [getD_eq_getElem _ _ hi] at this
    simpa using this

/-- A vector with the words of another one. -/
structure Fuller (old new : Words) : Prop where
  length : new.length = old.length
  kept : ∀ i, memiszero (old.getD i []) = false → memiszero (new.getD i []) = false

theorem Fuller.refl (w : Words) : Fuller w w := ⟨rfl, fun _ h => h⟩

theorem Fuller.trans {a b c : Words} (h : Fuller a b) (h' : Fuller b c) : Fuller a c :=
  ⟨h'.length.trans h.length, fun i hi => h'.kept i (h.kept i hi)⟩

theorem fuller_merged (pos : Nat) (old new : Words) : Fuller old (merged pos old new) :=
  ⟨length_merged pos old new, fun i hi => by rw [getD_merged_of_set hi, hi]⟩

theorem Fuller.complete (h : Fuller old new) (hold : is_complete old = true) : is_complete new = true := by
  rw [is_complete_iff] at hold ⊢
  intro i hi
  exact h.kept i (hold i (h.length ▸ hi))

/-! ## A request that only collects -/

/-- The session behind a part of a request that makes no share. -/
structure Collects (new : List Share) (r : Round lib) (o : Option Int) (r' : Round lib) : Prop where
  none : new = []
  seed : r'.session.seed = r.session.seed
  pos : r'.session.pos = r.session.pos
  precommitments : Fuller r.session.precommitments r'.session.precommitments
  commitments : Fuller r.session.commitments r'.session.commitments
  own : r'.session.commitments.getD r.session.pos [] = r.session.commitments.getD r.session.pos []

theorem collects_refl (r : Round lib) (o : Option Int) : Collects [] r o r :=
  ⟨rfl, rfl, rfl, .refl _, .refl _, rfl⟩

theorem collects_chains : Chains fun new (r : Round lib) o r' => Collects new r o r' where
  stop r := collects_refl r _
  seq := by
    rintro m n r t u o ⟨rfl, hseed, hpos, hpre, hcom, hown⟩ ⟨rfl, hseed', hpos', hpre', hcom', hown'⟩
    refine ⟨rfl, hseed'.trans hseed, hpos'.trans hpos, hpre.trans hpre', hcom.trans hcom', ?_⟩
    rw [hpos] at hown'
    exact hown'.trans hown

def Collecting {α : Type} (x : SessionRun lib α) : Prop := Follows Round.shares Collects x

section
variable {α β : Type}

theorem Collecting.bind {x : SessionRun lib α} {f : α → SessionRun lib β} (hx : Collecting x) (hf : ∀ a, Collecting (f a)) :
    Collecting (x >>= f) := Machine.Follows.bind collects_chains hx hf

theorem collecting_pure (a : α) : Collecting (pure a : SessionRun lib α) := Machine.Follows.pure collects_chains a

theorem collecting_throw (e : Int) : Collecting (throw e : SessionRun lib α) := Machine.Follows.throw fun r => collects_refl r _

theorem collecting_ofExcept (q : Except Int α) : Collecting (Machine.ofExcept q : SessionRun lib α) :=
  Machine.Follows.ofExcept fun r => collects_refl r _

theorem collecting_getSession : Collecting (getSession : SessionRun lib (zk_musig_session_t lib)) :=
  Collecting.bind (Machine.Follows.get collects_chains) fun _ => collecting_pure _

end

theorem collecting_modifySession {f : zk_musig_session_t lib → zk_musig_session_t lib}
    (hf : ∀ s, (f s).seed = s.seed ∧ (f s).pos = s.pos ∧ Fuller s.precommitments (f s).precommitments ∧
      Fuller s.commitments (f s).commitments ∧ (f s).commitments.getD s.pos [] = s.commitments.getD s.pos []) :
    Collecting (modifySession f) :=
  Machine.Follows.modify (fun _ => rfl) fun r => by
    obtain ⟨hseed, hpos, hpre, hcom, hown⟩ := hf r.session
    exact ⟨rfl, hseed, hpos, hpre, hcom, hown⟩

theorem Collecting.ite {c : Prop} [Decidable c] {x y : SessionRun lib α} (hx : Collecting x) (hy : Collecting y) :
    Collecting (if c then x else y) := by
  split
  · exact hx
  · exact hy

theorem collecting_merge_commitments (w : Option Words) : Collecting (merge_commitments w : SessionRun lib Unit) := by
  unfold merge_commitments
  cases w with
  | none => exact collecting_pure _
  | some w =>
    apply collecting_modifySession
    intro s
    exact ⟨rfl, rfl, .refl _, fuller_merged _ _ _, getD_merged_own s.pos s.commitments w⟩

theorem collecting_merge_shares (w : Option Words) : Collecting (merge_shares w : SessionRun lib Unit) := by
  unfold merge_shares
  cases w with
  | none => exact collecting_pure _
  | some w =>
    apply collecting_modifySession
    intro s
    exact ⟨rfl, rfl, .refl _, .refl _, rfl⟩

theorem collecting_update_session (data : Tok) : Collecting (update_session data : SessionRun lib Unit) := by
  refine collecting_getSession.bind fun s => ?_
  split
  · refine .ite (collecting_throw _) ?_
    refine .bind (collecting_modifySession ?_) fun _ => ?_
    · intro s
      exact ⟨rfl, rfl, fuller_merged _ _ _, .refl _, rfl⟩
    refine (collecting_ofExcept _).bind fun w => (collecting_merge_commitments w).bind fun _ => ?_
    exact (collecting_ofExcept _).bind fun w => collecting_merge_shares w
  · exact collecting_throw _

theorem collecting_request_message : Collecting (request_message : SessionRun lib Unit) := by
  intro r o r' h
  unfold request_message at h
  rw [ends_get_bind] at h
  split at h
  · obtain ⟨rfl, rfl⟩ := ends_throw.1 h
    exact ⟨[], by simp, collects_refl _ _⟩
  · next answer answers _ =>
    have hrest : Collecting (Machine.ofExcept answer >>= fun data => (update_session data : SessionRun lib Unit)) :=
      (collecting_ofExcept answer).bind fun data => collecting_update_session data
    obtain ⟨new, hnew, hc⟩ := hrest _ _ _ h
    exact ⟨new, hnew, hc.none, hc.seed, hc.pos, hc.precommitments, hc.commitments, hc.own⟩

theorem collecting_request_words (conf : zksync_config_t) (vector : zk_musig_session_t lib → Words) (places : List Nat) :
    Collecting (request_words conf vector places) := by
  induction places with
  | nil => exact collecting_pure _
  | cons i rest ih =>
    refine collecting_getSession.bind fun s => .ite ?_ ih
    exact collecting_request_message.bind fun _ => collecting_getSession.bind fun s => .ite (collecting_throw _) ih

theorem collecting_update_from (req : Request) : Collecting (update_from req : SessionRun lib Unit) :=
  .ite (collecting_update_session _) (collecting_pure _)

theorem collecting_aggregate (is_object : Bool) : Collecting (aggregate is_object : SessionRun lib Bool) := by
  refine collecting_getSession.bind fun s => .ite ?_ (collecting_pure _)
  exact (collecting_ofExcept _).bind fun _ => (collecting_ofExcept _).bind fun _ => collecting_pure _

/-! ## A request -/

variable {α : Type} {r₀ r r' : Round lib} {s : zk_musig_session_t lib} {st : Sessions lib} {x : SessionRun lib α}

theorem ends_getSession : ends getSession r (.ok r.session) r := by
  exact ends_pure.2 ⟨rfl, rfl⟩

structure Sane (s : zk_musig_session_t lib) : Prop where
  pos : s.pos < s.commitments.length
  own : memiszero (s.commitments.getD s.pos []) = false → is_complete s.precommitments = true

theorem Sane.precommitted (h : Sane s) (hc : is_complete s.commitments = true) :
    is_complete s.precommitments = true := h.own (is_complete_iff.1 hc _ h.pos)

/-- A request that started with `r₀` and made no share yet. -/
structure Pending (r₀ r : Round lib) : Prop where
  seed : r.session.seed = r₀.session.seed
  sane : Sane r.session
  precommitments : is_complete r₀.session.precommitments = true → is_complete r.session.precommitments = true
  commitments : is_complete r₀.session.commitments = true → is_complete r.session.commitments = true
  shares : r.shares = r₀.shares

/-- A request that started with `r₀`: it made at most one share, and this completed its commitments. -/
structure Advanced (r₀ r : Round lib) : Prop where
  seed : r.session.seed = r₀.session.seed
  sane : Sane r.session
  kept : is_complete r₀.session.commitments = true → is_complete r.session.commitments = true ∧ r.shares = r₀.shares
  shares : r.shares = r₀.shares ∨
    is_complete r.session.commitments = true ∧ ∃ share, share.seed = r₀.session.seed ∧ r.shares = r₀.shares ++ [share]

theorem Pending.advanced (h : Pending r₀ r) : Advanced r₀ r :=
  ⟨h.seed, h.sane, fun hc => ⟨h.commitments hc, h.shares⟩, .inl h.shares⟩

theorem Collects.sane {new : List Share} {o : Option Int} (h : Collects new r o r') (hs : Sane r.session) :
    Sane r'.session := by
  refine ⟨?_, fun hown => h.precommitments.complete (hs.own ?_)⟩
  · rw [h.pos, h.commitments.length]
    exact hs.pos
  · rw [h.pos, h.own] at hown
    exact hown

theorem Collecting.pending (hx : Collecting x) {o : Except Int α}
    (hp : Pending r₀ r) (h : ends x r o r') : Pending r₀ r' := by
  obtain ⟨new, hnew, hc⟩ := hx r o r' h
  refine ⟨hc.seed.trans hp.seed, hc.sane hp.sane, fun h => hc.precommitments.complete (hp.precommitments h),
    fun h => hc.commitments.complete (hp.commitments h), ?_⟩
  rw [hnew, hc.none, append_nil, hp.shares]

theorem Collecting.advanced (hx : Collecting x) {o : Except Int α}
    (ha : Advanced r₀ r) (h : ends x r o r') : Advanced r₀ r' := by
  obtain ⟨new, hnew, hc⟩ := hx r o r' h
  have hshares : r'.shares = r.shares := by rw [hnew, hc.none, append_nil]
  refine ⟨hc.seed.trans ha.seed, hc.sane ha.sane, fun h => ?_, ?_⟩
  · obtain ⟨hcom, hsame⟩ := ha.kept h
    exact ⟨hc.commitments.complete hcom, hshares.trans hsame⟩
  · rw [hshares]
    exact ha.shares.imp id fun ⟨hcom, hshare⟩ => ⟨hc.commitments.complete hcom, hshare⟩

theorem receive_precommitments_pending (h₀ : Sane r₀.session) (hp : Pending r₀ r)
    (h : ends (receive_precommitments (is_complete r₀.session.precommitments)) r o r') : Pending r₀ r' := by
  unfold receive_precommitments at h
  rw [ends_bind_of_ok ends_getSession] at h
  by_cases hnow : ¬ is_complete r₀.session.precommitments = true ∧ is_complete r.session.precommitments = true
  · rw [if_pos hnow] at h
    rcases ends_bind.1 h with ⟨⟨signer, commitment⟩, t, ht, hset⟩ | ⟨e, -, ht⟩
    · obtain ⟨-, rfl⟩ := ends_ofExcept.1 ht
      obtain ⟨-, rfl⟩ := ends_modify.1 hset
      refine ⟨hp.seed, ⟨?_, fun _ => hnow.2⟩, hp.precommitments, fun hc => ?_, hp.shares⟩
      · exact hp.sane.pos.trans_eq length_set.symm
      · exact absurd (h₀.precommitted hc) hnow.1
    · obtain ⟨-, rfl⟩ := ends_ofExcept.1 ht
      exact hp
  · rw [if_neg hnow] at h
    obtain ⟨-, rfl⟩ := ends_pure.1 h
    exact hp

theorem sign_share_advanced
    (hp : Pending r₀ r) (h : ends (sign_share conf message (is_complete r₀.session.commitments)) r o r') :
    Advanced r₀ r' := by
  unfold sign_share at h
  rw [ends_bind_of_ok ends_getSession] at h
  by_cases hnow : ¬ is_complete r₀.session.commitments = true ∧ is_complete r.session.commitments = true
  · rw [if_pos hnow] at h
    rcases ends_bind.1 h with ⟨signer, t, ht, hsign⟩ | ⟨e, -, ht⟩
    · obtain ⟨-, rfl⟩ := ends_ofExcept.1 ht
      rcases ends_bind.1 hsign with ⟨⟨signer', share⟩, u, hu, hset⟩ | ⟨e, -, hu⟩
      · obtain ⟨-, rfl⟩ := ends_ofExcept.1 hu
        obtain ⟨-, rfl⟩ := ends_modify.1 hset
        refine ⟨hp.seed, ⟨hp.sane.pos, hp.sane.own⟩, fun hc => absurd hc hnow.1,
          .inr ⟨hnow.2, ⟨u.session.seed, message, u.session.commitments⟩, hp.seed, ?_⟩⟩
        rw [← hp.shares]
      · obtain ⟨-, rfl⟩ := ends_ofExcept.1 hu
        exact hp.advanced
    · obtain ⟨-, rfl⟩ := ends_ofExcept.1 ht
      exact hp.advanced
  · rw [if_neg hnow] at h
    obtain ⟨-, rfl⟩ := ends_pure.1 h
    exact hp.advanced

theorem advanced_bind {β : Type} {f : α → SessionRun lib β} {P : Round lib → Prop} {o : Except Int β} (h : ends (x >>= f) r o r')
    (hx : ∀ {o t}, ends x r o t → P t) (hP : ∀ {t}, P t → Advanced r₀ t)
    (hf : ∀ {a t}, P t → ends (f a) t o r' → Advanced r₀ r') : Advanced r₀ r' := by
  rcases ends_bind.1 h with ⟨a, t, ht, h⟩ | ⟨e, -, ht⟩
  · exact hf (hx ht) h
  · exact hP (hx ht)

theorem advance_advanced {o : Except Int Bool}
    (hs : Sane r.session) (h : ends (advance conf req message) r o r') : Advanced r r' := by
  have hstart : Pending r r := ⟨rfl, hs, id, id, rfl⟩
  unfold advance at h
  rw [ends_bind_of_ok ends_getSession] at h
  refine advanced_bind h (fun ht => (collecting_update_from req).pending hstart ht) Pending.advanced fun hp h => ?_
  refine advanced_bind h (fun ht => (collecting_request_words _ _ _).pending hp ht) Pending.advanced fun hp h => ?_
  refine advanced_bind h (fun ht => receive_precommitments_pending hs hp ht) Pending.advanced fun hp h => ?_
  refine advanced_bind h (fun ht => (collecting_request_words _ _ _).pending hp ht) Pending.advanced fun hp h => ?_
  refine advanced_bind h (fun ht => sign_share_advanced hp ht) id fun ha h => ?_
  refine advanced_bind h (fun ht => (collecting_request_words _ _ _).advanced ha ht) id fun ha h => ?_
  exact (collecting_aggregate _).advanced ha h

/-! ## All sessions -/

/-- A seed has at most one share and at most one session, and the session of a share has all its commitments. -/
structure Inv (st : Sessions lib) : Prop where
  shares : (st.shares.map Share.seed).Nodup
  sessions : (st.sessions.map (·.seed)).Nodup
  each : ∀ s ∈ st.sessions, Sane s ∧ (s.seed ∈ st.shares.map Share.seed → is_complete s.commitments = true)

theorem inv_empty : Inv ({} : Sessions lib) := ⟨nodup_nil, nodup_nil, by simp⟩

theorem Inv.sublist {sessions : List (zk_musig_session_t lib)} (h : Inv st) (hs : sessions.Sublist st.sessions) :
    Inv ⟨sessions, st.shares⟩ :=
  ⟨h.shares, h.sessions.sublist (hs.map _), fun s hmem => h.each s (hs.subset hmem)⟩

theorem Advanced.seeds (h : Advanced r₀ r) {seed : Bytes} (hmem : seed ∈ r.shares.map Share.seed) :
    seed ∈ r₀.shares.map Share.seed ∨ seed = r₀.session.seed ∧ is_complete r.session.commitments = true := by
  rcases h.shares with heq | ⟨hcom, share, hshare, heq⟩
  · rw [heq] at hmem
    exact .inl hmem
  · rw [heq, map_append, mem_append, map_singleton, mem_singleton, hshare] at hmem
    exact hmem.imp id fun hseed => ⟨hseed, hcom⟩

theorem Advanced.nodup (h : Advanced r₀ r) (hnodup : (r₀.shares.map Share.seed).Nodup)
    (hold : r₀.session.seed ∈ r₀.shares.map Share.seed → is_complete r₀.session.commitments = true) :
    (r.shares.map Share.seed).Nodup := by
  rcases h.shares with heq | ⟨-, share, hshare, heq⟩
  · rw [heq]
    exact hnodup
  · have hnew : share.seed ∉ r₀.shares.map Share.seed := by
      intro hmem
      have hsame := (h.kept (hold (hshare ▸ hmem))).2
      rw [heq] at hsame
      simp at hsame
    rw [heq, map_append]
    exact hnodup.append (nodup_singleton _) (disjoint_singleton.2 hnew)

theorem Inv.set {round : Round lib}
    (h : Inv st) (hi : st.sessions[i]? = some s) (ha : Advanced ⟨s, st.shares, answers⟩ round) :
    Inv ⟨st.sessions.set i round.session, round.shares⟩ := by
  have hold := (h.each s (mem_of_getElem? hi)).2
  obtain ⟨hlt, hget⟩ := List.getElem?_eq_some_iff.1 hi
  refine ⟨ha.nodup h.shares hold, ?_, ?_⟩
  · have hlen : i < (st.sessions.map (·.seed)).length := by simpa using hlt
    have hseed : round.session.seed = (st.sessions.map (·.seed))[i] := by
      rw [ha.seed, getElem_map, hget]
    rw [map_set, hseed, set_getElem_self]
    exact h.sessions
  · intro t ht
    obtain ⟨j, hj⟩ := mem_iff_getElem?.1 ht
    rw [List.getElem?_set] at hj
    by_cases hij : i = j
    · rw [if_pos hij, if_pos hlt] at hj
      cases hj
      refine ⟨ha.sane, fun hmem => ?_⟩
      rcases ha.seeds hmem with hmem | ⟨-, hcom⟩
      · exact (ha.kept (hold (ha.seed ▸ hmem))).1
      · exact hcom
    · -- no other session has the seed
      rw [if_neg hij] at hj
      obtain ⟨hsane, hcom⟩ := h.each t (mem_of_getElem? hj)
      refine ⟨hsane, fun hmem => hcom ?_⟩
      rcases ha.seeds hmem with hmem | ⟨hseed, -⟩
      · exact hmem
      · refine absurd ((List.getElem?_inj (by simpa using hlt) h.sessions).1 ?_) hij
        rw [List.getElem?_map, List.getElem?_map, hi, hj]
        simp [hseed]

theorem settle_inv {x : SessionRun lib Bool}
    (hx : ∀ {s o r'}, st.sessions[i]? = some s → ends x ⟨s, st.shares, answers⟩ o r' → Advanced ⟨s, st.shares, answers⟩ r')
    (h : Inv st) : Inv (settle st i x answers) := by
  unfold settle
  rcases hi : st.sessions[i]? with _ | s
  · exact h
  dsimp only
  rcases hrun : x.run.run ⟨s, st.shares, answers⟩ with e | ⟨o, round⟩
  · nomatch e
  have hset := h.set hi (hx hi hrun)
  have herase : Inv ⟨st.sessions.eraseIdx i, round.shares⟩ := by
    have hsub := hset.sublist (eraseIdx_sublist _ i)
    rwa [eraseIdx_set_eq] at hsub
  rcases o with code | finished
  · dsimp only
    split
    · exact hset
    · exact herase
  · dsimp only
    split
    · exact herase
    · exact hset

/-! ## New sessions -/

def creates (keccak : Hash) (conf : zksync_config_t) (req : Request) (st : Sessions lib) : Option (zk_musig_session_t lib) :=
  match message_of req with
  | none => none
  | some message =>
    if req.rpc ∨ d_type req.first_arg ≠ .T_OBJECT ∧ conf.musig_pub_keys = none ∨
        (st.sessions.findIdx? (·.id = session_id keccak message)).isSome then none
    else (new_session lib keccak conf req message).toOption

/-- A session is only created with a seed that no share was made with and that no open session has. -/
def Fresh (keccak : Hash) (conf : zksync_config_t) (req : Request) (st : Sessions lib) : Prop :=
  ∀ s, creates keccak conf req st = some s → s.seed ∉ st.shares.map Share.seed ∧ s.seed ∉ st.sessions.map (·.seed)

theorem length_words (b : Bytes) : (words b).length = b.length / 32 := by
  simp [words]

theorem get_pubkey_pos_lt {pub_keys : Bytes} (h : get_pubkey_pos conf pub_keys = .ok pos) :
    pos < pub_keys.length / 32 := by
  unfold get_pubkey_pos at h
  split at h
  · cases h
  · rcases hkey : conf.pub_key with e | pub_key <;> rw [hkey] at h
    · cases h
    · dsimp only [bind, Except.bind] at h
      split at h
      · next found hfound =>
        cases h
        rw [← length_words]
        exact (List.findIdx?_eq_some_iff_getElem.1 hfound).1
      · cases h

theorem new_session_ok
    (h : new_session lib keccak conf req message = .ok s) :
    s.pos < s.commitments.length ∧ memiszero (s.commitments.getD s.pos []) = true := by
  unfold new_session at h
  rcases hsync : req.get_sync_key with e | u <;> rw [hsync] at h
  · cases h
  dsimp only [bind, Except.bind] at h
  rcases hkeys : pub_keys_of conf req with _ | pub_keys <;> rw [hkeys] at h
  · cases h
  · dsimp only at h
    rcases hpos : get_pubkey_pos conf pub_keys with e | pos <;> rw [hpos] at h
    · cases h
    have hlt := get_pubkey_pos_lt hpos
    dsimp only at h
    split at h
    · cases h
    · rcases hproof : req.proof with e | u <;> rw [hproof] at h
      · cases h
      · cases h
        constructor
        · simpa using hlt
        · rw [getD_eq_getElem _ _ (by simpa using hlt), getElem_replicate]
          decide

theorem precommit_advance_advanced
    {o : Except Int Bool} (hpos : r.session.pos < r.session.commitments.length)
    (hown : memiszero (r.session.commitments.getD r.session.pos []) = true)
    (h : ends (do precommit; advance conf req message) r o r') : Advanced r r' := by
  have hsane : ∀ s : zk_musig_session_t lib, s.pos = r.session.pos → s.commitments = r.session.commitments → Sane s := by
    intro s hp hc
    refine ⟨by rw [hp, hc]; exact hpos, fun hset => ?_⟩
    rw [hp, hc, hown] at hset
    cases hset
  unfold precommit at h
  rw [bind_assoc, ends_bind_of_ok ends_getSession, bind_assoc] at h
  rcases ends_bind.1 h with ⟨⟨signer, precommitment⟩, t, ht, hrest⟩ | ⟨e, -, ht⟩
  · obtain ⟨-, rfl⟩ := ends_ofExcept.1 ht
    rcases ends_bind.1 hrest with ⟨_, u, hu, hadvance⟩ | ⟨e, -, hu⟩
    · obtain ⟨-, rfl⟩ := ends_modify.1 hu
      have hsigned := fun hs => advance_advanced hs hadvance
      have ha := hsigned (hsane _ rfl rfl)
      exact ⟨ha.seed, ha.sane, ha.kept, ha.shares⟩
    · exact absurd (ends_modify.1 hu).1 (by simp)
  · obtain ⟨-, rfl⟩ := ends_ofExcept.1 ht
    exact ⟨rfl, hsane _ rfl rfl, fun hc => ⟨hc, rfl⟩, .inl rfl⟩

theorem Inv.cons (h : Inv st) (hs : Sane s)
    (hshares : s.seed ∉ st.shares.map Share.seed) (hsessions : s.seed ∉ st.sessions.map (·.seed)) :
    Inv { st with sessions := s :: st.sessions } := by
  refine ⟨h.shares, nodup_cons.2 ⟨hsessions, h.sessions⟩, fun t ht => ?_⟩
  rcases mem_cons.1 ht with rfl | ht
  · exact ⟨hs, fun hmem => absurd hmem hshares⟩
  · exact h.each t ht

theorem creates_eq_some (hrpc : req.rpc = false) (hmessage : message_of req = some message)
    (halone : ¬ (d_type req.first_arg ≠ .T_OBJECT ∧ conf.musig_pub_keys = none))
    (hnone : st.sessions.findIdx? (·.id = session_id keccak message) = none)
    (hnew : new_session lib keccak conf req message = .ok s) : creates keccak conf req st = some s := by
  unfold creates
  rw [hmessage]
  dsimp only
  rw [if_neg, hnew]
  · rfl
  · rintro (h | h | h)
    · rw [hrpc] at h
      cases h
    · exact halone h
    · rw [hnone] at h
      cases h

theorem zksync_musig_sign_inv (h : Inv st)
    (hfresh : Fresh keccak conf req st) : Inv (zksync_musig_sign keccak conf req st) := by
  unfold zksync_musig_sign
  by_cases hrpc : req.rpc = true
  · rw [if_pos hrpc]
    exact h
  rw [if_neg hrpc]
  rcases hmessage : message_of req with _ | message
  · exact h
  dsimp only
  by_cases halone : d_type req.first_arg ≠ .T_OBJECT ∧ conf.musig_pub_keys = none
  · rw [if_pos halone]
    exact h
  rw [if_neg halone]
  split
  · exact settle_inv (fun hs hrun => advance_advanced (h.each _ (mem_of_getElem? hs)).1 hrun) h
  · next hfound =>
    rcases hnew : new_session lib keccak conf req message with e | s
    · exact h
    obtain ⟨hpos, hown⟩ := new_session_ok hnew
    obtain ⟨hshares, hsessions⟩ :=
      hfresh s (creates_eq_some (Bool.eq_false_iff.2 hrpc) hmessage halone hfound hnew)
    have hsub : (check_max_sessions st.sessions).Sublist st.sessions := eraseIdx_sublist _ _
    have hsane : Sane s := ⟨hpos, fun hset => by rw [hown] at hset; cases hset⟩
    refine settle_inv (fun hs hrun => ?_) ((h.sublist hsub).cons hsane hshares fun hmem => hsessions ((hsub.map _).subset hmem))
    cases hs
    exact precommit_advance_advanced hpos hown hrun

def AllFresh (keccak : Hash) (conf : zksync_config_t) : List Request → Sessions lib → Prop
  | [], _ => True
  | req :: reqs, st => Fresh keccak conf req st ∧ AllFresh keccak conf reqs (zksync_musig_sign keccak conf req st)

theorem sign_all_inv {reqs : List Request} (h : Inv st)
    (hfresh : AllFresh keccak conf reqs st) : Inv (sign_all keccak conf reqs st) := by
  induction reqs generalizing st with
  | nil => exact h
  | cons req reqs ih => exact ih (zksync_musig_sign_inv h hfresh.1) hfresh.2

/-- Two shares with one seed were made for the same message and the same commitments. -/
def NonceOnce (shares : List Share) : Prop :=
  ∀ a ∈ shares, ∀ b ∈ shares, a.seed = b.seed → a.message = b.message ∧ a.commitments = b.commitments

/-- In every run that only creates sessions with fresh seeds no nonce is used for a second message or for other
commitments. -/
theorem nonces_of_fresh (keccak : Hash) (conf : zksync_config_t) (reqs : List Request)
    (hfresh : AllFresh keccak conf reqs ({} : Sessions lib)) :
    NonceOnce (sign_all keccak conf reqs ({} : Sessions lib)).shares := by
  intro a ha b hb hseed
  have hinv := sign_all_inv inv_empty hfresh
  rw [inj_on_of_nodup_map hinv.shares ha hb hseed]
  exact ⟨rfl, rfl⟩

instance (keccak : Hash) (conf : zksync_config_t) (req : Request) (st : Sessions lib) : Decidable (Fresh keccak conf req st) :=
  inferInstanceAs (Decidable (∀ s ∈ creates keccak conf req st, s.seed ∉ st.shares.map Share.seed ∧ s.seed ∉ st.sessions.map (·.seed)))

instance decidableAllFresh (keccak : Hash) (conf : zksync_config_t) :
    (reqs : List Request) → (st : Sessions lib) → Decidable (AllFresh keccak conf reqs st)
  | [], _ => inferInstanceAs (Decidable True)
  | req :: reqs, st =>
    have := decidableAllFresh keccak conf reqs (zksync_musig_sign keccak conf req st)
    inferInstanceAs (Decidable (Fresh keccak conf req st ∧ AllFresh keccak conf reqs (zksync_musig_sign keccak conf req st)))

instance (shares : List Share) : Decidable (NonceOnce shares) :=
  inferInstanceAs (Decidable (∀ a ∈ shares, ∀ b ∈ shares, a.seed = b.seed → a.message = b.message ∧ a.commitments = b.commitments))

/-! ## The number of sessions -/

theorem length_settle_le (st : Sessions lib) (i : Nat) (x : SessionRun lib Bool) (answers : List (Except Int Tok)) :
    (settle st i x answers).sessions.length ≤ st.sessions.length := by
  have herase : (st.sessions.eraseIdx i).length ≤ st.sessions.length := (eraseIdx_sublist _ i).length_le
  unfold settle
  split
  · exact le_rfl
  · split
    · next e _ => nomatch e
    · split <;> simp [herase]
    · split <;> simp [herase]

theorem length_check_max_sessions {sessions : List (zk_musig_session_t lib)} (h : sessions.length ≤ MAX_SESSIONS + 1) :
    (check_max_sessions sessions).length ≤ MAX_SESSIONS := by
  unfold check_max_sessions
  rw [length_eraseIdx]
  split <;> omega

theorem length_zksync_musig_sign (h : st.sessions.length ≤ MAX_SESSIONS + 1) :
    (zksync_musig_sign keccak conf req st).sessions.length ≤ MAX_SESSIONS + 1 := by
  unfold zksync_musig_sign
  split
  · exact h
  split
  · exact h
  split
  · exact h
  split
  · exact (length_settle_le ..).trans h
  split
  · exact h
  · exact (length_settle_le ..).trans (Nat.succ_le_succ (length_check_max_sessions h))

/-- One more than `MAX_SESSIONS`: the check is made before the new session is added. -/
theorem open_sessions_le (keccak : Hash) (conf : zksync_config_t) (reqs : List Request) :
    (sign_all keccak conf reqs ({} : Sessions lib)).sessions.length ≤ MAX_SESSIONS + 1 := by
  suffices hrun : ∀ st : Sessions lib, st.sessions.length ≤ MAX_SESSIONS + 1 →
      (sign_all keccak conf reqs st).sessions.length ≤ MAX_SESSIONS + 1 from hrun {} (Nat.zero_le _)
  induction reqs with
  | nil => exact fun st h => h
  | cons req reqs ih => exact fun st h => ih _ (length_zksync_musig_sign h)

end

/-! ## Two participants -/

def wordOf (b : UInt8) : Bytes := replicate 32 b

/-- What stands for the hash of a commitment. -/
def commitment_hash (commitment : Bytes) : Bytes := commitment.map (255 - ·)

/-- A library that keeps the seed and the precommitments, and refuses commitments that they are not the hashes of. -/
def checking : Library where
  Signer := Bytes × Words
  new _ _ := ([], [])
  compute_precommitment _ seed := .ok ((seed, []), commitment_hash seed)
  receive_precommitment s pre := .ok ((s.1, pre), s.1)
  receive_commitment s commitments := if commitments.map commitment_hash = s.2 then .ok s else .error IN3_EUNKNOWN
  sign s _ message := .ok (s, s.1.map (· + message.getD 0 0))
  compute_aggregated_pubkey pub_keys := .ok (pub_keys.take 32)
  receive_signature_shares _ shares := .ok (shares.getD 0 [])

def firstOfTwo : zksync_config_t where
  sync_key := wordOf 6
  pub_key := .ok (wordOf 7)
  musig_pub_keys := some (wordOf 7 ++ wordOf 8)
  musig_urls _ := false

/-- Keccak on the messages `[1]` and `[2]`, on the keys, and on what the two seeds are made of. -/
def hashOfTwo : Hash :=
  let message1 := word 0x5fe7f977e71dba2ea1a68e21057beebb9be2ac30c6410aa38d4f3fbe41dcffd2
  let message2 := word 0xf2ee15ea639b73fa3db9b34a245bdfa015c260c598b211bf05a1ecc4b3e3b4f2
  let keys := word 0xfe040ff362c4dd00731de08ecee6d4008e75bf70c25e6105c645ddd97ea846d5 ++
    word 0xc5508161974457bd4a7a98547a0ee05d721105aefa63a3b6d6f81dc40b66929b
  .ofTable [([1], message1), ([2], message2), (wordOf 7 ++ wordOf 8, keys.take 32), (wordOf 6, keys.drop 32),
    (message1 ++ keys, word 0xee110f12384cccb2b2318e138f7bbb42da8377ac1f18ecd73352e28ec6e63d1c),
    (message2 ++ keys, word 0xde7c55885c5eaf660acd236db77a3ccd3fd022dda0e106338ef25189143db2c3)]

/-- The other participant sends a commitment and the precommitment that belongs to it. -/
def signRequest (message commitment : Bytes) : Request where
  first_arg := .object []
    [(key "message", .bytes (some message)), (key "pre_commitment", .bytes (some (wordOf 0 ++ commitment_hash commitment))),
      (key "commitment", .bytes (some (wordOf 0 ++ commitment)))]

/-- A request with a precommitment that is too short. -/
def shortRequest (message : Bytes) : Request where
  first_arg := .object [] [(key "message", .bytes (some message)), (key "pre_commitment", .bytes (some (wordOf 9)))]

theorem nonces_of_two_messages :
    NonceOnce (sign_all hashOfTwo firstOfTwo [signRequest [1] (wordOf 10), signRequest [2] (wordOf 11)]
        ({} : Sessions checking)).shares ∧
      (sign_all hashOfTwo firstOfTwo [signRequest [1] (wordOf 10), signRequest [2] (wordOf 11)]
        ({} : Sessions checking)).shares.length = 2 :=
  ⟨nonces_of_fresh _ _ _ (by decide +kernel), by decide +kernel⟩

/-- A precommitment that is too short frees the session, and the next request for the message signs other commitments
with the same nonce. -/
theorem nonce_used_twice :
    ¬ NonceOnce (sign_all hashOfTwo firstOfTwo
        [signRequest [1] (wordOf 10), shortRequest [1], signRequest [1] (wordOf 11)] ({} : Sessions checking)).shares := by
  decide +kernel

end In3.Zksync
