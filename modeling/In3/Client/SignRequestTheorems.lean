import In3.Client.SignRequest
/-!
# Which signatures a call gets

The key of the cache is the message with the account behind it. It tells neither the digest type nor the
curve, and not where the message ends. So a call gets the signature of an earlier call with the same key.
A sub request is found by its digest type and by a text that has the parameters of the call somewhere in it,
and the plugins are asked for it with `SIGN_EC_HASH` and `SIGN_CURVE_ECDSA` whatever was asked before.

A call is clear if what it is served from was made for the same. In every run all calls get signatures
that were made for them if and only if all calls are clear.
-/
open Lib

namespace In3.Client

/-- The plugins do not decide the call: there are none, or they set no signature and no error. -/
def asks_on : Option PluginAnswer → Bool
  | none => true
  | some (r, signature) => r = IN3_EIGNORE || r = IN3_OK && signature.isNone

/-- An entry of the cache with the key of the call is of a call for the same; if there is none and the plugins do not
decide, the sub request that has a response for the call was signed for the same. -/
def Made.Clear (m : Made) : Prop :=
  match in3_cache_get_entry m.ctx.cache (cache_key m.call) with
  | some e => e.call.toJob = m.call.toJob
  | none => asks_on m.plugin → ∀ c r, served m.ctx m.call = some (c, r) → c.signed r = m.call.toJob

/-- The call gets a signature that was made for it, or none. -/
def Made.Right (m : Made) : Prop := ∀ s, m.outcome = .ok s → s.job = m.call.toJob

def SignCtx.Sound (ctx : SignCtx) : Prop := ∀ e ∈ ctx.cache, e.value.job = e.call.toJob

theorem send_cases (call : SignCall) (ctx : SignCtx) :
    (∃ c r, served ctx call = some (c, r) ∧ (req_send_sign_request call ctx).1 = .ok ⟨r.data, c.signed r⟩ ∧
      (req_send_sign_request call ctx).2.cache = in3_cache_add_entry ctx.cache call ⟨r.data, c.signed r⟩) ∨
    (served ctx call = none ∧ (∃ code, (req_send_sign_request call ctx).1 = .ret code) ∧
      (req_send_sign_request call ctx).2.cache = ctx.cache) := by
  unfold req_send_sign_request
  rcases hfind : req_find_required call ctx.required with _ | cs
  · have hserved : served ctx call = none := by
      unfold served
      rw [hfind]
    exact .inr ⟨hserved, ⟨_, rfl⟩, rfl⟩
  · rcases hserved : served ctx call with _ | ⟨c, r⟩
    · exact .inr ⟨rfl, ⟨_, rfl⟩, rfl⟩
    · exact .inl ⟨c, r, rfl, rfl, rfl⟩

theorem require_cases (m : Made) :
    (∃ e, in3_cache_get_entry m.ctx.cache (cache_key m.call) = some e ∧ m.outcome = .ok e.value ∧
      (m.ctx.step (.require m.call m.plugin)).cache = m.ctx.cache) ∨
    (in3_cache_get_entry m.ctx.cache (cache_key m.call) = none ∧
      ((∃ s, s.job = m.call.toJob ∧ asks_on m.plugin = false ∧ m.outcome = .ok s ∧
          (m.ctx.step (.require m.call m.plugin)).cache = in3_cache_add_entry m.ctx.cache m.call s) ∨
        (∃ code, asks_on m.plugin = false ∧ m.outcome = .ret code ∧
          (m.ctx.step (.require m.call m.plugin)).cache = m.ctx.cache) ∨
        (asks_on m.plugin = true ∧ req_require_signature m.plugin m.call m.ctx = req_send_sign_request m.call m.ctx))) := by
  obtain ⟨ctx, call, plugin⟩ := m
  unfold Made.outcome SignCtx.step req_require_signature
  dsimp only
  rcases hentry : in3_cache_get_entry ctx.cache (cache_key call) with _ | e
  · refine .inr ⟨rfl, ?_⟩
    dsimp only
    split
    · exact .inl ⟨_, rfl, rfl, rfl, rfl⟩
    · next r signature hnot =>
      by_cases hcode : r ≠ IN3_EIGNORE ∧ r ≠ IN3_OK
      · rw [if_pos hcode]
        exact .inr (.inl ⟨r, by simp [asks_on, hcode.1, hcode.2], rfl, rfl⟩)
      · rw [if_neg hcode]
        rcases signature with _ | data
        · simp only [asks_on, Option.isNone_none, Bool.and_true, Bool.or_eq_true, decide_eq_true_eq]
          tauto
        · -- a signature without an error was taken before
          simp only [asks_on, Option.isNone_some, Bool.and_false, Bool.or_false, decide_eq_true_eq]
          tauto
    · exact .inr (.inr ⟨rfl, rfl⟩)
  · exact .inl ⟨e, rfl, rfl, rfl⟩

theorem sound_add {cache : List cache_entry_t} {call : SignCall} {s : Signature}
    (h : ∀ e ∈ cache, e.value.job = e.call.toJob) (hs : s.job = call.toJob) :
    ∀ e ∈ in3_cache_add_entry cache call s, e.value.job = e.call.toJob := by
  intro e he
  rcases List.mem_cons.1 he with rfl | he
  · exact hs
  · exact h e he

theorem right_iff_clear {m : Made} (h : m.ctx.Sound) :
    (m.Right ↔ m.Clear) ∧ (m.Right → (m.ctx.step (.require m.call m.plugin)).Sound) := by
  unfold Made.Right Made.Clear
  rcases require_cases m with ⟨e, he, hout, hcache⟩ | ⟨hnone, ⟨s, hs, hask, hout, hcache⟩ | ⟨code, hask, hout, hcache⟩ | ⟨hask, hsend⟩⟩
  · -- from the cache
    have hjob : e.value.job = e.call.toJob := h e (List.mem_of_find?_eq_some he)
    rw [he, hout]
    dsimp only
    refine ⟨⟨fun hr => ?_, ?_⟩, fun _ => ?_⟩
    · rw [← hjob]
      exact hr e.value rfl
    · rintro hc _ ⟨rfl⟩
      exact hjob.trans hc
    · unfold SignCtx.Sound
      rw [hcache]
      exact h
  · -- from a plugin
    rw [hnone, hout, hask]
    refine ⟨iff_of_true ?_ (by simp), fun _ => ?_⟩
    · rintro _ ⟨rfl⟩
      exact hs
    · unfold SignCtx.Sound
      rw [hcache]
      exact sound_add h hs
  · rw [hnone, hout, hask]
    refine ⟨iff_of_true (by simp) (by simp), fun _ => ?_⟩
    unfold SignCtx.Sound
    rw [hcache]
    exact h
  · -- from a sub request
    have hstep : (m.ctx.step (.require m.call m.plugin)).cache = (req_send_sign_request m.call m.ctx).2.cache := by
      rw [← hsend]
      rfl
    have hout : m.outcome = (req_send_sign_request m.call m.ctx).1 := congrArg Prod.fst hsend
    unfold SignCtx.Sound
    rw [hnone, hask, hstep, hout]
    rcases send_cases m.call m.ctx with ⟨c, r, hserved, hok, hcache⟩ | ⟨hserved, ⟨code, hret⟩, hcache⟩
    · rw [hserved, hok, hcache]
      refine ⟨⟨fun hr _ => ?_, ?_⟩, fun hr => sound_add h (hr _ rfl)⟩
      · rintro _ _ ⟨rfl⟩
        exact hr _ rfl
      · rintro hc _ ⟨rfl⟩
        exact hc rfl c r rfl
    · rw [hserved, hret, hcache]
      exact ⟨iff_of_true (by simp) (by simp), fun _ => h⟩

theorem calls_right_iff {ctx : SignCtx} {events : List SignEvent} (h : ctx.Sound) :
    (∀ m ∈ calls ctx events, m.Right) ↔ ∀ m ∈ calls ctx events, m.Clear := by
  induction events generalizing ctx with
  | nil => simp [calls]
  | cons e events ih =>
    cases e with
    | require call plugin =>
      obtain ⟨hiff, hsound⟩ := right_iff_clear (m := ⟨ctx, call, plugin⟩) h
      unfold calls
      rw [List.forall_mem_cons, List.forall_mem_cons, ← hiff]
      exact and_congr_right fun hright => ih (hsound hright)
    | handle i plugin signature error =>
      have hsound : (ctx.step (.handle i plugin signature error)).Sound := h
      exact ih hsound
    | respond i state data =>
      have hsound : (ctx.step (.respond i state data)).Sound := h
      exact ih hsound
    | execute =>
      have hsound : (ctx.step .execute).Sound := h
      exact ih hsound

/-- In every run of a request: all calls that get a signature get one that was made for their digest type, curve,
message and account if and only if all calls are clear. -/
theorem signatures_iff (events : List SignEvent) :
    (∀ m ∈ calls {} events, ∀ s, m.outcome = .ok s → s.job = m.call.toJob) ↔ ∀ m ∈ calls {} events, m.Clear :=
  calls_right_iff (by simp [SignCtx.Sound])

/-- Calls with the same key for another digest type, or for another message and account; and a sub request for the raw
message that the plugins answer. -/
theorem signatures_mixed :
    let call (type : d_digest_type_t) (message account : Bytes) : SignCall :=
      ⟨⟨type, .SIGN_CURVE_ECDSA, message, account⟩, .PL_SIGN_ANY, none⟩
    let signed : Option PluginAnswer := some (IN3_OK, some (List.replicate 65 7))
    ∀ events ∈ [
      [.require (call .SIGN_EC_HASH [1, 2] [3]) signed, .require (call .SIGN_EC_RAW [1, 2] [3]) signed],
      [.require (call .SIGN_EC_HASH [1, 2] [3]) signed, .require (call .SIGN_EC_HASH [1] [2, 3]) signed],
      [.require (call .SIGN_EC_RAW [1, 2] [3]) none, .handle 0 IN3_OK (List.replicate 65 7) false,
        .require (call .SIGN_EC_RAW [1, 2] [3]) none]],
      ∃ m ∈ calls {} events, ∃ s, m.outcome = .ok s ∧ s.job ≠ m.call.toJob := by
  intro call signed events hevents
  let made : Job := ⟨.SIGN_EC_HASH, .SIGN_CURVE_ECDSA, [1, 2], [3]⟩
  suffices h : ∃ m ∈ calls {} events, m.outcome = .ok ⟨List.replicate 65 7, made⟩ ∧ made ≠ m.call.toJob by
    obtain ⟨m, hm, hout, hne⟩ := h
    exact ⟨m, hm, _, hout, hne⟩
  simp only [List.mem_cons, List.not_mem_nil, or_false] at hevents
  rcases hevents with rfl | rfl | rfl
  · decide +kernel
  · decide +kernel
  · decide +kernel

end In3.Client
