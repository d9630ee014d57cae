import In3.Client.Request
import In3.Core.Utils
/-!
# Signatures for a request (`req_require_signature` of `core/client/request.c`)

A signature is asked for with a digest type, a curve, a payload type, a message, an account and
optional data for the user. It comes from the cache of the request, from a plugin, or from a sub request
of the type `RT_SIGN`, which the plugins answer later (`in3_handle_sign`) or the application does.

Each signature carries what its signer was asked for, and each entry of the cache the call that stored
it; no function reads them.
-/
open Lib

namespace In3.Client

inductive d_digest_type_t where
  | SIGN_EC_RAW
  | SIGN_EC_HASH
  | SIGN_EC_PREFIX
  | SIGN_EC_BTC
  deriving DecidableEq, Repr

inductive d_curve_type_t where
  | SIGN_CURVE_ECDSA
  | SIGN_CURVE_ED25519
  deriving DecidableEq, Repr

def d_curve_type_t.code : d_curve_type_t → Nat
  | .SIGN_CURVE_ECDSA => 1
  | .SIGN_CURVE_ED25519 => 2

inductive d_payload_type_t where
  | PL_SIGN_ANY
  | PL_SIGN_ETHTX
  | PL_SIGN_BTCTX
  | PL_SIGN_SAFETX
  deriving DecidableEq, Repr

def d_payload_type_t.code : d_payload_type_t → Nat
  | .PL_SIGN_ANY => 0
  | .PL_SIGN_ETHTX => 1
  | .PL_SIGN_BTCTX => 2
  | .PL_SIGN_SAFETX => 3

/-- What a signer is asked for. -/
structure Job where
  digest_type : d_digest_type_t
  curve_type : d_curve_type_t
  message : Bytes
  account : Bytes
  deriving DecidableEq, Repr

/-- The arguments of a call; `user_data` is the text that `sb_add_json` writes for the argument `meta`. -/
structure SignCall extends Job where
  pl_type : d_payload_type_t
  user_data : Option Bytes
  deriving DecidableEq, Repr

structure Signature where
  data : Bytes
  job : Job
  deriving DecidableEq, Repr

structure cache_entry_t where
  key : Bytes
  value : Signature
  call : SignCall
  deriving DecidableEq, Repr

/-- A response to a sub request: of `in3_handle_sign`, or of the application. -/
structure in3_response_t where
  state : Int
  data : Bytes
  internal : Bool
  deriving DecidableEq, Repr

/-- A sub request of the type `RT_SIGN`, with the call it was made for; without `requests` its text was not accepted. -/
structure SignReq where
  call : SignCall
  requests : Bool
  error : Bool
  verification_state : Int
  raw_response : Option in3_response_t
  deriving DecidableEq, Repr

structure SignCtx where
  cache : List cache_entry_t := []
  required : List SignReq := []
  deriving DecidableEq, Repr

/-! ## The cache -/

/-- `cache_key`: the message and the account behind it. -/
def cache_key (call : SignCall) : Bytes := call.message ++ call.account

def in3_cache_get_entry (cache : List cache_entry_t) (key : Bytes) : Option cache_entry_t := cache.find? (·.key = key)

def in3_cache_add_entry (cache : List cache_entry_t) (call : SignCall) (value : Signature) : List cache_entry_t :=
  ⟨cache_key call, value, call⟩ :: cache

/-! ## Sub requests -/

def method_for_sigtype : d_digest_type_t → Bytes
  | .SIGN_EC_RAW => ascii "sign_ec_raw"
  | .SIGN_EC_HASH => ascii "sign_ec_hash"
  | .SIGN_EC_PREFIX => ascii "sign_ec_prefix"
  | .SIGN_EC_BTC => ascii "sign_ec_btc"

def sb_add_bytes (b : Bytes) : Bytes := ascii "\"0x" ++ bytes_to_hex b ++ ascii "\""

def sign_params (call : SignCall) : Bytes :=
  ascii "[" ++ sb_add_bytes call.message ++ ascii "," ++ sb_add_bytes call.account ++ ascii "," ++
    decimal_text call.pl_type.code ++ ascii "," ++ decimal_text call.curve_type.code ++
    (match call.user_data with
      | some json => ascii "," ++ json
      | none => []) ++ ascii "]"

/-- Its text. -/
def sign_request (call : SignCall) : Bytes :=
  ascii "\x7b\"method\":\"" ++ method_for_sigtype call.digest_type ++ ascii "\",\"params\":" ++ sign_params call ++
    ascii "\x7d"

/-- The condition of `req_find_required`: the text from the parameters on has these parameters somewhere. -/
def SignReq.answers (c : SignReq) (call : SignCall) : Bool :=
  c.requests && method_for_sigtype c.call.digest_type = method_for_sigtype call.digest_type &&
    (str_find (sign_params call) (sign_params c.call ++ ascii "\x7d")).isSome

/-- `req_find_required`: the request that is found, and the older ones behind it. -/
def req_find_required (call : SignCall) : List SignReq → Option (List SignReq)
  | [] => none
  | c :: required => if c.answers call then some (c :: required) else req_find_required call required

def req_remove_required (call : SignCall) : List SignReq → List SignReq
  | [] => []
  | c :: required => if c.answers call then required else c :: req_remove_required call required

/-- The state of a request of this type. -/
def SignReq.own_state (c : SignReq) : in3_req_state_t :=
  match c.raw_response with
  | none => .REQ_WAITING_TO_SEND
  | some r => if r.state = IN3_WAITING then .REQ_WAITING_FOR_RESPONSE else .REQ_SUCCESS

/-- `req_set_error`, if the request is not only waiting. -/
def SignReq.set_error (c : SignReq) (errnumber : Int) : SignReq :=
  if errnumber = IN3_WAITING then c else { c with error := true, verification_state := errnumber }

/-- `in3_req_execute` of the first request of the list. -/
def in3_req_execute : List SignReq → Int × List SignReq
  | [] => (IN3_OK, [])
  | c :: required =>
    if c.error then
      (if c.verification_state ≠ IN3_OK ∧ c.verification_state ≠ IN3_WAITING then c.verification_state else IN3_EUNKNOWN,
        c :: required)
    else
      let (ret, required) := in3_req_execute required
      if ret ≠ IN3_OK then (ret, c.set_error ret :: required)
      else
        (match c.raw_response with
          | none => IN3_WAITING
          | some r => if r.state = IN3_WAITING then IN3_WAITING else if r.state ≠ IN3_OK then IN3_ERPC else IN3_OK,
        c :: required)

def req_new (call : SignCall) : SignReq :=
  if parses (sign_request call) then ⟨call, true, false, IN3_WAITING, none⟩ else ⟨call, false, true, IN3_EINVAL, none⟩

/-- `init_sign_ctx`: what the plugins are asked for a sub request. The message and the account are read back from its
parameters. -/
def init_sign_ctx (c : SignReq) : Job := ⟨.SIGN_EC_HASH, .SIGN_CURVE_ECDSA, c.call.message, c.call.account⟩

/-- What the signer of the response was asked for: the application is asked with the text of the request. -/
def SignReq.signed (c : SignReq) (r : in3_response_t) : Job := if r.internal then init_sign_ctx c else c.call.toJob

/-! ## The calls -/

inductive Outcome where
  | ok (signature : Signature)
  | ret (code : Int)
  deriving DecidableEq, Repr

/-- A response that is taken: `state == IN3_OK` and more than 64 bytes. -/
def in3_response_t.usable (r : in3_response_t) : Bool := r.state = IN3_OK && 64 < r.data.length

/-- The request for the call has a response that can be used. -/
def served (ctx : SignCtx) (call : SignCall) : Option (SignReq × in3_response_t) :=
  match req_find_required call ctx.required with
  | some (c :: required) =>
    if in3_req_state SignReq.error SignReq.own_state (c :: required) = .REQ_SUCCESS then
      match c.raw_response with
      | some r => if r.usable then some (c, r) else none
      | none => none
    else none
  | _ => none

/-- The code that is returned for a request without such a response. -/
def pending_code (cs : List SignReq) : Int :=
  match in3_req_state SignReq.error SignReq.own_state cs with
  | .REQ_ERROR => IN3_ERPC
  | .REQ_WAITING_FOR_RESPONSE | .REQ_WAITING_TO_SEND => IN3_WAITING
  | .REQ_SUCCESS =>
    match cs.head?.bind (·.raw_response) with
    | some r => if r.state ≠ IN3_OK then r.state else IN3_EINVAL
    | none => IN3_EINVAL

/-- `req_send_sign_request`; the cache was looked up before. -/
def req_send_sign_request (call : SignCall) (ctx : SignCtx) : Outcome × SignCtx :=
  match req_find_required call ctx.required with
  | some cs =>
    match served ctx call with
    | some (c, r) =>
      let signature : Signature := ⟨r.data, c.signed r⟩
      (.ok signature,
        { cache := in3_cache_add_entry ctx.cache call signature, required := req_remove_required call ctx.required })
    | none => (.ret (pending_code cs), ctx)
  | none =>
    let (ret, required) := in3_req_execute (req_new call :: ctx.required)
    (.ret ret, { ctx with required := required })

/-- What the plugins answer: the code, and the signature if one was set. -/
abbrev PluginAnswer := Int × Option Bytes

/-- `req_require_signature`; `plugin` is the answer of the plugins if one is registered. -/
def req_require_signature (plugin : Option PluginAnswer) (call : SignCall) (ctx : SignCtx) : Outcome × SignCtx :=
  match in3_cache_get_entry ctx.cache (cache_key call) with
  | some e => (.ok e.value, ctx)
  | none =>
    match plugin with
    | some (0, some data) =>
      let signature : Signature := ⟨data, call.toJob⟩
      (.ok signature, { ctx with cache := in3_cache_add_entry ctx.cache call signature })
    | some (r, _) => if r ≠ IN3_EIGNORE ∧ r ≠ IN3_OK then (.ret r, ctx) else req_send_sign_request call ctx
    | none => req_send_sign_request call ctx

/-! ## Runs -/

/-- What can happen to the request: a call, an answer to a sub request, and an execution of the sub requests. -/
inductive SignEvent where
  | require (call : SignCall) (plugin : Option PluginAnswer)
  /-- `in3_handle_sign` of the sub request at this place; the plugins may set an error -/
  | handle (i : Nat) (plugin : Int) (signature : Bytes) (error : Bool)
  /-- the application gives a response to the sub request -/
  | respond (i : Nat) (state : Int) (data : Bytes)
  | execute
  deriving DecidableEq, Repr

def in3_handle_sign (plugin : Int) (signature : Bytes) (error : Bool) (c : SignReq) : SignReq :=
  let data := if plugin = IN3_OK then signature else []
  { c with raw_response := some ⟨IN3_OK, data, true⟩, error := c.error || error }

def SignCtx.step (ctx : SignCtx) : SignEvent → SignCtx
  | .require call plugin => (req_require_signature plugin call ctx).2
  | .handle i plugin signature error =>
    { ctx with required := ctx.required.modify i (in3_handle_sign plugin signature error) }
  | .respond i state data =>
    { ctx with required := ctx.required.modify i fun c => { c with raw_response := some ⟨state, data, false⟩ } }
  | .execute => { ctx with required := (in3_req_execute ctx.required).2 }

/-- A call of a run, with the request in front of it. -/
structure Made where
  ctx : SignCtx
  call : SignCall
  plugin : Option PluginAnswer
  deriving DecidableEq, Repr

def Made.outcome (m : Made) : Outcome := (req_require_signature m.plugin m.call m.ctx).1

def calls (ctx : SignCtx) : List SignEvent → List Made
  | [] => []
  | e :: events =>
    match e with
    | .require call plugin => ⟨ctx, call, plugin⟩ :: calls (ctx.step e) events
    | _ => calls (ctx.step e) events

end In3.Client
