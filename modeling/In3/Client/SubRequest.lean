import In3.Client.Request
import In3.Core.JsonTree
/-!
# Sub requests (`req_send_sub_request_internal` of `core/client/request.c`)

A request sends sub requests and is run again when they are answered: then every call of
`req_send_sub_request` looks for its sub request among those that were created before, and only creates
a new one if there is none. It compares the whole text of the request for `eth_sendTransaction` and for
`req_send_id_sub_request`, and in any case the method and the beginning of the parameters.

The list that is searched also has the requests that the sub requests send themselves: `req_add_required` links
a new request in front of those of its sender, and the list of a sub request is the rest of the list it is in.

The parser of the requests is a parameter, and so is what `in3_req_execute` makes of a sub request. The buffer for
the whole text is 6 bytes too short, or 3 with an `in3` section; here the text is what was written.
-/
open Lib

namespace In3.Client

/-- The arguments of a call; `id` is set for `req_send_id_sub_request`. -/
structure SubCall where
  method : Bytes
  params : Bytes
  in3 : Option Bytes
  id : Bool
  deriving DecidableEq, Repr

def SubCall.text (call : SubCall) : Bytes :=
  ascii "\x7b\"method\":\"" ++ call.method ++ ascii "\",\"params\":[" ++ call.params ++ ascii "]" ++
    (match call.in3 with
      | some in3 => ascii ",\"in3\":" ++ in3
      | none => []) ++ ascii "\x7d"

def SubCall.use_cache (call : SubCall) : Bool := call.id || call.method = ascii "eth_sendTransaction"

/-- Where a request of the list comes from: a call of one of the two functions, or another text. -/
inductive Source where
  | call (call : SubCall)
  | other (text : Bytes)
  deriving DecidableEq, Repr

def Source.text : Source → Bytes
  | .call c => c.text
  | .other text => text

def Source.use_cache : Source → Bool
  | .call c => c.use_cache
  | .other _ => false

/-- What is read from the first request of a text: its method, and the text that the token of its parameters points to. -/
structure Request where
  method : Option Bytes
  params : Option (Option Bytes)
  deriving DecidableEq, Repr

/-- The loop of `find_end` with the level that was reached: the number of characters up to the end. -/
def find_end_from : Int → Bytes → Nat
  | _, [] => 0
  | l, x :: rest =>
    let l := if x = 123 ∨ x = 91 then l + 1 else if x = 125 ∨ x = 93 then l - 1 else l
    if l = 0 then 1 else 1 + find_end_from l rest

def find_end (str : Bytes) : Nat := find_end_from 0 str

/-- `strncmp(a, b, n) == 0`. -/
def strncmp (a b : Bytes) (n : Nat) : Bool := a.take n = b.take n

/-- `p.len - 2` is a `size_t`. -/
def inner_len (text : Bytes) : Nat := (find_end text + 2 ^ 64 - 2) % 2 ^ 64

section
variable (parse : Bytes → Option Request)

/-- One round of the loop: whether the request from `d` is taken for this call. A request that was not
accepted has no `requests`, and a text without a method or with a parameter that has no text is read at `NULL`. -/
def is_same (d : Source) (call : SubCall) : Run Int Bool :=
  if call.use_cache ∧ d.use_cache ∧ d.text = call.text then return true
  else
    match parse d.text with
    | none => Run.undefined
    | some r =>
      match r.method with
      | none => Run.undefined
      | some method =>
        if method ≠ call.method then return false
        else
          match r.params with
          | none => return false
          | some none => Run.undefined
          | some (some text) => if text = [] then Run.undefined else return strncmp call.params text.tail (inner_len text)

/-! ## Sub requests -/

/-- What the execution and the responses make of a sub request; `sign` is the type `RT_SIGN`, which waits on its own. -/
structure Status where
  error : Bool := false
  verification_state : Int := IN3_WAITING
  raw_response : Bool := false
  response_context : Bool := false
  result : Option Bytes := none
  sign : Bool := false
  sign_waiting : Bool := false
  deriving DecidableEq, Repr

structure SubReq where
  source : Source
  status : Status
  deriving DecidableEq, Repr

def SubReq.own_state (c : SubReq) : in3_req_state_t :=
  if ¬ c.status.raw_response then .REQ_WAITING_TO_SEND
  else if if c.status.sign then c.status.sign_waiting else ¬ c.status.response_context then .REQ_WAITING_FOR_RESPONSE
  else .REQ_SUCCESS

/-- `in3_req_state` of a sub request with the older ones behind it. -/
def sub_state (cs : List SubReq) : in3_req_state_t := in3_req_state (·.status.error) SubReq.own_state cs

/-- The loop: the first sub request that is taken for the call, with the older ones behind it. -/
def find_sub_request (call : SubCall) : List SubReq → Run Int (List SubReq)
  | [] => return []
  | c :: required => do
    if ← is_same parse c.source call then return c :: required else find_sub_request call required

def with_statuses (required : List SubReq) (statuses : List Status) : List SubReq :=
  List.zipWith (fun c s => { c with status := s }) required statuses ++ required.drop statuses.length

def found_result (c : SubReq) (required : List SubReq) : Run Int (SubReq × Option Bytes) :=
  match sub_state (c :: required) with
  | .REQ_ERROR => throw (if c.status.verification_state ≠ IN3_OK then c.status.verification_state else IN3_ERPC)
  | .REQ_SUCCESS =>
    -- a signature has no `responses`
    if c.status.sign then Run.undefined
    else match c.status.result with
    | some result => return (c, some result)
    | none => throw IN3_ERPC
  | .REQ_WAITING_TO_SEND | .REQ_WAITING_FOR_RESPONSE => throw IN3_WAITING

/-- The result of a new sub request, if `in3_req_execute` returns `ret`. -/
def new_result (c : SubReq) (ret : Int) : Run Int (SubReq × Option Bytes) :=
  if ret ≠ IN3_OK then throw ret
  else if c.status.response_context ∧ c.status.result = none then throw IN3_ERPC
  else return (c, c.status.result)

/-- `req_send_sub_request_internal`: the result and the sub request it is of, and the sub requests behind the call. A new
one is executed with the result `ret`; this may link other requests behind it, and then all have these `statuses`. -/
def req_send_sub_request_internal (call : SubCall) (ret : Int) (linked : List SubReq) (statuses : List Status)
    (required : List SubReq) : Run Int (SubReq × Option Bytes) × List SubReq :=
  match (find_sub_request parse call required).run with
  | some (.ok (c :: older)) => (found_result c older, required)
  | some (.ok []) =>
    match with_statuses (⟨.call call, {}⟩ :: linked ++ required) statuses with
    | c :: older => (new_result c ret, c :: older)
    | [] => (Run.undefined, required)
  | _ => (Run.undefined, required)

/-! ## Runs -/

structure Sent where
  required : List SubReq
  call : SubCall
  ret : Int
  linked : List SubReq
  statuses : List Status
  deriving DecidableEq, Repr

def Sent.outcome (m : Sent) : Run Int (SubReq × Option Bytes) :=
  (req_send_sub_request_internal parse m.call m.ret m.linked m.statuses m.required).1

end

end In3.Client
