import In3.Core.Json
/-!
# Requests and the requests they need (`core/client/request.c`, `execute.c`)

A request keeps the requests it needs in a list, the newest one first: each of them points to the
next older one, so that the state of a request depends on all the older ones.
-/
open Lib

namespace In3.Client

inductive in3_req_state_t where
  | REQ_SUCCESS
  | REQ_WAITING_TO_SEND
  | REQ_WAITING_FOR_RESPONSE
  | REQ_ERROR
  deriving DecidableEq, Repr

/-- `in3_req_state` of the first request of the list; `own` is the state that its responses give it. -/
def in3_req_state {ρ : Type} (error : ρ → Bool) (own : ρ → in3_req_state_t) : List ρ → in3_req_state_t
  | [] => .REQ_SUCCESS
  | req :: required =>
    let required_state := in3_req_state error own required
    if required_state = .REQ_ERROR ∨ error req then .REQ_ERROR
    else if required_state ≠ .REQ_SUCCESS then required_state
    else own req

def parses (js : Bytes) : Bool :=
  match (parse_json js).run with
  | .ok (.ok _) => true
  | _ => false

end In3.Client
