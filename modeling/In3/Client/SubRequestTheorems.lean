import In3.Client.SubRequest
/-!
# Whose answer a sub request gives

A call takes the newest sub request of its method whose parameters, up to the bracket at which `find_end`
stops, are the beginning of its own. The `in3` section is not compared, an empty list is the beginning of
every list, and `find_end` also counts the brackets in strings. So a call can get the answer to another
one, and it gets its own if and only if the sub request it takes is of a call with the same arguments.
-/
open Lib List Run

namespace In3.Client

/-- The method, the parameters and the `in3` section are those of the call. -/
def Source.Same : Source → SubCall → Prop
  | .call a, b => a.method = b.method ∧ a.params = b.params ∧ a.in3 = b.in3
  | .other _, _ => False

instance : (a : Source) → (b : SubCall) → Decidable (a.Same b)
  | .call a, b => inferInstanceAs (Decidable (a.method = b.method ∧ a.params = b.params ∧ a.in3 = b.in3))
  | .other _, _ => isFalse id

section
variable {parse : Bytes → Option Request}

/-! ## The sub request that is taken -/

/-- The texts of the requests are the same, or the method is and the parameters of the earlier request begin those of this
one, as far as they are compared. -/
def Hits (parse : Bytes → Option Request) (d : Source) (call : SubCall) : Prop :=
  (call.use_cache ∧ d.use_cache ∧ d.text = call.text) ∨
    ∃ r text, parse d.text = some r ∧ r.method = some call.method ∧ r.params = some (some text) ∧ text ≠ [] ∧
      strncmp call.params text.tail (inner_len text)

variable {c : SubReq} {call : SubCall} {d : Source} {older required : List SubReq}

/-- The request that the call takes, if it succeeded with a result, is of a call with the same arguments. -/
def Sent.Clear (parse : Bytes → Option Request) (m : Sent) : Prop :=
  ∀ newer c older, m.required = newer ++ c :: older → (∀ x ∈ newer, Run.ok (is_same parse x.source m.call) false) →
    Hits parse c.source m.call → sub_state (c :: older) = .REQ_SUCCESS → c.status.sign = false → c.status.result.isSome →
    c.source.Same m.call

end

end In3.Client
