import In3.Core.Data
import In3.Lib.Hash
import In3.Lib.Machine
/-!
# Combined signatures (`pay/zksync/zk_musig.c`)

The participants of a combined signature exchange precommitments, then commitments and then signature
shares. Each of them keeps what it has in a session. The session is found by the first eight bytes of
the hash of the message, and its nonce comes from a seed, which is a hash of the message, the public keys
and the own key. A session is freed after an error, at the end, and if there are more than twenty.

The signer of a session is an object of a library (`zkcrypto`), whose functions are parameters, and so are
the answers of the other participants. `shares` is a record of the signature shares that were made; no
function reads it.
-/
open Lib

namespace In3.Zksync

def MAX_SESSIONS : Nat := 20

abbrev Words := List Bytes

def memiszero (b : Bytes) : Bool := b.all (· = 0)

/-- Every participant has given its word. -/
def is_complete (data : Words) : Bool := data.all fun w => !memiszero w

/-- The words of a byte string; an incomplete one at the end is left out. -/
def words (b : Bytes) : Words := (List.range (b.length / 32)).map fun i => (b.drop (32 * i)).take 32

structure Library where
  Signer : Type
  new : Bytes → Nat → Signer
  compute_precommitment : Signer → Bytes → Except Int (Signer × Bytes)
  receive_precommitment : Signer → Words → Except Int (Signer × Bytes)
  receive_commitment : Signer → Words → Except Int Signer
  sign : Signer → Bytes → Bytes → Except Int (Signer × Bytes)
  compute_aggregated_pubkey : Bytes → Except Int Bytes
  receive_signature_shares : Signer → Words → Except Int Bytes

structure zk_musig_session_t (lib : Library) where
  id : Bytes
  seed : Bytes
  pub_keys : Bytes
  pos : Nat
  precommitments : Words
  commitments : Words
  signature_shares : Words
  signer : lib.Signer

/-- A signature share that was made: with the nonce of this seed, for this message and these commitments. -/
structure Share where
  seed : Bytes
  message : Bytes
  commitments : Words
  deriving DecidableEq, Repr

/-- `zksync_config_t`, with the key that belongs to `sync_key`, and where there is an url. -/
structure zksync_config_t where
  sync_key : Bytes
  pub_key : Except Int Bytes
  musig_pub_keys : Option Bytes
  musig_urls : Nat → Bool

/-- A request, and what the calls that are made for it give: the sync key, the proof, and the answers of the other
participants. -/
structure Request where
  rpc : Bool := false
  first_arg : Tok
  get_sync_key : Except Int Unit := .ok ()
  proof : Except Int Unit := .ok ()
  answers : List (Except Int Tok) := []

/-- The state of a request: its session, the record, and the answers that are left. -/
structure Round (lib : Library) where
  session : zk_musig_session_t lib
  shares : List Share
  answers : List (Except Int Tok)

section
variable {lib : Library}

/-- What a request does to its session; an error ends it. -/
abbrev SessionRun (lib : Library) (α : Type) := Machine (Round lib) Empty Int α

def getSession : SessionRun lib (zk_musig_session_t lib) := do
  let round ← get
  return round.session

def modifySession (f : zk_musig_session_t lib → zk_musig_session_t lib) : SessionRun lib Unit :=
  modify fun round => { round with session := f round.session }

/-- The loop of `update_session` for one vector: a word that is missing is taken, except the own one. -/
def merged (pos : Nat) (old new : Words) : Words :=
  old.mapIdx fun i w => if i ≠ pos ∧ memiszero w ∧ ¬ memiszero (new.getD i []) then new.getD i [] else w

/-- A vector that may be in the data. -/
def vector_of (len : Nat) (d : Option Bytes) : Except Int (Option Words) :=
  match d with
  | none => .ok none
  | some d => if d.length ≠ len * 32 then .error IN3_EINVAL else .ok (some (words d))

def merge_commitments (w : Option Words) : SessionRun lib Unit :=
  match w with
  | some w => modifySession fun s => { s with commitments := merged s.pos s.commitments w }
  | none => return ()

def merge_shares (w : Option Words) : SessionRun lib Unit :=
  match w with
  | some w => modifySession fun s => { s with signature_shares := merged s.pos s.signature_shares w }
  | none => return ()

def update_session (data : Tok) : SessionRun lib Unit := do
  let s ← getSession
  let len := s.pub_keys.length / 32
  match d_bytes (data.prop (key "pre_commitment")) with
  | some d =>
    if d_type data ≠ .T_OBJECT ∨ d.length ≠ len * 32 then throw IN3_EINVAL
    else
      modifySession fun s => { s with precommitments := merged s.pos s.precommitments (words d) }
      merge_commitments (← Machine.ofExcept (vector_of len (d_bytes (data.prop (key "commitment")))))
      merge_shares (← Machine.ofExcept (vector_of len (d_bytes (data.prop (key "sig")))))
  | none => throw IN3_EINVAL

/-- `request_message`: another participant is asked, and its answer is taken into the session. -/
def request_message : SessionRun lib Unit := do
  let round ← get
  match round.answers with
  | [] => throw IN3_WAITING
  | answer :: answers =>
    set { round with answers := answers }
    let data ← Machine.ofExcept answer
    update_session data

def request_words (conf : zksync_config_t) (vector : zk_musig_session_t lib → Words) : List Nat → SessionRun lib Unit
  | [] => return ()
  | i :: rest => do
    let s ← getSession
    if s.pos ≠ i ∧ memiszero ((vector s).getD i []) ∧ conf.musig_urls i then
      request_message
      let s ← getSession
      if memiszero ((vector s).getD i []) then throw IN3_EINVAL else request_words conf vector rest
    else request_words conf vector rest

/-- `zkcrypto_signer_receive_precommitment`, if the precommitments were not complete before. -/
def receive_precommitments (pre_commit_complete : Bool) : SessionRun lib Unit := do
  let s ← getSession
  if ¬ pre_commit_complete ∧ is_complete s.precommitments then
    let (signer, commitment) ← Machine.ofExcept (lib.receive_precommitment s.signer s.precommitments)
    modifySession fun s => { s with signer := signer, commitments := s.commitments.set s.pos commitment }
  else return ()

/-- `zkcrypto_signer_receive_commitment` and `zkcrypto_signer_sign`, if the commitments were not complete before. -/
def sign_share (conf : zksync_config_t) (message : Bytes) (commit_complete : Bool) : SessionRun lib Unit := do
  let s ← getSession
  if ¬ commit_complete ∧ is_complete s.commitments then
    let signer ← Machine.ofExcept (lib.receive_commitment s.signer s.commitments)
    let (signer, share) ← Machine.ofExcept (lib.sign signer conf.sync_key message)
    modify fun round =>
      { round with
        session := { s with signer := signer, signature_shares := s.signature_shares.set s.pos share }
        shares := round.shares ++ [⟨s.seed, message, s.commitments⟩] }
  else return ()

/-- The end of a request: whether the signature is complete, so that the session is over. -/
def aggregate (is_object : Bool) : SessionRun lib Bool := do
  let s ← getSession
  if is_complete s.signature_shares ∧ ¬ is_object then
    let _ ← Machine.ofExcept (lib.compute_aggregated_pubkey s.pub_keys)
    let _ ← Machine.ofExcept (lib.receive_signature_shares s.signer s.signature_shares)
    return true
  else return false

/-- The data of the request itself. -/
def update_from (req : Request) : SessionRun lib Unit :=
  if d_type req.first_arg = .T_OBJECT then update_session req.first_arg else return ()

/-- `zksync_musig_sign` behind the creation of the session. -/
def advance (conf : zksync_config_t) (req : Request) (message : Bytes) : SessionRun lib Bool := do
  let is_object := d_type req.first_arg = .T_OBJECT
  let s ← getSession
  let places := List.range (s.pub_keys.length / 32)
  update_from req
  request_words conf (·.precommitments) places
  receive_precommitments (is_complete s.precommitments)
  request_words conf (·.commitments) places
  sign_share conf message (is_complete s.commitments)
  request_words conf (·.signature_shares) places
  aggregate is_object

/-! ## Sessions -/

/-- The open sessions, the newest first, and the record. -/
structure Sessions (lib : Library) where
  sessions : List (zk_musig_session_t lib) := []
  shares : List Share := []

def message_of (req : Request) : Option Bytes :=
  if d_type req.first_arg = .T_OBJECT then d_bytes (req.first_arg.prop (key "message"))
  else some ((d_bytes req.first_arg).getD [])

def session_id (keccak : Hash) (message : Bytes) : Bytes := (keccak.fn message).take 8

def seed_of (keccak : Hash) (conf : zksync_config_t) (message pub_keys : Bytes) : Bytes :=
  keccak.fn (keccak.fn message ++ keccak.fn pub_keys ++ keccak.fn conf.sync_key)

def get_pubkey_pos (conf : zksync_config_t) (pub_keys : Bytes) : Except Int Nat := do
  if memiszero conf.sync_key then throw IN3_EINVAL
  let pub_key ← conf.pub_key
  match (words pub_keys).findIdx? (· = pub_key) with
  | some pos => return pos
  | none => throw (-1)

def pub_keys_of (conf : zksync_config_t) (req : Request) : Option Bytes :=
  (if d_type req.first_arg = .T_OBJECT then d_bytes (req.first_arg.prop (key "pub_keys")) else none).or conf.musig_pub_keys

/-- In client mode there is an url for everybody else. -/
def has_urls (conf : zksync_config_t) (req : Request) (pub_keys : Bytes) (pos : Nat) : Bool :=
  d_type req.first_arg = .T_OBJECT ||
    (List.range ((pub_keys.length + 31) / 32)).all fun i => i = pos || conf.musig_urls i

def new_session (lib : Library) (keccak : Hash) (conf : zksync_config_t) (req : Request) (message : Bytes) :
    Except Int (zk_musig_session_t lib) := do
  req.get_sync_key
  match pub_keys_of conf req with
  | none => throw IN3_EINVAL
  | some pub_keys =>
    let pos ← get_pubkey_pos conf pub_keys
    if ¬ has_urls conf req pub_keys pos then throw IN3_ECONFIG
    req.proof
    let zeros := List.replicate (pub_keys.length / 32) (List.replicate 32 0)
    return {
      id := session_id keccak message
      seed := seed_of keccak conf message pub_keys
      pub_keys := pub_keys
      pos := pos
      precommitments := zeros
      commitments := zeros
      signature_shares := zeros
      signer := lib.new pub_keys pos }

def precommit : SessionRun lib Unit := do
  let s ← getSession
  let (signer, precommitment) ← Machine.ofExcept (lib.compute_precommitment s.signer s.seed)
  modifySession fun s => { s with signer := signer, precommitments := s.precommitments.set s.pos precommitment }

def check_max_sessions (sessions : List (zk_musig_session_t lib)) : List (zk_musig_session_t lib) :=
  sessions.eraseIdx MAX_SESSIONS

/-- `TRY_SIG` and the end of a request for the session at the place `i`: it is freed after an error, unless the request
only has to wait, and at the end of the signature. -/
def settle (st : Sessions lib) (i : Nat) (x : SessionRun lib Bool) (answers : List (Except Int Tok)) : Sessions lib :=
  match st.sessions[i]? with
  | none => st
  | some s =>
    match x.run.run ⟨s, st.shares, answers⟩ with
    | .error e => nomatch e
    | .ok (.error code, round) =>
      if code = IN3_WAITING then ⟨st.sessions.set i round.session, round.shares⟩ else ⟨st.sessions.eraseIdx i, round.shares⟩
    | .ok (.ok finished, round) =>
      if finished then ⟨st.sessions.eraseIdx i, round.shares⟩ else ⟨st.sessions.set i round.session, round.shares⟩

/-- `zksync_musig_sign`: the sessions behind the request. -/
def zksync_musig_sign (keccak : Hash) (conf : zksync_config_t) (req : Request) (st : Sessions lib) : Sessions lib :=
  if req.rpc then st
  else
    match message_of req with
    | none => st
    | some message =>
      -- without other participants there is no session
      if d_type req.first_arg ≠ .T_OBJECT ∧ conf.musig_pub_keys = none then st
      else
        match st.sessions.findIdx? (·.id = session_id keccak message) with
        | some i => settle st i (advance conf req message) req.answers
        | none =>
          match new_session lib keccak conf req message with
          | .error _ => st
          | .ok s =>
            settle { st with sessions := s :: check_max_sessions st.sessions } 0
              (do precommit; advance conf req message) req.answers

def sign_all (keccak : Hash) (conf : zksync_config_t) : List Request → Sessions lib → Sessions lib
  | [], st => st
  | req :: reqs, st => sign_all keccak conf reqs (zksync_musig_sign keccak conf req st)

end

end In3.Zksync
