import In3.Core.Utils
import Mathlib.Data.List.Range
import Mathlib.Data.List.Pairwise
/-!
# Polling a filter (`basic/filter.c`)

A poll asks for the block number first and for the logs behind it, and the chain may grow in
between. The logs of a block come together, so a block number stands for them. The request for the logs is a
text: the options of the filter with `fromBlock` set in it, and `answer` says which blocks a node returns for
such a text. It reaches up to the head of the chain, and the next poll goes on behind the block number.
-/

open Lib List

namespace In3

/-- What a poll finds: the block number, the head of the chain when the logs are answered, and
whether all its requests succeed. -/
structure Poll where
  number : Nat
  head : Nat
  number_le : number ≤ head
  ok : Bool

/-- `filter_opt_set_fromBlock`. An existing `fromBlock` is taken for a quoted one: the next string behind
its colon is replaced. Where a character is not found, the C code reads at `NULL`. -/
def filter_opt_set_fromBlock (fopt : Bytes) (fromBlock : Nat) (should_overwrite : Bool) : Option Bytes :=
  match str_find (ascii "\"fromBlock\"") fopt with
  | none => do
    let blockstr := ascii "\"fromBlock\":\"" ++ hex_text fromBlock ++ ascii "\"" ++
      if (str_find (ascii "\"") fopt).isSome then ascii "," else []
    let tok ← str_find (ascii "\x7b") fopt
    -- `fopt - tok + 1` is right only if the text begins with the brace
    let pos := (2 ^ 64 + 1 - (fopt.length - tok.length)) % 2 ^ 64
    str_replace_pos fopt pos 0 blockstr
  | some tok =>
    if should_overwrite then do
      let colon ← str_find (ascii ":") tok.tail
      let tok ← str_find (ascii "\"") colon.tail
      let pos := fopt.length - tok.length + 1
      let tok ← str_find (ascii "\"") tok.tail
      str_replace_pos fopt pos (fopt.length - tok.length - pos) (hex_text fromBlock)
    else some fopt

structure in3_filter_t where
  options : Bytes
  last_block : Nat
  is_first_usage : Bool

/-- The options of the request for the logs. The filter keeps its own ones. -/
def in3_filter_t.request (f : in3_filter_t) : Option Bytes :=
  filter_opt_set_fromBlock f.options f.last_block (!f.is_first_usage)

/-- The filter behind a successful poll. -/
def in3_filter_t.next (f : in3_filter_t) (p : Poll) : in3_filter_t :=
  { f with last_block := p.number + 1, is_first_usage := false }

def returned {σ : Type} (changes : σ → Poll → List Nat × σ) : σ → List Poll → List Nat
  | _, [] => []
  | s, p :: ps => (changes s p).1 ++ returned changes (changes s p).2 ps

/-! ## What is expected -/

/-- While the logs of a poll are answered no block with a log is added, unless no later poll succeeds with
a new block. -/
def Quiet (hasLog : Nat → Bool) : Nat → List Poll → Prop
  | _, [] => True
  | last_block, p :: ps =>
    if p.ok = true ∧ last_block ≤ p.number then
      ((∃ q ∈ ps, q.ok = true ∧ p.number < q.number) → ∀ b, p.number < b → b ≤ p.head → hasLog b = false) ∧
        Quiet hasLog (p.number + 1) ps
    else Quiet hasLog last_block ps

/-- The options without a `fromBlock`, or with a quoted one. -/
inductive FilterOptions where
  | absent (rest : Bytes)
  | quoted (pre mid gap value post : Bytes)

namespace FilterOptions

def text : FilterOptions → Bytes
  | absent rest => ascii "\x7b" ++ rest
  | quoted pre mid gap value post =>
    pre ++ (ascii "\"fromBlock\"" ++ (mid ++ (ascii ":" ++ (gap ++ (ascii "\"" ++ (value ++ (ascii "\"" ++ post)))))))

/-- The same options, from another block on. -/
def since (n : Nat) : FilterOptions → Bytes
  | absent rest =>
    ascii "\x7b" ++ (ascii "\"fromBlock\":\"" ++ hex_text n ++ ascii "\"" ++ (if 34 ∈ rest then ascii "," else []) ++ rest)
  | quoted pre mid gap _ post => (quoted pre mid gap (hex_text n) post).text

/-- No other `fromBlock` stands before this one, and its value is the next string behind its colon. -/
def Plain : FilterOptions → Prop
  | absent rest => ¬ ascii "\"fromBlock\"" <:+: ascii "\x7b" ++ rest
  | quoted pre mid gap value post =>
    (∀ a b, (quoted pre mid gap value post).text = a ++ (ascii "\"fromBlock\"" ++ b) → pre.length ≤ a.length) ∧
      58 ∉ mid ∧ 34 ∉ gap ∧ 34 ∉ value

end FilterOptions

/-- How a node reads the options: with a `fromBlock` in it the text asks for the blocks with a log from there on, and
with the options' own one for all of them since the creation of the filter. -/
structure Answers (answer : Bytes → Nat → Bool) (hasLog : Nat → Bool) (o : FilterOptions) (created : Nat) : Prop where
  plain : o.Plain
  since : ∀ n b, answer (o.since n) b = (decide (n ≤ b) && hasLog b)
  own : ∀ b, created ≤ b → answer o.text b = hasLog b

/-! ## The text of a request -/

section
variable {needle s pre rest : Bytes} {c : UInt8}

theorem str_find_first (hne : needle ≠ [])
    (hfirst : ∀ a b, pre ++ (needle ++ rest) = a ++ (needle ++ b) → pre.length ≤ a.length) :
    str_find needle (pre ++ (needle ++ rest)) = some (needle ++ rest) := by
  induction pre with
  | nil =>
    obtain ⟨x, xs, rfl⟩ := exists_cons_of_ne_nil hne
    simp [str_find]
  | cons x pre ih =>
    have hnot : needle.isPrefixOf (x :: (pre ++ (needle ++ rest))) ≠ true := by
      intro hp
      obtain ⟨b, hb⟩ := isPrefixOf_iff_prefix.1 hp
      have hle := hfirst [] b hb.symm
      simp at hle
    rw [cons_append, str_find, if_neg hnot]
    refine ih fun a b h => ?_
    have hle := hfirst (x :: a) b (congrArg (x :: ·) h)
    simpa using hle

theorem str_find_char (hc : c ∉ pre) (rest : Bytes) : str_find [c] (pre ++ c :: rest) = some (c :: rest) := by
  refine str_find_first (cons_ne_nil c []) fun a b h => ?_
  by_contra hlt
  refine hc ?_
  have hget : (pre ++ ([c] ++ rest))[a.length]? = (a ++ ([c] ++ b))[a.length]? := by rw [h]
  rw [getElem?_append_left (not_le.1 hlt), getElem?_append_right le_rfl, Nat.sub_self] at hget
  exact mem_of_getElem? hget

theorem str_find_none (h : ¬ needle <:+: s) : str_find needle s = none := by
  induction s with
  | nil => rfl
  | cons x s ih =>
    have hnot : needle.isPrefixOf (x :: s) ≠ true := fun hp => h ( isPrefixOf_iff_prefix.1 hp).isInfix
    rw [str_find, if_neg hnot]
    exact ih fun hi => h (infix_cons hi)

theorem str_find_char_isSome (c : UInt8) (s : Bytes) : (str_find [c] s).isSome = decide (c ∈ s) := by
  induction s with
  | nil => rfl
  | cons x s ih =>
    rw [str_find]
    by_cases hx : c = x
    · simp [hx]
    · simp [hx, ih]

theorem str_replace_pos_append (a b c rep : Bytes) :
    str_replace_pos (a ++ (b ++ c)) a.length b.length rep = some (a ++ (rep ++ c)) := by
  have hle : ¬ (a ++ (b ++ c)).length < a.length := by simp
  have hdrop : (a ++ (b ++ c)).drop (a.length + b.length) = c := by
    rw [← append_assoc, ← length_append, drop_left]
  rw [str_replace_pos, if_neg hle, take_left, hdrop, append_assoc]

/-- The string between two quotes is replaced. -/
theorem replace_string (a v post rep : Bytes) :
    str_replace_pos (a ++ 34 :: (v ++ 34 :: post))
      ((a ++ 34 :: (v ++ 34 :: post)).length - (34 :: (v ++ 34 :: post)).length + 1)
      ((a ++ 34 :: (v ++ 34 :: post)).length - (34 :: post).length -
        ((a ++ 34 :: (v ++ 34 :: post)).length - (34 :: (v ++ 34 :: post)).length + 1)) rep =
      some (a ++ 34 :: (rep ++ 34 :: post)) := by
  have hpos : (a ++ 34 :: (v ++ 34 :: post)).length - (34 :: (v ++ 34 :: post)).length + 1 = (a ++ [34]).length := by
    simp
  have hlen : (a ++ 34 :: (v ++ 34 :: post)).length - (34 :: post).length - (a ++ [34]).length = v.length := by
    simp only [length_append, length_cons, length_nil]
    omega
  rw [hpos, hlen]
  have hreplace := str_replace_pos_append (a ++ [34]) v (34 :: post) rep
  simp only [append_assoc] at hreplace
  exact hreplace

end

section
variable {answer : Bytes → Nat → Bool} {hasLog : Nat → Bool} {o : FilterOptions} {created : Nat} {f : in3_filter_t}
  {p : Poll} {ps : List Poll}

theorem set_fromBlock_absent {rest : Bytes} (h : (FilterOptions.absent rest).Plain) (n : Nat) (overwrite : Bool) :
    filter_opt_set_fromBlock (FilterOptions.absent rest).text n overwrite = some ((FilterOptions.absent rest).since n) := by
  have hbrace : str_find (ascii "\x7b") (ascii "\x7b" ++ rest) = some (ascii "\x7b" ++ rest) :=
    str_find_char (show (123 : UInt8) ∉ [] from not_mem_nil) rest
  have hquote : (str_find (ascii "\"") (ascii "\x7b" ++ rest)).isSome = decide (34 ∈ rest) := by
    refine (str_find_char_isSome 34 _).trans (decide_eq_decide.2 ?_)
    exact ⟨fun hm => (mem_cons.1 hm).resolve_left (by decide), mem_cons_of_mem _⟩
  have hreplace := fun rep => str_replace_pos_append (ascii "\x7b") [] rest rep
  rw [FilterOptions.text, filter_opt_set_fromBlock, str_find_none h]
  simp only [hbrace, hquote, decide_eq_true_eq, Option.bind_eq_bind, Option.bind_some, Nat.sub_self]
  exact hreplace _

theorem set_fromBlock_found {fopt key colon first close : Bytes}
    (hkey : str_find (ascii "\"fromBlock\"") fopt = some key)
    (hcolon : str_find (ascii ":") key.tail = some colon) (hfirst : str_find (ascii "\"") colon.tail = some first)
    (hclose : str_find (ascii "\"") first.tail = some close) (n : Nat) :
    filter_opt_set_fromBlock fopt n true =
      str_replace_pos fopt (fopt.length - first.length + 1)
        (fopt.length - close.length - (fopt.length - first.length + 1)) (hex_text n) := by
  simp only [filter_opt_set_fromBlock, hkey, if_true, hcolon, hfirst, hclose, Option.bind_eq_bind, Option.bind_some]

theorem set_fromBlock_quoted {pre mid gap value post : Bytes} (h : (FilterOptions.quoted pre mid gap value post).Plain)
    (n : Nat) :
    filter_opt_set_fromBlock (FilterOptions.quoted pre mid gap value post).text n true =
      some ((FilterOptions.quoted pre mid gap value post).since n) := by
  obtain ⟨hfirst, hmid, hgap, hvalue⟩ := h
  have hno : 58 ∉ ascii "fromBlock\"" ++ mid := fun hm => (mem_append.1 hm).elim (by decide) hmid
  have hcolon := str_find_char hno (gap ++ (ascii "\"" ++ (value ++ (ascii "\"" ++ post))))
  rw [append_assoc] at hcolon
  have hfound := set_fromBlock_found (str_find_first (by decide) hfirst) hcolon
    (str_find_char hgap (value ++ (ascii "\"" ++ post))) (str_find_char hvalue post) n
  have hsplit : ∀ v, (FilterOptions.quoted pre mid gap v post).text =
      (pre ++ ascii "\"fromBlock\"" ++ mid ++ ascii ":" ++ gap) ++ 34 :: (v ++ 34 :: post) := by
    intro v
    simp only [FilterOptions.text, append_assoc]
    rfl
  refine hfound.trans ?_
  change str_replace_pos (FilterOptions.quoted pre mid gap value post).text
    ((FilterOptions.quoted pre mid gap value post).text.length - _ + 1)
    ((FilterOptions.quoted pre mid gap value post).text.length - _ -
      ((FilterOptions.quoted pre mid gap value post).text.length - _ + 1)) _ = _
  rw [hsplit, FilterOptions.since, hsplit]
  exact replace_string _ value post (hex_text n)

theorem set_fromBlock_plain (h : o.Plain) (n : Nat) : filter_opt_set_fromBlock o.text n true = some (o.since n) := by
  cases o with
  | absent rest => exact set_fromBlock_absent h n true
  | quoted pre mid gap value post => exact set_fromBlock_quoted h n

/-- The first time the options keep their own `fromBlock`. -/
theorem set_fromBlock_first (h : o.Plain) (n : Nat) :
    filter_opt_set_fromBlock o.text n false = some (o.since n) ∨ filter_opt_set_fromBlock o.text n false = some o.text := by
  cases o with
  | absent rest => exact .inl (set_fromBlock_absent h n false)
  | quoted pre mid gap value post =>
    have hkey := str_find_first (by decide) h.1
    refine .inr ?_
    rw [FilterOptions.text, filter_opt_set_fromBlock, hkey]
    rfl

/-! ## The polls of an event filter -/

/-- What a filter asks for: from `last_block` on the blocks with a log, and behind the first usage no others. -/
structure in3_filter_t.Asks (f : in3_filter_t) (answer : Bytes → Nat → Bool) (hasLog : Nat → Bool) (fopt : Bytes) : Prop where
  request : f.request = some fopt
  new : ∀ b, f.last_block ≤ b → answer fopt b = hasLog b
  old : f.is_first_usage = false → ∀ b, answer fopt b = true → f.last_block ≤ b

/-- A filter with these options, at a block behind its creation. -/
structure in3_filter_t.At (f : in3_filter_t) (o : FilterOptions) (created : Nat) : Prop where
  options : f.options = o.text
  created : created ≤ f.last_block

theorem asks (ha : Answers answer hasLog o created) (hf : f.At o created) : ∃ fopt, f.Asks answer hasLog fopt := by
  have hsince : ∀ b, f.last_block ≤ b → answer (o.since f.last_block) b = hasLog b := by
    intro b hb
    simp [ha.since, hb]
  have hrequest : f.request = filter_opt_set_fromBlock o.text f.last_block (!f.is_first_usage) := by
    rw [in3_filter_t.request, hf.options]
  cases hfirst : f.is_first_usage with
  | false =>
    refine ⟨o.since f.last_block, ?_, hsince, fun _ b hb => ?_⟩
    · rw [hrequest, hfirst]
      exact set_fromBlock_plain ha.plain f.last_block
    · rw [ha.since, Bool.and_eq_true, decide_eq_true_eq] at hb
      exact hb.1
  | true =>
    rw [hfirst] at hrequest
    rcases set_fromBlock_first ha.plain f.last_block with hfopt | hfopt
    · exact ⟨_, hrequest.trans hfopt, hsince, fun h => absurd (hfirst.symm.trans h) (by decide)⟩
    · exact ⟨_, hrequest.trans hfopt, fun b hb => ha.own b (hf.created.trans hb),
        fun h => absurd (hfirst.symm.trans h) (by decide)⟩

theorem in3_filter_t.At.next (hf : f.At o created) (hlast : f.last_block ≤ p.number) : (f.next p).At o created := by
  refine ⟨hf.options, ?_⟩
  have hcreated := hf.created
  show created ≤ p.number + 1
  omega

section
variable (ha : Answers answer hasLog o created)
include ha

end

/-! ## The polls of a block filter -/

end

end In3
