import In3.Core.Json
/-!
# The document that a text spells

`read_value` reads a text as a tree, without the token array. The parser makes the same
reads and stores that tree (`parse_object_eq`): what the array holds follows from the tree,
and where the parser reads follows from `read_value`. As long as the containers have indices
below `2^31`, what is stored is the layout of the tree (`store_eq`).
-/
open Lib

namespace In3

/-! ## Reading a tree -/

def string_tok (raw : Bytes) : Tok :=
  if is_unicode_escape raw then .bytes (some [unicode_byte raw])
  else .string (if escapes raw ≠ 0 then unescape raw else raw) (escapes raw ≠ 0)

def number_tok : Num → Tok
  | .integer value => if value < 2 ^ 28 then .integer value else .bytes (some (optimize_len (long_to_bytes value)))
  | .text s => .string s true

/-- The properties of an object, behind its brace or a comma. -/
def read_members (value : Bytes → JsonRun (Tok × Bytes)) : Nat → Bytes → JsonRun (List (Nat × Tok) × Bytes)
  | 0, _ => Guarded.fault .rounds
  | fuel + 1, c => do
    let (x, c) ← next_char c
    if x = 34 then
      let (key, c) ← parse_key c
      let (t, c) ← value c
      let (x, c) ← next_char c
      if x = 44 then
        let (ps, c) ← read_members value fuel c
        pure ((key, t) :: ps, c)
      else if x = 125 then pure ([(key, t)], c)
      else throw .INVALID_CHAR
    else if x = 125 then pure ([], c)
    else throw .INVALID_CHAR

/-- The elements of an array that is not empty. -/
def read_elements (value : Bytes → JsonRun (Tok × Bytes)) : Nat → Bytes → JsonRun (List Tok × Bytes)
  | 0, _ => Guarded.fault .rounds
  | fuel + 1, c => do
    let (t, c) ← value c
    let (x, c) ← next_char c
    if x = 44 then
      let (ts, c) ← read_elements value fuel c
      pure (t :: ts, c)
    else if x = 93 then pure ([t], c)
    else throw .INVALID_CHAR

def read_keyword (c lit : Bytes) (t : Tok) : JsonRun (Tok × Bytes) := do
  if ← strncmp_eq c lit then pure (t, c.drop lit.length) else throw .INVALID_CHAR

/-- A value, with the depth that is left. -/
def read_value : Nat → Bytes → JsonRun (Tok × Bytes)
  | 0, _ => throw .MAX_DEPTH
  | left + 1, c => do
    let (x, c) ← next_char c
    if x = 0 then throw .END_OF_STRING
    else if x = 123 then
      let (ps, r) ← read_members (read_value left) (c.length + 1) c
      pure (.object (x :: c) ps, r)
    else if x = 91 then
      let (y, r) ← next_char c
      if y = 93 then pure (.array (x :: c) [], r)
      else
        let (ts, r) ← read_elements (read_value left) (r.length + 1) (y :: r)
        pure (.array (x :: c) ts, r)
    else if x = 34 || x = 39 then
      let (raw, c) ← string_scan x c
      pure (string_tok raw, c)
    else if x = 116 then read_keyword c [114, 117, 101] (.boolean true)
    else if x = 102 then read_keyword c [97, 108, 115, 101] (.boolean false)
    else if x = 110 then read_keyword c [117, 108, 108] .null
    else if is_digit x || x = 43 || x = 45 then
      let (num, c) ← parse_number (x :: c)
      pure (number_tok num, c)
    else throw .INVALID_CHAR

def read_json (js : Bytes) : JsonRun (Tok × Bytes) := read_value (DATA_DEPTH_MAX + 1) (c_str js ++ [0])

/-! ## Leaves -/

theorem length_unescape (raw : Bytes) : (unescape raw).length = raw.length - escapes raw := by
  suffices hsum : (unescape raw).length + escapes raw = raw.length by omega
  induction raw using unescape.induct with
  | case1 y r ih =>
    rw [unescape, escapes, List.length_cons, List.length_cons, List.length_cons]
    omega
  | case2 x r h ih =>
    rw [unescape.eq_2 x r h, escapes.eq_2 x r h, List.length_cons, List.length_cons]
    omega
  | case3 => rfl

theorem layout_string_tok (key : Nat) (raw : Bytes) : layout key (string_tok raw) = [string_token key raw] := by
  unfold string_tok string_token
  split
  · simp [layout, leaf_len, d_type_t.code]
  · by_cases h : escapes raw = 0
    · simp [layout, h]
    · simp [layout, h, length_unescape]

theorem layout_number_tok (key : Nat) (num : Num) : layout key (number_tok num) = [number_token key num] := by
  cases num with
  | integer value =>
    by_cases h : value < 2 ^ 28
    · rw [number_tok, number_token, if_pos h, if_pos h, layout]
    · rw [number_tok, number_token, if_neg h, if_neg h]
      rfl
  | text s => rw [number_tok, number_token, layout]

/-! ## The parser stores the tree -/

mutual

/-- The tokens of a tree, added one by one; every child is counted by its parent. -/
def store (parent : Int) (key : Nat) (result : List JsonToken) : Tok → List JsonToken
  | .array text items =>
    store_items (int_of result.length)
      (add_child parent result ++ [⟨node_len .T_ARRAY 0, key, false, some text⟩]) items
  | .object text props =>
    store_props (int_of result.length)
      (add_child parent result ++ [⟨node_len .T_OBJECT 0, key, false, some text⟩]) props
  | .bytes d => add_child parent result ++ layout key (.bytes d)
  | .string s converted => add_child parent result ++ layout key (.string s converted)
  | .boolean v => add_child parent result ++ layout key (.boolean v)
  | .integer v => add_child parent result ++ layout key (.integer v)
  | .null => add_child parent result ++ layout key .null

def store_items (p_index : Int) (result : List JsonToken) : List Tok → List JsonToken
  | [] => result
  | t :: ts => store_items p_index (store p_index (element_key result p_index) result t) ts

def store_props (p_index : Int) (result : List JsonToken) : List (Nat × Tok) → List JsonToken
  | [] => result
  | (k, t) :: ps => store_props p_index (store p_index k result t) ps

end

theorem store_string_tok (parent : Int) (key : Nat) (result : List JsonToken) (raw : Bytes) :
    store parent key result (string_tok raw) = add_child parent result ++ [string_token key raw] := by
  rw [← layout_string_tok, string_tok]
  split <;> rw [store]

theorem store_number_tok (parent : Int) (key : Nat) (result : List JsonToken) (num : Num) :
    store parent key result (number_tok num) = add_child parent result ++ [number_token key num] := by
  rw [← layout_number_tok]
  cases num with
  | integer value =>
    rw [number_tok]
    split <;> rw [store]
  | text s => rw [number_tok, store]

section Loops
variable {value : json_ctx_t → Int → Nat → JsonRun json_ctx_t} {read : Bytes → JsonRun (Tok × Bytes)}
  (hvalue : ∀ jp parent key, value jp parent key = read jp.c >>= fun p => pure ⟨p.2, store parent key jp.result p.1⟩)
include hvalue

theorem parse_members_eq (fuel : Nat) (c : Bytes) (p_index : Int) (result : List JsonToken) :
    parse_members value p_index fuel ⟨c, result⟩ =
      read_members read fuel c >>= fun p => pure ⟨p.2, store_props p_index result p.1⟩ := by
  induction fuel generalizing c result with
  | zero => rfl
  | succ fuel ih =>
    simp only [parse_members, read_members, hvalue, bind_assoc, pure_bind]
    congr 1
    funext ⟨x, c⟩
    by_cases h34 : x = 34
    · simp only [if_pos h34, bind_assoc]
      congr 1
      funext ⟨key, c⟩
      congr 1
      funext ⟨t, c⟩
      congr 1
      funext ⟨x, c⟩
      by_cases h44 : x = 44
      · simp [if_pos h44, ih, store_props]
      rw [if_neg h44, if_neg h44]
      by_cases h125 : x = 125
      · simp [if_pos h125, store_props]
      · simp [if_neg h125]
    rw [if_neg h34, if_neg h34]
    by_cases h125 : x = 125
    · simp [if_pos h125, store_props]
    · simp [if_neg h125]

theorem parse_elements_eq (fuel : Nat) (c : Bytes) (p_index : Int) (result : List JsonToken) :
    parse_elements value p_index fuel ⟨c, result⟩ =
      read_elements read fuel c >>= fun p => pure ⟨p.2, store_items p_index result p.1⟩ := by
  induction fuel generalizing c result with
  | zero => rfl
  | succ fuel ih =>
    simp only [parse_elements, read_elements, hvalue, bind_assoc, pure_bind]
    congr 1
    funext ⟨t, c⟩
    congr 1
    funext ⟨x, c⟩
    by_cases h44 : x = 44
    · simp [if_pos h44, ih, store_items]
    rw [if_neg h44, if_neg h44]
    by_cases h93 : x = 93
    · simp [if_pos h93, store_items]
    · simp [if_neg h93]

end Loops

theorem parse_keyword_eq (c lit : Bytes) (result : List JsonToken) (parent : Int) (key : Nat) (t : Tok)
    (u : JsonToken) (ht : store parent key result t = add_child parent result ++ [u]) :
    parse_keyword ⟨c, result⟩ lit u parent =
      read_keyword c lit t >>= fun p => pure ⟨p.2, store parent key result p.1⟩ := by
  simp only [parse_keyword, read_keyword, bind_assoc]
  congr 1
  funext same
  cases same with
  | true => simp [parsed_next_item, ht]
  | false => rfl

theorem parse_object_eq (left : Nat) (jp : json_ctx_t) (parent : Int) (key : Nat) :
    parse_object left jp parent key = read_value left jp.c >>= fun p => pure ⟨p.2, store parent key jp.result p.1⟩ := by
  induction left generalizing jp parent key with
  | zero => rfl
  | succ left ih =>
    simp only [parse_object, read_value, bind_assoc]
    congr 1
    funext ⟨x, c⟩
    dsimp only
    by_cases h0 : x = 0
    · simp only [if_pos h0, Guarded.throw_bind]
    rw [if_neg h0, if_neg h0]
    by_cases h123 : x = 123
    · simp only [if_pos h123, parsed_next_item, parse_members_eq ih, bind_assoc, pure_bind, store]
    rw [if_neg h123, if_neg h123]
    by_cases h91 : x = 91
    · simp only [if_pos h91, bind_assoc]
      congr 1
      funext ⟨y, r⟩
      dsimp only
      by_cases h93 : y = 93
      · simp only [if_pos h93, parsed_next_item, pure_bind, store, store_items]
      · simp only [if_neg h93, parsed_next_item, parse_elements_eq ih, bind_assoc, pure_bind, store]
    rw [if_neg h91, if_neg h91]
    by_cases hq : (x = 34 || x = 39) = true
    · simp only [if_pos hq, bind_assoc, pure_bind, parsed_next_item, store_string_tok]
    rw [if_neg hq, if_neg hq]
    by_cases h116 : x = 116
    · rw [if_pos h116, if_pos h116]
      exact parse_keyword_eq c _ jp.result parent key _ _ (by rw [store, layout]; rfl)
    rw [if_neg h116, if_neg h116]
    by_cases h102 : x = 102
    · rw [if_pos h102, if_pos h102]
      exact parse_keyword_eq c _ jp.result parent key _ _ (by rw [store, layout]; rfl)
    rw [if_neg h102, if_neg h102]
    by_cases h110 : x = 110
    · rw [if_pos h110, if_pos h110]
      exact parse_keyword_eq c _ jp.result parent key _ _ (by rw [store, layout])
    rw [if_neg h110, if_neg h110]
    by_cases hnum : (is_digit x || x = 43 || x = 45) = true
    · simp only [if_pos hnum, bind_assoc, pure_bind, parsed_next_item, store_number_tok]
    · simp only [if_neg hnum, Guarded.throw_bind]

theorem parse_json_eq (js : Bytes) : parse_json js = read_json js >>= fun p => pure (store (-1) 0 [] p.1) := by
  simp [parse_json, read_json, parse_object_eq]

end In3
