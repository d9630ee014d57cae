import In3.Core.JsonGrammar
import In3.Core.TokenTree
/-!
# Escaped text (`core/util/stringbuilder.c`)

`sb_add_escaped_chars` writes a text for the inside of a JSON string. Quotes, backslashes and
newlines get a backslash, and a newline becomes the letter `n`; `parse_string` only drops the
backslashes. The length of the output is an `int`, and a longer one has no result (`none`).
-/
open Lib List

namespace In3

def escaped_char (c : UInt8) : Bytes := if c = 34 || c = 92 then [92, c] else if c = 10 then [92, 110] else [c]

def sb_add_escaped_chars (chars : Bytes) : Option Bytes :=
  let out := chars.flatMap escaped_char
  if out.length < 2 ^ 31 then some out else none

/-- `d_string` on a string token of the array. A text that is no copy yet is copied up to its length. -/
def token_string (t : JsonToken) : Option Bytes :=
  if t.type = d_type_t.T_STRING.code then t.data.map fun s => c_str (if t.converted then s else s.take t.size)
  else none

/-- The parser reads the text again from its quoted form. -/
def EscapedBack (s : Bytes) : Prop :=
  ∃ e t, sb_add_escaped_chars s = some e ∧ (parse_json (34 :: e ++ [34])).ok [t] ∧ token_string t = some s

/-! ## One character -/

/-- The characters that get a backslash. -/
def is_escaped (c : UInt8) : Bool := c = 34 || c = 92 || c = 10

/-- What is read for a written character. -/
def char_back (c : UInt8) : UInt8 := if c = 10 then 110 else c

theorem escaped_char_eq (c : UInt8) : escaped_char c = if is_escaped c then [92, char_back c] else [c] := by
  unfold escaped_char is_escaped char_back
  by_cases h34 : c = 34
  · subst h34
    rfl
  · by_cases h92 : c = 92
    · subst h92
      rfl
    · by_cases h10 : c = 10 <;> simp [h10]

variable {c : UInt8} {s : Bytes}

theorem char_back_ne_zero (hc : c ≠ 0) : char_back c ≠ 0 := by
  unfold char_back
  split
  · decide
  · exact hc

theorem map_char_back_iff (s : Bytes) : s.map char_back = s ↔ 10 ∉ s := by
  have hid : s.map char_back = s ↔ ∀ c ∈ s, char_back c = id c := by
    rw [← map_inj_left, map_id]
  rw [hid]
  constructor
  · intro h h10
    exact absurd (h 10 h10) (by decide)
  · intro h c hc
    have hne : c ≠ 10 := fun e => h (e ▸ hc)
    exact if_neg hne

theorem is_escaped_mem_iff (h : 10 ∉ s) : s.countP is_escaped ≠ 0 ↔ 34 ∈ s ∨ 92 ∈ s := by
  rw [ne_eq, countP_eq_zero]
  push Not
  constructor
  · rintro ⟨c, hc, he⟩
    simp only [is_escaped, Bool.or_eq_true, decide_eq_true_eq] at he
    rcases he with (rfl | rfl) | rfl
    · exact .inl hc
    · exact .inr hc
    · exact absurd hc h
  · rintro (hc | hc)
    · exact ⟨34, hc, rfl⟩
    · exact ⟨92, hc, rfl⟩

/-! ## The whole text -/

theorem escaped_chars (h : 0 ∉ s) : Grammar.Chars 34 (s.flatMap escaped_char) := by
  induction s with
  | nil => exact .nil
  | cons c s ih =>
    obtain ⟨h0, hs⟩ := not_or.1 (mem_cons.not.1 h)
    rw [flatMap_cons, escaped_char_eq]
    by_cases hc : is_escaped c = true
    · rw [if_pos hc]
      exact .escaped (ih hs)
    · rw [if_neg hc]
      simp only [is_escaped, Bool.or_eq_true, decide_eq_true_eq, not_or] at hc
      exact .plain (Ne.symm h0) hc.1.1 hc.1.2 (ih hs)

theorem unescape_plain (hc : c ≠ 92) (s : Bytes) : unescape (c :: s) = c :: unescape s := by
  rw [unescape.eq_def]
  split <;> simp_all

theorem escapes_plain (hc : c ≠ 92) (s : Bytes) : escapes (c :: s) = escapes s := by
  rw [escapes.eq_def]
  split <;> simp_all

theorem ne_of_not_escaped (hc : ¬ is_escaped c = true) : c ≠ 92 ∧ c ≠ 10 := by
  constructor <;> (rintro rfl; exact hc rfl)

theorem unescape_escaped (s : Bytes) : unescape (s.flatMap escaped_char) = s.map char_back := by
  induction s with
  | nil => rfl
  | cons c s ih =>
    rw [flatMap_cons, escaped_char_eq, map_cons, ← ih]
    by_cases hc : is_escaped c = true
    · rw [if_pos hc]
      rfl
    · obtain ⟨h92, h10⟩ := ne_of_not_escaped hc
      rw [if_neg hc, singleton_append, unescape_plain h92, char_back, if_neg h10]

theorem escapes_escaped (s : Bytes) : escapes (s.flatMap escaped_char) = s.countP is_escaped := by
  induction s with
  | nil => rfl
  | cons c s ih =>
    rw [flatMap_cons, escaped_char_eq, countP_cons, ← ih]
    by_cases hc : is_escaped c = true
    · rw [if_pos hc, if_pos hc]
      rfl
    · rw [if_neg hc, if_neg hc, singleton_append, escapes_plain (ne_of_not_escaped hc).1, add_zero]

theorem length_escaped (s : Bytes) : (s.flatMap escaped_char).length = s.length + s.countP is_escaped := by
  induction s with
  | nil => rfl
  | cons c s ih =>
    rw [flatMap_cons, length_append, ih, escaped_char_eq, countP_cons]
    split <;> simp <;> omega

theorem not_unicode_escaped (s : Bytes) : is_unicode_escape (s.flatMap escaped_char) = false := by
  cases s with
  | nil => rfl
  | cons c s =>
    have hhead : ((c :: s).flatMap escaped_char).take 2 ≠ [92, 117] := by
      rw [flatMap_cons, escaped_char_eq]
      by_cases hc : is_escaped c = true
      · rw [if_pos hc]
        intro h
        have hback : char_back c = 117 := by simpa using h
        simp only [is_escaped, Bool.or_eq_true, decide_eq_true_eq] at hc
        rcases hc with (rfl | rfl) | rfl <;> exact absurd hback (by decide)
      · rw [if_neg hc]
        intro h
        have hfirst : c = 92 := by simpa using congrArg List.head? h
        exact (ne_of_not_escaped hc).1 hfirst
    rw [is_unicode_escape, decide_eq_false hhead, Bool.and_false]

theorem string_token_escaped (s : Bytes) :
    string_token 0 (s.flatMap escaped_char) =
      ⟨leaf_len .T_STRING s.length, 0, s.countP is_escaped ≠ 0, some (s.map char_back)⟩ := by
  unfold string_token
  rw [not_unicode_escaped, length_escaped, escapes_escaped, unescape_escaped, Nat.add_sub_cancel]
  by_cases h : s.countP is_escaped = 0
  · have hplain : ∀ c ∈ s, ¬ is_escaped c = true := by simpa using h
    have hmap : s.map char_back = s := (map_char_back_iff s).2 fun h10 => hplain 10 h10 rfl
    have hsame : s.flatMap escaped_char = s := by
      rw [flatMap_congr fun c hc => (escaped_char_eq c).trans (if_neg (hplain c hc)), flatMap_singleton']
    simp [hmap, hsame]
  · simp [h]

theorem parse_json_quoted {e : Bytes} (h : Grammar.Chars 34 e) (h0 : 0 ∉ e) (hcount : escapes e < 2 ^ 31) :
    (parse_json (34 :: e ++ [34])).ok [string_token 0 e] := by
  have htext : c_str (34 :: e ++ [34]) = 34 :: e ++ [34] := (c_str_eq_iff _).2 (by simp [h0])
  have hnext : (next_char (34 :: e ++ [34] ++ [0])).ok (34, e ++ 34 :: [0]) :=
    next_char_ok_iff.2 (leads_cons.2 (.inr ⟨rfl, rfl, by simp⟩))
  have hscan : (string_scan 34 (e ++ 34 :: [0])).ok (e, [0]) :=
    (string_scan_ok_iff (.inl rfl)).2 ⟨rfl, h, hcount⟩
  have hvalue : (parse_object (DATA_DEPTH_MAX + 1) ⟨34 :: e ++ [34] ++ [0], []⟩ (-1) 0).ok ⟨[0], [string_token 0 e]⟩ :=
    Guarded.ok_bind.2 ⟨_, hnext, Guarded.ok_bind.2 ⟨_, hscan, Guarded.ok_pure.2 rfl⟩⟩
  unfold parse_json
  rw [htext]
  exact Guarded.ok_bind.2 ⟨_, hvalue, Guarded.ok_pure.2 rfl⟩

theorem zero_notMem_escaped (h : 0 ∉ s) : 0 ∉ s.flatMap escaped_char := by
  rw [mem_flatMap]
  rintro ⟨c, hc, h0⟩
  rw [escaped_char_eq] at h0
  have hc0 : c ≠ 0 := fun e => h (e ▸ hc)
  split at h0
  · simp [Ne.symm (char_back_ne_zero hc0)] at h0
  · exact hc0 (mem_singleton.1 h0).symm

/-- A string of the array, read by `d_string`. The upper bits of the length are or-ed into the type. -/
theorem token_string_eq_iff {r : Bytes} {copied : Bool} (hs : s.length < 2 ^ 31) (hr : c_str r = r)
    (hlen : r.length = s.length) :
    token_string ⟨leaf_len .T_STRING s.length, 0, copied, some r⟩ = some s ↔
      r = s ∧ (s.length < 2 ^ 28 ∨ copied = true ∧ s.length < 2 ^ 29) := by
  obtain ⟨htype, hsize⟩ := leaf_len_type .T_STRING s.length
  have hbits : ∀ k < 8, (1 ||| k) % 16 = 1 ↔ k < 2 := by decide
  have hkind : (1 ||| s.length / 2 ^ 28) % 16 = 1 ↔ s.length < 2 ^ 29 := by
    rw [hbits _ (by omega)]
    omega
  simp only [token_string, Token.type, Token.size, htype, hsize, d_type_t.code, hkind]
  by_cases h29 : s.length < 2 ^ 29
  · rw [if_pos h29, Option.map_some, Option.some_inj]
    cases copied with
    | true =>
      rw [if_pos rfl, hr]
      exact ⟨fun h => ⟨h, .inr ⟨rfl, h29⟩⟩, And.left⟩
    | false =>
      rw [if_neg Bool.false_ne_true]
      constructor
      · intro h
        have hle : (c_str (r.take (s.length % 2 ^ 28))).length ≤ _ := (takeWhile_sublist _).length_le
        rw [h, length_take] at hle
        have h28 : s.length < 2 ^ 28 := by omega
        rw [Nat.mod_eq_of_lt h28, ← hlen, take_length, hr] at h
        exact ⟨h, .inl h28⟩
      · rintro ⟨rfl, h28 | ⟨hfalse, _⟩⟩
        · rw [Nat.mod_eq_of_lt h28, take_length, hr]
        · cases hfalse
  · rw [if_neg h29]
    constructor
    · intro h
      cases h
    · rintro ⟨_, h28 | ⟨_, h⟩⟩ <;> omega

/-- A text comes back when it holds no newline and is short enough for the length of a token. A
text with a quote or a backslash is a copy, which ends at its zero byte, and may be twice as long. -/
theorem escaped_text_read_iff (s : Bytes) (h : 0 ∉ s) :
    EscapedBack s ↔ 10 ∉ s ∧ (s.length < 2 ^ 28 ∨ (34 ∈ s ∨ 92 ∈ s) ∧ s.length < 2 ^ 29) := by
  have hcount : s.countP is_escaped ≤ s.length := countP_le_length
  have hback : c_str (s.map char_back) = s.map char_back := by
    rw [c_str_eq_iff, mem_map]
    rintro ⟨c, hc, h0⟩
    exact char_back_ne_zero (fun e => h (e ▸ hc)) h0
  have hread : s.length < 2 ^ 31 →
      (token_string (string_token 0 (s.flatMap escaped_char)) = some s ↔
        10 ∉ s ∧ (s.length < 2 ^ 28 ∨ (34 ∈ s ∨ 92 ∈ s) ∧ s.length < 2 ^ 29)) := by
    intro hs
    rw [string_token_escaped, token_string_eq_iff hs hback (by simp), map_char_back_iff]
    refine and_congr_right fun h10 => ?_
    rw [decide_eq_true_iff, is_escaped_mem_iff h10]
  constructor
  · rintro ⟨e, t, he, ht, hts⟩
    rw [sb_add_escaped_chars, Option.ite_none_right_eq_some, length_escaped, Option.some_inj] at he
    obtain ⟨hfits, rfl⟩ := he
    have hquoted := parse_json_quoted (escaped_chars h) (zero_notMem_escaped h) (by rw [escapes_escaped]; omega)
    obtain rfl : t = string_token 0 (s.flatMap escaped_char) := by simpa using Guarded.ok_unique ht hquoted
    exact (hread (by omega)).1 hts
  · rintro ⟨h10, hlen⟩
    have hfits : (s.flatMap escaped_char).length < 2 ^ 31 := by
      rw [length_escaped]
      omega
    have hquoted := parse_json_quoted (escaped_chars h) (zero_notMem_escaped h) (by rw [escapes_escaped]; omega)
    exact ⟨_, _, if_pos hfits, hquoted, (hread (by omega)).2 ⟨h10, hlen⟩⟩

theorem escaped_quote_read : EscapedBack [97, 34, 98] :=
  (escaped_text_read_iff [97, 34, 98] (by decide)).2 (by decide)

/-- A newline comes back as the letter `n`. -/
theorem escaped_newline_lost :
    sb_add_escaped_chars [10] = some [92, 110] ∧
      (parse_json [34, 92, 110, 34]).ok [⟨leaf_len .T_STRING 1, 0, true, some [110]⟩] ∧ ¬ EscapedBack [10] := by
  refine ⟨rfl, by decide, ?_⟩
  rintro ⟨e, t, he, ht, hts⟩
  obtain rfl : e = [92, 110] := Option.some_inj.1 (he.symm.trans rfl)
  have hread : (parse_json (34 :: [92, 110] ++ [34])).ok [⟨leaf_len .T_STRING 1, 0, true, some [110]⟩] := by decide
  obtain rfl : t = _ := singleton_inj.1 (Guarded.ok_unique ht hread)
  exact absurd hts (by decide)

/-- An escaped text does not leave its string: wherever the parser meets it, it goes on with what follows. -/
theorem escaped_text_enclosed {e : Bytes} (h : 0 ∉ s) (he : sb_add_escaped_chars s = some e) (left key : Nat) (rest : Bytes)
    (result : List JsonToken) (parent : Int) :
    (parse_object (left + 1) ⟨34 :: e ++ 34 :: rest, result⟩ parent key).ok
      (parsed_next_item ⟨rest, result⟩ (string_token key e) parent) := by
  obtain ⟨hlen, rfl⟩ : (s.flatMap escaped_char).length < 2 ^ 31 ∧ s.flatMap escaped_char = e := by
    simpa [sb_add_escaped_chars] using he
  have hcount : escapes (s.flatMap escaped_char) < 2 ^ 31 := by
    rw [length_escaped] at hlen
    rw [escapes_escaped]
    omega
  have hnext : (next_char (34 :: s.flatMap escaped_char ++ 34 :: rest)).ok (34, s.flatMap escaped_char ++ 34 :: rest) :=
    next_char_ok_iff.2 (leads_cons.2 (.inr ⟨rfl, rfl, by simp⟩))
  have hscan : (string_scan 34 (s.flatMap escaped_char ++ 34 :: rest)).ok (s.flatMap escaped_char, rest) :=
    (string_scan_ok_iff (.inl rfl)).2 ⟨rfl, escaped_chars h, hcount⟩
  exact Guarded.ok_bind.2 ⟨_, hnext, Guarded.ok_bind.2 ⟨_, hscan, Guarded.ok_pure.2 rfl⟩⟩

theorem escaped_text_enclosed_quote : (parse_object 1 ⟨34 :: [92, 34] ++ 34 :: [125], []⟩ (-1) 0).ok
    (parsed_next_item ⟨[125], []⟩ (string_token 0 [92, 34]) (-1)) :=
  escaped_text_enclosed (s := [34]) (by decide) rfl 0 0 [125] [] (-1)

end In3
