import In3.Core.JsonTree
/-!
# The grammar of the texts

What the parser accepts, without its cursor: spaces before every sign, names and strings up
to the first quote that is not escaped, a comma may follow the last property, and
numbers of at most twenty digits. Escapes and number texts are counted in an `int`. `Grammar.Value left c t r` says that `c` starts with the value `t`, nested
at most `left` deep, and goes on with `r`; `read_value_ok_iff` that this is what is read.
-/
open Lib Guarded List

namespace In3

namespace Grammar

/-- The first character of `c` that is no space is `x`, and `r` follows. -/
def Leads (c : Bytes) (x : UInt8) (r : Bytes) : Prop :=
  ∃ s, c = s ++ x :: r ∧ (∀ y ∈ s, is_json_space y = true) ∧ is_json_space x = false

/-- What stands between two quotes `q`: every backslash escapes the character behind it. -/
inductive Chars (q : UInt8) : Bytes → Prop
  | nil : Chars q []
  | plain {x : UInt8} {s : Bytes} : x ≠ 0 → x ≠ q → x ≠ 92 → Chars q s → Chars q (x :: s)
  | escaped {y : UInt8} {s : Bytes} : Chars q s → Chars q (92 :: y :: s)

def Name (c name v : Bytes) : Prop := ∃ n, Leads c 34 (name ++ 34 :: n) ∧ Chars 34 name ∧ Leads n 58 v

def decimal_value (ds : Bytes) : Nat := ds.foldl (fun v d => v * 10 + (d.toNat - 48)) 0

/-- The characters that make a number a text. -/
def is_mark (x : UInt8) : Bool := x = 46 || x = 45 || x = 43 || x = 101 || x = 69

def is_exponent (x : UInt8) : Bool := x = 69 || x = 101

/-- Digits, minus signs and at most one exponent. -/
def Tail (has_e : Bool) (s : Bytes) : Prop :=
  (∀ x ∈ s, is_digit x = true ∨ x = 45 ∨ is_exponent x = true) ∧ s.countP is_exponent + has_e.toNat ≤ 1

/-- A number, up to a character that may follow one. -/
inductive Number : Bytes → Num → Bytes → Prop
  | integer {ds r : Bytes} {y : UInt8} : (∀ x ∈ ds, is_digit x = true) → ds.length ≤ 20 → is_number_end y = true →
    Number (ds ++ y :: r) (.integer (decimal_value ds % 2 ^ 64)) (y :: r)
  | text {ds s r : Bytes} {x y : UInt8} : (∀ x ∈ ds, is_digit x = true) → ds.length ≤ 20 → is_mark x = true →
    Tail (is_exponent x) s → is_number_end y = true → (ds ++ x :: s).length + 1 < 2 ^ 31 →
    Number (ds ++ x :: s ++ y :: r) (.text (ds ++ x :: s)) (y :: r)

section Children
variable (value : Bytes → Tok → Bytes → Prop)

/-- The properties of an object and its closing brace. -/
inductive Members : Bytes → List (Nat × Tok) → Bytes → Prop
  | done {c r : Bytes} : Leads c 125 r → Members c [] r
  | last {c name v w r : Bytes} {t : Tok} : Name c name v → value v t w → Leads w 125 r → Members c [(keyn name, t)] r
  | more {c name v w d r : Bytes} {t : Tok} {ps : List (Nat × Tok)} : Name c name v → value v t w → Leads w 44 d →
    Members d ps r → Members c ((keyn name, t) :: ps) r

/-- The elements of an array and its closing bracket. -/
inductive Elements : Bytes → List Tok → Bytes → Prop
  | last {c w r : Bytes} {t : Tok} : value c t w → Leads w 93 r → Elements c [t] r
  | more {c w d r : Bytes} {t : Tok} {ts : List Tok} : value c t w → Leads w 44 d → Elements d ts r →
    Elements c (t :: ts) r

inductive Body : UInt8 → Bytes → Tok → Bytes → Prop
  | object {s r : Bytes} {ps : List (Nat × Tok)} : Members value s ps r → Body 123 s (.object (123 :: s) ps) r
  | empty {s r : Bytes} : Leads s 93 r → Body 91 s (.array (91 :: s) []) r
  | array {s r : Bytes} {ts : List Tok} : Elements value s ts r → Body 91 s (.array (91 :: s) ts) r
  | string {q : UInt8} {raw r : Bytes} : q = 34 ∨ q = 39 → Chars q raw → escapes raw < 2 ^ 31 →
    Body q (raw ++ q :: r) (string_tok raw) r
  | true {r : Bytes} : Body 116 ([114, 117, 101] ++ r) (.boolean true) r
  | false {r : Bytes} : Body 102 ([97, 108, 115, 101] ++ r) (.boolean false) r
  | null {r : Bytes} : Body 110 ([117, 108, 108] ++ r) .null r
  | number {x : UInt8} {s r : Bytes} {num : Num} : is_digit x = true ∨ x = 43 ∨ x = 45 → Number (x :: s) num r →
    Body x s (number_tok num) r

end Children

/-- A value that is nested at most `left` deep. -/
def Value : Nat → Bytes → Tok → Bytes → Prop
  | 0, _, _, _ => False
  | left + 1, c, t, r => ∃ x s, Leads c x s ∧ Body (Value left) x s t r

end Grammar

open Grammar

/-! ## Scanners -/

variable {c r raw s : Bytes} {has_e : Bool} {left : Nat} {q x y : UInt8} {t : Tok}

theorem leads_cons :
    Leads (y :: c) x r ↔ is_json_space y = true ∧ Leads c x r ∨ is_json_space y = false ∧ y = x ∧ c = r := by
  constructor
  · rintro ⟨s, hs, hspace, hx⟩
    cases s with
    | nil =>
      rw [nil_append, List.cons.injEq] at hs
      exact .inr ⟨hs.1 ▸ hx, hs⟩
    | cons z s =>
      rw [cons_append, List.cons.injEq] at hs
      exact .inl ⟨hs.1 ▸ hspace z (by simp), s, hs.2, fun y hy => hspace y (by simp [hy]), hx⟩
  · rintro (⟨hy, s, rfl, hspace, hx⟩ | ⟨hy, rfl, rfl⟩)
    · exact ⟨y :: s, rfl, by simpa [hy] using hspace, hx⟩
    · exact ⟨[], rfl, by simp, hy⟩

theorem next_char_ok_iff : (next_char c).ok (x, r) ↔ Leads c x r := by
  induction c with
  | nil => simp [next_char, Leads]
  | cons y c ih =>
    rw [next_char, leads_cons]
    by_cases hy : is_json_space y = true
    · simp [hy, ih]
    · simp [hy]

theorem leads_unique (hx : Leads c x r) (hy : Leads c y s) : x = y ∧ r = s :=
  Prod.mk.inj (ok_unique (next_char_ok_iff.2 hx) (next_char_ok_iff.2 hy))

theorem scan_sound {e : JsonErr} (h : (scan q e c).ok (raw, r)) :
    c = raw ++ q :: r ∧ Chars q raw := by
  fun_induction scan q e c generalizing raw with
  | case1 => simp at h
  | case2 => simp at h
  | case3 s h0 =>
    obtain ⟨rfl, rfl⟩ := h
    exact ⟨rfl, .nil⟩
  | case4 => simp at h
  | case5 y s h0 hq ih =>
    rw [ok_bind] at h
    obtain ⟨⟨raw', r'⟩, hok, h⟩ := h
    obtain ⟨rfl, rfl⟩ := h
    obtain ⟨rfl, hraw⟩ := ih hok
    exact ⟨rfl, .escaped hraw⟩
  | case6 x s h0 hq hb ih =>
    rw [ok_bind] at h
    obtain ⟨⟨raw', r'⟩, hok, h⟩ := h
    obtain ⟨rfl, rfl⟩ := h
    obtain ⟨rfl, hraw⟩ := ih hok
    exact ⟨rfl, .plain h0 hq hb hraw⟩

theorem scan_complete (hq : q ≠ 0) (hb : q ≠ 92) (e : JsonErr) (r : Bytes) (h : Chars q raw) :
    scan q e (raw ++ q :: r) = pure (raw, r) := by
  induction h with
  | nil =>
    rw [scan.eq_def]
    simp [hq]
  | plain h0 hx hx' _ ih =>
    rw [scan.eq_def]
    simp [h0, hx, hx', ih]
  | escaped _ ih =>
    rw [scan.eq_def]
    simp [Ne.symm hb, ih]

theorem scan_ok_iff (hq : q ≠ 0) (hb : q ≠ 92) (e : JsonErr) :
    (scan q e c).ok (raw, r) ↔ c = raw ++ q :: r ∧ Chars q raw := by
  refine ⟨scan_sound, ?_⟩
  rintro ⟨rfl, h⟩
  rw [scan_complete hq hb e r h, ok_pure]

theorem escape_count_eq (hq : q ≠ 92) (r : Bytes) (h : Chars q raw) :
    escape_count q false (raw ++ q :: r) = escapes raw := by
  induction h with
  | nil => simp [escape_count, escapes]
  | plain h0 hx hb _ ih => simp [escape_count, escapes, h0, hx, hb, ih]
  | escaped _ ih => simp [escape_count, escapes, Ne.symm hq, ih]

theorem string_scan_ok_iff (hq : q = 34 ∨ q = 39) :
    (string_scan q c).ok (raw, r) ↔ c = raw ++ q :: r ∧ Chars q raw ∧ escapes raw < 2 ^ 31 := by
  have h0 : q ≠ 0 := by rcases hq with rfl | rfl <;> decide
  have hb : q ≠ 92 := by rcases hq with rfl | rfl <;> decide
  rw [string_scan, ok_bind]
  constructor
  · rintro ⟨_, hcount, h⟩
    obtain ⟨rfl, hchars⟩ := scan_sound h
    rw [ok_guard, escape_count_eq hb r hchars] at hcount
    exact ⟨rfl, hchars, hcount⟩
  · rintro ⟨rfl, hchars, hcount⟩
    refine ⟨(), ?_, (scan_ok_iff h0 hb _).2 ⟨rfl, hchars⟩⟩
    rwa [ok_guard, escape_count_eq hb r hchars]

variable {key n value : Nat} {lit seen tail v : Bytes} {num : Num}

theorem parse_key_ok_iff {k : Bytes} : (parse_key k).ok (key, v) ↔
    ∃ name n, k = name ++ 34 :: n ∧ Chars 34 name ∧ Leads n 58 v ∧ keyn name = key := by
  rw [parse_key, ok_bind]
  constructor
  · rintro ⟨⟨name, n⟩, hname, h⟩
    obtain ⟨⟨x, u⟩, hx, h⟩ := ok_bind.1 h
    obtain ⟨rfl, hchars⟩ := scan_sound hname
    dsimp only at h
    split at h
    · rename_i hcolon
      obtain ⟨rfl, rfl⟩ := h
      subst hcolon
      exact ⟨name, n, rfl, hchars, next_char_ok_iff.1 hx, rfl⟩
    · exact absurd h ok_throw
  · rintro ⟨name, n, rfl, hchars, hcolon, rfl⟩
    refine ⟨(name, n), (scan_ok_iff (by decide) (by decide) _).2 ⟨rfl, hchars⟩, ?_⟩
    exact ok_bind.2 ⟨(58, v), next_char_ok_iff.2 hcolon, by simp⟩

theorem name_ok_iff :
    (∃ k, (next_char c).ok (34, k) ∧ (parse_key k).ok (key, v)) ↔ ∃ name, Name c name v ∧ keyn name = key := by
  constructor
  · rintro ⟨k, hk, hv⟩
    obtain ⟨name, n, rfl, hchars, hcolon, rfl⟩ := parse_key_ok_iff.1 hv
    exact ⟨name, ⟨n, next_char_ok_iff.1 hk, hchars, hcolon⟩, rfl⟩
  · rintro ⟨name, ⟨n, hk, hchars, hcolon⟩, rfl⟩
    exact ⟨_, next_char_ok_iff.2 hk, parse_key_ok_iff.2 ⟨name, n, rfl, hchars, hcolon, rfl⟩⟩

/-! ## Numbers and keywords -/

theorem not_exponent_of_digit (h : (is_digit x || x = 45) = true) : is_exponent x = false := by
  by_contra he
  simp only [is_exponent, Bool.not_eq_false, Bool.or_eq_true, decide_eq_true_eq] at he
  rcases he with rfl | rfl <;> exact absurd h (by decide)

theorem number_tail_cons : Tail has_e (x :: s) ↔
    (is_digit x || x = 45) = true ∧ Tail has_e s ∨ is_exponent x = true ∧ has_e = false ∧ Tail true s := by
  unfold Tail
  by_cases hx : is_exponent x = true
  · have hd : ¬ (is_digit x || x = 45) = true := fun h => by simp [not_exponent_of_digit h] at hx
    cases has_e <;> simp [hx, hd]
  · simp [hx, and_assoc]

theorem number_tail_sound (h : (number_tail has_e c).ok (tail, r)) :
    c = tail ++ r ∧ Tail has_e tail := by
  fun_induction number_tail has_e c generalizing tail with
  | case1 => simp at h
  | case2 has_e x s hx ih =>
    rw [ok_bind] at h
    obtain ⟨⟨tail', r'⟩, hok, h⟩ := h
    obtain ⟨rfl, rfl⟩ := h
    obtain ⟨rfl, htail⟩ := ih hok
    exact ⟨rfl, number_tail_cons.2 (.inl ⟨hx, htail⟩)⟩
  | case3 has_e x s hx he ih =>
    rw [ok_bind] at h
    obtain ⟨⟨tail', r'⟩, hok, h⟩ := h
    obtain ⟨rfl, rfl⟩ := h
    obtain ⟨rfl, htail⟩ := ih hok
    rw [Bool.and_eq_true, Bool.not_eq_true'] at he
    exact ⟨rfl, number_tail_cons.2 (.inr ⟨he.2, he.1, htail⟩)⟩
  | case4 has_e x s =>
    obtain ⟨rfl, rfl⟩ := h
    exact ⟨rfl, by simp [Tail]; cases has_e <;> simp⟩

theorem number_end_excludes (h : is_number_end y = true) :
    is_digit y = false ∧ y ≠ 45 ∧ is_mark y = false := by
  simp only [is_number_end, is_json_space, Bool.or_eq_true, decide_eq_true_eq] at h
  rcases h with (((((((rfl | rfl) | rfl) | rfl) | rfl) | rfl) | rfl) | rfl) <;> decide

theorem is_exponent_mark (h : is_exponent x = true) : is_mark x = true := by
  simp only [is_exponent, Bool.or_eq_true, decide_eq_true_eq] at h
  rcases h with rfl | rfl <;> decide

theorem number_tail_complete (r : Bytes) (h : Tail has_e tail)
    (hy : is_number_end y = true) : number_tail has_e (tail ++ y :: r) = pure (tail, y :: r) := by
  induction tail generalizing has_e with
  | nil =>
    obtain ⟨hdigit, hminus, hmark⟩ := number_end_excludes hy
    have he : ¬ is_exponent y = true := fun he => by simp [is_exponent_mark he] at hmark
    rw [is_exponent] at he
    rw [nil_append, number_tail, if_neg (by simp [hdigit, hminus]), if_neg (by simp [he])]
  | cons x tail ih =>
    rw [cons_append, number_tail]
    rcases number_tail_cons.1 h with ⟨hx, h⟩ | ⟨hx, rfl, htail⟩
    · rw [if_pos hx, ih h, pure_bind]
    · have hd : ¬ (is_digit x || x = 45) = true := fun h => by simp [not_exponent_of_digit h] at hx
      rw [if_neg hd, if_pos (by simpa [is_exponent] using hx), ih htail, pure_bind]

theorem foldl_decimal (ds : Bytes) (v : Nat) :
    ds.foldl (fun v d => (v * 10 + (d.toNat - 48)) % 2 ^ 64) (v % 2 ^ 64) =
      ds.foldl (fun v d => v * 10 + (d.toNat - 48)) v % 2 ^ 64 := by
  induction ds generalizing v with
  | nil => rfl
  | cons d ds ih =>
    rw [foldl_cons, foldl_cons, ← ih, Nat.add_mod, Nat.mod_mul_mod, ← Nat.add_mod]

theorem number_loop_sound
    (h : (number_loop n value seen c).ok (num, r)) : ∃ ds y r', r = y :: r' ∧ is_number_end y = true ∧
      (∀ x ∈ ds, is_digit x = true) ∧ ds.length < n ∧
      (c = ds ++ r ∧ num = .integer (ds.foldl (fun v d => (v * 10 + (d.toNat - 48)) % 2 ^ 64) value) ∨
        ∃ x s, c = ds ++ x :: s ++ r ∧ is_mark x = true ∧ Tail (is_exponent x) s ∧
          (seen ++ ds ++ x :: s).length + 1 < 2 ^ 31 ∧ num = .text (seen ++ ds ++ x :: s)) := by
  induction n generalizing value seen c with
  | zero =>
    cases c <;> exact absurd h ok_throw
  | succ n ih =>
    cases c with
    | nil => exact absurd h ok_fault
    | cons x c =>
      rw [number_loop] at h
      split at h
      · rename_i hx
        obtain ⟨ds, y, r', rfl, hy, hds, hlt, hcase⟩ := ih h
        refine ⟨x :: ds, y, r', rfl, hy, by simpa [hx] using hds, Nat.succ_lt_succ hlt, ?_⟩
        rcases hcase with ⟨rfl, rfl⟩ | ⟨z, s, rfl, hz, hs, hlen, rfl⟩
        · exact .inl ⟨rfl, rfl⟩
        · exact .inr ⟨z, s, rfl, hz, hs, by simpa using hlen, by simp⟩
      split at h
      · rename_i hx
        obtain ⟨⟨tail, u⟩, htail, hend⟩ := ok_bind.1 h
        obtain ⟨rfl, hs⟩ := number_tail_sound htail
        obtain ⟨_, -, hend⟩ := ok_bind.1 hend
        cases u with
        | nil => exact absurd hend ok_fault
        | cons y u =>
          dsimp only at hend
          split at hend
          · rename_i hy
            obtain ⟨_, hlen, hend⟩ := ok_bind.1 hend
            obtain ⟨rfl, rfl⟩ := hend
            exact ⟨[], y, u, rfl, hy, by simp, Nat.succ_pos n, .inr ⟨x, tail, rfl, hx, hs, by simpa using hlen, by simp⟩⟩
          · exact absurd hend ok_throw
      split at h
      · rename_i hx
        obtain ⟨rfl, rfl⟩ := h
        exact ⟨[], x, c, rfl, hx, by simp, Nat.succ_pos n, .inl ⟨rfl, rfl⟩⟩
      · exact absurd h ok_throw

theorem number_loop_digits {ds : Bytes} (hds : ∀ x ∈ ds, is_digit x = true) (hlen : ds.length < n) :
    number_loop n value seen (ds ++ c) =
      number_loop (n - ds.length) (ds.foldl (fun v d => (v * 10 + (d.toNat - 48)) % 2 ^ 64) value) (seen ++ ds) c := by
  induction ds generalizing n value seen with
  | nil => simp
  | cons d ds ih =>
    obtain ⟨n, rfl⟩ : ∃ m, n = m + 1 := ⟨n - 1, by omega⟩
    rw [cons_append, number_loop, if_pos (hds d (by simp)), ih (fun x hx => hds x (by simp [hx])) (by simpa using hlen)]
    simp

theorem parse_number_ok_iff : (parse_number c).ok (num, r) ↔ Number c num r := by
  constructor
  · intro h
    obtain ⟨ds, y, r', rfl, hy, hds, hlt, ⟨rfl, rfl⟩ | ⟨x, s, rfl, hx, hs, hlen, rfl⟩⟩ := number_loop_sound h
    · have hvalue := foldl_decimal ds 0
      rw [Nat.zero_mod] at hvalue
      rw [hvalue]
      exact .integer hds (by omega) hy
    · exact .text hds (by omega) hx hs hy hlen
  · intro h
    cases h with
    | @integer ds r y hds hlen hy =>
      obtain ⟨hdigit, -, hmark⟩ := number_end_excludes hy
      have hvalue := foldl_decimal ds 0
      rw [Nat.zero_mod] at hvalue
      obtain ⟨n, hn⟩ : ∃ n, 21 - ds.length = n + 1 := ⟨20 - ds.length, by omega⟩
      rw [is_mark] at hmark
      rw [parse_number, number_loop_digits hds (by omega), hn, number_loop, if_neg (by simp [hdigit]),
        if_neg (by simp [hmark]), if_pos hy, hvalue]
      rfl
    | @text ds s r x y hds hlen hx hs hy hshort =>
      obtain ⟨n, hn⟩ : ∃ n, 21 - ds.length = n + 1 := ⟨20 - ds.length, by omega⟩
      have hd : ¬ is_digit x = true := by
        intro hd
        simp only [is_mark, Bool.or_eq_true, decide_eq_true_eq] at hx
        rcases hx with (((rfl | rfl) | rfl) | rfl) | rfl <;> exact absurd hd (by decide)
      rw [is_mark] at hx
      rw [is_exponent] at hs
      rw [parse_number, append_assoc, number_loop_digits hds (by omega), hn, cons_append, number_loop, if_neg hd, if_pos hx,
        number_tail_complete r hs hy, pure_bind, ok_bind]
      refine ⟨(), by rw [ok_guard, nil_append]; omega, ?_⟩
      dsimp only
      rw [if_pos hy, ok_bind]
      exact ⟨(), by rwa [ok_guard], by simp⟩

theorem strncmp_eq_ok_iff : (strncmp_eq c lit).ok true ↔ ∃ r, c = lit ++ r := by
  induction lit generalizing c with
  | nil => simp [strncmp_eq]
  | cons y lit ih =>
    cases c with
    | nil => simp [strncmp_eq]
    | cons x c =>
      rw [strncmp_eq]
      by_cases hx : x = y
      · simp [hx, ih]
      · simp [hx]

theorem read_keyword_ok_iff {t' : Tok} :
    (read_keyword c lit t).ok (t', r) ↔ t' = t ∧ c = lit ++ r := by
  rw [read_keyword, ok_bind]
  constructor
  · rintro ⟨b, hb, h⟩
    cases b with
    | false => simp at h
    | true =>
      obtain ⟨u, rfl⟩ := strncmp_eq_ok_iff.1 hb
      simp only [if_true, ok_pure, Prod.mk.injEq, drop_left] at h
      exact ⟨h.1.symm, by rw [h.2]⟩
  · rintro ⟨rfl, rfl⟩
    refine ⟨true, strncmp_eq_ok_iff.2 ⟨r, rfl⟩, ?_⟩
    simp

/-! ## What is read is written in the text -/

section Children
variable {read : Bytes → JsonRun (Tok × Bytes)} {value : Bytes → Tok → Bytes → Prop} {fuel : Nat}

theorem read_members_sound (hread : ∀ c t r, (read c).ok (t, r) → value c t r)
    {ps : List (Nat × Tok)} (h : (read_members read fuel c).ok (ps, r)) : Members value c ps r := by
  induction fuel generalizing c ps with
  | zero => exact absurd h ok_fault
  | succ fuel ih =>
    rw [read_members, ok_bind] at h
    obtain ⟨⟨x, k⟩, hk, h⟩ := h
    dsimp only at h
    split at h
    · rename_i hx
      subst hx
      obtain ⟨⟨key, v⟩, hv, h⟩ := ok_bind.1 h
      obtain ⟨⟨t, w⟩, hw, h⟩ := ok_bind.1 h
      obtain ⟨⟨y, d⟩, hd, h⟩ := ok_bind.1 h
      obtain ⟨name, hname, rfl⟩ := name_ok_iff.1 ⟨k, hk, hv⟩
      have hw := hread v t w hw
      have hd := next_char_ok_iff.1 hd
      split at h
      · rename_i hy
        subst hy
        obtain ⟨⟨ps', r'⟩, hps, h⟩ := ok_bind.1 h
        obtain ⟨rfl, rfl⟩ := h
        exact .more hname hw hd (ih hps)
      split at h
      · rename_i hy
        subst hy
        obtain ⟨rfl, rfl⟩ := h
        exact .last hname hw hd
      · exact absurd h ok_throw
    split at h
    · rename_i hx
      subst hx
      obtain ⟨rfl, rfl⟩ := h
      exact .done (next_char_ok_iff.1 hk)
    · exact absurd h ok_throw

theorem read_elements_sound (hread : ∀ c t r, (read c).ok (t, r) → value c t r)
    {ts : List Tok} (h : (read_elements read fuel c).ok (ts, r)) : Elements value c ts r := by
  induction fuel generalizing c ts with
  | zero => exact absurd h ok_fault
  | succ fuel ih =>
    rw [read_elements, ok_bind] at h
    obtain ⟨⟨t, w⟩, hw, h⟩ := h
    obtain ⟨⟨y, d⟩, hd, h⟩ := ok_bind.1 h
    have hw := hread c t w hw
    have hd := next_char_ok_iff.1 hd
    dsimp only at h
    split at h
    · rename_i hy
      subst hy
      obtain ⟨⟨ts', r'⟩, hts, h⟩ := ok_bind.1 h
      obtain ⟨rfl, rfl⟩ := h
      exact .more hw hd (ih hts)
    split at h
    · rename_i hy
      subst hy
      obtain ⟨rfl, rfl⟩ := h
      exact .last hw hd
    · exact absurd h ok_throw

end Children

/-- What holds of the first character and the rest holds of those that are there. -/
theorem leads_exists_iff {P : UInt8 → Bytes → Prop} (h : Leads c x r) : (∃ y u, Leads c y u ∧ P y u) ↔ P x r := by
  constructor
  · rintro ⟨y, u, hy, hP⟩
    obtain ⟨rfl, rfl⟩ := leads_unique h hy
    exact hP
  · intro hP
    exact ⟨x, r, h, hP⟩

theorem leads_again_iff {P : UInt8 → Bytes → Prop} (h : Leads c x r) :
    (∃ y u, Leads (x :: r) y u ∧ P y u) ↔ ∃ y u, Leads c y u ∧ P y u :=
  (leads_exists_iff ⟨[], rfl, by simp, h.choose_spec.2.2⟩).trans (leads_exists_iff h).symm

theorem value_leads_iff (h : Leads c x r) :
    Value left (x :: r) t s ↔ Value left c t s := by
  cases left with
  | zero => exact Iff.rfl
  | succ left => exact leads_again_iff h

theorem elements_leads_iff {ts : List Tok} (h : Leads c x r) :
    Elements (Value left) (x :: r) ts s ↔ Elements (Value left) c ts s := by
  constructor
  · intro he
    cases he with
    | last hw hr => exact .last ((value_leads_iff h).1 hw) hr
    | more hw hd hts => exact .more ((value_leads_iff h).1 hw) hd hts
  · intro he
    cases he with
    | last hw hr => exact .last ((value_leads_iff h).2 hw) hr
    | more hw hd hts => exact .more ((value_leads_iff h).2 hw) hd hts

theorem value_head_ne {w : Bytes} (h : Leads c x r) (hw : Value left c t w) :
    x ≠ 93 := by
  rintro rfl
  cases left with
  | zero => exact hw
  | succ left =>
    cases (leads_exists_iff h).1 hw with
    | string hq => simp at hq
    | number hx => exact absurd hx (by decide)

theorem read_value_sound (left : Nat) (c : Bytes) (t : Tok) (r : Bytes) (h : (read_value left c).ok (t, r)) :
    Value left c t r := by
  induction left generalizing c t r with
  | zero => exact absurd h ok_throw
  | succ left ih =>
    rw [read_value, ok_bind] at h
    obtain ⟨⟨x, s⟩, hx, h⟩ := h
    refine ⟨x, s, next_char_ok_iff.1 hx, ?_⟩
    dsimp only at h
    split at h
    · exact absurd h ok_throw
    split at h
    · rename_i hobj
      subst hobj
      obtain ⟨⟨ps, r'⟩, hps, h⟩ := ok_bind.1 h
      rw [ok_pure, Prod.mk.injEq] at h
      obtain ⟨rfl, rfl⟩ := h
      exact .object (read_members_sound ih hps)
    split at h
    · rename_i harr
      subst harr
      obtain ⟨⟨y, u⟩, hy, h⟩ := ok_bind.1 h
      dsimp only at h
      split at h
      · rename_i hempty
        subst hempty
        rw [ok_pure, Prod.mk.injEq] at h
        obtain ⟨rfl, rfl⟩ := h
        exact .empty (next_char_ok_iff.1 hy)
      · obtain ⟨⟨ts, r'⟩, hts, h⟩ := ok_bind.1 h
        rw [ok_pure, Prod.mk.injEq] at h
        obtain ⟨rfl, rfl⟩ := h
        exact .array ((elements_leads_iff (next_char_ok_iff.1 hy)).1 (read_elements_sound ih hts))
    split at h
    · rename_i hstr
      obtain ⟨⟨raw, r'⟩, hraw, h⟩ := ok_bind.1 h
      rw [ok_pure, Prod.mk.injEq] at h
      obtain ⟨rfl, rfl⟩ := h
      have hquote : x = 34 ∨ x = 39 := by simpa using hstr
      obtain ⟨rfl, hchars, hcount⟩ := (string_scan_ok_iff hquote).1 hraw
      exact .string hquote hchars hcount
    split at h
    · rename_i hx
      subst hx
      obtain ⟨rfl, rfl⟩ := read_keyword_ok_iff.1 h
      exact .true
    split at h
    · rename_i hx
      subst hx
      obtain ⟨rfl, rfl⟩ := read_keyword_ok_iff.1 h
      exact .false
    split at h
    · rename_i hx
      subst hx
      obtain ⟨rfl, rfl⟩ := read_keyword_ok_iff.1 h
      exact .null
    split at h
    · rename_i hnum
      obtain ⟨⟨num, r'⟩, hnumber, h⟩ := ok_bind.1 h
      rw [ok_pure, Prod.mk.injEq] at h
      obtain ⟨rfl, rfl⟩ := h
      exact .number (by simpa [or_assoc] using hnum) (parse_number_ok_iff.1 hnumber)
    · exact absurd h ok_throw

end In3
