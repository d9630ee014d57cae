import In3.Core.JsonGrammar
import Mathlib.Data.List.TakeWhile
/-!
# Where the parser reads

The only cursor that leaves the text is the one of a string or a name whose last character
is a backslash: the character behind it, which is skipped, is then the zero. Everywhere else
what is read is followed by a rest of the text that still has its zero (`Onward`), so that a
text of the grammar is read to its end (`read_value_ok_iff`).
-/
open Lib Guarded List

namespace In3

open Grammar

/-! ## Texts with their zero -/

/-- A text with its zero at the end and nowhere else. -/
def Terminated (c : Bytes) : Prop := ∃ s, c = s ++ [0] ∧ 0 ∉ s

theorem terminated_c_str (js : Bytes) : Terminated (c_str js ++ [0]) := by
  refine ⟨c_str js, rfl, fun h => ?_⟩
  have hne := mem_takeWhile_imp h
  simp at hne

theorem not_terminated_nil : ¬ Terminated [] := by
  rintro ⟨s, h, -⟩
  simp at h

variable {c lit r seen u : Bytes} {k : Scan} {left n : Nat} {x : UInt8} {α β : Type}

theorem terminated_cons : Terminated (x :: r) ↔ x = 0 ∧ r = [] ∨ x ≠ 0 ∧ Terminated r := by
  constructor
  · rintro ⟨s, hs, h0⟩
    cases s with
    | nil =>
      simp only [nil_append, List.cons.injEq] at hs
      exact .inl hs
    | cons y s =>
      obtain ⟨rfl, rfl⟩ := hs
      rw [mem_cons, not_or] at h0
      exact .inr ⟨Ne.symm h0.1, s, rfl, h0.2⟩
  · rintro (⟨rfl, rfl⟩ | ⟨hx, s, rfl, h0⟩)
    · exact ⟨[], rfl, by simp⟩
    · exact ⟨x :: s, rfl, by simp [Ne.symm hx, h0]⟩

theorem terminated_of_ne (h : Terminated (x :: r)) (hx : x ≠ 0) : Terminated r :=
  (terminated_cons.1 h).elim (fun h => absurd h.1 hx) And.right

/-- What is read from `c` is followed by a rest of it that still has its zero. -/
def Onward {α : Type} (c : Bytes) (x : JsonRun (α × Bytes)) : Prop :=
  ∀ a r, x.ok (a, r) → Terminated r ∧ r.length ≤ c.length

theorem Onward.mono {d : Bytes} {x : JsonRun (α × Bytes)} (h : Onward c x) (hle : c.length ≤ d.length) :
    Onward d x := fun a r hok => ⟨(h a r hok).1, (h a r hok).2.trans hle⟩

theorem Onward.map {x : JsonRun (α × Bytes)} (h : Onward c x) (f : α → β) :
    Onward c (x >>= fun p => pure (f p.1, p.2)) := by
  intro b r hok
  rw [ok_bind] at hok
  obtain ⟨⟨a, u⟩, ha, hok⟩ := hok
  rw [ok_pure, Prod.mk.injEq] at hok
  rw [← hok.2]
  exact h a u ha

theorem onward_pure {a : α} (hr : Terminated r) (hle : r.length ≤ c.length) :
    Onward c (pure (a, r)) := by
  intro b u hok
  rw [ok_pure, Prod.mk.injEq] at hok
  rw [← hok.2]
  exact ⟨hr, hle⟩

theorem onward_throw {e : JsonErr} : Onward c (throw e : JsonRun (α × Bytes)) :=
  fun _ _ h => absurd h ok_throw

theorem onward_fault {f : JsonFault} : Onward c (Guarded.fault f : JsonRun (α × Bytes)) :=
  fun _ _ h => absurd h ok_fault

theorem Onward.bind {x : JsonRun (α × Bytes)} {f : α × Bytes → JsonRun (β × Bytes)}
    (hx : Onward c x) (hf : ∀ a r, x.ok (a, r) → Terminated r → Onward r (f (a, r))) : Onward c (x >>= f) := by
  intro b u hok
  rw [ok_bind] at hok
  obtain ⟨⟨a, r⟩, ha, hok⟩ := hok
  obtain ⟨hr, hle⟩ := hx a r ha
  obtain ⟨hu, hle'⟩ := hf a r ha hr b u hok
  exact ⟨hu, hle'.trans hle⟩

theorem next_char_eq (hc : Terminated c) :
    ∃ x r, next_char c = pure (x, r) ∧ Terminated (x :: r) ∧ r.length < c.length := by
  induction c with
  | nil => exact absurd hc not_terminated_nil
  | cons x r ih =>
    by_cases hs : is_json_space x = true
    · have hx : x ≠ 0 := by
        rintro rfl
        revert hs
        decide
      obtain ⟨y, u, heq, hu, hlt⟩ := ih (terminated_of_ne hc hx)
      exact ⟨y, u, by rw [next_char, if_pos hs, heq], hu, Nat.lt_succ_of_lt hlt⟩
    · exact ⟨x, r, by rw [next_char, if_neg hs], hc, Nat.lt_succ_self _⟩

theorem next_char_onward (hc : Terminated c) (h : (next_char c).ok (x, r))
    (hx : x ≠ 0) : Terminated r ∧ r.length < c.length := by
  obtain ⟨y, u, heq, hu, hlt⟩ := next_char_eq hc
  rw [heq, ok_pure] at h
  obtain ⟨rfl, rfl⟩ := h
  exact ⟨terminated_of_ne hu hx, hlt⟩

theorem scan_onward (q : UInt8) (e : JsonErr) (hc : Terminated c) : Onward c (scan q e c) := by
  fun_induction scan q e c with
  | case1 => exact onward_fault
  | case2 => exact onward_throw
  | case3 r h0 => exact onward_pure (terminated_of_ne hc h0) (Nat.le_succ _)
  | case4 => exact onward_fault
  | case5 y r h0 hq ih =>
    rcases terminated_cons.1 (terminated_of_ne hc h0) with ⟨-, rfl⟩ | ⟨-, hr⟩
    · exact onward_fault
    · exact ((ih hr).map fun raw => 92 :: y :: raw).mono (by simp; omega)
  | case6 x r h0 hq hb ih =>
    exact ((ih (terminated_of_ne hc h0)).map fun raw => x :: raw).mono (Nat.le_succ _)

theorem string_scan_onward (q : UInt8) (hc : Terminated c) : Onward c (string_scan q c) := by
  intro raw r hok
  obtain ⟨_, -, hok⟩ := ok_bind.1 hok
  exact scan_onward q _ hc raw r hok

theorem parse_key_onward (hc : Terminated c) : Onward c (parse_key c) := by
  refine (scan_onward 34 .INVALID_CHAR hc).bind fun name r _ hr => ?_
  obtain ⟨x, u, heq, hu, hlt⟩ := next_char_eq hr
  simp only [heq, pure_bind]
  split
  · rename_i hx
    exact onward_pure (terminated_of_ne hu (by rw [hx]; decide)) hlt.le
  · exact onward_throw

/-! ## Numbers and keywords -/

theorem terminated_append {s : Bytes} (h : Terminated (s ++ r)) (hr : r ≠ []) : Terminated r := by
  induction s with
  | nil => exact h
  | cons x s ih =>
    rcases terminated_cons.1 h with ⟨-, hnil⟩ | ⟨-, h⟩
    · exact absurd (append_eq_nil_iff.1 hnil).2 hr
    · exact ih h

theorem parse_number_onward (hc : Terminated c) : Onward c (parse_number c) := by
  intro num r hok
  cases parse_number_ok_iff.1 hok with
  | integer => exact ⟨terminated_append hc (by simp), by simp⟩
  | text => exact ⟨terminated_append hc (by simp), by rw [length_append]; omega⟩

theorem number_tail_eq (has_e : Bool) (hc : Terminated c) :
    ∃ tail y v, number_tail has_e c = pure (tail, y :: v) ∧
      ∀ s r, c = s ++ r → Tail has_e s → s.length ≤ tail.length := by
  fun_induction number_tail has_e c with
  | case1 => exact absurd hc not_terminated_nil
  | case2 has_e x c hx ih =>
    obtain ⟨tail, y, v, heq, hmax⟩ := ih (terminated_of_ne hc (by rintro rfl; revert hx; decide))
    refine ⟨x :: tail, y, v, by rw [heq, pure_bind], fun s r hs htail => ?_⟩
    cases s with
    | nil => exact Nat.zero_le _
    | cons y s =>
      rw [cons_append, List.cons.injEq] at hs
      obtain ⟨rfl, hs⟩ := hs
      rcases number_tail_cons.1 htail with ⟨-, htail⟩ | ⟨he, -⟩
      · exact Nat.succ_le_succ (hmax s r hs htail)
      · simp [not_exponent_of_digit hx] at he
  | case3 has_e x c hx he ih =>
    obtain ⟨tail, y, v, heq, hmax⟩ := ih (terminated_of_ne hc (by rintro rfl; revert he; simp))
    refine ⟨x :: tail, y, v, by rw [heq, pure_bind], fun s r hs htail => ?_⟩
    cases s with
    | nil => exact Nat.zero_le _
    | cons y s =>
      rw [cons_append, List.cons.injEq] at hs
      obtain ⟨rfl, hs⟩ := hs
      rcases number_tail_cons.1 htail with ⟨hd, -⟩ | ⟨-, -, htail⟩
      · exact absurd hd hx
      · exact Nat.succ_le_succ (hmax s r hs htail)
  | case4 has_e x c hx he =>
    refine ⟨[], x, c, rfl, fun s r hs htail => ?_⟩
    cases s with
    | nil => exact Nat.zero_le _
    | cons y s =>
      obtain ⟨rfl, -⟩ := hs
      rcases number_tail_cons.1 htail with ⟨hd, -⟩ | ⟨hexp, rfl, -⟩
      · exact absurd hd hx
      · rw [is_exponent] at hexp
        simp [hexp] at he

/-- The number texts that `c` starts with, behind `seen` and `n` more characters at most, have a
length that is an `int`; so has the copy of one, with its zero. -/
def ShortText (seen : Bytes) (n : Nat) (c : Bytes) : Prop :=
  ∀ ds x s r, c = ds ++ x :: s ++ r → (∀ d ∈ ds, is_digit d = true) → ds.length < n → is_mark x = true →
    Tail (is_exponent x) s → (seen ++ ds ++ x :: s).length < 2 ^ 31 ∧
      ∀ y r', r = y :: r' → is_number_end y = true → (seen ++ ds ++ x :: s).length + 1 < 2 ^ 31

theorem not_mark_of_digit (h : is_digit x = true) : is_mark x = false := by
  by_contra hmark
  simp only [is_mark, Bool.not_eq_false, Bool.or_eq_true, decide_eq_true_eq] at hmark
  rcases hmark with (((rfl | rfl) | rfl) | rfl) | rfl <;> exact absurd h (by decide)

theorem shortText_digit (hx : is_digit x = true) :
    ShortText seen (n + 1) (x :: c) ↔ ShortText (seen ++ [x]) n c := by
  constructor
  · intro h ds z s r hc hds hlt hz hs
    have hsplit := h (x :: ds) z s r (by rw [hc]; rfl) (by simpa [hx] using hds) (Nat.succ_lt_succ hlt) hz hs
    simpa using hsplit
  · intro h ds z s r hc hds hlt hz hs
    cases ds with
    | nil =>
      rw [nil_append, cons_append, List.cons.injEq] at hc
      rw [← hc.1, not_mark_of_digit hx] at hz
      cases hz
    | cons d ds =>
      rw [cons_append, cons_append, List.cons.injEq] at hc
      obtain ⟨rfl, hc⟩ := hc
      have hsplit := h ds z s r hc (fun y hy => hds y (by simp [hy])) (Nat.lt_of_succ_lt_succ hlt) hz hs
      simpa using hsplit

theorem shortText_other (hx : is_digit x = false) (hm : is_mark x = false) :
    ShortText seen n (x :: c) := by
  intro ds z s r hc hds hlt hz hs
  cases ds with
  | nil =>
    rw [nil_append, cons_append, List.cons.injEq] at hc
    rw [← hc.1, hm] at hz
    cases hz
  | cons d ds =>
    rw [cons_append, cons_append, List.cons.injEq] at hc
    have hd := hds d (by simp)
    rw [← hc.1, hx] at hd
    cases hd

theorem shortText_mark {y : UInt8} {tail v : Bytes} (hx : is_digit x = false)
    (hm : is_mark x = true) (heq : number_tail (is_exponent x) c = pure (tail, y :: v))
    (hmax : ∀ s r, c = s ++ r → Tail (is_exponent x) s → s.length ≤ tail.length) :
    ShortText seen (n + 1) (x :: c) ↔ (seen ++ x :: tail).length < 2 ^ 31 ∧
      (is_number_end y = true → (seen ++ x :: tail).length + 1 < 2 ^ 31) := by
  obtain ⟨hc, htail⟩ := number_tail_sound (by
    rw [heq, ok_pure])
  constructor
  · intro h
    have hsplit := h [] x tail (y :: v) (by rw [hc]; rfl) (by simp) (Nat.succ_pos n) hm htail
    rw [append_nil] at hsplit
    exact ⟨hsplit.1, hsplit.2 y v rfl⟩
  · rintro ⟨hlen, hend⟩ ds z s r hsplit hds - hz hs
    cases ds with
    | nil =>
      rw [nil_append, cons_append, List.cons.injEq] at hsplit
      obtain ⟨rfl, hsplit⟩ := hsplit
      have hle := hmax s r hsplit hs
      rw [length_append, length_cons] at hlen
      rw [append_nil, length_append, length_cons]
      refine ⟨by omega, fun y' r' hr hy' => ?_⟩
      -- where a number may end, the text is the whole one
      have hwhole := number_tail_complete r' hs hy'
      rw [← hr, ← hsplit, heq, hr] at hwhole
      have hsame : (tail, y :: v) = (s, y' :: r') :=
        ok_pure.1 (by rw [hwhole, ok_pure])
      obtain ⟨rfl, rfl, -⟩ := hsame
      have hlen := hend hy'
      rwa [length_append] at hlen
    | cons d ds =>
      rw [cons_append, cons_append, List.cons.injEq] at hsplit
      have hd := hds d (by simp)
      rw [← hsplit.1, hx] at hd
      cases hd

theorem number_loop_safe_iff (n value : Nat) (seen : Bytes) (hc : Terminated c) :
    (number_loop n value seen c).safe ↔ ShortText seen n c := by
  induction n generalizing value seen c with
  | zero =>
    refine iff_of_true ?_ fun ds _ _ _ _ _ hlt => absurd hlt (Nat.not_lt_zero _)
    cases c <;> exact faultsIn_throw
  | succ n ih =>
    cases c with
    | nil => exact absurd hc not_terminated_nil
    | cons x c =>
      rw [number_loop]
      by_cases hx : is_digit x = true
      · rw [if_pos hx, shortText_digit hx]
        exact ih _ _ (terminated_of_ne hc (by rintro rfl; revert hx; decide))
      rw [if_neg hx]
      have hx : is_digit x = false := by simpa using hx
      by_cases hm : is_mark x = true
      · have hterm := terminated_of_ne hc (by rintro rfl; revert hm; decide)
        obtain ⟨tail, y, v, heq, hmax⟩ := number_tail_eq (is_exponent x) hterm
        rw [shortText_mark hx hm heq hmax]
        rw [is_mark] at hm
        rw [is_exponent] at heq
        rw [if_pos hm, heq]
        by_cases hy : is_number_end y = true
        · simp [hy]
          omega
        · simp [hy]
      · have hm : is_mark x = false := by simpa using hm
        refine iff_of_true ?_ (shortText_other hx hm)
        rw [is_mark] at hm
        rw [if_neg (by simp [hm])]
        split
        · exact faultsIn_pure
        · exact faultsIn_throw

theorem strncmp_eq_safe (hc : Terminated c) (hlit : 0 ∉ lit) :
    (strncmp_eq c lit).safe ∧ ((strncmp_eq c lit).ok true → Terminated (c.drop lit.length)) := by
  induction lit generalizing c with
  | nil => exact ⟨by simp [strncmp_eq], fun _ => hc⟩
  | cons y lit ih =>
    cases c with
    | nil => exact absurd hc not_terminated_nil
    | cons x r =>
      rw [mem_cons, not_or] at hlit
      rw [strncmp_eq]
      split
      · rename_i hx
        exact ih (terminated_of_ne hc (hx ▸ Ne.symm hlit.1)) hlit.2
      · exact ⟨faultsIn_pure, fun h => by simp at h⟩

theorem read_keyword_safe (t : Tok) (hc : Terminated c) (hlit : 0 ∉ lit) :
    (read_keyword c lit t).safe ∧ Onward c (read_keyword c lit t) := by
  obtain ⟨hsafe, hdrop⟩ := strncmp_eq_safe hc hlit
  constructor
  · refine faultsIn_bind.2 ⟨hsafe, fun b _ => ?_⟩
    split
    · exact faultsIn_pure
    · exact faultsIn_throw
  · intro a r hok
    rw [read_keyword, ok_bind] at hok
    obtain ⟨b, hb, hok⟩ := hok
    cases b with
    | false => simp at hok
    | true =>
      rw [if_pos rfl, ok_pure, Prod.mk.injEq] at hok
      rw [← hok.2]
      exact ⟨hdrop hb, by rw [length_drop]; omega⟩

/-! ## A text of the grammar is read -/

theorem fuel_succ {fuel : Nat} (hc : Terminated c) (hfuel : c.length ≤ fuel) : ∃ f, fuel = f + 1 := by
  cases fuel with
  | zero =>
    rw [length_eq_zero_iff.1 (Nat.le_zero.1 hfuel)] at hc
    exact absurd hc not_terminated_nil
  | succ f => exact ⟨f, rfl⟩

section
variable {w : Bytes} (hw : Terminated w) {loop : Bytes → JsonRun (α × Bytes)} {g : α → β} {stop : UInt8} {z : β} {e : JsonErr}
include hw

/-- Behind a value: a comma and the rest of the loop, or the end. -/
def comma_or (loop : Bytes → JsonRun (α × Bytes)) (g : α → β) (stop : UInt8) (z : β) (e : JsonErr) (w : Bytes) :
    JsonRun (β × Bytes) := next_char w >>= fun p =>
  if p.1 = 44 then loop p.2 >>= fun s => pure (g s.1, s.2) else if p.1 = stop then pure (z, p.2) else throw e

theorem comma_onward (hloop : ∀ d, Terminated d → Onward d (loop d)) (hstop : stop ≠ 0) :
    Onward w (comma_or loop g stop z e w) := by
  unfold comma_or
  obtain ⟨y, d, heq, hd, hlt⟩ := next_char_eq hw
  rw [heq, pure_bind]
  dsimp only
  split
  · rename_i hy
    exact ((hloop d (terminated_of_ne hd (by rw [hy]; decide))).map g).mono hlt.le
  split
  · rename_i hy
    exact onward_pure (terminated_of_ne hd (by rwa [hy])) hlt.le
  · exact onward_throw

theorem comma_safe_iff : safe (comma_or loop g stop z e w) ↔ ∀ d, (next_char w).ok (44, d) → (loop d).safe := by
  obtain ⟨y, d, heq, -⟩ := next_char_eq hw
  rw [comma_or, heq, pure_bind]
  by_cases hy : y = 44
  · simp [hy]
  · refine iff_of_true ?_ fun d hd => ?_
    · rw [if_neg hy]
      split
      · exact faultsIn_pure
      · exact faultsIn_throw
    · rw [ok_pure, Prod.mk.injEq] at hd
      exact absurd hd.1 hy

end

section Children
variable {read : Bytes → JsonRun (Tok × Bytes)} {value : Bytes → Tok → Bytes → Prop}
  (honward : ∀ c, Terminated c → Onward c (read c))
include honward

variable {c r : Bytes} {fuel : Nat}

theorem read_members_onward (fuel : Nat) (hc : Terminated c) : Onward c (read_members read fuel c) := by
  induction fuel generalizing c with
  | zero => exact onward_fault
  | succ fuel ih =>
    obtain ⟨x, r, heq, hr, hlt⟩ := next_char_eq hc
    rw [read_members, heq, pure_bind]
    dsimp only
    by_cases hx : x = 34
    · rw [if_pos hx]
      have hr : Terminated r := terminated_of_ne hr (by rw [hx]; decide)
      refine ((parse_key_onward hr).bind fun key v _ hv => ((honward v hv).bind fun t w _ hw => ?_)).mono hlt.le
      exact comma_onward hw (g := ((key, t) :: ·)) (fun _ => ih) (by decide)
    rw [if_neg hx]
    split
    · rename_i hx
      exact onward_pure (terminated_of_ne hr (by rw [hx]; decide)) hlt.le
    · exact onward_throw

theorem read_elements_onward (fuel : Nat) (hc : Terminated c) : Onward c (read_elements read fuel c) := by
  induction fuel generalizing c with
  | zero => exact onward_fault
  | succ fuel ih =>
    exact (honward c hc).bind fun t w _ hw => comma_onward hw (g := (t :: ·)) (fun _ => ih) (by decide)

theorem read_members_complete (hread : ∀ c t r, Terminated c → value c t r → (read c).ok (t, r)) {ps : List (Nat × Tok)}
    (hc : Terminated c) (hfuel : c.length ≤ fuel) (h : Members value c ps r) :
    (read_members read fuel c).ok (ps, r) := by
  -- a name is read, and the value behind it
  have hmember : ∀ {c name v w : Bytes} {t : Tok}, Terminated c → Name c name v → value v t w →
      ∃ k, (next_char c).ok (34, k) ∧ (parse_key k).ok (keyn name, v) ∧ (read v).ok (t, w) ∧
        Terminated w ∧ w.length < c.length := by
    intro c name v w t hc hname hw
    obtain ⟨k, hk, hv⟩ := name_ok_iff.2 ⟨name, hname, rfl⟩
    have hk' := next_char_onward hc hk (by decide)
    have hv' := parse_key_onward hk'.1 _ _ hv
    have hw := hread v t w hv'.1 hw
    have hw' := honward v hv'.1 t w hw
    exact ⟨k, hk, hv, hw, hw'.1, by omega⟩
  induction h generalizing fuel with
  | done hr =>
    obtain ⟨f, rfl⟩ := fuel_succ hc hfuel
    rw [read_members, ok_bind]
    exact ⟨(125, _), next_char_ok_iff.2 hr, by simp⟩
  | last hname hw hr =>
    obtain ⟨f, rfl⟩ := fuel_succ hc hfuel
    obtain ⟨k, hk, hv, hw, -⟩ := hmember hc hname hw
    rw [read_members, ok_bind]
    refine ⟨(34, k), hk, ok_bind.2 ⟨_, hv, ok_bind.2 ⟨_, hw, ?_⟩⟩⟩
    exact ok_bind.2 ⟨(125, _), next_char_ok_iff.2 hr, by simp⟩
  | more hname hw hd _ ih =>
    obtain ⟨f, rfl⟩ := fuel_succ hc hfuel
    obtain ⟨k, hk, hv, hw, hterm, hlt⟩ := hmember hc hname hw
    have hd := next_char_ok_iff.2 hd
    have hd' := next_char_onward hterm hd (by decide)
    rw [read_members, ok_bind]
    refine ⟨(34, k), hk, ok_bind.2 ⟨_, hv, ok_bind.2 ⟨_, hw, ?_⟩⟩⟩
    refine ok_bind.2 ⟨(44, _), hd, ok_bind.2 ⟨_, ih hd'.1 (by omega), ?_⟩⟩
    simp

theorem read_elements_complete (hread : ∀ c t r, Terminated c → value c t r → (read c).ok (t, r)) {ts : List Tok}
    (hc : Terminated c) (hfuel : c.length ≤ fuel) (h : Elements value c ts r) :
    (read_elements read fuel c).ok (ts, r) := by
  induction h generalizing fuel with
  | last hw hr =>
    obtain ⟨f, rfl⟩ := fuel_succ hc hfuel
    rw [read_elements, ok_bind]
    refine ⟨_, hread _ _ _ hc hw, ?_⟩
    exact ok_bind.2 ⟨(93, _), next_char_ok_iff.2 hr, by simp⟩
  | more hw hd _ ih =>
    obtain ⟨f, rfl⟩ := fuel_succ hc hfuel
    have hw := hread _ _ _ hc hw
    have hw' := honward _ hc _ _ hw
    have hd := next_char_ok_iff.2 hd
    have hd' := next_char_onward hw'.1 hd (by decide)
    rw [read_elements, ok_bind]
    refine ⟨_, hw, ok_bind.2 ⟨(44, _), hd, ok_bind.2 ⟨_, ih hd'.1 (by omega), ?_⟩⟩⟩
    simp

end Children

theorem read_value_onward (left : Nat) (c : Bytes) (hc : Terminated c) : Onward c (read_value left c) := by
  induction left generalizing c with
  | zero => exact onward_throw
  | succ left ih =>
    obtain ⟨x, r, heq, hx, hlt⟩ := next_char_eq hc
    rw [read_value, heq, pure_bind]
    dsimp only
    by_cases h0 : x = 0
    · rw [if_pos h0]
      exact onward_throw
    have hr := terminated_of_ne hx h0
    rw [if_neg h0]
    split
    · exact ((read_members_onward ih _ hr).map fun ps => Tok.object (x :: r) ps).mono hlt.le
    split
    · obtain ⟨y, s, heq, hs, hlt'⟩ := next_char_eq hr
      rw [heq, pure_bind]
      dsimp only
      split
      · rename_i hy
        exact onward_pure (terminated_of_ne hs (by rw [hy]; decide)) (by omega)
      · exact ((read_elements_onward ih _ hs).map fun ts => Tok.array (x :: r) ts).mono (by simp; omega)
    split
    · exact ((string_scan_onward x hr).map string_tok).mono hlt.le
    split
    · exact (read_keyword_safe _ hr (by decide)).2.mono hlt.le
    split
    · exact (read_keyword_safe _ hr (by decide)).2.mono hlt.le
    split
    · exact (read_keyword_safe _ hr (by decide)).2.mono hlt.le
    split
    · exact ((parse_number_onward hx).map number_tok).mono hlt
    · exact onward_throw

theorem read_value_complete (left : Nat) (c : Bytes) (t : Tok) (r : Bytes) (hc : Terminated c) (h : Value left c t r) :
    (read_value left c).ok (t, r) := by
  induction left generalizing c t r with
  | zero => exact absurd h id
  | succ left ih =>
    obtain ⟨x, s, hx, hbody⟩ := h
    have hx' := next_char_ok_iff.2 hx
    rw [read_value, ok_bind]
    refine ⟨(x, s), hx', ?_⟩
    have hs : x ≠ 0 → Terminated s := fun h0 => (next_char_onward hc hx' h0).1
    cases hbody with
    | object hps =>
      have hps := read_members_complete (read_value_onward left) ih (hs (by decide)) (Nat.le_succ _) hps
      exact ok_bind.2 ⟨_, hps, by simp⟩
    | empty hr => exact ok_bind.2 ⟨_, next_char_ok_iff.2 hr, by simp⟩
    | array hts =>
      obtain ⟨y, u, heq, hu, -⟩ := next_char_eq (hs (by decide))
      have hy : (next_char s).ok (y, u) := by rw [heq, ok_pure]
      have hlead := next_char_ok_iff.1 hy
      have hne : y ≠ 93 := by
        cases hts with
        | last hw => exact value_head_ne hlead hw
        | more hw => exact value_head_ne hlead hw
      have hts := (elements_leads_iff hlead).2 hts
      have hts := read_elements_complete (read_value_onward left) ih hu le_rfl hts
      refine ok_bind.2 ⟨_, hy, ?_⟩
      dsimp only
      rw [if_neg hne]
      exact ok_bind.2 ⟨_, hts, by simp⟩
    | string hq hchars hcount =>
      have hraw := (string_scan_ok_iff hq (r := r)).2 ⟨rfl, hchars, hcount⟩
      rcases hq with rfl | rfl
      · exact ok_bind.2 ⟨_, hraw, by simp⟩
      · exact ok_bind.2 ⟨_, hraw, by simp⟩
    | true => exact read_keyword_ok_iff.2 ⟨rfl, rfl⟩
    | false => exact read_keyword_ok_iff.2 ⟨rfl, rfl⟩
    | null => exact read_keyword_ok_iff.2 ⟨rfl, rfl⟩
    | number hx hnum =>
      have hne : x ≠ 0 ∧ x ≠ 123 ∧ x ≠ 91 ∧ x ≠ 34 ∧ x ≠ 39 ∧ x ≠ 116 ∧ x ≠ 102 ∧ x ≠ 110 := by
        refine ⟨?_, ?_, ?_, ?_, ?_, ?_, ?_, ?_⟩ <;>
          (rintro rfl
           exact absurd hx (by decide))
      have hx : (is_digit x || x = 43 || x = 45) = true := by simpa [or_assoc] using hx
      simp only [hne, if_pos hx]
      exact ok_bind.2 ⟨_, parse_number_ok_iff.2 hnum, by simp⟩

theorem read_value_ok_iff {t : Tok} (hc : Terminated c) :
    (read_value left c).ok (t, r) ↔ Value left c t r :=
  ⟨read_value_sound left c t r, read_value_complete left c t r hc⟩

/-! ## Where a scan leaves the text -/

/-- The text ends behind a backslash before the quote `q` comes; `escaped` says whether
the first character is behind a backslash. -/
def open_escape (q : UInt8) : Bool → Bytes → Bool
  | _, [] => false
  | true, x :: r => x = 0 || open_escape q false r
  | false, x :: r => if x = 0 || x = q then false else open_escape q (x = 92) r

theorem scan_safe_iff (q : UInt8) (e : JsonErr) (hc : Terminated c) :
    (scan q e c).safe ↔ open_escape q false c = false := by
  fun_induction scan q e c with
  | case1 => exact absurd hc not_terminated_nil
  | case2 => simp [open_escape]
  | case3 => simp [open_escape]
  | case4 h0 hq => exact absurd (terminated_of_ne hc h0) not_terminated_nil
  | case5 y r h0 hq ih =>
    -- the character behind the backslash is the zero, or the text goes on behind it
    have hy := terminated_of_ne hc h0
    rw [open_escape.eq_3, if_neg (by simp [hq]), decide_eq_true rfl, open_escape.eq_2]
    rcases terminated_cons.1 hy with ⟨rfl, rfl⟩ | ⟨hy, hr⟩
    · simp [scan]
    · simp [hy, ih hr]
  | case6 x r h0 hq hb ih =>
    rw [open_escape.eq_3, if_neg (by simp [h0, hq]), decide_eq_false hb]
    simp [ih (terminated_of_ne hc h0)]

theorem parse_key_safe_iff (hc : Terminated c) : (parse_key c).safe ↔ open_escape 34 false c = false := by
  rw [← scan_safe_iff 34 .INVALID_CHAR hc, parse_key, safe, faultsIn_bind]
  refine ⟨And.left, fun h => ⟨h, ?_⟩⟩
  rintro ⟨name, r⟩ hok
  obtain ⟨x, u, heq, -⟩ := next_char_eq (scan_onward 34 .INVALID_CHAR hc name r hok).1
  simp only [heq, pure_bind]
  split
  · exact faultsIn_pure
  · exact faultsIn_throw

/-! ## Where a scan begins -/

/-- What is scanned: a name, a string between the quotes `q`, or a number. -/
inductive Scan where
  | name
  | string (q : UInt8)
  | number
  deriving DecidableEq, Repr

/-- The scan of the text from `u` on stays inside, and what it counts fits an `int`. -/
def Scan.Closed (u : Bytes) : Scan → Prop
  | .name => open_escape 34 false u = false
  | .string q => open_escape q false u = false ∧ escape_count q false u < 2 ^ 31
  | .number => ShortText [] 21 u

theorem string_scan_safe_iff (q : UInt8) (hc : Terminated c) :
    (string_scan q c).safe ↔ (Scan.string q).Closed c := by
  rw [string_scan, safe_bind, Scan.Closed, ← scan_safe_iff q .END_OF_STRING hc]
  constructor
  · rintro ⟨hcount, hscan⟩
    have hcount : escape_count q false c < 2 ^ 31 := by simpa using hcount
    exact ⟨hscan () (by simpa using hcount), hcount⟩
  · rintro ⟨hscan, hcount⟩
    exact ⟨by simpa using hcount, fun _ _ => hscan⟩

section Children
variable (value : Bytes → Tok → Bytes → Prop) (begins : Bytes → Scan → Bytes → Prop)

/-- Among the properties, from `c` on, a scan begins at `u`: it is a name, it is in a value,
or it is behind the first value. -/
inductive MemberBegins : Bytes → Scan → Bytes → Prop
  | name {c u : Bytes} : Leads c 34 u → MemberBegins c .name u
  | value {c name v u : Bytes} {k : Scan} : Name c name v → begins v k u → MemberBegins c k u
  | next {c name v w d u : Bytes} {k : Scan} {t : Tok} : Name c name v → value v t w → Leads w 44 d →
    MemberBegins d k u → MemberBegins c k u

/-- Likewise among the elements. -/
inductive ElementBegins : Bytes → Scan → Bytes → Prop
  | value {c u : Bytes} {k : Scan} : begins c k u → ElementBegins c k u
  | next {c w d u : Bytes} {k : Scan} {t : Tok} : value c t w → Leads w 44 d → ElementBegins d k u →
    ElementBegins c k u

end Children

/-- In the value at the start of `c`, a scan begins at `u`. The value itself may be broken
from there on. -/
def Begins : Nat → Bytes → Scan → Bytes → Prop
  | 0, _, _, _ => False
  | left + 1, c, k, u => ∃ x r, Leads c x r ∧
    ((x = 34 ∨ x = 39) ∧ k = .string x ∧ u = r ∨
      (is_digit x = true ∨ x = 43 ∨ x = 45) ∧ k = .number ∧ u = x :: r ∨
      x = 123 ∧ MemberBegins (Value left) (Begins left) r k u ∨
      x = 91 ∧ ElementBegins (Value left) (Begins left) r k u)

section Children
variable {read : Bytes → JsonRun (Tok × Bytes)} {value : Bytes → Tok → Bytes → Prop} {begins : Bytes → Scan → Bytes → Prop}
  (honward : ∀ c, Terminated c → Onward c (read c)) (hread : ∀ c t r, Terminated c → ((read c).ok (t, r) ↔ value c t r))
  (hsafe : ∀ c, Terminated c → ((read c).safe ↔ ∀ k u, begins c k u → k.Closed u))
include honward hread hsafe

variable {c : Bytes}

/-- The loop over the elements stays inside the text when its scans do. The bound of the
loop is not reached: every round reads a comma. -/
theorem read_elements_safe_iff (fuel : Nat) (hc : Terminated c) (hfuel : c.length ≤ fuel) :
    (read_elements read fuel c).safe ↔ ∀ k u, ElementBegins value begins c k u → k.Closed u := by
  induction fuel generalizing c with
  | zero => exact absurd (fuel_succ hc hfuel) (by simp)
  | succ fuel ih =>
    have hround : (read_elements read (fuel + 1) c).safe ↔ (read c).safe ∧
        ∀ t w, (read c).ok (t, w) → ∀ d, (next_char w).ok (44, d) → (read_elements read fuel d).safe := by
      rw [read_elements, safe_bind]
      refine and_congr_right fun _ => ⟨fun h t w hw => ?_, ?_⟩
      · exact (comma_safe_iff (honward c hc t w hw).1 (g := (t :: ·))).1 (h (t, w) hw)
      · rintro h ⟨t, w⟩ hw
        exact (comma_safe_iff (honward c hc t w hw).1 (g := (t :: ·))).2 (h t w hw)
    -- a comma leaves less than the bound
    have hnext : ∀ t w d, (read c).ok (t, w) → (next_char w).ok (44, d) → ((read_elements read fuel d).safe ↔
        ∀ k u, ElementBegins value begins d k u → k.Closed u) := by
      intro t w d hw hd
      have hw := honward c hc t w hw
      have hd := next_char_onward hw.1 hd (by decide)
      exact ih hd.1 (by omega)
    rw [hround, hsafe c hc]
    constructor
    · rintro ⟨hvalue, hloop⟩ k u hb
      cases hb with
      | value hb => exact hvalue k u hb
      | next hw hd hb =>
        have hw := (hread c _ _ hc).2 hw
        have hd := next_char_ok_iff.2 hd
        exact (hnext _ _ _ hw hd).1 (hloop _ _ hw _ hd) k u hb
    · intro h
      refine ⟨fun k u hb => h k u (.value hb), fun t w hw d hd => (hnext t w d hw hd).2 fun k u hb => ?_⟩
      exact h k u (.next ((hread c t w hc).1 hw) (next_char_ok_iff.1 hd) hb)

theorem read_members_safe_iff (fuel : Nat) (hc : Terminated c) (hfuel : c.length ≤ fuel) :
    (read_members read fuel c).safe ↔ ∀ k u, MemberBegins value begins c k u → k.Closed u := by
  induction fuel generalizing c with
  | zero => exact absurd (fuel_succ hc hfuel) (by simp)
  | succ fuel ih =>
    obtain ⟨x, r, heq, hr, hlt⟩ := next_char_eq hc
    have hlead : Leads c x r := next_char_ok_iff.1 (by rw [heq, ok_pure])
    by_cases hx : x = 34
    · subst hx
      have hr : Terminated r := terminated_of_ne hr (by decide)
      have hround : (read_members read (fuel + 1) c).safe ↔ (parse_key r).safe ∧
          ∀ key v, (parse_key r).ok (key, v) → (read v).safe ∧
            ∀ t w, (read v).ok (t, w) → ∀ d, (next_char w).ok (44, d) → (read_members read fuel d).safe := by
        rw [read_members, heq, pure_bind]
        dsimp only
        rw [if_pos rfl, safe_bind]
        refine and_congr_right fun _ => ⟨fun h key v hv => ?_, ?_⟩
        · obtain ⟨hsafe, hcomma⟩ := safe_bind.1 (h (key, v) hv)
          have hv := (parse_key_onward hr key v hv).1
          exact ⟨hsafe, fun t w hw =>
            (comma_safe_iff (honward v hv t w hw).1 (g := ((key, t) :: ·))).1 (hcomma (t, w) hw)⟩
        · rintro h ⟨key, v⟩ hv
          obtain ⟨hsafe, hcomma⟩ := h key v hv
          have hv := (parse_key_onward hr key v hv).1
          refine safe_bind.2 ⟨hsafe, ?_⟩
          rintro ⟨t, w⟩ hw
          exact (comma_safe_iff (honward v hv t w hw).1 (g := ((key, t) :: ·))).2 (hcomma t w hw)
      have hnext : ∀ key v t w d, (parse_key r).ok (key, v) → (read v).ok (t, w) → (next_char w).ok (44, d) →
          ((read_members read fuel d).safe ↔
            ∀ k u, MemberBegins value begins d k u → k.Closed u) := by
        intro key v t w d hv hw hd
        have hv := parse_key_onward hr key v hv
        have hw := honward v hv.1 t w hw
        have hd := next_char_onward hw.1 hd (by decide)
        exact ih hd.1 (by omega)
      have hquote : (next_char c).ok (34, r) := by rw [heq, ok_pure]
      have hkey : ∀ name v, Name c name v → (parse_key r).ok (keyn name, v) ∧ Terminated v := by
        intro name v hname
        obtain ⟨k, hk, hv⟩ := name_ok_iff.2 ⟨name, hname, rfl⟩
        obtain ⟨-, rfl⟩ := leads_unique hlead (next_char_ok_iff.1 hk)
        exact ⟨hv, (parse_key_onward hr _ _ hv).1⟩
      rw [hround, parse_key_safe_iff hr]
      constructor
      · rintro ⟨hopen, h⟩ k u hb
        cases hb with
        | name hu =>
          obtain ⟨-, rfl⟩ := leads_unique hlead hu
          exact hopen
        | value hname hb =>
          obtain ⟨hv, hterm⟩ := hkey _ _ hname
          exact (hsafe _ hterm).1 (h _ _ hv).1 k u hb
        | next hname hw hd hb =>
          obtain ⟨hv, hterm⟩ := hkey _ _ hname
          have hw := (hread _ _ _ hterm).2 hw
          have hd := next_char_ok_iff.2 hd
          exact (hnext _ _ _ _ _ hv hw hd).1 ((h _ _ hv).2 _ _ hw _ hd) k u hb
      · intro h
        refine ⟨h .name r (.name hlead), fun key v hv => ?_⟩
        obtain ⟨name, hname, -⟩ := name_ok_iff.1 ⟨r, hquote, hv⟩
        have hterm := (parse_key_onward hr key v hv).1
        refine ⟨(hsafe v hterm).2 fun k u hb => h k u (.value hname hb), fun t w hw d hd => ?_⟩
        refine (hnext key v t w d hv hw hd).2 fun k u hb => ?_
        exact h k u (.next hname ((hread v t w hterm).1 hw) (next_char_ok_iff.1 hd) hb)
    · -- no name, no scan
      rw [read_members, heq, pure_bind]
      dsimp only
      rw [if_neg hx]
      refine iff_of_true ?_ fun k u hb => ?_
      · split
        · exact faultsIn_pure
        · exact faultsIn_throw
      · cases hb with
        | name hu => exact absurd (leads_unique hlead hu).1 hx
        | value hname => exact absurd (leads_unique hlead hname.choose_spec.1).1 hx
        | next hname => exact absurd (leads_unique hlead hname.choose_spec.1).1 hx

end Children

theorem begins_leads_iff (h : Leads c x r) :
    Begins left (x :: r) k u ↔ Begins left c k u := by
  cases left with
  | zero => exact Iff.rfl
  | succ left => exact leads_again_iff h

theorem elementBegins_leads_iff (h : Leads c x r) :
    ElementBegins (Value left) (Begins left) (x :: r) k u ↔ ElementBegins (Value left) (Begins left) c k u := by
  constructor
  · intro hb
    cases hb with
    | value hb => exact .value ((begins_leads_iff h).1 hb)
    | next hw hd hb => exact .next ((value_leads_iff h).1 hw) hd hb
  · intro hb
    cases hb with
    | value hb => exact .value ((begins_leads_iff h).2 hb)
    | next hw hd hb => exact .next ((value_leads_iff h).2 hw) hd hb

theorem not_elementBegins_empty (h : Leads c 93 r) :
    ¬ ElementBegins (Value left) (Begins left) c k u := by
  intro hb
  cases hb with
  | value hb =>
    cases left with
    | zero => exact hb
    | succ left =>
      have hb := (leads_exists_iff h).1 hb
      simp [is_digit] at hb
  | next hw => exact value_head_ne h hw rfl

theorem begins_iff (hlead : Leads c x r) {P : Scan → Bytes → Prop} :
    (∀ k u, Begins (left + 1) c k u → P k u) ↔
      ((x = 34 ∨ x = 39) → P (.string x) r) ∧
      ((is_digit x = true ∨ x = 43 ∨ x = 45) → P .number (x :: r)) ∧
      (x = 123 → ∀ k u, MemberBegins (Value left) (Begins left) r k u → P k u) ∧
      (x = 91 → ∀ k u, ElementBegins (Value left) (Begins left) r k u → P k u) := by
  constructor
  · intro h
    refine ⟨fun hx => ?_, fun hx => ?_, fun hx k u hb => ?_, fun hx k u hb => ?_⟩
    · exact h (.string x) r ⟨x, r, hlead, .inl ⟨hx, rfl, rfl⟩⟩
    · exact h .number (x :: r) ⟨x, r, hlead, .inr (.inl ⟨hx, rfl, rfl⟩)⟩
    · exact h k u ⟨x, r, hlead, .inr (.inr (.inl ⟨hx, hb⟩))⟩
    · exact h k u ⟨x, r, hlead, .inr (.inr (.inr ⟨hx, hb⟩))⟩
  · rintro ⟨hstring, hnumber, hobject, harray⟩ k u ⟨z, v, hz, hb⟩
    obtain ⟨rfl, rfl⟩ := leads_unique hlead hz
    rcases hb with ⟨hx, rfl, rfl⟩ | ⟨hx, rfl, rfl⟩ | ⟨hx, hb⟩ | ⟨hx, hb⟩
    · exact hstring hx
    · exact hnumber hx
    · exact hobject hx k u hb
    · exact harray hx k u hb

theorem read_value_safe_iff (left : Nat) (c : Bytes) (hc : Terminated c) :
    (read_value left c).safe ↔ ∀ k u, Begins left c k u → k.Closed u := by
  induction left generalizing c with
  | zero => exact iff_of_true faultsIn_throw fun k u h => absurd h id
  | succ left ih =>
    obtain ⟨x, r, heq, hx, -⟩ := next_char_eq hc
    have hlead : Leads c x r := next_char_ok_iff.1 (by rw [heq, ok_pure])
    have hread : ∀ c t r, Terminated c → ((read_value left c).ok (t, r) ↔ Value left c t r) :=
      fun c t r hc => read_value_ok_iff hc
    rw [begins_iff hlead, read_value, heq, pure_bind]
    dsimp only
    by_cases h0 : x = 0
    · simp [h0, is_digit]
    have hr := terminated_of_ne hx h0
    rw [if_neg h0]
    by_cases hobj : x = 123
    · rw [if_pos hobj, ← read_members_safe_iff (read_value_onward left) hread ih (r.length + 1) hr (Nat.le_succ _)]
      simp [hobj, is_digit]
    rw [if_neg hobj]
    by_cases harr : x = 91
    · obtain ⟨y, s, heq, hs, -⟩ := next_char_eq hr
      have hlead : Leads r y s := next_char_ok_iff.1 (by rw [heq, ok_pure])
      have helements := read_elements_safe_iff (read_value_onward left) hread ih (s.length + 1) hs le_rfl
      simp only [elementBegins_leads_iff hlead] at helements
      rw [if_pos harr, heq, pure_bind]
      dsimp only
      by_cases hy : y = 93
      · subst hy
        have hnone := fun k u => @not_elementBegins_empty r s u k left hlead
        simp [harr, hnone, is_digit]
      · rw [if_neg hy]
        simp [harr, helements, is_digit]
    rw [if_neg harr]
    by_cases hstr : (x = 34 || x = 39) = true
    · have hscan := string_scan_safe_iff x hr
      rw [if_pos hstr]
      simp only [Bool.or_eq_true, decide_eq_true_eq] at hstr
      have hnum : ¬ (is_digit x = true ∨ x = 43 ∨ x = 45) := by
        rcases hstr with rfl | rfl <;> decide
      simp [hstr, hscan, hobj, harr, hnum]
    rw [if_neg hstr]
    simp only [Bool.or_eq_true, decide_eq_true_eq] at hstr
    by_cases hnum : is_digit x = true ∨ x = 43 ∨ x = 45
    · have hletter : x ≠ 116 ∧ x ≠ 102 ∧ x ≠ 110 := by
        refine ⟨?_, ?_, ?_⟩ <;>
          (rintro rfl
           exact absurd hnum (by decide))
      have hnumber := number_loop_safe_iff 21 0 [] hx
      rw [if_neg hletter.1, if_neg hletter.2.1, if_neg hletter.2.2, if_pos (by simpa [or_assoc] using hnum), parse_number]
      simp [hstr, hobj, harr, hnum, hnumber, Scan.Closed]
    -- the other values have no scan and stay inside
    refine iff_of_true ?_ ⟨fun h => absurd h hstr, fun h => absurd h hnum, fun h => absurd h hobj, fun h => absurd h harr⟩
    split
    · exact (read_keyword_safe _ hr (by decide)).1
    split
    · exact (read_keyword_safe _ hr (by decide)).1
    split
    · exact (read_keyword_safe _ hr (by decide)).1
    rw [if_neg (by simpa [or_assoc] using hnum)]
    exact faultsIn_throw

/-! ## The parser -/

/-- The parser stays inside the text, with its zero, exactly when no string and no name that
begins in it ends behind a backslash, and the escapes of its strings and the characters of its
numbers can be counted. -/
theorem parse_json_inside_iff (js : Bytes) : (∀ f, ¬ (parse_json js).faults f) ↔
    ∀ k u, Begins (DATA_DEPTH_MAX + 1) (c_str js ++ [0]) k u → k.Closed u := by
  have hread := read_value_safe_iff (DATA_DEPTH_MAX + 1) (c_str js ++ [0]) (terminated_c_str js)
  rw [← hread, parse_json_eq]
  change safe _ ↔ _
  rw [safe_bind]
  exact and_iff_left fun _ _ => faultsIn_pure

/-- A quote and a backslash: the zero is skipped. -/
theorem parse_json_behind : (parse_json [34, 92]).faults .behind := by
  decide

end In3
