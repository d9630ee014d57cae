import In3.Btc.SerializeTheorems
import In3.Btc.Types
import In3.Lib.Reading
/-!
# The parser and the format of a transaction

A reading takes the fields of a transaction off the front of a string: the version, the flag, the
counts with their inputs and outputs, and the lock time. `btc_parse_tx` mirrors it up to the outputs;
it reads outside of the string exactly where the reading is cut, and it does not notice when fewer than
four bytes are left for the lock time.
-/
open Lib Guarded List Region

namespace In3.Btc

/-! ## The reading -/

def readField (w : Nat) (b : Bytes) : Reading Bytes := if b.length < w then throw .cut else return b.take w

def readInt (b : Bytes) : Reading Nat := do return leNat (← readField 4 b)

/-- A number of variable size, and its size. -/
def readVar : Bytes → Reading (Nat × Nat)
  | [] => throw .cut
  | x :: rest =>
    if x = 0xFD then do return (leNat (← readField 2 rest), 3)
    else if x = 0xFE then do return (← readInt rest, 5)
    else if x = 0xFF then do return (long_value (← readField 8 rest), 9)
    else return (x.toNat, 1)

/-- The marker and the flag of a transaction with witnesses. -/
def readFlag : Bytes → Reading Bool
  | [] => throw .cut
  | [x] => if x = 0 then throw .cut else return false
  | x :: y :: _ => if x = 0 then return y = 1 else return false

def inputSize (b : Bytes) : Reading Nat := do
  let _ ← readInt (b.drop 32)
  let (len, n) ← readVar (b.drop 36)
  if b.length < 36 + n + len + 4 then throw .over else return 36 + n + len + 4

/-- The size of some inputs; something must follow each one. -/
def inputsSize : Nat → Bytes → Reading Nat
  | 0, _ => return 0
  | count + 1, b => do
    let s ← inputSize b
    if b.length ≤ s then throw .over
    else
      let t ← inputsSize count (b.drop s)
      return s + t

def outputSize (b : Bytes) : Reading Nat := do
  let _ ← readField 8 b
  let (len, n) ← readVar (b.drop 8)
  if b.length < 8 + n + len then throw .over else return 8 + n + len

def outputsSize : Nat → Bytes → Reading Nat
  | 0, _ => return 0
  | count + 1, b => do
    let s ← outputSize b
    let t ← outputsSize count (b.drop s)
    return s + t

def readParts (tx : Bytes) : Reading ParsedTx := do
  let version ← readInt tx
  let flag ← readFlag (tx.drop 4)
  let head := if flag then 6 else 4
  let (input_count, n) ← readVar (tx.drop head)
  if tx.length ≤ head + n then throw .over
  else
    let inputs ← inputsSize input_count (tx.drop (head + n))
    let (output_count, m) ← readVar (tx.drop (head + n + inputs))
    let outputs ← outputsSize output_count (tx.drop (head + n + inputs + m))
    return {
      version, flag, input_count, output_count
      lock_time := leNat (tx.drop (tx.length - 4))
      input := ⟨head + n, inputs⟩
      output := ⟨head + n + inputs + m, outputs⟩
      witnesses := ⟨head + n + inputs + m + outputs, tx.length - 4 - (head + n + inputs + m + outputs)⟩ }

/-- All of it: four bytes must be left for the lock time. -/
def readTx (tx : Bytes) : Reading ParsedTx := do
  let t ← readParts tx
  if tx.length < t.output.stop + 4 then throw .cut else return t

variable {b tx : Bytes} {count s : Nat} {t : ParsedTx}

theorem readField_eq_ok {w : Nat} {d : Bytes} : readField w b = .ok d ↔ w ≤ b.length ∧ b.take w = d := by
  unfold readField
  by_cases h : b.length < w
  · rw [if_pos h]
    exact iff_of_false (by rintro ⟨⟩) (by omega)
  · rw [if_neg h]
    simp only [pure, Except.pure, Except.ok.injEq]
    exact ⟨fun hd => ⟨by omega, hd⟩, And.right⟩

theorem readInt_eq_ok {v : Nat} : readInt b = .ok v ↔ 4 ≤ b.length ∧ leNat (b.take 4) = v := by
  unfold readInt
  simp only [Reading.bind_eq_ok, readField_eq_ok, pure, Except.pure, Except.ok.injEq]
  exact ⟨by rintro ⟨d, ⟨h, rfl⟩, rfl⟩; exact ⟨h, rfl⟩, by rintro ⟨h, rfl⟩; exact ⟨_, ⟨h, rfl⟩, rfl⟩⟩

theorem readVar_bounds {v n : Nat} (h : readVar b = .ok (v, n)) : v < 2 ^ 32 ∧ 0 < n ∧ n ≤ b.length := by
  have hle : ∀ (c : Bytes) k, k ≤ 4 → leNat (c.take k) < 2 ^ 32 := by
    intro c k hk
    refine lt_of_lt_of_le (leNat_lt _) ?_
    calc 256 ^ (c.take k).length ≤ 256 ^ 4 := Nat.pow_le_pow_right (by norm_num) (by rw [length_take]; omega)
      _ = 2 ^ 32 := by norm_num
  cases b with
  | nil => cases h
  | cons x rest =>
    have hx := x.toNat_lt
    rw [readVar] at h
    split_ifs at h with h1 h2 h3
    · obtain ⟨d, hd, heq⟩ := Reading.bind_eq_ok.1 h
      obtain ⟨hlen, rfl⟩ := readField_eq_ok.1 hd
      cases heq
      exact ⟨hle rest 2 (by omega), by omega, by rw [length_cons]; omega⟩
    · obtain ⟨d, hd, heq⟩ := Reading.bind_eq_ok.1 h
      obtain ⟨hlen, rfl⟩ := readInt_eq_ok.1 hd
      cases heq
      exact ⟨hle rest 4 (by omega), by omega, by rw [length_cons]; omega⟩
    · obtain ⟨d, hd, heq⟩ := Reading.bind_eq_ok.1 h
      obtain ⟨hlen, rfl⟩ := readField_eq_ok.1 hd
      cases heq
      exact ⟨long_value_lt _, by omega, by rw [length_cons]; omega⟩
    · cases h
      exact ⟨by omega, by omega, by rw [length_cons]; omega⟩

structure Parts (tx : Bytes) (t : ParsedTx) (n m : Nat) : Prop where
  version : readInt tx = .ok t.version
  flag : readFlag (tx.drop 4) = .ok t.flag
  input_count : readVar (tx.drop (if t.flag then 6 else 4)) = .ok (t.input_count, n)
  input_start : t.input.start = (if t.flag then 6 else 4) + n
  more : t.input.start < tx.length
  inputs : inputsSize t.input_count (tx.drop t.input.start) = .ok t.input.len
  output_count : readVar (tx.drop t.input.stop) = .ok (t.output_count, m)
  output_start : t.output.start = t.input.stop + m
  outputs : outputsSize t.output_count (tx.drop t.output.start) = .ok t.output.len
  witnesses : t.witnesses = ⟨t.output.stop, tx.length - 4 - t.output.stop⟩
  lock_time : leNat (tx.drop (tx.length - 4)) = t.lock_time

theorem readParts_eq_ok : readParts tx = .ok t ↔ ∃ n m, Parts tx t n m := by
  constructor
  · intro h
    obtain ⟨version, hversion, h⟩ := Reading.bind_eq_ok.1 h
    obtain ⟨flag, hflag, h⟩ := Reading.bind_eq_ok.1 h
    obtain ⟨⟨count, n⟩, hvar, h⟩ := Reading.bind_eq_ok.1 h
    obtain ⟨hmore, h⟩ := Reading.check_eq_ok.1 h
    obtain ⟨inputs, hinputs, h⟩ := Reading.bind_eq_ok.1 h
    obtain ⟨⟨count', m⟩, hvar', h⟩ := Reading.bind_eq_ok.1 h
    obtain ⟨outputs, houtputs, h⟩ := Reading.bind_eq_ok.1 h
    cases h
    exact ⟨n, m, hversion, hflag, hvar, rfl, Nat.lt_of_not_le hmore, hinputs, hvar', rfl, houtputs, rfl, rfl⟩
  · rintro ⟨n, m, h⟩
    obtain ⟨version, flag, input_count, ⟨istart, ilen⟩, output_count, ⟨ostart, olen⟩, witnesses, lock_time⟩ := t
    obtain ⟨hversion, hflag, hvar, hstart, hmore, hinputs, hvar', hstart', houtputs, hwitnesses, hlock⟩ := h
    replace hstart : istart = (if flag then 6 else 4) + n := hstart
    dsimp only at *
    subst hstart hstart' hwitnesses hlock
    refine Reading.bind_eq_ok.2 ⟨_, hversion, Reading.bind_eq_ok.2 ⟨_, hflag, Reading.bind_eq_ok.2 ⟨_, hvar, ?_⟩⟩⟩
    refine Reading.check_eq_ok.2 ⟨Nat.not_le_of_lt hmore, Reading.bind_eq_ok.2 ⟨_, hinputs, Reading.bind_eq_ok.2 ⟨_, hvar', ?_⟩⟩⟩
    exact Reading.bind_eq_ok.2 ⟨_, houtputs, rfl⟩

/-! ## The parser mirrors it -/

section Mirror
variable {e : Err} {data : Bytes}

variable {k : Nat} {off : Int} {tx : Bytes}

theorem mirrors_slice {w : Nat} (hoff : off = k) (hw : 0 < w) :
    Mirrors e (Region.slice data off w : BtcRun Bytes) (readField w (data.drop k)) fun b a => a = b := by
  subst hoff
  unfold readField
  rw [length_drop]
  by_cases hshort : data.length - k < w
  · rw [if_pos hshort]
    exact ⟨.read k data.length, faults_slice.2 ⟨by omega, rfl⟩⟩
  · rw [if_neg hshort]
    exact ⟨_, ok_slice.2 ⟨by omega, by rw [Int.toNat_natCast]⟩, rfl⟩

theorem mirrors_le_to_int (hoff : off = k) :
    Mirrors e (le_to_int data off) (readInt (data.drop k)) fun b a => a = b := by
  refine mirrors_bind (mirrors_slice hoff (by omega)) ?_
  rintro _ d hd rfl
  refine mirrors_pure ?_
  have hlen : d.length = 4 := by
    obtain ⟨hle, rfl⟩ := readField_eq_ok.1 hd
    rw [length_take]
    omega
  match d, hlen with
  | [a, b, c, f], _ => exact le_int_value a b c f

theorem mirrors_le_to_long (hoff : off = k) :
    Mirrors e (le_to_long data off) (readField 8 (data.drop k)) fun b a => a = long_value b := by
  by_cases hshort : (data.drop k).length < 8
  · have hcut : readField 8 (data.drop k) = .error .cut := if_pos hshort
    rw [length_drop] at hshort
    rw [hcut]
    refine ⟨.read off data.length, faults_bind.2 (.inl (faults_slice.2 ⟨by omega, rfl⟩))⟩
  · have hfield : readField 8 (data.drop k) = .ok ((data.drop k).take 8) := if_neg hshort
    rw [length_drop] at hshort
    rw [hfield]
    subst hoff
    exact ⟨_, ok_le_to_long.2 ⟨by omega, by rw [Int.toNat_natCast]⟩, rfl⟩

theorem mirrors_decode (hoff : off = k) :
    Mirrors e (decode_var_int data off) (readVar (data.drop k)) fun b a => a = b := by
  subst hoff
  rcases hdrop : data.drop k with _ | ⟨x, rest⟩
  · have hlen := drop_eq_nil_iff.1 hdrop
    exact ⟨.read k data.length, faults_bind.2 (.inl (faults_byte.2 ⟨by omega, rfl⟩))⟩
  · have hlen := congrArg List.length hdrop
    rw [length_drop, length_cons] at hlen
    have hbyte : ok (Region.byte data k : BtcRun UInt8) x := by
      refine ok_byte.2 ⟨by omega, ?_⟩
      have := congrArg (·.getD 0 0) hdrop
      simpa [getD_eq_getElem?_getD] using this
    have hrest : rest = data.drop (k + 1) := by
      rw [← drop_drop, hdrop]
      rfl
    have hoff : (k : Int) + 1 = (k + 1 : Nat) := by omega
    refine mirrors_of_ok hbyte ?_
    rw [readVar, hrest]
    by_cases hfd : x = 0xFD
    · rw [if_pos hfd, if_pos hfd]
      refine mirrors_bind (mirrors_slice hoff (by omega)) ?_
      rintro _ d hd rfl
      refine mirrors_pure ?_
      have hlen : d.length = 2 := by
        obtain ⟨hle, rfl⟩ := readField_eq_ok.1 hd
        rw [length_take]
        omega
      match d, hlen with
      | [a, b], _ =>
        have ha := a.toNat_lt
        show (b.toNat <<< 8 ||| a.toNat, 3) = (leNat [a, b], 3)
        rw [shift_or (by omega : a.toNat < 2 ^ 8)]
        rfl
    rw [if_neg hfd, if_neg hfd]
    by_cases hfe : x = 0xFE
    · rw [if_pos hfe, if_pos hfe]
      refine mirrors_bind (mirrors_le_to_int hoff) ?_
      rintro _ v hv rfl
      exact mirrors_pure rfl
    rw [if_neg hfe, if_neg hfe]
    by_cases hff : x = 0xFF
    · rw [if_pos hff, if_pos hff]
      refine mirrors_bind (mirrors_le_to_long hoff) ?_
      rintro _ d hd rfl
      exact mirrors_pure rfl
    · rw [if_neg hff, if_neg hff]
      exact mirrors_pure rfl

theorem mirrors_parse_tx_in {γ δ : Type} {p : Nat} {f : Option (ParsedIn × Nat) → BtcRun γ} {g : Nat → Reading δ}
    {Q : δ → γ → Prop} (hnone : f none = throw e)
    (hf : ∀ s t, inputSize (tx.drop p) = .ok s → p + s ≤ tx.length → Mirrors e (f (some (t, p + s))) (g s) Q) :
    Mirrors e (btc_parse_tx_in tx p tx.length >>= f) (inputSize (tx.drop p) >>= g) Q := by
  have hsize : inputSize (tx.drop p) = do
      let _ ← readInt (tx.drop (p + 32))
      let (len, n) ← readVar (tx.drop (p + 36))
      if (tx.drop p).length < 36 + n + len + 4 then throw .over else return 36 + n + len + 4 := by
    unfold inputSize
    rw [drop_drop, drop_drop]
  rw [hsize] at hf ⊢
  unfold btc_parse_tx_in
  simp only [bind_assoc]
  refine mirrors_bind (mirrors_le_to_int (by omega)) ?_
  rintro _ index hindex rfl
  refine mirrors_bind (mirrors_decode (by omega)) ?_
  rintro _ ⟨len, n⟩ hvar rfl
  rw [hindex, hvar] at hf
  replace hf : ∀ s t, (if (tx.drop p).length < 36 + n + len + 4 then throw .over else pure (36 + n + len + 4) : Reading Nat) = .ok s →
      p + s ≤ tx.length → Mirrors e (f (some (t, p + s))) (g s) Q := hf
  obtain ⟨hlen, hn, hfit⟩ := readVar_bounds hvar
  have hstop : (Span.mk (p + 36 + n) (len % 2 ^ 32)).stop = p + (36 + n + len) := by
    show p + 36 + n + len % 2 ^ 32 = _
    omega
  have hcond : tx.length < p + (36 + n + len) + 4 ↔ (tx.drop p).length < 36 + n + len + 4 := by
    rw [length_drop]
    omega
  rw [hstop]
  by_cases hover : (tx.drop p).length < 36 + n + len + 4
  · rw [if_pos (hcond.2 hover), if_pos hover]
    show Mirrors e (f none) (throw .over) Q
    rw [hnone]
    exact mirrors_throw
  · have hin : p + (36 + n + len + 4) ≤ tx.length := by
      omega
    have hseq : ok (le_to_int tx (p + (36 + n + len) : Nat)) _ :=
      ok_le_to_int.2 ⟨⟨by omega, by omega⟩, rfl⟩
    rw [if_neg (fun h => hover (hcond.1 h)), if_neg hover, bind_assoc]
    refine mirrors_of_ok hseq ?_
    exact hf (36 + n + len + 4) _ (by rw [if_neg hover]; rfl) hin

theorem mirrors_parse_inputs (count p : Nat) :
    Mirrors (.ret IN3_EINVAL) (parse_inputs tx count p) (inputsSize count (tx.drop p)) fun t q => q = p + t := by
  induction count generalizing p with
  | zero => exact mirrors_pure rfl
  | succ count ih =>
    refine mirrors_parse_tx_in rfl ?_
    intro s t hs hle
    have hlen : (tx.drop p).length = tx.length - p := length_drop
    show Mirrors _ (if tx.length ≤ p + s then throw _ else parse_inputs tx count (p + s)) _ _
    by_cases hend : (tx.drop p).length ≤ s
    · rw [if_pos (by omega), if_pos hend]
      exact mirrors_throw
    · rw [if_neg (by omega), if_neg hend, drop_drop]
      have hrest := mirrors_bind (f := fun q => pure q) (g := fun u => pure (s + u)) (ih (p + s))
        (Q := fun u q => q = p + u) (fun b a _ hq => mirrors_pure (by omega))
      rwa [bind_pure] at hrest

theorem mirrors_parse_outputs (count p : Nat) :
    Mirrors (.ret IN3_EINVAL) (parse_outputs tx count p) (outputsSize count (tx.drop p)) fun t q => q = p + t := by
  induction count generalizing p with
  | zero => exact mirrors_pure rfl
  | succ count ih =>
    unfold parse_outputs outputsSize btc_parse_tx_out outputSize
    simp only [bind_assoc, drop_drop]
    refine mirrors_bind (mirrors_le_to_long rfl) ?_
    rintro value d hd rfl
    refine mirrors_bind (mirrors_decode (by omega)) ?_
    rintro _ ⟨len, n⟩ hvar rfl
    obtain ⟨hlen, hn, hfit⟩ := readVar_bounds hvar
    have hstop : (Span.mk (p + 8 + n) (len % 2 ^ 32)).stop = p + (8 + n + len) := by
      show p + 8 + n + len % 2 ^ 32 = _
      omega
    have hcond : tx.length < p + (8 + n + len) ↔ (tx.drop p).length < 8 + n + len := by
      rw [length_drop]
      omega
    show Mirrors _ (if tx.length < (Span.mk (p + 8 + n) (len % 2 ^ 32)).stop then throw _ else parse_outputs tx count (Span.mk (p + 8 + n) (len % 2 ^ 32)).stop)
      ((if (tx.drop p).length < 8 + n + len then throw .over else pure (8 + n + len)) >>= _) _
    rw [hstop]
    by_cases hover : (tx.drop p).length < 8 + n + len
    · rw [if_pos (hcond.2 hover), if_pos hover]
      exact mirrors_throw
    · rw [if_neg (fun h => hover (hcond.1 h)), if_neg hover]
      have hrest := mirrors_bind (f := fun q => pure q) (g := fun u => pure (8 + n + len + u)) (ih (p + (8 + n + len)))
        (Q := fun u q => q = p + u) (fun b a _ hq => mirrors_pure (by omega))
      rw [bind_pure] at hrest
      exact hrest

theorem mirrors_is_witness : Mirrors e (btc_is_witness tx) (readFlag (tx.drop 4)) fun b a => a = b := by
  have hbyte : ∀ {k : Nat} {x : UInt8} {rest : Bytes}, tx.drop k = x :: rest → ok (Region.byte tx k : BtcRun UInt8) x := by
    intro k x rest hdrop
    have hlen := congrArg List.length hdrop
    rw [length_drop, length_cons] at hlen
    refine ok_byte.2 ⟨by omega, ?_⟩
    have := congrArg (·.getD 0 0) hdrop
    simpa [getD_eq_getElem?_getD] using this
  have hcut : ∀ {k : Nat} {γ : Type} {f : UInt8 → BtcRun γ}, tx.drop k = [] → ∃ g, Guarded.faults (Region.byte tx k >>= f) g := by
    intro k γ f hdrop
    have hlen := drop_eq_nil_iff.1 hdrop
    exact ⟨.read k tx.length, faults_bind.2 (.inl (faults_byte.2 ⟨by omega, rfl⟩))⟩
  rcases hdrop : tx.drop 4 with _ | ⟨x, rest⟩
  · exact hcut hdrop
  · refine mirrors_of_ok (hbyte hdrop) ?_
    have hrest : tx.drop 5 = rest := by
      rw [show 5 = 4 + 1 by rfl, ← drop_drop, hdrop]
      rfl
    rcases rest with _ | ⟨y, rest⟩
    · rw [readFlag]
      by_cases hx : x = 0
      · rw [if_pos hx, if_pos hx]
        exact hcut hrest
      · rw [if_neg hx, if_neg hx]
        exact mirrors_pure rfl
    · rw [readFlag]
      by_cases hx : x = 0
      · rw [if_pos hx, if_pos hx]
        exact mirrors_of_ok (hbyte hrest) (mirrors_pure rfl)
      · rw [if_neg hx, if_neg hx]
        exact mirrors_pure rfl

/-- What the parser makes of the parts: the length of the witnesses is cut to 32 bits. -/
theorem mirrors_parse_tx (tx : Bytes) :
    Mirrors (.ret IN3_EINVAL) (btc_parse_tx tx) (readParts tx) fun t dst =>
      dst = { t with witnesses := ⟨t.witnesses.start, (((tx.length : Int) - 4 - t.witnesses.start) % 2 ^ 32).toNat⟩ } := by
  refine mirrors_bind (mirrors_le_to_int (k := 0) rfl) ?_
  rintro _ version hversion rfl
  have hfour := (readInt_eq_ok.1 hversion).1
  refine mirrors_bind mirrors_is_witness ?_
  rintro _ flag hflag rfl
  refine mirrors_bind (mirrors_decode rfl) ?_
  rintro _ ⟨val, n⟩ hvar rfl
  have hval : val % 2 ^ 32 = val := Nat.mod_eq_of_lt (readVar_bounds hvar).1
  dsimp only
  generalize (if flag = true then 6 else 4) = head at *
  by_cases hend : tx.length ≤ head + n
  · rw [if_pos hend, if_pos hend]
    exact mirrors_throw
  · rw [if_neg hend, if_neg hend, hval]
    refine mirrors_bind (mirrors_parse_inputs val (head + n)) ?_
    rintro inputs _ - rfl
    refine mirrors_bind (mirrors_decode rfl) ?_
    rintro _ ⟨val', m⟩ hvar' rfl
    have hval' : val' % 2 ^ 32 = val' := Nat.mod_eq_of_lt (readVar_bounds hvar').1
    rw [hval']
    refine mirrors_bind (mirrors_parse_outputs val' (head + n + inputs + m)) ?_
    rintro outputs _ - rfl
    have hlock : ok (le_to_int tx ((tx.length : Int) - 4)) (leNat (tx.drop (tx.length - 4))) := by
      have hoff : ((tx.length : Int) - 4).toNat = tx.length - 4 := by omega
      refine ok_le_to_int.2 ⟨by omega, ?_⟩
      rw [hoff, take_of_length_le (by rw [length_drop]; omega)]
    refine mirrors_of_ok hlock (mirrors_pure ?_)
    simp only [ParsedTx.mk.injEq, Span.mk.injEq, true_and, and_true]
    omega

end Mirror

/-! ## The ranges of the parts -/

def InputsAt (tx : Bytes) : Nat → Nat → Nat → Prop
  | 0, p, q => p = q
  | count + 1, p, q => ∃ s, inputSize (tx.drop p) = .ok s ∧ InputsAt tx count (p + s) q

def OutputsAt (tx : Bytes) : Nat → Nat → Nat → Prop
  | 0, p, q => p = q
  | count + 1, p, q => ∃ s, outputSize (tx.drop p) = .ok s ∧ OutputsAt tx count (p + s) q

/-- The parts follow each other, with the two counts between them, and cover the string. -/
structure Partition (tx : Bytes) (t : ParsedTx) : Prop where
  version : leNat (tx.take 4) = t.version
  flag : readFlag (tx.drop 4) = .ok t.flag
  input_count : ∃ n, readVar (tx.drop (if t.flag then 6 else 4)) = .ok (t.input_count, n) ∧
    t.input.start = (if t.flag then 6 else 4) + n
  inputs : InputsAt tx t.input_count t.input.start t.input.stop
  output_count : ∃ m, readVar (tx.drop t.input.stop) = .ok (t.output_count, m) ∧ t.output.start = t.input.stop + m
  outputs : OutputsAt tx t.output_count t.output.start t.output.stop
  witnesses : t.witnesses.start = t.output.stop
  whole : t.witnesses.stop + 4 = tx.length
  lock_time : leNat (tx.drop t.witnesses.stop) = t.lock_time

theorem inputsAt_of_size {p : Nat} (h : inputsSize count (tx.drop p) = .ok s) : InputsAt tx count p (p + s) := by
  induction count generalizing p s with
  | zero =>
    cases h
    rfl
  | succ count ih =>
    obtain ⟨t, ht, h⟩ := Reading.bind_eq_ok.1 h
    obtain ⟨-, h⟩ := Reading.check_eq_ok.1 h
    obtain ⟨u, hu, heq⟩ := Reading.bind_eq_ok.1 h
    cases heq
    rw [drop_drop] at hu
    exact ⟨t, ht, by rw [← Nat.add_assoc]; exact ih hu⟩

theorem outputsAt_of_size {p : Nat} (h : outputsSize count (tx.drop p) = .ok s) :
    OutputsAt tx count p (p + s) := by
  induction count generalizing p s with
  | zero =>
    cases h
    rfl
  | succ count ih =>
    obtain ⟨t, ht, h⟩ := Reading.bind_eq_ok.1 h
    obtain ⟨u, hu, heq⟩ := Reading.bind_eq_ok.1 h
    cases heq
    rw [drop_drop] at hu
    exact ⟨t, ht, by rw [← Nat.add_assoc]; exact ih hu⟩

theorem partition_of_read (h : readParts tx = .ok t) (hleft : t.output.stop + 4 ≤ tx.length) :
    Partition tx t ∧ t.witnesses = ⟨t.output.stop, tx.length - 4 - t.output.stop⟩ := by
  obtain ⟨n, m, h⟩ := readParts_eq_ok.1 h
  have hstop : t.witnesses.stop = tx.length - 4 := by
    rw [h.witnesses, Span.stop_mk]
    omega
  refine ⟨⟨(readInt_eq_ok.1 h.version).2, h.flag, ⟨n, h.input_count, h.input_start⟩, inputsAt_of_size h.inputs,
    ⟨m, h.output_count, h.output_start⟩, outputsAt_of_size h.outputs, by rw [h.witnesses], ?_, ?_⟩, h.witnesses⟩
  · omega
  · rw [hstop, h.lock_time]

theorem outputsSize_le (h : outputsSize count b = .ok s) : s ≤ b.length := by
  induction count generalizing b s with
  | zero =>
    cases h
    exact Nat.zero_le _
  | succ count ih =>
    obtain ⟨t, ht, h⟩ := Reading.bind_eq_ok.1 h
    obtain ⟨u, hu, heq⟩ := Reading.bind_eq_ok.1 h
    cases heq
    have hrest := ih hu
    obtain ⟨_, -, ht⟩ := Reading.bind_eq_ok.1 ht
    obtain ⟨⟨len, n⟩, -, ht⟩ := Reading.bind_eq_ok.1 ht
    obtain ⟨hin, ht⟩ := Reading.check_eq_ok.1 ht
    cases ht
    rw [length_drop] at hrest
    omega

theorem output_stop_le (h : readParts tx = .ok t) :
    t.output.stop ≤ tx.length ∧ t.witnesses.start = t.output.stop := by
  obtain ⟨n, m, h⟩ := readParts_eq_ok.1 h
  have hm := (readVar_bounds h.output_count).2
  have hout := outputsSize_le h.outputs
  have hstart := h.output_start
  have hstop : t.output.stop = t.output.start + t.output.len := rfl
  rw [length_drop] at hm hout
  exact ⟨by omega, by rw [h.witnesses]⟩

/-- The parser reads inside of the string and its parts cover it, exactly if the reading is not cut. -/
theorem parse_tx_iff {tx : Bytes} (hlen : tx.length < 2 ^ 32) :
    (safe (btc_parse_tx tx) ∧ ∀ t, ok (btc_parse_tx tx) t → Partition tx t) ↔ readTx tx ≠ .error .cut := by
  have hmirror := mirrors_parse_tx tx
  unfold readTx
  rcases hparts : readParts tx with (_ | _) | t
  · rw [hparts] at hmirror
    obtain ⟨f, hf⟩ := hmirror
    exact iff_of_false (fun h => h.1 f hf) (fun h => h rfl)
  · rw [hparts] at hmirror
    exact iff_of_true ⟨safe_of_raises hmirror, fun t ht => absurd ht (not_ok_of_raises hmirror t)⟩
      (by rintro ⟨⟩)
  · rw [hparts] at hmirror
    obtain ⟨dst, hdst, heq⟩ := hmirror
    obtain ⟨hin, hstart⟩ := output_stop_le hparts
    show _ ↔ (if tx.length < t.output.stop + 4 then throw .cut else pure t : Reading ParsedTx) ≠ _
    by_cases hleft : tx.length < t.output.stop + 4
    · -- the length of the witnesses has wrapped around
      rw [if_pos hleft]
      refine iff_of_false (fun h => ?_) (fun h => h rfl)
      have hwhole := (h.2 dst hdst).whole
      rw [heq] at hwhole
      replace hwhole : t.witnesses.start + (((tx.length : Int) - 4 - t.witnesses.start) % 2 ^ 32).toNat + 4 = tx.length := hwhole
      omega
    · rw [if_neg hleft]
      refine iff_of_true ⟨safe_of_ok hdst, fun t' ht' => ?_⟩ (by rintro ⟨⟩)
      obtain ⟨hpart, hwit⟩ := partition_of_read hparts (by omega)
      rw [ok_unique ht' hdst, heq]
      have hsame : (((tx.length : Int) - 4 - t.witnesses.start) % 2 ^ 32).toNat = t.witnesses.len := by
        rw [hwit]
        show (((tx.length : Int) - 4 - t.output.stop) % 2 ^ 32).toNat = tx.length - 4 - t.output.stop
        omega
      rw [hsame]
      exact hpart

/-- A transaction with one input and one output. -/
theorem parse_tx_of_one_input :
    safe (btc_parse_tx ([1, 0, 0, 0, 1] ++ replicate 41 0 ++ [1] ++ replicate 9 0 ++ [0, 0, 0, 0])) ∧
      ∀ t, ok (btc_parse_tx ([1, 0, 0, 0, 1] ++ replicate 41 0 ++ [1] ++ replicate 9 0 ++ [0, 0, 0, 0])) t →
        Partition ([1, 0, 0, 0, 1] ++ replicate 41 0 ++ [1] ++ replicate 9 0 ++ [0, 0, 0, 0]) t :=
  (parse_tx_iff (by decide)).2 (by decide)

/-- A string of three bytes is read behind its end, and without bytes for the lock time the witnesses get a length of
almost `2 ^ 32`. -/
theorem parse_tx_short :
    Guarded.faults (btc_parse_tx [1, 0, 0]) (.read 0 3) ∧
      ok (btc_parse_tx [1, 0, 0, 0, 0, 0]) ⟨1, false, 0, ⟨5, 0⟩, 0, ⟨6, 0⟩, ⟨6, 4294967292⟩, 0⟩ ∧
      ¬ Partition [1, 0, 0, 0, 0, 0] ⟨1, false, 0, ⟨5, 0⟩, 0, ⟨6, 0⟩, ⟨6, 4294967292⟩, 0⟩ := by
  refine ⟨by decide, by decide, fun h => ?_⟩
  exact absurd h.whole (by decide)

end In3.Btc
