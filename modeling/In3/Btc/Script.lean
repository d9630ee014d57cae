import In3.Lib.Bytes
/-!
# Multisig scripts (`btc_script.c`)

A pointer into the script is the rest of it, and reading behind its end has no result (`none`). The script is there
(`data` is not `NULL`). `is_p2ms` looks at the
first and the last two bytes of a script and walks over as many keys as the count at its end says. It does not compare
the place where the walk ends with the place of the count.
-/
open Lib List

namespace In3.Btc

inductive btc_stype_t where
  | UNSUPPORTED | NON_STANDARD | P2PK | P2PKH | P2SH | V0_P2WPKH | P2WSH | P2MS
  deriving DecidableEq, Repr

def from_end (script : Bytes) (i : Nat) : Option UInt8 := if i ≤ script.length then script[script.length - i]? else none

def is_p2ms_format (script : Bytes) : Option Bool := do
  let m ← script[0]?
  let n ← from_end script 2
  let last ← from_end script 1
  return last = 0xae && m ≤ n && 0x51 ≤ m && n ≤ 0x5f && 36 < script.length && script.length < 993

def btc_get_multisig_pub_key_count (script : Bytes) : Option Nat := do
  if ← is_p2ms_format script then return (← from_end script 2).toNat - 0x50 else return 0

/-- `pub_key_is_valid` on a key of the length `len`, of which only the first byte is read. -/
def pub_key_is_valid (len : Nat) (data : Bytes) : Option Bool :=
  if len = 65 then data.head?.map fun x => x = 4
  else if len = 33 then data.head?.map fun x => x = 2 || x = 3
  else some false

/-- The loop of `is_p2ms` over `n` keys. -/
def keys_valid : Nat → Bytes → Option Bool
  | 0, _ => some true
  | _ + 1, [] => none
  | n + 1, pk_len :: p => do
    if ← pub_key_is_valid pk_len.toNat p then keys_valid n (p.drop pk_len.toNat) else return false

def is_p2ms (script : Bytes) : Option Bool := do
  if ← is_p2ms_format script then keys_valid (← btc_get_multisig_pub_key_count script) (script.drop 1) else return false

/-- The loop of `extract_public_keys_from_multisig` over `n` keys. -/
def extract_keys : Nat → Bytes → Option (List Bytes)
  | 0, _ => some []
  | _ + 1, [] => none
  | n + 1, pklen :: p => if p.length < pklen.toNat then none else (extract_keys n (p.drop pklen.toNat)).map (p.take pklen.toNat :: ·)

def extract_public_keys_from_multisig (script : Bytes) : Option (List Bytes) := do
  if ← is_p2ms script then extract_keys (← btc_get_multisig_pub_key_count script) (script.drop 1) else return []

/-! ## The other kinds of scripts -/

def is_p2pk (script : Bytes) : Option Bool := do
  let p0 ← script[0]?
  return script.length = p0.toNat + 2 && (p0 = 33 || p0 = 65) && from_end script 1 = some 0xac

def is_p2pkh (script : Bytes) : Bool := script.length = 25 && script.take 3 = [0x76, 0xa9, 20] && script.drop 23 = [0x88, 0xac]

def is_p2sh (script : Bytes) : Bool := script.length = 23 && script.take 2 = [0xa9, 20] && script.drop 22 = [0x87]

def is_p2wpkh (script : Bytes) : Bool := script.length = 22 && script.take 2 = [0, 0x14]

def is_p2wsh (script : Bytes) : Bool := script.length = 34 && script.getD 0 0 < 0x4c && script.getD 1 0 = 32

def is_witness_program (script : Bytes) : Bool :=
  4 < script.length && script.length < 42 &&
    (script.getD 0 0 = 0 || 0x51 ≤ script.getD 0 0 && script.getD 0 0 ≤ 0x60) && (script.getD 1 0).toNat + 2 = script.length

def btc_get_script_type (script : Bytes) : Option btc_stype_t := do
  if 10000 < script.length then return .UNSUPPORTED
  if ← is_p2pk script then return .P2PK
  if is_p2pkh script then return .P2PKH
  if is_p2sh script then return .P2SH
  if is_witness_program script then
    return if is_p2wpkh script then .V0_P2WPKH else if is_p2wsh script then .P2WSH else .NON_STANDARD
  if ← is_p2ms script then return .P2MS
  return .NON_STANDARD

/-! ## What a multisig script is -/

def KeyOk (k : Bytes) : Prop := pub_key_is_valid k.length k = some true

/-- `M`, the keys with their lengths, `N` and `OP_CHECKMULTISIG`. -/
def IsMultisig (script : Bytes) (keys : List Bytes) : Prop :=
  (∃ m : Nat, 1 ≤ m ∧ m ≤ keys.length ∧ keys.length ≤ 16 ∧ script = UInt8.ofNat (0x50 + m) :: keys.flatMap (fun k => UInt8.ofNat k.length :: k) ++
    [UInt8.ofNat (0x50 + keys.length), 0xae]) ∧ ∀ k ∈ keys, KeyOk k

/-- The script is read inside of its bounds, is only taken for a multisig script if it is one, and gives its keys then. -/
def RecognisedExactly (script : Bytes) : Prop :=
  (is_p2ms script).isSome = true ∧ (btc_get_script_type script).isSome = true ∧
    (is_p2ms script = some true ∨ btc_get_script_type script = some .P2MS →
      ∃ keys, IsMultisig script keys ∧ extract_public_keys_from_multisig script = some keys)

/-- A walk over `n` keys that meets an invalid key, or ends two bytes before the end. -/
def KeysFit : Nat → Bytes → Prop
  | 0, p => p.length = 2
  | _ + 1, [] => False
  | n + 1, pk_len :: p =>
    match pub_key_is_valid pk_len.toNat p with
    | none => False
    | some false => True
    | some true => pk_len.toNat ≤ p.length ∧ KeysFit n (p.drop pk_len.toNat)

/-! ## The walk over the keys -/

section
variable {n : Nat} {p k r : Bytes} {keys : List Bytes}

theorem pub_key_append (h : KeyOk k) (r : Bytes) : pub_key_is_valid k.length (k ++ r) = some true := by
  cases k with
  | nil => cases h
  | cons x k => exact h

theorem keyOk_length (h : KeyOk k) : k.length < 256 := by
  unfold KeyOk pub_key_is_valid at h
  split at h
  · omega
  · split at h
    · omega
    · cases h

theorem keyOk_take {l : Nat} (h : pub_key_is_valid l p = some true) (hl : l ≤ p.length) : KeyOk (p.take l) := by
  have hlen : (p.take l).length = l := by simpa using hl
  rw [KeyOk, hlen]
  cases l with
  | zero => cases h
  | succ l =>
    cases p with
    | nil => simp at hl
    | cons x p => exact h

theorem keysFit_of_invalid (h : keys_valid n p = some false) : KeysFit n p := by
  induction n generalizing p with
  | zero => cases h
  | succ n ih =>
    cases p with
    | nil => cases h
    | cons l p =>
      rw [keys_valid] at h
      rw [KeysFit]
      cases hv : pub_key_is_valid l.toNat p with
      | none => simp [hv] at h
      | some valid =>
        cases valid with
        | false => trivial
        | true =>
          have hrest : keys_valid n (p.drop l.toNat) = some false := by simpa [hv] using h
          refine ⟨?_, ih hrest⟩
          by_contra hlt
          rw [drop_eq_nil_of_le (by omega)] at hrest
          cases n <;> cases hrest

theorem keysFit_of_keys (h : ∀ k ∈ keys, KeyOk k) (hr : r.length = 2) :
    KeysFit keys.length (keys.flatMap (fun k => UInt8.ofNat k.length :: k) ++ r) := by
  induction keys with
  | nil => exact hr
  | cons k keys ih =>
    obtain ⟨hk, hkeys⟩ := forall_mem_cons.1 h
    have hlen : (UInt8.ofNat k.length).toNat = k.length := by
      rw [UInt8.toNat_ofNat', Nat.mod_eq_of_lt (keyOk_length hk)]
    rw [flatMap_cons, cons_append, cons_append, append_assoc, length_cons, KeysFit, hlen,
      pub_key_append hk]
    exact ⟨by simp, by simpa using ih hkeys⟩

theorem keys_of_keysFit (h : KeysFit n p) :
    keys_valid n p = some false ∨ keys_valid n p = some true ∧ ∃ keys r, keys.length = n ∧ (∀ k ∈ keys, KeyOk k) ∧
      p = keys.flatMap (fun k => UInt8.ofNat k.length :: k) ++ r ∧ r.length = 2 ∧ extract_keys n p = some keys := by
  induction n generalizing p with
  | zero => exact .inr ⟨rfl, [], p, rfl, nofun, rfl, h, rfl⟩
  | succ n ih =>
    cases p with
    | nil => exact h.elim
    | cons l p =>
      rw [KeysFit] at h
      rw [keys_valid]
      cases hv : pub_key_is_valid l.toNat p with
      | none => simp [hv] at h
      | some valid =>
        rw [hv] at h
        cases valid with
        | false => exact .inl rfl
        | true =>
          obtain ⟨hlen, hfit⟩ := h
          rcases ih hfit with hfalse | ⟨htrue, keys, r, hn, hkeys, hp, hr, hextract⟩
          · exact .inl hfalse
          · refine .inr ⟨htrue, p.take l.toNat :: keys, r, by simp [hn], ?_, ?_, hr, ?_⟩
            · exact forall_mem_cons.2 ⟨keyOk_take hv hlen, hkeys⟩
            · have hl : UInt8.ofNat (p.take l.toNat).length = l := by
                rw [length_take, Nat.min_eq_left hlen, UInt8.ofNat_toNat]
              rw [flatMap_cons, hl, cons_append, cons_append, append_assoc, ← hp, take_append_drop]
            · rw [extract_keys, if_neg (by omega), hextract]
              rfl

end

/-! ## The ends of a script -/

section
variable {script : Bytes}

theorem exists_ends (h : 2 ≤ script.length) : ∃ mid n last, script = mid ++ [n, last] := by
  obtain ⟨n, last, hdrop⟩ := length_eq_two.1 (show (script.drop (script.length - 2)).length = 2 by simp; omega)
  exact ⟨script.take (script.length - 2), n, last, by rw [← hdrop, take_append_drop]⟩

theorem from_end_append (mid : Bytes) (n last : UInt8) :
    from_end (mid ++ [n, last]) 2 = some n ∧ from_end (mid ++ [n, last]) 1 = some last := by
  simp [from_end]

theorem two_le_of_format {b : Bool} (h : is_p2ms_format script = some b) : 2 ≤ script.length := by
  by_contra hlt
  have hnone : from_end script 2 = none := if_neg hlt
  cases hm : script[0]? <;> simp [is_p2ms_format, hnone] at h

theorem format_defined (h : 2 ≤ script.length) : ∃ b, is_p2ms_format script = some b := by
  obtain ⟨mid, n, last, rfl⟩ := exists_ends h
  have hm : ∃ m, (mid ++ [n, last])[0]? = some m := ⟨_, List.getElem?_eq_getElem (by omega)⟩
  obtain ⟨m, hm⟩ := hm
  obtain ⟨hn, hlast⟩ := from_end_append mid n last
  exact ⟨_, by rw [is_p2ms_format, hm, hn, hlast]; rfl⟩

theorem format_true (h : is_p2ms_format script = some true) :
    ∃ m n mid, script = m :: (mid ++ [n, 0xae]) ∧ from_end script 2 = some n ∧ m ≤ n ∧ 0x51 ≤ m ∧ n ≤ 0x5f := by
  obtain ⟨mid, n, last, rfl⟩ := exists_ends (two_le_of_format h)
  obtain ⟨hn, hlast⟩ := from_end_append mid n last
  cases mid with
  | nil => simp [is_p2ms_format, from_end] at h
  | cons m mid =>
    rw [is_p2ms_format, hn, hlast] at h
    obtain ⟨⟨⟨⟨⟨hae, hmn⟩, hm1⟩, hn15⟩, -⟩, -⟩ : (((((last = 0xae ∧ m ≤ n) ∧ 0x51 ≤ m) ∧ n ≤ 0x5f) ∧ _) ∧ _) := by
      simpa using h
    subst hae
    exact ⟨m, n, mid, rfl, hn, hmn, hm1, hn15⟩

theorem is_p2ms_eq {n : UInt8} (h : is_p2ms_format script = some true) (hn : from_end script 2 = some n) :
    is_p2ms script = keys_valid (n.toNat - 0x50) (script.drop 1) ∧
      (is_p2ms script = some true → extract_public_keys_from_multisig script = extract_keys (n.toNat - 0x50) (script.drop 1)) := by
  have hcount : btc_get_multisig_pub_key_count script = some (n.toNat - 0x50) := by
    simp [btc_get_multisig_pub_key_count, h, hn]
  constructor
  · simp [is_p2ms, h, hcount]
  · intro htrue
    simp [extract_public_keys_from_multisig, htrue, hcount]

theorem format_of_is_p2ms {b : Bool} (h : is_p2ms script = some b) : ∃ f, is_p2ms_format script = some f := by
  cases hf : is_p2ms_format script with
  | none => simp [is_p2ms, hf] at h
  | some f => exact ⟨f, rfl⟩

theorem script_type_spec {b : Bool} (h : is_p2ms script = some b) :
    (btc_get_script_type script).isSome = true ∧ (btc_get_script_type script = some .P2MS → b = true) := by
  obtain ⟨f, hf⟩ := format_of_is_p2ms h
  have hlen := two_le_of_format hf
  obtain ⟨pk, hpk⟩ : ∃ pk, is_p2pk script = some pk := by
    rw [is_p2pk, List.getElem?_eq_getElem (by omega)]
    exact ⟨_, rfl⟩
  unfold btc_get_script_type
  rw [hpk, h]
  cases pk <;> cases b <;> simp <;> split_ifs <;> simp

theorem recognised_of_false (h : is_p2ms script = some false) : RecognisedExactly script := by
  obtain ⟨htype, hms⟩ := script_type_spec h
  refine ⟨by rw [h]; rfl, htype, ?_⟩
  rintro (htrue | htrue)
  · simp [h] at htrue
  · cases hms htrue

end

/-- Scripts of at least two bytes are recognised exactly, if those with the ends of a multisig script hold as many keys as
they count and nothing else, or an invalid key. -/
theorem script_recognised_iff (script : Bytes) :
    RecognisedExactly script ↔ 2 ≤ script.length ∧ (is_p2ms_format script = some true →
      KeysFit (((from_end script 2).getD 0).toNat - 0x50) (script.drop 1)) := by
  constructor
  · rintro ⟨hsome, -, hexact⟩
    obtain ⟨b, hb⟩ := Option.isSome_iff_exists.1 hsome
    obtain ⟨f, hf⟩ := format_of_is_p2ms hb
    refine ⟨two_le_of_format hf, fun hformat => ?_⟩
    obtain ⟨m, n, mid, -, hn, -⟩ := format_true hformat
    rw [hn, Option.getD_some]
    cases b with
    | false => exact keysFit_of_invalid ((is_p2ms_eq hformat hn).1.symm.trans hb)
    | true =>
      obtain ⟨keys, ⟨⟨m, -, -, hle, rfl⟩, hkeys⟩, -⟩ := hexact (.inl hb)
      rw [(from_end_append _ _ _).1, Option.some_inj] at hn
      have hcount : (UInt8.ofNat (0x50 + keys.length)).toNat - 0x50 = keys.length := by
        rw [UInt8.toNat_ofNat', Nat.mod_eq_of_lt (by omega)]
        omega
      rw [← hn, hcount]
      exact keysFit_of_keys hkeys rfl
  · rintro ⟨hlen, hfit⟩
    obtain ⟨f, hformat⟩ := format_defined hlen
    cases f with
    | false => exact recognised_of_false (by simp [is_p2ms, hformat])
    | true =>
      obtain ⟨m, n, mid, hscript, hn, hmn, hm, hn15⟩ := format_true hformat
      obtain ⟨heq, hextract⟩ := is_p2ms_eq hformat hn
      have hwalk := hfit hformat
      rw [hn, Option.getD_some] at hwalk
      rcases keys_of_keysFit hwalk with hfalse | ⟨htrue, keys, r, hcount, hkeys, hrest, hr, hkeys'⟩
      · exact recognised_of_false (heq.trans hfalse)
      · rw [← heq] at htrue
        refine ⟨by rw [htrue]; rfl, (script_type_spec htrue).1, fun _ => ⟨keys, ⟨?_, hkeys⟩, (hextract htrue).trans hkeys'⟩⟩
        rw [hscript, drop_one] at hrest
        obtain ⟨rfl, rfl⟩ := append_inj' hrest (by simp [hr])
        have hmn : m.toNat ≤ n.toNat := hmn
        have hm : 0x51 ≤ m.toNat := hm
        have hn15 : n.toNat ≤ 0x5f := hn15
        have hM : UInt8.ofNat (0x50 + (m.toNat - 0x50)) = m := by
          rw [Nat.add_sub_cancel' (by omega), UInt8.ofNat_toNat]
        have hN : UInt8.ofNat (0x50 + keys.length) = n := by
          rw [hcount, Nat.add_sub_cancel' (by omega), UInt8.ofNat_toNat]
        refine ⟨m.toNat - 0x50, by omega, by omega, by omega, ?_⟩
        rw [hM, hN, hscript, cons_append]

/-- A byte that belongs to no key before the count of keys does not keep a script from being accepted. -/
theorem script_with_rest_accepted :
    is_p2ms (0x51 :: 33 :: 2 :: List.replicate 32 0 ++ [7, 0x51, 0xae]) = some true ∧
      ¬ RecognisedExactly (0x51 :: 33 :: 2 :: List.replicate 32 0 ++ [7, 0x51, 0xae]) := by
  have haccepted : is_p2ms (0x51 :: 33 :: 2 :: List.replicate 32 0 ++ [7, 0x51, 0xae]) = some true := by decide
  refine ⟨haccepted, fun h => ?_⟩
  obtain ⟨keys, ⟨⟨m, -, -, -, hscript⟩, -⟩, hextract⟩ := h.2.2 (.inl haccepted)
  have hkeys : extract_public_keys_from_multisig (0x51 :: 33 :: 2 :: List.replicate 32 0 ++ [7, 0x51, 0xae]) =
    some [2 :: List.replicate 32 0] := by decide
  cases hextract.symm.trans hkeys
  have hlength := congrArg List.length hscript
  simp at hlength

end In3.Btc
