import In3.Core.Binary
import In3.Core.TokenTree
/-!
# Writing a document and reading it back

`serialized` is what `d_serialize_binary` is meant to write for a tree, behind the count of its
tokens. The writer appends it as long as its fields of several bytes end before byte `2^31` of
the output (`FieldsBelow`), where `bb_write_long_be` loses its place. What it wrote is read back
as the same tokens.
-/
open Lib Guarded List

namespace In3

/-! ## Trees that fit their tokens -/

/-- The length, the value or the keys of the children fit a token. -/
def Tok.Fits : Tok → Prop
  | .bytes d => (d.getD []).length < 2 ^ 28
  | .string s _ => s.length < 2 ^ 28
  | .array _ items => items.length < 2 ^ 28
  | .object _ props => props.length < 2 ^ 28 ∧ ∀ p ∈ props, p.1 < 2 ^ 16
  | .integer v => v < 2 ^ 28
  | _ => True

/-- Every value of the tree fits its token. -/
def WellFormed (t : Tok) : Prop := ∀ d p u, ValueAt t d p u → u.Fits

/-! ## The bytes of a tree -/

/-- The type and the length of a token. -/
def head_bytes (type len : Nat) : Bytes :=
  UInt8.ofNat (type * 32 ||| if len < 28 then len else min_bytes_len len + 27) ::
    if 27 < len then beFix (min_bytes_len len) len else []

mutual

def serialized : Tok → Bytes
  | .bytes d => head_bytes 0 (d.getD []).length ++ d.getD []
  | .string s _ => head_bytes 1 s.length ++ (s ++ [0])
  | .array _ items => head_bytes 2 items.length ++ serialized_items items
  | .object _ props => head_bytes 3 props.length ++ serialized_props props
  | .boolean v => head_bytes 4 v.toNat
  | .integer v => head_bytes 5 v
  | .null => head_bytes 6 0

def serialized_items : List Tok → Bytes
  | [] => []
  | t :: ts => serialized t ++ serialized_items ts

def serialized_props : List (Nat × Tok) → Bytes
  | [] => []
  | (k, t) :: ps => beFix 2 k ++ (serialized t ++ serialized_props ps)

end

/-- The length field of a token at place `s`, if there is one, ends before `2^31`. -/
def HeadBelow (len s : Nat) : Prop := 27 < len → s + 1 + min_bytes_len len < 2 ^ 31

mutual

/-- Written from place `s` on, the length fields and the keys of a tree end before `2^31`. -/
def FieldsBelow : Tok → Nat → Prop
  | .bytes d, s => HeadBelow (d.getD []).length s
  | .string text _, s => HeadBelow text.length s
  | .array _ items, s => HeadBelow items.length s ∧ FieldsBelowItems items (s + (head_bytes 2 items.length).length)
  | .object _ props, s => HeadBelow props.length s ∧ FieldsBelowProps props (s + (head_bytes 3 props.length).length)
  | .boolean _, _ => True
  | .integer v, s => HeadBelow v s
  | .null, _ => True

def FieldsBelowItems : List Tok → Nat → Prop
  | [], _ => True
  | t :: ts, s => FieldsBelow t s ∧ FieldsBelowItems ts (s + (serialized t).length)

def FieldsBelowProps : List (Nat × Tok) → Nat → Prop
  | [], _ => True
  | (_, t) :: ps, s => s + 2 < 2 ^ 31 ∧ FieldsBelow t (s + 2) ∧ FieldsBelowProps ps (s + 2 + (serialized t).length)

end

/-! ## The tokens as their readers see them -/

/-- What a token says: its type, its length, its key and, of a string or bytes, the content. -/
structure Shown where
  type : Nat
  size : Nat
  key : Nat
  content : Bytes
  deriving DecidableEq, Repr

section
variable {δ : Type} (content : δ → Nat → Bytes)

def Token.shown (k : Token δ) : Shown where
  type := k.type
  size := k.size
  key := k.key
  content := if k.type < 2 then content k.data k.size else []

end

def own_data (data : Option Bytes) (n : Nat) : Bytes := (data.getD []).take n

def data_in (d : Bytes) (data : Option Nat) (n : Nat) : Bytes := (d.drop (data.getD 0)).take n

/-! ## The head of a token -/

theorem min_bytes_from_eq (n i val : Nat) (h : val < 256 ^ n) :
    ∃ w, min_bytes_from n i val = i + w ∧ w ≤ n ∧ val < 256 ^ w := by
  induction n generalizing i val with
  | zero => exact ⟨0, rfl, le_rfl, h⟩
  | succ n ih =>
    rw [min_bytes_from]
    by_cases h0 : val = 0
    · exact ⟨0, by rw [if_pos h0]; rfl, by omega, by simp [h0]⟩
    · have hdiv : val / 256 < 256 ^ n := Nat.div_lt_of_lt_mul (by rwa [← Nat.pow_succ'])
      obtain ⟨w, hw, hle, hlt⟩ := ih (i + 1) (val / 256) hdiv
      refine ⟨w + 1, by rw [if_neg h0]; omega, by omega, ?_⟩
      omega

theorem min_bytes_from_le (n i val w : Nat) (h : val < 256 ^ w) (hw : w ≤ n) : min_bytes_from n i val ≤ i + w := by
  induction w generalizing n i val with
  | zero =>
    have h0 : val = 0 := by simpa using h
    cases n with
    | zero => exact le_rfl
    | succ n => simp [min_bytes_from, h0]
  | succ w ih =>
    cases n with
    | zero => omega
    | succ n =>
      rw [min_bytes_from]
      split
      · omega
      · have hdiv : val / 256 < 256 ^ w := Nat.div_lt_of_lt_mul (by rwa [← Nat.pow_succ'])
        have hnext := ih n (i + 1) (val / 256) hdiv (by omega)
        omega

variable {bb bb' data : Bytes} {body : Bytes → BinWrite Bytes} {fuel len n s type : Nat} {jp : bin_ctx_t} {t u : Tok}

theorem min_bytes_len_spec (h : len < 2 ^ 28) : min_bytes_len len ≤ 4 ∧ len < 256 ^ min_bytes_len len := by
  constructor
  · have hle := min_bytes_from_le 8 0 len 4 (by omega) (by omega)
    rwa [Nat.zero_add] at hle
  · obtain ⟨w, hw, -, hlt⟩ := min_bytes_from_eq 8 0 len (by omega)
    rw [min_bytes_len, hw, Nat.zero_add]
    exact hlt

theorem min_bytes_len_pos (h : len < 2 ^ 28) (hpos : 0 < len) : 0 < min_bytes_len len := by
  have hlt := (min_bytes_len_spec h).2
  rcases Nat.eq_zero_or_pos (min_bytes_len len) with h0 | h0
  · rw [h0] at hlt
    omega
  · exact h0

theorem length_head_bytes (type len : Nat) :
    (head_bytes type len).length = 1 + if 27 < len then min_bytes_len len else 0 := by
  rw [head_bytes, length_cons, Nat.add_comm]
  split <;> simp

theorem read_byte_append (pre post : Bytes) (x : UInt8) : (read_byte (pre ++ x :: post) pre.length).ok x := by
  rw [read_byte, List.getElem?_append_right le_rfl, Nat.sub_self]
  exact ok_pure.2 rfl

theorem read_bytes_append (pre b post : Bytes) : (read_bytes (pre ++ (b ++ post)) pre.length b.length).ok b := by
  induction b generalizing pre with
  | nil => exact ok_pure.2 rfl
  | cons x b ih =>
    have hnext := ih (pre ++ [x])
    rw [append_assoc, length_append] at hnext
    rw [length_cons, read_bytes, ok_bind]
    refine ⟨x, read_byte_append _ _ _, ?_⟩
    rw [ok_bind]
    exact ⟨b, hnext, ok_pure.2 rfl⟩

theorem head_byte {c : Nat} (htype : type < 8) (hc : c < 32) :
    (UInt8.ofNat (type * 32 ||| c)).toNat / 32 = type ∧ (UInt8.ofNat (type * 32 ||| c)).toNat % 32 = c := by
  have hor : type * 32 ||| c = type * 32 + c := by
    rw [Nat.mul_comm, show 32 = 2 ^ 5 from rfl, Nat.two_pow_add_eq_or_of_lt hc]
  rw [UInt8.toNat_ofNat']
  omega

theorem read_head_field {x : UInt8} {field : Bytes} (hfield : field.length = x.toNat % 32 - 27) (pre post : Bytes) :
    (read_head (pre ++ (x :: field ++ post)) pre.length).ok
      (x.toNat / 32, if 27 < x.toNat % 32 then beNat field else x.toNat % 32, pre.length + (1 + field.length)) := by
  have hbytes := read_bytes_append (pre ++ [x]) field post
  rw [append_assoc, length_append, hfield] at hbytes
  simp only [read_head, ok_check, ok_bind, ok_pure, length_append, length_cons]
  refine ⟨by omega, x, read_byte_append _ _ _, by omega, field, hbytes, ?_⟩
  rw [← hfield, Nat.add_assoc]

theorem read_head_append (htype : type < 8) (hlen : len < 2 ^ 28) (pre post : Bytes) :
    (read_head (pre ++ (head_bytes type len ++ post)) pre.length).ok
      (type, len, pre.length + (head_bytes type len).length) := by
  obtain ⟨hfour, hfits⟩ := min_bytes_len_spec hlen
  have hpos := min_bytes_len_pos hlen
  rw [length_head_bytes, head_bytes]
  by_cases hlong : 27 < len
  · obtain ⟨hdiv, hmod⟩ := head_byte (c := min_bytes_len len + 27) htype (by omega)
    have hread := @read_head_field _ (beFix (min_bytes_len len) len) (by rw [length_beFix, hmod]; rfl) pre post
    rw [hdiv, if_pos (by omega), length_beFix, beNat_beFix, Nat.mod_eq_of_lt hfits] at hread
    rw [if_pos hlong, if_pos hlong, if_neg (by omega)]
    exact hread
  · obtain ⟨hdiv, hmod⟩ := head_byte (c := len) htype (by omega)
    have hread := @read_head_field _ [] (by rw [hmod, length_nil]; omega) pre post
    rw [hdiv, hmod, if_neg (by omega)] at hread
    rw [if_neg hlong, if_neg hlong, if_pos (by omega)]
    exact hread

/-! ## Writing a tree -/

theorem leaf_token {type : d_type_t} {l : Nat} (h : l < 2 ^ 28) :
    leaf_len type l / 2 ^ 28 = type.code ∧ leaf_len type l % 2 ^ 28 = l := by
  obtain ⟨htype, hsize⟩ := leaf_len_type type l
  rw [Nat.div_eq_of_lt h] at htype
  refine ⟨?_, by rw [hsize, Nat.mod_eq_of_lt h]⟩
  rw [htype]
  cases type <;> rfl

theorem token_of_fits (h : u.Fits) (k : Nat) :
    (token_of k u).type = (d_type u).code ∧ (token_of k u).size = d_len u := by
  cases u with
  | bytes d => exact leaf_token h
  | string s converted => exact leaf_token h
  | array text items => exact node_len_type h _
  | object text props => exact node_len_type h.1 _
  | boolean v =>
    refine leaf_token ?_
    cases v <;> decide
  | integer v =>
    obtain ⟨htype, hsize⟩ := @leaf_token .T_INTEGER v h
    exact ⟨htype, hsize.trans (Nat.mod_eq_of_lt h).symm⟩
  | null => exact leaf_token (by decide)

theorem tellsKids_of_fits (h : u.Fits) : TellsKids u := by
  obtain ⟨htype, hsize⟩ := token_of_fits h 0
  refine ⟨fun hcont => ?_, fun _ => htype⟩
  rw [Token.isContainer, htype] at hcont
  rw [hsize]
  cases u with
  | array text items => rfl
  | object text props => exact (length_map _).symm
  | _ => simp [d_type, d_type_t.code] at hcont

theorem WellFormed.kid {v : Tok} (h : WellFormed t) (hv : v ∈ t.kids) : WellFormed v := by
  obtain ⟨i, hi⟩ := mem_iff_getElem?.1 hv
  exact fun d p u hu => h _ _ u (hu.inside hi)

theorem WellFormed.tellsKids (h : WellFormed t) : ∀ d p u, ValueAt t d p u → TellsKids u :=
  fun d p u hu => tellsKids_of_fits (h d p u hu)

theorem next_token_layout (h : WellFormed t) (k : Nat) (rest : List JsonToken) :
    next_token (layout k t ++ rest) = pure rest := by
  rw [next_token, d_next, d_token_size_layout h.tellsKids k rest, Option.map_some, ← length_layout k t, drop_left]

section Writer
variable {value : Bytes → List JsonToken → BinWrite Bytes} {f g : Bytes → BinWrite Bytes} {a b : Bytes}
  {P Q : Nat → Prop}

/-- `f` appends `a` to an output below `2^32` bytes, if the result stays below and the place where `a` begins meets `P`. -/
def Appends (f : Bytes → BinWrite Bytes) (a : Bytes) (P : Nat → Prop) : Prop :=
  ∀ bb bb', bb.length < 2 ^ 32 → ((f bb).ok bb' ↔ bb' = bb ++ a ∧ bb.length + a.length < 2 ^ 32 ∧ P bb.length)

theorem Appends.iff (h : Appends f a P) (hiff : ∀ s, P s ↔ Q s) : Appends f a Q := by
  obtain rfl : P = Q := funext fun s => propext (hiff s)
  exact h

theorem appends_pure : Appends pure [] fun _ => True := by
  intro bb bb' hbb
  rw [ok_pure, append_nil, and_true]
  exact ⟨fun h => ⟨h.symm, hbb⟩, fun h => h.1.symm⟩

theorem appends_bind (hf : Appends f a P) (hg : Appends g b Q) :
    Appends (fun bb => f bb >>= g) (a ++ b) fun s => P s ∧ Q (s + a.length) := by
  intro bb bb' hbb
  rw [ok_bind, length_append, ← append_assoc]
  constructor
  · rintro ⟨_, h₁, h₂⟩
    obtain ⟨rfl, hlen, hp⟩ := (hf bb _ hbb).1 h₁
    rw [hg _ _ (by rwa [length_append]), length_append] at h₂
    exact ⟨h₂.1, by omega, hp, h₂.2.2⟩
  · rintro ⟨rfl, hlen, hp, hq⟩
    refine ⟨_, (hf _ _ hbb).2 ⟨rfl, by omega, hp⟩, ?_⟩
    rw [hg _ _ (by rw [length_append]; omega), length_append]
    exact ⟨rfl, by omega, hq⟩

theorem appends_raw (data : Bytes) : Appends (bb_write_raw_bytes · data) data fun _ => True := by
  intro bb bb' _
  simp only [bb_write_raw_bytes, ok_bind, ok_guard, ok_pure, exists_const, and_true]
  exact and_comm.trans (and_congr_left' eq_comm)

theorem appends_byte (x : UInt8) : Appends (bb_write_byte · x) [x] fun _ => True := appends_raw [x]

theorem appends_long (val len : Nat) : Appends (bb_write_long_be_at · val len) (beFix len val) (· + len < 2 ^ 31) := by
  intro bb bb' _
  simp only [bb_write_long_be_at, ok_bind, ok_guard, ok_pure, exists_const, length_beFix]
  constructor
  · rintro ⟨hbelow, rfl⟩
    exact ⟨rfl, by omega, hbelow⟩
  · rintro ⟨rfl, -, hbelow⟩
    exact ⟨hbelow, rfl⟩

theorem appends_head (type len : Nat) : Appends (write_head · type len) (head_bytes type len) (HeadBelow len) := by
  unfold write_head head_bytes HeadBelow
  by_cases hlong : 27 < len
  · simp only [hlong, if_true, forall_const]
    exact (appends_bind (appends_byte _) (appends_long _ _)).iff fun s => and_iff_right trivial
  · simp only [hlong, if_false, bind_pure, false_imp_iff]
    exact appends_byte _

/-- `value` writes the tree wherever it stands. -/
def Writes (value : Bytes → List JsonToken → BinWrite Bytes) (t : Tok) : Prop :=
  ∀ k rest, Appends (value · (layout k t ++ rest)) (serialized t) (FieldsBelow t)

theorem appends_array {ts : List Tok} (hts : ∀ t ∈ ts, WellFormed t ∧ Writes value t) (i : Nat)
    (rest : List JsonToken) :
    Appends (write_array value ts.length · (layout_items i ts ++ rest)) (serialized_items ts) (FieldsBelowItems ts) := by
  induction ts generalizing i with
  | nil => exact appends_pure
  | cons t ts ih =>
    obtain ⟨hwell, ht⟩ := hts t (by simp)
    have hrest := ih (fun u hu => hts u (by simp [hu])) (i + 1)
    simp only [length_cons, layout_items, append_assoc, write_array, next_token_layout hwell, pure_bind]
    exact appends_bind (ht _ _) hrest

theorem write_object_succ {t : Tok} (h : WellFormed t) (n : Nat) (bb : Bytes) (key : Nat)
    (rest : List JsonToken) : write_object value (n + 1) bb (layout key t ++ rest) = (do
      let bb ← bb_write_long_be_at bb key 2
      let bb ← value bb (layout key t ++ rest)
      write_object value n bb rest) := by
  have hkey : (token_of key t).key = key := by cases t <;> rfl
  have hnext := next_token_layout h key rest
  rw [layout_eq, cons_append] at hnext ⊢
  rw [write_object, hkey, hnext]
  rfl

theorem appends_object {ps : List (Nat × Tok)} (hps : ∀ p ∈ ps, WellFormed p.2 ∧ Writes value p.2)
    (rest : List JsonToken) :
    Appends (write_object value ps.length · (layout_props ps ++ rest)) (serialized_props ps) (FieldsBelowProps ps) := by
  induction ps with
  | nil => exact appends_pure
  | cons p ps ih =>
    obtain ⟨key, t⟩ := p
    obtain ⟨hwell, ht⟩ := hps (key, t) (by simp)
    have hrest := ih fun u hu => hps u (by simp [hu])
    simp only [length_cons, layout_props, append_assoc, write_object_succ hwell]
    refine (appends_bind (appends_long key 2) (appends_bind (ht _ _) hrest)).iff fun s => ?_
    rw [length_beFix]
    rfl

end Writer

theorem data_bytes_own {t : JsonToken} (h : t.size = (t.data.getD []).length) :
    data_bytes t = pure (t.data.getD []) := by
  rw [data_bytes, Guarded.guard, if_pos h.le, h, take_length]
  rfl

theorem headBelow_small (h : len ≤ 27) : HeadBelow len s := fun hlong => absurd h (Nat.not_le.2 hlong)

theorem write_token_writes (h : WellFormed t) (hfuel : tokens t ≤ fuel) :
    Writes (write_token fuel) t := by
  induction fuel generalizing t with
  | zero =>
    have hpos := tokens_pos t
    omega
  | succ fuel ih =>
    intro k rest
    have hfits := h 0 0 t .root
    obtain ⟨htype, hsize⟩ := token_of_fits hfits k
    have hkids : ∀ v ∈ t.kids, WellFormed v ∧ Writes (write_token fuel) v := by
      intro v hv
      have hlt := tokens_kid_lt hv
      exact ⟨h.kid hv, ih (h.kid hv) (by omega)⟩
    have hlayout := layout_eq k t
    have hhead := appends_head (d_type t).code (d_len t)
    have hleaf := appends_bind hhead appends_pure
    rw [append_nil] at hleaf
    simp only [hlayout, cons_append, write_token, htype, hsize]
    cases t with
    | bytes d =>
      simp only [@data_bytes_own (token_of k (.bytes d)) hsize]
      exact (appends_bind hhead (appends_raw _)).iff fun s => and_iff_left trivial
    | string s converted =>
      simp only [@data_bytes_own (token_of k (.string s converted)) hsize]
      exact (appends_bind hhead (appends_bind (appends_raw s) (appends_byte 0))).iff fun s => and_iff_left ⟨trivial, trivial⟩
    | array text items =>
      rw [show (blocks (.array text items)).flatten = layout_items 0 items from (List.cons.inj hlayout).2.symm]
      exact appends_bind hhead (appends_array hkids 0 rest)
    | object text props =>
      rw [show (blocks (.object text props)).flatten = layout_props props from (List.cons.inj hlayout).2.symm]
      exact appends_bind hhead (appends_object (fun p hp => hkids p.2 (mem_map_of_mem hp)) rest)
    | boolean v => exact hleaf.iff fun s => iff_true_intro ⟨headBelow_small (by cases v <;> decide), trivial⟩
    | integer v =>
      simp only [d_len, Nat.mod_eq_of_lt hfits] at hleaf ⊢
      exact hleaf.iff fun s => and_iff_left trivial
    | null => exact hleaf.iff fun s => iff_true_intro ⟨headBelow_small (by decide), trivial⟩

/-! ## The size of the output -/

theorem head_bound (type : Nat) (h : HeadBelow len s) : s + (head_bytes type len).length ≤ max (2 ^ 31) (s + 1) := by
  rw [length_head_bytes]
  split
  · rename_i hlong
    have hlt := h hlong
    omega
  · omega

theorem leaf_bound (type : Nat) (h : HeadBelow len s) (hlen : len < 2 ^ 28) :
    s + (head_bytes type len).length + len + 1 ≤ max s (2 ^ 31 + 2 ^ 28) + 29 := by
  rw [length_head_bytes]
  split
  · rename_i hlong
    have hlt := h hlong
    omega
  · omega

mutual

theorem serialized_bound : (t : Tok) → {s : Nat} → WellFormed t → FieldsBelow t s →
    s + (serialized t).length ≤ max s (2 ^ 31 + 2 ^ 28) + 29 * tokens t
  | .bytes d, s, h, hbelow => by
    have hleaf := leaf_bound 0 hbelow (h 0 0 _ .root)
    have hpos := tokens_pos (.bytes d)
    rw [serialized, length_append]
    omega
  | .string text converted, s, h, hbelow => by
    have hpos := tokens_pos (.string text converted)
    have hleaf := leaf_bound 1 hbelow (h 0 0 _ .root)
    rw [serialized, length_append, length_append, length_singleton]
    omega
  | .array _ items, s, h, hbelow => by
    have hhead := head_bound 2 hbelow.1
    have hitems := serialized_items_bound items (fun v hv => h.kid hv) hbelow.2
    rw [serialized, length_append, tokens]
    omega
  | .object _ props, s, h, hbelow => by
    have hhead := head_bound 3 hbelow.1
    have hprops := serialized_props_bound props (fun p hp => h.kid (mem_map_of_mem hp)) hbelow.2
    rw [serialized, length_append, tokens]
    omega
  | .boolean v, s, _, _ => by
    have hpos := tokens_pos (.boolean v)
    have hleaf := head_bound (s := s) 4 (headBelow_small (show v.toNat ≤ 27 by cases v <;> decide))
    rw [serialized]
    omega
  | .integer v, s, h, hbelow => by
    have hpos := tokens_pos (.integer v)
    have hleaf := head_bound 5 hbelow
    rw [serialized]
    omega
  | .null, s, _, _ => by
    have hpos := tokens_pos .null
    have hleaf := head_bound (s := s) 6 (headBelow_small (Nat.zero_le _))
    rw [serialized]
    omega

theorem serialized_items_bound : (ts : List Tok) → {s : Nat} → (∀ t ∈ ts, WellFormed t) → FieldsBelowItems ts s →
    s + (serialized_items ts).length ≤ max s (2 ^ 31 + 2 ^ 28) + 29 * tokens_items ts
  | [], s, _, _ => by
    rw [serialized_items, length_nil]
    omega
  | t :: ts, s, h, hbelow => by
    have ht := serialized_bound t (h t (by simp)) hbelow.1
    have hts := serialized_items_bound ts (fun u hu => h u (by simp [hu])) hbelow.2
    rw [serialized_items, length_append, tokens_items]
    omega

theorem serialized_props_bound : (ps : List (Nat × Tok)) → {s : Nat} → (∀ p ∈ ps, WellFormed p.2) →
    FieldsBelowProps ps s → s + (serialized_props ps).length ≤ max s (2 ^ 31 + 2 ^ 28) + 29 * tokens_props ps
  | [], s, _, _ => by
    rw [serialized_props, length_nil]
    omega
  | (k, t) :: ps, s, h, hbelow => by
    obtain ⟨hkey, hbelow, hrest⟩ := hbelow
    have ht := serialized_bound t (h (k, t) (by simp)) hbelow
    have hps := serialized_props_bound ps (fun u hu => h u (by simp [hu])) hrest
    rw [serialized_props, length_append, length_append, length_beFix, tokens_props]
    omega

end

/-! ## Reading it back -/

theorem length_serialized_pos (t : Tok) : 0 < (serialized t).length := by
  cases t <;> simp [serialized, head_bytes]

/-- The tokens have room in the array. -/
structure Roomy (jp : bin_ctx_t) : Prop where
  room : jp.result.length ≤ jp.allocated
  inside : jp.inside = true

theorem Roomy.next_item (h : Roomy jp) (type len : Nat) : Roomy (next_item jp type len) := by
  refine ⟨?_, h.inside⟩
  have hroom := h.room
  simp only [In3.next_item, length_append, length_singleton, grow]
  split
  · omega
  · split <;> omega

theorem Roomy.set_key (h : Roomy jp) {ll : Nat} (hll : ll < jp.result.length) (key : Nat) :
    Roomy (set_key jp ll key) := by
  have hroom := h.room
  refine ⟨by simpa [In3.set_key] using hroom, ?_⟩
  simp only [In3.set_key, h.inside, Bool.true_and, decide_eq_true_eq]
  omega

section Back
variable {d : Bytes}

/-- The tokens `us` that point into `d` say what the tokens `ts` say. -/
def SameShown (d : Bytes) (us : List BinToken) (ts : List JsonToken) : Prop :=
  us.map (Token.shown (data_in d)) = ts.map (Token.shown own_data)

def Back (value : bin_ctx_t → Nat → BinRun (bin_ctx_t × Nat)) (d : Bytes) (t : Tok) (p : Nat) : Prop :=
  ∀ jp, Roomy jp → ∃ jp' us, (value jp p).ok (jp', p + (serialized t).length) ∧ jp'.result = jp.result ++ us ∧ Roomy jp' ∧
    SameShown d us (layout 0 t)

variable {fuel : Nat} {m : Platform} {post pre : Bytes} {t u : Tok} {us : List BinToken}

theorem SameShown.append {vs : List BinToken} {ts ws : List JsonToken} (h : SameShown d us ts)
    (h' : SameShown d vs ws) : SameShown d (us ++ vs) (ts ++ ws) := by
  rw [SameShown, map_append, map_append, h, h']

theorem SameShown.set_key (h : SameShown d us (layout 0 t)) (k : Nat) :
    us ≠ [] ∧ SameShown d (us.modify 0 fun u => { u with key := k }) (layout k t) := by
  have hkey : (token_of k t).shown own_data = { (token_of 0 t).shown own_data with key := k } := by
    rw [token_of_key]
    rfl
  rw [SameShown, layout_eq, map_cons] at h
  cases us with
  | nil => cases h
  | cons u us =>
    rw [map_cons, List.cons.injEq] at h
    refine ⟨cons_ne_nil _ _, ?_⟩
    rw [SameShown, modify_zero_cons, layout_eq, map_cons, map_cons, h.2, hkey, ← h.1]
    rfl

section Loops
variable {value : bin_ctx_t → Nat → BinRun (bin_ctx_t × Nat)} {jp : bin_ctx_t} {post pre : Bytes}

theorem Back.keyed {p : Nat} (h : Back value d t p) (hjp : Roomy jp) (key : Nat) : ∃ jp₁ us,
    (value jp p).ok (jp₁, p + (serialized t).length) ∧ (set_key jp₁ jp.result.length key).result = jp.result ++ us ∧
      Roomy (set_key jp₁ jp.result.length key) ∧ SameShown d us (layout (key % 2 ^ 16) t) := by
  obtain ⟨jp₁, us, hread, hus, hjp₁, hshown⟩ := h jp hjp
  obtain ⟨hne, hshown⟩ := hshown.set_key (key % 2 ^ 16)
  have hpos := length_pos_of_ne_nil hne
  refine ⟨jp₁, _, hread, ?_, hjp₁.set_key (by rw [hus, length_append]; omega) key, hshown⟩
  rw [In3.set_key, hus, modify_length_append]

theorem read_array_back {ts : List Tok} (hvalue : ∀ t ∈ ts, ∀ pre post, d = pre ++ (serialized t ++ post) →
      Back value d t pre.length) (i : Nat) (hd : d = pre ++ (serialized_items ts ++ post))
    (hjp : Roomy jp) : ∃ jp' us,
      (read_array value ts.length i jp pre.length).ok (jp', pre.length + (serialized_items ts).length) ∧
        jp'.result = jp.result ++ us ∧ Roomy jp' ∧ SameShown d us (layout_items i ts) := by
  induction ts generalizing i pre jp with
  | nil => exact ⟨jp, [], ok_pure.2 rfl, by simp, hjp, rfl⟩
  | cons t ts ih =>
    rw [serialized_items, append_assoc] at hd
    obtain ⟨jp₁, us, hread, hus, hset, hshown⟩ := (hvalue t (by simp) pre _ hd).keyed hjp i
    rw [← append_assoc] at hd
    obtain ⟨jp', vs, hreads, hvs, hjp', hrest⟩ := ih (fun u hu => hvalue u (by simp [hu])) (i + 1) hd hset
    rw [length_append, Nat.add_assoc] at hreads
    refine ⟨jp', us ++ vs, ?_, by rw [hvs, hus, append_assoc], hjp', hshown.append hrest⟩
    rw [length_cons, read_array, ok_bind, serialized_items, length_append]
    exact ⟨_, hread, hreads⟩

theorem read_object_back {ps : List (Nat × Tok)} (hkeys : ∀ p ∈ ps, p.1 < 2 ^ 16)
    (hvalue : ∀ p ∈ ps, ∀ pre post, d = pre ++ (serialized p.2 ++ post) → Back value d p.2 pre.length)
    (hd : d = pre ++ (serialized_props ps ++ post)) (hjp : Roomy jp) : ∃ jp' us,
      (read_object d value ps.length jp pre.length).ok (jp', pre.length + (serialized_props ps).length) ∧
        jp'.result = jp.result ++ us ∧ Roomy jp' ∧ SameShown d us (layout_props ps) := by
  induction ps generalizing pre jp with
  | nil => exact ⟨jp, [], ok_pure.2 rfl, by simp, hjp, rfl⟩
  | cons p ps ih =>
    obtain ⟨key, t⟩ := p
    have hkey : key < 2 ^ 16 := hkeys (key, t) (by simp)
    rw [serialized_props, append_assoc, append_assoc] at hd
    have hbytes := read_bytes_append pre (beFix 2 key) (serialized t ++ (serialized_props ps ++ post))
    have hlen := congrArg List.length hd
    have htree := length_serialized_pos t
    simp only [length_append, length_beFix] at hlen
    rw [← hd] at hbytes
    rw [← append_assoc] at hd
    obtain ⟨jp₁, us, hread, hus, hset, hshown⟩ := (hvalue (key, t) (by simp) _ _ hd).keyed hjp key
    rw [Nat.mod_eq_of_lt hkey] at hshown
    rw [← append_assoc] at hd
    obtain ⟨jp', vs, hreads, hvs, hjp', hrest⟩ :=
      ih (fun u hu => hkeys u (by simp [hu])) (fun u hu => hvalue u (by simp [hu])) hd hset
    simp only [length_append, Nat.add_assoc] at hread hreads
    refine ⟨jp', us ++ vs, ?_, by rw [hvs, hus, append_assoc], hjp', hshown.append hrest⟩
    simp only [length_cons, read_object, ok_check, ok_bind, serialized_props, length_append]
    refine ⟨by omega, _, hbytes, _, hread, ?_⟩
    rw [beNat_beFix, Nat.mod_eq_of_lt (by omega : key < 256 ^ 2)]
    exact hreads

end Loops

theorem data_in_append (pre data post : Bytes) : data_in (pre ++ (data ++ post)) (some pre.length) data.length = data := by
  rw [data_in, Option.getD_some, drop_left, take_left]

theorem shown_eq {k : BinToken} (h : u.Fits) (hk : k.len = (d_type u).code * 2 ^ 28 ||| d_len u) (hkey : k.key = 0)
    (hdata : (d_type u).code < 2 → data_in d k.data (d_len u) = own_data (token_of 0 u).data (d_len u)) :
    k.shown (data_in d) = (token_of 0 u).shown own_data := by
  obtain ⟨htype, hsize⟩ := token_of_fits h 0
  have hlen : d_len u < 2 ^ 28 := by
    rw [← hsize]
    exact Nat.mod_lt _ (by decide)
  obtain ⟨htype', hsize'⟩ := token_word hk
  rw [Nat.div_eq_of_lt hlen, Nat.or_zero] at htype'
  rw [Nat.mod_eq_of_lt hlen] at hsize'
  have hkey' : (token_of 0 u).key = 0 := by cases u <;> rfl
  rw [Token.shown, Token.shown, htype, htype', hsize, hsize', hkey, hkey']
  by_cases hcontent : (d_type u).code < 2
  · rw [if_pos hcontent, if_pos hcontent, hdata hcontent]
  · rw [if_neg hcontent, if_neg hcontent]

theorem node_shown (h : u.Fits) (hnode : 2 ≤ (d_type u).code) :
    SameShown d [⟨(d_type u).code * 2 ^ 28 ||| d_len u, 0, false, none⟩] [token_of 0 u] := by
  rw [SameShown, map_singleton, map_singleton, shown_eq h rfl rfl fun hlt => by omega]

theorem plain_back (h : u.Fits) (hplain : 4 ≤ (d_type u).code)
    (hcount : ¬ ((d_type u).code = 6 ∧ 0 < d_len u)) (href : ¬ ((d_type u).code = 4 ∧ 1 < d_len u))
    (hbytes : serialized u = head_bytes (d_type u).code (d_len u)) (hlayout : layout 0 u = [token_of 0 u])
    (hd : d = pre ++ (serialized u ++ post)) : Back (read_token m d (fuel + 1)) d u pre.length := by
  intro jp hjp
  have htype : (d_type u).code < 8 := by cases u <;> simp [d_type, d_type_t.code]
  have hlen : d_len u < 2 ^ 28 := by
    rw [← (token_of_fits h 0).2]
    exact Nat.mod_lt _ (by decide)
  have hhead := read_head_append htype hlen pre post
  rw [← hbytes, ← hd] at hhead
  refine ⟨next_item jp (d_type u).code (d_len u), _, ?_, rfl, hjp.next_item _ _, ?_⟩
  · rw [read_token, ok_bind]
    refine ⟨_, hhead, ?_⟩
    simp [if_neg hcount, if_neg href, if_neg (show (d_type u).code ≠ 2 by omega),
      if_neg (show (d_type u).code ≠ 3 by omega), if_neg (show (d_type u).code ≠ 1 by omega),
      if_neg (show (d_type u).code ≠ 0 by omega)]
  · rw [hlayout]
    exact node_shown h (by omega)

theorem data_back {c : Bytes} (h : u.Fits) (hlen : d_len u = c.length) (hown : (token_of 0 u).data.getD [] = c)
    (hlayout : layout 0 u = [token_of 0 u])
    (hd : d = pre ++ (head_bytes (d_type u).code c.length ++ (c ++ post))) {jp : bin_ctx_t} (hjp : Roomy jp) :
    ∃ us, (set_data (next_item jp (d_type u).code c.length) jp.result.length
        (pre.length + (head_bytes (d_type u).code c.length).length)).result = jp.result ++ us ∧
      Roomy (set_data (next_item jp (d_type u).code c.length) jp.result.length
        (pre.length + (head_bytes (d_type u).code c.length).length)) ∧ SameShown d us (layout 0 u) := by
  have hdata := data_in_append (pre ++ head_bytes (d_type u).code c.length) c post
  rw [append_assoc, ← hd, length_append] at hdata
  refine ⟨_, modify_length_append _ _ _, ⟨?_, hjp.inside⟩, ?_⟩
  · have hroom := (hjp.next_item (d_type u).code c.length).room
    rwa [set_data, length_modify]
  · rw [SameShown, hlayout, map_singleton, modify_zero_cons, map_singleton,
      shown_eq h (by rw [hlen]) rfl fun _ => ?_]
    rw [own_data, hown, hlen, take_length]
    exact hdata

theorem read_token_back (h : WellFormed t) (hfuel : tokens t ≤ fuel)
    (hd : d = pre ++ (serialized t ++ post)) : Back (read_token m d fuel) d t pre.length := by
  induction fuel generalizing t pre post with
  | zero =>
    have hpos := tokens_pos t
    omega
  | succ fuel ih =>
    have hfits := h 0 0 t .root
    have hkids : ∀ v ∈ t.kids, ∀ pre post, d = pre ++ (serialized v ++ post) → Back (read_token m d fuel) d v pre.length := by
      intro v hv pre post hv'
      have hlt := tokens_kid_lt hv
      exact ih (h.kid hv) (by omega) hv'
    cases t with
    | bytes b =>
      intro jp hjp
      rw [serialized, append_assoc] at hd
      have hhead := read_head_append (show 0 < 8 by decide) hfits pre (b.getD [] ++ post)
      have hlen := congrArg List.length hd
      simp only [length_append] at hlen
      rw [← hd] at hhead
      obtain ⟨us, hus, hroomy, hshown⟩ := data_back (u := .bytes b) hfits rfl rfl rfl hd hjp
      refine ⟨_, us, ?_, hus, hroomy, hshown⟩
      rw [read_token, ok_bind, serialized, length_append]
      refine ⟨_, hhead, ?_⟩
      simp only [OfNat.zero_ne_ofNat, false_and, if_false, zero_ne_one, if_true, ok_ite_throw, ok_pure,
        Nat.add_assoc]
      exact ⟨by omega, rfl⟩
    | string text converted =>
      intro jp hjp
      rw [serialized, append_assoc, append_assoc] at hd
      have hhead := read_head_append (show 1 < 8 by decide) hfits pre (text ++ ([0] ++ post))
      have hzero := read_byte_append (pre ++ (head_bytes 1 text.length ++ text)) post 0
      have hlen := congrArg List.length hd
      simp only [length_append, length_singleton] at hlen
      rw [append_assoc, append_assoc, ← singleton_append, ← hd, length_append, length_append,
        ← Nat.add_assoc] at hzero
      rw [← hd] at hhead
      obtain ⟨us, hus, hroomy, hshown⟩ := data_back (u := .string text converted) hfits rfl rfl rfl hd hjp
      refine ⟨_, us, ?_, hus, hroomy, hshown⟩
      rw [read_token, ok_bind, serialized, length_append, length_append, length_singleton]
      refine ⟨_, hhead, ?_⟩
      simp only [OfNat.one_ne_ofNat, false_and, if_false, if_true, ok_ite_throw, ok_bind, ok_pure]
      refine ⟨by omega, 0, hzero, by decide, ?_⟩
      rw [Nat.add_right_comm, Nat.add_assoc, Nat.add_assoc]
      rfl
    | array text items =>
      intro jp hjp
      rw [serialized, append_assoc] at hd
      have hhead := read_head_append (show 2 < 8 by decide) hfits pre (serialized_items items ++ post)
      rw [← hd] at hhead
      rw [← append_assoc] at hd
      obtain ⟨jp', us, hread, hus, hroomy, hshown⟩ := read_array_back hkids 0 hd (hjp.next_item 2 items.length)
      rw [next_item, append_assoc] at hus
      refine ⟨jp', _, ?_, hus, hroomy, ?_⟩
      · rw [read_token, ok_bind, serialized, length_append, ← Nat.add_assoc]
        refine ⟨_, hhead, ?_⟩
        simp only [Nat.reduceEqDiff, false_and, if_false, if_true]
        rw [length_append] at hread
        exact hread
      · rw [layout]
        exact SameShown.append (node_shown hfits (by simp [d_type, d_type_t.code])) hshown
    | object text props =>
      intro jp hjp
      rw [serialized, append_assoc] at hd
      have hhead := read_head_append (show 3 < 8 by decide) hfits.1 pre (serialized_props props ++ post)
      rw [← hd] at hhead
      rw [← append_assoc] at hd
      have hvalue := fun p hp => hkids (Prod.snd p) (mem_map_of_mem hp)
      obtain ⟨jp', us, hread, hus, hroomy, hshown⟩ := read_object_back hfits.2 hvalue hd (hjp.next_item 3 props.length)
      rw [next_item, append_assoc] at hus
      refine ⟨jp', _, ?_, hus, hroomy, ?_⟩
      · rw [read_token, ok_bind, serialized, length_append, ← Nat.add_assoc]
        refine ⟨_, hhead, ?_⟩
        simp only [Nat.reduceEqDiff, false_and, if_false, if_true]
        rw [length_append] at hread
        exact hread
      · rw [layout]
        exact SameShown.append (node_shown hfits (by simp [d_type, d_type_t.code])) hshown
    | boolean v =>
      refine plain_back hfits (by simp [d_type, d_type_t.code]) (by simp [d_type, d_type_t.code]) ?_ rfl rfl hd
      cases v <;> simp [d_len]
    | integer v =>
      refine plain_back hfits (by simp [d_type, d_type_t.code]) (by simp [d_type, d_type_t.code])
        (by simp [d_type, d_type_t.code]) ?_ rfl hd
      rw [serialized, d_len, Nat.mod_eq_of_lt hfits]
      rfl
    | null =>
      refine plain_back hfits (by simp [d_type, d_type_t.code]) (by simp [d_len]) (by simp [d_len]) rfl rfl hd

end Back

mutual

theorem tokens_le_serialized : (t : Tok) → tokens t ≤ (serialized t).length
  | .array text items => by
    have hitems := tokens_le_serialized_items items
    have hhead := length_head_bytes 2 items.length
    rw [tokens, serialized, length_append]
    omega
  | .object text props => by
    have hprops := tokens_le_serialized_props props
    have hhead := length_head_bytes 3 props.length
    rw [tokens, serialized, length_append]
    omega
  | .bytes d => length_serialized_pos (.bytes d)
  | .string s converted => length_serialized_pos (.string s converted)
  | .boolean v => length_serialized_pos (.boolean v)
  | .integer v => length_serialized_pos (.integer v)
  | .null => length_serialized_pos .null

theorem tokens_le_serialized_items : (ts : List Tok) → tokens_items ts ≤ (serialized_items ts).length
  | [] => le_rfl
  | t :: ts => by
    have ht := tokens_le_serialized t
    have hts := tokens_le_serialized_items ts
    rw [tokens_items, serialized_items, length_append]
    omega

theorem tokens_le_serialized_props : (ps : List (Nat × Tok)) → tokens_props ps ≤ (serialized_props ps).length
  | [] => le_rfl
  | (k, t) :: ps => by
    have ht := tokens_le_serialized t
    have hps := tokens_le_serialized_props ps
    rw [tokens_props, serialized_props, length_append, length_append]
    omega

end

/-! ## Documents -/

theorem read_tokens_step {m : Platform} {d : Bytes} {p q : Nat} {jp₁ jp' : bin_ctx_t} (hp : p < d.length)
    (hfirst : (read_token m d (d.length + 1) jp p).ok (jp₁, q)) (hrest : (read_tokens m d fuel jp₁ q).ok jp') :
    (read_tokens m d (fuel + 1) jp p).ok jp' := by
  rw [read_tokens, if_pos hp, ok_bind]
  exact ⟨_, hfirst, hrest⟩

section Documents
variable {t : Tok} (h : WellFormed t) (hcount : tokens t ≤ JSON_MAX_ALLOWED_TOKENS)
include h hcount

theorem d_serialize_binary_ok_iff (k : Nat) (rest : List JsonToken) (d : Bytes) :
    (d_serialize_binary (layout k t ++ rest)).ok d ↔
      d = head_bytes 6 (tokens t) ++ serialized t ∧ FieldsBelow t (head_bytes 6 (tokens t)).length := by
  have hfuel : tokens t ≤ (layout k t ++ rest).length := by
    rw [length_append, length_layout]
    omega
  have hfirst : HeadBelow (tokens t) 0 := by
    intro _
    have hfour := (min_bytes_len_spec (hcount.trans_lt (by decide))).1
    omega
  have hsmall := head_bound 6 hfirst
  have hwrites := appends_bind (appends_head 6 (tokens t)) (write_token_writes h hfuel k rest) [] d (by decide)
  simp only [nil_append, length_nil, Nat.zero_add] at hwrites
  rw [d_serialize_binary, d_token_size_layout h.tellsKids k rest]
  refine hwrites.trans (and_congr_right fun _ => ⟨fun hall => hall.2.2, fun hbelow => ?_⟩)
  have hbound := serialized_bound t h hbelow
  rw [JSON_MAX_ALLOWED_TOKENS] at hcount
  exact ⟨by rw [length_append]; omega, hfirst, hbelow⟩

theorem parse_binary_serialized (m : Platform) : ∃ jp,
    (parse_binary m (head_bytes 6 (tokens t) ++ serialized t)).ok jp ∧ jp.inside = true ∧
      SameShown (head_bytes 6 (tokens t) ++ serialized t) jp.result (layout 0 t) := by
  generalize hd : head_bytes 6 (tokens t) ++ serialized t = d
  have hpos := tokens_pos t
  have hhead := read_head_append (show 6 < 8 by decide) (hcount.trans_lt (by decide)) [] (serialized t)
  have hle := tokens_le_serialized t
  have hlen := congrArg List.length hd
  rw [hd, length_nil, Nat.zero_add] at hhead
  rw [length_append] at hlen
  have hfirst : (read_token m d (d.length + 1) ⟨[], 0, true⟩ 0).ok
      (⟨[], tokens t, true⟩, (head_bytes 6 (tokens t)).length) := by
    rw [read_token, ok_bind]
    refine ⟨_, hhead, ?_⟩
    dsimp only
    rw [if_pos ⟨rfl, hpos⟩, if_neg (Nat.not_lt.2 hcount)]
    exact ok_pure.2 rfl
  obtain ⟨jp, us, hread, hus, hroomy, hshown⟩ := read_token_back (m := m) h (show tokens t ≤ d.length + 1 by omega)
    (by rw [append_nil, hd]) ⟨[], tokens t, true⟩
    ⟨Nat.zero_le _, rfl⟩
  refine ⟨jp, ?_, hroomy.inside, hus ▸ hshown⟩
  -- the count, the tree, and the end of the input
  have hbyte := length_head_bytes 6 (tokens t)
  obtain ⟨n, hn⟩ : ∃ n, d.length + 1 = n + 1 + 1 + 1 := ⟨d.length - 2, by omega⟩
  rw [hlen] at hread
  rw [parse_binary, hn]
  refine read_tokens_step (by omega) hfirst (read_tokens_step (by omega) hread ?_)
  rw [read_tokens, if_neg (Nat.lt_irrefl _)]
  exact ok_pure.2 rfl

/-- A tree is written and read back as the same tokens exactly if its length fields and its keys
end before byte `2^31` of the output. -/
theorem binary_round_trip_iff (m : Platform) (k : Nat) (rest : List JsonToken) :
    (∃ d jp, (d_serialize_binary (layout k t ++ rest)).ok d ∧ (parse_binary m d).ok jp ∧ jp.inside = true ∧
      SameShown d jp.result (layout 0 t)) ↔ FieldsBelow t (head_bytes 6 (tokens t)).length := by
  simp only [d_serialize_binary_ok_iff h hcount]
  constructor
  · rintro ⟨d, jp, ⟨-, hbelow⟩, -⟩
    exact hbelow
  · intro hbelow
    obtain ⟨jp, hparse, hinside, hshown⟩ := parse_binary_serialized h hcount m
    exact ⟨_, jp, ⟨rfl, hbelow⟩, hparse, hinside, hshown⟩

end Documents

theorem wellFormed_iff : WellFormed t ↔ t.Fits ∧ ∀ v ∈ t.kids, WellFormed v := by
  refine ⟨fun h => ⟨h 0 0 t .root, fun v hv => h.kid hv⟩, ?_⟩
  rintro ⟨hfits, hkids⟩ d p u hu
  rcases hu.cases_root with ⟨-, -, rfl⟩ | ⟨i, v, d', p', hv, hu, -, -⟩
  · exact hfits
  · exact hkids v (mem_of_getElem? hv) d' p' u hu

theorem wellFormed_leaf (h : t.Fits) (hkids : t.kids = []) : WellFormed t :=
  wellFormed_iff.2 ⟨h, by simp [hkids]⟩

theorem wellFormed_pair : WellFormed (.array [] [.integer 300, .string [97] false]) := by
  refine wellFormed_iff.2 ⟨show 2 < 2 ^ 28 by decide, ?_⟩
  intro v hv
  rcases mem_cons.1 hv with rfl | hv
  · exact wellFormed_leaf (show 300 < 2 ^ 28 by decide) rfl
  · rw [mem_singleton.1 hv]
    exact wellFormed_leaf (show 1 < 2 ^ 28 by decide) rfl

/-- The tree `[300, "a"]`. -/
theorem binary_round_trip_pair :
    ∃ d jp, (d_serialize_binary (layout 0 (.array [] [.integer 300, .string [97] false]) ++ [])).ok d ∧
      (parse_binary ⟨true, fun _ => ⟨0, 0, false, none⟩⟩ d).ok jp ∧ jp.inside = true ∧
      SameShown d jp.result (layout 0 (.array [] [.integer 300, .string [97] false])) := by
  refine (binary_round_trip_iff wellFormed_pair (by decide) _ 0 []).2 ?_
  exact ⟨by unfold HeadBelow; decide, by unfold FieldsBelow HeadBelow; decide, by unfold FieldsBelow HeadBelow; decide, trivial⟩

/-! ## Too wide a tree -/

theorem length_serialized_replicate (n : Nat) (t : Tok) :
    (serialized_items (replicate n t)).length = n * (serialized t).length := by
  induction n with
  | zero => simp [serialized_items]
  | succ n ih =>
    rw [replicate_succ, serialized_items, length_append, ih]
    ring

theorem fieldsBelowItems_append {ts us : List Tok} (h : FieldsBelowItems (ts ++ us) s) :
    FieldsBelowItems us (s + (serialized_items ts).length) := by
  induction ts generalizing s with
  | nil => exact h
  | cons t ts ih =>
    have hrest := ih h.2
    rwa [Nat.add_assoc, ← length_append] at hrest

/-- Eight byte strings of `n` bytes, and one of 28. -/
def wide (n : Nat) : Tok :=
  .array [] (replicate 8 (.bytes (some (replicate n 0))) ++ [.bytes (some (replicate 28 0))])

theorem bytes_wellFormed (h : n < 2 ^ 28) : WellFormed (.bytes (some (replicate n 0))) := by
  refine wellFormed_leaf ?_ rfl
  rwa [Tok.Fits, Option.getD_some, length_replicate]

theorem wide_wellFormed (h : n < 2 ^ 28) : WellFormed (wide n) := by
  refine wellFormed_iff.2 ⟨?_, ?_⟩
  · rw [wide, Tok.Fits, length_append, length_replicate]
    decide
  · intro v hv
    rw [wide, Tok.kids, mem_append, mem_replicate, mem_singleton] at hv
    rcases hv with ⟨-, rfl⟩ | rfl
    · exact bytes_wellFormed h
    · exact bytes_wellFormed (by decide)

theorem wide_not_below (hn : 2 ^ 28 ≤ n + 1) (s : Nat) : ¬ FieldsBelow (wide n) s := by
  intro h
  have hlast := (fieldsBelowItems_append h.2).1
  have hlen : n + 1 ≤ (serialized (.bytes (some (replicate n 0)))).length := by
    rw [serialized, Option.getD_some, length_append, length_head_bytes, length_replicate]
    omega
  rw [length_serialized_replicate, FieldsBelow, HeadBelow, Option.getD_some, length_replicate] at hlast
  omega

/-- A tree of ten tokens that is not serialized: a byte before the buffer is written. -/
theorem binary_round_trip_wide :
    WellFormed (wide (2 ^ 28 - 1)) ∧ tokens (wide (2 ^ 28 - 1)) ≤ JSON_MAX_ALLOWED_TOKENS ∧
      ∀ d, ¬ (d_serialize_binary (layout 0 (wide (2 ^ 28 - 1)) ++ [])).ok d := by
  have hwell := wide_wellFormed (show 2 ^ 28 - 1 < 2 ^ 28 by decide)
  have hcount : tokens (wide (2 ^ 28 - 1)) ≤ JSON_MAX_ALLOWED_TOKENS := by
    decide
  refine ⟨hwell, hcount, fun d hd => ?_⟩
  exact wide_not_below (by decide) _ ((d_serialize_binary_ok_iff hwell hcount 0 [] d).1 hd).2

end In3
