import In3.Core.JsonBounds
import In3.Core.TokenTree
/-!
# The tokens of a parsed text

What the parser stores is the layout of the document, unless a container with children has an
index that is no `int` (`store_eq`, `store_node`). The layout can be walked unless a string is
so long that its length changes its type: with bit 29 of its length set, and bits 30 and 31 not
set, the token is read as an object.
-/
open Lib List

namespace In3

open Grammar

/-! ## Storing is laying out -/

def counted (t : JsonToken) : JsonToken := { t with len := (t.len + 1) % 2 ^ 32 }

theorem int_of_lt (n : Nat) : int_of n < 2 ^ 31 := by
  unfold int_of
  omega

variable {c r : Bytes} {n : Nat} {t u : Tok} {value : Bytes → Tok → Bytes → Prop}

theorem int_of_small (h : n < 2 ^ 31) : int_of n = n := by
  unfold int_of
  omega

theorem length_add_child (parent : Int) (result : List JsonToken) :
    (add_child parent result).length = result.length := by
  rw [add_child]
  split <;> simp

theorem length_stored (parent : Int) (result : List JsonToken) (u : JsonToken) :
    (add_child parent result ++ [u]).length = result.length + 1 := by
  rw [length_append, length_add_child, length_singleton]

theorem add_child_append (pre laid : List JsonToken) (t : JsonToken) :
    add_child pre.length (pre ++ t :: laid) = pre ++ counted t :: laid := by
  induction pre with
  | nil => rfl
  | cons u pre ih => exact congrArg (u :: ·) ih

theorem iterate_counted (type : d_type_t) (k n : Nat) (data : Option Bytes) :
    counted^[n] ⟨node_len type 0, k, false, data⟩ = ⟨node_len type n, k, false, data⟩ := by
  induction n with
  | zero => rfl
  | succ n ih =>
    rw [Function.iterate_succ_apply', ih]
    simp only [counted, node_len, Token.mk.injEq, and_true]
    omega

/-- A tree whose first token has the index `n`: every container with children has an `int`
as its index. -/
def Placed (n : Nat) (t : Tok) : Prop := ∀ d p u, ValueAt t d p u → u.kids ≠ [] → n + p < 2 ^ 31

def PlacedAll (n : Nat) (vs : List Tok) : Prop :=
  ∀ (j : Nat) (v : Tok), vs[j]? = some v → Placed (n + ((vs.take j).map tokens).sum) v

theorem placedAll_cons {v : Tok} {vs : List Tok} (h : PlacedAll n (v :: vs)) :
    Placed n v ∧ PlacedAll (n + tokens v) vs := by
  constructor
  · have hv := h 0 v rfl
    rwa [take_zero, map_nil, sum_nil] at hv
  · intro j w hw
    have hw := h (j + 1) w hw
    rwa [take_succ_cons, map_cons, sum_cons, ← Nat.add_assoc] at hw

theorem Placed.kids (h : Placed n t) : PlacedAll (n + 1) t.kids := by
  intro j v hv d p u hu hkids
  have hlt := h _ _ u (hu.inside hv) hkids
  rw [kid_offset] at hlt
  omega

mutual

theorem store_eq (parent : Int) (key : Nat) (result : List JsonToken) :
    (t : Tok) → Placed result.length t → store parent key result t = add_child parent result ++ layout key t
  | .array text items, h => by
    have hlen := length_add_child parent result
    cases hitems : items with
    | nil => rw [store, store_items, layout, layout_items]; rfl
    | cons v vs =>
      have hlt : result.length < 2 ^ 31 := h 0 0 _ .root (by simp [Tok.kids, hitems])
      have hkids := h.kids
      rw [← hlen] at hkids
      have hloop := store_items_eq (add_child parent result) [] ⟨node_len .T_ARRAY 0, key, false, some text⟩ 0 rfl items hkids
      rw [← hitems, store, int_of_small hlt, ← hlen, hloop, iterate_counted, layout]
      simp
  | .object text props, h => by
    have hlen := length_add_child parent result
    cases hprops : props with
    | nil => rw [store, store_props, layout, layout_props]; rfl
    | cons v vs =>
      have hlt : result.length < 2 ^ 31 := h 0 0 _ .root (by simp [Tok.kids, hprops])
      have hkids := h.kids
      rw [← hlen] at hkids
      have hloop := store_props_eq (add_child parent result) [] ⟨node_len .T_OBJECT 0, key, false, some text⟩ props hkids
      rw [← hprops, store, int_of_small hlt, ← hlen, hloop, iterate_counted, layout]
      simp
  | .bytes d, _ => by rw [store]
  | .string s converted, _ => by rw [store]
  | .boolean v, _ => by rw [store]
  | .integer v, _ => by rw [store]
  | .null, _ => by rw [store]

theorem store_items_eq (pre laid : List JsonToken) (t : JsonToken) (i : Nat)
    (ht : t.len = node_len .T_ARRAY i) :
    (ts : List Tok) → PlacedAll (pre.length + 1 + laid.length) ts →
    store_items pre.length (pre ++ t :: laid) ts = pre ++ counted^[ts.length] t :: laid ++ layout_items i ts
  | [], _ => by simp [store_items, layout_items]
  | v :: ts, h => by
    have hkey : element_key (pre ++ t :: laid) pre.length = i % 2 ^ 16 := by
      rw [element_key, if_pos (Int.natCast_nonneg _), Int.toNat_natCast, List.getElem?_append_right (le_refl _),
        Nat.sub_self, List.getElem?_cons_zero, Option.map_some, Option.getD_some, ht, node_len, d_type_t.code]
      omega
    have hcounted : (counted t).len = node_len .T_ARRAY (i + 1) := by
      simp only [counted, ht, node_len]
      omega
    obtain ⟨hv, hts⟩ := placedAll_cons h
    have hlen : (pre ++ t :: laid).length = pre.length + 1 + laid.length := by
      rw [length_append, length_cons]
      omega
    rw [← hlen] at hv
    rw [Nat.add_assoc, ← length_layout (i % 2 ^ 16) v, ← length_append] at hts
    rw [store_items, hkey, store_eq _ _ _ v hv, add_child_append, append_assoc, cons_append,
      store_items_eq pre (laid ++ layout (i % 2 ^ 16) v) (counted t) (i + 1) hcounted ts hts]
    simp [layout_items, Function.iterate_succ_apply]

theorem store_props_eq (pre laid : List JsonToken) (t : JsonToken) :
    (ps : List (Nat × Tok)) → PlacedAll (pre.length + 1 + laid.length) (ps.map Prod.snd) →
    store_props pre.length (pre ++ t :: laid) ps = pre ++ counted^[ps.length] t :: laid ++ layout_props ps
  | [], _ => by simp [store_props, layout_props]
  | (k, v) :: ps, h => by
    obtain ⟨hv, hps⟩ := placedAll_cons h
    have hlen : (pre ++ t :: laid).length = pre.length + 1 + laid.length := by
      rw [length_append, length_cons]
      omega
    rw [← hlen] at hv
    rw [Nat.add_assoc, ← length_layout k v, ← length_append] at hps
    rw [store_props, store_eq _ _ _ v hv, add_child_append, append_assoc, cons_append,
      store_props_eq pre (laid ++ layout k v) (counted t) ps hps]
    simp [layout_props, Function.iterate_succ_apply]

end

/-! ## Containers behind `2^31` tokens -/

mutual

theorem length_store (parent : Int) (key : Nat) (result : List JsonToken) :
    (t : Tok) → (store parent key result t).length = result.length + tokens t
  | .array text items => by
    rw [store, length_store_items, length_stored, tokens]
    omega
  | .object text props => by
    rw [store, length_store_props, length_stored, tokens]
    omega
  | .bytes d => by rw [store, length_append, length_add_child, length_layout]
  | .string s converted => by rw [store, length_append, length_add_child, length_layout]
  | .boolean v => by rw [store, length_append, length_add_child, length_layout]
  | .integer v => by rw [store, length_append, length_add_child, length_layout]
  | .null => by rw [store, length_append, length_add_child, length_layout]

theorem length_store_items (p_index : Int) (result : List JsonToken) :
    (ts : List Tok) → (store_items p_index result ts).length = result.length + tokens_items ts
  | [] => by rw [store_items, tokens_items, Nat.add_zero]
  | t :: ts => by rw [store_items, length_store_items _ _ ts, length_store _ _ _ t, tokens_items, Nat.add_assoc]

theorem length_store_props (p_index : Int) (result : List JsonToken) :
    (ps : List (Nat × Tok)) → (store_props p_index result ps).length = result.length + tokens_props ps
  | [] => by rw [store_props, tokens_props, Nat.add_zero]
  | (k, t) :: ps => by rw [store_props, length_store_props _ _ ps, length_store _ _ _ t, tokens_props, Nat.add_assoc]

end

theorem add_child_kept {i : Nat} (hi : 2 ^ 31 ≤ i) {parent : Int} (hp : parent < 2 ^ 31)
    (result laid : List JsonToken) (hlt : i < result.length) :
    (add_child parent result ++ laid)[i]? = result[i]? := by
  rw [List.getElem?_append_left (by rwa [length_add_child]), add_child]
  split
  · have hne : parent.toNat ≠ i := by omega
    simp [hne]
  · rfl

mutual

theorem store_kept {i : Nat} (hi : 2 ^ 31 ≤ i) {parent : Int} (hp : parent < 2 ^ 31) (key : Nat)
    (result : List JsonToken) (hlt : i < result.length) :
    (t : Tok) → (store parent key result t)[i]? = result[i]?
  | .array text items => by
    rw [store, store_items_kept hi (int_of_lt _) _ (by rw [length_stored]; omega) items,
      add_child_kept hi hp _ _ hlt]
  | .object text props => by
    rw [store, store_props_kept hi (int_of_lt _) _ (by rw [length_stored]; omega) props,
      add_child_kept hi hp _ _ hlt]
  | .bytes d => by rw [store, add_child_kept hi hp _ _ hlt]
  | .string s converted => by rw [store, add_child_kept hi hp _ _ hlt]
  | .boolean v => by rw [store, add_child_kept hi hp _ _ hlt]
  | .integer v => by rw [store, add_child_kept hi hp _ _ hlt]
  | .null => by rw [store, add_child_kept hi hp _ _ hlt]

theorem store_items_kept {i : Nat} (hi : 2 ^ 31 ≤ i) {p_index : Int} (hp : p_index < 2 ^ 31)
    (result : List JsonToken) (hlt : i < result.length) :
    (ts : List Tok) → (store_items p_index result ts)[i]? = result[i]?
  | [] => by rw [store_items]
  | t :: ts => by
    rw [store_items, store_items_kept hi hp _ (by rw [length_store]; omega) ts, store_kept hi hp _ _ hlt t]

theorem store_props_kept {i : Nat} (hi : 2 ^ 31 ≤ i) {p_index : Int} (hp : p_index < 2 ^ 31)
    (result : List JsonToken) (hlt : i < result.length) :
    (ps : List (Nat × Tok)) → (store_props p_index result ps)[i]? = result[i]?
  | [] => by rw [store_props]
  | (k, t) :: ps => by
    rw [store_props, store_props_kept hi hp _ (by rw [length_store]; omega) ps, store_kept hi hp _ _ hlt t]

end

/-- A container that counted nothing. -/
def Uncounted (k : Option JsonToken) : Prop := ∃ u, k = some u ∧ u.isContainer = true ∧ u.size = 0

/-- A container has counted nothing when it is stored. -/
theorem uncounted_stored (parent : Int) (key : Nat) (result : List JsonToken) (text : Bytes) {type : d_type_t}
    (htype : type = .T_ARRAY ∨ type = .T_OBJECT) :
    Uncounted (add_child parent result ++ [⟨node_len type 0, key, false, some text⟩])[result.length]? := by
  obtain ⟨hcode, hsize⟩ := node_len_type (n := 0) (by decide) type
  rw [List.getElem?_append_right (by rw [length_add_child]), length_add_child, Nat.sub_self]
  refine ⟨_, rfl, ?_, hsize⟩
  rw [Token.isContainer, Token.type, hcode]
  rcases htype with rfl | rfl <;> rfl

theorem not_node_of_leaf {d p : Nat} (ht : t.isNode = false) (h : ValueAt t d p u) (hu : u.isNode = true) : False := by
  rcases h.cases_root with ⟨-, -, rfl⟩ | ⟨i, v, -, -, hv, -⟩
  · simp [ht] at hu
  · simp [kids_of_not_node ht] at hv

mutual

theorem store_node (parent : Int) (key : Nat) (result : List JsonToken) {d p : Nat}
    {u : Tok} (hu : u.isNode = true) (hbig : 2 ^ 31 ≤ result.length + p) :
    (t : Tok) → ValueAt t d p u → Uncounted (store parent key result t)[result.length + p]?
  | .array text items, h => by
    rw [store]
    rcases h.cases_root with ⟨-, rfl, rfl⟩ | ⟨j, v, d', p', hv, hv', -, rfl⟩
    · rw [store_items_kept hbig (int_of_lt _) _ (by rw [length_stored]; omega) items, Nat.add_zero]
      exact uncounted_stored parent key result text (.inl rfl)
    · have hplace : result.length + (kid_offset (.array text items) j + p') =
          result.length + 1 + ((items.take j).map tokens).sum + p' := by
        rw [kid_offset, Tok.kids]
        omega
      rw [hplace, ← length_stored parent] at hbig ⊢
      exact store_items_node (int_of_lt _) _ hu items hv hv' hbig
  | .object text props, h => by
    rw [store]
    rcases h.cases_root with ⟨-, rfl, rfl⟩ | ⟨j, v, d', p', hv, hv', -, rfl⟩
    · rw [store_props_kept hbig (int_of_lt _) _ (by rw [length_stored]; omega) props, Nat.add_zero]
      exact uncounted_stored parent key result text (.inr rfl)
    · have hplace : result.length + (kid_offset (.object text props) j + p') =
          result.length + 1 + (((props.map Prod.snd).take j).map tokens).sum + p' := by
        rw [kid_offset, Tok.kids]
        omega
      rw [hplace, ← length_stored parent] at hbig ⊢
      exact store_props_node (int_of_lt _) _ hu props hv hv' hbig
  | .bytes d, h => absurd (not_node_of_leaf rfl h hu) id
  | .string s converted, h => absurd (not_node_of_leaf rfl h hu) id
  | .boolean v, h => absurd (not_node_of_leaf rfl h hu) id
  | .integer v, h => absurd (not_node_of_leaf rfl h hu) id
  | .null, h => absurd (not_node_of_leaf rfl h hu) id

theorem store_items_node {p_index : Int} (hp : p_index < 2 ^ 31) (result : List JsonToken) {d p j : Nat}
    {u v : Tok} (hu : u.isNode = true) :
    (ts : List Tok) → ts[j]? = some v → ValueAt v d p u → 2 ^ 31 ≤ result.length + ((ts.take j).map tokens).sum + p →
      Uncounted (store_items p_index result ts)[result.length + ((ts.take j).map tokens).sum + p]?
  | [], hv, _, _ => by simp at hv
  | t :: ts, hv, h, hbig => by
    rw [store_items]
    cases j with
    | zero =>
      obtain rfl := Option.some.inj hv
      have hlt := h.lt_tokens
      rw [take_zero, map_nil, sum_nil] at hbig ⊢
      rw [store_items_kept hbig hp _ (by rw [length_store]; omega) ts]
      exact store_node _ _ result hu hbig t h
    | succ j =>
      rw [take_succ_cons, map_cons, sum_cons, ← Nat.add_assoc result.length,
        ← length_store p_index (element_key result p_index) result t] at hbig ⊢
      exact store_items_node hp _ hu ts hv h hbig

theorem store_props_node {p_index : Int} (hp : p_index < 2 ^ 31) (result : List JsonToken) {d p j : Nat}
    {u v : Tok} (hu : u.isNode = true) :
    (ps : List (Nat × Tok)) → (ps.map Prod.snd)[j]? = some v → ValueAt v d p u →
      2 ^ 31 ≤ result.length + (((ps.map Prod.snd).take j).map tokens).sum + p →
      Uncounted (store_props p_index result ps)[result.length + (((ps.map Prod.snd).take j).map tokens).sum + p]?
  | [], hv, _, _ => by simp at hv
  | (k, t) :: ps, hv, h, hbig => by
    rw [store_props]
    cases j with
    | zero =>
      obtain rfl : t = v := Option.some.inj hv
      have hlt := h.lt_tokens
      rw [take_zero, map_nil, sum_nil] at hbig ⊢
      rw [store_props_kept hbig hp _ (by rw [length_store]; omega) ps]
      exact store_node _ _ result hu hbig t h
    | succ j =>
      rw [map_cons, take_succ_cons, map_cons, sum_cons, ← Nat.add_assoc result.length,
        ← length_store p_index k result t] at hbig ⊢
      exact store_props_node hp _ hu ps hv h hbig

end

/-! ## What a text has in it -/

theorem members_values {ps : List (Nat × Tok)}
    (h : Members value c ps r) : ∀ v ∈ ps.map Prod.snd, ∃ c' r', value c' v r' := by
  induction h with
  | done => simp
  | last _ hw => simpa using ⟨_, _, hw⟩
  | more _ hw _ _ ih =>
    rw [map_cons, forall_mem_cons]
    exact ⟨⟨_, _, hw⟩, ih⟩

theorem elements_values {ts : List Tok}
    (h : Elements value c ts r) : ∀ v ∈ ts, ∃ c' r', value c' v r' := by
  induction h with
  | last hw => simpa using ⟨_, _, hw⟩
  | more hw _ _ ih =>
    rw [forall_mem_cons]
    exact ⟨⟨_, _, hw⟩, ih⟩

/-- The numbers that the parser makes are small, its bytes few. -/
def Parsed : Tok → Prop
  | .bytes d => (d.getD []).length < 2 ^ 28
  | .integer v => v < 2 ^ 28
  | _ => True

theorem parsed_string_tok (raw : Bytes) : Parsed (string_tok raw) ∧ (string_tok raw).kids = [] := by
  unfold string_tok
  split
  · exact ⟨by simp [Parsed], rfl⟩
  · exact ⟨trivial, rfl⟩

theorem parsed_number_tok (num : Num) : Parsed (number_tok num) ∧ (number_tok num).kids = [] := by
  unfold number_tok
  cases num with
  | integer value =>
    dsimp only
    split
    · exact ⟨by assumption, rfl⟩
    · have hlen := length_stripZeros_le (long_to_bytes value)
      rw [long_to_bytes, length_beFix] at hlen
      exact ⟨hlen.trans_lt (by decide), rfl⟩
  | text s => exact ⟨trivial, rfl⟩

theorem body_kids {x : UInt8} {s : Bytes}
    (h : Body value x s t r) : Parsed t ∧ ∀ v ∈ t.kids, ∃ c' r', value c' v r' := by
  cases h with
  | object hps => exact ⟨trivial, members_values hps⟩
  | empty _ => exact ⟨trivial, by simp [Tok.kids]⟩
  | array hts => exact ⟨trivial, elements_values hts⟩
  | string => exact ⟨(parsed_string_tok _).1, by simp [(parsed_string_tok _).2]⟩
  | true => exact ⟨trivial, by simp [Tok.kids]⟩
  | false => exact ⟨trivial, by simp [Tok.kids]⟩
  | null => exact ⟨trivial, by simp [Tok.kids]⟩
  | number => exact ⟨(parsed_number_tok _).1, by simp [(parsed_number_tok _).2]⟩

theorem value_at {left : Nat} (h : Value left c t r) {d p : Nat}
    (hu : ValueAt t d p u) : d < left ∧ Parsed u := by
  induction left generalizing c t r d p with
  | zero => exact absurd h id
  | succ left ih =>
    obtain ⟨x, s, -, hbody⟩ := h
    obtain ⟨hparsed, hkids⟩ := body_kids hbody
    rcases hu.cases_root with ⟨rfl, -, rfl⟩ | ⟨i, v, d', p', hv, hinside, rfl, -⟩
    · exact ⟨Nat.succ_pos left, hparsed⟩
    · obtain ⟨c', r', hvalue⟩ := hkids v (mem_of_getElem? hv)
      obtain ⟨hlt, hparsed⟩ := ih hvalue hinside
      exact ⟨Nat.succ_lt_succ hlt, hparsed⟩

/-! ## Which tokens fit -/

/-- The length of a text whose token is read as an object that is not empty. -/
def ReadsAsObject (l : Nat) : Prop := (l / 2 ^ 28 % 16 = 2 ∨ l / 2 ^ 28 % 16 = 3) ∧ l % 2 ^ 28 ≠ 0

theorem or_one_iff (x : Nat) : ((1 ||| x) % 16 = 2 ∨ (1 ||| x) % 16 = 3) ↔ (x % 16 = 2 ∨ x % 16 = 3) := by
  have hmod : (1 ||| x) % 16 = 1 ||| x % 16 := by
    rw [show 16 = 2 ^ 4 from rfl, Nat.or_mod_two_pow]
  have hlt : x % 16 < 16 := Nat.mod_lt _ (by decide)
  rw [hmod]
  generalize x % 16 = y at hlt
  interval_cases y <;> decide

theorem fits_string_iff (s : Bytes) (converted : Bool) : TellsKids (.string s converted) ↔ ¬ ReadsAsObject s.length := by
  obtain ⟨htype, hsize⟩ := leaf_len_type .T_STRING s.length
  have hor := or_one_iff (s.length / 2 ^ 28)
  simp only [TellsKids, Token.isContainer, Token.type, Token.size, token_of, htype, hsize, Tok.isNode, ReadsAsObject,
    decide_eq_true_eq, Bool.false_eq_true, false_implies]
  tauto

theorem fits_leaf (hleaf : u.isNode = false) {type : d_type_t} {l : Nat}
    (hlen : (token_of 0 u).len = leaf_len type l) (hl : l < 2 ^ 28) (htype : type ≠ .T_ARRAY ∧ type ≠ .T_OBJECT) :
    TellsKids u := by
  have hcont : (token_of 0 u).isContainer = false := by
    rw [Token.isContainer, Token.type, hlen, (leaf_len_type type l).1, Nat.div_eq_of_lt hl]
    cases type <;> first | rfl | exact absurd rfl htype.1 | exact absurd rfl htype.2
  exact ⟨fun h => by simp [hcont] at h, fun h => by simp [hleaf] at h⟩

theorem fits_of_parsed (hparsed : Parsed u) (hfew : u.kids.length < 2 ^ 28)
    (hstring : ∀ s converted, u = .string s converted → ¬ ReadsAsObject s.length) : TellsKids u := by
  cases u with
  | bytes d => exact fits_leaf rfl rfl hparsed (by decide)
  | string s converted => exact (fits_string_iff s converted).2 (hstring s converted rfl)
  | array text items =>
    obtain ⟨htype, hsize⟩ := node_len_type hfew .T_ARRAY
    exact ⟨fun _ => hsize, fun _ => htype⟩
  | object text props =>
    rw [Tok.kids, length_map] at hfew
    obtain ⟨htype, hsize⟩ := node_len_type hfew .T_OBJECT
    exact ⟨fun _ => by rw [Tok.kids, length_map]; exact hsize, fun _ => htype⟩
  | boolean v => exact fits_leaf rfl rfl (by cases v <;> decide) (by decide)
  | integer v => exact fits_leaf rfl rfl hparsed (by decide)
  | null => exact fits_leaf rfl rfl (by decide) (by decide)

/-! ## The tokens are a preorder tree -/

structure Preorder (t : Tok) (ts : List JsonToken) : Prop where
  /-- There is one token for each value, and `d_token_size` of the root counts them. -/
  size : ts.length = tokens t ∧ d_token_size ts = some ts.length
  /-- Every container has the length of its children, and nothing else has children. -/
  length : ∀ d p u, ValueAt t d p u → ∃ k, ts[p]? = some k ∧ (k.isContainer = true → k.size = u.kids.length) ∧
    (u.isNode = true → k.type = (d_type u).code)
  /-- `d_next` goes from the first child of a container through all of them. -/
  next : ∀ d p u, ValueAt t d p u → ∀ i ≤ u.kids.length, d_nexts i (ts.drop (p + 1)) = some (ts.drop (p + kid_offset u i))
  /-- `d_get_at` finds the elements of an array. -/
  get_at : ∀ d p text items, ValueAt t d p (.array text items) → ∀ i, token_at (ts.drop p) i =
    some (if i < items.length then some (ts.drop (p + kid_offset (.array text items) i)) else none)
  /-- A container is inside of at most `DATA_DEPTH_MAX` others. -/
  depth : ∀ d p u, ValueAt t d p u → u.isNode = true → d + 1 ≤ DATA_DEPTH_MAX + 1

/-- The tokens of an accepted text whose containers have less than `2^28` children are its
document in preorder exactly when the containers with children are among the first `2^31` tokens
and no string has a length that makes it an object. -/
theorem parse_json_preorder_iff (js : Bytes) (ts : List JsonToken) (h : (parse_json js).ok ts) :
    ∃ t r, Value (DATA_DEPTH_MAX + 1) (c_str js ++ [0]) t r ∧
      ((∀ d p u, ValueAt t d p u → u.kids.length < 2 ^ 28) → (Preorder t ts ↔
        (∀ d p u, ValueAt t d p u → u.kids ≠ [] → p < 2 ^ 31) ∧
          ∀ d p s converted, ValueAt t d p (.string s converted) → ¬ ReadsAsObject s.length)) := by
  rw [parse_json_eq, Guarded.ok_bind] at h
  obtain ⟨⟨t, r⟩, hread, hts⟩ := h
  rw [Guarded.ok_pure] at hts
  subst hts
  have hvalue := read_value_sound _ _ _ _ hread
  refine ⟨t, r, hvalue, fun hfew => ?_⟩
  have hlayout : Placed 0 t → store (-1) 0 [] t = layout 0 t := store_eq (-1) 0 [] t
  constructor
  · intro hpre
    have hplaced : ∀ d p u, ValueAt t d p u → u.kids ≠ [] → p < 2 ^ 31 := by
      intro d p u hu hkids
      by_contra hbig
      have hnode : u.isNode = true := by
        by_contra hleaf
        exact hkids (kids_of_not_node (by simpa using hleaf))
      obtain ⟨k, hk, hcont, hsize⟩ := store_node (-1) 0 [] hnode (by simpa using hbig) t hu
      obtain ⟨k', hk', hlen, -⟩ := hpre.length d p u hu
      rw [length_nil, Nat.zero_add, hk', Option.some.injEq] at hk
      subst hk
      rw [hlen hcont, length_eq_zero_iff] at hsize
      exact hkids hsize
    refine ⟨hplaced, fun d p s converted hs => ?_⟩
    obtain ⟨k, hk, hlen, -⟩ := hpre.length d p _ hs
    rw [hlayout fun d p u hu hkids => by simpa using hplaced d p u hu hkids] at hk
    obtain ⟨key, hkey, -⟩ := getElem?_layout hs 0
    rw [hkey, Option.some.injEq] at hk
    subst hk
    exact (fits_string_iff s converted).1 ⟨hlen, fun hnode => by simp [Tok.isNode] at hnode⟩
  · rintro ⟨hplaced, hstrings⟩
    have hplaced : Placed 0 t := fun d p u hu hkids => by simpa using hplaced d p u hu hkids
    have hfits : ∀ d p u, ValueAt t d p u → TellsKids u := fun d p u hu =>
      fits_of_parsed (value_at hvalue hu).2 (hfew d p u hu) fun s converted heq => hstrings d p s converted (heq ▸ hu)
    rw [hlayout hplaced]
    refine ⟨?_, fun d p u hu => ?_, fun d p u hu i hi => d_nexts_layout hfits hu hi 0,
      fun d p text items hu i => token_at_layout hfits hu 0 i, fun d p u hu _ => (value_at hvalue hu).1⟩
    · have hsize := d_token_size_layout hfits 0 []
      rw [append_nil] at hsize
      exact ⟨length_layout 0 t, by rw [hsize, length_layout]⟩
    · obtain ⟨k, hk, -⟩ := getElem?_layout hu 0
      refine ⟨token_of k u, hk, ?_⟩
      rw [Token.isContainer, Token.type, Token.size, token_of_len]
      exact hfits d p u hu

/-- The document `[7,{}]`. -/
def pairTree : Tok := .array [91, 55, 44, 123, 125, 93, 0] [.integer 7, .object [123, 125, 93, 0] []]

theorem value_at_pair {d p : Nat} {u : Tok} (h : ValueAt pairTree d p u) :
    p < 3 ∧ (u = pairTree ∨ u = .integer 7 ∨ u = .object [123, 125, 93, 0] []) := by
  rcases h.cases_root with ⟨-, rfl, rfl⟩ | ⟨i, v, d', p', hv, hu, -, rfl⟩
  · exact ⟨by decide, .inl rfl⟩
  · -- the two elements have no children
    rcases i with _ | _ | i
    · cases hv
      rcases hu.cases_root with ⟨-, rfl, rfl⟩ | ⟨i, v, -, -, hv, -⟩
      · exact ⟨by decide, .inr (.inl rfl)⟩
      · cases hv
    · cases hv
      rcases hu.cases_root with ⟨-, rfl, rfl⟩ | ⟨i, v, -, -, hv, -⟩
      · exact ⟨by decide, .inr (.inr rfl)⟩
      · cases hv
    · cases hv

def pairTokens : List JsonToken :=
  [⟨node_len .T_ARRAY 2, 0, false, some [91, 55, 44, 123, 125, 93, 0]⟩, ⟨leaf_len .T_INTEGER 7, 0, false, none⟩,
    ⟨node_len .T_OBJECT 0, 1, false, some [123, 125, 93, 0]⟩]

theorem parse_json_preorder_pair : Preorder pairTree pairTokens := by
  obtain ⟨t, r, hvalue, hpreorder⟩ := parse_json_preorder_iff [91, 55, 44, 123, 125, 93] pairTokens (by decide)
  have hread : (read_value (DATA_DEPTH_MAX + 1) (c_str [91, 55, 44, 123, 125, 93] ++ [0])).ok (pairTree, [0]) := rfl
  obtain ⟨rfl, -⟩ := Prod.mk.inj (Guarded.ok_unique hread ((read_value_ok_iff (terminated_c_str _)).2 hvalue))
  refine (hpreorder fun d p u hu => ?_).2 ⟨fun d p u hu _ => ?_, fun d p s converted hu => ?_⟩
  · rcases (value_at_pair hu).2 with rfl | rfl | rfl <;> decide
  · exact Nat.lt_trans (value_at_pair hu).1 (by decide)
  · rcases (value_at_pair hu).2 with h | h | h <;> cases h

theorem chars_letters (n : Nat) : Chars 34 (replicate n 97) := by
  induction n with
  | zero => exact .nil
  | succ n ih => exact .plain (by decide) (by decide) (by decide) ih

theorem escapes_letters (n : Nat) : escapes (replicate n 97) = 0 := by
  induction n with
  | zero => rfl
  | succ n ih =>
    exact ih

theorem string_tok_letters (n : Nat) : string_tok (replicate n 97) = .string (replicate n 97) false := by
  have hplain : is_unicode_escape (replicate n 97) = false := by
    rcases n with _ | _ | n <;> simp [is_unicode_escape]
  simp [string_tok, hplain, escapes_letters]

theorem letters_not_preorder (h : ReadsAsObject n) :
    ∃ ts t r, (parse_json (34 :: (replicate n 97 ++ [34]))).ok ts ∧
      Value (DATA_DEPTH_MAX + 1) (c_str (34 :: (replicate n 97 ++ [34])) ++ [0]) t r ∧
      (∀ d p u, ValueAt t d p u → u.kids.length < 2 ^ 28) ∧ ¬ Preorder t ts := by
  have hc_str : c_str (34 :: (replicate n 97 ++ [34])) ++ [0] = 34 :: (replicate n 97 ++ 34 :: [0]) := by
    rw [c_str]
    simp
  have hvalue : Value (DATA_DEPTH_MAX + 1) (34 :: (replicate n 97 ++ 34 :: [0])) (.string (replicate n 97) false)
      [0] := by
    refine ⟨34, _, ⟨[], rfl, by simp, by decide⟩, ?_⟩
    rw [← string_tok_letters]
    exact .string (.inl rfl) (chars_letters n) (by rw [escapes_letters]; decide)
  rw [← hc_str] at hvalue
  have hread := read_value_complete _ _ _ _ (terminated_c_str _) hvalue
  have hkids : ∀ d p u, ValueAt (.string (replicate n 97) false) d p u → d = 0 ∧ p = 0 ∧ u = .string (replicate n 97) false := by
    intro d p u hu
    rcases hu.cases_root with hroot | ⟨i, v, -, -, hv, -⟩
    · exact hroot
    · simp [Tok.kids] at hv
  refine ⟨layout 0 (.string (replicate n 97) false), _, [0], ?_, hvalue, fun d p u hu => ?_, fun hpre => ?_⟩
  · rw [parse_json_eq, Guarded.ok_bind]
    exact ⟨_, hread, by rw [Guarded.ok_pure]; rfl⟩
  · obtain ⟨-, -, rfl⟩ := hkids d p u hu
    exact Nat.two_pow_pos 28
  · obtain ⟨k, hk, hlen, -⟩ := hpre.length 0 0 _ .root
    rw [layout, List.getElem?_cons_zero, Option.some.injEq] at hk
    subst hk
    refine (fits_string_iff (replicate n 97) false).1 ⟨hlen, fun hnode => by simp [Tok.isNode] at hnode⟩ ?_
    rwa [length_replicate]

/-- A string of `2^29 + 5` letters has the token of an object with five properties. -/
theorem long_string_not_preorder : ∃ ts t r, (parse_json (34 :: (replicate (2 ^ 29 + 5) 97 ++ [34]))).ok ts ∧
    Value (DATA_DEPTH_MAX + 1) (c_str (34 :: (replicate (2 ^ 29 + 5) 97 ++ [34])) ++ [0]) t r ∧
    (∀ d p u, ValueAt t d p u → u.kids.length < 2 ^ 28) ∧ ¬ Preorder t ts :=
  letters_not_preorder ⟨by decide, by decide⟩

end In3
