import In3.Core.Token
/-!
# Walking the token array

In the layout of a tree every value has its place: behind its container come its children,
one block after the other. `ValueAt t d p u` says that `u` is the value at place `p` of the tree
`t`, inside `d` containers. If the first token of every value tells the number of its children
(`TellsKids`), then `d_token_size`, `d_next` and `d_get_at` find the blocks.
-/
open Lib List

namespace In3

/-! ## Places in a tree -/

/-- The values directly inside, in their order. -/
def Tok.kids : Tok → List Tok
  | .array _ items => items
  | .object _ props => props.map Prod.snd
  | _ => []

def Tok.isNode : Tok → Bool
  | .array _ _ => true
  | .object _ _ => true
  | _ => false

mutual

/-- The number of values of a tree. -/
def tokens : Tok → Nat
  | .array _ items => tokens_items items + 1
  | .object _ props => tokens_props props + 1
  | _ => 1

def tokens_items : List Tok → Nat
  | [] => 0
  | t :: ts => tokens t + tokens_items ts

def tokens_props : List (Nat × Tok) → Nat
  | [] => 0
  | (_, t) :: ps => tokens t + tokens_props ps

end

/-- How far the child `i` is behind its container. -/
def kid_offset (t : Tok) (i : Nat) : Nat := 1 + ((t.kids.take i).map tokens).sum

/-- The value `u` is at place `p` of the tree `t`, inside `d` containers. -/
inductive ValueAt (t : Tok) : Nat → Nat → Tok → Prop
  | root : ValueAt t 0 0 t
  | kid {d p i : Nat} {u v : Tok} : ValueAt t d p u → u.kids[i]? = some v → ValueAt t (d + 1) (p + kid_offset u i) v

variable {d i p : Nat} {t u v : Tok}

theorem ValueAt.inside (hv : t.kids[i]? = some v) (h : ValueAt v d p u) :
    ValueAt t (d + 1) (kid_offset t i + p) u := by
  induction h with
  | root =>
    have hroot := ValueAt.kid (ValueAt.root (t := t)) hv
    rwa [Nat.zero_add, Nat.zero_add] at hroot
  | kid _ hw ih =>
    have hkid := ih.kid hw
    rwa [Nat.add_assoc (kid_offset t i)] at hkid

/-- A value is the root or stands in a child of it. -/
theorem ValueAt.cases_root (h : ValueAt t d p u) : d = 0 ∧ p = 0 ∧ u = t ∨
    ∃ i v d' p', t.kids[i]? = some v ∧ ValueAt v d' p' u ∧ d = d' + 1 ∧ p = kid_offset t i + p' := by
  induction h with
  | root => exact .inl ⟨rfl, rfl, rfl⟩
  | @kid d p i u w h hw ih =>
    right
    rcases ih with ⟨rfl, rfl, rfl⟩ | ⟨j, v, d', p', hv, hu, rfl, rfl⟩
    · exact ⟨i, w, 0, 0, hw, .root, rfl, by omega⟩
    · exact ⟨j, v, d' + 1, p' + kid_offset u i, hv, hu.kid hw, rfl, by omega⟩

theorem tokens_items_eq (ts : List Tok) : tokens_items ts = (ts.map tokens).sum := by
  induction ts with
  | nil => rfl
  | cons t ts ih => rw [tokens_items, ih, map_cons, sum_cons]

theorem tokens_props_eq (ps : List (Nat × Tok)) : tokens_props ps = ((ps.map Prod.snd).map tokens).sum := by
  induction ps with
  | nil => rfl
  | cons p ps ih => rw [tokens_props, ih, map_cons, map_cons, sum_cons]

theorem tokens_eq (t : Tok) : tokens t = 1 + (t.kids.map tokens).sum := by
  cases t <;> simp only [tokens, Tok.kids, tokens_items_eq, tokens_props_eq, map_nil, sum_nil] <;> omega

theorem tokens_pos (t : Tok) : 0 < tokens t := by
  rw [tokens_eq]
  omega

theorem tokens_kid_lt (h : v ∈ t.kids) : tokens v < tokens t := by
  have hle := single_le_sum (by simp) _ (mem_map_of_mem (f := tokens) h)
  rw [tokens_eq t]
  omega

/-! ## Blocks -/

def Tok.keys : Tok → List Nat
  | .array _ items => (range items.length).map (· % 2 ^ 16)
  | .object _ props => props.map Prod.fst
  | _ => []

def blocks (t : Tok) : List (List JsonToken) := zipWith layout t.keys t.kids

/-- The first token of a value. -/
def token_of (k : Nat) : Tok → JsonToken
  | .bytes d => ⟨leaf_len .T_BYTES (d.getD []).length, k, true, d⟩
  | .string s converted => ⟨leaf_len .T_STRING s.length, k, converted, some s⟩
  | .array text items => ⟨node_len .T_ARRAY items.length, k, false, some text⟩
  | .object text props => ⟨node_len .T_OBJECT props.length, k, false, some text⟩
  | .boolean v => ⟨leaf_len .T_BOOLEAN v.toNat, k, false, none⟩
  | .integer v => ⟨leaf_len .T_INTEGER v, k, false, none⟩
  | .null => ⟨leaf_len .T_NULL 0, k, false, none⟩

theorem layout_items_eq (i : Nat) (ts : List Tok) :
    layout_items i ts = (zipWith layout ((List.range' i ts.length).map (· % 2 ^ 16)) ts).flatten := by
  induction ts generalizing i with
  | nil => rfl
  | cons t ts ih => simp [layout_items, ih, List.range'_succ]

theorem layout_props_eq (ps : List (Nat × Tok)) :
    layout_props ps = (zipWith layout (ps.map Prod.fst) (ps.map Prod.snd)).flatten := by
  induction ps with
  | nil => rfl
  | cons p ps ih => simp [layout_props, ih]

/-- A value has a token of its own and then a block for each child. -/
theorem layout_eq (k : Nat) (t : Tok) : layout k t = token_of k t :: (blocks t).flatten := by
  cases t with
  | array text items => rw [layout, layout_items_eq, ← range_eq_range']; rfl
  | object text props => rw [layout, layout_props_eq]; rfl
  | _ => rw [layout]; rfl

theorem length_keys (t : Tok) : t.keys.length = t.kids.length := by
  cases t <;> simp [Tok.keys, Tok.kids]

theorem length_blocks (t : Tok) : (blocks t).length = t.kids.length := by
  rw [blocks, length_zipWith, length_keys, Nat.min_self]

theorem getElem?_blocks (h : t.kids[i]? = some v) : ∃ k, (blocks t)[i]? = some (layout k v) := by
  have hlt : i < t.keys.length := by
    rw [length_keys]
    exact (List.getElem?_eq_some_iff.1 h).1
  refine ⟨t.keys[i], ?_⟩
  rw [blocks, List.getElem?_zipWith, h, List.getElem?_eq_getElem hlt]

theorem mem_blocks {l : List JsonToken} (h : l ∈ blocks t) :
    ∃ (i : Nat) (v : Tok) (k : Nat), t.kids[i]? = some v ∧ l = layout k v := by
  obtain ⟨i, hi⟩ := mem_iff_getElem?.1 h
  have hlt := (List.getElem?_eq_some_iff.1 hi).1
  rw [length_blocks] at hlt
  have hv := List.getElem?_eq_getElem hlt
  obtain ⟨k, hk⟩ := getElem?_blocks hv
  exact ⟨i, _, k, hv, Option.some.inj (hi.symm.trans hk)⟩

theorem map_length_blocks (h : ∀ v ∈ t.kids, ∀ k, (layout k v).length = tokens v) :
    (blocks t).map List.length = t.kids.map tokens := by
  apply ext_getElem?
  intro i
  rw [List.getElem?_map, List.getElem?_map]
  cases hv : t.kids[i]? with
  | none =>
    rw [List.getElem?_eq_none_iff, ← length_blocks, ← List.getElem?_eq_none_iff] at hv
    rw [hv]
    rfl
  | some v =>
    obtain ⟨k, hk⟩ := getElem?_blocks hv
    rw [hk, Option.map_some, Option.map_some, h v (mem_of_getElem? hv) k]

theorem length_layout (k : Nat) (t : Tok) : (layout k t).length = tokens t := by
  suffices h : ∀ n t k, tokens t ≤ n → (layout k t).length = tokens t from h (tokens t) t k le_rfl
  intro n
  induction n with
  | zero =>
    intro t k h
    have hpos := tokens_pos t
    omega
  | succ n ih =>
    intro t k h
    have hblocks := map_length_blocks fun v hv k => ih v k (Nat.le_of_lt_succ ((tokens_kid_lt hv).trans_le h))
    rw [layout_eq, length_cons, length_flatten, hblocks, tokens_eq t]
    omega

theorem kid_offset_eq (t : Tok) (i : Nat) : kid_offset t i = 1 + ((blocks t).take i).flatten.length := by
  have hblocks := map_length_blocks (t := t) fun v _ k => length_layout k v
  rw [kid_offset, length_flatten, map_take, map_take, hblocks]

/-- The tokens of a value inside stand at its place. -/
theorem layout_at (h : ValueAt t d p u) (key : Nat) :
    ∃ k pre post, layout key t = pre ++ (layout k u ++ post) ∧ pre.length = p := by
  induction h with
  | root => exact ⟨key, [], [], by simp, rfl⟩
  | @kid d p i u v _ hv ih =>
    obtain ⟨k, pre, post, heq, hlen⟩ := ih
    obtain ⟨k', hblock⟩ := getElem?_blocks hv
    obtain ⟨hlt, hget⟩ := List.getElem?_eq_some_iff.1 hblock
    have hsplit : (blocks u).flatten =
        ((blocks u).take i).flatten ++ (layout k' v ++ ((blocks u).drop (i + 1)).flatten) := by
      rw [← hget, ← flatten_cons, getElem_cons_drop, ← flatten_append, take_append_drop]
    refine ⟨k', pre ++ token_of k u :: ((blocks u).take i).flatten, ((blocks u).drop (i + 1)).flatten ++ post, ?_, ?_⟩
    · rw [heq, layout_eq k u, hsplit]
      simp
    · rw [kid_offset_eq, length_append, length_cons]
      omega

theorem ValueAt.lt_tokens (h : ValueAt t d p u) : p < tokens t := by
  obtain ⟨k, pre, post, heq, rfl⟩ := layout_at h 0
  have hlen := congrArg List.length heq
  have hpos := tokens_pos u
  rw [length_layout, length_append, length_append, length_layout] at hlen
  omega

/-! ## Skipping blocks -/

section Skip
variable {δ : Type} {ls : List (List (Token δ))}

theorem children_size_flatten {size : List (Token δ) → Option Nat}
    (hsize : ∀ l ∈ ls, ∀ rest, size (l ++ rest) = some l.length) (pre rest : List (Token δ)) :
    children_size size (pre ++ (ls.flatten ++ rest)) ls.length pre.length = some (pre.length + ls.flatten.length) := by
  induction ls generalizing pre with
  | nil => rfl
  | cons l ls ih =>
    have hrest : pre ++ ((l :: ls).flatten ++ rest) = pre ++ l ++ (ls.flatten ++ rest) := by simp
    have hl := hsize l (by simp) (ls.flatten ++ rest)
    have hnext := ih (fun m hm => hsize m (by simp [hm])) (pre ++ l)
    rw [length_append] at hnext
    rw [hrest, length_cons, children_size, append_assoc, drop_left, hl, Option.bind_eq_bind,
      Option.bind_some, ← append_assoc, hnext, flatten_cons, length_append, Nat.add_assoc]

theorem d_nexts_flatten (hsize : ∀ l ∈ ls, ∀ rest, d_token_size (l ++ rest) = some l.length) {i : Nat} (hi : i ≤ ls.length)
    (rest : List (Token δ)) : d_nexts i (ls.flatten ++ rest) = some ((ls.drop i).flatten ++ rest) := by
  induction i generalizing ls with
  | zero => rfl
  | succ i ih =>
    cases ls with
    | nil => simp at hi
    | cons l ls =>
      have hl := hsize l (by simp) (ls.flatten ++ rest)
      rw [flatten_cons, append_assoc, d_nexts, d_next, hl, Option.map_some, drop_left, Option.bind_some,
        ih (fun m hm => hsize m (by simp [hm])) (Nat.le_of_succ_le_succ hi), drop_succ_cons]

end Skip

theorem node_len_type {n : Nat} (h : n < 2 ^ 28) (type : d_type_t) :
    node_len type n / 2 ^ 28 = type.code ∧ node_len type n % 2 ^ 28 = n := by
  unfold node_len
  cases type <;> simp only [d_type_t.code] <;> omega

theorem leaf_len_type (type : d_type_t) (l : Nat) :
    leaf_len type l / 2 ^ 28 = (type.code ||| l / 2 ^ 28) % 16 ∧ leaf_len type l % 2 ^ 28 = l % 2 ^ 28 := by
  unfold leaf_len
  have hdiv : (type.code * 2 ^ 28 ||| l) / 2 ^ 28 = type.code ||| l / 2 ^ 28 := by
    rw [Nat.or_div_two_pow, Nat.mul_div_cancel _ (by decide)]
  have hmod : (type.code * 2 ^ 28 ||| l) % 2 ^ 28 = l % 2 ^ 28 := by
    rw [Nat.or_mod_two_pow, Nat.mul_mod_left, Nat.zero_or]
  constructor
  · omega
  · omega

/-- The first token of `u` tells how many children follow. -/
def TellsKids (u : Tok) : Prop :=
  ((token_of 0 u).isContainer = true → (token_of 0 u).size = u.kids.length) ∧
    (u.isNode = true → (token_of 0 u).type = (d_type u).code)

theorem token_of_key (k : Nat) (t : Tok) : token_of k t = { token_of 0 t with key := k } := by
  cases t <;> rfl

theorem token_of_len (k : Nat) (u : Tok) : (token_of k u).len = (token_of 0 u).len := by
  cases u <;> rfl

theorem kids_of_not_node (h : u.isNode = false) : u.kids = [] := by
  cases u <;> first | rfl | simp [Tok.isNode] at h

theorem isContainer_of_node (hfits : TellsKids u) (h : u.isNode = true) : (token_of 0 u).isContainer = true := by
  have htype := hfits.2 h
  rw [Token.isContainer, htype]
  cases u <;> first | rfl | simp [Tok.isNode] at h

/-- The size of a value is the number of its tokens, whatever follows. -/
theorem token_size_layout (hfits : ∀ d p v, ValueAt u d p v → TellsKids v) {fuel : Nat} (hfuel : tokens u ≤ fuel)
    (k : Nat) (rest : List JsonToken) : token_size fuel (layout k u ++ rest) = some (tokens u) := by
  induction fuel generalizing u k rest with
  | zero =>
    have hpos := tokens_pos u
    omega
  | succ fuel ih =>
    have hroot := hfits 0 0 u .root
    have hchildren : ∀ l ∈ blocks u, ∀ rest, token_size fuel (l ++ rest) = some l.length := by
      intro l hl rest
      obtain ⟨i, v, k, hv, rfl⟩ := mem_blocks hl
      have hlt := tokens_kid_lt (mem_of_getElem? hv)
      rw [length_layout]
      exact ih (fun d p w hw => hfits _ _ w (hw.inside hv)) (by omega) k rest
    have hlen := length_layout k u
    rw [layout_eq, length_cons] at hlen
    have hhead : (token_of k u).isContainer = (token_of 0 u).isContainer ∧ (token_of k u).size = (token_of 0 u).size := by
      rw [Token.isContainer, Token.type, Token.size, token_of_len]
      exact ⟨rfl, rfl⟩
    rw [layout_eq, cons_append, token_size, hhead.1, hhead.2]
    by_cases hcont : (token_of 0 u).isContainer = true
    · have hwalk := children_size_flatten hchildren [token_of k u] rest
      rw [length_blocks, singleton_append, length_singleton] at hwalk
      rw [if_pos hcont, hroot.1 hcont, hwalk, ← hlen, Nat.add_comm]
    · have hleaf : u.isNode = false := by
        by_contra h
        exact hcont (isContainer_of_node hroot (by simpa using h))
      rw [if_neg hcont, tokens_eq, kids_of_not_node hleaf]
      rfl

section Walk
variable {t u : Tok} (hfits : ∀ d p v, ValueAt t d p v → TellsKids v)
include hfits

theorem d_token_size_layout (k : Nat) (rest : List JsonToken) :
    d_token_size (layout k t ++ rest) = some (tokens t) := by
  refine token_size_layout hfits ?_ k rest
  rw [length_append, length_layout]
  omega

variable {d p : Nat}

theorem tells_inside (h : ValueAt t d p u) : ∀ d p v, ValueAt u d p v → TellsKids v := by
  induction h with
  | root => exact hfits
  | kid _ hv ih => exact fun d p w hw => ih _ _ w (hw.inside hv)

/-- So the steps from child to child end at the places of the children, -/
theorem d_nexts_layout {i : Nat} (h : ValueAt t d p u) (hi : i ≤ u.kids.length) (key : Nat) :
    d_nexts i ((layout key t).drop (p + 1)) = some ((layout key t).drop (p + kid_offset u i)) := by
  obtain ⟨k, pre, post, heq, rfl⟩ := layout_at h key
  have hblocks : ∀ l ∈ blocks u, ∀ rest, d_token_size (l ++ rest) = some l.length := by
    intro l hl rest
    obtain ⟨j, v, k, hv, rfl⟩ := mem_blocks hl
    rw [length_layout]
    exact d_token_size_layout (tells_inside hfits (h.kid hv)) k rest
  have hfirst : (layout key t).drop (pre.length + 1) = (blocks u).flatten ++ post := by
    rw [heq, layout_eq, ← drop_drop, drop_left, cons_append, drop_succ_cons, drop_zero]
  have hnext : (layout key t).drop (pre.length + kid_offset u i) = ((blocks u).drop i).flatten ++ post := by
    rw [kid_offset_eq, ← Nat.add_assoc, ← drop_drop, hfirst]
    nth_rewrite 2 [← take_append_drop i (blocks u)]
    rw [flatten_append, append_assoc, drop_left]
  rw [hfirst, hnext]
  exact d_nexts_flatten hblocks (by rwa [length_blocks]) post

end Walk

theorem getElem?_layout (h : ValueAt t d p u) (key : Nat) :
    ∃ k, (layout key t)[p]? = some (token_of k u) ∧ (layout key t).drop p = token_of k u :: (layout key t).drop (p + 1) := by
  obtain ⟨k, pre, post, heq, rfl⟩ := layout_at h key
  refine ⟨k, ?_, ?_⟩
  · rw [heq, List.getElem?_append_right le_rfl, Nat.sub_self, layout_eq]
    rfl
  · rw [heq, ← drop_drop, drop_left, layout_eq]
    rfl

/-- and an index finds its element, and nothing behind the last one. -/
theorem token_at_layout (hfits : ∀ d p v, ValueAt t d p v → TellsKids v) {text : Bytes} {items : List Tok}
    (h : ValueAt t d p (.array text items)) (key i : Nat) : token_at ((layout key t).drop p) i =
      some (if i < items.length then some ((layout key t).drop (p + kid_offset (.array text items) i)) else none) := by
  obtain ⟨k, -, hdrop⟩ := getElem?_layout h key
  obtain ⟨hsize, htype⟩ := hfits d p _ h
  have htype := htype rfl
  have hsize : (token_of k (.array text items)).size = items.length := by
    exact hsize (isContainer_of_node ⟨hsize, fun _ => htype⟩ rfl)
  have htype : (token_of k (.array text items)).type = 2 := by
    exact htype
  rw [hdrop, token_at, if_neg (by simp [htype]), hsize]
  split
  · rename_i hi
    rw [d_nexts_layout hfits h hi.le]
    rfl
  · rw [d_nexts_layout hfits h (le_refl items.length)]
    rfl

end In3
