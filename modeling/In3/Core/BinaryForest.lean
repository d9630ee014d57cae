import In3.Core.Wire
/-!
# The tokens of a binary document form a forest

`Sound` says of a parsed document what its readers rely on: no token was read or written outside
of the array, strings and bytes lie in the input, and the tokens are the preorder of the items on
the wire, where a container tells the number of its children, every token has the type of its
item and a reference is a copy of an earlier string or bytes.

The parser does not check all of that. `Wire.Inside` and `Wire.Told` are what a document has to
meet so that the tokens are sound (`parse_binary_sound_iff`).
-/
open Lib Guarded List

namespace In3

/-! ## Room in the array -/

/-- The number of tokens, and for how many there is room. -/
structure Room where
  used : Nat
  allocated : Nat

def Room.taken (s : Room) : Room := ⟨s.used + 1, grow s.used s.allocated⟩

def bin_ctx_t.room (jp : bin_ctx_t) : Room := ⟨jp.result.length, jp.allocated⟩

namespace Wire

def isToken : Wire → Bool
  | count _ => false
  | _ => true

/-- The number of tokens directly inside a container. -/
def children (items : List Wire) : Nat := (items.filter isToken).length

mutual

def room : Wire → Room → Room
  | count len, s => { s with allocated := max s.allocated len }
  | reference _, s => s.taken
  | leaf _ _ _, s => s.taken
  | node _ _ items, s => rooms items s.taken

def rooms : List Wire → Room → Room
  | [], s => s
  | w :: ws, s => rooms ws (room w s)

end

/-! ## What a document has to meet -/

mutual

/-- References name a token that is there, and there is room for their copy if the source is
evaluated first; the key of an item is written inside of the array. -/
def Inside (m : Platform) : Wire → Room → Prop
  | count _, _ => True
  | reference idx, s => idx < s.used ∧ (m.rtl = true → s.used < s.allocated)
  | leaf _ _ _, _ => True
  | node _ keys items, s => InsideAll m items keys s.taken

def InsideAll (m : Platform) : List Wire → List Nat → Room → Prop
  | [], _, _ => True
  | w :: ws, [], s => Inside m w s ∧ InsideAll m ws [] (room w s)
  | w :: ws, _ :: keys, s => Inside m w s ∧ s.used < (room w s).allocated ∧ InsideAll m ws keys (room w s)

end

mutual

/-- The length of an item leaves its type alone, and that of a container is the number of its
children. -/
def Told : Wire → Prop
  | count _ => True
  | reference _ => True
  | leaf type len _ => type ||| len / 2 ^ 28 = type
  | node type _ items =>
    type ||| items.length / 2 ^ 28 = type ∧ items.length % 2 ^ 28 = children items ∧ ToldAll items

def ToldAll : List Wire → Prop
  | [] => True
  | w :: ws => Told w ∧ ToldAll ws

end

/-! ## What the tokens are for -/

mutual

/-- The tokens `ts` from place `p` of the array `all` on stand for the item. -/
def Shape (all : List BinToken) : Wire → Nat → List BinToken → Prop
  | count _, _, ts => ts = []
  | reference idx, p, ts => ∃ k src, ts = [k] ∧ idx < p ∧ all[idx]? = some src ∧ src.type < 2 ∧
      k.len = src.len ∧ k.data = src.data
  | leaf type _ data, _, ts => ∃ k, ts = [k] ∧ k.type = type ∧ k.data = data
  | node type _ items, p, ts => ∃ k r, ts = k :: r ∧ k.type = type ∧ k.size = children items ∧
      ShapeAll all items (p + 1) r

def ShapeAll (all : List BinToken) : List Wire → Nat → List BinToken → Prop
  | [], _, ts => ts = []
  | w :: ws, p, ts => ∃ a b, ts = a ++ b ∧ Shape all w p a ∧ ShapeAll all ws (p + a.length) b

end

end Wire

def Ranged (d : Bytes) (k : BinToken) : Prop := k.type < 2 → ∃ off, k.data = some off ∧ off + k.size ≤ d.length

/-- The tokens are what the items `ws` of the document `d` say. -/
structure Sound (d : Bytes) (ws : List Wire) (jp : bin_ctx_t) : Prop where
  inside : jp.inside = true
  ranged : ∀ k ∈ jp.result, Ranged d k
  shape : Wire.ShapeAll jp.result ws 0 jp.result

/-! ## Items are read inside of the input -/

mutual

/-- The data of strings and bytes lies in the input. -/
def Wire.Within (d : Bytes) : Wire → Prop
  | .count _ => True
  | .reference _ => True
  | .leaf type len data => type < 2 → ∃ off, data = some off ∧ off + len ≤ d.length
  | .node type _ items => 2 ≤ type ∧ Wire.WithinAll d items

def Wire.WithinAll (d : Bytes) : List Wire → Prop
  | [] => True
  | w :: ws => Wire.Within d w ∧ Wire.WithinAll d ws

end

variable {p q : Nat} {ws : List Wire} {d : Bytes} {fuel n : Nat} {item : Nat → BinRun (Wire × Nat)}

theorem read_head_place {type len : Nat} (h : (read_head d p).ok (type, len, q)) :
    p < q ∧ q ≤ d.length := by
  simp only [read_head, ok_check, ok_bind, ok_pure, Prod.mk.injEq] at h
  omega

theorem wire_elements_within
    (hitem : ∀ p w q, (item p).ok (w, q) → p < q ∧ q ≤ d.length ∧ w.Within d)
    (hp : p ≤ d.length) (h : (wire_elements item n p).ok (ws, q)) : p ≤ q ∧ q ≤ d.length ∧ Wire.WithinAll d ws := by
  induction n generalizing p q ws with
  | zero =>
    obtain ⟨rfl, rfl⟩ := h
    exact ⟨le_rfl, hp, trivial⟩
  | succ n ih =>
    simp only [wire_elements, ok_bind, Prod.exists] at h
    obtain ⟨w, p₁, hw, ws', q', hws, rfl, rfl⟩ := h
    obtain ⟨hlt, hp₁, hwithin⟩ := hitem p w p₁ hw
    obtain ⟨hle, hq, hrest⟩ := ih hp₁ hws
    exact ⟨by omega, hq, hwithin, hrest⟩

theorem wire_properties_within
    (hitem : ∀ p w q, (item p).ok (w, q) → p < q ∧ q ≤ d.length ∧ w.Within d) {keys : List Nat}
    (hp : p ≤ d.length) (h : (wire_properties d item n p).ok (keys, ws, q)) :
    p ≤ q ∧ q ≤ d.length ∧ Wire.WithinAll d ws := by
  induction n generalizing p q keys ws with
  | zero =>
    obtain ⟨rfl, rfl, rfl⟩ := h
    exact ⟨le_rfl, hp, trivial⟩
  | succ n ih =>
    simp only [wire_properties, ok_check, ok_bind, Prod.exists] at h
    obtain ⟨-, key, -, w, p₁, hw, keys', ws', q', hws, rfl, rfl, rfl⟩ := h
    obtain ⟨hlt, hp₁, hwithin⟩ := hitem _ w p₁ hw
    obtain ⟨hle, hq, hrest⟩ := ih hp₁ hws
    exact ⟨by omega, hq, hwithin, hrest⟩

theorem wire_item_within {w : Wire} (h : (wire_item d fuel p).ok (w, q)) :
    p < q ∧ q ≤ d.length ∧ w.Within d := by
  induction fuel generalizing p w q with
  | zero => simp [wire_item] at h
  | succ fuel ih =>
    have hitem : ∀ p w q, (wire_item d fuel p).ok (w, q) → p < q ∧ q ≤ d.length ∧ w.Within d := fun p w q hw => ih hw
    rw [wire_item, ok_bind] at h
    obtain ⟨⟨type, len, p₁⟩, hhead, h⟩ := h
    obtain ⟨hlt, hp₁⟩ := read_head_place hhead
    dsimp only at h
    split at h
    · simp only [ok_ite_throw, ok_pure, Prod.mk.injEq] at h
      obtain ⟨-, rfl, rfl⟩ := h
      exact ⟨hlt, hp₁, trivial⟩
    split at h
    · simp only [ok_pure, Prod.mk.injEq] at h
      obtain ⟨rfl, rfl⟩ := h
      exact ⟨hlt, hp₁, trivial⟩
    split at h
    · simp only [ok_bind, ok_pure, Prod.exists, Prod.mk.injEq] at h
      obtain ⟨ws, q', hws, rfl, rfl⟩ := h
      obtain ⟨hle, hq, hwithin⟩ := wire_elements_within hitem hp₁ hws
      exact ⟨by omega, hq, le_rfl, hwithin⟩
    split at h
    · simp only [ok_bind, ok_pure, Prod.exists, Prod.mk.injEq] at h
      obtain ⟨keys, ws, q', hws, rfl, rfl⟩ := h
      obtain ⟨hle, hq, hwithin⟩ := wire_properties_within hitem hp₁ hws
      exact ⟨by omega, hq, by omega, hwithin⟩
    split at h
    · simp only [ok_bind, ok_ite_throw, ok_pure, Prod.mk.injEq] at h
      obtain ⟨hlen, x, -, -, rfl, rfl⟩ := h
      exact ⟨by omega, by omega, fun _ => ⟨p₁, rfl, by omega⟩⟩
    split at h
    · simp only [ok_ite_throw, ok_pure, Prod.mk.injEq] at h
      obtain ⟨hlen, rfl, rfl⟩ := h
      exact ⟨by omega, by omega, fun _ => ⟨p₁, rfl, by omega⟩⟩
    · simp only [ok_pure, Prod.mk.injEq] at h
      obtain ⟨rfl, rfl⟩ := h
      exact ⟨hlt, hp₁, fun htype => by omega⟩

theorem wire_within (h : (wire_items d fuel p).ok ws) :
    Wire.WithinAll d ws := by
  induction fuel generalizing p ws with
  | zero => simp [wire_items] at h
  | succ fuel ih =>
    rw [wire_items] at h
    split at h
    · simp only [ok_bind, ok_pure, Prod.exists] at h
      obtain ⟨w, p₁, hw, ws', hws, rfl⟩ := h
      exact ⟨(wire_item_within hw).2.2, ih hws⟩
    · rw [ok_pure] at h
      rw [← h]
      trivial

/-! ## No byte is read behind the input -/

section Safe
variable {m : Platform} {d : Bytes} {fuel p : Nat}

theorem read_byte_safe (h : p < d.length) : (read_byte d p).safe := by
  rw [read_byte, List.getElem?_eq_getElem h]
  exact faultsIn_pure

theorem read_bytes_safe {n : Nat} (h : p + n ≤ d.length) : (read_bytes d p n).safe := by
  induction n generalizing p with
  | zero => exact faultsIn_pure
  | succ n ih =>
    rw [read_bytes, safe_bind]
    refine ⟨read_byte_safe (by omega), fun x _ => ?_⟩
    rw [safe_bind]
    exact ⟨ih (by omega), fun r _ => faultsIn_pure⟩

theorem read_head_safe (p : Nat) : (read_head d p).safe := by
  simp only [read_head, faultsIn_check, faultsIn_bind]
  intro hp
  refine ⟨read_byte_safe (by omega), fun x _ hl => ⟨read_bytes_safe (by omega), fun _ _ => faultsIn_pure⟩⟩

theorem read_reference_safe (jp : bin_ctx_t) (len : Nat) : (read_reference m jp len).safe := by
  simp only [read_reference, faultsIn_ite_throw]
  exact fun _ _ _ => faultsIn_pure

section Value
variable {value : bin_ctx_t → Nat → BinRun (bin_ctx_t × Nat)} {bound : Nat}
  (hsafe : ∀ jp p, bound < p → p ≤ d.length → (value jp p).safe)
  (hplace : ∀ jp p jp' q, (value jp p).ok (jp', q) → p < q ∧ q ≤ d.length)
include hsafe hplace

variable {jp : bin_ctx_t} {n : Nat}

theorem read_array_safe {i : Nat} (hp : bound < p) (hle : p ≤ d.length) :
    (read_array value n i jp p).safe := by
  induction n generalizing i p jp with
  | zero => exact faultsIn_pure
  | succ n ih =>
    rw [read_array, safe_bind]
    refine ⟨hsafe jp p hp hle, ?_⟩
    rintro ⟨jp₁, p₁⟩ h
    obtain ⟨hlt, hle₁⟩ := hplace _ _ _ _ h
    exact ih (hp.trans hlt) hle₁

theorem read_object_safe (hp : bound < p) : (read_object d value n jp p).safe := by
  induction n generalizing p jp with
  | zero => exact faultsIn_pure
  | succ n ih =>
    simp only [read_object, faultsIn_check, faultsIn_bind]
    intro hlen
    refine ⟨read_bytes_safe (by omega), fun key _ => ⟨hsafe _ _ (by omega) (by omega), ?_⟩⟩
    rintro ⟨jp₁, p₁⟩ h
    have hlt := (hplace _ _ _ _ h).1
    exact ih (by omega)

end Value

theorem read_token_place {jp jp' : bin_ctx_t} (h : (read_token m d fuel jp p).ok (jp', q)) :
    p < q ∧ q ≤ d.length := by
  obtain ⟨w, hw, -⟩ := (read_token_ok_iff _ _ _ _ _).1 h
  obtain ⟨hlt, hle, -⟩ := wire_item_within hw
  exact ⟨hlt, hle⟩

theorem read_token_safe (hp : p ≤ d.length) (hfuel : d.length < p + fuel) (jp : bin_ctx_t) :
    (read_token m d fuel jp p).safe := by
  induction fuel generalizing p jp with
  | zero => omega
  | succ fuel ih =>
    rw [read_token, safe_bind]
    refine ⟨read_head_safe p, ?_⟩
    rintro ⟨type, len, p₁⟩ hhead
    obtain ⟨hlt, hle⟩ := read_head_place hhead
    have hsafe : ∀ jp q, p < q → q ≤ d.length → (read_token m d fuel jp q).safe :=
      fun jp q hq hle => ih hle (by omega) jp
    dsimp only
    split
    · rw [safe, faultsIn_ite_throw]
      exact fun _ => faultsIn_pure
    split
    · rw [safe_bind]
      exact ⟨read_reference_safe jp len, fun _ _ => faultsIn_pure⟩
    split
    · exact read_array_safe hsafe (fun _ _ _ _ => read_token_place) hlt hle
    split
    · exact read_object_safe hsafe (fun _ _ _ _ => read_token_place) hlt
    split
    · rw [safe, faultsIn_ite_throw]
      intro hlen
      rw [faultsIn_bind]
      refine ⟨read_byte_safe (by omega), fun x _ => ?_⟩
      rw [faultsIn_ite_throw]
      exact fun _ => faultsIn_pure
    split
    · rw [safe, faultsIn_ite_throw]
      exact fun _ => faultsIn_pure
    · exact faultsIn_pure

theorem read_tokens_safe (hp : p ≤ d.length) (hfuel : d.length < p + fuel) (jp : bin_ctx_t) :
    (read_tokens m d fuel jp p).safe := by
  induction fuel generalizing p jp with
  | zero => omega
  | succ fuel ih =>
    rw [read_tokens]
    split
    · rw [safe_bind]
      refine ⟨read_token_safe hp (by omega) jp, ?_⟩
      rintro ⟨jp₁, p₁⟩ h
      obtain ⟨hlt, hle⟩ := read_token_place h
      exact ih hle (by omega) jp₁
    · exact faultsIn_pure

end Safe

/-! ## What an item appends -/

/-- What a token keeps when its key is set. -/
def bare (k : BinToken) : Nat × Option Nat := (k.len, k.data)

theorem read_reference_appends {m : Platform} {jp jp' : bin_ctx_t} {idx : Nat} (h : (read_reference m jp (idx + 2)).ok jp') :
    ∃ k, jp'.result = jp.result ++ [k] ∧ jp'.room = jp.room.taken ∧
      (jp'.inside = true ↔ jp.inside = true ∧ idx < jp.room.used ∧ (m.rtl = true → jp.room.used < jp.room.allocated)) ∧
      (jp'.inside = true → jp.result[idx]? = some k ∧ k.type < 2) := by
  simp only [read_reference, ok_ite_throw, ok_pure, Nat.add_sub_cancel] at h
  obtain ⟨hidx, halloc, htype, rfl⟩ := h
  have hlast : ∀ k, (next_item jp 4 (idx + 2)).result.set jp.result.length k = jp.result ++ [k] := fun k => by
    rw [next_item, set_append_right _ _ le_rfl, Nat.sub_self, set_cons_zero]
  have hinside : (jp.inside && decide (idx < jp.result.length) &&
        !(m.rtl && decide (jp.allocated ≤ jp.result.length))) = true ↔
      jp.inside = true ∧ idx < jp.room.used ∧ (m.rtl = true → jp.room.used < jp.room.allocated) := by
    cases m.rtl <;> simp [bin_ctx_t.room, and_assoc]
  refine ⟨_, hlast _, ?_, hinside, fun h => ?_⟩
  · rw [bin_ctx_t.room, hlast, length_append]
    rfl
  · obtain ⟨-, hlt, hroom⟩ := hinside.1 h
    have hsrc := List.getElem?_eq_getElem hlt
    have hkept : ¬ (m.rtl && decide (jp.allocated ≤ jp.result.length)) = true := by
      simpa [bin_ctx_t.room] using hroom
    rw [hsrc, Nat.not_le] at htype
    rw [if_neg hkept, next_item, List.getElem?_append_left hlt, hsrc]
    exact ⟨rfl, htype⟩

theorem set_key_room (jp : bin_ctx_t) (ll key : Nat) : (set_key jp ll key).room = jp.room := by
  simp [bin_ctx_t.room, set_key]

section Build
variable {m : Platform}

mutual

theorem build_appends : (w : Wire) → {jp jp' : bin_ctx_t} → (build m w jp).ok jp' →
    ∃ ts, jp'.result = jp.result ++ ts ∧ jp'.room = w.room jp.room
  | .count len, jp, jp', h => by
    rw [build, ok_pure] at h
    rw [← h]
    exact ⟨[], by simp, rfl⟩
  | .reference idx, jp, jp', h => by
    obtain ⟨k, hk, hroom, -⟩ := read_reference_appends h
    exact ⟨[k], hk, hroom⟩
  | .leaf type len none, jp, jp', h => by
    rw [build, ok_pure] at h
    rw [← h]
    exact ⟨_, rfl, by simp [bin_ctx_t.room, next_item, Wire.room, Room.taken]⟩
  | .leaf type len (some p), jp, jp', h => by
    rw [build, ok_pure] at h
    rw [← h]
    refine ⟨_, modify_length_append _ _ _, ?_⟩
    simp [bin_ctx_t.room, set_data, next_item, Wire.room, Room.taken]
  | .node type keys items, jp, jp', h => by
    obtain ⟨ts, hts, hroom⟩ := build_items_appends items h
    refine ⟨_ :: ts, by rw [hts, next_item, append_assoc]; rfl, ?_⟩
    rw [hroom, Wire.room]
    simp [bin_ctx_t.room, next_item, Room.taken]

theorem build_items_appends : (ws : List Wire) → {keys : List Nat} → {jp jp' : bin_ctx_t} →
    (build_items m ws keys jp).ok jp' → ∃ ts, jp'.result = jp.result ++ ts ∧ jp'.room = Wire.rooms ws jp.room
  | [], keys, jp, jp', h => by
    rw [build_items, ok_pure] at h
    rw [← h]
    exact ⟨[], by simp, rfl⟩
  | w :: ws, [], jp, jp', h => by
    rw [build_items, ok_bind] at h
    obtain ⟨jp₁, hw, hws⟩ := h
    obtain ⟨a, ha, hroom⟩ := build_appends w hw
    obtain ⟨b, hb, hrooms⟩ := build_items_appends ws hws
    exact ⟨a ++ b, by rw [hb, ha, append_assoc], by rw [hrooms, hroom, Wire.rooms]⟩
  | w :: ws, key :: keys, jp, jp', h => by
    rw [build_items, ok_bind] at h
    obtain ⟨jp₁, hw, hws⟩ := h
    obtain ⟨a, ha, hroom⟩ := build_appends w hw
    obtain ⟨b, hb, hrooms⟩ := build_items_appends ws hws
    refine ⟨a.modify 0 (fun t => { t with key := key % 2 ^ 16 }) ++ b, ?_, ?_⟩
    · rw [hb, set_key, ha, modify_length_append, append_assoc]
    · rw [hrooms, set_key_room, hroom, Wire.rooms]

end

mutual

theorem build_inside : (w : Wire) → {jp jp' : bin_ctx_t} → (build m w jp).ok jp' →
    (jp'.inside = true ↔ jp.inside = true ∧ w.Inside m jp.room)
  | .count len, jp, jp', h => by
    rw [build, ok_pure] at h
    rw [← h, Wire.Inside, and_true]
  | .reference idx, jp, jp', h => by
    obtain ⟨k, -, -, hinside, -⟩ := read_reference_appends h
    exact hinside
  | .leaf type len none, jp, jp', h => by
    rw [build, ok_pure] at h
    rw [← h, Wire.Inside, and_true]
    rfl
  | .leaf type len (some p), jp, jp', h => by
    rw [build, ok_pure] at h
    rw [← h, Wire.Inside, and_true]
    rfl
  | .node type keys items, jp, jp', h => by
    rw [build_items_inside items h, Wire.Inside]
    simp [bin_ctx_t.room, next_item, Room.taken]

theorem build_items_inside : (ws : List Wire) → {keys : List Nat} → {jp jp' : bin_ctx_t} →
    (build_items m ws keys jp).ok jp' → (jp'.inside = true ↔ jp.inside = true ∧ Wire.InsideAll m ws keys jp.room)
  | [], keys, jp, jp', h => by
    rw [build_items, ok_pure] at h
    rw [← h, Wire.InsideAll, and_true]
  | w :: ws, [], jp, jp', h => by
    rw [build_items, ok_bind] at h
    obtain ⟨jp₁, hw, hws⟩ := h
    obtain ⟨a, -, hroom⟩ := build_appends w hw
    rw [build_items_inside ws hws, build_inside w hw, hroom, Wire.InsideAll, and_assoc]
  | w :: ws, key :: keys, jp, jp', h => by
    rw [build_items, ok_bind] at h
    obtain ⟨jp₁, hw, hws⟩ := h
    obtain ⟨a, -, hroom⟩ := build_appends w hw
    have hkey : (set_key jp₁ jp.result.length key).inside = true ↔
        jp₁.inside = true ∧ jp.room.used < (w.room jp.room).allocated := by
      rw [← hroom]
      simp [set_key, bin_ctx_t.room]
    rw [build_items_inside ws hws, hkey, build_inside w hw, set_key_room, hroom, Wire.InsideAll]
    tauto

end

/-! ## The tokens of an item -/

theorem bare_set_key (jp : bin_ctx_t) (ll key : Nat) : (set_key jp ll key).result.map bare = jp.result.map bare := by
  apply ext_getElem?
  intro i
  rw [set_key, List.getElem?_map, List.getElem?_map, List.getElem?_modify]
  cases jp.result[i]? with
  | none => rfl
  | some k => by_cases h : ll = i <;> simp [h, bare]

variable {all : List BinToken} {k : BinToken} {len p type : Nat} {d : Bytes} {ts : List BinToken} {w : Wire}

theorem shape_set_key (key : Nat) :
    w.Shape all p (ts.modify 0 fun t => { t with key := key }) ↔ w.Shape all p ts := by
  cases ts with
  | nil => rfl
  | cons k r =>
    cases w <;> simp [Wire.Shape, Token.type, Token.size]

mutual

theorem shape_room {all : List BinToken} : (w : Wire) → {p : Nat} → {ts : List BinToken} → w.Shape all p ts →
    (s : Room) → (w.room s).used = s.used + ts.length
  | .count len, p, ts, h, s => by
    rw [h]
    rfl
  | .reference idx, p, ts, h, s => by
    obtain ⟨k, src, rfl, -⟩ := h
    rfl
  | .leaf type len data, p, ts, h, s => by
    obtain ⟨k, rfl, -⟩ := h
    rfl
  | .node type keys items, p, ts, h, s => by
    obtain ⟨k, r, rfl, -, -, hitems⟩ := h
    rw [Wire.room, shapes_room items hitems, length_cons]
    exact Nat.add_right_comm s.used 1 r.length

theorem shapes_room {all : List BinToken} : (ws : List Wire) → {p : Nat} → {ts : List BinToken} →
    Wire.ShapeAll all ws p ts → (s : Room) → (Wire.rooms ws s).used = s.used + ts.length
  | [], p, ts, h, s => by
    rw [h]
    rfl
  | w :: ws, p, ts, h, s => by
    obtain ⟨a, b, rfl, hw, hws⟩ := h
    rw [Wire.rooms, shapes_room ws hws, shape_room w hw, length_append]
    omega

end

theorem shapeAll_append_iff {a b : List BinToken} {s : Room}
    (ha : (w.room s).used = s.used + a.length) :
    Wire.ShapeAll all (w :: ws) p (a ++ b) ↔ w.Shape all p a ∧ Wire.ShapeAll all ws (p + a.length) b := by
  constructor
  · rintro ⟨a', b', heq, hw, hws⟩
    have hlen := shape_room w hw s
    obtain ⟨rfl, rfl⟩ := append_inj heq (by omega)
    exact ⟨hw, hws⟩
  · rintro ⟨hw, hws⟩
    exact ⟨a, b, rfl, hw, hws⟩

theorem shape_leaf_iff (hk : k.len = type * 2 ^ 28 ||| len) :
    (Wire.leaf type len k.data).Shape all p [k] ↔ (Wire.leaf type len k.data).Told := by
  rw [Wire.Told, ← (token_word hk).1]
  constructor
  · rintro ⟨_, h, htype, -⟩
    obtain ⟨rfl, -⟩ := List.cons.inj h
    exact htype
  · intro htype
    exact ⟨k, rfl, htype, rfl⟩

theorem shape_node_iff {r : List BinToken} {keys : List Nat}
    {items : List Wire} (hk : k.len = type * 2 ^ 28 ||| items.length) :
    (Wire.node type keys items).Shape all p (k :: r) ↔
      type ||| items.length / 2 ^ 28 = type ∧ items.length % 2 ^ 28 = Wire.children items ∧
        Wire.ShapeAll all items (p + 1) r := by
  rw [← (token_word hk).1, ← (token_word hk).2]
  constructor
  · rintro ⟨_, _, h, hrest⟩
    obtain ⟨rfl, rfl⟩ := List.cons.inj h
    exact hrest
  · intro hrest
    exact ⟨k, r, rfl, hrest⟩

mutual

/-- The tokens of an item that is built inside of the array stand for it exactly if they tell its
type and its children. -/
theorem build_shape {all : List BinToken} : (w : Wire) → {jp jp' : bin_ctx_t} → {ts : List BinToken} →
    (build m w jp).ok jp' → jp'.inside = true → jp'.result.map bare <+: all.map bare →
    jp'.result = jp.result ++ ts → (w.Shape all jp.result.length ts ↔ w.Told)
  | .count len, jp, jp', ts, h, _, _, hts => by
    rw [build, ok_pure] at h
    rw [← h, self_eq_append_right] at hts
    simp [Wire.Shape, Wire.Told, hts]
  | .reference idx, jp, jp', ts, h, hin, hall, hts => by
    rw [build] at h
    obtain ⟨k, hk, -, hinside, hsrc⟩ := read_reference_appends h
    obtain ⟨-, hlt, -⟩ := hinside.1 hin
    obtain ⟨hget, htype⟩ := hsrc hin
    rw [hk, append_cancel_left_eq] at hts
    -- the source is still there, up to its key
    obtain ⟨src, hsrc, hbare⟩ : ∃ src, all[idx]? = some src ∧ bare src = bare k := by
      have hk' : (jp'.result.map bare)[idx]? = some (bare k) := by
        rw [List.getElem?_map, hk, List.getElem?_append_left hlt, hget]
        rfl
      obtain ⟨t, ht⟩ := hall
      rw [← List.getElem?_append_left (List.getElem?_eq_some_iff.1 hk').1, ht, List.getElem?_map,
        Option.map_eq_some_iff] at hk'
      exact hk'
    obtain ⟨hlen, hdata⟩ := Prod.mk.inj hbare
    have htype' : src.type < 2 := by
      rw [Token.type, hlen]
      exact htype
    rw [Wire.Shape, Wire.Told, iff_true]
    exact ⟨k, src, hts.symm, hlt, hsrc, htype', hlen.symm, hdata.symm⟩
  | .leaf type len none, jp, jp', ts, h, _, _, hts => by
    rw [build, ok_pure] at h
    rw [← h, next_item, append_cancel_left_eq] at hts
    rw [← hts]
    exact shape_leaf_iff rfl
  | .leaf type len (some p), jp, jp', ts, h, _, _, hts => by
    rw [build, ok_pure] at h
    rw [← h, set_data, next_item, modify_length_append, append_cancel_left_eq] at hts
    rw [← hts]
    exact shape_leaf_iff rfl
  | .node type keys items, jp, jp', ts, h, hin, hall, hts => by
    rw [build] at h
    obtain ⟨r, hr, -⟩ := build_items_appends items h
    have hitems := build_items_shape items h hin hall hr
    rw [hr, next_item, append_assoc, append_cancel_left_eq] at hts
    rw [next_item, length_append] at hitems
    rw [← hts, singleton_append, shape_node_iff rfl, Wire.Told, ← hitems]
    rfl

theorem build_items_shape {all : List BinToken} : (ws : List Wire) → {keys : List Nat} → {jp jp' : bin_ctx_t} →
    {ts : List BinToken} → (build_items m ws keys jp).ok jp' → jp'.inside = true →
    jp'.result.map bare <+: all.map bare → jp'.result = jp.result ++ ts →
    (Wire.ShapeAll all ws jp.result.length ts ↔ Wire.ToldAll ws)
  | [], keys, jp, jp', ts, h, _, _, hts => by
    rw [build_items, ok_pure] at h
    rw [← h, self_eq_append_right] at hts
    simp [Wire.ShapeAll, Wire.ToldAll, hts]
  | w :: ws, [], jp, jp', ts, h, hin, hall, hts => by
    rw [build_items, ok_bind] at h
    obtain ⟨jp₁, hw, hws⟩ := h
    obtain ⟨a, ha, hroom⟩ := build_appends w hw
    obtain ⟨b, hb, -⟩ := build_items_appends ws hws
    have hin₁ := ((build_items_inside ws hws).1 hin).1
    have hall₁ : jp₁.result.map bare <+: all.map bare :=
      List.IsPrefix.trans ⟨b.map bare, by rw [hb, map_append]⟩ hall
    have hfirst := build_shape w hw hin₁ hall₁ ha
    have hrest := build_items_shape ws hws hin hall hb
    have hused : (w.room jp.room).used = jp.room.used + a.length := by
      rw [← hroom, bin_ctx_t.room, ha, length_append]
      rfl
    rw [hb, ha, append_assoc, append_cancel_left_eq] at hts
    rw [ha, length_append] at hrest
    rw [← hts, shapeAll_append_iff hused, hfirst, hrest, Wire.ToldAll]
  | w :: ws, key :: keys, jp, jp', ts, h, hin, hall, hts => by
    rw [build_items, ok_bind] at h
    obtain ⟨jp₁, hw, hws⟩ := h
    obtain ⟨a, ha, hroom⟩ := build_appends w hw
    obtain ⟨b, hb, -⟩ := build_items_appends ws hws
    have hset := ((build_items_inside ws hws).1 hin).1
    have hin₁ : jp₁.inside = true := by
      rw [set_key, Bool.and_eq_true] at hset
      exact hset.1
    have hall₁ : jp₁.result.map bare <+: all.map bare :=
      List.IsPrefix.trans ⟨b.map bare, by rw [hb, map_append, bare_set_key]⟩ hall
    have hfirst := build_shape w hw hin₁ hall₁ ha
    have hrest := build_items_shape ws hws hin hall hb
    have hused : (w.room jp.room).used =
        jp.room.used + (a.modify 0 fun t : BinToken => { t with key := key % 2 ^ 16 }).length := by
      rw [← hroom, bin_ctx_t.room, ha, length_append, length_modify]
      rfl
    rw [set_key, ha, modify_length_append] at hb
    rw [set_key, ha, modify_length_append, length_append] at hrest
    rw [hb, append_assoc, append_cancel_left_eq] at hts
    rw [← hts, shapeAll_append_iff hused, shape_set_key, hfirst, hrest, Wire.ToldAll]

end

/-! ## Ranges -/

theorem ranged_of_bare {k' : BinToken} (h : bare k = bare k') (hk : Ranged d k) : Ranged d k' := by
  obtain ⟨hlen, hdata⟩ := Prod.mk.inj h
  rw [Ranged, Token.type, Token.size, ← hlen, ← hdata]
  exact hk

theorem ranged_set_key {jp : bin_ctx_t} (h : ∀ k ∈ jp.result, Ranged d k) (ll key : Nat) :
    ∀ k ∈ (set_key jp ll key).result, Ranged d k := by
  intro k hk
  have hbare := mem_map_of_mem (f := bare) hk
  rw [bare_set_key, mem_map] at hbare
  obtain ⟨k', hk', heq⟩ := hbare
  exact ranged_of_bare heq (h k' hk')

theorem ranged_leaf (hk : k.len = type * 2 ^ 28 ||| len)
    (h : (Wire.leaf type len k.data).Within d) : Ranged d k := by
  obtain ⟨htype, hsize⟩ := token_word hk
  intro hlt
  rw [htype] at hlt
  obtain ⟨off, hdata, hoff⟩ := h (Nat.left_le_or.trans_lt hlt)
  exact ⟨off, hdata, by omega⟩

theorem ranged_node (hk : k.len = type * 2 ^ 28 ||| len) (h : 2 ≤ type) :
    Ranged d k := by
  intro hlt
  rw [(token_word hk).1] at hlt
  have hle : type ≤ type ||| len / 2 ^ 28 := Nat.left_le_or
  omega

theorem ranged_append {us : List BinToken} (hts : ∀ k ∈ ts, Ranged d k) (hus : ∀ k ∈ us, Ranged d k) :
    ∀ k ∈ ts ++ us, Ranged d k :=
  forall_mem_append.2 ⟨hts, hus⟩

mutual

theorem build_ranged {d : Bytes} : (w : Wire) → {jp jp' : bin_ctx_t} → (build m w jp).ok jp' → jp'.inside = true →
    w.Within d → (∀ k ∈ jp.result, Ranged d k) → ∀ k ∈ jp'.result, Ranged d k
  | .count len, jp, jp', h, _, _, hjp => by
    rw [build, ok_pure] at h
    rw [← h]
    exact hjp
  | .reference idx, jp, jp', h, hin, _, hjp => by
    obtain ⟨k, hk, -, -, hsrc⟩ := read_reference_appends h
    have hmem := mem_of_getElem? (hsrc hin).1
    rw [hk]
    exact ranged_append hjp (forall_mem_singleton.2 (hjp k hmem))
  | .leaf type len none, jp, jp', h, _, hwithin, hjp => by
    rw [build, ok_pure] at h
    rw [← h]
    exact ranged_append hjp (forall_mem_singleton.2 (ranged_leaf rfl hwithin))
  | .leaf type len (some p), jp, jp', h, _, hwithin, hjp => by
    rw [build, ok_pure] at h
    rw [← h, set_data, next_item, modify_length_append]
    exact ranged_append hjp (forall_mem_singleton.2 (ranged_leaf rfl hwithin))
  | .node type keys items, jp, jp', h, hin, hwithin, hjp => by
    refine build_items_ranged items h hin hwithin.2 ?_
    exact ranged_append hjp (forall_mem_singleton.2 (ranged_node rfl hwithin.1))

theorem build_items_ranged {d : Bytes} : (ws : List Wire) → {keys : List Nat} → {jp jp' : bin_ctx_t} →
    (build_items m ws keys jp).ok jp' → jp'.inside = true → Wire.WithinAll d ws → (∀ k ∈ jp.result, Ranged d k) →
    ∀ k ∈ jp'.result, Ranged d k
  | [], keys, jp, jp', h, _, _, hjp => by
    rw [build_items, ok_pure] at h
    rw [← h]
    exact hjp
  | w :: ws, [], jp, jp', h, hin, hwithin, hjp => by
    rw [build_items, ok_bind] at h
    obtain ⟨jp₁, hw, hws⟩ := h
    have hin₁ := ((build_items_inside ws hws).1 hin).1
    exact build_items_ranged ws hws hin hwithin.2 (build_ranged w hw hin₁ hwithin.1 hjp)
  | w :: ws, key :: keys, jp, jp', h, hin, hwithin, hjp => by
    rw [build_items, ok_bind] at h
    obtain ⟨jp₁, hw, hws⟩ := h
    have hset := ((build_items_inside ws hws).1 hin).1
    rw [set_key, Bool.and_eq_true] at hset
    have hjp₁ := build_ranged w hw hset.1 hwithin.1 hjp
    exact build_items_ranged ws hws hin hwithin.2 (ranged_set_key hjp₁ jp.result.length key)

end

end Build

/-! ## Documents -/

/-- No byte is read behind a document. The tokens of one that is accepted are sound exactly if
its references name earlier tokens, its count tokens stand outside of containers and its
lengths leave the types alone. -/
theorem parse_binary_sound_iff (m : Platform) (d : Bytes) :
    (parse_binary m d).safe ∧ ∀ jp, (parse_binary m d).ok jp →
      ∃ ws, (wire d).ok ws ∧ (Sound d ws jp ↔ Wire.InsideAll m ws [] ⟨0, 0⟩ ∧ Wire.ToldAll ws) := by
  refine ⟨read_tokens_safe (Nat.zero_le _) (by omega) _, fun jp h => ?_⟩
  obtain ⟨ws, hws, hbuild⟩ := parse_binary_ok_iff.1 h
  refine ⟨ws, hws, ?_⟩
  have hinside : jp.inside = true ↔ Wire.InsideAll m ws [] ⟨0, 0⟩ :=
    (build_items_inside ws hbuild).trans (and_iff_right rfl)
  have hshape := fun hin => build_items_shape ws hbuild hin (prefix_refl _) (nil_append _).symm
  constructor
  · rintro ⟨hin, -, hall⟩
    exact ⟨hinside.1 hin, (hshape hin).1 hall⟩
  · rintro ⟨hin, htold⟩
    have hin := hinside.2 hin
    exact ⟨hin, build_items_ranged ws hbuild hin (wire_within hws) (by simp), (hshape hin).2 htold⟩

/-- An array with a byte and a reference to it. -/
def byteTwice : List Wire := [.node 2 [0, 1] [.leaf 0 1 (some 2), .reference 1]]

def byteTwiceTokens : bin_ctx_t :=
  ⟨[⟨2 * 2 ^ 28 + 2, 0, false, none⟩, ⟨1, 0, false, some 2⟩, ⟨1, 1, false, some 2⟩], 10, true⟩

theorem parse_binary_sound_pair : Sound [66, 1, 97, 131] byteTwice byteTwiceTokens := by
  obtain ⟨ws, hws, hsound⟩ := (parse_binary_sound_iff ⟨true, fun _ => ⟨0, 0, false, none⟩⟩ _).2 byteTwiceTokens
    (by decide : (parse_binary _ [66, 1, 97, 131]).ok byteTwiceTokens)
  have hwire : (wire [66, 1, 97, 131]).ok byteTwice := rfl
  obtain rfl := ok_unique hwire hws
  refine hsound.2 ⟨⟨⟨trivial, by decide, ⟨by decide, fun _ => by decide⟩, by decide, trivial⟩, trivial⟩, ?_⟩
  exact ⟨⟨by decide, by decide, by unfold Wire.Told; decide, trivial, trivial⟩, trivial⟩

/-- In fresh memory that is zero, a reference to the token behind the last one is accepted and
becomes a boolean of length 2; a count token passes for the only element of an array; and the
length of an integer turns its type into 7. -/
theorem parse_binary_unsound :
    ((parse_binary ⟨false, fun _ => ⟨0, 0, false, none⟩⟩ [197, 130]).ok ⟨[⟨4 * 2 ^ 28 + 2, 0, false, none⟩], 5, false⟩ ∧
      ∀ ws, ¬ Sound [197, 130] ws ⟨[⟨4 * 2 ^ 28 + 2, 0, false, none⟩], 5, false⟩) ∧
    (parse_binary ⟨false, fun _ => ⟨0, 0, false, none⟩⟩ [65, 193]).ok ⟨[⟨2 * 2 ^ 28 + 1, 0, false, none⟩], 10, true⟩ ∧
    (parse_binary ⟨false, fun _ => ⟨0, 0, false, none⟩⟩ [191, 32, 0, 0, 0]).ok ⟨[⟨7 * 2 ^ 28, 0, false, none⟩], 10, true⟩ := by
  refine ⟨⟨by decide, fun ws h => ?_⟩, by decide, by decide⟩
  cases h.inside

end In3
