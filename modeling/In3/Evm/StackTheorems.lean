import In3.Evm.StackBuffer
import In3.Evm.SignedTheorems
/-!
# The buffer of the stack holds a list of words

`Holds` says which bytes the buffer has for the entries of a `Stack`, which is the stack of the machine's model. Each
function on the bytes is shown to be the function on the entries; SWAP is the one that needs an argument, since it writes
over entries that it still has to move. `WordStack` says what the stack is for: a list of at most 1024 words. A
sequence of operations on the bytes ends as it does on the words.
-/
open Lib List Region

namespace In3.Evm

/-! ## A stack of words -/

abbrev Word := BitVec 256

namespace WordStack

/-- The word that an operation takes off, and the words that are left, the top first. -/
def step (s : List Word) : StackOp Word → Except Int (Option Word × List Word)
  | .push w => if s.length = EVM_STACK_LIMIT then .error EVM_ERROR_STACK_LIMIT else .ok (none, w :: s)
  | .pop =>
    match s with
    | [] => .error EVM_ERROR_EMPTY_STACK
    | w :: rest => .ok (some w, rest)
  | .dup n =>
    match s[n.val]? with
    | none => .error EVM_ERROR_EMPTY_STACK
    | some w => if s.length = EVM_STACK_LIMIT then .error EVM_ERROR_STACK_LIMIT else .ok (none, w :: s)
  | .swap n =>
    match s[0]?, s[n.val + 1]? with
    | some a, some b => .ok (none, (s.set (n + 1) a).set 0 b)
    | _, _ => .error EVM_ERROR_EMPTY_STACK

def run (s : List Word) : List (StackOp Word) → Except Int (List Word × List Word)
  | [] => .ok ([], s)
  | op :: ops => do
    let (w, s) ← step s op
    let (ws, s) ← run s ops
    return (w.toList ++ ws, s)

end WordStack

namespace StackBuffer

/-! ## The bytes of the entries -/

def cell (e : Bytes) : Bytes := e ++ [UInt8.ofNat e.length]

/-- The entries in the buffer, the top last. -/
def packed : List Bytes → Bytes
  | [] => []
  | e :: es => packed es ++ cell e

@[simp] theorem length_cell (e : Bytes) : (cell e).length = e.length + 1 := by
  rw [cell, length_append, length_singleton]

theorem packed_append (es fs : List Bytes) : packed (es ++ fs) = packed fs ++ packed es := by
  induction es with
  | nil => rw [nil_append, packed, append_nil]
  | cons e es ih => rw [cons_append, packed, ih, packed, append_assoc]

variable {buf : StackBuffer} {data old post post' pre' : Bytes} {es his : List Bytes} {s s' : Stack} {ws : List Word}

theorem length_packed_le (h : ∀ e ∈ es, e.length ≤ 32) : (packed es).length ≤ 33 * es.length := by
  induction es with
  | nil => exact Nat.zero_le _
  | cons e es ih =>
    have he := h e mem_cons_self
    have hes := ih fun x hx => h x (mem_cons_of_mem e hx)
    rw [packed, length_append, length_cell, length_cons]
    omega

/-- The buffer has the entries of the stack, and the bytes of its `slack` behind them. -/
structure Holds (buf : StackBuffer) (s : Stack) : Prop where
  data : ∃ rest, buf.data = packed s.entries ++ rest ∧ s.slack <+: rest
  len : buf.len = (packed s.entries).length
  stack_size : buf.stack_size = s.entries.length
  room : 64 ≤ buf.data.length

theorem start_holds : start.Holds Stack.empty :=
  ⟨⟨replicate 64 0, rfl, nil_prefix⟩, rfl, rfl, by decide⟩

/-! ## Push -/

theorem bb_check_size_data (len : Nat) (hroom : 64 ≤ buf.data.length) (hlen : buf.len + len < 2 ^ 32) :
    (∃ n, (buf.bb_check_size len).data = buf.data ++ replicate n 0) ∧
      buf.len + len < (buf.bb_check_size len).data.length := by
  unfold bb_check_size
  split
  · exact ⟨⟨0, by simp⟩, by assumption⟩
  · have hlt : buf.len + len < grown_size (buf.len + len) 32 buf.data.length := lt_grown_size (by omega)
    refine ⟨⟨_, rfl⟩, ?_⟩
    simp only [length_append, length_replicate]
    omega

theorem bb_check_size_len (buf : StackBuffer) (len : Nat) : (buf.bb_check_size len).len = buf.len := by
  unfold bb_check_size
  split <;> rfl

theorem bb_check_size_stack_size (buf : StackBuffer) (len : Nat) :
    (buf.bb_check_size len).stack_size = buf.stack_size := by
  unfold bb_check_size
  split <;> rfl

variable {a b e low mid pre rest : Bytes} {i pos : Nat} {los : List Bytes}

theorem store_cell (pre : Bytes) (h : e.length + 1 ≤ rest.length) :
    (do
      let bytes ← Region.store (pre ++ rest) pre.length e
      Region.store bytes (pre.length + e.length) [UInt8.ofNat e.length] : Fn Bytes) =
      pure (pre ++ cell e ++ rest.drop (e.length + 1)) := by
  rw [store_append rfl (by omega), pure_bind, store_append]
  · rw [length_singleton, drop_drop, cell, append_assoc pre e]
  · rw [length_append]
    rfl
  · rw [length_singleton, length_drop]
    omega

theorem Holds.push (h : buf.Holds s) (hpush : s.push e = some s') :
    ∃ buf', buf.evm_stack_push e = pure buf' ∧ buf'.Holds s' := by
  unfold Stack.push at hpush
  split at hpush
  · cases hpush
  next hfits =>
  cases hpush
  obtain ⟨rest, hdata, hslack⟩ := h.data
  have hcount := s.count
  have hpacked := length_packed_le s.small
  have hlimit : EVM_STACK_LIMIT = 1024 := rfl
  obtain ⟨⟨n, hgrown⟩, hlt⟩ := bb_check_size_data (e.length + 1) h.room (by rw [h.len]; omega)
  rw [hdata, append_assoc] at hgrown
  have hrest : e.length + 1 ≤ (rest ++ replicate n 0).length := by
    rw [hgrown, length_append, h.len] at hlt
    omega
  refine ⟨⟨packed s.entries ++ cell e ++ (rest ++ replicate n 0).drop (e.length + 1),
    (packed s.entries).length + e.length + 1, buf.stack_size + 1⟩, ?_, ?_⟩
  · rw [evm_stack_push, if_neg (by rw [h.stack_size]; exact hfits)]
    dsimp only
    rw [bb_check_size_len, bb_check_size_stack_size, hgrown, h.len]
    have hstored := store_cell (packed s.entries) hrest
    rw [← bind_assoc, hstored, pure_bind]
  · refine ⟨⟨_, rfl, ?_⟩, ?_, ?_, ?_⟩
    · obtain ⟨more, rfl⟩ := hslack
      rw [append_assoc, drop_append]
      exact prefix_append _ _
    · rw [packed, length_append, length_cell]
      rfl
    · rw [length_cons, h.stack_size]
    · have hroom := h.room
      rw [hdata, length_append] at hroom
      simp only [length_append, length_cell, length_drop]
      omega

theorem Holds.push_full (h : buf.Holds s) (hpush : s.push e = none) :
    buf.evm_stack_push e = throw EVM_ERROR_STACK_LIMIT := by
  unfold Stack.push at hpush
  split at hpush
  next hfull => rw [evm_stack_push, if_pos (by rw [h.stack_size]; exact hfull)]
  · cases hpush

/-! ## Finding entries -/

theorem entry_at_cell (he : e.length ≤ 32) :
    entry_at (pre ++ cell e ++ rest) (pre ++ cell e).length = pure (pre.length, e.length) := by
  have hbytes : pre ++ cell e ++ rest = (pre ++ e) ++ UInt8.ofNat e.length :: rest := by
    simp [cell]
  have hlen : (UInt8.ofNat e.length).toNat = e.length := UInt8.toNat_ofNat_of_lt' (by rw [UInt8.size]; omega)
  have hat : (pre ++ cell e).length = pre.length + (e.length + 1) := by
    rw [length_append, length_cell]
  rw [entry_at, hbytes, byte_between, pure_bind, hlen, hat, Guarded.guard, if_pos (by omega), pure_bind,
    Nat.add_sub_cancel]
  · rw [hat, length_append]
    omega

theorem Holds.pop (h : buf.Holds s) (hpop : s.pop = some (e, s')) :
    ∃ buf', buf.evm_stack_pop_ref = pure (e, buf') ∧ buf'.Holds s' := by
  obtain ⟨rest, hdata, hslack⟩ := h.data
  unfold Stack.pop at hpop
  split at hpop
  · cases hpop
  next e' es hentries =>
  cases hpop
  rw [hentries, packed] at hdata
  have he : e.length ≤ 32 := s.small e (hentries ▸ mem_cons_self)
  have hlen : buf.len = (packed es ++ cell e).length := by rw [h.len, hentries, packed]
  have hsize : buf.stack_size = es.length + 1 := by rw [h.stack_size, hentries, length_cons]
  refine ⟨{ buf with len := (packed es).length, stack_size := es.length }, ?_, ⟨cell e ++ rest, ?_, ?_⟩, rfl, rfl, h.room⟩
  · rw [evm_stack_pop_ref, if_neg (by omega), hlen, hdata, entry_at_cell he, pure_bind]
    dsimp only
    rw [cell, append_assoc, append_assoc, ← append_assoc, slice_between rfl rfl, pure_bind, hsize,
      Nat.add_sub_cancel]
  · rw [hdata, append_assoc]
  · obtain ⟨more, rfl⟩ := hslack
    simp [cell]

theorem Holds.pop_empty (h : buf.Holds s) (hpop : s.entries = []) :
    buf.evm_stack_pop_ref = throw EVM_ERROR_EMPTY_STACK := by
  rw [evm_stack_pop_ref, if_pos]
  rw [h.stack_size, hpop, length_nil]

theorem ref_loop_packed {l : Nat}
    (hsmall : ∀ x ∈ his ++ e :: los, x.length ≤ 32) :
    ref_loop (packed (his ++ e :: los) ++ rest) (his.length + 1) ((packed (his ++ e :: los)).length, l) =
      pure ((packed los).length, e.length) := by
  induction his generalizing rest l with
  | nil =>
    have he := hsmall e mem_cons_self
    rw [nil_append, packed, length_nil, ref_loop, entry_at_cell he, pure_bind, ref_loop]
  | cons x his ih =>
    have hx := hsmall x mem_cons_self
    rw [cons_append, packed, ref_loop, entry_at_cell hx, pure_bind, append_assoc]
    exact ih fun y hy => hsmall y (mem_cons_of_mem x hy)

theorem split_at_index (h : es[i]? = some e) :
    ∃ his los, es = his ++ e :: los ∧ his.length = i := by
  obtain ⟨hi, rfl⟩ := List.getElem?_eq_some_iff.1 h
  refine ⟨es.take i, es.drop (i + 1), ?_, ?_⟩
  · rw [getElem_cons_drop, take_append_drop]
  · rw [length_take]
    omega

theorem Holds.get_ref (h : buf.Holds s)
    (hs : s.entries = his ++ e :: los) : buf.evm_stack_get_ref (his.length + 1) = pure ((packed los).length, e.length) := by
  obtain ⟨rest, hdata, -⟩ := h.data
  have hsize := h.stack_size
  rw [hs, length_append, length_cons] at hsize
  rw [evm_stack_get_ref, if_neg (by omega), h.len, hdata, hs]
  exact ref_loop_packed fun x hx => s.small x (hs ▸ hx)

theorem Holds.get_ref_none (h : buf.Holds s) (hi : s.entries[i]? = none) :
    buf.evm_stack_get_ref (i + 1) = throw EVM_ERROR_EMPTY_STACK := by
  have hlen := List.getElem?_eq_none_iff.1 hi
  rw [evm_stack_get_ref, if_pos]
  rw [h.stack_size]
  omega

theorem Holds.dup (h : buf.Holds s) (he : s.entries[i]? = some e) :
    buf.op_dup (i + 1) = buf.evm_stack_push e := by
  obtain ⟨his, los, hs, rfl⟩ := split_at_index he
  obtain ⟨rest, hdata, -⟩ := h.data
  have hbytes : buf.data = packed los ++ e ++ ([UInt8.ofNat e.length] ++ packed his ++ rest) := by
    rw [hdata, hs, packed_append, packed, cell]
    simp
  rw [op_dup, h.get_ref hs, pure_bind]
  dsimp only
  rw [hbytes, slice_between rfl rfl, pure_bind]

/-! ## Swap -/

theorem exists_split {l : Bytes} {n : Nat} (h : n ≤ l.length) :
    ∃ front back, l = front ++ back ∧ front.length = n ∧ n + back.length = l.length :=
  ⟨l.take n, l.drop n, (take_append_drop n l).symm, by simpa using h, by rw [length_drop]; omega⟩

theorem memmove_part {part : Bytes} {dst src n : Int} (hdata : data = pre ++ part ++ post)
    (hdata' : data = pre' ++ old ++ post') (hold : part.length = old.length) (hsrc : src = pre.length)
    (hdst : dst = pre'.length) (hn : n = part.length) : memmove data dst src n = pure (pre' ++ part ++ post') := by
  rw [memmove, Guarded.guard, if_pos (by omega), pure_bind, hdata, slice_between hsrc (by omega), pure_bind, ← hdata,
    hdata', store_between hdst hold]

/-- The entry `b` and the top `a` change places. -/
def Swaps (pos : Nat) (low mid rest a b : Bytes) : Prop :=
  swap_bytes (low ++ cell b ++ mid ++ cell a ++ rest) pos (low ++ cell b ++ mid).length a.length low.length b.length =
    pure (low ++ cell a ++ mid ++ cell b ++ rest)

theorem swap_same (hlen : a.length = b.length) : Swaps pos low mid rest a b := by
  have htop : low ++ cell b ++ mid ++ cell a ++ rest = (low ++ cell b ++ mid) ++ a ++ ([UInt8.ofNat a.length] ++ rest) := by
    simp [cell]
  have hold : ∀ x, low ++ cell b ++ mid ++ x = low ++ b ++ ([UInt8.ofNat b.length] ++ mid ++ x) := by
    simp [cell]
  rw [Swaps, swap_bytes, htop, slice_between rfl rfl, pure_bind, append_assoc (low ++ cell b ++ mid), hold,
    slice_between rfl hlen, pure_bind, ← hold, ← append_assoc, store_between rfl hlen.symm, pure_bind,
    append_assoc (low ++ cell b ++ mid), hold, store_between rfl hlen]
  simp [cell, hlen]

/-- The entries between the two are moved, if there are any: what they leave behind is as long as the gap in front of them. -/
theorem between_moves {a l1 b l2 : Nat} (hmid : pos ≤ 2 → mid = [])
    (hdata : data = pre ++ mid ++ post)
    (hdata' : data = pre' ++ old ++ post') (hold : mid.length = old.length) (hsrc : b + l2 + 1 = pre.length)
    (hdst : b + l1 + 1 = pre'.length) (hn : a = b + l2 + 1 + mid.length) :
    swap_bytes.between pos a l1 b l2 data = pure (pre' ++ mid ++ post') := by
  unfold swap_bytes.between
  split
  · exact memmove_part hdata hdata' hold (by omega) (by omega) (by omega)
  next h =>
    have hnil := hmid (by omega)
    rw [hnil] at hold
    have hold' : old = [] := eq_nil_of_length_eq_zero hold.symm
    rw [hdata', hnil, hold']

theorem swap_longer (hmid : pos ≤ 2 → mid = []) (hlen : a.length < b.length) : Swaps pos low mid rest a b := by
  -- `gap` is what is left of the lower entry when the top is written over it
  obtain ⟨head, gap, hcell, hhead, hgap⟩ := exists_split (l := cell b) (n := a.length + 1) (by rw [length_cell]; omega)
  rw [length_cell] at hgap
  -- the bytes behind `mid` once it is moved
  obtain ⟨old, left, hsplit, hold, hleft⟩ := exists_split (l := gap ++ mid) (n := mid.length) (by rw [length_append]; omega)
  rw [length_append] at hleft
  have hmove : swap_bytes.between pos (low ++ cell b ++ mid).length a.length low.length b.length
      (low ++ cell a ++ (gap ++ mid ++ cell a ++ rest)) = pure (low ++ cell a ++ mid ++ (left ++ cell a ++ rest)) := by
    have hfrom : low ++ cell a ++ (gap ++ mid ++ cell a ++ rest) = (low ++ cell a ++ gap) ++ mid ++ (cell a ++ rest) := by
      simp
    have hover : low ++ cell a ++ (gap ++ mid ++ cell a ++ rest) = (low ++ cell a) ++ old ++ (left ++ cell a ++ rest) := by
      rw [hsplit]
      simp
    refine between_moves hmid hfrom hover hold.symm ?_ ?_ ?_ <;> simp only [length_append, length_cell] <;> omega
  have hslice : low ++ cell b ++ mid ++ cell a ++ rest = low ++ cell b ++ (mid ++ cell a ++ rest) := by
    simp
  have hstore : low ++ cell b ++ (mid ++ cell a ++ rest) = low ++ head ++ (gap ++ mid ++ cell a ++ rest) := by
    rw [hcell]
    simp
  have hfinal : low ++ cell a ++ mid ++ (left ++ cell a ++ rest) = (low ++ cell a ++ mid) ++ (left ++ cell a) ++ rest := by
    simp
  rw [Swaps, swap_bytes, if_neg (by omega), if_pos hlen, hslice, slice_between rfl (length_cell b).symm, pure_bind, ← hslice,
    slice_between rfl (length_cell a).symm, pure_bind, hslice, hstore,
    store_between rfl (by rw [length_cell, hhead]), pure_bind, hmove, pure_bind, hfinal, store_between]
  · simp only [length_append, length_cell]
    omega
  · rw [length_append, length_cell, length_cell]
    omega

theorem swap_shorter (hmid : pos ≤ 2 → mid = []) (hlen : b.length < a.length) : Swaps pos low mid rest a b := by
  -- the lower entry is written over the end of the top
  obtain ⟨gap, last, hcell, hgap, hlast⟩ := exists_split (l := cell a) (n := a.length - b.length) (by rw [length_cell]; omega)
  rw [length_cell] at hlast
  -- the bytes in front of `mid` once it is moved
  obtain ⟨left, old, hsplit, hleft, hold⟩ := exists_split (l := cell b ++ mid ++ gap) (n := a.length + 1)
    (by simp only [length_append, length_cell]; omega)
  simp only [length_append, length_cell] at hold
  have hmove : swap_bytes.between pos (low ++ cell b ++ mid).length a.length low.length b.length
      (low ++ cell b ++ mid ++ gap ++ cell b ++ rest) = pure (low ++ left ++ mid ++ (cell b ++ rest)) := by
    have hfrom : low ++ cell b ++ mid ++ gap ++ cell b ++ rest = (low ++ cell b) ++ mid ++ (gap ++ cell b ++ rest) := by
      simp
    have hover : low ++ cell b ++ mid ++ gap ++ cell b ++ rest = (low ++ left) ++ old ++ (cell b ++ rest) := by
      rw [append_assoc low left, ← hsplit]
      simp
    apply between_moves hmid hfrom hover (by omega)
    · rw [length_append, length_cell]
      omega
    · rw [length_append]
      omega
    · simp only [length_append, length_cell]
      omega
  have hslice : low ++ cell b ++ mid ++ cell a ++ rest = low ++ cell b ++ (mid ++ cell a ++ rest) := by
    simp
  have hstore : low ++ cell b ++ (mid ++ cell a ++ rest) = (low ++ cell b ++ mid ++ gap) ++ last ++ rest := by
    rw [hcell]
    simp
  have hfinal : low ++ left ++ mid ++ (cell b ++ rest) = low ++ left ++ (mid ++ cell b ++ rest) := by
    simp
  rw [Swaps, swap_bytes, if_neg (by omega), if_neg (by omega), slice_between rfl (length_cell a).symm, pure_bind, hslice,
    slice_between rfl (length_cell b).symm, pure_bind, hstore, store_between, pure_bind, hmove, pure_bind, hfinal,
    store_between rfl (by rw [length_cell, hleft])]
  · simp
  · simp only [length_append]
    omega
  · rw [length_cell]
    omega

theorem swaps (hmid : pos ≤ 2 → mid = []) : Swaps pos low mid rest a b := by
  rcases Nat.lt_trichotomy a.length b.length with hlt | heq | hgt
  · exact swap_longer hmid hlt
  · exact swap_same heq
  · exact swap_shorter hmid hgt

theorem swap_entries {mids : List Bytes} (hs : s.entries = a :: (mids ++ b :: los)) :
    (s.swap (mids.length + 1) a b).entries = b :: (mids ++ a :: los) := by
  have ha : a.length ≤ 32 := s.small a (hs ▸ mem_cons_self)
  have hb : b.length ≤ 32 := s.small b (hs ▸ mem_cons_of_mem a (mem_append_right mids mem_cons_self))
  rw [Stack.swap, dif_pos ⟨ha, hb⟩]
  simp [hs]

theorem swap_slack (s : Stack) (i : Nat) (a b : Bytes) : (s.swap i a b).slack = s.slack := by
  unfold Stack.swap
  split <;> rfl

theorem Holds.swap (h : buf.Holds s) (ha : s.entries[0]? = some a)
    (hb : s.entries[i + 1]? = some b) : ∃ buf', buf.op_swap (i + 2) = pure buf' ∧ buf'.Holds (s.swap (i + 1) a b) := by
  obtain ⟨his, los, hs, hhis⟩ := split_at_index hb
  rcases his with _ | ⟨top, mids⟩
  · cases hhis
  rw [hs] at ha
  cases Option.some.inj ha
  cases Nat.succ.inj hhis
  have hs' : s.entries = a :: (mids ++ b :: los) := hs
  obtain ⟨rest, hdata, hslack⟩ := h.data
  have hpacked : packed s.entries = packed los ++ cell b ++ packed mids ++ cell a := by
    rw [hs', packed, packed_append, packed]
  have hpacked' : packed (s.swap (mids.length + 1) a b).entries = packed los ++ cell a ++ packed mids ++ cell b := by
    rw [swap_entries hs', packed, packed_append, packed]
  have hmid : mids.length + 2 ≤ 2 → packed mids = [] := by
    intro hle
    have hnil : mids = [] := eq_nil_of_length_eq_zero (by omega)
    rw [hnil, packed]
  have hlower : (packed (mids ++ b :: los)).length = (packed los ++ cell b ++ packed mids).length := by
    rw [packed_append, packed]
  refine ⟨{ buf with data := packed los ++ cell a ++ packed mids ++ cell b ++ rest }, ?_, ⟨rest, ?_, ?_⟩, ?_, ?_, ?_⟩
  · have hfirst : buf.evm_stack_get_ref 1 = pure ((packed (mids ++ b :: los)).length, a.length) :=
      h.get_ref (show s.entries = [] ++ a :: (mids ++ b :: los) from hs')
    have hsecond : buf.evm_stack_get_ref (mids.length + 2) = pure ((packed los).length, b.length) := h.get_ref hs
    rw [op_swap, hfirst, pure_bind]
    dsimp only
    rw [hsecond, pure_bind]
    rw [hlower, hdata, hpacked, swaps hmid, pure_bind]
  · rw [hpacked']
  · rw [swap_slack]
    exact hslack
  · rw [h.len, hpacked, hpacked']
    simp only [length_append]
    omega
  · rw [h.stack_size, swap_entries hs', hs']
    simp
  · have hroom := h.room
    rw [hdata, hpacked] at hroom
    simp only [length_append] at hroom ⊢
    omega

theorem Holds.swap_none (h : buf.Holds s) (hi : s.entries[i + 1]? = none) :
    buf.op_swap (i + 2) = throw EVM_ERROR_EMPTY_STACK := by
  rw [op_swap]
  rcases htop : s.entries[0]? with _ | a
  · rw [h.get_ref_none htop]
    rfl
  · obtain ⟨his, los, hs, hhis⟩ := split_at_index htop
    have hfirst := h.get_ref hs
    rw [hhis] at hfirst
    rw [hfirst, h.get_ref_none hi]
    rfl

/-! ## The words -/

def word (e : Bytes) : Word := BitVec.ofNat 256 (beNat e)

theorem toNat_word (h : e.length ≤ 32) : (word e).toNat = beNat e := by
  rw [word, BitVec.toNat_ofNat, Nat.mod_eq_of_lt (beNat_lt_word h)]

/-- The buffer holds these words: as many as it says, and no more than 1024. -/
structure Represents (buf : StackBuffer) (ws : List Word) : Prop where
  entries : ∃ s : Stack, buf.Holds s ∧ s.entries.map beNat = ws.map BitVec.toNat
  stack_size : buf.stack_size = ws.length
  limit : ws.length ≤ EVM_STACK_LIMIT

def toWords : StackOp Entry → StackOp Word
  | .push e => .push (word e.1)
  | .pop => .pop
  | .dup n => .dup n
  | .swap n => .swap n

theorem start_represents : start.Represents [] := ⟨⟨Stack.empty, start_holds, rfl⟩, rfl, Nat.zero_le _⟩

theorem Holds.represents (h : buf.Holds s)
    (hws : s.entries.map beNat = ws.map BitVec.toNat) : buf.Represents ws := by
  have hlen := congrArg List.length hws
  rw [length_map, length_map] at hlen
  have hcount := s.count
  exact ⟨⟨s, h, hws⟩, by rw [h.stack_size, hlen], by omega⟩

/-- A step on the buffer and the step on the words: the same error, or the same words. -/
def Agrees (x : Fn (Option Bytes × StackBuffer)) : Except Int (Option Word × List Word) → Prop
  | .error e => x = throw e
  | .ok (w, ws) => ∃ e buf, x = pure (e, buf) ∧ e.map beNat = w.map BitVec.toNat ∧ buf.Represents ws

section Steps
variable {buf : StackBuffer} {s : Stack} {ws : List Word}

theorem getElem?_words (hws : s.entries.map beNat = ws.map BitVec.toNat) (i : Nat) :
    (s.entries[i]?).map beNat = (ws[i]?).map BitVec.toNat := by
  rw [← List.getElem?_map, ← List.getElem?_map, hws]

theorem push_agrees (h : buf.Holds s) (hws : s.entries.map beNat = ws.map BitVec.toNat) {w : Word}
    (he : e.length ≤ 32) (hw : beNat e = w.toNat) :
    Agrees (do return (none, ← buf.evm_stack_push e))
      (if ws.length = EVM_STACK_LIMIT then .error EVM_ERROR_STACK_LIMIT else .ok (none, w :: ws)) := by
  have hlen : s.entries.length = ws.length := by
    have := congrArg List.length hws
    rwa [length_map, length_map] at this
  by_cases hfull : ws.length = EVM_STACK_LIMIT
  · have hpush : s.push e = none := dif_pos (.inl (by rw [hlen, hfull]))
    rw [if_pos hfull, h.push_full hpush]
    rfl
  · have hcount := s.count
    obtain ⟨s', hpush, hentries⟩ := Stack.push_ok (s := s) e (by omega) he
    obtain ⟨buf', hrun, hholds⟩ := h.push hpush
    rw [if_neg hfull, hrun]
    refine ⟨none, buf', rfl, rfl, hholds.represents ?_⟩
    rw [hentries, map_cons, map_cons, hw, hws]

theorem pop_agrees (h : buf.Holds s) (hws : s.entries.map beNat = ws.map BitVec.toNat) :
    Agrees (buf.step .pop) (WordStack.step ws .pop) := by
  rcases hs : s.entries with _ | ⟨e, es⟩
  · have hnil : ws = [] := by
      rw [hs] at hws
      exact map_eq_nil_iff.1 hws.symm
    rw [hnil, step, h.pop_empty hs]
    rfl
  · rcases ws with _ | ⟨w, ws⟩
    · rw [hs] at hws
      cases hws
    rw [hs, map_cons, map_cons, List.cons.injEq] at hws
    obtain ⟨hw, hws⟩ := hws
    obtain ⟨s', hpop, hentries, -⟩ := Stack.pop_cons hs
    obtain ⟨buf', hrun, hholds⟩ := h.pop hpop
    rw [step, hrun]
    refine ⟨some e, buf', rfl, congrArg some hw, hholds.represents ?_⟩
    rw [hentries, hws]

theorem dup_agrees (h : buf.Holds s) (hws : s.entries.map beNat = ws.map BitVec.toNat) (n : Fin 16) :
    Agrees (buf.step (.dup n)) (WordStack.step ws (.dup n)) := by
  have hat := getElem?_words hws n
  rcases he : s.entries[n.val]? with _ | e
  · rw [he, Option.map_none, eq_comm, Option.map_eq_none_iff] at hat
    rw [step, op_dup, h.get_ref_none he, WordStack.step, hat]
    rfl
  · rw [he, Option.map_some, eq_comm, Option.map_eq_some_iff] at hat
    obtain ⟨w, hw, hval⟩ := hat
    rw [step, h.dup he, WordStack.step, hw]
    exact push_agrees h hws (s.small e (mem_of_getElem? he)) hval.symm

theorem swap_agrees (h : buf.Holds s) (hws : s.entries.map beNat = ws.map BitVec.toNat) (n : Fin 16) :
    Agrees (buf.step (.swap n)) (WordStack.step ws (.swap n)) := by
  have hat := getElem?_words hws (n + 1)
  have htop := getElem?_words hws 0
  rcases hb : s.entries[n.val + 1]? with _ | b
  · rw [hb, Option.map_none, eq_comm, Option.map_eq_none_iff] at hat
    rw [step, h.swap_none hb, WordStack.step, hat]
    rcases ws[0]? with _ | w <;> rfl
  · -- an entry below the top is there, and so is the top
    obtain ⟨a, ha⟩ : ∃ a, s.entries[0]? = some a := by
      obtain ⟨hlt, -⟩ := List.getElem?_eq_some_iff.1 hb
      exact ⟨_, List.getElem?_eq_getElem (Nat.lt_of_le_of_lt (Nat.zero_le _) hlt)⟩
    rw [hb, Option.map_some, eq_comm, Option.map_eq_some_iff] at hat
    rw [ha, Option.map_some, eq_comm, Option.map_eq_some_iff] at htop
    obtain ⟨y, hy, hyval⟩ := hat
    obtain ⟨x, hx, hxval⟩ := htop
    obtain ⟨buf', hrun, hholds⟩ := h.swap ha hb
    have hsmall : a.length ≤ 32 ∧ b.length ≤ 32 :=
      ⟨s.small a (mem_of_getElem? ha), s.small b (mem_of_getElem? hb)⟩
    rw [step, hrun, WordStack.step, hx, hy]
    refine ⟨none, buf', rfl, rfl, hholds.represents ?_⟩
    rw [Stack.swap, dif_pos hsmall, map_set, map_set, map_set, map_set, hws, hxval, hyval]

end Steps

theorem step_agrees (h : buf.Represents ws) (op : StackOp Entry) :
    Agrees (buf.step op) (WordStack.step ws (toWords op)) := by
  obtain ⟨s, hs, hws⟩ := h.entries
  cases op with
  | push e => exact push_agrees hs hws e.2 (toNat_word e.2).symm
  | pop => exact pop_agrees hs hws
  | dup n => exact dup_agrees hs hws n
  | swap n => exact swap_agrees hs hws n

theorem run_agrees (h : buf.Represents ws) (ops : List (StackOp Entry)) :
    match WordStack.run ws (ops.map toWords) with
    | .error e => buf.run ops = throw e
    | .ok (out, ws') =>
      ∃ es buf', buf.run ops = pure (es, buf') ∧ es.map beNat = out.map BitVec.toNat ∧ buf'.Represents ws' := by
  induction ops generalizing buf ws with
  | nil => exact ⟨[], buf, rfl, rfl, h⟩
  | cons op ops ih =>
    have hstep := step_agrees h op
    rw [map_cons, WordStack.run, run]
    rcases hw : WordStack.step ws (toWords op) with e | ⟨w, ws'⟩
    · rw [hw] at hstep
      rw [hstep]
      rfl
    · rw [hw] at hstep
      obtain ⟨e, buf', hrun, he, hbuf'⟩ := hstep
      have hrest := ih hbuf'
      rw [hrun, pure_bind]
      dsimp only [bind, Except.bind] at hrest ⊢
      rcases hws : WordStack.run ws' (ops.map toWords) with err | ⟨out, ws''⟩
      · rw [hws] at hrest
        rw [hrest]
        rfl
      · rw [hws] at hrest
        obtain ⟨es, buf'', hrun', hes, hbuf''⟩ := hrest
        refine ⟨e.toList ++ es, buf'', by rw [hrun']; rfl, ?_, hbuf''⟩
        rcases e with _ | e <;> rcases w with _ | w <;> simp_all

/-- Every sequence on a new buffer is one on a list of words: it fails with the error of the list, or the words that it takes
off are those of the list, and the buffer holds the words that are left. -/
theorem stack_refines_words (ops : List (StackOp Entry)) :
    match WordStack.run [] (ops.map toWords) with
    | .error e => start.run ops = throw e
    | .ok (out, ws) => ∃ es buf, start.run ops = pure (es, buf) ∧ es.map beNat = out.map BitVec.toNat ∧ buf.Represents ws :=
  run_agrees start_represents ops

end StackBuffer

end In3.Evm
