import In3.Btc.Finality
import In3.Btc.MerkleTheorems
import In3.Lib.Pieces
/-!
# What finality checks

The headers behind a block must continue its chain: each names the hash before it, has enough work, and
carries the target of its period. The loop counts headers and starts to count again with a new period;
it stops when it has counted enough, so it says nothing about the bytes that follow.
-/
open Lib Guarded List

namespace In3.Btc
open Evm (memcmp memcmp_eq_compare)

/-! ## Chains of headers -/

/-- The end of a chain: the hash, the target and the number of its last header. -/
@[ext]
structure Tip where
  hash : Bytes
  target : Bytes
  number : Nat
  hash_length : hash.length = 32
  target_length : target.length = 32

/-- The header `b` continues the chain. A period that begins with it has its target, within the limits. -/
structure Linked (H : Hash) (t : Tip) (b : Bytes) (t' : Tip) : Prop where
  number : t'.number = t.number + 1
  hash : t'.hash = btc_hash H b
  parent : rev_copy (btc_block_get b .BTC_B_PARENT_HASH) = t.hash
  target : ok (btc_target_from_block b) t'.target
  work : beNat t'.hash ≤ beNat t'.target
  period : if t'.number % 2016 = 0 then ok (btc_new_target_check t.target t'.target) () else t'.target = t.target

theorem Linked.unique {H : Hash} {t u v : Tip} {b : Bytes} (hu : Linked H t b u) (hv : Linked H t b v) : u = v := by
  refine Tip.ext ?_ (ok_unique hu.target hv.target) ?_
  · rw [hu.hash, hv.hash]
  · rw [hu.number, hv.number]

/-- What final headers are for: whole headers, enough of them, and all of them continue the chain. -/
structure Final (H : Hash) (t : Tip) (f : Nat) (final : Bytes) : Prop where
  whole : final.length % 80 = 0
  enough : f ≤ final.length / 80
  linked : ∃ e, Along (Linked H) t (pieces 80 final) e

/-! ## One header -/

theorem length_btc_hash (H : Hash) (b : Bytes) : (btc_hash H b).length = 32 := by
  unfold btc_hash
  rw [rev_copy_eq (H.len b), length_reverse, H.len]

theorem length_rev_copy (b : Bytes) : (rev_copy b).length = 32 := by
  unfold rev_copy rev_copyl
  rw [length_append, length_reverse, length_take, length_replicate]
  omega

section Header
variable {H : Hash} {b : Bytes} (hb : b.length = 80)
include hb

variable {r : Bytes × Bytes} {target : Bytes}

theorem length_block_target (h : ok (btc_target_from_block b) target) : target.length = 32 := by
  refine length_of_target ?_ h
  rw [btc_block_get, length_take, length_drop]
  omega

theorem ok_check_work (ht : target.length = 32) :
    ok (check_work H b (some target)) r ↔
      r = (btc_hash H b, target) ∧ ok (btc_target_from_block b) target ∧ beNat (btc_hash H b) ≤ beNat target := by
  unfold check_work
  simp only [ok_bind, ok_check, ok_ite_throw, ok_pure]
  constructor
  · rintro ⟨dst, hdst, hwork, hsame, rfl⟩
    have hlen := length_block_target hb hdst
    obtain rfl := (memcmp_eq_zero_iff (by rw [hlen, ht])).1 (not_not.1 hsame)
    rw [(memcmp_eq_compare (by rw [ht, length_btc_hash])).1] at hwork
    exact ⟨rfl, hdst, Nat.le_of_not_lt hwork⟩
  · rintro ⟨rfl, hdst, hwork⟩
    refine ⟨target, hdst, ?_, ?_, rfl⟩
    · rw [(memcmp_eq_compare (by rw [ht, length_btc_hash])).1]
      exact Nat.not_lt_of_le hwork
    · exact not_not.2 ((memcmp_eq_zero_iff rfl).2 rfl)

theorem linked_of_round {t : Tip} (hnext : ok (next_target (t.number + 1) t.target b) target)
    (hparent : memcmp (rev_copy (btc_block_get b .BTC_B_PARENT_HASH)) t.hash = 0) (hwork : ok (check_work H b (some target)) r) :
    ∃ t', Linked H t b t' ∧ t'.target = target ∧ t'.hash = r.1 ∧ t'.number = t.number + 1 := by
  have hlen : target.length = 32 := by
    unfold next_target at hnext
    split_ifs at hnext with hperiod
    · simp only [ok_bind, ok_pure] at hnext
      obtain ⟨tmp, htmp, -, -, rfl⟩ := hnext
      exact length_block_target hb htmp
    · rw [← ok_pure.1 hnext, t.target_length]
  obtain ⟨rfl, htarget, hle⟩ := (ok_check_work hb hlen).1 hwork
  refine ⟨⟨btc_hash H b, target, t.number + 1, length_btc_hash H b, hlen⟩, ⟨rfl, rfl, ?_, htarget, hle, ?_⟩, rfl, rfl, rfl⟩
  · exact (memcmp_eq_zero_iff (by rw [length_rev_copy, t.hash_length])).1 hparent
  · unfold next_target at hnext
    split_ifs at hnext ⊢ with hperiod
    · simp only [ok_bind, ok_pure] at hnext
      obtain ⟨tmp, -, _, hcheck, rfl⟩ := hnext
      exact hcheck
    · exact (ok_pure.1 hnext).symm

end Header

/-! ## The count -/

/-- How many headers come before the next period, if the next header has the number `nr`. -/
def untilPeriod (nr : Nat) : Nat := (2016 - nr % 2016) % 2016

/-- How many headers are still checked when `i` of `f` have been counted. -/
def headersLeft (f i nr : Nat) : Nat :=
  if f ≤ i then 0 else if i + untilPeriod nr < f then untilPeriod nr + f else f - i

variable {f i nr : Nat}

theorem headersLeft_period (hi : i < f) (hperiod : nr % 2016 = 0) (hf : f ≤ 2016) :
    headersLeft f i nr = 1 + headersLeft f 1 (nr + 1) := by
  have h0 : untilPeriod nr = 0 := by
    unfold untilPeriod
    omega
  have h1 : untilPeriod (nr + 1) = 2015 := by
    unfold untilPeriod
    omega
  unfold headersLeft
  split_ifs <;> omega

theorem untilPeriod_succ (hperiod : nr % 2016 ≠ 0) : untilPeriod nr = untilPeriod (nr + 1) + 1 := by
  unfold untilPeriod
  omega

theorem headersLeft_succ (hi : i < f) (hperiod : nr % 2016 ≠ 0) :
    headersLeft f i nr = 1 + headersLeft f (i + 1) (nr + 1) := by
  have hu := untilPeriod_succ hperiod
  unfold headersLeft
  split_ifs <;> omega

/-! ## The loop -/

section Loop
variable {H : Hash} {final : Bytes} (hlen : final.length < 2 ^ 32)
include hlen

variable {fuel p : Nat}

/-- A run of the loop that succeeds has followed the chain along the headers that it has counted. If a period begins on the
way and more than 2016 headers are asked for, it does not succeed. -/
theorem finality_loop_walk {f i q : Nat} {t : Tip} (hp : p ≤ final.length) (hnum : t.number ≤ 2 ^ 32 + p)
    (h : ok (finality_loop H final f fuel i p (t.number + 1) t.target t.hash) q) :
    ∃ bs m, final.drop p = bs.flatten ++ final.drop q ∧ (∀ b ∈ bs, b.length = 80) ∧ q = p + 80 * bs.length ∧ q ≤ final.length ∧
      Along (Linked H) t bs m ∧ bs.length = headersLeft f i (t.number + 1) ∧ (f ≤ 2016 ∨ f ≤ i + untilPeriod (t.number + 1)) := by
  induction fuel generalizing i p t with
  | zero => cases ok_fault h
  | succ fuel ih =>
    unfold finality_loop at h
    by_cases hi : (i : Int) < f
    · rw [if_pos hi] at h
      simp only [ok_check, ok_bind, Region.ok_slice, Int.toNat_natCast] at h
      obtain ⟨-, b, ⟨⟨-, hin⟩, rfl⟩, target, hnext, hparent, ⟨hash, r⟩, hwork, h⟩ := h
      have hb : ((final.drop p).take 80).length = 80 := by
        rw [length_take, length_drop]
        omega
      obtain ⟨t', hlinked, rfl, rfl, hnumber⟩ := linked_of_round hb hnext (not_not.1 hparent) hwork
      have hpmod : (p + 80) % 2 ^ 32 = p + 80 := Nat.mod_eq_of_lt (by omega)
      have hnmod : (t.number + 1 + 1) % 2 ^ 64 = t'.number + 1 := by
        rw [hnumber]
        exact Nat.mod_eq_of_lt (by omega)
      rw [hpmod, hnmod] at h
      -- the counter of the next round
      obtain ⟨k, hk, hleft⟩ : ∃ k : Nat, (k : Int) = (if (t.number + 1) % 2016 = 0 then 0 else (i : Int)) + 1 ∧
          ((f ≤ 2016 ∨ f ≤ k + untilPeriod (t.number + 1 + 1)) →
            (f ≤ 2016 ∨ f ≤ i + untilPeriod (t.number + 1)) ∧
              headersLeft f i (t.number + 1) = 1 + headersLeft f k (t.number + 1 + 1)) := by
        by_cases hperiod : (t.number + 1) % 2016 = 0
        · refine ⟨1, by rw [if_pos hperiod]; rfl, fun hf => ?_⟩
          have hnext : untilPeriod (t.number + 1 + 1) = 2015 := by
            unfold untilPeriod
            omega
          have hsmall : f ≤ 2016 := by omega
          exact ⟨.inl hsmall, headersLeft_period (by omega) hperiod hsmall⟩
        · refine ⟨i + 1, by rw [if_neg hperiod]; rfl, fun hf => ?_⟩
          have hnext := untilPeriod_succ hperiod
          exact ⟨by omega, headersLeft_succ (by omega) hperiod⟩
      rw [← hk] at h
      obtain ⟨bs, m, hrest, h80, hq, hle, hwalk, hcount, hf⟩ := ih hin (by omega) h
      rw [hnumber] at hcount hf
      obtain ⟨hf, hcount'⟩ := hleft hf
      refine ⟨(final.drop p).take 80 :: bs, m, ?_, forall_mem_cons.2 ⟨hb, h80⟩, ?_, hle, ⟨t', hlinked, hwalk⟩, ?_, hf⟩
      · rw [flatten_cons, append_assoc, ← hrest, ← drop_drop, take_append_drop]
      · rw [length_cons]
        omega
      · rw [length_cons, hcount, hcount', Nat.add_comm]
    · rw [if_neg hi] at h
      obtain rfl := ok_pure.1 h
      have hle : f ≤ i := by omega
      refine ⟨[], t, rfl, by simp, rfl, hp, rfl, ?_, .inr (by omega)⟩
      unfold headersLeft
      rw [if_pos hle, length_nil]

theorem finality_loop_fuel {f i : Int} {nr : Nat} {target parent : Bytes} (hpos : 0 < fuel) (hfuel : final.length < p + 80 * fuel) :
    faultsIn (finality_loop H final f fuel i p nr target parent) (· ≠ .overflow) := by
  have htarget : ∀ b, faultsIn (btc_target_from_block b) (· ≠ .overflow) := by
    simp [btc_target_from_block, target_from_bits, Region.store]
  have hnext : ∀ nr target b, faultsIn (next_target nr target b) (· ≠ .overflow) := by
    intro nr target b
    unfold next_target
    split
    · simp [htarget, btc_new_target_check]
    · simp
  have hwork : ∀ b target, faultsIn (check_work H b (some target)) (· ≠ .overflow) := by
    intro b target
    simp only [check_work, faultsIn_bind, faultsIn_check, faultsIn_ite_throw]
    exact ⟨htarget b, fun _ _ _ _ => faultsIn_pure⟩
  induction fuel generalizing i p nr target parent with
  | zero => omega
  | succ fuel ih =>
    unfold finality_loop
    split
    · simp only [faultsIn_check, faultsIn_bind]
      intro _
      refine ⟨by simp [Region.slice], fun b hb => ⟨hnext _ _ _, fun target' _ _ => ⟨hwork _ _, fun r _ => ?_⟩⟩⟩
      obtain ⟨⟨-, hin⟩, -⟩ := Region.ok_slice.1 hb
      exact ih (by omega) (by omega)
    · simp

end Loop

/-! ## The check -/

/-- How many headers are asked for, as a number: all whole headers before BIP 34, if their length fits into an `int`. -/
def askedHeaders (f : Nat) (final : Bytes) (nr : Nat) : Nat :=
  if nr ≤ BIP34_START ∧ final.length < 2 ^ 31 then max f (final.length / 80) else f

theorem asked_eq {final : Bytes} (hlen : final.length < 2 ^ 32) : asked f final nr = askedHeaders f final nr := by
  unfold asked askedHeaders
  by_cases hnr : nr ≤ BIP34_START
  · rw [if_pos hnr]
    by_cases hint : final.length < 2 ^ 31
    · rw [if_pos ⟨hnr, hint⟩, toInt32_small hint, Int.tdiv_eq_ediv_of_nonneg (by omega)]
      omega
    · have hneg : toInt32 final.length = -(2 ^ 32 - final.length) := by
        unfold toInt32
        rw [Nat.mod_eq_of_lt hlen, if_neg hint, Int.neg_sub]
      have hdiv : (toInt32 final.length).tdiv 80 ≤ 0 := by
        rw [hneg, Int.neg_tdiv]
        have hpos : 0 ≤ ((2 : Int) ^ 32 - final.length).tdiv 80 := Int.tdiv_nonneg (by omega) (by omega)
        omega
      rw [if_neg (fun h => hint h.2)]
      omega
  · rw [if_neg hnr, if_neg (fun h => hnr h.1)]

/-- How many headers are checked: as many as are asked for, or, if a period begins with one of them, those before it and as many as
are asked for. -/
def checkedHeaders (f : Nat) (final : Bytes) (nr : Nat) : Nat :=
  if untilPeriod (nr + 1) < askedHeaders f final nr then untilPeriod (nr + 1) + askedHeaders f final nr else askedHeaders f final nr

section Check
variable {H : Hash} {t : Tip} {f : Nat} {final : Bytes}

theorem walk_of_check_finality (hf : 0 < f) (hnr : t.number < 2 ^ 32) (hlen : final.length < 2 ^ 32)
    (hok : ok (btc_check_finality H t.hash f final t.target t.number) ()) :
    80 * checkedHeaders f final t.number ≤ final.length ∧
      ∃ m, Along (Linked H) t (pieces 80 (final.take (80 * checkedHeaders f final t.number))) m := by
  unfold btc_check_finality at hok
  rw [if_neg (by omega), ok_bind] at hok
  obtain ⟨q, hq, -⟩ := hok
  rw [asked_eq hlen, Nat.mod_eq_of_lt (by omega : t.number + 1 < 2 ^ 64)] at hq
  replace hq : ok (finality_loop H final (askedHeaders f final t.number) (final.length / 80 + 2) (0 : Nat) 0 (t.number + 1)
    t.target t.hash) q := hq
  obtain ⟨bs, m, hsplit, h80, rfl, hle, hwalk, hcount, -⟩ := finality_loop_walk hlen (Nat.zero_le _) (by omega) hq
  rw [drop_zero] at hsplit
  rw [Nat.zero_add] at hle
  have hasked : f ≤ askedHeaders f final t.number := by
    unfold askedHeaders
    split_ifs
    · exact le_max_left _ _
    · exact le_rfl
  have hchecked : bs.length = checkedHeaders f final t.number := by
    rw [hcount]
    unfold headersLeft checkedHeaders
    rw [if_neg (by omega), Nat.zero_add, Nat.sub_zero]
  have hfront : final.take (80 * bs.length) = bs.flatten := by
    have hflat := length_flatten_of_forall h80
    rw [hsplit]
    exact take_left' hflat
  rw [← hchecked, hfront, pieces_flatten (by omega) h80]
  exact ⟨hle, m, hwalk⟩

/-- The counter starts again with each period, but the headers are used up. -/
theorem check_finality_ends (hlen : final.length < 2 ^ 32) {block_hash target : Bytes} {finality : Int} {nr : Nat} :
    faultsIn (btc_check_finality H block_hash finality final target nr) (· ≠ .overflow) := by
  unfold btc_check_finality
  split
  · split <;> simp
  · simp only [faultsIn_bind]
    exact ⟨finality_loop_fuel hlen (by omega) (by omega), fun p _ => by split <;> simp⟩

theorem le_checkedHeaders : f ≤ checkedHeaders f final t.number := by
  unfold checkedHeaders askedHeaders
  split_ifs <;> omega

/-- Final headers are what they are for, exactly if what follows the headers that are checked are whole headers again that go on
with the chain. -/
theorem check_finality_iff (hf : 0 < f) (hnr : t.number < 2 ^ 32) (hlen : final.length < 2 ^ 32)
    (hok : ok (btc_check_finality H t.hash f final t.target t.number) ()) :
    Final H t f final ↔
      ∀ m, Along (Linked H) t (pieces 80 (final.take (80 * checkedHeaders f final t.number))) m →
        (final.drop (80 * checkedHeaders f final t.number)).length % 80 = 0 ∧
          ∃ e, Along (Linked H) m (pieces 80 (final.drop (80 * checkedHeaders f final t.number))) e := by
  obtain ⟨hle, m, hm⟩ := walk_of_check_finality hf hnr hlen hok
  have henough : f ≤ checkedHeaders f final t.number := le_checkedHeaders
  have hsplit := pieces_split (by omega : 0 < 80) hle
  have hbehind : (final.drop (80 * checkedHeaders f final t.number)).length % 80 = final.length % 80 := by
    rw [length_drop]
    omega
  constructor
  · rintro ⟨hwhole, -, e, he⟩ m' hm'
    rw [hsplit] at he
    obtain ⟨k, hk, he⟩ := along_append.1 he
    obtain rfl := Along.unique (R := Linked H) Linked.unique hk hm'
    exact ⟨by rw [hbehind, hwhole], e, he⟩
  · intro h
    obtain ⟨hwhole, e, he⟩ := h m hm
    refine ⟨by rw [← hbehind, hwhole], by omega, e, ?_⟩
    rw [hsplit]
    exact along_append.2 ⟨m, hm, he⟩

end Check

/-! ## Two blocks -/

/-- A coinbase transaction with the height of its block. -/
def coinbase (height : Bytes) : Bytes :=
  [1, 0, 0, 0, 1] ++ replicate 36 0 ++ [4, 3] ++ height ++ replicate 9 0

def easyTarget : Bytes := [0, 0x7F, 0xFF, 0xFF] ++ replicate 28 0

/-- A header with this target. -/
def easyHeader (parent root nonce : Bytes) : Bytes :=
  [2, 0, 0, 0] ++ parent ++ root ++ [0, 0, 0, 0, 0xFF, 0xFF, 0x7F, 0x1F] ++ nonce

/-- A block with two transactions, and the digests of the coinbase transaction, of both, of the header and of the header
behind it. -/
structure Mined where
  height : Bytes
  id : Bytes
  root : Bytes
  hash : Bytes
  next : Bytes
  nonce : Bytes
  nextNonce : Bytes

def Mined.header (b : Mined) : Bytes := easyHeader (replicate 32 9) b.root b.nonce

def Mined.behind (b : Mined) : Bytes := easyHeader b.hash (replicate 32 8) b.nextNonce

def Mined.digests (b : Mined) : List (Bytes × Bytes) :=
  [(coinbase b.height, b.id), (b.id ++ replicate 32 7, b.root), (b.header, b.hash), (b.behind, b.next)]

def block302398 : Mined where
  height := [0x3E, 0x9D, 4]
  id := word 0x4713817eb9c704e8547eba2482ee172fb1360eb7e9c1740267a23fa536bc81c0
  root := word 0x3a15a8bb3cb1749f5dd7377a5c212f9b446e183693ad4adf38a9705602d5d22f
  hash := word 0x798fe9b5da8dde65f09f2ef8738909805971006979419751f10f9b466b8f6500
  next := word 0x8d116202a7e313f8d6f18eeeb51da4284ce086ae1fed8488b2291c4201b75500
  nonce := [168, 1, 0, 0]
  nextNonce := [171, 0, 0, 0]

def block302399 : Mined where
  height := [0x3F, 0x9D, 4]
  id := word 0xaf7bd6591ecfe416d5b517bc3f93a707ed0a08582b46d3c22cadaa36efe4692e
  root := word 0xfd79e4f03e3185946c8ec5c1dc932655bb4c28ecbdf072ef956c2139c3d46c3a
  hash := word 0x66c3a99b8290e63838d6d4917fee93ef64e8c86cb096246da91b57451a631600
  next := word 0x75d8e56c68e24a45fd7ac60d97a60ca010f3d9c173623a08d3ff63c6b9d43600
  nonce := [210, 0, 0, 0]
  nextNonce := [109, 0, 0, 0]

/-- The double SHA-256 of what is hashed of the two blocks. -/
def blockSha : Hash := .ofTable (block302398.digests ++ block302399.digests)

def easyTip : Tip := ⟨block302398.hash.reverse, easyTarget, 302398, rfl, rfl⟩

theorem check_finality_of_one : Final blockSha easyTip 1 block302398.behind := by
  refine (check_finality_iff (by decide) (by decide) (by decide) (by decide +kernel)).2 fun m _ => ⟨by decide, m, ?_⟩
  rfl

theorem check_finality_ends_one :
    faultsIn (btc_check_finality blockSha easyTip.hash 1 block302398.behind easyTip.target easyTip.number) (· ≠ .overflow) :=
  check_finality_ends (by decide)

/-- One header is asked for, and the check succeeds; a byte that is no header follows, or 80 bytes with another parent. -/
theorem check_finality_and_more :
    (ok (btc_check_finality blockSha easyTip.hash 1 (block302398.behind ++ [7]) easyTip.target easyTip.number) () ∧
      ¬ Final blockSha easyTip 1 (block302398.behind ++ [7])) ∧
    (ok (btc_check_finality blockSha easyTip.hash 1 (block302398.behind ++ replicate 80 7) easyTip.target
        easyTip.number) () ∧
      ¬ Final blockSha easyTip 1 (block302398.behind ++ replicate 80 7)) := by
  refine ⟨⟨by decide +kernel, fun h => absurd h.whole (by decide)⟩, by decide +kernel, fun h => ?_⟩
  have hlinked := h.linked
  rw [show pieces 80 (block302398.behind ++ replicate 80 7) = [block302398.behind, replicate 80 7] by decide +kernel] at hlinked
  obtain ⟨e, m, hm, k, hk, -⟩ := hlinked
  have hparent := hk.parent
  rw [hm.hash] at hparent
  exact absurd hparent (by decide +kernel)

end In3.Btc
