import In3.Btc.FinalityTheorems
import In3.Btc.Trust
import Mathlib.Data.List.GetD
/-!
# Where stored targets come from

A verification stores the bits of its header for the period of the header, and it may store the bits at
the end of the final headers for the next period. The header and the final headers that are counted have
been checked; what stands at the end of the string need not have been.
-/
open Lib Guarded List

namespace In3.Btc
open Evm (memcmp)

/-! ## Numbers of blocks -/

variable {bits final header : Bytes} {dap : Nat} {H : Hash} {nr : Nat} {tc tc' : TargetConf}

theorem check_pre_bip34_le {table : Bytes} {bn : Nat} (h : ok (check_pre_bip34 H table final bn) ()) :
    bn ≤ BIP34_START := by
  unfold check_pre_bip34 at h
  simp only [ok_check] at h
  exact Nat.le_of_not_lt h.1

theorem block_number_lt {table : Option Bytes} {proof : HeaderProof} {n : Nat}
    (h : ok (btc_block_number H table proof header) n) : n < 2 ^ 24 := by
  unfold btc_block_number at h
  by_cases hversion : btc_block_get header .BTC_B_VERSION = [1, 0, 0, 0]
  · rw [if_pos hversion] at h
    simp only [ok_check] at h
    obtain ⟨-, h⟩ := h
    rcases table with _ | table
    · cases ok_throw h
    · simp only [ok_bind, ok_pure] at h
      obtain ⟨_, hcheck, rfl⟩ := h
      exact (check_pre_bip34_le hcheck).trans_lt (by decide)
  · rw [if_neg hversion] at h
    simp only [ok_check, ok_bind] at h
    obtain ⟨-, -, -, tx_data, -, tx_id, -, found, -, -, -, r, -, h⟩ := h
    rcases r with _ | ⟨tx_in, q⟩
    · cases ok_throw h
    · simp only [ok_check, ok_bind, ok_pure] at h
      obtain ⟨script, -, -, rfl⟩ := h
      have hbyte : ∀ i k, k ≤ 16 → (script.getD i 0).toNat <<< k < 2 ^ 24 := by
        intro i k hk
        have hlt := (script.getD i 0).toNat_lt
        calc (script.getD i 0).toNat <<< k = (script.getD i 0).toNat * 2 ^ k := Nat.shiftLeft_eq _ _
          _ < 2 ^ 8 * 2 ^ k := Nat.mul_lt_mul_of_pos_right hlt (Nat.two_pow_pos k)
          _ ≤ 2 ^ 8 * 2 ^ 16 := Nat.mul_le_mul_left _ (Nat.pow_le_pow_right (by omega) hk)
          _ = 2 ^ 24 := by norm_num
      exact Nat.or_lt_two_pow (Nat.or_lt_two_pow (hbyte 1 0 (by omega)) (hbyte 2 8 (by omega))) (hbyte 3 16 (by omega))

/-! ## What was checked -/

section
variable (H : Hash) (table : Option Bytes) (f : Nat)

/-- One of the final headers that are counted: it continues the chain behind those before it. -/
def Followed (t : Tip) (final b : Bytes) (n : Nat) : Prop :=
  ∃ front back s s', pieces 80 (final.take (80 * checkedHeaders f final t.number)) = front ++ b :: back ∧
    Along (Linked H) t front s ∧ Linked H s b s' ∧ s'.number = n

/-- The header of a verification or one of its final headers, with its number: the proof of work was checked, and for the
final headers the link to the parent. -/
def Verified (item : Item) (b : Bytes) (n : Nat) : Prop :=
  ∃ t : Tip, ok (btc_verify_header H table item.header item.proof) (t.hash, t.target, t.number) ∧
    ((b = item.header ∧ n = t.number) ∨ Followed H f t item.proof.final b n)

/-- A stored entry has the bits of a header of its period that was verified. -/
def Justified (item : Item) (x : Bytes) : Prop :=
  ∃ b n, Verified H table f item b n ∧ btc_get_dap n = entryDap x ∧ btc_block_get b .BTC_B_BITS = entryBits x

end

/-! ## What is stored -/

def added (tc tc' : TargetConf) : List Bytes := pieces 6 (tc'.data.drop tc.data.length)

def lastHeader (final : Bytes) : Bytes := final.drop (final.length - 80)

/-- The final headers, as far as they are whole, lead from the block `nr` into the next period. -/
def Crosses (nr : Nat) (final : Bytes) : Prop := btc_get_dap (nr + final.length / 80) = btc_get_dap nr + 1

instance (nr : Nat) (final : Bytes) : Decidable (Crosses nr final) :=
  inferInstanceAs (Decidable (btc_get_dap (nr + final.length / 80) = btc_get_dap nr + 1))

theorem length_target_entry (h : bits.length = 4) : (target_entry dap bits).length = 6 := by
  unfold target_entry
  rw [length_append, length_take, h]
  rfl

theorem entryBits_target_entry (h : bits.length = 4) : entryBits (target_entry dap bits) = bits := by
  show (bits.take 4).take 4 = bits
  rw [take_take, take_of_length_le (by omega)]

theorem entryDap_target_entry (h : dap < 2 ^ 16) : entryDap (target_entry dap bits) = dap := by
  show beNat [UInt8.ofNat (dap / 256 % 256), UInt8.ofNat (dap % 256)] = dap
  simp only [beNat_cons, beNat_nil, length_singleton, length_nil, UInt8.toNat_ofNat']
  omega

theorem accept_target_ok (hnr : nr < 2 ^ 24) (hlen : final.length < 2 ^ 32)
    (h : ok (accept_target tc nr (btc_get_dap nr) final header) tc') :
    tc'.data = tc.data ++ target_entry (btc_get_dap nr) (btc_block_get header .BTC_B_BITS) ++
      (if Crosses nr final then target_entry (btc_get_dap nr + 1) (btc_block_get (lastHeader final) .BTC_B_BITS) else []) := by
  have hmod : (nr + final.length / 80) % 2 ^ 32 = nr + final.length / 80 := Nat.mod_eq_of_lt (by omega)
  unfold accept_target at h
  rw [hmod] at h
  by_cases hcross : Crosses nr final
  · have hcross' : btc_get_dap (nr + final.length / 80) = btc_get_dap nr + 1 := hcross
    rw [if_pos hcross', ok_bind] at h
    obtain ⟨last, hlast, h⟩ := h
    obtain ⟨⟨-, hin⟩, rfl⟩ := Region.ok_slice.1 hlast
    obtain rfl := ok_pure.1 h
    have hoff : ((final.length : Int) - 80).toNat = final.length - 80 := by omega
    rw [if_pos hcross, hoff, take_of_length_le (by rw [length_drop]; omega)]
    rfl
  · have hcross' : ¬ btc_get_dap (nr + final.length / 80) = btc_get_dap nr + 1 := hcross
    rw [if_neg hcross'] at h
    obtain rfl := ok_pure.1 h
    rw [if_neg hcross, append_nil]
    rfl

theorem check_target_ok {ctx : Option req_state} {removed : Bool} {target : Bytes}
    (hnr : nr < 2 ^ 24) (hlen : final.length < 2 ^ 32)
    (h : ok (btc_check_target tc ctx removed nr target final header) (.fine tc')) :
    tc' = tc ∨ tc'.data = tc.data ++ target_entry (btc_get_dap nr) (btc_block_get header .BTC_B_BITS) ++
      (if Crosses nr final then target_entry (btc_get_dap nr + 1) (btc_block_get (lastHeader final) .BTC_B_BITS) else []) := by
  unfold btc_check_target at h
  by_cases hold : nr < BIP34_START
  · rw [if_pos hold] at h
    cases ok_pure.1 h
    exact .inl rfl
  rw [if_neg hold] at h
  simp only [ok_bind, ok_check] at h
  obtain ⟨_, -, ⟨found_dap, verified⟩, -, -, h⟩ := h
  by_cases hsame : dap_dist (btc_get_dap nr) found_dap = 0
  · rw [if_pos hsame] at h
    by_cases hcmp : memcmp verified target = 0
    · rw [if_pos hcmp] at h
      cases ok_pure.1 h
      exact .inl rfl
    · rw [if_neg hcmp] at h
      cases ok_throw h
  rw [if_neg hsame] at h
  by_cases hnear : dap_dist (btc_get_dap nr) found_dap ≤ tc.max_daps
  · rw [if_pos hnear, ok_bind] at h
    obtain ⟨tmp, -, h⟩ := h
    by_cases hbelow : 0 < memcmp tmp target
    · rw [if_pos hbelow, ok_bind] at h
      obtain ⟨tc'', haccept, h⟩ := h
      cases ok_pure.1 h
      exact .inr (accept_target_ok hnr hlen haccept)
    · rw [if_neg hbelow] at h
      cases ok_pure.1 h
  · rw [if_neg hnear] at h
    cases ok_pure.1 h

/-! ## One verification -/

theorem walk_number {t s : Tip} {bs : List Bytes} (h : Along (Linked H) t bs s) : s.number = t.number + bs.length := by
  induction bs generalizing t with
  | nil =>
    obtain rfl : s = t := h
    rfl
  | cons b bs ih =>
    obtain ⟨m, hm, h⟩ := h
    rw [ih h, hm.number, length_cons]
    omega

section Step
variable {H : Hash} {table : Option Bytes} {f : Nat}

theorem tip_of_verify_header {proof : HeaderProof} {r : Bytes × Bytes × Nat} (hheader : header.length = 80)
    (h : ok (btc_verify_header H table header proof) r) : ∃ t : Tip, r = (t.hash, t.target, t.number) ∧ t.number < 2 ^ 24 := by
  unfold btc_verify_header check_work at h
  simp only [ok_bind, ok_check, ok_pure, ok_orThrow] at h
  obtain ⟨_, ⟨target, htarget, -, rfl⟩, n, hn, rfl⟩ := h
  exact ⟨⟨btc_hash H header, target, n, length_btc_hash H header, length_block_target hheader htarget⟩, rfl, block_number_lt hn⟩

/-- If the final headers lead into the next period, then one of those that are counted lies there, and the last 80 bytes have
its bits. -/
def EndsFollowed (f nr : Nat) (final : Bytes) : Prop :=
  Crosses nr final → ∃ k < checkedHeaders f final nr, btc_get_dap (nr + 1 + k) = btc_get_dap nr + 1 ∧
    btc_block_get ((pieces 80 final).getD k []) .BTC_B_BITS = btc_block_get (lastHeader final) .BTC_B_BITS

variable {b : Bytes}

theorem followed_iff {t : Tip} {n : Nat} (hf : 0 < f) (hnr : t.number < 2 ^ 32) (hlen : final.length < 2 ^ 32)
    (hok : ok (btc_check_finality H t.hash f final t.target t.number) ()) :
    Followed H f t final b n ↔ ∃ k < checkedHeaders f final t.number, (pieces 80 final).getD k [] = b ∧ n = t.number + 1 + k := by
  obtain ⟨hle, m, hm⟩ := walk_of_check_finality hf hnr hlen hok
  have hsplit := pieces_split (by omega : 0 < 80) hle
  have hcount : (pieces 80 (final.take (80 * checkedHeaders f final t.number))).length = checkedHeaders f final t.number := by
    rw [length_pieces, length_take, Nat.min_eq_left hle, Nat.mul_div_cancel_left _ (by omega)]
  unfold Followed
  generalize checkedHeaders f final t.number = c at *
  generalize pieces 80 (final.take (80 * c)) = counted at *
  have hget : ∀ k < c, (pieces 80 final).getD k [] = counted.getD k [] := by
    intro k hk
    rw [hsplit, getD_append _ _ _ _ (by omega)]
  constructor
  · rintro ⟨front, back, s, s', rfl, hfront, hlinked, rfl⟩
    have hk : front.length < c := by
      rw [← hcount, length_append, length_cons]
      omega
    refine ⟨front.length, hk, ?_, ?_⟩
    · rw [hget _ hk, getD_append_right _ _ _ _ le_rfl, Nat.sub_self]
      rfl
    · rw [hlinked.number, walk_number hfront]
      omega
  · rintro ⟨k, hk, rfl, rfl⟩
    have hcut : counted = counted.take k ++ counted.getD k [] :: counted.drop (k + 1) := by
      have hlt : k < counted.length := by omega
      rw [getD_eq_getElem _ _ hlt, ← drop_eq_getElem_cons hlt, take_append_drop]
    rw [hcut] at hm
    obtain ⟨s, hs, s', hlinked, -⟩ := along_append.1 hm
    refine ⟨_, _, s, s', by rw [hget k hk]; exact hcut, hs, by rw [hget k hk]; exact hlinked, ?_⟩
    rw [hlinked.number, walk_number hs, length_take]
    omega

theorem check_block_ok {tc tc' : TargetConf} {expected : Option Bytes} {active : Bool} {item : Item}
    (hlen : item.proof.final.length < 2 ^ 32) (h : ok (check_block H table f tc expected active item) (.fine tc')) :
    tc' = tc ∨ ∃ t : Tip, item.header.length = 80 ∧ t.number < 2 ^ 24 ∧
      ok (btc_verify_header H table item.header item.proof) (t.hash, t.target, t.number) ∧
      ok (btc_check_finality H t.hash f item.proof.final t.target t.number) () ∧
      tc'.data = tc.data ++ target_entry (btc_get_dap t.number) (btc_block_get item.header .BTC_B_BITS) ++
        (if Crosses t.number item.proof.final
          then target_entry (btc_get_dap t.number + 1) (btc_block_get (lastHeader item.proof.final) .BTC_B_BITS) else []) := by
  unfold check_block at h
  simp only [ok_check, ok_bind] at h
  obtain ⟨hheader, r, hverify, -, h⟩ := h
  obtain ⟨t, rfl, hnr⟩ := tip_of_verify_header (not_not.1 hheader) hverify
  by_cases hactive : active = true
  · rw [if_neg (by simp [hactive]), ok_bind] at h
    obtain ⟨_, hfinal, h⟩ := h
    rcases check_target_ok hnr hlen h with rfl | hdata
    · exact .inl rfl
    · exact .inr ⟨t, not_not.1 hheader, hnr, hverify, hfinal, hdata⟩
  · rw [if_pos hactive] at h
    cases ok_pure.1 h
    exact .inl rfl

theorem length_bits (h : b.length = 80) : (btc_block_get b .BTC_B_BITS).length = 4 := by
  rw [btc_block_get, length_take, length_drop]
  omega

theorem length_lastHeader {nr : Nat} (h : Crosses nr final) : (lastHeader final).length = 80 := by
  have hcross : (nr + final.length / 80) / 2016 = nr / 2016 + 1 := h
  rw [lastHeader, length_drop]
  omega

section Stored
variable {item : Item} {t : Tip} (hf : 0 < f) (hlen : item.proof.final.length < 2 ^ 32) (hnr : t.number < 2 ^ 24)
  (hverify : ok (btc_verify_header H table item.header item.proof) (t.hash, t.target, t.number))
  (hfinal : ok (btc_check_finality H t.hash f item.proof.final t.target t.number) ())
include hf hlen hnr hverify hfinal

theorem justified_next_iff (hbits : bits.length = 4) :
    Justified H table f item (target_entry (btc_get_dap t.number + 1) bits) ↔
      ∃ k < checkedHeaders f item.proof.final t.number, btc_get_dap (t.number + 1 + k) = btc_get_dap t.number + 1 ∧
        btc_block_get ((pieces 80 item.proof.final).getD k []) .BTC_B_BITS = bits := by
  have hfollowed := fun b n => followed_iff (b := b) (n := n) hf (by omega) hlen hfinal
  have hdap : btc_get_dap t.number + 1 < 2 ^ 16 := by
    unfold btc_get_dap
    omega
  unfold Justified
  rw [entryDap_target_entry hdap, entryBits_target_entry hbits]
  constructor
  · rintro ⟨b, n, ⟨t', ht', hb⟩, hn, hsame⟩
    obtain ⟨hhash, hrest⟩ := Prod.mk.inj (ok_unique ht' hverify)
    obtain ⟨htarget, hnumber⟩ := Prod.mk.inj hrest
    obtain rfl := Tip.ext hhash htarget hnumber
    rcases hb with ⟨-, rfl⟩ | hb
    · omega
    · obtain ⟨k, hk, rfl, rfl⟩ := (hfollowed b n).1 hb
      exact ⟨k, hk, hn, hsame⟩
  · rintro ⟨k, hk, hn, hsame⟩
    exact ⟨_, _, ⟨t, hverify, .inr ((hfollowed _ _).2 ⟨k, hk, rfl, rfl⟩)⟩, hn, hsame⟩

theorem justified_iff {tc tc' : TargetConf} (hheader : item.header.length = 80)
    (hdata : tc'.data = tc.data ++ target_entry (btc_get_dap t.number) (btc_block_get item.header .BTC_B_BITS) ++
      (if Crosses t.number item.proof.final
        then target_entry (btc_get_dap t.number + 1) (btc_block_get (lastHeader item.proof.final) .BTC_B_BITS) else [])) :
    (∀ x ∈ added tc tc', Justified H table f item x) ↔ EndsFollowed f t.number item.proof.final := by
  have hdap : btc_get_dap t.number < 2 ^ 16 := by
    unfold btc_get_dap
    omega
  have hhead := length_bits hheader
  have hfirst : Justified H table f item (target_entry (btc_get_dap t.number) (btc_block_get item.header .BTC_B_BITS)) :=
    ⟨item.header, t.number, ⟨t, hverify, .inl ⟨rfl, rfl⟩⟩, by rw [entryDap_target_entry hdap], by rw [entryBits_target_entry hhead]⟩
  have hnew : added tc tc' = target_entry (btc_get_dap t.number) (btc_block_get item.header .BTC_B_BITS) :: pieces 6
      (if Crosses t.number item.proof.final
        then target_entry (btc_get_dap t.number + 1) (btc_block_get (lastHeader item.proof.final) .BTC_B_BITS) else []) := by
    unfold added
    rw [hdata, append_assoc, drop_left, pieces_cons (by omega) (length_target_entry hhead)]
  rw [hnew, forall_mem_cons, and_iff_right hfirst]
  unfold EndsFollowed
  by_cases hcross : Crosses t.number item.proof.final
  · have hlast := length_bits (length_lastHeader hcross)
    have hone : ∀ x : Bytes, x.length = 6 → pieces 6 x = [x] := by
      intro x hx
      have hcons := pieces_cons (b := []) (by omega : 0 < 6) hx
      rwa [append_nil] at hcons
    rw [if_pos hcross, hone _ (length_target_entry hlast), forall_mem_singleton, forall_prop_of_true hcross]
    exact justified_next_iff hf hlen hnr hverify hfinal hlast
  · rw [if_neg hcross]
    exact iff_of_true (fun x hx => absurd hx not_mem_nil) (fun h => absurd h hcross)

end Stored

end Step

/-! ## Runs -/

/-- A check of a header in a run, with the targets before and after it. -/
structure Visit where
  before : TargetConf
  item : Item
  after : TargetConf

section Run
variable (H : Hash) (table : Option Bytes) (f : Nat)

def visit (tc : TargetConf) (expected : Option Bytes) (active : Bool) (item : Item) : Visit :=
  ⟨tc, item, (settle tc (check_block H table f tc expected active item)).1⟩

/-- The checks of `verify_items`. -/
def visitItems : TargetConf → List Item → List Visit
  | _, [] => []
  | tc, item :: rest =>
    visit H table f tc none true item ::
      (if (settle tc (check_block H table f tc none true item)).2
        then visitItems (settle tc (check_block H table f tc none true item)).1 rest else [])

def visits (tc : TargetConf) : Response → List Visit
  | .tx refused expected active item => if refused then [] else [visit H table f tc expected active item]
  | .block item _ => [visit H table f tc none true item]
  | .target_proof max_diff max_daps items =>
    if tc.max_diff = max_diff ∧ tc.max_daps = max_daps then visitItems H table f tc items else []

/-- All checks of a sequence of responses. -/
def history : TargetConf → List Response → List Visit
  | _, [] => []
  | tc, r :: rest => visits H table f tc r ++ history (in3_verify_btc H table f tc r).1 rest

def Response.items : Response → List Item
  | .tx _ _ _ item => [item]
  | .block item _ => [item]
  | .target_proof _ _ items => items

end Run

section Run
variable {H : Hash} {table : Option Bytes} {f : Nat}

theorem settle_cases (tc : TargetConf) (x : BtcRun Checked) :
    (settle tc x).1 = tc ∨ ok x (.fine (settle tc x).1) := by
  unfold settle ok
  rcases x.run with _ | _ | (_ | _)
  · exact .inl rfl
  · exact .inl rfl
  · exact .inr rfl
  · exact .inl rfl

variable {tc : TargetConf} {v : Visit} {active : Bool} {expected : Option Bytes} {items : List Item} {r : Response}

theorem mem_visitItems (h : v ∈ visitItems H table f tc items) :
    v.item ∈ items ∧ ∃ expected active, v = visit H table f v.before expected active v.item := by
  induction items generalizing tc with
  | nil => cases h
  | cons item rest ih =>
    rw [visitItems, mem_cons] at h
    rcases h with rfl | h
    · exact ⟨mem_cons_self, none, true, rfl⟩
    · split at h
      · exact ⟨mem_cons_of_mem _ (ih h).1, (ih h).2⟩
      · cases h

theorem mem_visits (h : v ∈ visits H table f tc r) :
    v.item ∈ r.items ∧ ∃ expected active, v = visit H table f v.before expected active v.item := by
  cases r with
  | tx refused expected active item =>
    rw [visits] at h
    split at h
    · cases h
    · obtain rfl := mem_singleton.1 h
      exact ⟨mem_singleton_self _, expected, active, rfl⟩
  | block item refused =>
    obtain rfl := mem_singleton.1 h
    exact ⟨mem_singleton_self _, none, true, rfl⟩
  | target_proof max_diff max_daps items =>
    rw [visits] at h
    split at h
    · exact mem_visitItems h
    · cases h

theorem mem_history {rs : List Response} (h : v ∈ history H table f tc rs) :
    (∃ r ∈ rs, v.item ∈ r.items) ∧ ∃ expected active, v = visit H table f v.before expected active v.item := by
  induction rs generalizing tc with
  | nil => cases h
  | cons r rest ih =>
    rcases mem_append.1 h with h | h
    · exact ⟨⟨r, mem_cons_self, (mem_visits h).1⟩, (mem_visits h).2⟩
    · obtain ⟨⟨r', hr', hitem⟩, hv⟩ := ih h
      exact ⟨⟨r', mem_cons_of_mem _ hr', hitem⟩, hv⟩

def Item.EndsFollowed (H : Hash) (table : Option Bytes) (f : Nat) (item : Item) : Prop :=
  ∀ r, ok (btc_verify_header H table item.header item.proof) r → In3.Btc.EndsFollowed f r.2.2 item.proof.final

theorem visit_justified_iff (hf : 0 < f) (hlen : v.item.proof.final.length < 2 ^ 32)
    (hv : v = visit H table f v.before expected active v.item) :
    (∀ x ∈ added v.before v.after, Justified H table f v.item x) ↔ (v.after ≠ v.before → v.item.EndsFollowed H table f) := by
  have hafter : v.after = (settle v.before (check_block H table f v.before expected active v.item)).1 := congrArg Visit.after hv
  have hsame : v.after = v.before → added v.before v.after = [] := by
    intro h
    unfold added
    rw [h, drop_length]
    rfl
  by_cases hstored : v.after = v.before
  · rw [hsame hstored]
    exact iff_of_true (fun x hx => absurd hx not_mem_nil) (fun h => absurd hstored h)
  · rw [forall_prop_of_true hstored]
    have hok : ok (check_block H table f v.before expected active v.item) (.fine v.after) := by
      rcases settle_cases v.before (check_block H table f v.before expected active v.item) with h | h
      · exact absurd (hafter.trans h) hstored
      · rw [hafter]
        exact h
    obtain h | ⟨t, hheader, hnr, hverify, hfinal, hdata⟩ := check_block_ok hlen hok
    · exact absurd h hstored
    · rw [justified_iff hf hlen hnr hverify hfinal hheader hdata]
      constructor
      · intro h r hr
        rw [ok_unique hr hverify]
        exact h
      · intro h
        exact h _ hverify

/-- The bytes that a check has added. -/
def Visit.new (v : Visit) : Bytes := v.after.data.drop v.before.data.length

theorem settle_data {item : Item} (hlen : item.proof.final.length < 2 ^ 32) :
    (settle tc (check_block H table f tc expected active item)).1.data = tc.data ++ (visit H table f tc expected active item).new := by
  have hgrows : tc.data <+: (settle tc (check_block H table f tc expected active item)).1.data := by
    rcases settle_cases tc (check_block H table f tc expected active item) with h | h
    · rw [h]
    · obtain h | ⟨t, -, -, -, -, hdata⟩ := check_block_ok hlen h
      · rw [h]
      · rw [hdata, append_assoc]
        exact prefix_append _ _
  exact (prefix_iff_eq_append.1 hgrows).symm

theorem verify_items_data (hlen : ∀ item ∈ items, item.proof.final.length < 2 ^ 32) :
    (verify_items H table f tc items).1.data = tc.data ++ ((visitItems H table f tc items).map Visit.new).flatten := by
  induction items generalizing tc with
  | nil => exact (append_nil _).symm
  | cons item rest ih =>
    obtain ⟨hitem, hrest⟩ := forall_mem_cons.1 hlen
    have hdata : (settle tc (check_block H table f tc none true item)).1.data = tc.data ++ (visit H table f tc none true item).new :=
      settle_data hitem
    rw [verify_items, visitItems, map_cons, flatten_cons, ← append_assoc, ← hdata]
    rcases settle tc (check_block H table f tc none true item) with ⟨tc', _ | _⟩
    · exact (append_nil _).symm
    · exact ih hrest

theorem verify_data (hlen : ∀ item ∈ r.items, item.proof.final.length < 2 ^ 32) :
    (in3_verify_btc H table f tc r).1.data = tc.data ++ ((visits H table f tc r).map Visit.new).flatten := by
  have hone : ∀ v : Visit, ([v].map Visit.new).flatten = v.new := fun v => append_nil _
  cases r with
  | tx refused expected active item =>
    rw [in3_verify_btc, btc_verify_tx, visits]
    cases refused with
    | true => exact (append_nil _).symm
    | false =>
      rw [if_neg (by decide), if_neg (by decide), hone]
      exact settle_data (hlen item (mem_singleton_self _))
  | block item refused =>
    have hdata : (settle tc (check_block H table f tc none true item)).1.data = tc.data ++ (visit H table f tc none true item).new :=
      settle_data (hlen item (mem_singleton_self _))
    rw [in3_verify_btc, btc_verify_block, visits, hone, ← hdata]
    rcases settle tc (check_block H table f tc none true item) with ⟨tc', _ | _⟩ <;> rfl
  | target_proof max_diff max_daps items =>
    rw [in3_verify_btc, btc_verify_target_proof, visits]
    by_cases hdiff : tc.max_diff = max_diff
    · by_cases hdaps : tc.max_daps = max_daps
      · rw [if_neg (not_not.2 hdiff), if_neg (not_not.2 hdaps), if_pos ⟨hdiff, hdaps⟩]
        exact verify_items_data hlen
      · rw [if_neg (not_not.2 hdiff), if_pos hdaps, if_neg (fun h => hdaps h.2)]
        exact (append_nil _).symm
    · rw [if_pos hdiff, if_neg (fun h => hdiff h.1)]
      exact (append_nil _).symm

theorem verify_all_data (tc : TargetConf) (rs : List Response) (hlen : ∀ r ∈ rs, ∀ item ∈ r.items, item.proof.final.length < 2 ^ 32) :
    (verify_all H table f tc rs).data = tc.data ++ ((history H table f tc rs).map Visit.new).flatten := by
  induction rs generalizing tc with
  | nil => exact (append_nil _).symm
  | cons r rest ih =>
    obtain ⟨hr, hrest⟩ := forall_mem_cons.1 hlen
    rw [history, map_append, flatten_append, ← append_assoc, ← verify_data hr]
    exact ih _ hrest

/-- A run stores what its checks add, and all of it comes from headers that were checked, exactly if each check that adds something
has followed the end of its final headers. -/
theorem stored_targets_iff (hf : 0 < f) (tc : TargetConf) (rs : List Response)
    (hlen : ∀ r ∈ rs, ∀ item ∈ r.items, item.proof.final.length < 2 ^ 32) :
    (verify_all H table f tc rs).data = tc.data ++ ((history H table f tc rs).map Visit.new).flatten ∧
      ((∀ v ∈ history H table f tc rs, ∀ x ∈ added v.before v.after, Justified H table f v.item x) ↔
        ∀ v ∈ history H table f tc rs, v.after ≠ v.before → v.item.EndsFollowed H table f) := by
  refine ⟨verify_all_data tc rs hlen, forall₂_congr fun v hv => ?_⟩
  obtain ⟨⟨r, hr, hitem⟩, expected, active, heq⟩ := mem_history hv
  exact visit_justified_iff hf (hlen r hr v.item hitem) heq

end Run

/-! ## Two verifications -/

/-- One verified target, for the period 145. -/
def oneTarget : TargetConf := ⟨[0, 145, 0xFF, 0xFF, 0x7F, 0x1F], 20, 10, 20⟩

/-- A block with the headers behind it. -/
def Mined.item (b : Mined) (final : Bytes) : Item :=
  ⟨b.header, ⟨coinbase b.height, replicate 32 7, 0, final⟩, none, false⟩

/-- The last block of the period 149, with the first header of the next one. -/
theorem stored_targets_at_period :
    (verify_all blockSha none 1 oneTarget [.block (block302399.item block302399.behind) false]).data =
      oneTarget.data ++ [0, 149, 0xFF, 0xFF, 0x7F, 0x1F] ++ [0, 150, 0xFF, 0xFF, 0x7F, 0x1F] ∧
    ∀ v ∈ history blockSha none 1 oneTarget [.block (block302399.item block302399.behind) false],
      ∀ x ∈ added v.before v.after, Justified blockSha none 1 v.item x := by
  refine ⟨by decide +kernel, (stored_targets_iff (by decide) oneTarget _ ?_).2.2 ?_⟩
  · decide
  · intro v hv _ r hr
    obtain rfl := mem_singleton.1 hv
    have hverify : ok (btc_verify_header blockSha none block302399.header (block302399.item block302399.behind).proof)
        (block302399.hash.reverse, easyTarget, 302399) := by decide +kernel
    obtain rfl := ok_unique hverify hr
    exact fun _ => ⟨0, by decide, by decide, by decide⟩

/-- The last block but one of the period 149, with a header and 80 bytes that are none. -/
def noHeader : Item := block302398.item (block302398.behind ++ replicate 80 9)

/-- One header behind it is checked, and the bits of the bytes that are no header are stored for the period 150. -/
theorem stored_target_of_no_header :
    (verify_all blockSha none 1 oneTarget [.block noHeader false]).data =
      oneTarget.data ++ [0, 149, 0xFF, 0xFF, 0x7F, 0x1F] ++ [0, 150, 9, 9, 9, 9] ∧
    ¬ Justified blockSha none 1 noHeader [0, 150, 9, 9, 9, 9] := by
  refine ⟨by decide +kernel, fun h => ?_⟩
  have hverify : ok (btc_verify_header blockSha none noHeader.header noHeader.proof)
      (easyTip.hash, easyTip.target, easyTip.number) := by decide +kernel
  have hfinal : ok (btc_check_finality blockSha easyTip.hash ((1 : Nat) : Int) noHeader.proof.final easyTip.target
      easyTip.number) () := by decide +kernel
  have hbits : ([9, 9, 9, 9] : Bytes).length = 4 := rfl
  have hnext := justified_next_iff Nat.one_pos (by decide +kernel) (by decide) hverify hfinal hbits
  rw [show checkedHeaders 1 noHeader.proof.final easyTip.number = 1 by decide +kernel] at hnext
  obtain ⟨k, hk, hdap, -⟩ := hnext.1 h
  change (302398 + 1 + k) / 2016 = 302398 / 2016 + 1 at hdap
  omega

end In3.Btc
