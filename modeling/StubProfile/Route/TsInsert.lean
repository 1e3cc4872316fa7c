import StubProfile.Route.AuxTrie
import StubProfile.Route.Growth

/-!
# Inserting a prefix

The cells on the way to an address are `(k, topBits ip (width k))`.  `ts_insert_prefix` goes down this way to the first
level that has enough bits for the prefix, gives blocks to the leaves it passes, and paints the cells of the prefix and
all that is below them.
-/

namespace StubProfile.Route

open LongestPrefix

variable {T : Table Nat} {C : Finset (Nat × Nat)} {own : Nat × Nat → Nat} {mm : MemCache} {free : List Nat}
  {q tag : Nat × Nat} {ip : BitVec 32} {k x n N cidr v turns nhi : Nat}

/-! ### The bits of an address, level by level -/

theorem topBits_div (ip : BitVec 32) {m w : Nat} (hm : m ≤ w) (hw : w ≤ 32) :
    topBits ip m = topBits ip w / 2 ^ (w - m) := by
  rw [topBits, topBits, Nat.div_div_eq_div_mul, ← Nat.pow_add, show 32 - w + (w - m) = 32 - m by omega]

theorem topBits_parent (ip : BitVec 32) (hk : k < 2) : topBits ip (width (k + 1)) / 256 = topBits ip (width k) := by
  rw [topBits_div ip (show width k ≤ width (k + 1) by simp [width_succ]) (by unfold width; omega), width_succ,
    Nat.add_sub_cancel_left, show 2 ^ 8 = 256 by rfl]

private theorem byte_eq (ip : BitVec 32) {w : Nat} (hw : w ≤ 24) :
    ((ip <<< w) >>> 24).toNat = topBits ip (w + 8) % 256 := by
  rw [BitVec.toNat_ushiftRight, BitVec.toNat_shiftLeft, Nat.shiftRight_eq_div_pow, Nat.shiftLeft_eq, topBits,
    show 2 ^ 32 = 2 ^ (32 - w) * 2 ^ w by rw [← Nat.pow_add]; congr 1; omega, Nat.mul_mod_mul_right,
    show 2 ^ 24 = 2 ^ (24 - w) * 2 ^ w by rw [← Nat.pow_add]; congr 1; omega,
    Nat.mul_div_mul_right _ _ (Nat.two_pow_pos w),
    show 2 ^ (32 - w) = 2 ^ (24 - w) * 2 ^ 8 by rw [← Nat.pow_add]; congr 1; omega, Nat.mod_mul_right_div_self,
    show 32 - (w + 8) = 24 - w by omega, show 2 ^ 8 = 256 by rfl]

/-- The next eight bits lead from a cell on the way to the next one. -/
private theorem next_cell (ip : BitVec 32) (hk : k < 2) :
    topBits ip (width k) * 256 + ((ip <<< width k) >>> 24).toNat = topBits ip (width (k + 1)) := by
  rw [byte_eq ip (by unfold width; omega), ← width_succ, ← topBits_parent ip hk]
  omega

private theorem maskIp_toNat (ip : BitVec 32) (cidr : Nat) :
    (maskIp ip cidr).toNat = ip.toNat / 2 ^ (32 - cidr) * 2 ^ (32 - cidr) := by
  have hshift : maskIp ip cidr = (ip >>> (32 - cidr)) <<< (32 - cidr) := by
    refine BitVec.eq_of_getLsbD_eq fun i hi => ?_
    have hones : (0xffffffff#32).getLsbD (i - (32 - cidr)) = true := by
      rw [show 0xffffffff#32 = BitVec.allOnes 32 by rfl, BitVec.getLsbD_allOnes]
      simp; omega
    rw [maskIp, BitVec.getLsbD_and, BitVec.getLsbD_shiftLeft, BitVec.getLsbD_shiftLeft, BitVec.getLsbD_ushiftRight, hones]
    by_cases hlt : i < 32 - cidr
    · simp [hlt]
    · simp [hi, hlt, show 32 - cidr + (i - (32 - cidr)) = i by omega]
  rw [hshift, BitVec.toNat_shiftLeft, BitVec.toNat_ushiftRight, Nat.shiftRight_eq_div_pow, Nat.shiftLeft_eq]
  exact Nat.mod_eq_of_lt (Nat.lt_of_le_of_lt (Nat.div_mul_le_self _ _) ip.isLt)

theorem topBits_maskIp (ip : BitVec 32) (cidr : Nat) : topBits (maskIp ip cidr) cidr = topBits ip cidr := by
  rw [topBits, maskIp_toNat, Nat.mul_div_cancel _ (Nat.two_pow_pos _), topBits]

theorem topBits_maskIp_le (ip : BitVec 32) {m : Nat} (hm : m ≤ cidr) (hcidr : cidr ≤ 32) :
    topBits (maskIp ip cidr) m = topBits ip m := by
  rw [topBits_div (maskIp ip cidr) hm hcidr, topBits_maskIp, ← topBits_div ip hm hcidr]

theorem masked_maskIp (ip : BitVec 32) (cidr : Nat) : Masked (maskIp ip cidr) cidr := by
  rw [Masked, maskIp_toNat, Nat.mul_mod_left]

theorem Masked.topBits_eq (h : Masked ip cidr) {w : Nat} (hc : cidr ≤ w) (hw : w ≤ 32) :
    topBits ip w = topBits ip cidr * 2 ^ (w - cidr) := by
  have hip : ip.toNat = ip.toNat / 2 ^ (32 - cidr) * 2 ^ (32 - cidr) := by
    have := Nat.div_add_mod ip.toNat (2 ^ (32 - cidr))
    rw [Masked] at h
    rw [h, Nat.add_zero, Nat.mul_comm] at this
    exact this.symm
  rw [topBits, topBits]
  conv_lhs => rw [hip]
  rw [show 32 - cidr = 32 - w + (w - cidr) by omega, Nat.pow_add, Nat.mul_comm (2 ^ (32 - w)), ← Nat.mul_assoc,
    Nat.mul_div_cancel _ (Nat.two_pow_pos _), Nat.mul_comm (2 ^ (w - cidr))]

/-! ### The cells of a prefix -/

theorem inRange_iff (hk : ∀ j < k, width j < cidr) (hle : cidr ≤ width k) :
    InRange k (v * 2 ^ (width k - cidr)) (2 ^ (width k - cidr)) q ↔ InPrefix cidr v q := by
  by_cases hq : k ≤ q.1
  · have hwidth : width q.1 = width k + 8 * (q.1 - k) := by
      unfold width
      omega
    have hdiv : q.2 / 2 ^ (width q.1 - cidr) = top k q / 2 ^ (width k - cidr) := by
      rw [top, Nat.div_div_eq_div_mul, show (256 : Nat) = 2 ^ 8 by rfl, ← Nat.pow_mul, ← Nat.pow_add,
        show width q.1 - cidr = 8 * (q.1 - k) + (width k - cidr) by omega]
    have hpos := Nat.two_pow_pos (width k - cidr)
    unfold InRange InPrefix
    rw [hdiv, Nat.div_eq_iff hpos]
    omega
  · have := hk q.1 (by omega)
    unfold InRange InPrefix
    omega

theorem paint_congr {R S : Nat × Nat → Prop} [DecidablePred R] [DecidablePred S] (h : ∀ q, R q ↔ S q)
    (B : Nat × Nat → Nat × Nat) : paint R cidr tag B = paint S cidr tag B := by
  funext q
  simp [paint, h q]

theorem width_le (hk : k ≤ 2) : width k ≤ 32 := by
  unfold width
  omega

/-- The cells of the prefix at its level are below one and the same cell. -/
theorem Masked.parent_eq (hmask : Masked ip cidr) (hj : width k < cidr) (hle : cidr ≤ width (k + 1)) (hk : k < 2)
    {i : Nat} (hi : i < 2 ^ (width (k + 1) - cidr)) :
    (topBits ip (width (k + 1)) + i) / 256 = topBits ip (width k) := by
  -- the number of cells divides 256
  have h256 : 256 = 2 ^ (width (k + 1) - cidr) * 2 ^ (8 - (width (k + 1) - cidr)) := by
    rw [← Nat.pow_add]
    rw [width_succ] at hle ⊢
    rw [show width k + 8 - cidr + (8 - (width k + 8 - cidr)) = 8 by omega]
  rw [← topBits_parent ip hk, hmask.topBits_eq hle (width_le hk), h256, ← Nat.div_div_eq_div_mul,
    ← Nat.div_div_eq_div_mul, Nat.mul_comm (topBits ip cidr), Nat.mul_add_div (Nat.two_pow_pos _), Nat.div_eq_of_lt hi,
    Nat.add_zero, Nat.mul_div_cancel_left _ (Nat.two_pow_pos _)]

/-- The entries for the prefix at its level stand in `l1` or in one block, one behind the other. -/
theorem row_of_masked (hmask : Masked ip cidr) (hk : ∀ j < k, width j < cidr) (hle : cidr ≤ width k) (hk2 : k ≤ 2)
    (hlive : Live C (k, topBits ip (width k))) :
    Row C own k (topBits ip (width k)) (2 ^ (width k - cidr)) := by
  cases k with
  | zero =>
    refine ⟨fun i hi => ?_, fun i hi => rfl⟩
    have hx := hmask.topBits_eq hle (width_le hk2)
    have hv := topBits_lt ip (show cidr ≤ 32 by unfold width at hle; omega)
    have := Nat.mul_le_mul_right (2 ^ (width 0 - cidr)) hv
    rw [← Nat.pow_add, show cidr + (width 0 - cidr) = 16 by unfold width at *; omega, Nat.succ_mul] at this
    show topBits ip (width 0) + i < 2 ^ 16
    omega
  | succ j =>
    have hparent := fun i => hmask.parent_eq (i := i) (hk j (Nat.lt_succ_self j)) hle hk2
    have hlive : (j, topBits ip (width (j + 1)) / 256) ∈ C := hlive
    rw [topBits_parent ip hk2] at hlive
    refine ⟨fun i hi => ?_, fun i hi => ?_⟩
    · show (j, _ / 256) ∈ C
      rwa [hparent i hi]
    · have := hparent i hi
      have := topBits_parent ip hk2
      simp only [loc]
      rw [blockPtr_add, hparent i hi, topBits_parent ip hk2]
      congr 1
      omega

/-! ### Going down -/

/-- From the block of a cell on the way to the next cell. -/
theorem step_down (own : Nat × Nat → Nat) (hC : (k, topBits ip (width k)) ∈ C) (hk : k < 2) :
    Live C (k + 1, topBits ip (width (k + 1))) ∧
      (loc own (k + 1, topBits ip (width k) * 256)).add ((ip <<< width k) >>> 24).toNat =
        loc own (k + 1, topBits ip (width (k + 1))) := by
  constructor
  · show (k, topBits ip (width (k + 1)) / 256) ∈ C
    rwa [topBits_parent ip hk]
  · rw [← next_cell ip hk]
    refine (row_block hC).ptr _ ?_
    rw [byte_eq ip (by unfold width; omega)]
    exact Nat.mod_lt _ (by omega)

theorem monoOn_bestTag (T : Table Nat) (R : Nat × Nat → Prop) : MonoOn R (bestTag T) := fun k y _ => bestTag_mono T k y

/-- `ts_insert_lx` at the level of the prefix. -/
private theorem tsInsertLx_atLevel (h : Tree (bestTag T) C own free N mm) (hmask : Masked ip cidr) (hcidr : cidr ≤ 32)
    (hnhi : nhi < 2 ^ 25) (hk : ∀ j < k, width j < cidr) (hle : cidr ≤ width k) (hk2 : k ≤ 2)
    (hlive : Live C (k, topBits ip (width k))) (hturns : 3 ≤ k + turns) :
    ∃ mm', tsInsertLx turns mm (loc own (k, topBits ip (width k))) cidr nhi (width k) = .ok mm' ∧
      Tree (bestTag (assign T cidr (topBits ip cidr) (some nhi))) C own free N mm' := by
  obtain ⟨mem', hrun, hs⟩ := tsInsertLx_shape mm h.shape h.fits hturns (row_of_masked hmask hk hle hk2 hlive)
    (Nat.one_shiftLeft _).symm (monoOn_bestTag T _) (show cidr < 2 ^ 6 by omega) hnhi
  refine ⟨_, hrun, ?_, h.pool.of_mem _⟩
  rw [hmask.topBits_eq hle (width_le hk2), paint_congr (fun q => inRange_iff hk hle), ← bestTag_insert] at hs
  exact hs

/-- The cells that have a block once the prefix is inserted, from the level `k` down. -/
def PathBelow (ip : BitVec 32) (cidr k : Nat) (q : Nat × Nat) : Prop :=
  k ≤ q.1 ∧ width q.1 < cidr ∧ topBits ip (width q.1) = q.2

private theorem pathBelow_succ (hk : width k < cidr) :
    PathBelow ip cidr k q ↔ q = (k, topBits ip (width k)) ∨ PathBelow ip cidr (k + 1) q := by
  obtain ⟨j, y⟩ := q
  constructor
  · rintro ⟨hle, hlt, hy⟩
    by_cases hj : j = k
    · subst hj
      exact .inl (Prod.ext rfl hy.symm)
    · exact .inr ⟨by simp only at hle ⊢; omega, hlt, hy⟩
  · rintro (heq | ⟨hle, hlt, hy⟩)
    · cases heq
      exact ⟨Nat.le_refl k, hk, rfl⟩
    · exact ⟨Nat.le_of_succ_le hle, hlt, hy⟩

private theorem tsInsertIter_spec {M : Finset (Nat × Nat)} (hT : T.Fits) (hmask : Masked ip cidr) (hcidr : cidr ≤ 32)
    (hnhi : nhi < 2 ^ 25) (h : Tree (bestTag T) C own free N mm) (hC : ∀ q, HasLonger T q → q ∈ C)
    (hk : ∀ j < k + 1, width j < cidr) (hlive : Live C (k, topBits ip (width k))) (hturns : 3 ≤ k + turns) (hCM : C ⊆ M)
    (hM : ∀ q, PathBelow ip cidr k q → q ∈ M) (hroom : M.card < 32 * 4096) :
    ∃ C' own' free' N' mm',
      tsInsertIter turns mm (loc own (k, topBits ip (width k))) (ip <<< width k) (cidr - width k) nhi (width (k + 1))
        (k + 2) = .ok mm' ∧
      Tree (bestTag (assign T cidr (topBits ip cidr) (some nhi))) C' own' free' N' mm' ∧
      ∀ q, q ∈ C' ↔ q ∈ C ∨ PathBelow ip cidr k q := by
  have hwk := hk k (Nat.lt_succ_self k)
  have hk2 : k < 2 := by
    unfold width at hwk
    omega
  have hcell : (k, topBits ip (width k)) ∈ M := hM _ ⟨Nat.le_refl k, hwk, rfl⟩
  induction turns generalizing k C own free N mm with
  | zero => omega
  | succ turns ih =>
    rw [tsInsertIter]
    obtain ⟨own₁, free₁, N₁, mm₁, hdesc, htree⟩ := descend_spec h hlive hk2 (show 3 ≤ k + 1 + turns by omega)
      (fun hnot => by
        have := Finset.card_le_card (Finset.insert_subset hcell hCM)
        rw [Finset.card_insert_of_notMem hnot] at this
        omega)
      (fun hnot y hy => by
        rw [← hy] at hnot ⊢
        exact bestTag_of_not_hasLonger fun hlonger => hnot (hC _ hlonger))
      (bestTag_mono T) (bestTag_small hT _) (bestTag_eq_zero hT)
    obtain ⟨hlive₁, hptr⟩ := step_down own₁ (Finset.mem_insert_self (k, topBits ip (width k)) C) hk2
    have hsplit : ∀ q, PathBelow ip cidr k q ↔ q = (k, topBits ip (width k)) ∨ PathBelow ip cidr (k + 1) q :=
      fun q => pathBelow_succ hwk
    rw [hdesc, ok_bind]
    simp only [hptr]
    by_cases hle : cidr ≤ width (k + 1)
    · -- the level of the prefix
      rw [width_succ] at hle
      obtain ⟨mm', hrun, htree'⟩ := tsInsertLx_atLevel htree hmask hcidr hnhi hk (by rwa [width_succ]) (by omega) hlive₁
        (show 3 ≤ k + 1 + turns by omega)
      refine ⟨_, own₁, free₁, N₁, mm', ?_, htree', fun q => ?_⟩
      · rw [if_pos (by omega), show cidr - width k + (k + 2) * 8 = cidr by unfold width at *; omega]
        exact hrun
      · rw [Finset.mem_insert, hsplit]
        have hnone : ¬PathBelow ip cidr (k + 1) q := by
          rintro ⟨h1, h2, -⟩
          unfold width at *
          omega
        tauto
    · rw [width_succ] at hle
      have hk' : ∀ j < k + 1 + 1, width j < cidr := by
        intro j hj
        unfold width at *
        omega
      obtain ⟨C', own', free', N', mm', hrun, htree', hiff⟩ := ih htree
        (fun q hq => Finset.mem_insert_of_mem (hC q hq)) hk' hlive₁ (by omega) (Finset.insert_subset hcell hCM)
        (fun q hq => hM q ((hsplit q).2 (.inr hq))) (hk' _ (by omega)) (by unfold width at *; omega)
        (hM _ ((hsplit _).2 (.inr ⟨Nat.le_refl _, hk' _ (by omega), rfl⟩)))
      refine ⟨C', own', free', N', mm', ?_, htree', fun q => ?_⟩
      · rw [width_succ, BitVec.shiftLeft_add, ← Nat.sub_sub] at hrun
        rw [if_neg (by omega), ← width_succ]
        exact hrun
      · rw [hiff q, Finset.mem_insert, hsplit]
        tauto

theorem pathBelow_zero (hcidr : cidr ≤ 32) :
    PathBelow ip cidr 0 q ↔ width q.1 < cidr ∧ topBits ip cidr / 2 ^ (cidr - width q.1) = q.2 := by
  unfold PathBelow
  constructor
  · rintro ⟨-, hlt, hq⟩
    exact ⟨hlt, by rwa [← topBits_div ip (Nat.le_of_lt hlt) hcidr]⟩
  · rintro ⟨hlt, hq⟩
    exact ⟨Nat.zero_le _, hlt, by rwa [topBits_div ip (Nat.le_of_lt hlt) hcidr]⟩

theorem mem_longer_insert (hT : T.Fits) (hcidr : cidr ≤ 32)
    (hT' : Table.Fits (assign T cidr (topBits ip cidr) (some nhi))) :
    q ∈ longer (assign T cidr (topBits ip cidr) (some nhi)) ↔ q ∈ longer T ∨ PathBelow ip cidr 0 q := by
  rw [mem_longer hT', mem_longer hT, hasLonger_insert, pathBelow_zero hcidr]

theorem l1_eq (own : Nat × Nat → Nat) (ip : BitVec 32) :
    Ptr.l1 (ip >>> 16).toNat = loc own (0, topBits ip (width 0)) := by
  rw [BitVec.toNat_ushiftRight, Nat.shiftRight_eq_div_pow]
  rfl

/-- The entries after `ts_insert_prefix` are those of the table with the prefix. -/
private theorem Tree.insertPrefix (hT : T.Fits) (h : Tree (bestTag T) (longer T) own free N mm) (hmask : Masked ip cidr)
    (hcidr : cidr ≤ 32) (hnhi : nhi < 2 ^ 25) (hT' : Table.Fits (assign T cidr (topBits ip cidr) (some nhi)))
    (hroom : blocks (assign T cidr (topBits ip cidr) (some nhi)) < 32 * 4096) (hturns : 3 ≤ turns) :
    ∃ own' free' N' mm',
      (if cidr ≤ 16 then tsInsertLx turns mm (.l1 (ip >>> 16).toNat) cidr nhi 16
        else tsInsertIter turns mm (.l1 (ip >>> 16).toNat) (ip <<< 16) (cidr - 16) nhi 24 2) = .ok mm' ∧
      Tree (bestTag (assign T cidr (topBits ip cidr) (some nhi))) (longer (assign T cidr (topBits ip cidr) (some nhi)))
        own' free' N' mm' := by
  have hmem := fun q => mem_longer_insert (q := q) hT hcidr hT'
  have hlive : Live (longer T) (0, topBits ip (width 0)) := topBits_lt ip (by decide)
  rw [l1_eq own]
  by_cases hle : cidr ≤ 16
  · rw [if_pos hle]
    have hsame : longer (assign T cidr (topBits ip cidr) (some nhi)) = longer T := by
      ext q
      rw [hmem]
      refine or_iff_left ?_
      rintro ⟨-, hlt, -⟩
      unfold width at hlt
      omega
    obtain ⟨mm', hrun, htree⟩ := tsInsertLx_atLevel (k := 0) h hmask hcidr hnhi (by simp) hle (by decide) hlive
      (show 3 ≤ 0 + turns by omega)
    rw [hsame]
    exact ⟨own, free, N, mm', hrun, htree⟩
  · rw [if_neg hle]
    obtain ⟨C', own', free', N', mm', hrun, htree, hiff⟩ := tsInsertIter_spec (k := 0)
      (M := longer (assign T cidr (topBits ip cidr) (some nhi))) hT hmask hcidr hnhi h
      (fun q hq => (mem_longer hT).2 hq) (fun j hj => by unfold width; omega) hlive
      (show 3 ≤ 0 + turns by omega)
      (fun q hq => (hmem q).2 (.inl hq)) (fun q hq => (hmem q).2 (.inr hq)) hroom
    have hC' : C' = longer (assign T cidr (topBits ip cidr) (some nhi)) := by
      ext q
      rw [hiff, hmem]
    rw [← hC']
    exact ⟨own', free', N', mm', hrun, htree⟩

/-! ### The whole table -/

/-- The route table and its auxiliary trie stand for the table `T`, where next hops may be 0. -/
structure TsHolds (T : Table Nat) (ts : TsTree) : Prop where
  fits : T.Fits
  aux : Represents T ts.upAux
  tree : ∃ own free N, Tree (bestTag T) (longer T) own free N ts.mm

theorem TsHolds.insert {ts : TsTree} (h : TsHolds T ts) (ip : BitVec 32) (hcidr : 1 ≤ cidr ∧ cidr ≤ 32)
    (hnhi : nhi < 2 ^ 25) (hroom : blocks (assign T cidr (topBits ip cidr) (some nhi)) < 32 * 4096)
    (hturns : 3 ≤ turns) :
    ∃ ts', tsInsertPrefix turns ts ip cidr nhi = .ok (ts', 0) ∧
      TsHolds (assign T cidr (topBits ip cidr) (some nhi)) ts' := by
  obtain ⟨hfits, haux, own, free, N, htree⟩ := h
  have hfits' : Table.Fits (assign T cidr (topBits ip cidr) (some nhi)) :=
    hfits.change fun n hn => ⟨hcidr.1, hcidr.2, topBits_lt ip hcidr.2, by cases hn; exact hnhi⟩
  have hmask := masked_maskIp ip cidr
  rw [← topBits_maskIp] at hfits' hroom ⊢
  obtain ⟨own', free', N', mm', hrun, htree'⟩ := htree.insertPrefix hfits hmask hcidr.2 hnhi hfits' hroom hturns
  obtain ⟨upAux', hins, haux'⟩ := haux.insert nhi hcidr hmask
  refine ⟨⟨mm', upAux'⟩, ?_, hfits', haux', own', free', N', htree'⟩
  have htop : nhi.testBit 25 = false := Nat.testBit_lt_two_pow hnhi
  have hpos : cidr ≠ 0 := by omega
  unfold tsInsertPrefix
  simp only [htop, hpos, Bool.false_eq_true, ↓reduceIte]
  by_cases hle : cidr ≤ 16
  all_goals
    simp only [hle, ↓reduceIte] at hrun ⊢
    simp only [hrun, ok_bind, hins]
    rfl

end StubProfile.Route
