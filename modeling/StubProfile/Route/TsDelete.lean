import StubProfile.Route.TsInsert

/-!
# Deleting a prefix

`ts_delete_prefix` goes down to the level of the prefix like the insertion, gives the cells of the prefix the tag of the
best shorter match, which it finds in the auxiliary trie, and takes away on the way back each block that is not needed
any more.  `Erases` says what the tags and the blocks are to be for this to come out, and `Erases.deletePrefix` that it
does.  For a prefix of the table they are those of the table without it (`erases_present`): a block is needed exactly if
there is a longer prefix than its cell.
-/

namespace StubProfile.Route

open LongestPrefix

/-! ### What is under a deleted prefix -/

/-- No shorter prefix of the address has the next hop 0, which `find_overlap_prefix` takes for none. -/
def ZeroFree (T : Table Nat) (ip : BitVec 32) (cidr : Nat) : Prop := ∀ len < cidr, T len (topBits ip len) ≠ some 0

instance (T : Table Nat) (ip : BitVec 32) (cidr : Nat) : Decidable (ZeroFree T ip cidr) :=
  inferInstanceAs (Decidable (∀ len < cidr, T len (topBits ip len) ≠ some 0))

theorem Table.Good.zeroFree {T : Table Nat} (hT : T.Good) (ip : BitVec 32) (cidr : Nat) : ZeroFree T ip cidr :=
  fun _ _ h => Nat.lt_irrefl 0 (hT _ _ _ h).2.2.2.1

/-- The tag `find_overlap_prefix` finds among the prefixes of at most `l` bits. -/
def overTag (T : Table Nat) (ip : BitVec 32) (l : Nat) : Nat × Nat :=
  if ((best T l (topBits ip l)).getD (0, 0)).2 = 0 then (0, 0) else (best T l (topBits ip l)).getD (0, 0)

theorem overTag_snd (T : Table Nat) (ip : BitVec 32) (l : Nat) :
    (overTag T ip l).2 = ((best T l (topBits ip l)).getD (0, 0)).2 := by
  unfold overTag
  split
  · rename_i hzero
    exact hzero.symm
  · rfl

private theorem overTag_small {T : Table Nat} (hT : T.Fits) (ip : BitVec 32) (l : Nat) :
    (overTag T ip l).1 < 2 ^ 6 ∧ (overTag T ip l).2 < 2 ^ 25 := by
  unfold overTag
  split
  · decide
  · exact best_small hT _ _

private theorem ZeroFree.overTag_eq {T : Table Nat} {ip : BitVec 32} {cidr l : Nat} (h : ZeroFree T ip cidr)
    (hl : l < cidr) (hl32 : l ≤ 32) : overTag T ip l = (best T l (topBits ip l)).getD (0, 0) := by
  unfold overTag
  split
  · rename_i hzero
    cases hb : best T l (topBits ip l) with
    | none => rfl
    | some r =>
      obtain ⟨hle, hentry, -⟩ := best_eq_some_iff.1 hb
      rw [hb] at hzero
      rw [← topBits_div ip hle hl32] at hentry
      exact absurd (hentry.trans (congrArg some hzero)) (h r.1 (by omega))
  · rfl

/-- The best match that `find_overlap_prefix` looks for: shorter than the prefix, and not longer than the level. -/
private theorem findOverlapPrefix_spec {T : Table Nat} {upAux : MbNode Nat} (haux : Represents T upAux) {ip : BitVec 32}
    {cidr w : Nat} (l : Nat) (hl : (if cidr > w then w + 1 else cidr) = l + 1) (hl32 : l ≤ 32) :
    findOverlapPrefix upAux ip cidr w = .ok ((overTag T ip l).1, (overTag T ip l).2) := by
  rw [findOverlapPrefix, detectOverlap_eq haux.wf haux.root hl hl32, haux.best_eq (topBits_lt ip hl32), overTag]
  cases hb : best T l (topBits ip l) with
  | none => rfl
  | some r =>
    obtain ⟨len, nhi⟩ := r
    cases nhi with
    | zero => simp [foundAt, orWild]
    | succ nhi => simp [foundAt, orWild]

section Erase

variable {T T' : Table Nat} {B : Nat × Nat → Nat × Nat} {K : Nat × Nat → Prop} {C : Finset (Nat × Nat)}
  {own : Nat × Nat → Nat} {mm : MemCache} {free : List Nat} {q : Nat × Nat} {ip : BitVec 32} {k x N cidr turns : Nat}
  {ret : Bool}

/-! ### What the deletion leaves -/

/-- The tags `B` are those of the table, but in the cells of the prefix the one that `find_overlap_prefix` finds.  The
cells `K` keep their blocks: all that have one and are not on the way to the prefix, and on the way those below which a
cell shows why; without a block all cells below would have the tag of the cell. -/
structure Erases (T : Table Nat) (ip : BitVec 32) (cidr : Nat) (B : Nat × Nat → Nat × Nat) (K : Nat × Nat → Prop) :
    Prop where
  tags : B = paint (InPrefix cidr (topBits ip cidr)) cidr (overTag T ip (cidr - 1)) (bestTag T)
  sub : ∀ q, K q → HasLonger T q
  off : ∀ q, HasLonger T q → ¬(width q.1 < cidr ∧ topBits ip (width q.1) = q.2) → K q
  up : ∀ k y, K (k + 1, y) → K (k, y / 256)
  shown : ∀ k, width k < cidr → K (k, topBits ip (width k)) →
    ∃ y, y / 256 = topBits ip (width k) ∧ (K (k + 1, y) ∨ width k < (B (k + 1, y)).1)
  same : ∀ k, width k < cidr → ¬K (k, topBits ip (width k)) →
    overTag T ip (width k) = bestTag T (k, topBits ip (width k)) ∧
      ∀ y, y / 256 = topBits ip (width k) → B (k + 1, y) = bestTag T (k, topBits ip (width k))

/-- The tag of a cell on the way does not change. -/
private theorem Erases.above (he : Erases T ip cidr B K) (hk : width k < cidr) (x : Nat) :
    B (k, x) = bestTag T (k, x) := by
  rw [he.tags, paint, if_neg]
  rintro ⟨⟨hle, -⟩, -⟩
  simp only at hle
  omega

private theorem Erases.long (he : Erases T ip cidr B K) (hlong : cidr < (bestTag T q).1) : B q = bestTag T q := by
  rw [he.tags, paint, if_neg]
  rintro ⟨-, hle⟩
  omega

/-- The blocks when all that are not needed any more are gone from the level `k` on. -/
def Pruned (T : Table Nat) (K : Nat × Nat → Prop) (k : Nat) (C : Finset (Nat × Nat)) : Prop :=
  ∀ q, q ∈ C ↔ HasLonger T q ∧ (k ≤ q.1 → K q)

/-! ### At the level of the prefix -/

private theorem Erases.deleteLx (he : Erases T ip cidr B K) (hT : T.Fits)
    (h : Tree (bestTag T) (longer T) own free N mm)
    (hmask : Masked ip cidr) (hk : ∀ j < k, width j < cidr) (hle : cidr ≤ width k) (hk2 : k ≤ 2)
    (hlive : Live (longer T) (k, topBits ip (width k))) (hturns : 3 ≤ k + turns) :
    ∃ mm' flag, tsDeleteLx turns mm (loc own (k, topBits ip (width k))) cidr (overTag T ip (cidr - 1)).1
        (overTag T ip (cidr - 1)).2 (width k) = .ok (mm', flag) ∧
      Tree B (longer T) own free N mm' ∧ Pruned T K k (longer T) ∧
      ∀ j, k = j + 1 → ¬K (j, topBits ip (width j)) → flag = true := by
  have hkeep : ∀ q, k ≤ q.1 → HasLonger T q → K q := by
    intro q hq hlonger
    refine he.off q hlonger ?_
    rintro ⟨hlt, -⟩
    unfold width at *
    omega
  have hbusy : ∀ q ∈ longer T, InRange k (topBits ip (width k)) (2 ^ (width k - cidr)) q →
      Busy (bestTag T) (longer T) cidr q := by
    intro q hq hr
    obtain ⟨y, hy, hor⟩ := ((mem_longer hT).1 hq).below
    refine ⟨y, hy, hor.imp (mem_longer hT).2 fun hlt => ?_⟩
    have := hr.1
    unfold width at *
    omega
  obtain ⟨mem', flag, hrun, hflag, hs⟩ := tsDeleteLx_shape mm h.shape h.fits hturns (row_of_masked hmask hk hle hk2 hlive)
    (Nat.one_shiftLeft _).symm (monoOn_bestTag T _) hbusy (overTag_small hT ip (cidr - 1))
  refine ⟨_, flag, hrun, ⟨?_, h.pool.of_mem _⟩, fun q => ?_, ?_⟩
  · rw [hmask.topBits_eq hle (width_le hk2), paint_congr (fun q => inRange_iff hk hle), ← he.tags] at hs
    exact hs
  · rw [mem_longer hT]
    exact ⟨fun hq => ⟨hq, fun hkq => hkeep q hkq hq⟩, fun hq => hq.1⟩
  · -- a longer prefix below the cell above would be left
    rintro j rfl hnot
    have hj := hk j (Nat.lt_succ_self j)
    refine hflag.2 fun i hi => ?_
    have hparent := hmask.parent_eq hj hle hk2 hi
    refine ⟨fun hmem => hnot ?_, ?_⟩
    · rw [← hparent]
      exact he.up _ _ (hkeep _ (Nat.le_refl _) ((mem_longer hT).1 hmem))
    · by_contra hlong
      have hsame := (he.same j hj hnot).2 _ hparent
      rw [he.long (Nat.lt_of_not_le hlong)] at hsame
      have := bestTag_le T (j, topBits ip (width j))
      rw [hsame] at hlong
      simp only at *
      omega

/-! ### On the way back -/

private theorem Erases.uniform_iff (he : Erases T ip cidr B K) (hC : Pruned T K (k + 1) C) (hk : width k < cidr) :
    Uniform B C k (topBits ip (width k)) (width k) ↔ ¬K (k, topBits ip (width k)) := by
  constructor
  · rintro ⟨tag, htag, hall⟩ hkept
    obtain ⟨y, hy, hlong | hlong⟩ := he.shown k hk hkept
    · exact (hall y hy).1 ((hC _).2 ⟨he.sub _ hlong, fun _ => hlong⟩)
    · rw [(hall y hy).2] at hlong
      omega
  · intro hnot
    refine ⟨_, bestTag_le T _, fun y hy => ⟨fun hmem => hnot ?_, (he.same k hk hnot).2 y hy⟩⟩
    rw [← hy]
    exact he.up k y (((hC _).1 hmem).2 (Nat.le_refl _))

private theorem Erases.collapsed (he : Erases T ip cidr B K) (hT : T.Fits) (h : Tree B C own free N mm)
    (hC : Pruned T K (k + 1) C) (hk : width k < cidr) (hcell : HasLonger T (k, topBits ip (width k)))
    (hret : ¬K (k, topBits ip (width k)) → ret = true) :
    ∃ C' free' mm' b, collapse mm (loc own (k, topBits ip (width k))) ret (overTag T ip (width k)).1
        (overTag T ip (width k)).2 (width k) = .ok (mm', b) ∧
      Tree B C' own free' N mm' ∧ Pruned T K k C' ∧ (b = true ↔ ¬K (k, topBits ip (width k))) := by
  have habove := he.above hk (topBits ip (width k))
  have huniform := he.uniform_iff hC hk
  have hmem : (k, topBits ip (width k)) ∈ C := (hC _).2 ⟨hcell, fun hle => absurd hle (Nat.not_succ_le_self k)⟩
  obtain ⟨b, free', mm', hrun, hb, htree⟩ := collapse_spec h hmem ret
    (fun hun => (he.same k hk (huniform.1 hun)).1.trans habove.symm) (habove ▸ bestTag_small hT _)
  have hiff : b = true ↔ ¬K (k, topBits ip (width k)) := by
    rw [hb, huniform]
    exact ⟨fun h => h.2, fun h => ⟨hret h, h⟩⟩
  refine ⟨_, free', mm', b, hrun, htree, fun q => ?_, hiff⟩
  by_cases hq : q = (k, topBits ip (width k))
  · subst hq
    cases b with
    | true => simp [hiff.1 rfl]
    | false =>
      have : K (k, topBits ip (width k)) := by
        by_contra hnot
        cases hiff.2 hnot
      simp [hmem, this, hcell]
  · have hC' : q ∈ (if b then C.erase (k, topBits ip (width k)) else C) ↔ q ∈ C := by
      cases b <;> simp [hq]
    rw [hC', hC]
    refine and_congr_right fun hlonger => ⟨fun hnext hle => ?_, fun hnext hle => hnext (Nat.le_of_succ_le hle)⟩
    by_cases hlevel : q.1 = k
    · refine he.off q hlonger fun hpath => hq (Prod.ext hlevel ?_)
      rw [← hlevel]
      exact hpath.2.symm
    · exact hnext (by omega)

/-! ### The whole way -/

/-- The delete functions go down from a cell on the way. -/
private theorem Tree.read_path (h : Tree (bestTag T) (longer T) own free N mm)
    (hC : (k, topBits ip (width k)) ∈ longer T) :
    ∃ e, mm.read (loc own (k, topBits ip (width k))) = .ok e ∧
      (getEntry e.index).add ((ip <<< width k) >>> 24).toNat = loc own (k + 1, topBits ip (width (k + 1))) := by
  obtain ⟨hk, hlive⟩ := h.shape.child _ hC
  refine ⟨_, h.shape.read_ok h.fits hlive, ?_⟩
  rw [content_of_mem hC, ← (step_down own hC hk).2, loc_block]

variable {upAux : MbNode Nat}

private theorem Erases.deleteIter (he : Erases T ip cidr B K) (hcidr : 1 ≤ cidr ∧ cidr ≤ 32) (hT : T.Fits)
    (haux : Represents T upAux) (hmask : Masked ip cidr)
    (hpath : ∀ j, width j < cidr → HasLonger T (j, topBits ip (width j)))
    (h : Tree (bestTag T) (longer T) own free N mm) (hk : width k < cidr) (hturns : 3 ≤ k + turns) :
    ∃ C' free' mm' ret,
      tsDeleteIter turns mm upAux (loc own (k + 1, topBits ip (width (k + 1)))) ip (cidr - width k) (width (k + 1)) (k + 2)
        = .ok (mm', ret) ∧
      Tree B C' own free' N mm' ∧ Pruned T K (k + 1) C' ∧ (¬K (k, topBits ip (width k)) → ret = true) := by
  have hk2 : k < 2 := by
    unfold width at hk
    omega
  induction turns generalizing k with
  | zero => omega
  | succ turns ih =>
    have hcell := (mem_longer hT).2 (hpath k hk)
    have hlevel : cidr - width k + 8 * (k + 2) = cidr := by
      unfold width at *
      omega
    rw [tsDeleteIter, hlevel]
    by_cases hle : cidr ≤ width (k + 1)
    · have hgt : ¬cidr > width (k + 1) := by omega
      simp only [findOverlapPrefix_spec haux (cidr - 1) (show (if cidr > width (k + 1) then _ else cidr) = _ by
        rw [if_neg hgt]; omega) (by omega), ok_bind]
      obtain ⟨mm', flag, hrun, htree, hpruned, hflag⟩ := he.deleteLx hT h hmask (k := k + 1)
        (fun j hj => by unfold width at *; omega) hle hk2 (step_down own hcell hk2).1 (show 3 ≤ k + 1 + turns by omega)
      rw [width_succ] at hle
      exact ⟨_, free, mm', flag, by rw [if_neg (by omega)]; exact hrun, htree, hpruned, hflag k rfl⟩
    · have hgt : cidr > width (k + 1) := by omega
      simp only [findOverlapPrefix_spec haux (width (k + 1)) (if_pos hgt) (by omega), ok_bind]
      have hcell' := hpath (k + 1) hgt
      have hk2' := hcell'.level_lt hT
      obtain ⟨C₁, free₁, mm₁, ret, hrun, htree, hpruned, hret⟩ := ih hgt (by omega) hk2'
      obtain ⟨e, hread, hptr⟩ := h.read_path ((mem_longer hT).2 hcell')
      obtain ⟨C', free', mm', b, hcol, htree', hpruned', hb⟩ := he.collapsed hT htree hpruned hgt hcell' hret
      refine ⟨C', free', mm', b, ?_, htree', hpruned', fun hnot => hb.2 fun hkept => hnot ?_⟩
      · have hrest : cidr - width k - 8 = cidr - width (k + 1) := by rw [width_succ, Nat.sub_sub]
        rw [if_pos (by rw [width_succ] at hgt; omega), hread, ok_bind, hptr, hrest, ← width_succ, hrun, ok_bind]
        exact hcol
      · have := he.up _ _ hkept
        rwa [topBits_parent ip hk2] at this

/-- The deletion leads to the tags and the blocks it is to leave, when there are blocks down to the level of the prefix:
the prefix need not be in the table.  The auxiliary trie is what its own deletion makes it. -/
theorem Erases.deletePrefix {ts : TsTree} {upAux' : MbNode Nat} (he : Erases T (maskIp ip cidr) cidr B K)
    (hcidr : 1 ≤ cidr ∧ cidr ≤ 32) (hT : T.Fits) (haux : Represents T ts.upAux)
    (htree : Tree (bestTag T) (longer T) own free N ts.mm)
    (hpath : ∀ j, width j < cidr → HasLonger T (j, topBits (maskIp ip cidr) (width j)))
    (hauxdel : deleteAuxEntry ts.upAux (maskIp ip cidr) cidr = .ok upAux') (hturns : 3 ≤ turns) :
    ∃ mm' free' C', tsDeletePrefix turns ts ip cidr = .ok ⟨mm', upAux'⟩ ∧ Tree B C' own free' N mm' ∧
      ∀ q, q ∈ C' ↔ K q := by
  have hmask := masked_maskIp ip cidr
  have hkept : ∀ {C}, Pruned T K 0 C → ∀ q, q ∈ C ↔ K q := fun hC q =>
    (hC q).trans ⟨fun h => h.2 (Nat.zero_le _), fun h => ⟨he.sub q h, fun _ => h⟩⟩
  have hpos : cidr ≠ 0 := by omega
  have hw₀ : width 0 = 16 := rfl
  have hw₁ : width 1 = 24 := rfl
  unfold tsDeletePrefix
  simp only [hpos, ↓reduceIte, l1_eq own]
  by_cases hle : cidr ≤ 16
  · have hgt : ¬cidr > 16 := by omega
    simp only [findOverlapPrefix_spec haux (cidr - 1) (show (if cidr > 16 then _ else cidr) = _ by
      rw [if_neg hgt]; omega) (by omega), ok_bind]
    obtain ⟨mm', flag, hrun, htree', hpruned, -⟩ := he.deleteLx hT htree hmask (k := 0) (by simp) hle (by decide)
      (topBits_lt _ (by decide)) (show 3 ≤ 0 + turns by omega)
    refine ⟨mm', free, _, ?_, htree', hkept hpruned⟩
    simp only [hw₀] at hrun ⊢
    rw [if_pos hle, hrun, ok_bind, hauxdel]
    rfl
  · have hgt : width 0 < cidr := by
      unfold width
      omega
    simp only [findOverlapPrefix_spec haux (w := 16) 16 (if_pos hgt) (by decide), ok_bind]
    have hcell := hpath 0 hgt
    obtain ⟨C₁, free₁, mm₁, ret, hrun, htree₁, hpruned, hret⟩ :=
      he.deleteIter hcidr hT haux hmask hpath htree hgt (show 3 ≤ 0 + turns by omega)
    obtain ⟨e, hread, hptr⟩ := htree.read_path ((mem_longer hT).2 hcell)
    obtain ⟨C', free', mm', b, hcol, htree', hpruned', -⟩ := he.collapsed hT htree₁ hpruned hgt hcell hret
    refine ⟨mm', free', C', ?_, htree', hkept hpruned'⟩
    simp only [Nat.zero_add, hw₀, hw₁] at hrun hread hptr hcol ⊢
    rw [if_neg hle, hread, ok_bind, hptr, hrun, ok_bind, hcol, ok_bind, hauxdel]
    rfl

/-! ### A prefix of the table -/

theorem bestTag_deleted (hcidr : 1 ≤ cidr ∧ cidr ≤ 32) :
    bestTag (assign T cidr (topBits ip cidr) none) = paint (InPrefix cidr (topBits ip cidr)) cidr
      ((best T (cidr - 1) (topBits ip (cidr - 1))).getD (0, 0)) (bestTag T) := by
  obtain ⟨c, rfl⟩ : ∃ c, cidr = c + 1 := ⟨cidr - 1, by omega⟩
  rw [bestTag_erase, Nat.add_sub_cancel, topBits_div ip (show c ≤ c + 1 by omega) hcidr.2, Nat.add_sub_cancel_left,
    Nat.pow_one]

/-- What is left when no shorter prefix has the next hop 0 are the tags and the blocks of the table without the prefix. -/
theorem erases_present (hcidr : 1 ≤ cidr ∧ cidr ≤ 32) (hzero : ZeroFree T ip cidr) :
    Erases T ip cidr (bestTag (assign T cidr (topBits ip cidr) none))
      (HasLonger (assign T cidr (topBits ip cidr) none)) := by
  have habove : ∀ k, width k < cidr → ∀ x, bestTag (assign T cidr (topBits ip cidr) none) (k, x) = bestTag T (k, x) := by
    intro k hk x
    rw [bestTag_deleted hcidr, paint, if_neg]
    rintro ⟨⟨hle, -⟩, -⟩
    simp only at hle
    omega
  refine ⟨?_, fun q hq => hq.of_erase, fun q hq hoff => ?_, fun k y => HasLonger.parent, fun k _ => HasLonger.below,
    fun k hk hnot => ⟨?_, fun y hy => ?_⟩⟩
  · rw [bestTag_deleted hcidr, hzero.overTag_eq (by omega) (by omega)]
  · refine hq.erase ?_
    rwa [← pathBelow_zero hcidr.2, PathBelow, and_iff_right (Nat.zero_le _)]
  · exact hzero.overTag_eq hk (by omega)
  · rw [← hy] at hnot ⊢
    rw [bestTag_of_not_hasLonger hnot, habove k hk]

end Erase

private theorem hasLonger_path {T : Table Nat} {ip : BitVec 32} {k cidr : Nat} (hcidr : cidr ≤ 32)
    (hsome : T cidr (topBits ip cidr) ≠ none) (hk : width k < cidr) : HasLonger T (k, topBits ip (width k)) :=
  ⟨cidr, topBits ip cidr, hk, hsome, (topBits_div ip (Nat.le_of_lt hk) hcidr).symm⟩

theorem TsHolds.delete {T : Table Nat} {ts : TsTree} {cidr turns : Nat} (h : TsHolds T ts) (ip : BitVec 32)
    (hcidr : 1 ≤ cidr ∧ cidr ≤ 32) (hsome : T cidr (topBits ip cidr) ≠ none) (hzero : ZeroFree T ip cidr)
    (hturns : 3 ≤ turns) :
    ∃ ts', tsDeletePrefix turns ts ip cidr = .ok ts' ∧ TsHolds (assign T cidr (topBits ip cidr) none) ts' := by
  obtain ⟨hfits, haux, own, free, N, htree⟩ := h
  have hzero' : ZeroFree T (maskIp ip cidr) cidr := by
    intro len hlen
    rw [topBits_maskIp_le ip hlen.le hcidr.2]
    exact hzero len hlen
  rw [← topBits_maskIp] at hsome ⊢
  have hfits' : Table.Fits (assign T cidr (topBits (maskIp ip cidr) cidr) none) :=
    hfits.change fun n hn => by cases hn
  obtain ⟨upAux', hauxdel, haux'⟩ := haux.delete hcidr (masked_maskIp ip cidr) hsome
  obtain ⟨mm', free', C', hrun, htree', hC'⟩ := (erases_present hcidr hzero').deletePrefix hcidr hfits haux htree
    (fun j hj => hasLonger_path hcidr.2 hsome hj) hauxdel hturns
  obtain rfl : C' = longer (assign T cidr (topBits (maskIp ip cidr) cidr) none) := by
    ext q
    rw [hC', mem_longer hfits']
  exact ⟨_, hrun, hfits', haux', own, free', N, htree'⟩

end StubProfile.Route
