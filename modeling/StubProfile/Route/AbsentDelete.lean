import StubProfile.Route.Overlap

/-!
# Deleting a prefix that is absent

`ts_delete_prefix` does not look whether the prefix is there.  In the auxiliary trie it goes down through the child
pointers of all strides and takes out the rule that the prefix would have, whether the bits are set or not.  For an
absent prefix this is harmless exactly if the node that would hold the rule exists and has no rule at all; then the
blocks down to the level of the prefix exist as well, and no next hop changes in them.  `prefix_exsit` would tell whether
the prefix is there, but nothing calls it.
-/

namespace StubProfile.Route

open LongestPrefix Machine

section Trie

variable {ν : Type} {T : Table ν} {node sub : MbNode ν} {ip : BitVec 32} {cidr : Nat}

/-! ### Where the deletion is harmless -/

/-- The child and rule pointers that `delete_entry` and `update_nodes` follow have their bits set: those of the children
on the way down, and that of the rule, unless `reduce_rule` finds that the node has none. -/
def BitsSet : Nat → BitVec 32 → MbNode ν → Prop
  | cidr + 4, ip, node =>
    let pos := countEnlBitmap (topStride ip)
    hasBit node.external pos = true ∧
      ∀ child, node.children[countOnes node.external pos]? = some child → BitsSet cidr (ip <<< 4) child
  | cidr, ip, node =>
    countOnes node.internal 16 < 1 ∨ hasBit node.internal (countInlBitmap (lastStride ip cidr) cidr) = true

/-- The number of bits above the node that holds the rule of a prefix. -/
def nodeBits (cidr : Nat) : Nat := 4 * (cidr / 4)

/-- The node for a prefix exists, and no prefix that is stored has its rule in it. -/
def AtRulelessNode (T : Table ν) (ip : BitVec 32) (cidr : Nat) : Prop :=
  (cidr < 4 ∨ ∃ k, StoredUnder T ip (nodeBits cidr) k) ∧ ∀ k < 4, ¬StoredUnder T ip (nodeBits cidr) k

private theorem nodeBits_of_lt (h : cidr < 4) : nodeBits cidr = 0 := by
  unfold nodeBits
  omega

private theorem nodeBits_add_four (cidr : Nat) : nodeBits (cidr + 4) = nodeBits cidr + 4 := by
  unfold nodeBits
  omega

private theorem nodeBits_le (cidr : Nat) : nodeBits cidr ≤ cidr := by
  unfold nodeBits
  omega

private theorem lt_nodeBits_add_four (cidr : Nat) : cidr < nodeBits cidr + 4 := by
  unfold nodeBits
  omega

private theorem BitsSet.of_lt (hlt : cidr < 4) :
    BitsSet cidr ip node ↔
      countOnes node.internal 16 < 1 ∨ hasBit node.internal (countInlBitmap (lastStride ip cidr) cidr) = true := by
  match cidr, hlt with
  | 0, _ | 1, _ | 2, _ | 3, _ => rfl

/-- A node has no rule if no prefix of less than four bits is stored in it. -/
private theorem MbNode.WF.ruleless_iff (hwf : node.WF) (ip : BitVec 32) :
    countOnes node.internal 16 < 1 ↔ ∀ k < 4, ¬StoredUnder node.toTable ip 0 k := by
  have hzero : countOnes node.internal 16 < 1 ↔ ∀ i < 16, node.internal.getLsbD i = false := by
    rw [countOnes_all, popcount_eq, Nat.lt_one_iff, SparseArray.rank_eq_zero_iff]
  rw [hzero]
  constructor
  · intro hclear k hk hstored
    obtain ⟨v, hv, hentry⟩ := storedUnder_zero.1 hstored
    have hlt := countInlBitmap_lt hk hv
    rw [MbNode.toTable_of_lt hk] at hentry
    obtain ⟨-, hnone⟩ | ⟨nhi, hbit, -, -⟩ := hwf.rule_eq (show countInlBitmap v k < 16 by omega)
    · exact hentry hnone
    · cases hbit.symm.trans (hclear _ (by omega))
  · intro hno i hi
    obtain ⟨hbit, -⟩ | ⟨nhi, hbit, -, hrule⟩ := hwf.rule_eq hi
    · exact hbit
    · have hlt : i < 15 := by
        by_contra hge
        obtain rfl : i = 15 := by omega
        obtain ⟨-, -, top, -, -⟩ := hwf
        cases hbit.symm.trans top
      obtain ⟨len, hlen, v, hv, rfl⟩ := exists_countInlBitmap i hlt
      refine absurd (storedUnder_zero.2 ⟨v, hv, ?_⟩) (hno len hlen)
      simp [MbNode.toTable_of_lt hlen, hrule]

/-- One node further down. -/
private theorem MbNode.WF.atRulelessNode_add_four (hwf : node.WF) (hcidr : cidr + 4 ≤ 32) :
    AtRulelessNode node.toTable ip (cidr + 4) ↔
      ∃ sub, node.child (topStride ip) = some sub ∧ AtRulelessNode sub.toTable (ip <<< 4) cidr := by
  have hbits : nodeBits cidr + 4 ≤ 32 := by
    have := nodeBits_le cidr
    omega
  rw [AtRulelessNode, nodeBits_add_four, exists_storedUnder_add_four hbits]
  simp only [storedUnder_add_four hbits]
  constructor
  · rintro ⟨hlt | ⟨sub, hsub, hstored⟩, hno⟩
    · omega
    · exact ⟨sub, hsub, .inr hstored, fun k hk hrule => hno k hk ⟨sub, hsub, hrule⟩⟩
  · rintro ⟨sub, hsub, hstored, hno⟩
    constructor
    · refine .inr ⟨sub, hsub, hstored.elim (fun hlt => ?_) id⟩
      rw [nodeBits_of_lt hlt]
      obtain ⟨hne, hwf'⟩ := hwf.of_child hsub
      exact hwf'.exists_storedUnder_zero hne
    · rintro k hk ⟨sub', hsub', hrule⟩
      cases hsub.symm.trans hsub'
      exact hno k hk hrule

/-- The bit of the rule of an absent prefix is clear. -/
private theorem MbNode.WF.absent_rule (hwf : node.WF) (hmask : Masked ip cidr) (hlt : cidr < 4)
    (habsent : node.toTable cidr (topBits ip cidr) = none) :
    node.internal.getLsbD (countInlBitmap (lastStride ip cidr) cidr) = false := by
  have hpos := countInlBitmap_lt hlt (topBits_lt ip (show cidr ≤ 32 by omega))
  rw [MbNode.toTable_of_lt hlt] at habsent
  rw [lastStride_eq hmask hlt]
  obtain ⟨hbit, -⟩ | ⟨nhi, -, -, hrule⟩ := hwf.rule_eq (show countInlBitmap (topBits ip cidr) cidr < 16 by omega)
  · exact hbit
  · cases habsent.symm.trans hrule

private theorem absent_below (hcidr : cidr + 4 ≤ 32) (hsub : node.child (topStride ip) = some sub)
    (habsent : node.toTable (cidr + 4) (topBits ip (cidr + 4)) = none) :
    sub.toTable cidr (topBits (ip <<< 4) cidr) = none := by
  rwa [MbNode.toTable_topBits hcidr, hsub] at habsent

private theorem bitsSet_iff (hwf : node.WF) (hmask : Masked ip cidr) (hcidr : cidr ≤ 32)
    (habsent : node.toTable cidr (topBits ip cidr) = none) :
    BitsSet cidr ip node ↔ AtRulelessNode node.toTable ip cidr := by
  induction cidr using stride_induct generalizing node ip with
  | last cidr hlt =>
    rw [BitsSet.of_lt hlt, hasBit_eq, hwf.absent_rule hmask hlt habsent, hwf.ruleless_iff ip, AtRulelessNode,
      nodeBits_of_lt hlt]
    simp [hlt]
  | down c ih =>
    rw [hwf.atRulelessNode_add_four hcidr]
    simp only [BitsSet, countEnlBitmap, hasBit_eq]
    obtain ⟨hbit, hnone⟩ | ⟨sub, hbit, hget, hsub⟩ := hwf.child_eq (topStride_lt ip)
    · simp [hbit, hnone]
    · have hiff := ih (hwf.of_child hsub).2 (hmask.shiftLeft hcidr) (by omega)
        (absent_below hcidr hsub habsent)
      simp [hbit, hget, hsub, hiff]

/-! ### The trie stays as it is -/

private theorem clearBit_of_clear {b : BitVec 16} {pos : Nat} (h : b.getLsbD pos = false) : clearBit b pos = b := by
  refine BitVec.eq_of_getLsbD_eq fun i _ => ?_
  rw [clearBit_getLsbD, ← h, Function.update_eq_self]

private theorem deleteEntry_absent (hwf : node.WF) (hmask : Masked ip cidr) (hcidr : cidr ≤ 32)
    (habsent : node.toTable cidr (topBits ip cidr) = none) (hruleless : AtRulelessNode node.toTable ip cidr) :
    deleteEntry cidr ip node = some (node, node.isEmpty) := by
  induction cidr using stride_induct generalizing node ip with
  | last cidr hlt =>
    have hnorule : countOnes node.internal 16 < 1 := by
      rw [hwf.ruleless_iff ip, ← nodeBits_of_lt hlt]
      exact hruleless.2
    have hclear := clearBit_of_clear (hwf.absent_rule hmask hlt habsent)
    obtain ⟨external, internal, rules, children⟩ := node
    simp only [MbNode.internal] at hnorule hclear
    simp [deleteEntry_of_lt hlt, reduceRule, MbNode.external, MbNode.internal, MbNode.rules, MbNode.children, hnorule,
      hclear]
  | down c ih =>
    obtain ⟨sub, hsub, hruleless'⟩ := (hwf.atRulelessNode_add_four hcidr).1 hruleless
    obtain ⟨hne, hwf'⟩ := hwf.of_child hsub
    have hdel := ih hwf' (hmask.shiftLeft hcidr) (by omega) (absent_below hcidr hsub habsent) hruleless'
    obtain ⟨-, hnone⟩ | ⟨sub', -, hget, hsub'⟩ := hwf.child_eq (topStride_lt ip)
    · cases hsub.symm.trans hnone
    · cases hsub.symm.trans hsub'
      have hsame : node.setChild (countOnes node.external (topStride ip)) sub = node := by
        obtain ⟨external, internal, rules, children⟩ := node
        obtain ⟨hk, hchild⟩ := List.getElem?_eq_some_iff.1 hget
        rw [MbNode.setChild, ← hchild, List.set_getElem_self]
        rfl
      simp [deleteEntry, countEnlBitmap, hget, hdel, hne, hsame]

private theorem StoredUnder.congr_ip {ip' : BitVec 32} {m k : Nat} (h : topBits ip m = topBits ip' m) :
    StoredUnder T ip m k ↔ StoredUnder T ip' m k := by
  rw [StoredUnder, StoredUnder, h]

private theorem atRulelessNode_maskIp (hcidr : cidr ≤ 32) :
    AtRulelessNode T (maskIp ip cidr) cidr ↔ AtRulelessNode T ip cidr := by
  simp only [AtRulelessNode, StoredUnder.congr_ip (T := T) (topBits_maskIp_le ip (nodeBits_le cidr) hcidr)]

private theorem Represents.atRulelessNode (h : Represents T node) :
    AtRulelessNode node.toTable ip cidr ↔ AtRulelessNode T ip cidr := by
  simp only [AtRulelessNode, h.storedUnder]

/-! ### The test that nothing calls -/

/-- `prefix_exsit` returns 1 exactly for the prefixes that are stored. -/
private theorem prefixExsit_eq (hwf : node.WF) (hmask : Masked ip cidr) (hcidr : cidr ≤ 32) :
    prefixExsit cidr ip node = some (node.toTable cidr (topBits ip cidr)).isSome := by
  induction cidr using stride_induct generalizing node ip with
  | last cidr hlt =>
    have hpos := countInlBitmap_lt hlt (topBits_lt ip hcidr)
    have hstep : prefixExsit cidr ip node = some (hasBit node.internal (countInlBitmap (lastStride ip cidr) cidr)) := by
      match cidr, hlt with
      | 0, _ | 1, _ | 2, _ | 3, _ => rfl
    rw [hstep, lastStride_eq hmask hlt, hasBit_eq, MbNode.toTable_of_lt hlt]
    obtain ⟨hbit, hnone⟩ | ⟨nhi, hbit, -, hrule⟩ :=
      hwf.rule_eq (show countInlBitmap (topBits ip cidr) cidr < 16 by omega)
    · rw [hbit, hnone]
      rfl
    · rw [hbit, hrule]
      rfl
  | down c ih =>
    rw [prefixExsit, MbNode.toTable_topBits hcidr]
    simp only [countEnlBitmap, hasBit_eq]
    obtain ⟨hbit, hnone⟩ | ⟨sub, hbit, hget, hsub⟩ := hwf.child_eq (topStride_lt ip)
    · simp [hbit, hnone]
    · have hbelow := ih (hwf.of_child hsub).2 (hmask.shiftLeft hcidr) (by omega)
      simp [hbit, hget, hsub, hbelow]

end Trie

/-! ### The route table -/

variable {T : Table Nat} {ts : TsTree} {ip : BitVec 32} {cidr turns : Nat}

/-- Some prefix behind the node of an absent one is longer than it, so there are blocks on the way. -/
private theorem AtRulelessNode.longer (h : AtRulelessNode T ip cidr) (hcidr : cidr ≤ 32) {j : Nat}
    (hj : width j < cidr) :
    ∃ len v, cidr < len ∧ T len v ≠ none ∧ v / 2 ^ (len - width j) = topBits ip (width j) := by
  have hnode := nodeBits_le cidr
  have hwidth : width j ≤ nodeBits cidr := by
    unfold width nodeBits at *
    omega
  obtain ⟨hlt | ⟨k, hstored⟩, hno⟩ := h
  · unfold width at hj
    omega
  · have hk : 4 ≤ k := by
      by_contra hlt
      exact hno k (by omega) hstored
    obtain ⟨v, -, hbits, hentry⟩ := hstored
    have hlong := lt_nodeBits_add_four cidr
    refine ⟨nodeBits cidr + k, v, by omega, hentry, ?_⟩
    rw [topBits_div ip hwidth (by omega), ← hbits, Nat.div_div_eq_div_mul, ← Nat.pow_add,
      show k + (nodeBits cidr - width j) = nodeBits cidr + k - width j by omega]

private theorem AtRulelessNode.hasLonger (h : AtRulelessNode T ip cidr) (hcidr : cidr ≤ 32) {j : Nat}
    (hj : width j < cidr) :
    HasLonger T (j, topBits ip (width j)) := by
  obtain ⟨len, v, hlen, hentry, hbits⟩ := h.longer hcidr hj
  exact ⟨len, v, Nat.lt_trans hj hlen, hentry, hbits⟩

private theorem assign_none_of_absent {v : Nat} (h : T cidr v = none) : assign T cidr v none = T := by
  funext len u
  rw [assign]
  split
  · rename_i heq
    rw [heq.1, heq.2, h]
  · rfl

/-- The tags after the deletion of an absent prefix.  They may be those of no table: under a prefix with the next hop 0
`find_overlap_prefix` gives the cells the length 0. -/
def absentTags (T : Table Nat) (ip : BitVec 32) (cidr : Nat) : Nat × Nat → Nat × Nat :=
  paint (InPrefix cidr (topBits ip cidr)) cidr (overTag T ip (cidr - 1)) (bestTag T)

/-- The next hops stay: what a cell of an absent prefix has is that of a shorter one. -/
private theorem absentTags_snd (hcidr : 1 ≤ cidr ∧ cidr ≤ 32) (habsent : T cidr (topBits ip cidr) = none)
    (q : Nat × Nat) : (absentTags T ip cidr q).2 = (bestTag T q).2 := by
  have hdeleted : bestTag (assign T cidr (topBits ip cidr) none) = paint _ _ _ (bestTag T) := bestTag_deleted hcidr
  have hsame := congrFun hdeleted q
  rw [assign_none_of_absent habsent] at hsame
  unfold absentTags
  unfold paint at hsame ⊢
  split
  · rename_i hcell
    rw [if_pos hcell] at hsame
    rw [overTag_snd, hsame]
  · rfl

/-- No block goes, because each one on the way has a longer prefix than the absent one below it. -/
private theorem erases_absent (hcidr : cidr ≤ 32) (hruleless : AtRulelessNode T ip cidr) :
    Erases T ip cidr (absentTags T ip cidr) (HasLonger T) where
  tags := rfl
  sub _ hq := hq
  off _ hq _ := hq
  up _ _ := HasLonger.parent
  shown k hk _ := by
    obtain ⟨len, v, hlen, hentry, hbits⟩ := hruleless.longer hcidr hk
    obtain ⟨y, hy, hlonger | hlong⟩ := shown_below (Nat.lt_trans hk hlen) hentry
    · exact ⟨y, hy.trans hbits, .inl hlonger⟩
    · refine ⟨y, hy.trans hbits, .inr ?_⟩
      have hlong' : cidr < (bestTag T (k + 1, y)).1 := Nat.lt_of_lt_of_le hlen hlong
      have hkept : absentTags T ip cidr (k + 1, y) = bestTag T (k + 1, y) := if_neg fun hcell => by omega
      rw [hkept]
      exact Nat.lt_trans hk hlong'
  same k hk hnot := absurd (hruleless.hasLonger hcidr hk) hnot

/-- At a node without a rule the deletion of an absent prefix leaves all searches and the auxiliary trie as they are. -/
private theorem TsHolds.deleteAbsent (h : TsHolds T ts) (hcidr : 1 ≤ cidr ∧ cidr ≤ 32)
    (habsent : T cidr (topBits ip cidr) = none) (hruleless : AtRulelessNode T ip cidr) (hturns : 3 ≤ turns) :
    ∃ mm', tsDeletePrefix turns ts ip cidr = .ok ⟨mm', ts.upAux⟩ ∧
      ∀ x, tsSearch turns ⟨mm', ts.upAux⟩ x = tsSearch turns ts x := by
  have hsearch := fun x => h.search x hturns
  obtain ⟨hfits, haux, own, free, N, htree⟩ := h
  rw [← topBits_maskIp] at habsent
  rw [← atRulelessNode_maskIp hcidr.2] at hruleless
  have hnode := (haux.table cidr _ (topBits_lt _ hcidr.2)).trans habsent
  have hdel := deleteEntry_absent haux.wf (masked_maskIp ip cidr) hcidr.2 hnode (haux.atRulelessNode.2 hruleless)
  obtain ⟨mm', free', C', hrun, htree', hC'⟩ := (erases_absent hcidr.2 hruleless).deletePrefix hcidr hfits haux htree
    (fun j hj => hruleless.hasLonger hcidr.2 hj) (show deleteAuxEntry _ _ _ = .ok _ by rw [deleteAuxEntry, hdel]; rfl)
    hturns
  obtain rfl : C' = Route.longer T := by
    ext q
    rw [hC', mem_longer hfits]
  refine ⟨mm', hrun, fun x => ?_⟩
  have hsearch' : tsSearch turns ⟨mm', ts.upAux⟩ x = _ := Tree.search htree' hfits (absentTags_snd hcidr habsent) x hturns
  rw [hsearch, hsearch']

/-- The deletion returns, and then `ts_search` returns the same as before for every address, the auxiliary trie stores the
same prefixes, and no pointer was followed whose bit is clear. -/
def Harmless (turns : Nat) (ts : TsTree) (ip : BitVec 32) (cidr : Nat) : Prop :=
  (∃ ts', tsDeletePrefix turns ts ip cidr = .ok ts' ∧ (∀ x, tsSearch turns ts' x = tsSearch turns ts x) ∧
    ∀ len v, v < 2 ^ len → ts'.upAux.toTable len v = ts.upAux.toTable len v) ∧
  BitsSet cidr (maskIp ip cidr) ts.upAux

/-- In every table that calls lead to, with any next hops but without a deletion under one of 0, `prefix_exsit` tells
which prefixes are there, and the deletion of an absent one is harmless exactly if the node of the prefix exists in the
auxiliary trie and has no rule. -/
theorem tsDeletePrefix_absent_iff (turns : Nat) (hturns : 3 ≤ turns) (ops : List (RouteOp Nat))
    (h : Allowed RouteOp.apply ZeroLegal Table.empty ops) :
    ∃ ts, run (tsStep turns) tsInit ops = .ok ts ∧ ∀ ip cidr, 1 ≤ cidr → cidr ≤ 32 →
      prefixExsit cidr (maskIp ip cidr) ts.upAux = some (Table.after ops cidr (topBits ip cidr)).isSome ∧
      (Table.after ops cidr (topBits ip cidr) = none →
        (Harmless turns ts ip cidr ↔ AtRulelessNode (Table.after ops) ip cidr)) := by
  obtain ⟨ts, hrun, hts⟩ := tsHolds_run hturns tsHolds_init h
  refine ⟨ts, hrun, fun ip cidr hone hcidr => ?_⟩
  have hmask := masked_maskIp ip cidr
  have htable : ts.upAux.toTable cidr (topBits (maskIp ip cidr) cidr) = Table.after ops cidr (topBits ip cidr) := by
    rw [hts.aux.table cidr _ (topBits_lt _ hcidr), topBits_maskIp]
    rfl
  refine ⟨by rw [prefixExsit_eq hts.aux.wf hmask hcidr, htable], fun habsent => ?_⟩
  have hbits : BitsSet cidr (maskIp ip cidr) ts.upAux ↔ AtRulelessNode (Table.after ops) ip cidr := by
    rw [bitsSet_iff hts.aux.wf hmask hcidr (htable.trans habsent), hts.aux.atRulelessNode, atRulelessNode_maskIp hcidr]
    rfl
  constructor
  · exact fun hharmless => hbits.1 hharmless.2
  · intro hruleless
    obtain ⟨mm', hdel, hsearch⟩ := hts.deleteAbsent ⟨hone, hcidr⟩ habsent hruleless hturns
    exact ⟨⟨_, hdel, hsearch, fun _ _ _ => rfl⟩, hbits.2 hruleless⟩

/-- 10.1.2.0/24 with the next hop 0 and 10.2.0.0/16 are in the table, and 10.1.0.0/17 is deleted. -/
theorem tsDeletePrefix_absent_above :
    Allowed RouteOp.apply ZeroLegal Table.empty [.insert 0x0a010200 24 0, .insert 0x0a020000 16 7] ∧
      ∃ ts, run (tsStep 3) tsInit [.insert 0x0a010200 24 0, .insert 0x0a020000 16 7] = .ok ts ∧
        Harmless 3 ts 0x0a010000 17 := by
  have hcalls : Allowed RouteOp.apply ZeroCall Table.empty [.insert 0x0a010200 24 0, .insert 0x0a020000 16 7] :=
    ⟨by decide, by decide, trivial⟩
  have hlegal := (zeroLegal_of_length Table.good_empty.fits (by rw [blocks_empty]; decide) hcalls).1
  obtain ⟨ts, hrun, hiff⟩ := tsDeletePrefix_absent_iff 3 (by decide) _ hlegal
  refine ⟨hlegal, ts, hrun, ((hiff _ _ (by decide) (by decide)).2 (by decide)).2 ⟨.inr ⟨8, 0x0a0102, ?_⟩, ?_⟩⟩
  · decide
  · -- a prefix with 16 to 19 bits is the second one
    rintro k hk ⟨v, -, hbits, hentry⟩
    have hlen : nodeBits 17 + k ≠ 24 := by
      unfold nodeBits
      omega
    simp only [Table.after, List.foldl, RouteOp.apply, assign, Table.empty, hlen, false_and, ↓reduceIte] at hentry
    split at hentry
    · rename_i heq
      obtain ⟨hk0, rfl⟩ := heq
      obtain rfl : k = 0 := by
        unfold nodeBits at hk0
        omega
      revert hbits
      decide
    · exact hentry rfl

/-- 10.1.0.0/16 is in the table, and the deletion of 10.0.0.0/16 takes it out of the auxiliary trie. -/
theorem tsDeletePrefix_absent_harm :
    Allowed RouteOp.apply ZeroLegal Table.empty [.insert 0x0a010000 16 2] ∧
      Table.after [.insert 0x0a010000 16 2] 16 (topBits 0x0a000000 16) = none ∧
      ∃ ts ts', run (tsStep 3) tsInit [.insert 0x0a010000 16 2] = .ok ts ∧
        tsDeletePrefix 3 ts 0x0a000000 16 = .ok ts' ∧
        ts.upAux.toTable 16 0x0a01 = some 2 ∧ ts'.upAux.toTable 16 0x0a01 = none ∧ ¬Harmless 3 ts 0x0a000000 16 := by
  have hcalls : Allowed RouteOp.apply ZeroCall Table.empty [.insert 0x0a010000 16 2] := ⟨by decide, trivial⟩
  have hlegal := (zeroLegal_of_length Table.good_empty.fits (by rw [blocks_empty]; decide) hcalls).1
  obtain ⟨ts, hrun, hfits, haux, own, free, N, htree⟩ := tsHolds_run (show 3 ≤ 3 by decide) tsHolds_init hlegal
  obtain ⟨upAux', hdel, hlost⟩ : ∃ upAux', deleteAuxEntry ts.upAux (maskIp 0x0a000000 16) 16 = .ok upAux' ∧
      upAux'.toTable 16 0x0a01 = none := by
    cases hrun
    exact ⟨_, rfl, rfl⟩
  have hzero : ZeroFree (Table.after [.insert 0x0a010000 16 2]) (maskIp 0x0a000000 16) 16 := by decide
  obtain ⟨mm', free', C', hrun', -, -⟩ := (erases_present (by decide) hzero).deletePrefix (by decide) hfits haux htree
    (fun j hj => by unfold width at hj; omega) hdel (show 3 ≤ 3 by decide)
  have hstored : ts.upAux.toTable 16 0x0a01 = some 2 := (haux.table 16 0x0a01 (by decide)).trans (by decide)
  refine ⟨hlegal, by decide, ts, _, hrun, hrun', hstored, hlost, ?_⟩
  rintro ⟨⟨ts', hts', -, hsame⟩, -⟩
  cases hrun'.symm.trans hts'
  have := hsame 16 0x0a01 (by decide)
  rw [hstored, hlost] at this
  cases this

end StubProfile.Route
