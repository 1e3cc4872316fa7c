import StubProfile.Lib.Machine
import StubProfile.Route.BitmapTable

/-!
# The longest match in the tree bitmap

`do_search` and `detect_overlap` go down the trie with an address and look in each node for the longest prefix that
the node has a rule for.  Both find the best match of the table: `do_search` among all prefixes, `detect_overlap` among
those shorter than a limit.
-/

namespace StubProfile.Route

open SparseArray LongestPrefix Machine

variable {ν : Type} {node : MbNode ν} {ip : BitVec 32}

/-! ### In one node -/

private theorem ruleLoop_zero (i s : Nat) : ruleLoop 0 i s = none := by
  induction i generalizing s with
  | zero => rfl
  | succ i ih => rw [ruleLoop, hasBit_eq, ih]; simp

private theorem treeFunction_eq (b : BitVec 16) (s : Nat) : treeFunction b s = (ruleLoop b 4 s).map (·.1) := by
  by_cases hb : b = 0
  · rw [treeFunction, if_pos hb, hb, ruleLoop_zero, Option.map_none]
  · rw [treeFunction, if_neg hb]

private theorem findOverlapInNode_eq (b : BitVec 16) (s i : Nat) :
    findOverlapInNode b s i = ruleLoop b i (s >>> (4 - i)) := by
  by_cases hb : b = 0
  · rw [findOverlapInNode, if_pos hb, hb, ruleLoop_zero]
  · rw [findOverlapInNode, if_neg hb]

/-- The rule loop finds the longest prefix of at most `i` bits. -/
private theorem ruleLoop_eq (hwf : node.WF) {i s : Nat} (hi : i < 4) (hs : s / 2 < 2 ^ i) :
    (ruleLoop node.internal (i + 1) s = none ∧ best node.toTable i (s / 2) = none) ∨
      ∃ pos len nhi, ruleLoop node.internal (i + 1) s = some (pos, len) ∧ len ≤ i ∧
        node.rules[countOnes node.internal pos]? = some nhi ∧ best node.toTable i (s / 2) = some (len, nhi) := by
  induction i generalizing s with
  | zero =>
    have hlt := countInlBitmap_lt (show 0 < 4 by omega) hs
    rw [ruleLoop, hasBit_eq, Nat.shiftRight_eq_div_pow, Nat.pow_one, best, MbNode.toTable_of_lt hi]
    obtain ⟨hbit, hnone⟩ | ⟨nhi, hbit, hget, hrule⟩ := hwf.rule_eq (show countInlBitmap (s / 2) 0 < 16 by omega)
    · exact .inl ⟨by simp [hbit, ruleLoop], by simp [hnone]⟩
    · exact .inr ⟨_, 0, nhi, by simp [hbit], Nat.le_refl 0, hget, by simp [hrule]⟩
  | succ i ih =>
    have hlt := countInlBitmap_lt hi hs
    rw [ruleLoop, hasBit_eq, Nat.shiftRight_eq_div_pow, Nat.pow_one, best_succ, MbNode.toTable_of_lt hi]
    obtain ⟨hbit, hnone⟩ | ⟨nhi, hbit, hget, hrule⟩ := hwf.rule_eq (show countInlBitmap (s / 2) (i + 1) < 16 by omega)
    · rw [hbit, hnone]
      obtain ⟨h1, h2⟩ | ⟨pos, len, nhi, h1, hle, h2, h3⟩ := ih (s := s / 2) (by omega) (by rw [Nat.pow_succ] at hs; omega)
      · exact .inl ⟨by simpa using h1, h2⟩
      · exact .inr ⟨pos, len, nhi, by simpa using h1, by omega, h2, h3⟩
    · exact .inr ⟨_, i + 1, nhi, by simp [hbit], Nat.le_refl _, hget, by simp [hrule]⟩

/-- Below the bits `s` a node has the table of its child. -/
private theorem below_toTable {s : Nat} {sub : MbNode ν} (h : node.child s = some sub) {len v : Nat}
    (hv : v < 2 ^ len) :
    below node.toTable s len v = sub.toTable len v := MbNode.toTable_child h hv

private theorem best_below_child {s m x : Nat} {sub : MbNode ν} (h : node.child s = some sub) (hx : x < 2 ^ m) :
    best (below node.toTable s) m x = best sub.toTable m x :=
  best_congr fun _ hk => below_toTable h (div_lt hx hk)

private theorem best_below_none {s m x : Nat} (h : node.child s = none) (hx : x < 2 ^ m) :
    best (below node.toTable s) m x = none := by
  refine best_eq_none_iff.2 fun k hk => ?_
  have hv := div_lt hx hk
  rw [below, MbNode.toTable_add_four, Nat.mul_comm, Nat.mul_add_div (Nat.two_pow_pos k), Nat.div_eq_of_lt hv,
    Nat.add_zero, h, Option.bind_none]

/-! ### Down the trie -/

private theorem topStride_half_lt (ip : BitVec 32) : topStride ip / 2 < 2 ^ 3 := by
  have := topStride_lt ip
  omega

theorem searchNode_eq (hwf : node.WF) (longest : Option ν) :
    searchNode node (topStride ip) longest =
      some (((best node.toTable 3 (topStride ip / 2)).map (·.2)).or longest) := by
  rw [searchNode, treeFunction_eq]
  obtain ⟨h1, h2⟩ | ⟨pos, len, nhi, h1, -, h2, h3⟩ := ruleLoop_eq hwf (show 3 < 4 by omega) (topStride_half_lt ip)
  · simp [h1, h2]
  · simp [h1, h2, h3]

/-- One turn of the loop of `do_search`. -/
theorem doSearch_step (hwf : node.WF) (longest : Option ν) :
    doSearch node ip longest =
      let longest := ((best node.toTable 3 (topStride ip / 2)).map (·.2)).or longest
      match node.child (topStride ip) with
      | some sub => doSearch sub (ip <<< 4) longest
      | none => some longest := by
  rw [doSearch]
  simp only [searchNode_eq hwf, countEnlBitmap, hasBit_eq]
  obtain ⟨hbit, hnone⟩ | ⟨sub, hbit, hget, hsub⟩ := hwf.child_eq (topStride_lt ip)
  · simp [hbit, hnone]
  · simp only [hbit, hsub, ↓reduceIte]
    split
    · rename_i child hchild
      rw [hget] at hchild
      cases hchild
      rfl
    · rename_i hchild
      cases hget.symm.trans hchild

/-- `do_search` in a node that has no prefix longer than the `4 * m` bits left of the address. -/
theorem doSearch_eq {m : Nat} (hwf : node.WF) (hm : 4 * m ≤ 32)
    (hmax : ∀ len v, v < 2 ^ len → node.toTable len v ≠ none → len ≤ 4 * m) (longest : Option ν) :
    doSearch node ip longest = some (((best node.toTable (4 * m) (topBits ip (4 * m))).map (·.2)).or longest) := by
  induction m generalizing node ip longest with
  | zero =>
    have hchild : node.child (topStride ip) = none := by
      cases hsub : node.child (topStride ip) with
      | none => rfl
      | some sub =>
        obtain ⟨hne, hwf'⟩ := hwf.of_child hsub
        obtain ⟨len, v, hv, hentry⟩ := hwf'.exists_entry hne
        have := hmax (len + 4) (topStride ip * 2 ^ len + v) (stride_lt (topStride_lt ip) hv)
          (by rwa [MbNode.toTable_child hsub hv])
        omega
    have hshort : best node.toTable 3 (topStride ip / 2) = best node.toTable 0 (topStride ip / 2 / 2 ^ (3 - 0)) := by
      refine best_of_short (by omega) fun k h1 h2 => ?_
      by_contra hne
      have := hmax k _ (div_lt (topStride_half_lt ip) h2) hne
      omega
    have hzero : topStride ip / 2 / 2 ^ (3 - 0) = topBits ip 0 := by
      have h1 := topStride_half_lt ip
      have h2 : topBits ip 0 < 2 ^ 0 := topBits_lt _ (by omega)
      omega
    rw [doSearch_step hwf, hchild, hshort, hzero]
  | succ m ih =>
    have hm' : 4 * m + 4 ≤ 32 := by omega
    rw [doSearch_step hwf, show 4 * (m + 1) = 4 * m + 4 by omega, best_split, ← topStride_eq hm', ← topBits_shiftLeft hm']
    have hrest : topBits (ip <<< 4) (4 * m) < 2 ^ (4 * m) := topBits_lt _ (by omega)
    cases hsub : node.child (topStride ip) with
    | none => simp only [best_below_none hsub hrest]
    | some sub =>
      simp only [best_below_child hsub hrest]
      rw [ih (hwf.of_child hsub).2 (by omega)]
      · cases best sub.toTable (4 * m) (topBits (ip <<< 4) (4 * m)) with
        | none => rfl
        | some r => rfl
      · intro len v hv hentry
        have := hmax (len + 4) (topStride ip * 2 ^ len + v) (stride_lt (topStride_lt ip) hv)
          (by rwa [MbNode.toTable_child hsub hv])
        omega

/-- What `detect_overlap` has found, after the best match of a node of depth `step`. -/
def foundAt (step : Nat) (found : Nat × Option ν) : Option (Nat × ν) → Nat × Option ν
  | some (len, nhi) => (step * 4 + len, some nhi)
  | none => found

private theorem topStride_shiftRight {l : Nat} (hl : l < 4) : topStride ip >>> (4 - (l + 1)) / 2 = topBits ip l := by
  rw [topStride, topBits, BitVec.toNat_ushiftRight, Nat.shiftRight_eq_div_pow, Nat.shiftRight_eq_div_pow,
    Nat.div_div_eq_div_mul, Nat.div_div_eq_div_mul, ← Nat.pow_succ, ← Nat.pow_add,
    show 28 + (4 - (l + 1) + 1) = 32 - l by omega]

/-- One node of `detect_overlap`, when it looks for prefixes of at most `l` bits. -/
private theorem overlapNode_eq (hwf : node.WF) {l limit step orgLimit : Nat} (hl : l < 4) (hlimit : l < limit)
    (hinside : (if limit > 4 then 4 else limit) = l + 1) (horg : orgLimit = step * 4 + limit) (found : Nat × Option ν) :
    overlapNode orgLimit limit node (topStride ip) step found =
      some (foundAt step found (best node.toTable l (topBits ip l))) := by
  rw [overlapNode, hinside, findOverlapInNode_eq, ← topStride_shiftRight hl]
  have hlt : topStride ip >>> (4 - (l + 1)) / 2 < 2 ^ l := by
    rw [topStride_shiftRight hl]
    exact topBits_lt ip (by omega)
  obtain ⟨h1, h2⟩ | ⟨pos, len, nhi, h1, hle, h2, h3⟩ := ruleLoop_eq hwf hl hlt
  · rw [h1, h2]
    rfl
  · have hmask : step * 4 + len < orgLimit := by omega
    simp only [h1, h2, h3, hmask, foundAt, ↓reduceIte, Option.map_some]

private theorem detectLoop_eq (hwf : node.WF) {l step orgLimit : Nat} (hl : l ≤ 32)
    (horg : orgLimit = step * 4 + (l + 1)) (found : Nat × Option ν) :
    detectLoop orgLimit (l + 1) node ip step found =
      some (foundAt step found (best node.toTable l (topBits ip l))) := by
  induction l using Nat.strongRecOn generalizing node ip step found with
  | ind l ih =>
    rw [detectLoop, if_pos (by omega)]
    simp only [countEnlBitmap, hasBit_eq]
    by_cases hlt : l < 4
    · -- the last node: the loop ends, whether there is a child or not
      rw [overlapNode_eq hwf hlt (by omega) (by rw [if_neg (by omega)]) horg]
      obtain ⟨hbit, -⟩ | ⟨sub, hbit, hget, -⟩ := hwf.child_eq (topStride_lt ip)
      · simp [hbit]
      · simp only [hbit, hget, ↓reduceIte]
        rw [show l + 1 - 4 = 0 by omega, detectLoop, if_neg (by omega)]
    · obtain ⟨k, rfl⟩ : ∃ k, l = k + 4 := ⟨l - 4, by omega⟩
      have hstride : topBits ip 3 = topStride ip / 2 := by
        rw [← topStride_shiftRight (show 3 < 4 by omega)]
        rfl
      have hrest : topBits (ip <<< 4) k < 2 ^ k := topBits_lt _ (by omega)
      rw [overlapNode_eq hwf (show 3 < 4 by omega) (by omega) (by rw [if_pos (by omega)]) horg, best_split,
        ← topStride_eq hl, ← topBits_shiftLeft hl, hstride]
      obtain ⟨hbit, hnone⟩ | ⟨sub, hbit, hget, hsub⟩ := hwf.child_eq (topStride_lt ip)
      · simp [hbit, best_below_none hnone hrest]
      · simp only [hbit, hget, ↓reduceIte, best_below_child hsub hrest]
        rw [show k + 4 + 1 - 4 = k + 1 by omega, ih k (by omega) (hwf.of_child hsub).2 (by omega) (by omega)]
        cases best sub.toTable k (topBits (ip <<< 4) k) with
        | none => rfl
        | some r => simp [foundAt]; omega

/-- `detect_overlap` finds the best match among the prefixes of at most `l` bits. -/
theorem detectOverlap_eq (hwf : node.WF) (hroot : node.toTable 0 0 = none) {cidr leafPushingBits l : Nat}
    (hl : (if cidr > leafPushingBits then leafPushingBits + 1 else cidr) = l + 1) (hl32 : l ≤ 32) :
    detectOverlap node ip cidr leafPushingBits =
      some (foundAt 0 (0, none) (best node.toTable l (topBits ip l))) := by
  rw [detectOverlap, hl, detectLoop_eq hwf hl32 (by omega), Option.map_some]
  cases hbest : best node.toTable l (topBits ip l) with
  | none => rfl
  | some r =>
    obtain ⟨len, nhi⟩ := r
    obtain ⟨-, hentry, -⟩ := best_eq_some_iff.1 hbest
    have hlen : len ≠ 0 := by
      rintro rfl
      simp only [Nat.sub_zero, Nat.div_eq_of_lt (topBits_lt ip hl32), hroot, reduceCtorEq] at hentry
    simp [foundAt, hlen]

end StubProfile.Route
