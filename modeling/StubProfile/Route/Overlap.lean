import StubProfile.Route.TsCorrect

/-!
# The longest shorter prefix

Deleting a prefix gives its addresses to the longest prefix among the shorter ones, which `detect_overlap` finds in the
auxiliary trie and `find_overlap_prefix` hands on.  The first one finds it in every trie.  The second one takes a next
hop of 0 for a null pointer, so it delivers the prefix exactly if its next hop is not 0.
-/

namespace StubProfile.Route

open LongestPrefix Machine

variable {ν : Type} {T : Table ν} {node : MbNode ν} {ip : BitVec 32} {cidr level l : Nat}

/-! ### The specification -/

/-- Among the stored prefixes of `ip` that are shorter than `cidr` and at most `level` bits long, the longest one has
`len` bits and the next hop `nhi`. -/
structure LongestBelow (T : Table ν) (ip : BitVec 32) (cidr level len : Nat) (nhi : ν) : Prop where
  entry : T len (topBits ip len) = some nhi
  shorter : len < cidr
  within : len ≤ level
  longest : ∀ k, T k (topBits ip k) ≠ none → k < cidr → k ≤ level → k ≤ len

/-- No stored prefix of `ip` is shorter than `cidr` and at most `level` bits long. -/
def NoneBelow (T : Table ν) (ip : BitVec 32) (cidr level : Nat) : Prop :=
  ∀ k < cidr, k ≤ level → T k (topBits ip k) = none

/-- `r` is the length and the next hop of the longest such prefix, or `default` if there is none. -/
def Delivers (T : Table ν) (ip : BitVec 32) (cidr level : Nat) (default r : Nat × ν) : Prop :=
  LongestBelow T ip cidr level r.1 r.2 ∨ (NoneBelow T ip cidr level ∧ r = default)

private theorem LongestBelow.eq {len len' : Nat} {nhi nhi' : ν} (h : LongestBelow T ip cidr level len nhi)
    (h' : LongestBelow T ip cidr level len' nhi') : len = len' ∧ nhi = nhi' := by
  have hle := h.longest len' (by simp [h'.entry]) h'.shorter h'.within
  have hge := h'.longest len (by simp [h.entry]) h.shorter h.within
  obtain rfl : len = len' := by omega
  exact ⟨rfl, Option.some.inj (h.entry.symm.trans h'.entry)⟩

private theorem LongestBelow.not_noneBelow {len : Nat} {nhi : ν} (h : LongestBelow T ip cidr level len nhi) :
    ¬NoneBelow T ip cidr level := fun hno => by
  have := hno len h.shorter h.within
  simp [h.entry] at this

/-- The best match of the first `l` bits says which case it is, where `l` is the length of the longest prefix allowed. -/
private theorem best_below (T : Table ν) (ip : BitVec 32) (hl : ∀ k, k ≤ l ↔ k < cidr ∧ k ≤ level) (hl32 : l ≤ 32) :
    (best T l (topBits ip l) = none ∧ NoneBelow T ip cidr level) ∨
      ∃ len nhi, best T l (topBits ip l) = some (len, nhi) ∧ LongestBelow T ip cidr level len nhi := by
  have hbits : ∀ k ≤ l, topBits ip l / 2 ^ (l - k) = topBits ip k := fun k hk => (topBits_div ip hk hl32).symm
  cases hb : best T l (topBits ip l) with
  | none =>
    refine .inl ⟨rfl, fun k h1 h2 => ?_⟩
    have hk := (hl k).2 ⟨h1, h2⟩
    rw [← hbits k hk]
    exact best_eq_none_iff.1 hb k hk
  | some r =>
    obtain ⟨len, nhi⟩ := r
    obtain ⟨hle, hentry, hno⟩ := best_eq_some_iff.1 hb
    refine .inr ⟨len, nhi, rfl, ?_, ((hl len).1 hle).1, ((hl len).1 hle).2, fun k hne h1 h2 => ?_⟩
    · rwa [← hbits len hle]
    · by_contra hlt
      have hk := (hl k).2 ⟨h1, h2⟩
      rw [← hbits k hk] at hne
      exact hne (hno k (by omega) hk)

/-! ### `detect_overlap` -/

/-- `detect_overlap` with `*nhi_over`, which has the value `nhiOver` before the call. -/
def detectOverlapInto (nhiOver : ν) (aux : MbNode ν) (ip : BitVec 32) (cidr leafPushingBits : Nat) : Option (Nat × ν) :=
  (detectOverlap aux ip cidr leafPushingBits).map fun found => (found.1, found.2.getD nhiOver)

private theorem detectOverlap_zero : detectOverlap node ip 0 level = some (0, none) := by
  rw [detectOverlap, if_neg (by omega), detectLoop, if_neg (by omega)]
  rfl

private theorem Represents.detectOverlap_cases (h : Represents T node) (ip : BitVec 32) (hcidr : cidr ≤ 32)
    (level : Nat) : (detectOverlap node ip cidr level = some (0, none) ∧ NoneBelow T ip cidr level) ∨
      ∃ len nhi, detectOverlap node ip cidr level = some (len, some nhi) ∧ LongestBelow T ip cidr level len nhi := by
  by_cases hzero : cidr = 0
  · subst hzero
    exact .inl ⟨detectOverlap_zero, fun k hk => by omega⟩
  · obtain ⟨l, hl, hl32, hbelow⟩ : ∃ l, (if cidr > level then level + 1 else cidr) = l + 1 ∧ l ≤ 32 ∧
        ∀ k, k ≤ l ↔ k < cidr ∧ k ≤ level := by
      by_cases hlevel : cidr > level
      · exact ⟨level, if_pos hlevel, by omega, fun k => by omega⟩
      · exact ⟨cidr - 1, by rw [if_neg hlevel]; omega, by omega, fun k => by omega⟩
    rw [detectOverlap_eq h.wf h.root hl hl32, h.best_eq (topBits_lt ip hl32)]
    obtain ⟨hb, hno⟩ | ⟨len, nhi, hb, hlongest⟩ := best_below T ip hbelow hl32
    · exact .inl ⟨by rw [hb]; rfl, hno⟩
    · exact .inr ⟨len, nhi, by rw [hb]; simp [foundAt], hlongest⟩

/-- After every sequence of legal calls `detect_overlap` returns the longest prefix of the address that is shorter than
`cidr` and at most `leaf_pushing_bits` long, with its next hop in `*nhi_over`, or 0, and `*nhi_over` stays as it was. -/
theorem detectOverlap_longest (ops : List (RouteOp ν)) (h : Allowed RouteOp.apply AuxLegal Table.empty ops) :
    ∃ node, run auxStep .empty ops = .ok node ∧
      ∀ (ip : BitVec 32) (cidr leafPushingBits : Nat) (nhiOver : ν), cidr ≤ 32 →
        ∃ r, detectOverlapInto nhiOver node ip cidr leafPushingBits = some r ∧
          Delivers (Table.after ops) ip cidr leafPushingBits (0, nhiOver) r := by
  obtain ⟨node, hrun, hrep⟩ := represents_after h
  refine ⟨node, hrun, fun ip cidr leafPushingBits nhiOver hcidr => ?_⟩
  obtain ⟨hdetect, hno⟩ | ⟨len, nhi, hdetect, hlongest⟩ := hrep.detectOverlap_cases ip hcidr leafPushingBits
  · exact ⟨(0, nhiOver), by rw [detectOverlapInto, hdetect]; rfl, .inr ⟨hno, rfl⟩⟩
  · exact ⟨(len, nhi), by rw [detectOverlapInto, hdetect]; rfl, .inl hlongest⟩

/-- Above 10.1.0.0/16 there is nothing once 10.0.0.0/8 is deleted, and above 10.1.2.0/24 there is 10.1.0.0/16. -/
theorem detectOverlap_longest_nested :
    Allowed RouteOp.apply AuxLegal Table.empty nestedOps ∧
      ∃ node, run auxStep .empty nestedOps = .ok node ∧
        (detectOverlapInto 7 node 0x0a010200 24 16 = some (16, 2) ∧
          Delivers (Table.after nestedOps) 0x0a010200 24 16 (0, 7) (16, 2)) ∧
        detectOverlapInto 7 node 0x0a010000 16 16 = some (0, 7) ∧
          Delivers (Table.after nestedOps) 0x0a010000 16 16 (0, 7) (0, 7) := by
  obtain ⟨node, hrun, hdetect⟩ := detectOverlap_longest nestedOps allowed_nestedOps
  obtain ⟨r, hr, hdelivers⟩ := hdetect 0x0a010200 24 16 7 (by decide)
  obtain ⟨r', hr', hdelivers'⟩ := hdetect 0x0a010000 16 16 7 (by decide)
  have hvalues : (run auxStep .empty nestedOps).toOption.map (fun node => (detectOverlapInto 7 node 0x0a010200 24 16,
      detectOverlapInto 7 node 0x0a010000 16 16)) = some (some (16, 2), some (0, 7)) := by decide +kernel
  rw [hrun] at hvalues
  simp only [Except.toOption, Option.map_some, hr, hr', Option.some.injEq, Prod.mk.injEq] at hvalues
  obtain ⟨rfl, rfl⟩ := hvalues
  exact ⟨allowed_nestedOps, node, hrun, ⟨hr, hdelivers⟩, hr', hdelivers'⟩

/-! ### `find_overlap_prefix` -/

section

variable {T : Table Nat} {ts ts' : TsTree} {turns : Nat}

/-- The calls that fill a route table: any next hop of up to 25 bits, also 0. -/
def FillLegal (T : Table Nat) : RouteOp Nat → Prop
  | .insert _ cidr nhi => (1 ≤ cidr ∧ cidr ≤ 32) ∧ nhi < 2 ^ 25
  | .delete ip cidr => (1 ≤ cidr ∧ cidr ≤ 32) ∧ T cidr (topBits ip cidr) ≠ none

instance (T : Table Nat) : DecidablePred (FillLegal T)
  | .insert _ cidr nhi => inferInstanceAs (Decidable ((1 ≤ cidr ∧ cidr ≤ 32) ∧ nhi < 2 ^ 25))
  | .delete ip cidr => inferInstanceAs (Decidable ((1 ≤ cidr ∧ cidr ≤ 32) ∧ T cidr (topBits ip cidr) ≠ none))

private theorem tsInsertPrefix_aux {r : TsTree × Int} {nhi : Nat} (h : tsInsertPrefix turns ts ip cidr nhi = .ok r)
    (hcidr : 1 ≤ cidr) (hnhi : nhi < 2 ^ 25) : insertAuxEntry ts.upAux (maskIp ip cidr) cidr nhi = .ok r.1.upAux := by
  have hbit : nhi.testBit 25 = false := Nat.testBit_lt_two_pow hnhi
  simp only [tsInsertPrefix, hbit, Bool.false_eq_true, ↓reduceIte, show cidr ≠ 0 by omega] at h
  split at h
  all_goals
    obtain ⟨mm, -, h⟩ := bind_eq_ok h
    obtain ⟨upAux, haux, h⟩ := bind_eq_ok h
    cases h
    exact haux

private theorem tsDeletePrefix_aux (h : tsDeletePrefix turns ts ip cidr = .ok ts') (hcidr : 1 ≤ cidr) :
    deleteAuxEntry ts.upAux (maskIp ip cidr) cidr = .ok ts'.upAux := by
  simp only [tsDeletePrefix, show cidr ≠ 0 by omega, ↓reduceIte] at h
  obtain ⟨tag, -, h⟩ := bind_eq_ok h
  split at h
  · obtain ⟨deleted, -, h⟩ := bind_eq_ok h
    obtain ⟨upAux, haux, h⟩ := bind_eq_ok h
    cases h
    exact haux
  · obtain ⟨e, -, h⟩ := bind_eq_ok h
    obtain ⟨deleted, -, h⟩ := bind_eq_ok h
    obtain ⟨collapsed, -, h⟩ := bind_eq_ok h
    obtain ⟨upAux, haux, h⟩ := bind_eq_ok h
    cases h
    exact haux

/-- Whatever happens to the blocks, a call keeps the auxiliary trie right. -/
private theorem Represents.tsStep (h : Represents T ts.upAux) {op : RouteOp Nat} (hlegal : FillLegal T op)
    (hstep : tsStep turns ts op = .ok ts') : Represents (op.apply T) ts'.upAux := by
  cases op with
  | insert ip cidr nhi =>
    cases hins : tsInsertPrefix turns ts ip cidr nhi with
    | error e => simp [Route.tsStep, hins, Except.map] at hstep
    | ok r =>
      simp only [Route.tsStep, hins, Except.map, Except.ok.injEq] at hstep
      subst hstep
      obtain ⟨node, hnode, hrep⟩ := h.insert nhi hlegal.1 (masked_maskIp ip cidr)
      rw [tsInsertPrefix_aux hins hlegal.1.1 hlegal.2, Except.ok.injEq] at hnode
      rw [topBits_maskIp] at hrep
      exact hnode ▸ hrep
  | delete ip cidr =>
    have hsome := hlegal.2
    rw [← topBits_maskIp] at hsome
    obtain ⟨node, hnode, hrep⟩ := h.delete hlegal.1 (masked_maskIp ip cidr) hsome
    rw [tsDeletePrefix_aux hstep hlegal.1.1, Except.ok.injEq] at hnode
    rw [topBits_maskIp] at hrep
    exact hnode ▸ hrep

private theorem represents_run {ops : List (RouteOp Nat)} (h : Allowed RouteOp.apply FillLegal Table.empty ops)
    (hrun : run (tsStep turns) tsInit ops = .ok ts) : Represents (Table.after ops) ts.upAux := by
  have hstep : ∀ (T : Table Nat) (ts : TsTree) (op : RouteOp Nat) (ts' : TsTree), Represents T ts.upAux →
      FillLegal T op → tsStep turns ts op = .ok ts' → Represents (op.apply T) ts'.upAux :=
    fun _ _ _ _ hrep hlegal hstep => hrep.tsStep hlegal hstep
  exact run_follows (R := fun T ts => Represents T ts.upAux) hstep represents_empty h hrun

private theorem findOverlapPrefix_cases (h : Represents T ts.upAux) (ip : BitVec 32) (hcidr : cidr ≤ 32) (level : Nat) :
    (findOverlapPrefix ts.upAux ip cidr level = .ok (0, 0) ∧ NoneBelow T ip cidr level) ∨
      ∃ len nhi, findOverlapPrefix ts.upAux ip cidr level = .ok (if nhi = 0 then (0, 0) else (len, nhi)) ∧
        LongestBelow T ip cidr level len nhi := by
  obtain ⟨hdetect, hno⟩ | ⟨len, nhi, hdetect, hlongest⟩ := h.detectOverlap_cases ip hcidr level
  · exact .inl ⟨by rw [findOverlapPrefix, hdetect]; rfl, hno⟩
  · refine .inr ⟨len, nhi, ?_, hlongest⟩
    rw [findOverlapPrefix, hdetect]
    cases nhi with
    | zero => rfl
    | succ nhi => rfl

/-- In every table that calls lead to, `find_overlap_prefix` delivers the longest shorter prefix exactly if the next hop
of that prefix is not 0. -/
theorem findOverlapPrefix_longest_iff (turns : Nat) (ops : List (RouteOp Nat))
    (h : Allowed RouteOp.apply FillLegal Table.empty ops) (ts : TsTree) (hrun : run (tsStep turns) tsInit ops = .ok ts)
    (ip : BitVec 32) (cidr level : Nat) (hcidr : cidr ≤ 32) :
    (∃ r, findOverlapPrefix ts.upAux ip cidr level = .ok r ∧ Delivers (Table.after ops) ip cidr level (0, 0) r) ↔
      ∀ len, ¬LongestBelow (Table.after ops) ip cidr level len 0 := by
  have hrep := represents_run h hrun
  obtain ⟨hfind, hno⟩ | ⟨len, nhi, hfind, hlongest⟩ := findOverlapPrefix_cases hrep ip hcidr level
  · exact ⟨fun _ len hlongest => hlongest.not_noneBelow hno, fun _ => ⟨_, hfind, .inr ⟨hno, rfl⟩⟩⟩
  · constructor
    · rintro ⟨r, hr, hdelivers⟩ len' hzero
      obtain ⟨rfl, rfl⟩ := hlongest.eq hzero
      rw [hfind] at hr
      cases hr
      obtain hfound | ⟨hno, -⟩ := hdelivers
      · -- no prefix has 0 bits
        have hentry : Table.after ops 0 (topBits ip 0) = some 0 := hfound.entry
        have := hrep.within 0 (topBits ip 0) (by simp [hentry])
        omega
      · exact hlongest.not_noneBelow hno
    · intro hne
      have hnhi : nhi ≠ 0 := by
        rintro rfl
        exact hne len hlongest
      exact ⟨_, hfind, .inl (by rwa [if_neg hnhi])⟩

/-- 10.0.0.0/16 is in the table with the next hop 5, and the search starts from 10.0.1.0/24. -/
theorem findOverlapPrefix_longest_five :
    ∃ ts, run (tsStep 3) tsInit [.insert 0x0a000000 16 5] = .ok ts ∧
      ∃ r, findOverlapPrefix ts.upAux 0x0a000100 24 16 = .ok r ∧
        Delivers (Table.after [.insert 0x0a000000 16 5]) 0x0a000100 24 16 (0, 0) r := by
  refine ⟨_, rfl, ?_⟩
  refine (findOverlapPrefix_longest_iff 3 [.insert 0x0a000000 16 5] ⟨by decide, trivial⟩ _ rfl _ _ _ (by decide)).2 ?_
  intro len hzero
  have hentry := hzero.entry
  simp only [Table.after, List.foldl, RouteOp.apply, assign] at hentry
  split at hentry <;> cases hentry

/-- With the next hop 0 it is not found. -/
theorem findOverlapPrefix_lost :
    Allowed RouteOp.apply FillLegal Table.empty [.insert 0x0a000000 16 0] ∧
      ∃ ts, run (tsStep 3) tsInit [.insert 0x0a000000 16 0] = .ok ts ∧
        findOverlapPrefix ts.upAux 0x0a000100 24 16 = .ok (0, 0) ∧
        LongestBelow (Table.after [.insert 0x0a000000 16 0]) 0x0a000100 24 16 16 0 := by
  have hlegal : Allowed RouteOp.apply FillLegal Table.empty [.insert 0x0a000000 16 0] := ⟨by decide, trivial⟩
  have hlost : LongestBelow (Table.after [.insert 0x0a000000 16 0]) 0x0a000100 24 16 16 0 :=
    ⟨rfl, by decide, by decide, fun k _ _ hk => hk⟩
  obtain ⟨ts, hrun⟩ : ∃ ts, run (tsStep 3) tsInit [.insert 0x0a000000 16 0] = .ok ts := ⟨_, rfl⟩
  refine ⟨hlegal, ts, hrun, ?_, hlost⟩
  obtain ⟨-, hno⟩ | ⟨len, nhi, hfind, hlongest⟩ :=
    findOverlapPrefix_cases (represents_run hlegal hrun) 0x0a000100 (show 24 ≤ 32 by decide) 16
  · exact absurd hno hlost.not_noneBelow
  · obtain ⟨rfl, rfl⟩ := hlongest.eq hlost
    exact hfind

end

end StubProfile.Route
