import StubProfile.Route.TsDelete

/-!
# The route table refines a table of prefixes

Through every sequence of insertions and of deletions of present prefixes, as long as there are blocks and no prefix is
deleted under one with the next hop 0, the route table stands for the table that the calls lead to (`TsHolds`).  So
`ts_search` finds the longest match, and the blocks in use are those that the table needs: the others are zero and in the
free list.
-/

namespace StubProfile.Route

open LongestPrefix Machine

variable {T : Table Nat} {ts : TsTree} {C : Finset (Nat × Nat)} {own : Nat × Nat → Nat} {mm : MemCache} {free : List Nat}
  {q : Nat × Nat} {ip : BitVec 32} {k n N turns : Nat}

/-! ### Searching -/

/-- Below a cell without longer prefixes the way to an address has the same match to its end. -/
private theorem bestTag_path {d : Nat} (hd : k + d = 2) (h : ¬HasLonger T (k, topBits ip (width k))) :
    bestTag T (2, topBits ip (width 2)) = bestTag T (k, topBits ip (width k)) := by
  induction d generalizing k with
  | zero =>
    obtain rfl : k = 2 := hd
    rfl
  | succ d ih =>
    have hparent := topBits_parent ip (show k < 2 by omega)
    rw [← hparent] at h
    rw [ih (k := k + 1) (by omega) fun hlonger => h hlonger.parent, bestTag_of_not_hasLonger h, hparent]

/-- The search ends at the leaf on the way to the address. -/
private theorem searchLoop_spec {B : Nat × Nat → Nat × Nat} {nhi : Nat} (h : Tree B C own free N mm) (hk : k ≤ 2)
    (hlive : Live C (k, topBits ip (width k))) (hturns : 3 ≤ k + turns)
    (hleaf : ∀ j ≤ 2, (j, topBits ip (width j)) ∉ C → (B (j, topBits ip (width j))).2 = nhi) :
    searchLoop turns mm (loc own (k, topBits ip (width k))) (ip <<< width k) = .ok nhi := by
  induction turns generalizing k with
  | zero => omega
  | succ turns ih =>
    rw [searchLoop, h.shape.read_ok h.fits hlive, ok_bind]
    by_cases hC : (k, topBits ip (width k)) ∈ C
    · have hk2 := (h.shape.child _ hC).1
      obtain ⟨hlive', hptr⟩ := step_down own hC hk2
      rw [loc_block] at hptr
      have := ih (k := k + 1) hk2 hlive' (by omega)
      rw [width_succ, BitVec.shiftLeft_add, ← width_succ] at this
      simp only [content_of_mem hC, ↓reduceIte, hptr, this]
    · simp [content_of_not_mem hC, hleaf k hk hC]

theorem Tree.search {B : Nat × Nat → Nat × Nat} (h : Tree B (longer T) own free N ts.mm) (hT : T.Fits)
    (hB : ∀ q, (B q).2 = (bestTag T q).2) (ip : BitVec 32) (hturns : 3 ≤ turns) :
    tsSearch turns ts ip = .ok ((best T 32 ip.toNat).elim 0 (·.2)) := by
  have hleaf : ∀ j ≤ 2, (j, topBits ip (width j)) ∉ longer T →
      (B (j, topBits ip (width j))).2 = (bestTag T (2, topBits ip (width 2))).2 := by
    intro j hj hC
    have hnot : ¬HasLonger T (j, topBits ip (width j)) := fun hlonger => hC ((mem_longer hT).2 hlonger)
    rw [hB, bestTag_path (show j + (2 - j) = 2 by omega) hnot]
  rw [tsSearch, l1_eq own]
  refine (searchLoop_spec h (Nat.zero_le 2) (topBits_lt ip (by decide)) (show 3 ≤ 0 + turns by omega) hleaf).trans ?_
  have hip : topBits ip (width 2) = ip.toNat := by simp [topBits, width]
  rw [hip, bestTag]
  show Except.ok ((best T 32 ip.toNat).getD (0, 0)).2 = _
  cases best T 32 ip.toNat <;> rfl

theorem TsHolds.search (h : TsHolds T ts) (ip : BitVec 32) (hturns : 3 ≤ turns) :
    tsSearch turns ts ip = .ok ((best T 32 ip.toNat).elim 0 (·.2)) := by
  obtain ⟨hfits, -, own, free, N, htree⟩ := h
  exact htree.search hfits (fun _ => rfl) ip hturns

/-! ### The empty table -/

private theorem not_hasLonger_empty : ¬HasLonger Table.empty q := by
  rintro ⟨len, v, -, hne, -⟩
  exact hne rfl

private theorem longer_empty : longer Table.empty = ∅ := by
  ext q
  rw [mem_longer Table.good_empty.fits]
  simp [not_hasLonger_empty]

private theorem bestTag_empty : bestTag Table.empty q = (0, 0) := by
  have : best (Table.empty : Table Nat) (width q.1) q.2 = none := best_eq_none_iff.2 fun _ _ => rfl
  rw [bestTag, this]
  rfl

theorem tsHolds_init : TsHolds Table.empty tsInit where
  fits := Table.good_empty.fits
  aux := represents_empty
  tree := by
    rw [longer_empty]
    refine ⟨fun _ => 0, [], 0, ⟨by simp, by simp, fun q _ => ?_, fun _ _ => rfl⟩, ?_⟩
    · rw [content_of_not_mem (Finset.notMem_empty q), bestTag_empty]
      rfl
    · exact ⟨by omega, rfl, rfl, by simp [tsInit, Tidy], by simp [tsInit, freed], List.nodup_nil, by simp, by simp⟩

/-! ### Runs -/

/-- The calls the table is made for: prefixes of 1 to 32 bits with next hops of up to 25 bits, not 0, and when a prefix
is deleted, one that is there. -/
def CallLegal (T : Table Nat) : RouteOp Nat → Prop
  | .insert _ cidr nhi => (1 ≤ cidr ∧ cidr ≤ 32) ∧ 0 < nhi ∧ nhi < 2 ^ 25
  | .delete ip cidr => (1 ≤ cidr ∧ cidr ≤ 32) ∧ T cidr (topBits ip cidr) ≠ none

instance (T : Table Nat) : DecidablePred (CallLegal T)
  | .insert _ cidr nhi => inferInstanceAs (Decidable ((1 ≤ cidr ∧ cidr ≤ 32) ∧ 0 < nhi ∧ nhi < 2 ^ 25))
  | .delete ip cidr => inferInstanceAs (Decidable ((1 ≤ cidr ∧ cidr ≤ 32) ∧ T cidr (topBits ip cidr) ≠ none))

/-- Such a call, when there are blocks for the table behind it. -/
def TsLegal (T : Table Nat) (op : RouteOp Nat) : Prop := CallLegal T op ∧ blocks (op.apply T) < 32 * 4096 - 1

/-- The calls with any next hop of up to 25 bits; a prefix is deleted when it is there and not under one with the next
hop 0. -/
def ZeroCall (T : Table Nat) : RouteOp Nat → Prop
  | .insert _ cidr nhi => (1 ≤ cidr ∧ cidr ≤ 32) ∧ nhi < 2 ^ 25
  | .delete ip cidr => (1 ≤ cidr ∧ cidr ≤ 32) ∧ T cidr (topBits ip cidr) ≠ none ∧ ZeroFree T ip cidr

instance (T : Table Nat) : DecidablePred (ZeroCall T)
  | .insert _ cidr nhi => inferInstanceAs (Decidable ((1 ≤ cidr ∧ cidr ≤ 32) ∧ nhi < 2 ^ 25))
  | .delete ip cidr =>
    inferInstanceAs (Decidable ((1 ≤ cidr ∧ cidr ≤ 32) ∧ T cidr (topBits ip cidr) ≠ none ∧ ZeroFree T ip cidr))

/-- Such a call, when there are blocks for the table behind it. -/
def ZeroLegal (T : Table Nat) (op : RouteOp Nat) : Prop := ZeroCall T op ∧ blocks (op.apply T) < 32 * 4096 - 1

def tsStep (turns : Nat) (ts : TsTree) : RouteOp Nat → Except Fault TsTree
  | .insert ip cidr nhi => (tsInsertPrefix turns ts ip cidr nhi).map (·.1)
  | .delete ip cidr => tsDeletePrefix turns ts ip cidr

private theorem TsHolds.step (hturns : 3 ≤ turns) (h : TsHolds T ts) (op : RouteOp Nat) (hlegal : ZeroLegal T op) :
    ∃ ts', tsStep turns ts op = .ok ts' ∧ TsHolds (op.apply T) ts' := by
  obtain ⟨hcall, hroom⟩ := hlegal
  cases op with
  | insert ip cidr nhi =>
    obtain ⟨ts', hrun, hts'⟩ := h.insert ip hcall.1 hcall.2 (Nat.lt_of_lt_of_le hroom (by decide)) hturns
    exact ⟨ts', by rw [tsStep, hrun]; rfl, hts'⟩
  | delete ip cidr => exact h.delete ip hcall.1 hcall.2.1 hcall.2.2 hturns

theorem tsHolds_run (hturns : 3 ≤ turns) {ops : List (RouteOp Nat)} (h : TsHolds T ts)
    (hops : Allowed RouteOp.apply ZeroLegal T ops) :
    ∃ ts', run (tsStep turns) ts ops = .ok ts' ∧ TsHolds (ops.foldl RouteOp.apply T) ts' :=
  run_refines (R := TsHolds) (fun _ _ op hts => hts.step hturns op) h hops

private theorem CallLegal.good {op : RouteOp Nat} (h : CallLegal T op) (hT : T.Good) : (op.apply T).Good := by
  cases op with
  | insert ip cidr nhi =>
    exact hT.change fun n hn => ⟨h.1.1, h.1.2, topBits_lt ip h.1.2, by cases hn; exact h.2⟩
  | delete ip cidr => exact hT.change fun n hn => by cases hn

private theorem CallLegal.zeroCall {op : RouteOp Nat} (h : CallLegal T op) (hT : T.Good) : ZeroCall T op := by
  cases op with
  | insert ip cidr nhi => exact ⟨h.1, h.2.2⟩
  | delete ip cidr => exact ⟨h.1, h.2, hT.zeroFree ip cidr⟩

/-- Where no prefix has the next hop 0, none is deleted under one. -/
private theorem zeroLegal_of_tsLegal {ops : List (RouteOp Nat)} (hT : T.Good)
    (h : Allowed RouteOp.apply TsLegal T ops) :
    Allowed RouteOp.apply ZeroLegal T ops := by
  induction ops generalizing T with
  | nil => trivial
  | cons op ops ih =>
    obtain ⟨⟨hcall, hroom⟩, hrest⟩ := h
    exact ⟨⟨hcall.zeroCall hT, hroom⟩, ih (hcall.good hT) hrest⟩

private theorem tsHolds_of_tsLegal (hturns : 3 ≤ turns) {ops : List (RouteOp Nat)}
    (h : Allowed RouteOp.apply TsLegal Table.empty ops) :
    ∃ ts, run (tsStep turns) tsInit ops = .ok ts ∧ TsHolds (Table.after ops) ts :=
  tsHolds_run hturns tsHolds_init (zeroLegal_of_tsLegal Table.good_empty h)

/-- After every sequence of legal calls `ts_search` returns for each address the next hop of its longest prefix, and 0 if
there is none. -/
theorem tsTable_refines (turns : Nat) (hturns : 3 ≤ turns) (ops : List (RouteOp Nat))
    (h : Allowed RouteOp.apply TsLegal Table.empty ops) :
    ∃ ts, run (tsStep turns) tsInit ops = .ok ts ∧
      ∀ ip, tsSearch turns ts ip = .ok ((best (Table.after ops) 32 ip.toNat).elim 0 (·.2)) := by
  obtain ⟨ts, hrun, hts⟩ := tsHolds_of_tsLegal hturns h
  exact ⟨ts, hrun, fun ip => hts.search ip hturns⟩

/-! ### How many blocks a table needs -/

/-- A larger table needs at least as many blocks. -/
theorem blocks_mono {T' : Table Nat} (hT : T.Fits) (hT' : T'.Fits) (h : ∀ len v, T len v ≠ none → T' len v ≠ none) :
    blocks T ≤ blocks T' := by
  refine Finset.card_le_card fun q hq => ?_
  obtain ⟨len, v, hlen, hv, heq⟩ := (mem_longer hT).1 hq
  exact (mem_longer hT').2 ⟨len, v, hlen, h len v hv, heq⟩

/-- An insertion adds at most one block on each of two levels. -/
private theorem blocks_insert_le (hT : T.Fits) {cidr nhi : Nat} (hcidr : cidr ≤ 32)
    (hT' : Table.Fits (assign T cidr (topBits ip cidr) (some nhi))) :
    blocks (assign T cidr (topBits ip cidr) (some nhi)) ≤ blocks T + 2 := by
  have hsub : longer (assign T cidr (topBits ip cidr) (some nhi)) ⊆
      longer T ∪ {(0, topBits ip (width 0)), (1, topBits ip (width 1))} := by
    intro q hq
    obtain hold | ⟨-, hlt, hpath⟩ := (mem_longer_insert hT hcidr hT').1 hq
    · exact Finset.mem_union_left _ hold
    · obtain ⟨j, y⟩ := q
      have hj : j = 0 ∨ j = 1 := by
        unfold width at hlt
        simp only at hlt
        omega
      obtain rfl | rfl := hj
      · exact Finset.mem_union_right _ (by simpa using hpath.symm)
      · exact Finset.mem_union_right _ (by simpa using hpath.symm)
  have hcard := Finset.card_le_card hsub
  have htwo := Finset.card_le_two (a := (0, topBits ip (width 0))) (b := (1, topBits ip (width 1)))
  have hunion := Finset.card_union_le (longer T) {(0, topBits ip (width 0)), (1, topBits ip (width 1))}
  exact hcard.trans (by unfold blocks; omega)

private theorem blocks_erase_le (hT : T.Fits) {cidr v : Nat} : blocks (assign T cidr v none) ≤ blocks T := by
  refine blocks_mono (hT.change fun nhi hnhi => by cases hnhi) hT fun len u hu => ?_
  by_cases heq : len = cidr ∧ u = v
  · exact absurd (if_pos heq) hu
  · rwa [assign, if_neg heq] at hu

private theorem ZeroCall.fits {op : RouteOp Nat} (h : ZeroCall T op) (hT : T.Fits) : (op.apply T).Fits := by
  cases op with
  | insert ip cidr nhi =>
    exact hT.change fun n hn => ⟨h.1.1, h.1.2, topBits_lt ip h.1.2, by cases hn; exact h.2⟩
  | delete ip cidr => exact hT.change fun n hn => by cases hn

private theorem ZeroCall.blocks_le {op : RouteOp Nat} (h : ZeroCall T op) (hT : T.Fits) :
    blocks (op.apply T) ≤ blocks T + 2 := by
  have hfits := h.fits hT
  cases op with
  | insert ip cidr nhi => exact blocks_insert_le hT h.1.2 hfits
  | delete ip cidr => exact (blocks_erase_le hT).trans (Nat.le_add_right _ _)

/-- There are blocks for every sequence of up to 65535 calls that each add at most two. -/
private theorem allowed_room {legal : Table Nat → RouteOp Nat → Prop} {I : Table Nat → Prop}
    (hstep : ∀ T op, I T → legal T op → I (op.apply T) ∧ blocks (op.apply T) ≤ blocks T + 2)
    {ops : List (RouteOp Nat)} (hT : I T) (hlen : blocks T + 2 * ops.length < 32 * 4096 - 1)
    (h : Allowed RouteOp.apply legal T ops) :
    Allowed RouteOp.apply (fun T op => legal T op ∧ blocks (op.apply T) < 32 * 4096 - 1) T ops ∧
      blocks (ops.foldl RouteOp.apply T) < 32 * 4096 - 1 := by
  induction ops generalizing T with
  | nil => exact ⟨trivial, Nat.lt_of_le_of_lt (Nat.le_add_right _ _) hlen⟩
  | cons op ops ih =>
    obtain ⟨hcall, hrest⟩ := h
    obtain ⟨hT', hblocks⟩ := hstep T op hT hcall
    rw [List.length_cons] at hlen
    obtain ⟨hallowed, hlast⟩ := ih hT' (by omega) hrest
    exact ⟨⟨⟨hcall, by omega⟩, hallowed⟩, hlast⟩

theorem zeroLegal_of_length {ops : List (RouteOp Nat)} (hT : T.Fits) (hlen : blocks T + 2 * ops.length < 32 * 4096 - 1)
    (h : Allowed RouteOp.apply ZeroCall T ops) :
    Allowed RouteOp.apply ZeroLegal T ops ∧ blocks (ops.foldl RouteOp.apply T) < 32 * 4096 - 1 :=
  allowed_room (fun _ _ hT hcall => ⟨hcall.fits hT, hcall.blocks_le hT⟩) hT hlen h

private theorem allowed_of_length {ops : List (RouteOp Nat)} (hT : T.Good)
    (hlen : blocks T + 2 * ops.length < 32 * 4096 - 1)
    (h : Allowed RouteOp.apply CallLegal T ops) : Allowed RouteOp.apply TsLegal T ops :=
  (allowed_room (fun _ _ hT hcall => ⟨hcall.good hT, (hcall.zeroCall hT).blocks_le hT.fits⟩) hT hlen h).1

theorem blocks_empty : blocks Table.empty = 0 := by rw [blocks, longer_empty, Finset.card_empty]

/-- 10.0.0.0/8, 10.1.2.0/24 and 10.1.2.3/32 are inserted, and the second one is deleted. -/
def routeOps : List (RouteOp Nat) :=
  [.insert 0x0a000000 8 1, .insert 0x0a010200 24 2, .insert 0x0a010203 32 3, .delete 0x0a010200 24]

private theorem allowed_routeOps : Allowed RouteOp.apply CallLegal Table.empty routeOps :=
  ⟨by decide, by decide, by decide, by decide, trivial⟩

theorem tsTable_refines_routes :
    Allowed RouteOp.apply TsLegal Table.empty routeOps ∧
      ∃ ts, run (tsStep 3) tsInit routeOps = .ok ts ∧ tsSearch 3 ts 0x0a010203 = .ok 3 ∧
        tsSearch 3 ts 0x0a010204 = .ok 1 ∧ tsSearch 3 ts 0x0b000000 = .ok 0 := by
  have hlegal : Allowed RouteOp.apply TsLegal Table.empty routeOps :=
    allowed_of_length Table.good_empty (by rw [blocks_empty]; decide) allowed_routeOps
  obtain ⟨ts, hrun, hsearch⟩ := tsTable_refines 3 (by decide) routeOps hlegal
  refine ⟨hlegal, ts, hrun, (hsearch _).trans ?_, (hsearch _).trans ?_, (hsearch _).trans ?_⟩
  · rfl
  · rfl
  · rfl

/-! ### Which blocks are in use -/

/-- The entry for the first 16 bits `x`. -/
def level16 (mm : MemCache) (x : Nat) : Entry := mm.mem (.l1 x)

/-- The entry for the first 24 bits `y`, where the one for the first 16 is a child entry. -/
def level24 (mm : MemCache) (y : Nat) : Entry := mm.mem ((getEntry (level16 mm (y / 256)).index).add (y % 256))

/-- A child entry of the table has the index. -/
def Referenced (mm : MemCache) (index : Nat) : Prop :=
  (∃ x < 2 ^ 16, (level16 mm x).child = true ∧ (level16 mm x).index = index) ∨
    ∃ y < 2 ^ 24, (level16 mm (y / 256)).child = true ∧ (level24 mm y).child = true ∧ (level24 mm y).index = index

variable {B : Nat × Nat → Nat × Nat}

private theorem content_child : (content B C own q).child = true ↔ q ∈ C := by
  unfold content
  split <;> simp_all

private theorem Tree.level24_eq (h : Tree B C own free N mm) {y : Nat} (hC : (0, y / 256) ∈ C) :
    level24 mm y = content B C own (1, y) := by
  have hlevel16 : level16 mm (y / 256) = content B C own (0, y / 256) := h.shape.entry _ (h.shape.child _ hC).2
  rw [level24, hlevel16, content_of_mem hC, getEntry_blockNo, blockPtr_add, Nat.zero_add]
  exact h.shape.entry (1, y) hC

private theorem Tree.referenced (h : Tree B C own free N mm) (hq : q ∈ C) : Referenced mm (blockNo (own q)) := by
  obtain ⟨hlevel, hlive⟩ := h.shape.child q hq
  match q, hlevel, hlive, hq with
  | (0, x), _, hlive, hq =>
    have hentry : level16 mm x = content B C own (0, x) := h.shape.entry (0, x) hlive
    exact .inl ⟨x, hlive, by rw [hentry, content_of_mem hq]; exact ⟨rfl, rfl⟩⟩
  | (1, y), _, hlive, hq =>
    have habove : (0, y / 256) ∈ C := hlive
    have hx : y / 256 < 2 ^ 16 := (h.shape.child _ habove).2
    have hentry : level16 mm (y / 256) = content B C own (0, y / 256) := h.shape.entry (0, y / 256) hx
    refine .inr ⟨y, by omega, by rw [hentry, content_of_mem habove], ?_⟩
    rw [h.level24_eq habove, content_of_mem hq]
    exact ⟨rfl, rfl⟩

/-- A block that no child entry points to is zero. -/
private theorem Tree.unreferenced (h : Tree B C own free N mm) (hn : ¬Referenced mm (blockNo n)) {j : Nat}
    (hj : j < 256) :
    mm.mem ((getEntry (blockNo n)).add j) = .zero := by
  rw [getEntry_blockNo, blockPtr_add, Nat.zero_add]
  refine h.shape.zero _ fun q hlive => loc_ne_block (fun q hq hown => hn ?_) hlive hj
  rw [← hown]
  exact h.referenced hq

private theorem blockNo_lt_iff {n n' : Nat} : blockNo n < blockNo n' ↔ n < n' := by
  unfold blockNo
  omega

/-- The blocks that were handed out and did not come back. -/
def inUse (mm : MemCache) : Finset Nat :=
  (Finset.range (32 * 4096)).filter fun n => blockNo n < mm.currIndex ∧ blockNo n ∉ freed mm.freeIndex

private theorem Tree.inUse_eq (h : Tree B C own free N mm) : inUse mm = C.image own := by
  ext n
  have hroom := h.pool.room
  have hsplit := h.pool.split n
  have hfreed : blockNo n ∈ freed mm.freeIndex ↔ n ∈ free := by
    rw [h.pool.listed.mem_iff, List.mem_map]
    constructor
    · rintro ⟨m, hm, heq⟩
      rwa [← blockNo_inj heq]
    · exact fun hm => ⟨n, hm, rfl⟩
  rw [inUse, Finset.mem_filter, Finset.mem_range, h.pool.index, blockNo_lt_iff, hfreed]
  constructor
  · rintro ⟨-, hlt, hnot⟩
    exact (hsplit.1 hlt).resolve_left hnot
  · intro hused
    have hlt := hsplit.2 (.inr hused)
    exact ⟨by omega, hlt, fun hfree => h.pool.apart n hfree hused⟩

/-- The number of blocks in use is the one that `TsLegal` counts. -/
theorem TsHolds.card_inUse (h : TsHolds T ts) : (inUse ts.mm).card = blocks T := by
  obtain ⟨-, -, own, free, N, htree⟩ := h
  rw [htree.inUse_eq, htree.card_image, blocks]

private theorem TsHolds.level16_child (h : TsHolds T ts) {x : Nat} (hx : x < 2 ^ 16) :
    (level16 ts.mm x).child = true ↔ HasLonger T (0, x) := by
  obtain ⟨hfits, -, own, free, N, htree⟩ := h
  have hentry : level16 ts.mm x = content (bestTag T) (longer T) own (0, x) := htree.shape.entry (0, x) hx
  rw [hentry, content_child, mem_longer hfits]

private theorem TsHolds.level24_child (h : TsHolds T ts) {y : Nat} (hy : y < 2 ^ 24) :
    (level16 ts.mm (y / 256)).child = true ∧ (level24 ts.mm y).child = true ↔ HasLonger T (1, y) := by
  rw [h.level16_child (by omega)]
  obtain ⟨hfits, -, own, free, N, htree⟩ := h
  have hchild : HasLonger T (0, y / 256) → ((level24 ts.mm y).child = true ↔ HasLonger T (1, y)) := by
    intro hlonger
    rw [htree.level24_eq ((mem_longer hfits).2 hlonger), content_child, mem_longer hfits]
  constructor
  · rintro ⟨habove, hentry⟩
    exact (hchild habove).1 hentry
  · intro hlonger
    exact ⟨hlonger.parent, (hchild hlonger.parent).2 hlonger⟩

/-- Nothing is left of an empty table. -/
theorem TsHolds.all_free (h : TsHolds Table.empty ts) :
    (∀ x < 2 ^ 16, level16 ts.mm x = .zero) ∧
      ∀ n, blockNo n < ts.mm.currIndex → blockNo n ∈ freed ts.mm.freeIndex := by
  obtain ⟨-, -, own, free, N, htree⟩ := h
  rw [longer_empty] at htree
  constructor
  · intro x hx
    have hentry : level16 ts.mm x = content (bestTag Table.empty) ∅ own (0, x) := htree.shape.entry (0, x) hx
    rw [hentry, content_of_not_mem (Finset.notMem_empty _), bestTag_empty]
    rfl
  · intro n hn
    rw [htree.pool.index, blockNo_lt_iff, htree.pool.split] at hn
    rw [htree.pool.listed.mem_iff]
    exact List.mem_map_of_mem (hn.resolve_right (by simp))

/-- After every sequence of legal calls there are blocks exactly where the table has longer prefixes, all other blocks are
zero, and if the table is empty, all blocks are in the free list. -/
theorem tsBlocks_reclaimed (turns : Nat) (hturns : 3 ≤ turns) (ops : List (RouteOp Nat))
    (h : Allowed RouteOp.apply TsLegal Table.empty ops) :
    ∃ ts, run (tsStep turns) tsInit ops = .ok ts ∧
      (∀ x < 2 ^ 16, (level16 ts.mm x).child = true ↔ HasLonger (Table.after ops) (0, x)) ∧
      (∀ y < 2 ^ 24, (level16 ts.mm (y / 256)).child = true ∧ (level24 ts.mm y).child = true ↔
        HasLonger (Table.after ops) (1, y)) ∧
      (∀ n < 32 * 4096, ¬Referenced ts.mm (blockNo n) → ∀ j < 256, ts.mm.mem ((getEntry (blockNo n)).add j) = .zero) ∧
      (Table.after ops = Table.empty → (∀ x < 2 ^ 16, level16 ts.mm x = .zero) ∧
        ∀ n < 32 * 4096, blockNo n < ts.mm.currIndex → blockNo n ∈ freed ts.mm.freeIndex) := by
  obtain ⟨ts, hrun, hts⟩ := tsHolds_of_tsLegal hturns h
  refine ⟨ts, hrun, fun x => hts.level16_child, fun y => hts.level24_child, fun n _ hn j hj => ?_, fun hempty => ?_⟩
  · obtain ⟨own, free, N, htree⟩ := hts.tree
    exact htree.unreferenced hn hj
  · rw [hempty] at hts
    exact ⟨hts.all_free.1, fun n _ => hts.all_free.2 n⟩

/-- 10.1.2.3/32 is inserted and deleted again. -/
theorem tsBlocks_reclaimed_host :
    Allowed RouteOp.apply TsLegal Table.empty [.insert 0x0a010203 32 3, .delete 0x0a010203 32] ∧
      ∃ ts, run (tsStep 3) tsInit [.insert 0x0a010203 32 3, .delete 0x0a010203 32] = .ok ts ∧
        ∀ x < 2 ^ 16, level16 ts.mm x = .zero := by
  have hlegal : Allowed RouteOp.apply TsLegal Table.empty [.insert 0x0a010203 32 3, .delete 0x0a010203 32] :=
    allowed_of_length Table.good_empty (by rw [blocks_empty]; decide) ⟨by decide, by decide, trivial⟩
  obtain ⟨ts, hrun, -, -, -, hempty⟩ := tsBlocks_reclaimed 3 (by decide) _ hlegal
  refine ⟨hlegal, ts, hrun, (hempty ?_).1⟩
  funext len v
  simp [Table.after, RouteOp.apply, assign, Table.empty]

end StubProfile.Route
