import StubProfile.Route.BitmapSearch

/-!
# The auxiliary trie refines a table

Through every sequence of insertions and of deletions of stored prefixes, from the empty root, the tree bitmap is well
formed and represents the table that the calls lead to, and `do_search` finds the longest match in it.
-/

namespace StubProfile.Route

open LongestPrefix Machine

variable {ν : Type} {T : Table ν} {node : MbNode ν}

/-- The calls the trie is made for: a masked prefix of 1 to 32 bits, and when it is deleted, a prefix that is stored. -/
def AuxLegal (T : Table ν) : RouteOp ν → Prop
  | .insert ip cidr _ => 1 ≤ cidr ∧ cidr ≤ 32 ∧ Masked ip cidr
  | .delete ip cidr => (1 ≤ cidr ∧ cidr ≤ 32 ∧ Masked ip cidr) ∧ T cidr (topBits ip cidr) ≠ none

instance [DecidableEq ν] (T : Table ν) : DecidablePred (AuxLegal T)
  | .insert ip cidr _ => inferInstanceAs (Decidable (1 ≤ cidr ∧ cidr ≤ 32 ∧ Masked ip cidr))
  | .delete ip cidr =>
    inferInstanceAs (Decidable ((1 ≤ cidr ∧ cidr ≤ 32 ∧ Masked ip cidr) ∧ T cidr (topBits ip cidr) ≠ none))

def auxStep (node : MbNode ν) : RouteOp ν → Except Fault (MbNode ν)
  | .insert ip cidr nhi => insertAuxEntry node ip cidr nhi
  | .delete ip cidr => deleteAuxEntry node ip cidr

/-- All prefixes of the table have 1 to 32 bits. -/
def Table.Within (T : Table ν) : Prop := ∀ len v, T len v ≠ none → 1 ≤ len ∧ len ≤ 32

structure Represents (T : Table ν) (node : MbNode ν) : Prop where
  wf : node.WF
  table : ∀ len v, v < 2 ^ len → node.toTable len v = T len v
  within : T.Within

theorem represents_empty : Represents Table.empty (MbNode.empty : MbNode ν) where
  wf := MbNode.wf_empty
  table len v _ := MbNode.toTable_of_isEmpty rfl len v
  within _ _ h := absurd rfl h

theorem Represents.root (h : Represents T node) : node.toTable 0 0 = none := by
  rw [h.table 0 0 (by omega)]
  by_contra hne
  have := h.within 0 0 hne
  omega

private theorem Table.Within.change (h : T.Within) {cidr v : Nat} {entry : Option ν} (hcidr : 1 ≤ cidr ∧ cidr ≤ 32) :
    Table.Within (assign T cidr v entry) := by
  intro len u hne
  by_cases heq : len = cidr ∧ u = v
  · rw [heq.1]
    exact hcidr
  · rw [assign, if_neg heq] at hne
    exact h len u hne

private theorem Represents.changed (h : Represents T node) {node' : MbNode ν} {cidr v : Nat} {entry : Option ν}
    (hwf : node'.WF) (hcidr : 1 ≤ cidr ∧ cidr ≤ 32) (hchange : ChangedAt node.toTable node'.toTable cidr v entry) :
    Represents (assign T cidr v entry) node' where
  wf := hwf
  table len u hu := by
    rw [hchange len u hu, assign]
    split
    · rfl
    · exact h.table len u hu
  within := h.within.change hcidr

theorem Represents.insert (h : Represents T node) {ip : BitVec 32} {cidr : Nat} (nhi : ν) (hcidr : 1 ≤ cidr ∧ cidr ≤ 32)
    (hmask : Masked ip cidr) :
    ∃ node', insertAuxEntry node ip cidr nhi = .ok node' ∧
      Represents (assign T cidr (topBits ip cidr) (some nhi)) node' := by
  obtain ⟨node', hins, hwf, -, hchange⟩ := insertEntry_spec h.wf nhi hmask hcidr.2
  exact ⟨node', by rw [insertAuxEntry, hins]; rfl, h.changed hwf hcidr hchange⟩

theorem Represents.delete (h : Represents T node) {ip : BitVec 32} {cidr : Nat} (hcidr : 1 ≤ cidr ∧ cidr ≤ 32)
    (hmask : Masked ip cidr) (hsome : T cidr (topBits ip cidr) ≠ none) :
    ∃ node', deleteAuxEntry node ip cidr = .ok node' ∧ Represents (assign T cidr (topBits ip cidr) none) node' := by
  rw [← h.table cidr _ (topBits_lt ip hcidr.2)] at hsome
  obtain ⟨node', hdel, hwf, hchange⟩ := deleteEntry_spec h.wf hmask hcidr.2 hsome
  exact ⟨node', by rw [deleteAuxEntry, hdel]; rfl, h.changed hwf hcidr hchange⟩

theorem Represents.step (h : Represents T node) (op : RouteOp ν) (hlegal : AuxLegal T op) :
    ∃ node', auxStep node op = .ok node' ∧ Represents (op.apply T) node' := by
  cases op with
  | insert ip cidr nhi => exact h.insert nhi ⟨hlegal.1, hlegal.2.1⟩ hlegal.2.2
  | delete ip cidr => exact h.delete ⟨hlegal.1.1, hlegal.1.2.1⟩ hlegal.1.2.2 hlegal.2

/-- The best matches of the trie are those of the table. -/
theorem Represents.best_eq (h : Represents T node) {l x : Nat} (hx : x < 2 ^ l) : best node.toTable l x = best T l x :=
  best_congr fun k hk => h.table k _ (div_lt hx hk)

theorem Represents.storedUnder (h : Represents T node) (ip : BitVec 32) (m k : Nat) :
    StoredUnder node.toTable ip m k ↔ StoredUnder T ip m k := by
  refine exists_congr fun v => and_congr_right fun hv => ?_
  rw [h.table _ v hv]

theorem Represents.search (h : Represents T node) (ip : BitVec 32) :
    doSearch node ip none = some ((best T 32 ip.toNat).map (·.2)) := by
  have hmax : ∀ len v, v < 2 ^ len → node.toTable len v ≠ none → len ≤ 4 * 8 := by
    intro len v hv hne
    rw [h.table len v hv] at hne
    exact (h.within len v hne).2
  have hip : topBits ip (4 * 8) = ip.toNat := by simp [topBits]
  rw [doSearch_eq h.wf (by omega) hmax, hip, Option.or_none, h.best_eq ip.isLt]

theorem represents_after {ops : List (RouteOp ν)} (h : Allowed RouteOp.apply AuxLegal Table.empty ops) :
    ∃ node, run auxStep .empty ops = .ok node ∧ Represents (Table.after ops) node :=
  run_refines (R := Represents) (fun _ _ op hrep => hrep.step op) represents_empty h

/-- After every sequence of legal calls the trie is well formed, its entries are those of the table, and `do_search`
returns the next hop of the longest prefix of the address. -/
theorem auxTrie_refines (ops : List (RouteOp ν)) (h : Allowed RouteOp.apply AuxLegal Table.empty ops) :
    ∃ node, run auxStep .empty ops = .ok node ∧ node.WF ∧
      (∀ len v, v < 2 ^ len → node.toTable len v = Table.after ops len v) ∧
      ∀ ip, doSearch node ip none = some ((best (Table.after ops) 32 ip.toNat).map (·.2)) := by
  obtain ⟨node, hrun, hrep⟩ := represents_after h
  exact ⟨node, hrun, hrep.wf, hrep.table, hrep.search⟩

/-- 10.0.0.0/8 and 10.1.0.0/16 are inserted, and the shorter one is deleted. -/
def nestedOps : List (RouteOp Nat) :=
  [.insert 0x0a000000 8 1, .insert 0x0a010000 16 2, .delete 0x0a000000 8]

theorem allowed_nestedOps : Allowed RouteOp.apply AuxLegal Table.empty nestedOps :=
  ⟨by decide, by decide, by decide, trivial⟩

theorem auxTrie_refines_nested :
    Allowed RouteOp.apply AuxLegal Table.empty nestedOps ∧
      ∃ node, run auxStep .empty nestedOps = .ok node ∧ doSearch node 0x0a010203 none = some (some 2) ∧
        doSearch node 0x0a020304 none = some none := by
  obtain ⟨node, hrun, -, -, hsearch⟩ := auxTrie_refines nestedOps allowed_nestedOps
  refine ⟨allowed_nestedOps, node, hrun, (hsearch _).trans ?_, (hsearch _).trans ?_⟩
  · rfl
  · rfl

end StubProfile.Route
