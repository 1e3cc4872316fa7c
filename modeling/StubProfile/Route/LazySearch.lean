import StubProfile.Route.AuxTrie

/-!
# The lazy search

`do_search_lazy` goes down the trie without a look at the rules, marks the nodes on the way, and looks for a rule from
the last node back to the first.  It finds what `do_search` finds, as long as the array of the marks is long enough:
with `LEVEL` entries, if no stored prefix of 24 bits or more has the first 24 bits of the address.
-/

namespace StubProfile.Route

open LongestPrefix Machine

variable {ν : Type} {T : Table ν} {node : MbNode ν} {ip : BitVec 32} {marks : List (MbNode ν × Nat)} {longest : Option ν}

/-- Looking back from a node: its own rule comes before those of the marks. -/
private theorem replayMarks_cons (stride : Nat) (h : replayMarks marks = some longest) :
    replayMarks ((node, stride) :: marks) = searchNode node stride longest := by
  rw [replayMarks, searchNode, h]

/-- One turn of the loop of `do_search_lazy`. -/
private theorem lazySearch_step (level : Nat) (hwf : node.WF) :
    lazySearch level node ip marks =
      match node.child (topStride ip) with
      | some sub =>
        if marks.length < level then lazySearch level sub (ip <<< 4) ((node, topStride ip) :: marks) else none
      | none => replayMarks ((node, topStride ip) :: marks) := by
  rw [lazySearch]
  simp only [countEnlBitmap, hasBit_eq]
  obtain ⟨hbit, hnone⟩ | ⟨sub, hbit, hget, hsub⟩ := hwf.child_eq (topStride_lt ip)
  · simp [hbit, hnone]
  · simp only [hbit, hsub, ↓reduceIte]
    split
    · split
      · rename_i child hchild
        rw [hget] at hchild
        cases hchild
        rfl
      · rename_i hchild
        cases hget.symm.trans hchild
    · rfl

/-- With `room` entries of the array left, the search leaves it exactly if there are nodes for more strides of the
address, and else agrees with `do_search`. -/
private theorem lazySearch_eq (level : Nat) (ip : BitVec 32) {room : Nat} (hwf : node.WF)
    (hroom : marks.length + room = level) (hbits : 4 * room + 4 ≤ 32) (hmarks : replayMarks marks = some longest) :
    ((∃ k, StoredUnder node.toTable ip (4 * room + 4) k) ∧ lazySearch level node ip marks = none) ∨
      ((¬∃ k, StoredUnder node.toTable ip (4 * room + 4) k) ∧
        lazySearch level node ip marks = doSearch node ip longest) := by
  induction room generalizing node ip marks longest with
  | zero =>
    rw [exists_storedUnder_add_four hbits, lazySearch_step level hwf, doSearch_step hwf, replayMarks_cons _ hmarks,
      searchNode_eq hwf]
    cases hsub : node.child (topStride ip) with
    | none => exact .inr ⟨by simp, rfl⟩
    | some sub =>
      obtain ⟨hne, hwf'⟩ := hwf.of_child hsub
      exact .inl ⟨⟨sub, rfl, hwf'.exists_storedUnder_zero hne⟩, if_neg (by omega)⟩
  | succ room ih =>
    rw [exists_storedUnder_add_four hbits, lazySearch_step level hwf, doSearch_step hwf]
    have hmarks' := (replayMarks_cons (topStride ip) hmarks).trans (searchNode_eq hwf longest)
    cases hsub : node.child (topStride ip) with
    | none => exact .inr ⟨by simp, hmarks'⟩
    | some sub =>
      simp only [Option.some.injEq, exists_eq_left', show marks.length < level by omega, ↓reduceIte]
      exact ih _ (hwf.of_child hsub).2 (by rw [List.length_cons]; omega) (by omega) hmarks'

private theorem Represents.doSearchLazy_cases (h : Represents T node) (ip : BitVec 32) :
    ((∃ k, StoredUnder T ip 24 k) ∧ doSearchLazy node ip = none) ∨
      ((¬∃ k, StoredUnder T ip 24 k) ∧ doSearchLazy node ip = doSearch node ip none) := by
  simp only [← h.storedUnder]
  exact lazySearch_eq lazyLevel ip h.wf (show ([] : List (MbNode ν × Nat)).length + 5 = lazyLevel from rfl) (by decide) rfl

/-- After every sequence of legal calls the lazy search of an address stays within the array of marks and returns what
`do_search` returns, exactly if no stored prefix of 24 bits or more has the first 24 bits of the address. -/
theorem doSearchLazy_agrees_iff (ops : List (RouteOp ν)) (h : Allowed RouteOp.apply AuxLegal Table.empty ops) :
    ∃ node, run auxStep .empty ops = .ok node ∧
      ∀ ip, (∃ found, doSearchLazy node ip = some found ∧ doSearch node ip none = some found) ↔
        ¬∃ k, StoredUnder (Table.after ops) ip 24 k := by
  obtain ⟨node, hrun, hrep⟩ := represents_after h
  refine ⟨node, hrun, fun ip => ?_⟩
  have hplain := hrep.search ip
  obtain ⟨hunder, hlazy⟩ | ⟨hunder, hlazy⟩ := hrep.doSearchLazy_cases ip
  · constructor
    · rintro ⟨found, hfound, -⟩
      cases hlazy.symm.trans hfound
    · exact fun hnot => absurd hunder hnot
  · exact ⟨fun _ => hunder, fun _ => ⟨_, hlazy.trans hplain, hplain⟩⟩

/-- In a table of prefixes of 8 and 16 bits. -/
theorem doSearchLazy_agrees_nested :
    Allowed RouteOp.apply AuxLegal Table.empty nestedOps ∧
      ∃ node, run auxStep .empty nestedOps = .ok node ∧
        ∃ found, doSearchLazy node 0x0a010203 = some found ∧ doSearch node 0x0a010203 none = some found := by
  obtain ⟨node, hrun, hiff⟩ := doSearchLazy_agrees_iff nestedOps allowed_nestedOps
  refine ⟨allowed_nestedOps, node, hrun, (hiff _).2 ?_⟩
  rintro ⟨k, v, -, -, hentry⟩
  have h8 : 24 + k ≠ 8 := by omega
  have h16 : 24 + k ≠ 16 := by omega
  simp [Table.after, nestedOps, RouteOp.apply, assign, Table.empty, h8, h16] at hentry

/-- The search for an address of 10.1.2.0/24 leaves the array. -/
theorem doSearchLazy_leaves_marks :
    Allowed RouteOp.apply AuxLegal Table.empty [.insert 0x0a010200 24 (1 : Nat)] ∧
      ∃ node, run auxStep .empty [.insert 0x0a010200 24 (1 : Nat)] = .ok node ∧
        doSearch node 0x0a010203 none = some (some 1) ∧ doSearchLazy node 0x0a010203 = none := by
  have hlegal : Allowed RouteOp.apply AuxLegal Table.empty [.insert 0x0a010200 24 (1 : Nat)] := ⟨by decide, trivial⟩
  obtain ⟨node, hrun, hrep⟩ := represents_after hlegal
  refine ⟨hlegal, node, hrun, (hrep.search _).trans rfl, ?_⟩
  obtain ⟨-, hlazy⟩ | ⟨hunder, -⟩ := hrep.doSearchLazy_cases 0x0a010203
  · exact hlazy
  · exact absurd ⟨0, topBits 0x0a010203 24, topBits_lt _ (by decide), by simp, by decide⟩ hunder

end StubProfile.Route
