import Mathlib.Algebra.BigOperators.Group.Finset.Basic
import Mathlib.Algebra.BigOperators.Ring.Finset
import StubProfile.Manager.Blocks

/-!
# What the memory manager can hold

Whole runs of the memory manager.  The calls keep the blocks in order (`managed_private`).  A block that is given back
is used again only for the same number of nodes, so what is cut from the cube is, for each number of nodes, as many
blocks as were in use at the same time at most.  A request fails exactly when these blocks, with the one asked for, do
not fit into the cube (`managed_capacity`).
-/

namespace StubProfile.Manager

open LinkRing Links Machine
open scoped List

variable {count i nodeSize stride nodeNum : Nat} {free : Nat → List Nat} {carved : List Block} {s : Managed}
  {mm : MemManager} {m : Memory Place} {calls : List MmCall}

/-! ### The start -/

private theorem initHeads_spec {heads loose : List Place} {rings : List (Place × List Place)}
    (hr : Represents ⟨rings, heads ++ loose⟩ m) :
    ∃ m', initHeads m heads = .ok m' ∧ Represents ⟨heads.reverse.map (·, []) ++ rings, loose⟩ m' := by
  induction heads generalizing rings m with
  | nil => exact ⟨m, rfl, hr⟩
  | cons p heads ih =>
    obtain ⟨m₁, h1, hr1⟩ := hr.initListHead
    obtain ⟨m', h2, hr2⟩ := ih hr1
    refine ⟨m', ?_, ?_⟩
    · rw [initHeads, List.foldlM_cons, h1]
      exact h2
    · simpa using hr2

private theorem callocHeads_represents (count : Nat) :
    Represents ⟨[], (List.range count).map .head⟩ (callocHeads count) where
  nodup := List.nodup_range.map fun _ _ h => Place.head.inj h
  live p := by cases p <;> simp [callocHeads, Lists.cells]
  ring := by simp

private theorem initMemManager_sound (stride nodeSize : Nat) :
    ∃ mm, initMemManager stride nodeSize = .ok mm ∧
      Sound (headCount stride) nodeSize (fun _ => []) [] (.start mm) := by
  have hcalloc := callocHeads_represents (headCount stride)
  rw [← List.append_nil ((List.range _).map _)] at hcalloc
  obtain ⟨links, hinit, hlinks⟩ := initHeads_spec hcalloc
  refine ⟨⟨0, cubeSize, links, nodeSize, fun _ => 0, fun _ => 0⟩, ?_, ?_⟩
  · simp only [initMemManager, hinit, ok_bind]
    rfl
  · refine ⟨⟨rfl, by simp, .nil, rfl, by simp [Managed.start], by simp⟩, ?_, ?_, by simp [Managed.start], ?_, ?_⟩
    · refine hlinks.forget (.of_perm ?_ (.refl _))
      rw [List.append_nil, ← List.map_reverse, List.map_map]
      exact (List.reverse_perm _).symm.map _
    · simp [Managed.start, freeBlocks]
    · exact fun _ _ => rfl
    · simp [Managed.start]

/-! ### Runs -/

private theorem blockSize_lt (hsize : blockSize nodeSize (headCount stride) < 2 ^ 32)
    (hn : nodeNum ≤ headCount stride) :
    blockSize nodeSize nodeNum < 2 ^ 32 := by
  refine Nat.lt_of_le_of_lt ?_ hsize
  exact Nat.add_le_add_right (Nat.mul_le_mul_right _ hn) _

/-- A legal call does not fault, and the blocks are in order afterwards. -/
private theorem Sound.step (hs : Sound (headCount stride) nodeSize free carved s)
    (hsize : blockSize nodeSize (headCount stride) < 2 ^ 32) {call : MmCall} (hlegal : MmLegal stride s call) :
    ∃ s', managedStep s call = .ok s' ∧ ∃ free carved, Sound (headCount stride) nodeSize free carved s' := by
  cases call with
  | alloc nodeNum =>
    have hcount : nodeNum ≤ headCount stride := hlegal
    obtain rfl | hn := Nat.eq_zero_or_pos nodeNum
    · exact ⟨s, rfl, free, carved, hs⟩
    cases hfree : free (nodeNum - 1) with
    | nil =>
      by_cases hroom : blockSize nodeSize nodeNum ≤ s.mm.space
      · obtain ⟨mm, mem, hcall, hs'⟩ := hs.alloc_new hn hcount hfree (blockSize_lt hsize hcount) hroom
        exact ⟨_, by simp only [managedStep, hcall, ok_bind]; rfl, _, _, hs'⟩
      · have hcall := hs.alloc_none hn hcount hfree (blockSize_lt hsize hcount) (Nat.lt_of_not_le hroom)
        exact ⟨s, by simp only [managedStep, hcall, ok_bind]; rfl, _, _, hs⟩
    | cons o offsets =>
      obtain ⟨mm, mem, hcall, hs'⟩ := hs.alloc_reuse hn hcount (blockSize_lt hsize hcount) hfree
      exact ⟨_, by simp only [managedStep, hcall, ok_bind]; rfl, _, _, hs'⟩
  | dealloc mem =>
    obtain ⟨b, hb, rfl⟩ := hlegal
    obtain ⟨mm, hcall, hs'⟩ := hs.dealloc hb
    exact ⟨_, by simp only [managedStep, hcall, ok_bind]; rfl, _, _, hs'⟩
  | write mem k byte =>
    obtain ⟨b, hb, rfl, hk⟩ := hlegal
    rw [hs.size] at hk
    exact ⟨_, rfl, _, _, hs.write hb hk byte⟩

private theorem managed_sound (hsize : blockSize nodeSize (headCount stride) < 2 ^ 32)
    (hinit : initMemManager stride nodeSize = .ok mm)
    (hcalls : Obeys managedStep (MmLegal stride) (.start mm) calls) :
    ∃ s, run managedStep (.start mm) calls = .ok s ∧
      ∃ free carved, Sound (headCount stride) nodeSize free carved s := by
  obtain ⟨mm', hinit', hs⟩ := initMemManager_sound stride nodeSize
  obtain rfl : mm = mm' := Except.ok.inj (hinit.symm.trans hinit')
  refine run_of_obeys (fun s call hs hlegal => ?_) ⟨_, _, hs⟩ hcalls
  obtain ⟨free, carved, hs⟩ := hs
  exact hs.step hsize hlegal

/-- If the size of the largest block fits in 32 bits and the callers ask for at most `2 * 2^stride` nodes at a time, then
whatever they do with the blocks they have, the manager does not fault, the blocks in use lie in the cube and apart from
each other with their headers, and each holds what its own caller wrote since it was handed out, zeros elsewhere. -/
theorem managed_private (hsize : blockSize nodeSize (headCount stride) < 2 ^ 32)
    (hinit : initMemManager stride nodeSize = .ok mm)
    (hcalls : Obeys managedStep (MmLegal stride) (.start mm) calls) :
    ∃ s, run managedStep (.start mm) calls = .ok s ∧ s.held.Pairwise (Apart nodeSize) ∧
      ∀ b ∈ s.held, b.stop nodeSize ≤ cubeSize ∧
        ∀ k < b.nodes * nodeSize, s.mm.bytes (b.mem + k) = s.contents b.mem k := by
  obtain ⟨s, hrun, free, carved, hs⟩ := managed_sound hsize hinit hcalls
  refine ⟨s, hrun, ?_, fun b hb => ⟨?_, hs.contents b hb⟩⟩
  · have hall : (s.held ++ freeBlocks (headCount stride) free).Pairwise (Apart nodeSize) :=
      hs.split.symm.pairwise hs.apart fun h => Or.symm h
    exact (List.pairwise_append.1 hall).1
  · have hwithin := hs.within b (hs.mem_carved hb)
    have hspace := hs.space
    omega

/-- Two blocks of two nodes, both written to; the first one is given back and handed out again. -/
def reuseCalls : List MmCall :=
  [.alloc 2, .alloc 2, .write 24 3 7, .write 80 5 9, .dealloc 24, .alloc 2]

/-- The block that is handed out again has zeros, and the other one what was written to it. -/
theorem managed_private_reuse : ∃ mm s, initMemManager 4 16 = .ok mm ∧
    run managedStep (.start mm) reuseCalls = .ok s ∧ s.held = [⟨0, 2⟩, ⟨56, 2⟩] ∧
      s.held.Pairwise (Apart 16) ∧ s.mm.bytes (24 + 3) = 0 ∧ s.mm.bytes (80 + 5) = 9 := by
  obtain ⟨mm, hinit⟩ : ∃ mm, initMemManager 4 16 = .ok mm := ⟨_, rfl⟩
  have hcalls : Obeys managedStep (MmLegal 4) (.start mm) reuseCalls := by
    cases hinit
    refine Obeys.cons (show 2 ≤ headCount 4 by decide) rfl (Obeys.cons (show 2 ≤ headCount 4 by decide) rfl ?_)
    refine Obeys.cons ⟨⟨0, 2⟩, List.mem_cons_of_mem _ List.mem_cons_self, rfl, show 3 < 2 * 16 by decide⟩ rfl ?_
    refine Obeys.cons ⟨⟨56, 2⟩, List.mem_cons_self, rfl, show 5 < 2 * 16 by decide⟩ rfl ?_
    refine Obeys.cons ⟨⟨0, 2⟩, List.mem_cons_of_mem _ List.mem_cons_self, rfl⟩ rfl ?_
    exact Obeys.cons (show 2 ≤ headCount 4 by decide) rfl trivial
  obtain ⟨s, hrun, hapart, hblocks⟩ := managed_private (by decide) hinit hcalls
  obtain ⟨hheld, hfirst, hsecond⟩ :
      s.held = [⟨0, 2⟩, ⟨56, 2⟩] ∧ s.contents 24 3 = 0 ∧ s.contents 80 5 = 9 := by
    cases hinit
    cases hrun
    exact ⟨rfl, rfl, rfl⟩
  refine ⟨mm, s, hinit, hrun, hheld, hapart, ?_, ?_⟩
  · exact ((hblocks ⟨0, 2⟩ (by simp [hheld])).2 3 (by decide)).trans hfirst
  · exact ((hblocks ⟨56, 2⟩ (by simp [hheld])).2 5 (by decide)).trans hsecond

/-! ### The room that is needed -/

/-- The room for the given number of blocks of each kind. -/
def demand (count nodeSize : Nat) (blocks : Nat → Nat) : Nat :=
  ∑ i ∈ Finset.range count, blockSize nodeSize (i + 1) * blocks (i + 1)

private theorem demand_add (blocks : Nat → Nat) (hn : 0 < nodeNum) (hcount : nodeNum ≤ count) (k : Nat) :
    demand count nodeSize (fun n => blocks n + if n = nodeNum then k else 0) =
      demand count nodeSize blocks + blockSize nodeSize nodeNum * k := by
  obtain ⟨j, rfl⟩ : ∃ j, nodeNum = j + 1 := ⟨nodeNum - 1, by omega⟩
  have hj : j ∈ Finset.range count := Finset.mem_range.2 hcount
  simp only [demand, Nat.mul_add, Finset.sum_add_distrib, Nat.add_right_cancel_iff]
  simp [hj]

/-- The sum of the sizes of some blocks, by the number of their nodes. -/
private theorem sum_eq_demand (l : List Block) (hl : ∀ b ∈ l, 0 < b.nodes ∧ b.nodes ≤ count) :
    (l.map fun b => blockSize nodeSize b.nodes).sum =
      demand count nodeSize fun n => l.countP (·.nodes = n) := by
  induction l with
  | nil => simp [demand]
  | cons b l ih =>
    obtain ⟨⟨hpos, hle⟩, hl⟩ := List.forall_mem_cons.1 hl
    have hcount : (fun n => (b :: l).countP (·.nodes = n)) =
        fun n => l.countP (·.nodes = n) + if n = b.nodes then 1 else 0 := by
      funext n
      rw [countP_nodes_cons]
      simp only [eq_comm]
    rw [List.map_cons, List.sum_cons, ih hl, hcount, demand_add _ hpos hle, Nat.mul_one, Nat.add_comm]

private theorem Sound.left_eq (hs : Sound count nodeSize free carved s) : s.mm.left = demand count nodeSize s.peak := by
  rw [← hs.total, sum_eq_demand _ fun b hb => (hs.nodes b hb).2]
  congr 1
  funext n
  exact (hs.peak n).symm

/-- Under the same conditions the blocks cut from the cube are those needed at a time, and a request for at least one node
fails exactly when there is no room for these with the block asked for. -/
theorem managed_capacity (hsize : blockSize nodeSize (headCount stride) < 2 ^ 32)
    (hinit : initMemManager stride nodeSize = .ok mm)
    (hcalls : Obeys managedStep (MmLegal stride) (.start mm) calls)
    (hrun : run managedStep (.start mm) calls = .ok s) (hn : 0 < nodeNum) (hcount : nodeNum ≤ headCount stride) :
    s.mm.left = demand (headCount stride) nodeSize s.peak ∧
      ((∃ mm', allocNode s.mm nodeNum = .ok (mm', none)) ↔
        cubeSize < demand (headCount stride) nodeSize (s.raised nodeNum)) := by
  obtain ⟨s', hrun', free, carved, hs⟩ := managed_sound hsize hinit hcalls
  obtain rfl : s = s' := Except.ok.inj (hrun.symm.trans hrun')
  refine ⟨hs.left_eq, ?_⟩
  have hraised : demand (headCount stride) nodeSize (s.raised nodeNum) =
      s.mm.left + blockSize nodeSize nodeNum * if free (nodeNum - 1) = [] then 1 else 0 := by
    rw [hs.left_eq, ← demand_add _ hn hcount]
    congr 1
    funext n
    rw [hs.raised_eq hn hcount]
    by_cases hne : n = nodeNum <;> simp [hne]
  have hspace := hs.space
  have hblock := blockSize_lt hsize hcount
  rw [hraised]
  cases hfree : free (nodeNum - 1) with
  | nil =>
    simp only [if_true, Nat.mul_one]
    by_cases hroom : blockSize nodeSize nodeNum ≤ s.mm.space
    · obtain ⟨mm', mem, hcall, -⟩ := hs.alloc_new hn hcount hfree hblock hroom
      simp only [hcall, Except.ok.injEq, Prod.mk.injEq, reduceCtorEq, and_false, exists_false, false_iff]
      omega
    · simp only [hs.alloc_none hn hcount hfree hblock (Nat.lt_of_not_le hroom), Except.ok.injEq, Prod.mk.injEq,
        and_true, exists_eq', true_iff]
      omega
  | cons o offsets =>
    obtain ⟨mm', mem, hcall, -⟩ := hs.alloc_reuse hn hcount hblock hfree
    simp only [hcall, Except.ok.injEq, Prod.mk.injEq, reduceCtorEq, and_false, exists_false, false_iff, if_false,
      Nat.mul_zero]
    omega

/-- Nodes of 16 MiB: two blocks are cut from the cube, one of them is given back and handed out again, and a third one is
cut. -/
def fillCalls : List MmCall := [.alloc 1, .alloc 1, .dealloc 24, .alloc 1, .alloc 1]

/-- There is no room for a fourth block. -/
theorem managed_capacity_full : ∃ mm s, initMemManager 4 (2 ^ 24) = .ok mm ∧
    run managedStep (.start mm) fillCalls = .ok s ∧ s.mm.left = 3 * (2 ^ 24 + 24) ∧
      ∃ mm', allocNode s.mm 1 = .ok (mm', none) := by
  obtain ⟨mm, hinit⟩ : ∃ mm, initMemManager 4 (2 ^ 24) = .ok mm := ⟨_, rfl⟩
  have hcalls : Obeys managedStep (MmLegal 4) (.start mm) fillCalls := by
    cases hinit
    refine Obeys.cons (show 1 ≤ headCount 4 by decide) rfl (Obeys.cons (show 1 ≤ headCount 4 by decide) rfl ?_)
    refine Obeys.cons ⟨⟨0, 1⟩, List.mem_cons_of_mem _ List.mem_cons_self, rfl⟩ rfl ?_
    exact Obeys.cons (show 1 ≤ headCount 4 by decide) rfl (Obeys.cons (show 1 ≤ headCount 4 by decide) rfl trivial)
  obtain ⟨s, hrun, hpeak, hraised⟩ : ∃ s, run managedStep (.start mm) fillCalls = .ok s ∧
      demand (headCount 4) (2 ^ 24) s.peak = 3 * (2 ^ 24 + 24) ∧
      cubeSize < demand (headCount 4) (2 ^ 24) (s.raised 1) := by
    cases hinit
    exact ⟨_, rfl, by decide, by decide⟩
  obtain ⟨hleft, hnone⟩ := managed_capacity (by decide) hinit hcalls hrun (by decide : 0 < 1) (by decide)
  exact ⟨mm, s, hinit, hrun, hleft.trans hpeak, hnone.2 hraised⟩

end StubProfile.Manager
