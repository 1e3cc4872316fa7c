import Mathlib.Algebra.Ring.Nat
import Mathlib.Data.List.Pairwise
import StubProfile.Manager.MemManager

/-!
# The blocks of the memory manager

The calls of `alloc_node` and `dealloc_node` in any order, by callers that write to the blocks they have.  `Sound` says
where the blocks are: those cut from the cube lie one behind the other, and each of them is in use or in the list of
the blocks with its number of nodes.  A block in use belongs to its caller alone: it starts out as zeros and only its
caller changes it (`managed_private`).
-/

namespace StubProfile.Manager

open LinkRing Links Machine
open scoped List

/-! ### Calls -/

/-- A block, by the offset of its header. -/
structure Block where
  offset : Nat
  nodes : Nat
deriving DecidableEq

def Block.mem (b : Block) : Nat := b.offset + memInfoSize

/-- The bytes of a block with its header. -/
def blockSize (nodeSize nodes : Nat) : Nat := nodes * nodeSize + memInfoSize

def Block.stop (nodeSize : Nat) (b : Block) : Nat := b.offset + blockSize nodeSize b.nodes

inductive MmCall where
  | alloc (nodeNum : Nat)
  | dealloc (mem : Nat)
  /-- The caller that has the block at `mem` writes its `i`-th byte. -/
  | write (mem i : Nat) (byte : UInt8)

/-- The manager, with a record of the calls: the blocks in use, what their callers wrote to them, and for each number of
nodes how many blocks were in use at most. -/
structure Managed where
  mm : MemManager
  held : List Block
  contents : Nat → Nat → UInt8
  peak : Nat → Nat

def Managed.start (mm : MemManager) : Managed := ⟨mm, [], fun _ _ => 0, fun _ => 0⟩

/-- How many blocks for this number of nodes are in use. -/
def Managed.inUse (s : Managed) (nodes : Nat) : Nat := s.held.countP (·.nodes = nodes)

/-- The largest numbers of blocks in use, if one more block is. -/
def Managed.raised (s : Managed) (nodes : Nat) : Nat → Nat :=
  Function.update s.peak nodes (max (s.peak nodes) (s.inUse nodes + 1))

def Managed.handOut (s : Managed) (mm : MemManager) (mem nodes : Nat) : Managed :=
  ⟨mm, ⟨mem - memInfoSize, nodes⟩ :: s.held, Function.update s.contents mem fun _ => 0, s.raised nodes⟩

def Managed.takeBack (s : Managed) (mm : MemManager) (mem : Nat) : Managed :=
  { s with mm := mm, held := s.held.eraseP (·.mem = mem) }

def Managed.write (s : Managed) (mem i : Nat) (byte : UInt8) : Managed :=
  { s with
    mm := { s.mm with bytes := Function.update s.mm.bytes (mem + i) byte }
    contents := Function.update s.contents mem (Function.update (s.contents mem) i byte) }

def managedStep (s : Managed) : MmCall → Except LinkRing.Fault Managed
  | .alloc nodeNum => do
    match ← allocNode s.mm nodeNum with
    | (mm, some mem) => return s.handOut mm mem nodeNum
    | (mm, none) => return { s with mm := mm }
  | .dealloc mem => do
    let mm ← deallocNode s.mm mem
    return s.takeBack mm mem
  | .write mem i byte => .ok (s.write mem i byte)

/-- The callers ask for no more nodes than there are lists for, and give back or write to blocks they have. -/
def MmLegal (stride : Nat) (s : Managed) : MmCall → Prop
  | .alloc nodeNum => nodeNum ≤ headCount stride
  | .dealloc mem => ∃ b ∈ s.held, b.mem = mem
  | .write mem i _ => ∃ b ∈ s.held, b.mem = mem ∧ i < b.nodes * s.mm.nodeSize

/-! ### The lists of free blocks -/

/-- The list of the free blocks for `i + 1` nodes, where `free` gives their offsets. -/
def classRing (free : Nat → List Nat) (i : Nat) : Place × List Place := (.head i, (free i).map .info)

def classRings (count : Nat) (free : Nat → List Nat) : List (Place × List Place) :=
  (List.range count).map (classRing free)

/-- The lists other than the `i`-th one. -/
def otherRings (count : Nat) (free : Nat → List Nat) (i : Nat) : List (Place × List Place) :=
  ((List.range count).erase i).map (classRing free)

/-- The free blocks. -/
def freeBlocks (count : Nat) (free : Nat → List Nat) : List Block :=
  (List.range count).flatMap fun i => (free i).map (⟨·, i + 1⟩)

variable {count i nodeSize stride nodeNum : Nat} {free : Nat → List Nat} {offsets : List Nat} {held carved : List Block}

private theorem classRing_mem (hi : i < count) : classRing free i ∈ classRings count free :=
  List.mem_map_of_mem (List.mem_range.2 hi)

private theorem otherRings_update (offsets : List Nat) :
    otherRings count (Function.update free i offsets) i = otherRings count free i := by
  refine List.map_congr_left fun j hj => ?_
  have hne : j ≠ i := ((List.nodup_range (n := count)).mem_erase_iff.1 hj).1
  simp [classRing, hne]

private theorem classRings_perm (hi : i < count) :
    classRings count (Function.update free i offsets) ~ (.head i, offsets.map .info) :: otherRings count free i := by
  have hperm : List.range count ~ i :: (List.range count).erase i := List.perm_cons_erase (List.mem_range.2 hi)
  refine (hperm.map _).trans ?_
  rw [List.map_cons, ← otherRings_update offsets]
  simp [classRing, otherRings]

private theorem freeBlocks_perm (hi : i < count) : freeBlocks count (Function.update free i offsets) ~
    offsets.map (⟨·, i + 1⟩) ++ ((List.range count).erase i).flatMap fun j => (free j).map (⟨·, j + 1⟩) := by
  have hperm : List.range count ~ i :: (List.range count).erase i := List.perm_cons_erase (List.mem_range.2 hi)
  refine (hperm.flatMap_right _).trans ?_
  rw [List.flatMap_cons, Function.update_self]
  refine List.Perm.append_left _ (List.Perm.of_eq ?_)
  refine List.flatMap_congr fun j hj => ?_
  have hne : j ≠ i := ((List.nodup_range (n := count)).mem_erase_iff.1 hj).1
  rw [Function.update_of_ne hne]

/-- One list with an offset in front of it, among the free blocks. -/
private theorem freeBlocks_cons (hi : i < count) (o : Nat) :
    freeBlocks count (Function.update free i (o :: offsets)) ~
      ⟨o, i + 1⟩ :: freeBlocks count (Function.update free i offsets) := by
  refine (freeBlocks_perm hi).trans ?_
  exact (freeBlocks_perm hi).symm.cons _

/-! ### Where the blocks are -/

/-- Two blocks that do not overlap, headers included. -/
def Apart (nodeSize : Nat) (a b : Block) : Prop := a.stop nodeSize ≤ b.offset ∨ b.stop nodeSize ≤ a.offset

private theorem offset_lt_stop (nodeSize : Nat) (b : Block) : b.offset < b.stop nodeSize := by
  simp [Block.stop, blockSize, memInfoSize]

instance : Std.Symm (Apart nodeSize) := ⟨fun _ _ h => Or.symm h⟩

private theorem Apart.ne {a b : Block} (h : Apart nodeSize a b) : a.offset ≠ b.offset := by
  intro heq
  have ha := offset_lt_stop nodeSize a
  have hb := offset_lt_stop nodeSize b
  obtain h | h := h <;> omega

/-- The blocks cut from the cube, in the order in which they were cut. -/
structure Layout (count nodeSize : Nat) (carved : List Block) (mm : MemManager) : Prop where
  size : mm.nodeSize = nodeSize
  within : ∀ b ∈ carved, b.stop nodeSize ≤ mm.left
  apart : carved.Pairwise (Apart nodeSize)
  total : (carved.map fun b => blockSize nodeSize b.nodes).sum = mm.left
  space : mm.left + mm.space = cubeSize
  nodes : ∀ b ∈ carved, mm.nodeNum b.offset = b.nodes ∧ 0 < b.nodes ∧ b.nodes ≤ count

/-- The state of the manager: `carved` are the blocks cut from the cube and `free` the offsets of the free ones. -/
structure Sound (count nodeSize : Nat) (free : Nat → List Nat) (carved : List Block) (s : Managed) : Prop
    extends Layout count nodeSize carved s.mm where
  links : Represents ⟨classRings count free, s.held.map (.info ·.offset)⟩ s.mm.links
  split : s.held ++ freeBlocks count free ~ carved
  peak : ∀ n, s.peak n = carved.countP (·.nodes = n)
  -- the rest of the cube is as `calloc` left it
  clean : ∀ a ≥ s.mm.left, s.mm.bytes a = 0
  contents : ∀ b ∈ s.held, ∀ k < b.nodes * nodeSize, s.mm.bytes (b.mem + k) = s.contents b.mem k

variable {s : Managed} {mm mm' : MemManager} {b : Block}

private theorem Layout.apart_of_ne (h : Layout count nodeSize carved mm) {a b : Block} (ha : a ∈ carved)
    (hb : b ∈ carved) (hne : a ≠ b) : Apart nodeSize a b :=
  h.apart.forall ha hb hne

private theorem Layout.offset_lt (h : Layout count nodeSize carved mm) (hb : b ∈ carved) : b.offset < mm.left :=
  Nat.lt_of_lt_of_le (offset_lt_stop nodeSize b) (h.within b hb)

private theorem Layout.carve (h : Layout count nodeSize carved mm) (hn : 0 < nodeNum) (hcount : nodeNum ≤ count)
    (hroom : blockSize nodeSize nodeNum ≤ mm.space) (links : Memory Place) :
    Layout count nodeSize (carved ++ [⟨mm.left, nodeNum⟩]) { mm with
      left := mm.left + blockSize nodeSize nodeNum
      space := mm.space - blockSize nodeSize nodeNum
      links := links
      nodeNum := Function.update mm.nodeNum mm.left nodeNum } where
  size := h.size
  within b hb := by
    obtain hb | hb := List.mem_append.1 hb
    · exact Nat.le_add_right_of_le (h.within b hb)
    · rw [List.mem_singleton.1 hb]
      exact Nat.le_refl _
  apart := by
    refine List.pairwise_append.2 ⟨h.apart, List.pairwise_singleton _ _, fun a ha b hb => .inl ?_⟩
    rw [List.mem_singleton.1 hb]
    exact h.within a ha
  total := by
    rw [List.map_append, List.sum_append, h.total]
    simp
  space := by
    have := h.space
    simp only
    omega
  nodes b hb := by
    obtain hb | hb := List.mem_append.1 hb
    · have hne : b.offset ≠ mm.left := Nat.ne_of_lt (h.offset_lt hb)
      simpa [hne] using h.nodes b hb
    · rw [List.mem_singleton.1 hb]
      simp [hn, hcount]

/-- Neither the links nor the bytes of a block say where it is. -/
private theorem Layout.congr (h : Layout count nodeSize carved mm) (links : Memory Place) (bytes : Nat → UInt8) :
    Layout count nodeSize carved { mm with links := links, bytes := bytes } :=
  ⟨h.size, h.within, h.apart, h.total, h.space, h.nodes⟩

theorem Sound.mem_carved (hs : Sound count nodeSize free carved s) (hb : b ∈ s.held) : b ∈ carved :=
  hs.split.mem_iff.1 (List.mem_append_left _ hb)

private theorem Sound.nodup (hs : Sound count nodeSize free carved s) : (s.held ++ freeBlocks count free).Nodup := by
  refine hs.split.nodup_iff.2 ?_
  exact hs.apart.imp fun h heq => h.ne (congrArg _ heq)

/-- A byte of one block is not a byte of another one. -/
private theorem Apart.byte_ne {a b : Block} (h : Apart nodeSize a b) {j k : Nat} (hj : j < a.nodes * nodeSize)
    (hk : k < b.nodes * nodeSize) : a.mem + j ≠ b.mem + k := by
  simp only [Apart, Block.stop, blockSize, Block.mem] at h ⊢
  omega

private theorem Layout.byte_lt (h : Layout count nodeSize carved mm) (hb : b ∈ carved) {k : Nat}
    (hk : k < b.nodes * nodeSize) :
    b.mem + k < mm.left := by
  have := h.within b hb
  simp only [Block.stop, blockSize, Block.mem] at this ⊢
  omega

/-! ### The calls keep the blocks where they are -/

theorem countP_nodes_cons (b : Block) (l : List Block) (n : Nat) :
    (b :: l).countP (·.nodes = n) = l.countP (·.nodes = n) + if b.nodes = n then 1 else 0 := by
  rw [List.countP_cons]
  by_cases h : b.nodes = n <;> simp [h]

/-- The blocks in use and the free ones are all that were ever needed at a time. -/
private theorem Sound.peak_eq (hs : Sound count nodeSize free carved s) (hn : 0 < nodeNum) (hcount : nodeNum ≤ count) :
    s.peak nodeNum = s.inUse nodeNum + (free (nodeNum - 1)).length := by
  rw [hs.peak, ← hs.split.countP_eq, List.countP_append, Managed.inUse, Nat.add_left_cancel_iff]
  obtain ⟨i, rfl⟩ : ∃ i, nodeNum = i + 1 := ⟨nodeNum - 1, by omega⟩
  have hperm : freeBlocks count (Function.update free i (free i)) ~ _ := freeBlocks_perm hcount
  rw [Function.update_eq_self] at hperm
  have hother : (((List.range count).erase i).flatMap fun j => (free j).map fun o => Block.mk o (j + 1)).countP
      (·.nodes = i + 1) = 0 := by
    rw [List.countP_eq_zero]
    intro b hb
    obtain ⟨j, hj, hb⟩ := List.mem_flatMap.1 hb
    obtain ⟨o, -, rfl⟩ := List.mem_map.1 hb
    have hne : j ≠ i := ((List.nodup_range (n := count)).mem_erase_iff.1 hj).1
    simpa using hne
  rw [hperm.countP_eq, List.countP_append, hother, List.countP_map]
  simp

/-- There is no header at the end of the blocks. -/
private theorem Sound.left_fresh (hs : Sound count nodeSize free carved s) :
    Place.info s.mm.left ∉ Lists.cells ⟨classRings count free, s.held.map (.info ·.offset)⟩ := by
  intro hmem
  have hex : ∃ b ∈ carved, b.offset = s.mm.left := by
    obtain hmem | hmem := List.mem_append.1 hmem
    · obtain ⟨r, hr, hp⟩ := List.mem_flatMap.1 hmem
      obtain ⟨i, hi, rfl⟩ := List.mem_map.1 hr
      have hoff : s.mm.left ∈ free i := by simpa [ringCells, classRing] using hp
      refine ⟨⟨s.mm.left, i + 1⟩, hs.split.mem_iff.1 (List.mem_append_right _ ?_), rfl⟩
      exact List.mem_flatMap.2 ⟨i, hi, List.mem_map_of_mem hoff⟩
    · obtain ⟨b, hb, heq⟩ := List.mem_map.1 hmem
      exact ⟨b, hs.mem_carved hb, Place.info.inj heq⟩
  obtain ⟨b, hb, heq⟩ := hex
  exact absurd (hs.offset_lt hb) (by omega)

theorem Sound.raised_eq (hs : Sound count nodeSize free carved s) (hn : 0 < nodeNum) (hcount : nodeNum ≤ count)
    (n : Nat) : s.raised nodeNum n =
      s.peak n + if n = nodeNum ∧ free (nodeNum - 1) = [] then 1 else 0 := by
  have hpeak := hs.peak_eq hn hcount
  by_cases hne : n = nodeNum
  · subst hne
    by_cases hfree : free (n - 1) = []
    · simp only [hfree, List.length_nil] at hpeak
      simp [Managed.raised, hfree, hpeak]
    · have hpos := List.length_pos_iff.2 hfree
      simp only [Managed.raised, Function.update_self, hfree, and_false, if_false]
      omega
  · simp [Managed.raised, hne]

/-- A block is cut from the cube. -/
theorem Sound.alloc_new (hs : Sound count nodeSize free carved s) (hn : 0 < nodeNum) (hcount : nodeNum ≤ count)
    (hfree : free (nodeNum - 1) = []) (hsize : blockSize nodeSize nodeNum < 2 ^ 32)
    (hroom : blockSize nodeSize nodeNum ≤ s.mm.space) :
    ∃ mm mem, allocNode s.mm nodeNum = .ok (mm, some mem) ∧
      Sound count nodeSize free (carved ++ [⟨s.mm.left, nodeNum⟩]) (s.handOut mm mem nodeNum) := by
  have hi : nodeNum - 1 < count := by omega
  have hmem : (Place.head (nodeNum - 1), []) ∈ classRings count free := by
    have : classRing free (nodeNum - 1) ∈ _ := classRing_mem hi
    rwa [classRing, hfree] at this
  have hempty := hs.links.listEmpty hmem
  obtain ⟨links, hinit, hlinks⟩ := (hs.links.alloc hs.left_fresh).initListHead
  have hmod : (nodeNum * s.mm.nodeSize + memInfoSize) % 2 ^ 32 = blockSize nodeSize nodeNum := by
    rw [hs.size]
    exact Nat.mod_eq_of_lt hsize
  have hcall : allocNode s.mm nodeNum = .ok ({ s.mm with
      left := s.mm.left + blockSize nodeSize nodeNum
      space := s.mm.space - blockSize nodeSize nodeNum
      links := links
      nodeNum := Function.update s.mm.nodeNum s.mm.left nodeNum }, some (s.mm.left + memInfoSize)) := by
    simp only [allocNode, Nat.ne_of_gt hn, if_false, hempty, ok_bind, hmod, Nat.not_lt.2 hroom, hinit]
    rfl
  refine ⟨_, _, hcall, ?_⟩
  have hhand : s.mm.left + memInfoSize - memInfoSize = s.mm.left := Nat.add_sub_cancel ..
  refine ⟨hs.toLayout.carve hn hcount hroom links, ?_, ?_, fun n => ?_, fun a ha => ?_, ?_⟩
  · refine hlinks.forget ⟨?_, fun r hr => List.mem_cons_of_mem _ hr⟩
    simp only [Managed.handOut, hhand, List.map_cons, Lists.cells, List.flatMap_cons, ringCells]
    exact List.perm_middle
  · simp only [Managed.handOut, hhand, List.cons_append]
    exact (hs.split.cons _).trans (List.perm_append_singleton _ _).symm
  · simp only [Managed.handOut, hs.raised_eq hn hcount, hs.peak, hfree, List.countP_append, countP_nodes_cons]
    simp [eq_comm]
  · exact hs.clean a (Nat.le_of_add_right_le ha)
  · simp only [Managed.handOut, hhand, List.forall_mem_cons]
    refine ⟨fun k _ => ?_, fun b hb k hk => ?_⟩
    · have : s.mm.left ≤ s.mm.left + memInfoSize + k := by omega
      simp [Block.mem, hs.clean _ this]
    · have hne : b.mem ≠ s.mm.left + memInfoSize := by
        have := hs.offset_lt (hs.mem_carved hb)
        simp only [Block.mem]
        omega
      rw [Function.update_of_ne hne]
      exact hs.contents b hb k hk

/-- There is neither a free block nor room for a new one. -/
theorem Sound.alloc_none (hs : Sound count nodeSize free carved s) (hn : 0 < nodeNum) (hcount : nodeNum ≤ count)
    (hfree : free (nodeNum - 1) = []) (hsize : blockSize nodeSize nodeNum < 2 ^ 32)
    (hroom : s.mm.space < blockSize nodeSize nodeNum) : allocNode s.mm nodeNum = .ok (s.mm, none) := by
  have hi : nodeNum - 1 < count := by omega
  have hmem : (Place.head (nodeNum - 1), []) ∈ classRings count free := by
    have : classRing free (nodeNum - 1) ∈ _ := classRing_mem hi
    rwa [classRing, hfree] at this
  have hmod : (nodeNum * s.mm.nodeSize + memInfoSize) % 2 ^ 32 = blockSize nodeSize nodeNum := by
    rw [hs.size]
    exact Nat.mod_eq_of_lt hsize
  simp only [allocNode, Nat.ne_of_gt hn, if_false, hs.links.listEmpty hmem, ok_bind, hmod, hroom]
  rfl

/-- A free block is handed out again. -/
theorem Sound.alloc_reuse (hs : Sound count nodeSize free carved s) (hn : 0 < nodeNum) (hcount : nodeNum ≤ count)
    (hsize : blockSize nodeSize nodeNum < 2 ^ 32) {o : Nat} {offsets : List Nat}
    (hfree : free (nodeNum - 1) = o :: offsets) :
    ∃ mm mem, allocNode s.mm nodeNum = .ok (mm, some mem) ∧
      Sound count nodeSize (Function.update free (nodeNum - 1) offsets) carved (s.handOut mm mem nodeNum) := by
  have hi : nodeNum - 1 < count := by omega
  have hfree' : Function.update free (nodeNum - 1) (o :: offsets) = free := by
    rw [← hfree, Function.update_eq_self]
  have hnodes : nodeNum - 1 + 1 = nodeNum := by omega
  have hblocks : freeBlocks count free ~
      ⟨o, nodeNum⟩ :: freeBlocks count (Function.update free (nodeNum - 1) offsets) := by
    have : freeBlocks count (Function.update free (nodeNum - 1) (o :: offsets)) ~ _ := freeBlocks_cons hi o
    rwa [hfree', hnodes] at this
  have hblock : (⟨o, nodeNum⟩ : Block) ∈ carved :=
    hs.split.mem_iff.1 (List.mem_append_right _ (hblocks.mem_iff.2 List.mem_cons_self))
  have hheld : (⟨o, nodeNum⟩ : Block) ∉ s.held := fun hb =>
    List.disjoint_of_nodup_append hs.nodup hb (hblocks.mem_iff.2 List.mem_cons_self)
  -- the block is the first one of its list
  have hfront : Represents ⟨(.head (nodeNum - 1), [] ++ .info o :: offsets.map .info) ::
      otherRings count free (nodeNum - 1), s.held.map (.info ·.offset)⟩ s.mm.links := by
    refine hs.links.forget (.of_perm ?_ (.refl _))
    have : classRings count (Function.update free (nodeNum - 1) (o :: offsets)) ~ _ := classRings_perm hi
    rw [hfree'] at this
    exact this.symm
  obtain ⟨links, hdel, hlinks⟩ := hfront.listDel listPoison
  have hread : s.mm.links.readNext (some (.head (nodeNum - 1))) = .ok (some (.info o)) :=
    hfront.readNext List.mem_cons_self
  have hempty : listEmpty s.mm.links (some (.head (nodeNum - 1))) = .ok false :=
    hfront.listEmpty List.mem_cons_self
  have hmod : nodeNum * s.mm.nodeSize % 2 ^ 32 = nodeNum * nodeSize := by
    rw [hs.size]
    refine Nat.mod_eq_of_lt (Nat.lt_of_le_of_lt ?_ hsize)
    exact Nat.le_add_right _ _
  have hcall : allocNode s.mm nodeNum = .ok ({ s.mm with
      links := links
      bytes := zeroBytes s.mm.bytes (o + memInfoSize) (nodeNum * nodeSize) }, some (o + memInfoSize)) := by
    simp only [allocNode, Nat.ne_of_gt hn, if_false, hempty, hread, hdel, ok_bind, hmod]
    rfl
  have hhand : o + memInfoSize - memInfoSize = o := Nat.add_sub_cancel ..
  have hzero : ∀ a, (∀ k < nodeNum * nodeSize, a ≠ o + memInfoSize + k) →
      zeroBytes s.mm.bytes (o + memInfoSize) (nodeNum * nodeSize) a = s.mm.bytes a := by
    intro a ha
    refine if_neg fun hin => ha (a - (o + memInfoSize)) ?_ ?_ <;> omega
  refine ⟨_, _, hcall, hs.toLayout.congr _ _, ?_, ?_, fun n => ?_, fun a ha => ?_, ?_⟩
  · simp only [Managed.handOut, hhand, List.map_cons]
    exact hlinks.forget (.of_perm (classRings_perm hi) (.refl _))
  · simp only [Managed.handOut, hhand, List.cons_append]
    exact (List.perm_middle.symm.trans (hblocks.symm.append_left _)).trans hs.split
  · simp only [Managed.handOut, hs.raised_eq hn hcount, hfree, reduceCtorEq, and_false, if_false, Nat.add_zero]
    exact hs.peak n
  · simp only [Managed.handOut]
    rw [hzero a fun k hk => Nat.ne_of_gt (Nat.lt_of_lt_of_le (hs.byte_lt hblock hk) ha)]
    exact hs.clean a ha
  · simp only [Managed.handOut, hhand, List.forall_mem_cons]
    refine ⟨fun k hk => ?_, fun b hb k hk => ?_⟩
    · have hin : o + memInfoSize ≤ o + memInfoSize + k ∧
          o + memInfoSize + k < o + memInfoSize + nodeNum * nodeSize := by
        have : k < nodeNum * nodeSize := hk
        omega
      simp [Block.mem, zeroBytes, hin]
    · have hapart : Apart nodeSize b ⟨o, nodeNum⟩ :=
        hs.apart_of_ne (hs.mem_carved hb) hblock fun heq => hheld (heq ▸ hb)
      have hoff : b.offset ≠ o := hapart.ne
      have hne : b.mem ≠ o + memInfoSize := by
        simp only [Block.mem]
        omega
      rw [hzero _ fun j hj => hapart.byte_ne hk hj, Function.update_of_ne hne]
      exact hs.contents b hb k hk

/-- The one element with a property is the one erased. -/
private theorem perm_cons_eraseP {α : Type} {p : α → Bool} {l : List α} {a : α} (ha : a ∈ l) (hp : p a = true)
    (huniq : ∀ x ∈ l, p x = true → x = a) : l ~ a :: l.eraseP p := by
  obtain ⟨x, l₁, l₂, -, hx, hl, herase⟩ := List.exists_of_eraseP ha hp
  obtain rfl : x = a := huniq x (by simp [hl]) hx
  rw [herase]
  exact (List.Perm.of_eq hl).trans List.perm_middle

/-- A block goes back to its list. -/
theorem Sound.dealloc (hs : Sound count nodeSize free carved s) (hb : b ∈ s.held) :
    ∃ mm, deallocNode s.mm b.mem = .ok mm ∧
      Sound count nodeSize (Function.update free (b.nodes - 1) (b.offset :: free (b.nodes - 1))) carved
        (s.takeBack mm b.mem) := by
  obtain ⟨hnum, hpos, hcount⟩ := hs.nodes b (hs.mem_carved hb)
  have hi : b.nodes - 1 < count := by omega
  have hheld : s.held ~ b :: s.held.eraseP (·.mem = b.mem) := by
    refine perm_cons_eraseP hb (by simp) fun b' hb' hmem => ?_
    by_contra hne
    refine (hs.apart_of_ne (hs.mem_carved hb') (hs.mem_carved hb) hne).ne ?_
    simpa [Block.mem] using hmem
  have hfront : Represents ⟨(.head (b.nodes - 1), (free (b.nodes - 1)).map .info) ::
      otherRings count free (b.nodes - 1), .info b.offset :: (s.held.eraseP (·.mem = b.mem)).map (.info ·.offset)⟩
      s.mm.links := by
    refine hs.links.forget (.of_perm ?_ (hheld.symm.map fun b : Block => Place.info b.offset))
    have : classRings count (Function.update free (b.nodes - 1) (free (b.nodes - 1))) ~ _ := classRings_perm hi
    rw [Function.update_eq_self] at this
    exact this.symm
  obtain ⟨links, hadd, hlinks⟩ := hfront.listAdd
  have hcall : deallocNode s.mm b.mem = .ok { s.mm with links := links } := by
    simp only [deallocNode, Block.mem, Nat.add_sub_cancel, hnum, hadd, ok_bind]
    rfl
  refine ⟨_, hcall, hs.toLayout.congr links s.mm.bytes, ?_, ?_, hs.peak, hs.clean, fun b' hb' => ?_⟩
  · exact hlinks.forget (.of_perm (classRings_perm hi) (.refl _))
  · have hback : freeBlocks count (Function.update free (b.nodes - 1) (b.offset :: free (b.nodes - 1))) ~
        b :: freeBlocks count free := by
      have : freeBlocks count (Function.update free (b.nodes - 1) (b.offset :: free (b.nodes - 1))) ~ _ :=
        freeBlocks_cons hi b.offset
      rwa [Function.update_eq_self, Nat.sub_add_cancel hpos] at this
    refine ((hback.append_left _).trans List.perm_middle).trans ?_
    exact ((hheld.symm.append_right _)).trans hs.split
  · exact hs.contents b' (List.mem_of_mem_eraseP hb')

/-- The caller of a block writes to it. -/
theorem Sound.write (hs : Sound count nodeSize free carved s) (hb : b ∈ s.held) {k : Nat}
    (hk : k < b.nodes * nodeSize) (byte : UInt8) : Sound count nodeSize free carved (s.write b.mem k byte) := by
  refine ⟨hs.toLayout.congr s.mm.links _, hs.links, hs.split, hs.peak, fun a ha => ?_, fun b' hb' j hj => ?_⟩
  · have hne : a ≠ b.mem + k := Nat.ne_of_gt (Nat.lt_of_lt_of_le (hs.byte_lt (hs.mem_carved hb) hk) ha)
    simp only [Managed.write, Function.update_of_ne hne]
    exact hs.clean a ha
  · simp only [Managed.write]
    by_cases heq : b' = b
    · subst heq
      by_cases hjk : j = k
      · simp [hjk]
      · have hne : b'.mem + j ≠ b'.mem + k := by omega
        simp only [Function.update_self, Function.update_of_ne hne, Function.update_of_ne hjk]
        exact hs.contents b' hb' j hj
    · have hapart := hs.apart_of_ne (hs.mem_carved hb') (hs.mem_carved hb) heq
      have hne : b'.mem ≠ b.mem := by
        have := hapart.ne
        simp only [Block.mem]
        omega
      rw [Function.update_of_ne (hapart.byte_ne hj hk), Function.update_of_ne hne]
      exact hs.contents b' hb' j hj

end StubProfile.Manager
