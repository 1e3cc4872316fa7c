import StubProfile.Lib.Machine
import StubProfile.Route.Pool

/-!
# The block allocator by itself

The calls of `alloc_entry` and `dealloc_entry` in any order, from the memory that `ts_init` leaves.  The blocks taken
from the cubes are the first ones (`Supplied`).  With a caller that returns only blocks it has, those in use and those
in the free list are all that were handed out, each once (`allocator_partitioned`).

The table `cube[]` has `MEM_CUBE` entries.  With the last block of a cube `alloc_entry` allocates the next cube, also
the one behind the end of the table (`allocator_capacity_iff`).
-/

namespace StubProfile.Route

open Machine
open scoped List

/-! ### Calls of the allocator -/

def memCube : Nat := 32

/-- The entries of `cube[]` that `get_entry` reads; its guard lets `MEM_CUBE` pass. -/
def getEntryCubes (index : Nat) : List Nat := if cubeNo index > memCube then [] else [cubeNo index]

/-- The entries of `cube[]` that `alloc_entry` reads or writes. -/
def allocEntryCubes (mm : MemCache) : List Nat :=
  match mm.freeIndex with
  | fb :: _ =>
    match lastSlot fb 12 with
    | some (_, index) => getEntryCubes index
    | none => []
  | [] => getEntryCubes mm.currIndex ++ if cubeIndex mm.currIndex = 2 ^ 20 / 2 ^ 8 - 1 then [mm.currCube + 1] else []

inductive AllocCall where
  | alloc
  | dealloc (index : Nat)
deriving DecidableEq, Repr

/-- The memory, with a record of the calls: the indices the callers have, all that were ever handed out, and the number
of calls that found the free list empty. -/
structure Allocator where
  mm : MemCache
  allocated : List Nat
  handedOut : List Nat
  fresh : Nat

def Allocator.start : Allocator := ⟨tsInit.mm, [], [], 0⟩

def Allocator.handOut (s : Allocator) (mm : MemCache) (index : Nat) : Allocator :=
  ⟨mm, index :: s.allocated, index :: s.handedOut, if s.mm.freeIndex.isEmpty then s.fresh + 1 else s.fresh⟩

def Allocator.takeBack (s : Allocator) (index : Nat) : Allocator :=
  { s with mm := deallocEntry s.mm index, allocated := s.allocated.erase index }

def allocStep (s : Allocator) : AllocCall → Except Fault Allocator
  | .alloc => do
    let (mm, index) ← allocEntry s.mm
    return s.handOut mm index
  | .dealloc index => .ok (s.takeBack index)

variable {s s' : Allocator} {mm : MemCache} {index : Nat}

private theorem allocStep_alloc (h : allocEntry s.mm = .ok (mm, index)) :
    allocStep s .alloc = .ok (s.handOut mm index) := by
  simp only [allocStep, h]
  rfl

/-! ### Where the blocks come from -/

/-- The blocks taken from the cubes are the first ones; `Free` holds of the indices in the free list. -/
structure Supplied (Free : Nat → Prop) (s : Allocator) : Prop where
  room : s.fresh < memCube * 4096
  cube : s.mm.currCube = s.fresh / 4096
  index : s.mm.currIndex = blockNo s.fresh
  tidy : Tidy s.mm.freeIndex
  free : ∀ i ∈ freed s.mm.freeIndex, Free i
  zero : ∀ p, s.mm.mem p = .zero

variable {Free : Nat → Prop}

private theorem supplied_start : Supplied Free .start where
  room := by decide
  cube := rfl
  index := rfl
  tidy := by simp [Tidy, Allocator.start, tsInit]
  free := by simp [freed, Allocator.start, tsInit]
  zero _ := rfl

/-- Only the free list changes. -/
private theorem Supplied.withFree (h : Supplied Free s) {freeIndex : List (List (Option Nat))}
    (hmm : s'.mm = { s.mm with freeIndex := freeIndex }) (hfresh : s'.fresh = s.fresh) (htidy : Tidy freeIndex)
    (hfree : ∀ i ∈ freed freeIndex, Free i) : Supplied Free s' := by
  constructor <;> simp only [hmm, hfresh]
  · exact h.room
  · exact h.cube
  · exact h.index
  · exact htidy
  · exact hfree
  · exact h.zero

/-- With a free list, `alloc_entry` takes a block out of it. -/
private theorem Supplied.alloc_reuse (h : Supplied Free s) (hne : s.mm.freeIndex ≠ []) :
    ∃ mm index, allocEntry s.mm = .ok (mm, index) ∧ Free index ∧
      (freed s.mm.freeIndex).Perm (index :: freed mm.freeIndex) ∧ (s.handOut mm index).fresh = s.fresh ∧
      Supplied Free (s.handOut mm index) := by
  obtain ⟨index, freeIndex', hcall, htidy, hperm⟩ := allocEntry_reuse h.tidy hne
  have hfree : ∀ i ∈ index :: freed freeIndex', Free i := fun i hi => h.free i (hperm.mem_iff.2 hi)
  have hfresh (mm : MemCache) : (s.handOut mm index).fresh = s.fresh := by simp [Allocator.handOut, hne]
  refine ⟨_, index, hcall, hfree index List.mem_cons_self, hperm, hfresh _, h.withFree rfl (hfresh _) htidy ?_⟩
  exact fun i hi => hfree i (List.mem_cons_of_mem _ hi)

/-- Without one, it takes the next block of the cubes, if that is not the last one. -/
private theorem Supplied.alloc_new (h : Supplied Free s) (hnil : s.mm.freeIndex = [])
    (hroom : s.fresh + 1 < memCube * 4096) :
    ∃ mm, allocEntry s.mm = .ok (mm, blockNo s.fresh) ∧ mm.freeIndex = [] ∧
      (s.handOut mm (blockNo s.fresh)).fresh = s.fresh + 1 ∧ Supplied Free (s.handOut mm (blockNo s.fresh)) := by
  have hcall := allocEntry_new hnil h.cube h.index hroom fun _ _ _ => h.zero _
  have hfresh (mm : MemCache) : (s.handOut mm (blockNo s.fresh)).fresh = s.fresh + 1 := by
    simp [Allocator.handOut, hnil]
  refine ⟨_, hcall, hnil, hfresh _, ?_⟩
  constructor
  · rw [hfresh]
    exact hroom
  · rw [hfresh]
    rfl
  · rw [hfresh]
    rfl
  · exact h.tidy
  · exact h.free
  · exact h.zero

private theorem Supplied.dealloc (h : Supplied Free s) (hindex : Free index) :
    (freed (s.takeBack index).mm.freeIndex).Perm (index :: freed s.mm.freeIndex) ∧
      Supplied Free (s.takeBack index) := by
  obtain ⟨freeIndex', heq, htidy, hperm⟩ := deallocEntry_spec index h.tidy
  have hmm : (s.takeBack index).mm = { s.mm with freeIndex := freeIndex' } := heq
  refine ⟨hmm ▸ hperm, h.withFree hmm rfl htidy fun i hi => ?_⟩
  obtain rfl | hi := List.mem_cons.1 (hperm.mem_iff.1 hi)
  · exact hindex
  · exact h.free i hi

/-! ### Each block in one place -/

/-- The caller returns only blocks it has, and always leaves one to be allocated. -/
def AllocLegal (s : Allocator) : AllocCall → Prop
  | .alloc => s.allocated.length < memCube * 4096 - 1
  | .dealloc index => index ∈ s.allocated

instance (s : Allocator) : (c : AllocCall) → Decidable (AllocLegal s c)
  | .alloc => inferInstanceAs (Decidable (_ < _))
  | .dealloc _ => inferInstanceAs (Decidable (_ ∈ _))

/-- The blocks taken from the cubes are those in use and those in the free list. -/
structure Accounted (s : Allocator) : Prop extends Supplied (fun _ => True) s where
  handedOut : ∀ i, i ∈ s.handedOut ↔ ∃ n < s.fresh, blockNo n = i
  split : (s.allocated ++ freed s.mm.freeIndex).Perm ((List.range s.fresh).map blockNo)

theorem accounted_start : Accounted .start where
  toSupplied := supplied_start
  handedOut := by simp [Allocator.start]
  split := by simp [Allocator.start, freed, tsInit]

private theorem Accounted.mem_iff (h : Accounted s) {i : Nat} :
    i ∈ s.handedOut ↔ i ∈ s.allocated ∨ i ∈ freed s.mm.freeIndex := by
  rw [h.handedOut, ← List.mem_append, h.split.mem_iff]
  simp

private theorem Accounted.nodup (h : Accounted s) : (s.allocated ++ freed s.mm.freeIndex).Nodup :=
  h.split.nodup_iff.2 (List.nodup_range.map fun _ _ => blockNo_inj)

/-- As long as the caller leaves a block, there is one behind the last that was taken when the free list is empty. -/
private theorem Accounted.room_of_nil (h : Accounted s) (hlegal : AllocLegal s .alloc) (hnil : s.mm.freeIndex = []) :
    s.fresh + 1 < memCube * 4096 := by
  have hlen := h.split.length_eq
  simp only [hnil, freed, List.flatMap_nil, List.append_nil, List.length_map, List.length_range] at hlen
  have : s.allocated.length < memCube * 4096 - 1 := hlegal
  omega

private theorem Accounted.alloc (h : Accounted s) (hlegal : AllocLegal s .alloc) :
    ∃ mm index, allocEntry s.mm = .ok (mm, index) ∧ index ∉ s.allocated ∧ Accounted (s.handOut mm index) := by
  by_cases hnil : s.mm.freeIndex = []
  · obtain ⟨mm, hcall, hnil', hfresh, hsupplied⟩ := h.toSupplied.alloc_new hnil (h.room_of_nil hlegal hnil)
    have hsplit := h.split
    simp only [hnil, freed, List.flatMap_nil, List.append_nil] at hsplit
    refine ⟨mm, blockNo s.fresh, hcall, ?_, ⟨hsupplied, fun i => ?_, ?_⟩⟩
    · intro hmem
      obtain ⟨n, hn, heq⟩ := List.mem_map.1 (hsplit.mem_iff.1 hmem)
      exact (List.mem_range.1 hn).ne (blockNo_inj heq)
    · rw [hfresh, Nat.exists_lt_succ_right, ← h.handedOut, or_comm, eq_comm]
      exact List.mem_cons
    · rw [hfresh, List.range_succ, List.map_append]
      simp only [Allocator.handOut, hnil', freed, List.flatMap_nil, List.append_nil]
      exact (hsplit.cons _).trans (List.perm_append_singleton _ _).symm
  · obtain ⟨mm, index, hcall, -, hperm, hfresh, hsupplied⟩ := h.toSupplied.alloc_reuse hnil
    have hmem : index ∈ freed s.mm.freeIndex := hperm.mem_iff.2 List.mem_cons_self
    refine ⟨mm, index, hcall, fun hused => ?_, ⟨hsupplied, fun i => ?_, ?_⟩⟩
    · exact List.disjoint_of_nodup_append h.nodup hused hmem
    · rw [hfresh, ← h.handedOut]
      have hindex : index ∈ s.handedOut := h.mem_iff.2 (.inr hmem)
      simp only [Allocator.handOut, List.mem_cons, or_iff_right_iff_imp]
      intro hi
      exact hi ▸ hindex
    · rw [hfresh]
      exact (List.perm_middle.symm.trans (hperm.symm.append_left _)).trans h.split

private theorem Accounted.dealloc (h : Accounted s) (hlegal : AllocLegal s (.dealloc index)) :
    Accounted (s.takeBack index) := by
  obtain ⟨hperm, hsupplied⟩ : _ ∧ Supplied _ (s.takeBack index) := h.toSupplied.dealloc trivial
  refine ⟨hsupplied, h.handedOut, ?_⟩
  calc s.allocated.erase index ++ freed (s.takeBack index).mm.freeIndex
    _ ~ s.allocated.erase index ++ index :: freed s.mm.freeIndex := hperm.append_left _
    _ ~ index :: s.allocated.erase index ++ freed s.mm.freeIndex := List.perm_middle
    _ ~ s.allocated ++ freed s.mm.freeIndex := (List.perm_cons_erase hlegal).symm.append_right _
    _ ~ (List.range s.fresh).map blockNo := h.split

theorem Accounted.step (s : Allocator) (c : AllocCall) (h : Accounted s) (hlegal : AllocLegal s c) :
    ∃ s', allocStep s c = .ok s' ∧ Accounted s' := by
  cases c with
  | alloc =>
    obtain ⟨mm, index, hcall, -, h'⟩ := h.alloc hlegal
    exact ⟨_, allocStep_alloc hcall, h'⟩
  | dealloc index => exact ⟨_, rfl, h.dealloc hlegal⟩

/-- The entries of a block that was handed out are there. -/
private theorem Accounted.valid (h : Accounted s) {i : Nat} (hi : i ∈ s.handedOut) {j : Nat} (hj : j < 256) :
    s.mm.valid ((getEntry i).add j) = true := by
  obtain ⟨n, hn, rfl⟩ := (h.handedOut i).1 hi
  have hroom : s.fresh < 32 * 4096 := h.room
  rw [getEntry_blockNo, blockPtr_add]
  simp only [blockPtr, MemCache.valid, h.cube, Bool.and_eq_true, decide_eq_true_eq]
  omega

/-- The blocks in use and those in the free list are all that were handed out, each once; their 256 entries are there
and in no other block. -/
structure Partitioned (s : Allocator) : Prop where
  allocated : s.allocated.Nodup
  free : (freed s.mm.freeIndex).Nodup
  apart : ∀ i ∈ s.allocated, i ∉ freed s.mm.freeIndex
  all : ∀ i, i ∈ s.handedOut ↔ i ∈ s.allocated ∨ i ∈ freed s.mm.freeIndex
  there : ∀ i ∈ s.handedOut, ∀ j < 256, s.mm.valid ((getEntry i).add j) = true
  disjoint : ∀ i ∈ s.handedOut, ∀ i' ∈ s.handedOut, i ≠ i' →
    ∀ j < 256, ∀ j' < 256, (getEntry i).add j ≠ (getEntry i').add j'

private theorem Accounted.partitioned (h : Accounted s) : Partitioned s where
  allocated := h.nodup.of_append_left
  free := h.nodup.of_append_right
  apart _ hi hi' := List.disjoint_of_nodup_append h.nodup hi hi'
  all _ := h.mem_iff
  there _ hi _ hj := h.valid hi hj
  disjoint i hi i' hi' hne j hj j' hj' heq := by
    obtain ⟨n, -, rfl⟩ := (h.handedOut i).1 hi
    obtain ⟨n', -, rfl⟩ := (h.handedOut i').1 hi'
    rw [getEntry_blockNo, getEntry_blockNo, blockPtr_add, blockPtr_add] at heq
    exact hne (congrArg blockNo (blockPtr_inj (by omega) (by omega) heq).1)

/-- Whatever blocks a caller takes and returns, each block is in use or in the free list and not in both, and
`alloc_entry` returns one that is not in use. -/
theorem allocator_partitioned (calls : List AllocCall) (h : Obeys allocStep AllocLegal .start calls) :
    ∃ s, run allocStep .start calls = .ok s ∧ Partitioned s ∧
      (AllocLegal s .alloc → ∃ mm index, allocEntry s.mm = .ok (mm, index) ∧ index ∉ s.allocated ∧
        Partitioned (s.handOut mm index)) := by
  obtain ⟨s, hrun, hs⟩ := run_of_obeys Accounted.step accounted_start h
  refine ⟨s, hrun, hs.partitioned, fun hlegal => ?_⟩
  obtain ⟨mm, index, hcall, hunused, hs'⟩ := hs.alloc hlegal
  exact ⟨mm, index, hcall, hunused, hs'.partitioned⟩

theorem allocator_partitioned_reuse :
    ∃ s, run allocStep .start [.alloc, .alloc, .dealloc 0, .alloc, .dealloc 1] = .ok s ∧ Partitioned s ∧
      s.allocated = [0] ∧ freed s.mm.freeIndex = [1] := by
  have hlegal : Obeys allocStep AllocLegal .start [.alloc, .alloc, .dealloc 0, .alloc, .dealloc 1] :=
    .cons (by decide) rfl (.cons (by decide) rfl (.cons (by decide) rfl (.cons (by decide) rfl
      (.cons (by decide) rfl trivial))))
  obtain ⟨s, hrun, hs, -⟩ := allocator_partitioned _ hlegal
  refine ⟨s, hrun, hs, ?_⟩
  cases hrun
  decide

/-! ### The last cube -/

/-- What a call may do with the table of cubes: the entries accessed are there, the index handed out fits the field of
an entry, and read back from it leads to the same block. -/
def CubeSafe (s : Allocator) : AllocCall → Prop
  | .alloc => (∀ no ∈ allocEntryCubes s.mm, no < memCube) ∧ ∀ mm index, allocEntry s.mm = .ok (mm, index) →
    index < 2 ^ 25 ∧ ∀ e : Entry, getEntry (e.setIndex index).index = getEntry index ∧
      ∀ no ∈ getEntryCubes (e.setIndex index).index, no < memCube
  | .dealloc _ => True

/-- When the free list is empty, the block taken from the cubes is not the last one. -/
def Roomy (s : Allocator) : AllocCall → Prop
  | .alloc => s.mm.freeIndex = [] → s.fresh < memCube * 4096 - 1
  | .dealloc _ => True

private theorem lt_of_mem_getEntryCubes (h : index < 2 ^ 25) {no : Nat} (hno : no ∈ getEntryCubes index) :
    no < memCube := by
  have hlt : cubeNo index < memCube := by
    rw [cubeNo, Nat.shiftRight_eq_div_pow, memCube]
    omega
  rw [getEntryCubes, if_neg (by omega), List.mem_singleton] at hno
  exact hno ▸ hlt

private theorem index_setIndex (h : index < 2 ^ 25) (e : Entry) : (e.setIndex index).index = index := by
  rw [Entry.setIndex_eq h]

/-- With a free list `alloc_entry` looks only at the cube of the block it takes. -/
private theorem allocEntryCubes_reuse (hne : s.mm.freeIndex ≠ []) (h : allocEntry s.mm = .ok (mm, index)) :
    allocEntryCubes s.mm = getEntryCubes index := by
  obtain ⟨fb, rest, hcons⟩ := List.exists_cons_of_ne_nil hne
  simp only [allocEntry, hcons] at h
  simp only [allocEntryCubes, hcons]
  cases hslot : lastSlot fb 12 with
  | none => simp [hslot] at h
  | some slot =>
    simp only [hslot, Except.ok.injEq, Prod.mk.injEq] at h
    simp only [h.2]

private theorem Supplied.allocEntryCubes_new (h : Supplied Free s) (hnil : s.mm.freeIndex = []) :
    allocEntryCubes s.mm =
      getEntryCubes (blockNo s.fresh) ++ if s.fresh % 4096 = 4095 then [s.fresh / 4096 + 1] else [] := by
  simp only [allocEntryCubes, hnil, h.index, h.cube, cubeIndex_blockNo]
  rfl

/-- A call is safe as soon as the entries it accesses are there and the index it hands out fits. -/
private theorem cubeSafe_of_call (hcubes : ∀ no ∈ allocEntryCubes s.mm, no < memCube)
    (hcall : allocEntry s.mm = .ok (mm, index)) (hindex : index < 2 ^ 25) : CubeSafe s .alloc := by
  refine ⟨hcubes, fun mm' index' h' => ?_⟩
  cases hcall.symm.trans h'
  refine ⟨hindex, fun e => ?_⟩
  rw [index_setIndex hindex]
  exact ⟨rfl, fun no => lt_of_mem_getEntryCubes hindex⟩

private theorem Supplied.cubeSafe_iff (h : Supplied (· < 2 ^ 25) s) (c : AllocCall) : CubeSafe s c ↔ Roomy s c := by
  cases c with
  | dealloc index => exact Iff.rfl
  | alloc =>
    by_cases hnil : s.mm.freeIndex = []
    · constructor
      · intro hsafe _
        have hcubes := hsafe.1
        rw [h.allocEntryCubes_new hnil] at hcubes
        -- the last block is the last one of its cube, and the cube behind it is not in the table
        by_contra hlast
        have hroom := h.room
        unfold memCube at hroom hlast hcubes
        have := hcubes (s.fresh / 4096 + 1) (by simp [show s.fresh % 4096 = 4095 by omega])
        omega
      · intro hroomy
        have hroom : s.fresh + 1 < memCube * 4096 := Nat.add_lt_of_lt_sub (hroomy hnil)
        have hindex : blockNo s.fresh < 2 ^ 25 := blockNo_lt h.room
        obtain ⟨mm, hcall, -⟩ := h.alloc_new hnil hroom
        refine cubeSafe_of_call (fun no hno => ?_) hcall hindex
        rw [h.allocEntryCubes_new hnil, List.mem_append] at hno
        obtain hno | hno := hno
        · exact lt_of_mem_getEntryCubes hindex hno
        · unfold memCube at hroom ⊢
          split at hno
          · rw [List.mem_singleton] at hno
            omega
          · cases hno
    · obtain ⟨mm, index, hcall, hindex, -⟩ := h.alloc_reuse hnil
      refine iff_of_true (cubeSafe_of_call (fun no hno => ?_) hcall hindex) (fun hnil' => absurd hnil' hnil)
      rw [allocEntryCubes_reuse hnil hcall] at hno
      exact lt_of_mem_getEntryCubes hindex hno

private theorem Supplied.step (s : Allocator) (c : AllocCall) (s' : Allocator) (h : Supplied (· < 2 ^ 25) s)
    (hlegal : ∀ index, c = .dealloc index → index < 2 ^ 25) (hroomy : Roomy s c) (hs : allocStep s c = .ok s') :
    Supplied (· < 2 ^ 25) s' := by
  cases c with
  | dealloc index =>
    cases hs
    exact (h.dealloc (hlegal index rfl)).2
  | alloc =>
    by_cases hnil : s.mm.freeIndex = []
    · obtain ⟨mm, hcall, -, -, h'⟩ := h.alloc_new hnil (Nat.add_lt_of_lt_sub (hroomy hnil))
      exact Except.ok.inj ((allocStep_alloc hcall).symm.trans hs) ▸ h'
    · obtain ⟨mm, index, hcall, -, -, -, h'⟩ := h.alloc_reuse hnil
      exact Except.ok.inj ((allocStep_alloc hcall).symm.trans hs) ▸ h'

/-- The calls stay in the table of cubes exactly as long as `alloc_entry` does not take the last block of the last cube;
an index may be returned more than once. -/
theorem allocator_capacity_iff (calls : List AllocCall) (h : ∀ index, .dealloc index ∈ calls → index < 2 ^ 25) :
    Obeys allocStep CubeSafe .start calls ↔ Obeys allocStep Roomy .start calls :=
  obeys_iff_obeys Supplied.step (fun _ c hs => hs.cubeSafe_iff c) supplied_start
    fun _ hc index heq => h index (heq ▸ hc)

theorem allocator_capacity_twice :
    Obeys allocStep CubeSafe .start [.alloc, .dealloc 0, .dealloc 0, .alloc, .alloc] := by
  refine (allocator_capacity_iff _ (by simp)).2 ?_
  exact .cons (fun _ => by decide) rfl (.cons trivial rfl (.cons trivial rfl (.cons (fun _ => by decide) rfl
    (.cons (fun _ => by decide) rfl trivial))))

/-- Without returns each call takes the next block. -/
private theorem run_replicate_alloc (Free : Nat → Prop) {n : Nat} (hn : n < memCube * 4096) :
    ∃ s, run allocStep .start (List.replicate n .alloc) = .ok s ∧
      Supplied Free s ∧ s.mm.freeIndex = [] ∧ s.fresh = n := by
  induction n with
  | zero => exact ⟨.start, rfl, supplied_start, rfl, rfl⟩
  | succ n ih =>
    obtain ⟨s, hrun, hs, hnil, rfl⟩ := ih (by omega)
    obtain ⟨mm, hcall, hnil', hfresh, hs'⟩ := hs.alloc_new hnil hn
    refine ⟨_, ?_, hs', hnil', hfresh⟩
    rw [List.replicate_succ']
    exact run_append_eq_ok.2 ⟨s, hrun, run_cons_ok [] (allocStep_alloc hcall)⟩

private theorem capacity_exceeded {n : Nat} (hn : n + 1 = memCube * 4096) :
    ∃ s, run allocStep .start (List.replicate n .alloc) = .ok s ∧ memCube ∈ allocEntryCubes s.mm ∧
      ¬ Obeys allocStep CubeSafe .start (List.replicate (n + 1) .alloc) := by
  obtain ⟨s, hrun, hs, hnil, rfl⟩ := run_replicate_alloc (fun _ => True) (n := n) (by omega)
  have hmem : memCube ∈ allocEntryCubes s.mm := by
    rw [hs.allocEntryCubes_new hnil]
    unfold memCube at *
    simp [show s.fresh % 4096 = 4095 by omega, show s.fresh / 4096 + 1 = 32 by omega]
  refine ⟨s, hrun, hmem, fun hsafe => ?_⟩
  rw [List.replicate_succ'] at hsafe
  exact lt_irrefl _ ((hsafe.last hrun).1 _ hmem)

/-- The last block of the last cube: `alloc_entry` writes the entry behind the end of `cube[]`. -/
theorem allocator_capacity_full :
    ∃ s, run allocStep .start (List.replicate 131071 .alloc) = .ok s ∧ memCube ∈ allocEntryCubes s.mm ∧
      ¬ Obeys allocStep CubeSafe .start (List.replicate 131072 .alloc) :=
  capacity_exceeded rfl

end StubProfile.Route
