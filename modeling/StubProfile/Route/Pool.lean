import StubProfile.Route.Shape
import Mathlib.Data.List.ReduceOption

/-!
# The allocator hands out each block once

The blocks that were ever handed out are the first `N`.  Each of them is in use or in the free list, and not in both.
`alloc_entry` takes one from the free list or, if that is empty, the next new one; `dealloc_entry` puts one back.
-/

namespace StubProfile.Route

variable {used : Finset Nat} {free : List Nat} {N n : Nat} {mm : MemCache}

/-! ### The arrays of twelve slots -/

/-- An array with the indices `ids` in its first slots, and `m` invalid slots. -/
def slots (ids : List Nat) (m : Nat) : List (Option Nat) := ids.map some ++ List.replicate m none

/-- The indices in the free list. -/
def freed (freeIndex : List (List (Option Nat))) : List Nat := freeIndex.flatMap List.reduceOption

/-- Every array of the free list has twelve slots, the first of them in use up to the last one in use. -/
def Tidy (freeIndex : List (List (Option Nat))) : Prop :=
  ∀ fb ∈ freeIndex, ∃ ids m, fb = slots ids m ∧ ids ≠ [] ∧ ids.length + m = 12

private theorem reduceOption_slots (ids : List Nat) (m : Nat) : (slots ids m).reduceOption = ids := by
  rw [slots, List.reduceOption_append, List.reduceOption_replicate_none, List.append_nil]
  simp [List.reduceOption, List.filterMap_map]

private theorem slots_concat (ids : List Nat) (a m : Nat) :
    slots (ids ++ [a]) m = ids.map some ++ some a :: List.replicate m none := by simp [slots]

private theorem lastSlot_eq (ids : List Nat) (a : Nat) {d m : Nat} (hd : d ≤ m) :
    lastSlot (slots (ids ++ [a]) m) (ids.length + 1 + d) = some (ids.length, a) := by
  rw [slots_concat]
  induction d with
  | zero =>
    rw [Nat.add_zero, lastSlot, List.getElem?_append_right (by simp)]
    simp
  | succ d ih =>
    have hnone : (ids.map some ++ some a :: List.replicate m none)[ids.length + 1 + d]? = some none := by
      rw [List.getElem?_append_right (by simp; omega)]
      simp only [List.length_map, show ids.length + 1 + d - ids.length = d + 1 by omega, List.getElem?_cons_succ]
      exact List.getElem?_replicate_of_lt (by omega)
    rw [← Nat.add_assoc, lastSlot, hnone]
    exact ih (by omega)

private theorem slots_set (ids : List Nat) (a m : Nat) :
    (slots (ids ++ [a]) m).set ids.length none = slots ids (m + 1) := by
  rw [slots_concat, List.set_append_right _ _ (by simp)]
  simp [slots, List.replicate_succ]

private theorem fillSlot_slots (index : Nat) (ids : List Nat) (m : Nat) :
    fillSlot index (slots ids (m + 1)) = some (slots (ids ++ [index]) m) := by
  induction ids with
  | nil => rfl
  | cons a ids ih =>
    simp only [slots, List.map_cons, List.cons_append, fillSlot]
    rw [show List.map some ids ++ List.replicate (m + 1) none = slots ids (m + 1) from rfl, ih]
    rfl

private theorem fillSlot_full (index : Nat) (ids : List Nat) : fillSlot index (slots ids 0) = none := by
  induction ids with
  | nil => rfl
  | cons a ids ih =>
    simp only [slots, List.map_cons, List.cons_append, fillSlot]
    rw [show List.map some ids ++ List.replicate 0 none = slots ids 0 from rfl, ih]
    rfl

/-! ### The free list -/

private theorem fillBlocks_spec (index : Nat) {freeIndex freeIndex' : List (List (Option Nat))} (h : Tidy freeIndex)
    (hfill : fillBlocks index freeIndex = some freeIndex') :
    Tidy freeIndex' ∧ (freed freeIndex').Perm (index :: freed freeIndex) := by
  induction freeIndex generalizing freeIndex' with
  | nil => cases hfill
  | cons fb rest ih =>
    have hrest : Tidy rest := fun fb' hmem => h fb' (List.mem_cons_of_mem _ hmem)
    obtain ⟨ids, m, rfl, hne, hm⟩ := h fb List.mem_cons_self
    cases m with
    | zero =>
      rw [fillBlocks, fillSlot_full] at hfill
      obtain ⟨rest', hrest', rfl⟩ := Option.map_eq_some_iff.1 hfill
      obtain ⟨htidy, hperm⟩ := ih hrest hrest'
      refine ⟨?_, ?_⟩
      · intro fb' hmem
        obtain rfl | hmem := List.mem_cons.1 hmem
        · exact ⟨ids, 0, rfl, hne, hm⟩
        · exact htidy fb' hmem
      · simp only [freed, List.flatMap_cons] at hperm ⊢
        exact (hperm.append_left _).trans List.perm_middle
    | succ m =>
      rw [fillBlocks, fillSlot_slots] at hfill
      cases hfill
      refine ⟨?_, ?_⟩
      · intro fb' hmem
        obtain rfl | hmem := List.mem_cons.1 hmem
        · exact ⟨ids ++ [index], m, rfl, by simp, by simp; omega⟩
        · exact hrest fb' hmem
      · simp only [freed, List.flatMap_cons, reduceOption_slots, List.append_assoc, List.singleton_append]
        exact List.perm_middle

theorem deallocEntry_spec (index : Nat) (h : Tidy mm.freeIndex) :
    ∃ freeIndex', deallocEntry mm index = { mm with freeIndex := freeIndex' } ∧ Tidy freeIndex' ∧
      (freed freeIndex').Perm (index :: freed mm.freeIndex) := by
  by_cases hnil : mm.freeIndex = []
  · refine ⟨[slots [index] 11], ?_, ?_, ?_⟩
    · simp only [deallocEntry, hnil]
      rfl
    · intro fb hmem
      obtain rfl := List.mem_singleton.1 hmem
      exact ⟨[index], 11, rfl, by simp, rfl⟩
    · simp [freed, hnil, reduceOption_slots]
  · simp only [deallocEntry, hnil, ↓reduceIte]
    cases hfill : fillBlocks index mm.freeIndex with
    | some freeIndex' => exact ⟨freeIndex', rfl, fillBlocks_spec index h hfill⟩
    | none =>
      refine ⟨_, rfl, ?_, ?_⟩
      · intro fb hmem
        obtain rfl | hmem := List.mem_cons.1 hmem
        · exact ⟨[index], 11, rfl, by simp, rfl⟩
        · exact h fb hmem
      · rw [show (some index :: List.replicate 11 none) = slots [index] 11 from rfl]
        simp [freed, reduceOption_slots]

/-- `alloc_entry` with a free list: an index of the list is taken out. -/
theorem allocEntry_reuse (h : Tidy mm.freeIndex) (hne : mm.freeIndex ≠ []) :
    ∃ a freeIndex', allocEntry mm = .ok ({ mm with freeIndex := freeIndex' }, a) ∧ Tidy freeIndex' ∧
      (freed mm.freeIndex).Perm (a :: freed freeIndex') := by
  obtain ⟨fb, rest, hcons⟩ := List.exists_cons_of_ne_nil hne
  rw [hcons] at h
  have hrest : Tidy rest := fun fb' hmem => h fb' (List.mem_cons_of_mem _ hmem)
  obtain ⟨ids, m, rfl, hids, hm⟩ := h fb List.mem_cons_self
  obtain ⟨ids, a, rfl⟩ := (List.eq_nil_or_concat ids).resolve_left hids
  rw [List.concat_eq_append] at hcons hm
  have hlast : lastSlot (slots (ids ++ [a]) m) 12 = some (ids.length, a) := by
    have := lastSlot_eq ids a (Nat.le_refl m)
    rwa [show ids.length + 1 + m = 12 by simp at hm; omega] at this
  refine ⟨a, if ids.length = 0 then rest else slots ids (m + 1) :: rest, ?_, ?_, ?_⟩
  · simp only [allocEntry, hcons, hlast, slots_set]
  · split
    · exact hrest
    · rename_i hlen
      intro fb' hmem
      obtain rfl | hmem := List.mem_cons.1 hmem
      · exact ⟨ids, m + 1, rfl, fun h0 => hlen (by simp [h0]), by simp at hm; omega⟩
      · exact hrest fb' hmem
  · rw [hcons]
    split
    · rename_i hlen
      obtain rfl := List.length_eq_zero_iff.1 hlen
      simp [freed, reduceOption_slots]
    · simp only [freed, List.flatMap_cons, reduceOption_slots, List.append_assoc, List.singleton_append]
      exact List.perm_middle

/-! ### Blocks in use -/

structure Pool (used : Finset Nat) (free : List Nat) (N : Nat) (mm : MemCache) : Prop where
  room : N < 32 * 4096
  cube : mm.currCube = N / 4096
  index : mm.currIndex = blockNo N
  tidy : Tidy mm.freeIndex
  listed : (freed mm.freeIndex).Perm (free.map blockNo)
  nodup : free.Nodup
  split : ∀ n, n < N ↔ n ∈ free ∨ n ∈ used
  apart : ∀ n ∈ free, n ∉ used

private theorem Pool.card_eq (h : Pool used free N mm) : free.length + used.card = N := by
  have hdisj : Disjoint free.toFinset used :=
    Finset.disjoint_left.2 fun n hn => h.apart n (List.mem_toFinset.1 hn)
  have hunion : free.toFinset ∪ used = Finset.range N := by
    ext n
    rw [Finset.mem_union, List.mem_toFinset, Finset.mem_range]
    exact (h.split n).symm
  rw [← List.toFinset_card_of_nodup h.nodup, ← Finset.card_union_of_disjoint hdisj, hunion, Finset.card_range]

theorem Pool.valid (h : Pool used free N mm) (hn : n ∈ used) {j : Nat} (hj : j < 256) :
    mm.valid (blockPtr n j) = true := by
  have hlt : n < N := (h.split n).2 (.inr hn)
  have hroom := h.room
  have hcube := h.cube
  simp only [blockPtr, MemCache.valid, Bool.and_eq_true, decide_eq_true_eq]
  omega

theorem Pool.dealloc (h : Pool used free N mm) (hn : n ∈ used) :
    ∃ freeIndex', deallocEntry mm (blockNo n) = { mm with freeIndex := freeIndex' } ∧
      Pool (used.erase n) (n :: free) N { mm with freeIndex := freeIndex' } := by
  obtain ⟨freeIndex', heq, htidy, hperm⟩ := deallocEntry_spec (blockNo n) h.tidy
  refine ⟨freeIndex', heq, h.room, h.cube, h.index, htidy, hperm.trans (h.listed.cons _), ?_, ?_, ?_⟩
  · exact List.nodup_cons.2 ⟨fun hfree => h.apart n hfree hn, h.nodup⟩
  · intro m
    rw [h.split m, List.mem_cons, Finset.mem_erase]
    by_cases hm : m = n
    · simp [hm, hn]
    · simp [hm]
  · intro m hm
    rw [Finset.mem_erase]
    rintro ⟨hne, hused⟩
    obtain rfl | hfree := List.mem_cons.1 hm
    · exact hne rfl
    · exact h.apart m hfree hused

private theorem blockNo_succ (N : Nat) :
    (N % 4096 = 4095 → blockNo (N + 1) = (N / 4096 + 1) * 2 ^ 20 ∧ (N + 1) / 4096 = N / 4096 + 1) ∧
      (N % 4096 ≠ 4095 → blockNo (N + 1) = blockNo N + 1 ∧ (N + 1) / 4096 = N / 4096) := by
  unfold blockNo
  omega

/-- `alloc_entry` without a free list: the next block that was never handed out; cubes that are not there yet are
zero. -/
theorem allocEntry_new (hnil : mm.freeIndex = []) (hcube : mm.currCube = N / 4096) (hindex : mm.currIndex = blockNo N)
    (hroom : N + 1 < 32 * 4096) (hzero : ∀ no i, mm.currCube < no → mm.mem (.cube no i) = .zero) :
    allocEntry mm = .ok ({ mm with currCube := (N + 1) / 4096, currIndex := blockNo (N + 1) }, blockNo N) := by
  unfold allocEntry
  simp only [hnil, hindex, cubeIndex_blockNo, hcube]
  by_cases hlast : N % 4096 = 4095
  · obtain ⟨h1, h2⟩ := (blockNo_succ N).1 hlast
    have hlt : N / 4096 + 1 < 32 := by omega
    have hmem : callocCube mm.mem (N / 4096 + 1) = mm.mem := by
      funext p
      cases p with
      | l1 i => rfl
      | cube no i =>
        rw [callocCube]
        split
        · exact (hzero _ _ (by omega)).symm
        · rfl
    simp [hlast, hlt, h1, h2, hmem, Nat.shiftLeft_eq]
  · obtain ⟨h1, h2⟩ := (blockNo_succ N).2 hlast
    simp [hlast, h1, h2, ← hcube]

theorem Pool.alloc (h : Pool used free N mm) (hroom : used.card + 1 < 32 * 4096)
    (hzero : ∀ no i, mm.currCube < no → mm.mem (.cube no i) = .zero) :
    ∃ n free' N' mm', allocEntry mm = .ok (mm', blockNo n) ∧ n ∉ used ∧ Pool (insert n used) free' N' mm' ∧
      mm'.mem = mm.mem ∧ mm.currCube ≤ mm'.currCube := by
  by_cases hnil : mm.freeIndex = []
  · have hfree : free = [] := by
      have := h.listed
      rw [hnil] at this
      simpa using List.nil_perm.1 this
    subst hfree
    have hcard := h.card_eq
    simp only [List.length_nil, Nat.zero_add] at hcard
    have hN : N ∉ used := fun hmem => Nat.lt_irrefl N ((h.split N).2 (.inr hmem))
    have hcube := h.cube
    refine ⟨N, [], N + 1, _, allocEntry_new hnil h.cube h.index (by omega) hzero, hN, ?_, rfl, by simp only; omega⟩
    refine ⟨by omega, rfl, rfl, h.tidy, h.listed, List.nodup_nil, ?_, by simp⟩
    intro m
    have hm := h.split m
    simp only [List.not_mem_nil, false_or] at hm
    simp only [List.not_mem_nil, false_or, Finset.mem_insert, ← hm]
    omega
  · obtain ⟨a, freeIndex', heq, htidy, hperm⟩ := allocEntry_reuse h.tidy hnil
    have ha : a ∈ free.map blockNo := (h.listed.mem_iff).1 (hperm.mem_iff.2 List.mem_cons_self)
    obtain ⟨n, hn, rfl⟩ := List.mem_map.1 ha
    refine ⟨n, free.erase n, N, _, heq, h.apart n hn, ?_, rfl, Nat.le_refl _⟩
    have hperm' : free.Perm (n :: free.erase n) := List.perm_cons_erase hn
    refine ⟨h.room, h.cube, h.index, htidy, ?_, h.nodup.erase n, ?_, ?_⟩
    · have := (hperm.symm.trans h.listed).trans (hperm'.map blockNo)
      exact this.cons_inv
    · intro m
      rw [h.split m, hperm'.mem_iff, List.mem_cons, Finset.mem_insert]
      tauto
    · intro m hm
      obtain ⟨hne, hfree⟩ := (List.Nodup.mem_erase_iff h.nodup).1 hm
      simp [Finset.mem_insert, hne, h.apart m hfree]

end StubProfile.Route
