import Mathlib.Algebra.Ring.Nat
import Mathlib.Data.List.Nodup
import Mathlib.Tactic.Common

/-!
# Heaps of blocks

A heap hands out blocks, which have numbers that are not used again, and keeps a list of the blocks in use with their
sizes.  To free a block that is not in use is an error, so that a program that does not fail frees no block twice.

What a part of a program owns is a list of blocks, and the heap is the list of what its parts own, up to the order.
-/

namespace BlockHeap

open scoped List

structure Heap where
  next : Nat
  /-- The blocks in use, with their sizes. -/
  live : List (Nat × Nat)
  below : ∀ b ∈ live, b.1 < next
  nodup : (live.map Prod.fst).Nodup

def Heap.empty : Heap := ⟨0, [], List.forall_mem_nil _, List.nodup_nil⟩

variable {h : Heap} {block size : Nat} {l : List (Nat × Nat)}

theorem below_alloc (h : Heap) (size : Nat) : ∀ b ∈ (h.next, size) :: h.live, b.1 < h.next + 1 := by
  intro b hb
  obtain rfl | hb := List.mem_cons.1 hb
  · exact Nat.lt_succ_self _
  · exact Nat.lt_succ_of_lt (h.below b hb)

theorem nodup_alloc (h : Heap) (size : Nat) : (((h.next, size) :: h.live).map Prod.fst).Nodup := by
  refine List.nodup_cons.2 ⟨fun hmem => ?_, h.nodup⟩
  obtain ⟨b, hb, heq⟩ := List.mem_map.1 hmem
  exact Nat.ne_of_lt (h.below b hb) heq

/-- A new block, with the number `h.next`. -/
def Heap.alloc (h : Heap) (size : Nat) : Heap :=
  ⟨h.next + 1, (h.next, size) :: h.live, below_alloc h size, nodup_alloc h size⟩

def release (l : List (Nat × Nat)) (block : Nat) : List (Nat × Nat) := l.eraseP (·.1 = block)

theorem below_release (h : Heap) (block : Nat) : ∀ b ∈ release h.live block, b.1 < h.next :=
  fun b hb => h.below b (List.mem_of_mem_eraseP hb)

theorem nodup_release (h : Heap) (block : Nat) : ((release h.live block).map Prod.fst).Nodup :=
  h.nodup.sublist (List.eraseP_sublist.map Prod.fst)

def Heap.free (h : Heap) (block : Nat) : Option Heap :=
  if block ∈ h.live.map Prod.fst then
    some ⟨h.next, release h.live block, below_release h block, nodup_release h block⟩
  else none

/-- A block that is owned can be freed, and what else is owned stays. -/
theorem Heap.free_owned (howned : h.live ~ (block, size) :: l) : ∃ h', h.free block = some h' ∧ h'.live ~ l := by
  have hmem : (block, size) ∈ h.live := howned.mem_iff.2 List.mem_cons_self
  obtain ⟨b, l₁, l₂, -, hb, hlive, hrelease⟩ := List.exists_of_eraseP (p := (·.1 = block)) hmem (by simp)
  have hin : block ∈ h.live.map Prod.fst := List.mem_map.2 ⟨_, hmem, rfl⟩
  -- the block found is the one owned, since no other has its number
  have heq : b = (block, size) := by
    have hmem' : b ∈ h.live := by simp [hlive]
    refine List.inj_on_of_nodup_map h.nodup hmem' hmem ?_
    simpa using hb
  refine ⟨_, if_pos hin, ?_⟩
  have hperm : b :: release h.live block ~ (block, size) :: l := by
    rw [release, hrelease]
    exact (List.perm_middle.symm.trans (List.Perm.of_eq hlive.symm)).trans howned
  rw [heq] at hperm
  exact List.perm_cons _ |>.1 hperm

/-- The sizes of the blocks together. -/
def total (l : List (Nat × Nat)) : Nat := (l.map Prod.snd).sum

theorem total_append (l l' : List (Nat × Nat)) : total (l ++ l') = total l + total l' := by simp [total]

theorem total_flatMap {α : Type} (f : α → List (Nat × Nat)) (as : List α) :
    total (as.flatMap f) = (as.map fun a => total (f a)).sum := by
  induction as with
  | nil => rfl
  | cons a as ih => rw [List.flatMap_cons, total_append, ih, List.map_cons, List.sum_cons]

theorem total_perm {l l' : List (Nat × Nat)} (h : l ~ l') : total l = total l' := (h.map Prod.snd).sum_nat

end BlockHeap
