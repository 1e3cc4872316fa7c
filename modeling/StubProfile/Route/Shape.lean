import StubProfile.Route.Tags
import StubProfile.Route.Ts

/-!
# The entries as a tree

The cells with a block below them are a finite set `C`; `own` gives each of them the number of its block.  A cell on the
first level has its entry in `l1`, another one in the block of the cell above it.  `Shape B C own mem` says that the
memory holds this tree with the tags `B`, and nothing else.

A tree is changed in three ways: cells get other tags, a leaf gets a block of its own, and a block of leaves that all
look alike is taken away again.
-/

namespace StubProfile.Route

/-! ### Blocks -/

/-- The index of the block that is the `n`-th to be handed out for the first time. -/
def blockNo (n : Nat) : Nat := n / 4096 * 2 ^ 20 + n % 4096

def blockPtr (n j : Nat) : Ptr := .cube (n / 4096) (n % 4096 * 256 + j)

private theorem cubeNo_blockNo (n : Nat) : cubeNo (blockNo n) = n / 4096 := by
  rw [cubeNo, blockNo, Nat.shiftRight_eq_div_pow]
  omega

theorem cubeIndex_blockNo (n : Nat) : cubeIndex (blockNo n) = n % 4096 := by
  rw [cubeIndex, blockNo]
  omega

theorem getEntry_blockNo (n : Nat) : getEntry (blockNo n) = blockPtr n 0 := by
  simp [getEntry, cubeNo_blockNo, cubeIndex_blockNo, Nat.shiftLeft_eq, blockPtr]

theorem blockNo_lt {n : Nat} (h : n < 32 * 4096) : blockNo n < 2 ^ 25 := by
  unfold blockNo
  omega

theorem blockPtr_add (n j i : Nat) : (blockPtr n j).add i = blockPtr n (j + i) := by
  simp [blockPtr, Ptr.add, Nat.add_assoc]

theorem blockPtr_inj {n n' j j' : Nat} (hj : j < 256) (hj' : j' < 256) (h : blockPtr n j = blockPtr n' j') :
    n = n' ∧ j = j' := by
  simp only [blockPtr, Ptr.cube.injEq] at h
  omega

theorem blockNo_inj {n n' : Nat} (h : blockNo n = blockNo n') : n = n' := by
  unfold blockNo at h
  omega

theorem block_div (x : Nat) {j : Nat} (hj : j < 256) : (x * 256 + j) / 256 = x := by omega

/-! ### Cells and their entries -/

variable {B B' : Nat × Nat → Nat × Nat} {C : Finset (Nat × Nat)} {own : Nat × Nat → Nat} {mem : Ptr → Entry}
  {mm : MemCache} {q q' : Nat × Nat} {k x y n : Nat}

/-- The cells that have an entry. -/
def Live (C : Finset (Nat × Nat)) : Nat × Nat → Prop
  | (0, x) => x < 2 ^ 16
  | (k + 1, x) => (k, x / 256) ∈ C

/-- Where the entry of a cell is. -/
def loc (own : Nat × Nat → Nat) : Nat × Nat → Ptr
  | (0, x) => .l1 x
  | (k + 1, x) => blockPtr (own (k, x / 256)) (x % 256)

/-- What the entry of a cell is. -/
def content (B : Nat × Nat → Nat × Nat) (C : Finset (Nat × Nat)) (own : Nat × Nat → Nat) (q : Nat × Nat) : Entry :=
  if q ∈ C then ⟨true, (B q).1, blockNo (own q)⟩ else ⟨false, (B q).1, (B q).2⟩

theorem content_of_mem (h : q ∈ C) : content B C own q = ⟨true, (B q).1, blockNo (own q)⟩ := if_pos h

theorem content_of_not_mem (h : q ∉ C) : content B C own q = ⟨false, (B q).1, (B q).2⟩ := if_neg h

structure Shape (B : Nat × Nat → Nat × Nat) (C : Finset (Nat × Nat)) (own : Nat × Nat → Nat) (mem : Ptr → Entry) :
    Prop where
  child : ∀ q ∈ C, q.1 < 2 ∧ Live C q
  inj : ∀ q ∈ C, ∀ q' ∈ C, own q = own q' → q = q'
  entry : ∀ q, Live C q → mem (loc own q) = content B C own q
  zero : ∀ p, (∀ q, Live C q → loc own q ≠ p) → mem p = .zero

/-- The entries of the tree are in the memory that is there. -/
def Fits (C : Finset (Nat × Nat)) (own : Nat × Nat → Nat) (mm : MemCache) : Prop :=
  ∀ q, Live C q → mm.valid (loc own q) = true

theorem Shape.loc_inj (hs : Shape B C own mem) (hq : Live C q) (hq' : Live C q') (h : loc own q = loc own q') :
    q = q' := by
  match q, q', hq, hq', h with
  | (0, x), (0, x'), _, _, h => simpa [loc] using h
  | (0, x), (k' + 1, x'), _, _, h => simp [loc, blockPtr] at h
  | (k + 1, x), (0, x'), _, _, h => simp [loc, blockPtr] at h
  | (k + 1, x), (k' + 1, x'), hq, hq', h =>
    obtain ⟨hown, hmod⟩ := blockPtr_inj (Nat.mod_lt _ (by omega)) (Nat.mod_lt _ (by omega)) h
    have hparent := hs.inj _ hq _ hq' hown
    simp only [Prod.mk.injEq] at hparent ⊢
    omega

theorem Shape.congr (hs : Shape B C own mem) (h : ∀ q, Live C q → B q = B' q) : Shape B' C own mem where
  child := hs.child
  inj := hs.inj
  entry q hq := by rw [hs.entry q hq, content, content, h q hq]
  zero := hs.zero

/-- A cell gets another tag. -/
theorem Shape.write (hs : Shape B C own mem) (hq : Live C q) (tag : Nat × Nat) :
    Shape (Function.update B q tag) C own
      (Function.update mem (loc own q) (content (Function.update B q tag) C own q)) where
  child := hs.child
  inj := hs.inj
  entry q' hq' := by
    by_cases heq : q' = q
    · rw [heq, Function.update_self]
    · rw [Function.update_of_ne fun h => heq (hs.loc_inj hq' hq h), hs.entry q' hq', content, content,
        Function.update_of_ne heq]
  zero p hp := by
    rw [Function.update_of_ne fun h => hp q hq h.symm]
    exact hs.zero p hp

theorem Shape.read_ok (hs : Shape B C own mm.mem) (hfits : Fits C own mm) (hq : Live C q) :
    mm.read (loc own q) = .ok (content B C own q) := by
  rw [MemCache.read, if_pos (hfits q hq), hs.entry q hq]

theorem Fits.write_ok (hfits : Fits C own mm) (hq : Live C q) (e : Entry) :
    mm.write (loc own q) e = .ok { mm with mem := Function.update mm.mem (loc own q) e } := by
  rw [MemCache.write, if_pos (hfits q hq)]

/-! ### Above and below -/

/-- The bits of a cell down to the level `k`. -/
def top (k : Nat) (q : Nat × Nat) : Nat := q.2 / 256 ^ (q.1 - k)

/-- The cells at and below the `n` cells from `x` on at the level `k`. -/
def InRange (k x n : Nat) (q : Nat × Nat) : Prop := k ≤ q.1 ∧ x ≤ top k q ∧ top k q < x + n

instance (k x n : Nat) : DecidablePred (InRange k x n) := fun _ => inferInstanceAs (Decidable (_ ∧ _ ∧ _))

theorem top_self (k x : Nat) : top k (k, x) = x := by simp [top]

theorem top_succ {j : Nat} (h : k ≤ j) (y : Nat) : top k (j + 1, y) = top k (j, y / 256) := by
  simp only [top]
  rw [show j + 1 - k = j - k + 1 by omega, Nat.pow_succ, Nat.mul_comm, Nat.div_div_eq_div_mul]

private theorem top_eq_div (h : k < q.1) : top k q = top (k + 1) q / 256 := by
  simp only [top]
  rw [show q.1 - k = q.1 - (k + 1) + 1 by omega, Nat.pow_succ, Nat.div_div_eq_div_mul]

theorem inRange_one : InRange k x 1 q ↔ k ≤ q.1 ∧ top k q = x := by
  unfold InRange
  omega

theorem inRange_block : InRange (k + 1) (x * 256) 256 q ↔ k < q.1 ∧ top k q = x := by
  unfold InRange
  constructor
  · rintro ⟨h1, h2, h3⟩
    have := top_eq_div h1
    omega
  · rintro ⟨h1, h2⟩
    have := top_eq_div h1
    omega

theorem InRange.succ {j : Nat} (h : InRange k x n (j, y / 256)) : InRange k x n (j + 1, y) := by
  obtain ⟨h1, h2⟩ := h
  have hle : k ≤ j := h1
  exact ⟨by simp only; omega, by rwa [top_succ hle]⟩

/-- A cell with an entry has cells with blocks above it. -/
theorem Shape.mem_of_below (hs : Shape B C own mem) (hq : Live C q) (hk : k < q.1) : (k, top k q) ∈ C := by
  obtain ⟨j, y⟩ := q
  induction j generalizing y with
  | zero => exact absurd hk (Nat.not_lt_zero k)
  | succ j ih =>
    have hparent : (j, y / 256) ∈ C := hq
    have hkj : k ≤ j := Nat.lt_succ_iff.1 hk
    rw [top_succ hkj]
    by_cases heq : k = j
    · rw [heq, top_self]
      exact hparent
    · exact ih (y / 256) (hs.child _ hparent).2 (show k < j by omega)

/-- In the region the lengths in the tags do not get smaller from a cell to those below it. -/
def MonoOn (R : Nat × Nat → Prop) (B : Nat × Nat → Nat × Nat) : Prop :=
  ∀ k y, R (k, y / 256) → (B (k, y / 256)).1 ≤ (B (k + 1, y)).1

theorem MonoOn.le (h : MonoOn (InRange k x n) B) (hq : InRange k x n q) : (B (k, top k q)).1 ≤ (B q).1 := by
  obtain ⟨j, y⟩ := q
  induction j generalizing y with
  | zero =>
    obtain rfl : k = 0 := Nat.le_zero.1 hq.1
    simp [top]
  | succ j ih =>
    by_cases heq : k = j + 1
    · rw [heq, top_self]
    · have hkj : k ≤ j := by have := hq.1; simp only at this; omega
      have hparent : InRange k x n (j, y / 256) := ⟨hkj, by rw [← top_succ hkj]; exact hq.2⟩
      rw [top_succ hkj]
      exact Nat.le_trans (ih _ hparent) (h j y hparent)

theorem MonoOn.mono {R S : Nat × Nat → Prop} (h : MonoOn R B) (hS : ∀ q, S q → R q) : MonoOn S B :=
  fun k y hq => h k y (hS _ hq)

theorem MonoOn.congr (h : MonoOn (InRange k x n) B) (heq : ∀ q, InRange k x n q → B' q = B q) :
    MonoOn (InRange k x n) B' := by
  intro j y hq
  rw [heq _ hq, heq _ hq.succ]
  exact h j y hq

end StubProfile.Route
