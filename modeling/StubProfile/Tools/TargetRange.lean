import Mathlib.Tactic.Common

/-!
# The range of the target indices

`CountUtil` keeps the functions to instrument in the vector `target_funcs`; `calculateRange` computes the smallest
and the largest index of the vector, which the instrumented program passes to `funcc_init`.  The values start at
`UINT_MAX` and `0`, and the index `UINT_MAX`, the answer of `getFunctionID` for an unknown name, is skipped.
-/

namespace StubProfile.Tools

def uintMax : UInt32 := 4294967295

/-- `class TargetFunc`; the functions themselves are the elements of a type `φ`. -/
structure TargetFunc (φ : Type) where
  func : φ
  index : UInt32
deriving DecidableEq, Repr

/-- `struct range` of `tools/count.h`. -/
structure IdRange where
  min : UInt32
  max : UInt32
deriving DecidableEq, Repr

variable {φ : Type}

/-- The body of the loop of `calculateRange`. -/
def calculateRangeStep (r : IdRange) (f : TargetFunc φ) : IdRange :=
  if f.index = uintMax then r
  else
    { max := if r.max < f.index then f.index else r.max
      min := if r.min > f.index then f.index else r.min }

def calculateRange (targets : List (TargetFunc φ)) : IdRange := targets.foldl calculateRangeStep ⟨uintMax, 0⟩

private theorem foldl_calculateRangeStep (l : List (TargetFunc φ)) (hl : ∀ f ∈ l, f.index ≠ uintMax)
    {r r' : IdRange} (h : l.foldl calculateRangeStep r = r') :
    (r'.max = r.max ∨ ∃ f ∈ l, f.index = r'.max) ∧ (r'.min = r.min ∨ ∃ f ∈ l, f.index = r'.min) ∧
      r.max ≤ r'.max ∧ r'.min ≤ r.min ∧ ∀ f ∈ l, r'.min ≤ f.index ∧ f.index ≤ r'.max := by
  induction l generalizing r with
  | nil =>
    cases h
    exact ⟨.inl rfl, .inl rfl, UInt32.le_refl _, UInt32.le_refl _, by simp⟩
  | cons a l ih =>
    have ha : a.index ≠ uintMax := hl a (by simp)
    rw [List.foldl_cons] at h
    obtain ⟨h1, h2, h3, h4, h5⟩ := ih (fun f hf => hl f (by simp [hf])) h
    simp only [calculateRangeStep, ha, ↓reduceIte] at h1 h2 h3 h4
    have hmax : r.max ≤ r'.max ∧ a.index ≤ r'.max := by
      split at h3
      · rename_i hlt
        exact ⟨UInt32.le_trans (UInt32.le_of_lt hlt) h3, h3⟩
      · rename_i hge
        exact ⟨h3, UInt32.le_trans (UInt32.not_lt.1 hge) h3⟩
    have hmin : r'.min ≤ r.min ∧ r'.min ≤ a.index := by
      split at h4
      · rename_i hlt
        exact ⟨UInt32.le_trans h4 (UInt32.le_of_lt hlt), h4⟩
      · rename_i hge
        exact ⟨h4, UInt32.le_trans h4 (UInt32.not_lt.1 hge)⟩
    refine ⟨?_, ?_, hmax.1, hmin.1, ?_⟩
    · rcases h1 with h1 | ⟨f, hf, h1⟩
      · split at h1
        · exact .inr ⟨a, by simp, h1.symm⟩
        · exact .inl h1
      · exact .inr ⟨f, by simp [hf], h1⟩
    · rcases h2 with h2 | ⟨f, hf, h2⟩
      · split at h2
        · exact .inr ⟨a, by simp, h2.symm⟩
        · exact .inl h2
      · exact .inr ⟨f, by simp [hf], h2⟩
    · intro f hf
      rcases List.mem_cons.1 hf with rfl | hf
      · exact ⟨hmin.2, hmax.2⟩
      · exact h5 f hf

/-- The bounds `calculateRange` returns for a list with at least one target are attained. -/
theorem calculateRange_spec {targets : List (TargetFunc φ)} (hne : targets ≠ [])
    (hmax : ∀ f ∈ targets, f.index ≠ uintMax) :
    (∃ lo ∈ targets, lo.index = (calculateRange targets).min) ∧
      (∃ hi ∈ targets, hi.index = (calculateRange targets).max) ∧
      ∀ f ∈ targets, (calculateRange targets).min ≤ f.index ∧ f.index ≤ (calculateRange targets).max := by
  obtain ⟨h1, h2, -, -, h5⟩ := foldl_calculateRangeStep targets hmax rfl
  obtain ⟨g, hg⟩ := List.exists_mem_of_ne_nil _ hne
  refine ⟨?_, ?_, h5⟩
  · rcases h2 with h2 | h2
    · -- the starting value `UINT_MAX` survives only above an index `UINT_MAX`
      have hle := (h5 g hg).1
      rw [h2] at hle
      have hlt := UInt32.toNat_lt g.index
      have : g.index = uintMax := by
        apply UInt32.toNat_inj.1
        have := UInt32.le_iff_toNat_le.1 hle
        simp only [uintMax, UInt32.reduceToNat] at this ⊢
        omega
      exact absurd this (hmax g hg)
    · exact h2
  · rcases h1 with h1 | h1
    · have hle := (h5 g hg).2
      rw [h1] at hle
      refine ⟨g, hg, ?_⟩
      show g.index = (calculateRange targets).max
      unfold calculateRange
      rw [h1]
      exact UInt32.le_antisymm hle (UInt32.le_iff_toNat_le.2 (Nat.zero_le _))
    · exact h1

end StubProfile.Tools
