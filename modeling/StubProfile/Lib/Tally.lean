import Mathlib.Data.Finset.Card
import Mathlib.Data.Finset.Range

/-!
# Counters that should count a set

`Counts p n k`: the elements with the property `p` form a finite set, and the counter value `n` exceeds its size by
`k`.  A counter is right when the excess is 0; the lemmas say how the excess changes when the set and the counter
change together (`Counts.insert`), the set shrinks and the counter does not (`Counts.erase`), or an element of the
set is counted again (`Counts.recount`).
-/

namespace Tally

variable {α : Type} {p q : α → Prop} {n k : Nat} {a : α}

/-- The value `n` exceeds the number of elements with the property `p` by `k`. -/
def Counts (p : α → Prop) (n k : Nat) : Prop := ∃ s : Finset α, (∀ a, a ∈ s ↔ p a) ∧ n = s.card + k

theorem Counts.empty (h : ∀ a, ¬ p a) : Counts p 0 0 :=
  ⟨∅, fun a => ⟨fun ha => absurd ha (Finset.notMem_empty a), fun ha => absurd ha (h a)⟩, rfl⟩

theorem Counts.congr (h : Counts p n k) (hq : ∀ a, q a ↔ p a) : Counts q n k := by
  obtain ⟨s, hs, hn⟩ := h
  exact ⟨s, fun a => (hs a).trans (hq a).symm, hn⟩

theorem Counts.recount (h : Counts p n k) (ha : p a) (hq : ∀ b, q b ↔ b = a ∨ p b) : Counts q (n + 1) (k + 1) := by
  obtain ⟨s, hs, hn⟩ := h
  refine ⟨s, fun b => ?_, by omega⟩
  rw [hs, hq]
  constructor
  · exact .inr
  · rintro (rfl | hb)
    · exact ha
    · exact hb

theorem Counts.insert [DecidableEq α] (h : Counts p n k) (ha : ¬ p a) (hq : ∀ b, q b ↔ b = a ∨ p b) :
    Counts q (n + 1) k := by
  obtain ⟨s, hs, hn⟩ := h
  refine ⟨Insert.insert a s, fun b => ?_, ?_⟩
  · rw [Finset.mem_insert, hs, hq]
  · rw [Finset.card_insert_of_notMem (fun hm => ha ((hs a).1 hm))]
    omega

theorem Counts.erase [DecidableEq α] (h : Counts p n k) (ha : p a) (hq : ∀ b, q b ↔ b ≠ a ∧ p b) :
    Counts q n (k + 1) := by
  obtain ⟨s, hs, hn⟩ := h
  refine ⟨s.erase a, fun b => ?_, ?_⟩
  · rw [Finset.mem_erase, hs, hq]
  · have := Finset.card_erase_add_one ((hs a).2 ha)
    omega

theorem Counts.excess_eq {k' : Nat} (h : Counts p n k) (h' : Counts p n k') : k = k' := by
  obtain ⟨s, hs, hn⟩ := h
  obtain ⟨s', hs', hn'⟩ := h'
  have : s = s' := Finset.ext fun a => (hs a).trans (hs' a).symm
  subst this
  omega

theorem Counts.le_of_injOn {m : Nat} (h : Counts p n k) (f : α → Nat) (hlt : ∀ a, p a → f a < m)
    (hinj : ∀ a b, p a → p b → f a = f b → a = b) : n ≤ m + k := by
  obtain ⟨s, hs, hn⟩ := h
  have hcard : s.card ≤ (Finset.range m).card := by
    apply Finset.card_le_card_of_injOn f
    · intro a ha
      have := hlt a ((hs a).1 (Finset.mem_coe.1 ha))
      simpa using this
    · intro a ha b hb hab
      exact hinj a b ((hs a).1 (Finset.mem_coe.1 ha)) ((hs b).1 (Finset.mem_coe.1 hb)) hab
  rw [Finset.card_range] at hcard
  omega

end Tally
