import Mathlib.Tactic.Common

/-!
# Loops that enumerate

A loop that may fail puts out a list of results.  `Enumerates P out` says that it does not fail and that its results are
exactly the elements with the property `P`, each of them once.  A loop over a list enumerates what its turns enumerate
(`enumerates_collect`), when no result comes from two turns.
-/

namespace Enumeration

variable {α β : Type} {P Q : α → Prop} {out out' : Option (List α)}

/-- The results of two parts, one after the other. -/
def followedBy : Option (List α) → Option (List α) → Option (List α)
  | some l, some l' => some (l ++ l')
  | _, _ => none

/-- The results of the turns of a loop. -/
def collect (turn : β → Option (List α)) : List β → Option (List α)
  | [] => some []
  | b :: l => followedBy (turn b) (collect turn l)

def Enumerates (P : α → Prop) (out : Option (List α)) : Prop :=
  ∃ l, out = some l ∧ l.Nodup ∧ ∀ a, a ∈ l ↔ P a

theorem Enumerates.congr (h : Enumerates P out) (hPQ : ∀ a, P a ↔ Q a) : Enumerates Q out := by
  obtain ⟨l, hout, hnodup, hmem⟩ := h
  exact ⟨l, hout, hnodup, fun a => (hmem a).trans (hPQ a)⟩

theorem enumerates_nil (h : ∀ a, ¬P a) : Enumerates P (some []) :=
  ⟨[], rfl, List.nodup_nil, fun a => by simp [h a]⟩

theorem enumerates_singleton {a : α} (h : ∀ a', P a' ↔ a' = a) : Enumerates P (some [a]) :=
  ⟨[a], rfl, by simp, fun a' => by rw [List.mem_singleton, h]⟩

theorem Enumerates.followedBy (hP : Enumerates P out) (hQ : Enumerates Q out') (hapart : ∀ a, P a → ¬Q a) :
    Enumerates (fun a => P a ∨ Q a) (followedBy out out') := by
  obtain ⟨l, rfl, hl, hmem⟩ := hP
  obtain ⟨l', rfl, hl', hmem'⟩ := hQ
  refine ⟨l ++ l', rfl, List.nodup_append.2 ⟨hl, hl', ?_⟩, fun a => by rw [List.mem_append, hmem, hmem']⟩
  rintro a ha _ ha' rfl
  exact hapart a ((hmem a).1 ha) ((hmem' a).1 ha')

theorem enumerates_collect {turn : β → Option (List α)} {P : β → α → Prop} {l : List β} (hl : l.Nodup)
    (hturn : ∀ b ∈ l, Enumerates (P b) (turn b)) (hapart : ∀ b ∈ l, ∀ b' ∈ l, ∀ a, P b a → P b' a → b = b') :
    Enumerates (fun a => ∃ b ∈ l, P b a) (collect turn l) := by
  induction l with
  | nil => exact enumerates_nil (by simp)
  | cons b l ih =>
    obtain ⟨hb, hl⟩ := List.nodup_cons.1 hl
    have hrest := ih hl (fun b' hb' => hturn b' (List.mem_cons_of_mem _ hb')) fun b₁ h₁ b₂ h₂ =>
      hapart b₁ (List.mem_cons_of_mem _ h₁) b₂ (List.mem_cons_of_mem _ h₂)
    refine ((hturn b List.mem_cons_self).followedBy hrest ?_).congr fun a => by simp
    rintro a ha ⟨b', hb', ha'⟩
    obtain rfl := hapart b List.mem_cons_self b' (List.mem_cons_of_mem _ hb') a ha ha'
    exact hb hb'

end Enumeration
