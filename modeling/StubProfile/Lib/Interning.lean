import Mathlib.Data.List.Nodup
import Mathlib.Tactic.Common

/-!
# Interning

A list of keys that grows by appending each key it does not hold yet: the position of a key never changes once it
is in the list, so it can serve as its number.  `internAll [] as` is the list of the distinct elements of `as` in
the order of their first occurrence.
-/

namespace Interning

variable {α : Type} [DecidableEq α] {l as bs : List α} {a b : α}

def intern (l : List α) (a : α) : List α := if a ∈ l then l else l ++ [a]

def internAll (l as : List α) : List α := as.foldl intern l

@[simp] theorem internAll_nil (l : List α) : internAll l [] = l := rfl

@[simp] theorem internAll_cons (l : List α) (a : α) (as : List α) :
    internAll l (a :: as) = internAll (intern l a) as := rfl

theorem internAll_append : internAll l (as ++ bs) = internAll (internAll l as) bs := List.foldl_append

theorem intern_of_mem (h : a ∈ l) : intern l a = l := by simp [intern, h]

theorem mem_intern : b ∈ intern l a ↔ b ∈ l ∨ b = a := by
  unfold intern
  split
  · constructor
    · exact .inl
    · rintro (h | rfl) <;> assumption
  · simp

theorem mem_internAll : b ∈ internAll l as ↔ b ∈ l ∨ b ∈ as := by
  induction as generalizing l with
  | nil => simp
  | cons a as ih => rw [internAll_cons, ih, mem_intern, List.mem_cons, or_assoc]

theorem nodup_intern (h : l.Nodup) : (intern l a).Nodup := by
  unfold intern
  split
  · exact h
  · rename_i ha
    rw [← List.concat_eq_append]
    exact h.concat ha

theorem nodup_internAll (h : l.Nodup) : (internAll l as).Nodup := by
  induction as generalizing l with
  | nil => exact h
  | cons a as ih => exact ih (nodup_intern h)

theorem internAll_of_subset (h : ∀ a ∈ as, a ∈ l) : internAll l as = l := by
  induction as with
  | nil => rfl
  | cons a as ih =>
    rw [internAll_cons, intern_of_mem (h a (by simp))]
    exact ih fun b hb => h b (by simp [hb])

theorem internAll_of_nodup (h : (l ++ as).Nodup) : internAll l as = l ++ as := by
  induction as generalizing l with
  | nil => simp
  | cons a as ih =>
    have ha : a ∉ l := by
      intro ha
      exact (List.nodup_append.1 h).2.2 a ha a (by simp) rfl
    rw [internAll_cons, intern, if_neg ha, ih (by simpa using h)]
    simp

private theorem filter_intern (p : α → Bool) :
    (intern l a).filter p = if p a then intern (l.filter p) a else l.filter p := by
  unfold intern
  by_cases ha : a ∈ l
  · by_cases hp : p a <;> simp [ha, hp]
  · by_cases hp : p a <;> simp [ha, hp]

/-- Interning and then dropping keys is the same as dropping them first. -/
theorem filter_internAll (p : α → Bool) : (internAll l as).filter p = internAll (l.filter p) (as.filter p) := by
  induction as generalizing l with
  | nil => rfl
  | cons a as ih =>
    rw [internAll_cons, ih, filter_intern]
    by_cases hp : p a
    · simp [hp]
    · simp [hp]

/-- What interning adds: the elements that are not there yet, without repetitions, in order. -/
private theorem internAll_eq_append [BEq α] [LawfulBEq α] : internAll l as = l ++ (as.filter (· ∉ l)).eraseDups := by
  induction as generalizing l with
  | nil => simp
  | cons a as ih =>
    rw [internAll_cons, ih]
    by_cases ha : a ∈ l
    · simp [intern, ha]
    · have hrest : as.filter (· ∉ l ++ [a]) = (as.filter (· ∉ l)).filter fun b => !b == a := by
        rw [List.filter_filter]
        refine List.filter_congr fun b _ => ?_
        by_cases hb : b = a <;> simp [hb]
      rw [intern, if_neg ha, hrest, List.filter_cons_of_pos (by simpa using ha), List.eraseDups_cons, List.append_assoc]
      rfl

theorem internAll_nil_eq [BEq α] [LawfulBEq α] : internAll [] as = as.eraseDups := by
  rw [internAll_eq_append, List.nil_append, List.filter_eq_self.2 (by simp)]

end Interning
