import Mathlib.Logic.Function.Basic
import Mathlib.Tactic.Common

/-!
# A buffer that starts over when it is full

A buffer has `cap` cells and a count `nb` of the cells in use.  A push fills the next cell, and the push that fills
the last one sets the count back to 0.  So the buffer holds what was pushed since the last time it was full: after
a list of pushes, its last `length % cap` elements (`Holds.pushAll`).
-/

namespace WrapBuffer

variable {α : Type}

structure Buf (α : Type) where
  nb : Nat
  cells : Nat → α

/-- Fill the next cell; the count never reaches `cap`. -/
def Buf.push (cap : Nat) (b : Buf α) (a : α) : Buf α where
  nb := if b.nb + 1 = cap then 0 else b.nb + 1
  cells := Function.update b.cells b.nb a

def Buf.contents (b : Buf α) : List α := (List.range b.nb).map b.cells

def pushAll (cap : Nat) (b : Buf α) (l : List α) : Buf α := l.foldl (Buf.push cap) b

/-- The buffer as it is after the elements of `l` were pushed. -/
structure Holds (cap : Nat) (b : Buf α) (l : List α) : Prop where
  nb_eq : b.nb = l.length % cap
  contents_eq : b.contents = l.drop (l.length - l.length % cap)

variable {cap : Nat} {b : Buf α} {l : List α}

theorem Holds.empty (h : b.nb = 0) : Holds cap b [] := by
  refine ⟨by simpa using h, ?_⟩
  simp [Buf.contents, h]

private theorem contents_update (a : α) :
    (List.range (b.nb + 1)).map (Function.update b.cells b.nb a) = b.contents ++ [a] := by
  rw [List.range_succ, List.map_append, List.map_singleton, Function.update_self]
  congr 1
  unfold Buf.contents
  apply List.map_congr_left
  intro i hi
  have hlt : i < b.nb := List.mem_range.1 hi
  rw [Function.update_of_ne (by omega)]

theorem Holds.push (hcap : 0 < cap) (h : Holds cap b l) (a : α) : Holds cap (b.push cap a) (l ++ [a]) := by
  have hr : l.length % cap < cap := Nat.mod_lt _ hcap
  have hle : l.length % cap ≤ l.length := Nat.mod_le _ _
  have hdiv := Nat.mod_add_div l.length cap
  by_cases hfull : b.nb + 1 = cap
  · -- the push that fills the buffer
    have hmod : (l.length + 1) % cap = 0 := by
      rw [h.nb_eq] at hfull
      rw [← hdiv, Nat.add_right_comm, hfull, Nat.add_mul_mod_self_left, Nat.mod_self]
    refine ⟨?_, ?_⟩
    · simp [Buf.push, hfull, hmod]
    · simp [Buf.push, Buf.contents, hfull, hmod]
  · have hmod : (l.length + 1) % cap = l.length % cap + 1 := by
      have hlt : l.length % cap + 1 < cap := by
        rw [h.nb_eq] at hfull
        omega
      conv_lhs => rw [← hdiv, Nat.add_right_comm, Nat.add_mul_mod_self_left, Nat.mod_eq_of_lt hlt]
    refine ⟨?_, ?_⟩
    · rw [List.length_append, List.length_singleton, hmod, ← h.nb_eq]
      simp only [Buf.push, hfull, ↓reduceIte]
    · have hcontents : (b.push cap a).contents = b.contents ++ [a] := by
        unfold Buf.push Buf.contents
        simp only [hfull, ↓reduceIte]
        exact contents_update a
      rw [hcontents, h.contents_eq, List.length_append, List.length_singleton, hmod, Nat.add_sub_add_right,
        List.drop_append_of_le_length (by omega)]

/-- What a run of pushes leaves in the buffer. -/
theorem Holds.pushAll (hcap : 0 < cap) (h : Holds cap b l) (as : List α) :
    Holds cap (pushAll cap b as) (l ++ as) := by
  induction as generalizing b l with
  | nil => simpa [WrapBuffer.pushAll] using h
  | cons a as ih =>
    have hstep := ih (h.push hcap a)
    simpa [WrapBuffer.pushAll] using hstep

/-- Nothing was lost exactly if the buffer was never full. -/
theorem Holds.contents_eq_iff (hcap : 0 < cap) (h : Holds cap b l) : b.contents = l ↔ l.length < cap := by
  have hr : l.length % cap < cap := Nat.mod_lt _ hcap
  rw [h.contents_eq]
  constructor
  · intro he
    have hlen := congrArg List.length he
    rw [List.length_drop] at hlen
    by_contra hge
    omega
  · intro hlt
    rw [Nat.mod_eq_of_lt hlt, Nat.sub_self, List.drop_zero]

end WrapBuffer
