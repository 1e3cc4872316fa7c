import Mathlib.Algebra.BigOperators.Group.List.Basic
import Mathlib.Tactic.Abel
import StubProfile.Lib.Machine

/-!
# Accounts of resources

A machine whose states are amounts of resources, the elements of a commutative monoid.  `Turns step l a b` says that the
inputs `l` turn the amount `a` into `b`, whatever else is there.  Such statements compose (`Turns.append`), hold beside any
other amount (`Turns.frame`) and add up over a list (`turns_flatMap`).
-/

namespace Resources

open Machine

variable {ρ α β ε : Type} [AddCommMonoid ρ] {step : ρ → α → Except ε ρ} {l l' : List α} {a b c : ρ}

/-- The inputs turn the amount `a` into `b` and leave the rest alone. -/
def Turns (step : ρ → α → Except ε ρ) (l : List α) (a b : ρ) : Prop := ∀ r, run step (a + r) l = .ok (b + r)

theorem Turns.nil (a : ρ) : Turns step [] a a := fun _ => rfl

theorem Turns.append (h : Turns step l a b) (h' : Turns step l' b c) : Turns step (l ++ l') a c := by
  intro r
  rw [run_append_eq_ok]
  exact ⟨b + r, h r, h' r⟩

theorem Turns.frame (h : Turns step l a b) (c : ρ) : Turns step l (a + c) (b + c) := by
  intro r
  rw [add_assoc, add_assoc]
  exact h (c + r)

theorem Turns.run_eq (h : Turns step l a b) : run step a l = .ok b := by
  have h0 := h 0
  rwa [add_zero, add_zero] at h0

/-- What holds for the elements one by one holds for the list. -/
theorem turns_flatMap {f : β → List α} {a b : β → ρ} (xs : List β) (h : ∀ x ∈ xs, Turns step (f x) (a x) (b x)) :
    Turns step (xs.flatMap f) (xs.map a).sum (xs.map b).sum := by
  induction xs with
  | nil => exact Turns.nil 0
  | cons x xs ih =>
    rw [List.flatMap_cons, List.map_cons, List.map_cons, List.sum_cons, List.sum_cons]
    have hx : Turns step (f x) (a x + (xs.map a).sum) (b x + (xs.map a).sum) := (h x (by simp)).frame _
    have hxs : Turns step (xs.flatMap f) (b x + (xs.map a).sum) (b x + (xs.map b).sum) := by
      rw [add_comm (b x), add_comm (b x)]
      exact (ih fun y hy => h y (by simp [hy])).frame (b x)
    exact hx.append hxs

end Resources
