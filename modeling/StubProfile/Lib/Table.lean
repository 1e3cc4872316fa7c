import Mathlib.Tactic.Common

/-!
# A table updated one entry at a time

`applyAll ix f l tab` runs through the updates `l`, where the update `a` applies `f a` to the entry `ix a` of the
table.  The updates of different entries do not interfere: what ends up in an entry is the fold of the updates of
that entry alone (`getElem?_applyAll`).
-/

namespace Table

variable {α β : Type}

/-- Apply the updates in order. -/
def applyAll (ix : α → Nat) (f : α → β → β) (l : List α) (tab : List β) : List β :=
  l.foldl (fun tab a => tab.modify (ix a) (f a)) tab

variable {ix : α → Nat} {f : α → β → β}

theorem applyAll_cons (a : α) (l : List α) (tab : List β) :
    applyAll ix f (a :: l) tab = applyAll ix f l (tab.modify (ix a) (f a)) := rfl

/-- The updates an entry sees are those with its index. -/
theorem getElem?_applyAll (l : List α) (tab : List β) (i : Nat) :
    (applyAll ix f l tab)[i]? =
      tab[i]?.map fun b => (l.filter fun a => ix a = i).foldl (fun b a => f a b) b := by
  induction l generalizing tab with
  | nil => simp [applyAll]
  | cons a l ih =>
    rw [applyAll_cons, ih, List.getElem?_modify]
    by_cases h : ix a = i
    · simp [h, Function.comp_def]
    · simp [h]

end Table
