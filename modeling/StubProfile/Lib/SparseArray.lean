import Mathlib.Logic.Function.Basic
import Mathlib.Tactic.Common

/-!
# Arrays compressed by a bitmap

A sparse array keeps its elements in a list without gaps, in the order of their positions, and says in a bitmap which
positions are in use.  The element at the position `i` stands in the list behind those at smaller positions, that is
at the index `rank b i`, the number of bits set below `i`.
-/

namespace SparseArray

variable {α : Type} {b : Nat → Bool} {i j n p w : Nat} {l : List α} {a : α}

/-- The number of bits set below `n`. -/
def rank (b : Nat → Bool) (n : Nat) : Nat := (List.range n).countP b

def lookup (b : Nat → Bool) (l : List α) (i : Nat) : Option α := if b i then l[rank b i]? else none

theorem rank_succ (b : Nat → Bool) (n : Nat) : rank b (n + 1) = rank b n + if b n then 1 else 0 := by
  simp [rank, List.range_succ, List.countP_append, List.countP_cons]

theorem rank_mono (b : Nat → Bool) (h : i ≤ j) : rank b i ≤ rank b j := by
  induction j with
  | zero =>
    obtain rfl : i = 0 := by omega
    exact Nat.le_refl _
  | succ j ih =>
    by_cases hij : i = j + 1
    · exact Nat.le_of_eq (by rw [hij])
    · have := ih (by omega)
      rw [rank_succ]
      omega

theorem rank_lt (hi : b i = true) (hij : i < j) : rank b i < rank b j := by
  have h := rank_mono b (show i + 1 ≤ j by omega)
  rw [rank_succ, hi] at h
  simp at h
  omega

private theorem rank_inj (hi : b i = true) (hj : b j = true) (h : rank b i = rank b j) : i = j := by
  rcases Nat.lt_trichotomy i j with hlt | heq | hgt
  · have := rank_lt hi hlt
    omega
  · exact heq
  · have := rank_lt hj hgt
    omega

theorem rank_eq_zero_iff : rank b n = 0 ↔ ∀ i < n, b i = false := by
  simp [rank, List.countP_eq_zero]

/-- Setting a bit moves the positions behind it. -/
theorem rank_set (hp : b p = false) (n : Nat) :
    rank (Function.update b p true) n = rank b n + if p < n then 1 else 0 := by
  induction n with
  | zero => simp [rank]
  | succ n ih =>
    rw [rank_succ, rank_succ, ih]
    by_cases hn : n = p
    · subst hn
      simp [hp]
    · have hlt : p < n + 1 ↔ p < n := by omega
      simp only [Function.update_of_ne hn, hlt]
      omega

theorem rank_clear (hp : b p = true) (n : Nat) :
    rank (Function.update b p false) n + (if p < n then 1 else 0) = rank b n := by
  have h := rank_set (b := Function.update b p false) (p := p) (by simp) n
  rw [Function.update_idem, Function.update_eq_self_iff.2 hp.symm] at h
  exact h.symm

theorem lookup_map {β : Type} (f : α → β) (i : Nat) : lookup b (l.map f) i = (lookup b l i).map f := by
  simp only [lookup, List.getElem?_map]
  split <;> rfl

/-- A loop over the positions that does something at those in use only is a loop over the list. -/
theorem foldlM_positions {σ : Type} {turn : σ → Nat → Option σ} {f : σ → α → Option σ} (hl : l.length = rank b w)
    (hset : ∀ i < w, ∀ a s, b i = true → l[rank b i]? = some a → turn s i = f s a)
    (hclear : ∀ i < w, ∀ s, b i = false → turn s i = some s) (s : σ) :
    (List.range w).foldlM turn s = l.foldlM f s := by
  have hpart : ∀ n ≤ w, (List.range n).foldlM turn s = (l.take (rank b n)).foldlM f s := by
    intro n hn
    induction n with
    | zero => rfl
    | succ n ih =>
      rw [List.range_succ, List.foldlM_append, ih (by omega), rank_succ]
      cases hb : b n with
      | false => simp [hclear n (by omega) _ hb]
      | true =>
        have hlt : rank b n < l.length := by
          rw [hl]
          exact rank_lt hb (by omega)
        have hturn : ∀ s, turn s n = f s l[rank b n] := fun s => hset n (by omega) _ s hb (List.getElem?_eq_getElem hlt)
        rw [if_pos rfl, List.take_succ_eq_append_getElem hlt, List.foldlM_append]
        simp [hturn]
  rw [hpart w (Nat.le_refl w), ← hl, List.take_length]

/-! ### The element at a position after a change -/

theorem lookup_eq_some (hl : l.length = rank b w) (hi : i < w) (hb : b i = true) :
    ∃ a, l[rank b i]? = some a ∧ lookup b l i = some a := by
  have hlt : rank b i < l.length := by
    rw [hl]
    exact rank_lt hb hi
  exact ⟨l[rank b i], List.getElem?_eq_getElem hlt, by simp [lookup, hb, hlt]⟩

theorem lookup_set (hl : l.length = rank b w) (hp : b p = true) (hpw : p < w) (a : α) (i : Nat) :
    lookup b (l.set (rank b p) a) i = if i = p then some a else lookup b l i := by
  have hlt : rank b p < l.length := by
    rw [hl]
    exact rank_lt hp hpw
  unfold lookup
  by_cases hi : i = p
  · subst hi
    simp [hp, hlt]
  · cases hb : b i with
    | false => simp [hi]
    | true =>
      have hne : rank b p ≠ rank b i := fun h => hi (rank_inj hp hb h).symm
      simp [hi, List.getElem?_set_ne hne]

theorem lookup_insert (hl : l.length = rank b w) (hp : b p = false) (hpw : p < w) (a : α) (i : Nat) :
    lookup (Function.update b p true) (l.insertIdx (rank b p) a) i = if i = p then some a else lookup b l i := by
  have hle : rank b p ≤ l.length := by
    rw [hl]
    exact rank_mono b (by omega)
  unfold lookup
  by_cases hi : i = p
  · subst hi
    simp only [Function.update_self, ↓reduceIte, rank_set hp, Nat.lt_irrefl, Nat.add_zero]
    exact List.getElem?_insertIdx_self.trans (by simp [hle])
  · rw [Function.update_of_ne hi, if_neg hi, rank_set hp]
    cases hb : b i with
    | false => rfl
    | true =>
      by_cases hlt : p < i
      · -- behind the new element
        have hrank := rank_mono b (show p ≤ i by omega)
        simp only [hlt, ↓reduceIte]
        rw [List.getElem?_insertIdx_of_gt (by omega)]
        simp
      · have hrank := rank_lt hb (show i < p by omega)
        simp only [hlt, ↓reduceIte, Nat.add_zero]
        rw [List.getElem?_insertIdx_of_lt hrank]

theorem lookup_erase (hp : b p = true) (i : Nat) :
    lookup (Function.update b p false) (l.eraseIdx (rank b p)) i = if i = p then none else lookup b l i := by
  unfold lookup
  by_cases hi : i = p
  · subst hi
    simp
  · rw [Function.update_of_ne hi, if_neg hi]
    have hclear := rank_clear hp i
    cases hb : b i with
    | false => rfl
    | true =>
      by_cases hlt : p < i
      · have hrank := rank_lt hp hlt
        simp only [hlt, ↓reduceIte] at hclear ⊢
        rw [List.getElem?_eraseIdx_of_ge (by omega), hclear]
      · have hrank := rank_lt hb (show i < p by omega)
        simp only [hlt, ↓reduceIte, Nat.add_zero] at hclear ⊢
        rw [hclear, List.getElem?_eraseIdx_of_lt hrank]

theorem length_insert (hl : l.length = rank b w) (hp : b p = false) (hpw : p < w) (a : α) :
    (l.insertIdx (rank b p) a).length = rank (Function.update b p true) w := by
  have hle : rank b p ≤ l.length := by
    rw [hl]
    exact rank_mono b (by omega)
  rw [List.length_insertIdx_of_le_length hle, rank_set hp, if_pos hpw, hl]

theorem length_erase (hl : l.length = rank b w) (hp : b p = true) (hpw : p < w) :
    (l.eraseIdx (rank b p)).length = rank (Function.update b p false) w := by
  have hlt : rank b p < l.length := by
    rw [hl]
    exact rank_lt hp hpw
  have hclear := rank_clear hp w
  rw [if_pos hpw] at hclear
  rw [List.length_eraseIdx_of_lt hlt]
  omega

end SparseArray
