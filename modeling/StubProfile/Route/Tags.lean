import StubProfile.Route.Table
import Mathlib.Data.Finset.Card
import Mathlib.Data.Finset.Union
import Mathlib.Data.Finset.Prod

/-!
# What a table says about the entries of the route table

The route table has entries on three levels, for the first 16, 24 and 32 bits of an address.  A cell is a level with a
value of these bits.  From the table of prefixes it is known what stands in the entry of a cell: the length and the next
hop of the best match of its bits (`bestTag`), and whether it has a block below it, namely if there is a longer prefix
than its bits in the table (`HasLonger`).
-/

namespace StubProfile.Route

open LongestPrefix

variable {T : Table Nat} {k x y cidr v : Nat} {q : Nat × Nat}

/-- The number of bits of a cell. -/
def width (k : Nat) : Nat := 16 + 8 * k

/-- The prefixes have 1 to 32 bits, and the next hops are not 0 and have at most 25 bits. -/
def Table.Good (T : Table Nat) : Prop :=
  ∀ len v nhi, T len v = some nhi → 1 ≤ len ∧ len ≤ 32 ∧ v < 2 ^ len ∧ 0 < nhi ∧ nhi < 2 ^ 25

/-- The prefixes have 1 to 32 bits, and the next hops have at most 25 bits and may be 0. -/
def Table.Fits (T : Table Nat) : Prop :=
  ∀ len v nhi, T len v = some nhi → 1 ≤ len ∧ len ≤ 32 ∧ v < 2 ^ len ∧ nhi < 2 ^ 25

/-- The length and the next hop of the best match of a cell, or zeros. -/
def bestTag (T : Table Nat) (q : Nat × Nat) : Nat × Nat := (best T (width q.1) q.2).getD (0, 0)

/-- There is a prefix in the table that has the bits of the cell and more. -/
def HasLonger (T : Table Nat) (q : Nat × Nat) : Prop :=
  ∃ len v, width q.1 < len ∧ T len v ≠ none ∧ v / 2 ^ (len - width q.1) = q.2

/-- The bits of the cell start with the prefix. -/
def InPrefix (cidr v : Nat) (q : Nat × Nat) : Prop := cidr ≤ width q.1 ∧ q.2 / 2 ^ (width q.1 - cidr) = v

instance (cidr v : Nat) : DecidablePred (InPrefix cidr v) := fun _ => inferInstanceAs (Decidable (_ ∧ _))

/-- The cells of a region that belong to a prefix of at most `cidr` bits get another tag. -/
def paint (R : Nat × Nat → Prop) [DecidablePred R] (cidr : Nat) (tag : Nat × Nat) (B : Nat × Nat → Nat × Nat) :
    Nat × Nat → Nat × Nat :=
  fun q => if R q ∧ (B q).1 ≤ cidr then tag else B q

theorem Table.good_empty : Table.empty.Good := fun _ _ _ h => absurd h (by simp [Table.empty])

theorem Table.Good.fits (hT : T.Good) : T.Fits := fun len v nhi h => by
  obtain ⟨h1, h32, hv, -, hnhi⟩ := hT len v nhi h
  exact ⟨h1, h32, hv, hnhi⟩

theorem Table.Fits.change (hT : T.Fits) {entry : Option Nat}
    (h : ∀ nhi, entry = some nhi → 1 ≤ cidr ∧ cidr ≤ 32 ∧ v < 2 ^ cidr ∧ nhi < 2 ^ 25) :
    Table.Fits (assign T cidr v entry) :=
  forall_assign hT h

theorem Table.Good.change (hT : T.Good) {entry : Option Nat}
    (h : ∀ nhi, entry = some nhi → 1 ≤ cidr ∧ cidr ≤ 32 ∧ v < 2 ^ cidr ∧ 0 < nhi ∧ nhi < 2 ^ 25) :
    Table.Good (assign T cidr v entry) :=
  forall_assign hT h

/-! ### Best matches -/

theorem best_small (hT : T.Fits) (l x : Nat) :
    ((best T l x).getD (0, 0)).1 < 2 ^ 6 ∧ ((best T l x).getD (0, 0)).2 < 2 ^ 25 := by
  cases hb : best T l x with
  | none => decide
  | some r =>
    obtain ⟨-, hentry, -⟩ := best_eq_some_iff.1 hb
    obtain ⟨-, hlen, -, hnhi⟩ := hT _ _ _ hentry
    exact ⟨by simp; omega, hnhi⟩

theorem bestTag_small (hT : T.Fits) (q : Nat × Nat) : (bestTag T q).1 < 2 ^ 6 ∧ (bestTag T q).2 < 2 ^ 25 :=
  best_small hT _ _

theorem bestTag_le (T : Table Nat) (q : Nat × Nat) : (bestTag T q).1 ≤ width q.1 := by
  unfold bestTag
  cases hb : best T (width q.1) q.2 with
  | none => exact Nat.zero_le _
  | some r => exact (best_eq_some_iff.1 hb).1

theorem bestTag_eq_zero (hT : T.Fits) (h : (bestTag T q).1 = 0) : bestTag T q = (0, 0) := by
  unfold bestTag at h ⊢
  cases hb : best T (width q.1) q.2 with
  | none => rfl
  | some r =>
    obtain ⟨-, hentry, -⟩ := best_eq_some_iff.1 hb
    have := (hT _ _ _ hentry).1
    rw [hb] at h
    simp at h
    omega

private theorem le_bestTag (h : InPrefix cidr v q) (hv : T cidr v ≠ none) : cidr ≤ (bestTag T q).1 := by
  obtain ⟨hle, rfl⟩ := h
  obtain ⟨r, hb, hr⟩ := best_of_entry hle hv
  simpa [bestTag, hb] using hr

theorem width_succ (k : Nat) : width (k + 1) = width k + 8 := by
  unfold width
  omega

private theorem div_width (y : Nat) {k len : Nat} (h : len ≤ width k) :
    y / 2 ^ (width (k + 1) - len) = y / 256 / 2 ^ (width k - len) := by
  rw [width_succ, show width k + 8 - len = 8 + (width k - len) by omega, Nat.pow_add, Nat.div_div_eq_div_mul]

/-- Below a cell the matches do not get shorter. -/
theorem bestTag_mono (T : Table Nat) (k y : Nat) : (bestTag T (k, y / 256)).1 ≤ (bestTag T (k + 1, y)).1 := by
  cases hb : best T (width k) (y / 256) with
  | none => simp [bestTag, hb]
  | some r =>
    obtain ⟨hle, hentry, -⟩ := best_eq_some_iff.1 hb
    have h : InPrefix r.1 (y / 256 / 2 ^ (width k - r.1)) (k + 1, y) := ⟨by simp [width_succ]; omega, div_width y hle⟩
    simpa [bestTag, hb] using le_bestTag h (by simp [hentry])

theorem bestTag_of_not_hasLonger (h : ¬HasLonger T (k, y / 256)) : bestTag T (k + 1, y) = bestTag T (k, y / 256) := by
  have hshort : best T (width (k + 1)) y = best T (width k) (y / 2 ^ (width (k + 1) - width k)) := by
    refine best_of_short (by simp [width_succ]) fun len h1 h2 => ?_
    by_contra hne
    refine h ⟨len, _, h1, hne, ?_⟩
    rw [Nat.div_div_eq_div_mul, ← Nat.pow_add]
    rw [width_succ] at h2 ⊢
    rw [show width k + 8 - len + (len - width k) = 8 by omega]
  rw [bestTag, hshort, width_succ, Nat.add_sub_cancel_left]
  rfl

/-! ### Longer prefixes -/

/-- The cells of the last level have all bits of an address. -/
theorem HasLonger.level_lt (hT : T.Fits) (h : HasLonger T q) : q.1 < 2 := by
  obtain ⟨len, v, hlen, hv, -⟩ := h
  obtain ⟨nhi, hnhi⟩ := Option.ne_none_iff_exists'.1 hv
  have := (hT _ _ _ hnhi).2.1
  unfold width at hlen
  omega

theorem HasLonger.parent (h : HasLonger T (k + 1, y)) : HasLonger T (k, y / 256) := by
  obtain ⟨len, v, hlen, hv, hy⟩ := h
  simp only [width_succ] at hlen hy
  refine ⟨len, v, by simp only; omega, hv, ?_⟩
  simp only
  rw [← hy, show len - width k = len - (width k + 8) + 8 by omega, Nat.pow_add, ← Nat.div_div_eq_div_mul]

/-- One level below a cell with a prefix that is longer than its bits there is a cell that shows it: with a longer
prefix, too, or with a match at least as long. -/
theorem shown_below {len : Nat} (hlen : width k < len) (hv : T len v ≠ none) :
    ∃ y, y / 256 = v / 2 ^ (len - width k) ∧ (HasLonger T (k + 1, y) ∨ len ≤ (bestTag T (k + 1, y)).1) := by
  by_cases hle : len ≤ width (k + 1)
  · refine ⟨v * 2 ^ (width (k + 1) - len), ?_, .inr ?_⟩
    · have h8 : 256 = 2 ^ (width (k + 1) - len) * 2 ^ (len - width k) := by
        rw [← Nat.pow_add]
        rw [width_succ] at hle ⊢
        rw [show width k + 8 - len + (len - width k) = 8 by omega]
      rw [h8, Nat.mul_comm v, Nat.mul_div_mul_left _ _ (Nat.two_pow_pos _)]
    · exact le_bestTag ⟨hle, Nat.mul_div_cancel _ (Nat.two_pow_pos _)⟩ hv
  · refine ⟨v / 2 ^ (len - width (k + 1)), ?_, .inl ⟨len, v, Nat.lt_of_not_le hle, hv, rfl⟩⟩
    rw [width_succ] at hle ⊢
    rw [Nat.div_div_eq_div_mul, show 256 = 2 ^ 8 by rfl, ← Nat.pow_add,
      show len - (width k + 8) + 8 = len - width k by omega]

theorem HasLonger.below (h : HasLonger T (k, x)) :
    ∃ y, y / 256 = x ∧ (HasLonger T (k + 1, y) ∨ width k < (bestTag T (k + 1, y)).1) := by
  obtain ⟨len, v, hlen, hv, hx⟩ := h
  obtain ⟨y, hy, hshown⟩ := shown_below hlen hv
  exact ⟨y, hy.trans hx, hshown.imp id (Nat.lt_of_lt_of_le hlen)⟩

theorem hasLonger_insert {nhi : Nat} :
    HasLonger (assign T cidr v (some nhi)) q ↔
      HasLonger T q ∨ width q.1 < cidr ∧ v / 2 ^ (cidr - width q.1) = q.2 := by
  constructor
  · rintro ⟨len, u, hlen, hu, hq⟩
    by_cases heq : len = cidr ∧ u = v
    · obtain ⟨rfl, rfl⟩ := heq
      exact .inr ⟨hlen, hq⟩
    · exact .inl ⟨len, u, hlen, by rwa [assign, if_neg heq] at hu, hq⟩
  · rintro (⟨len, u, hlen, hu, hq⟩ | ⟨hlen, hq⟩)
    · refine ⟨len, u, hlen, ?_, hq⟩
      unfold assign
      split
      · simp
      · exact hu
    · exact ⟨cidr, v, hlen, by simp [assign], hq⟩

theorem HasLonger.of_erase (h : HasLonger (assign T cidr v none) q) : HasLonger T q := by
  obtain ⟨len, u, hlen, hu, hq⟩ := h
  refine ⟨len, u, hlen, ?_, hq⟩
  unfold assign at hu
  split at hu
  · exact absurd rfl hu
  · exact hu

/-- Only the cells on the way to a deleted prefix can lose their longer prefixes. -/
theorem HasLonger.erase (h : HasLonger T q) (hq : ¬(width q.1 < cidr ∧ v / 2 ^ (cidr - width q.1) = q.2)) :
    HasLonger (assign T cidr v none) q := by
  obtain ⟨len, u, hlen, hu, hq'⟩ := h
  refine ⟨len, u, hlen, ?_, hq'⟩
  have hne : ¬(len = cidr ∧ u = v) := by
    rintro ⟨rfl, rfl⟩
    exact hq ⟨hlen, hq'⟩
  rwa [assign, if_neg hne]

/-! ### Tags after a change -/

private theorem shows_iff : Shows T (width q.1) q.2 cidr v ↔ InPrefix cidr v q ∧ (bestTag T q).1 ≤ cidr := by
  unfold Shows InPrefix bestTag
  cases hb : best T (width q.1) q.2 with
  | none => simp
  | some r => simp [and_assoc]

theorem bestTag_insert (T : Table Nat) (cidr v nhi : Nat) :
    bestTag (assign T cidr v (some nhi)) = paint (InPrefix cidr v) cidr (cidr, nhi) (bestTag T) := by
  funext q
  rw [bestTag, best_insert, paint]
  by_cases h : Shows T (width q.1) q.2 cidr v
  · rw [if_pos h, if_pos (shows_iff.1 h)]
    rfl
  · rw [if_neg h, if_neg fun h' => h (shows_iff.2 h')]
    rfl

theorem bestTag_erase (T : Table Nat) (cidr v : Nat) :
    bestTag (assign T (cidr + 1) v none) =
      paint (InPrefix (cidr + 1) v) (cidr + 1) ((best T cidr (v / 2)).getD (0, 0)) (bestTag T) := by
  funext q
  rw [bestTag, best_erase, paint]
  by_cases h : Shows T (width q.1) q.2 (cidr + 1) v
  · rw [if_pos h, if_pos (shows_iff.1 h)]
  · rw [if_neg h, if_neg fun h' => h (shows_iff.2 h')]
    rfl

/-! ### The blocks that a table needs -/

open Classical in
/-- The cells with a block below them. -/
noncomputable def longer (T : Table Nat) : Finset (Nat × Nat) :=
  ((Finset.range 2).biUnion fun k => {k} ×ˢ Finset.range (2 ^ width k)).filter (HasLonger T)

theorem mem_longer (hT : T.Fits) : q ∈ longer T ↔ HasLonger T q := by
  unfold longer
  simp only [Finset.mem_filter, Finset.mem_biUnion, Finset.mem_range, Finset.mem_product, Finset.mem_singleton]
  constructor
  · rintro ⟨-, h⟩
    exact h
  · intro h
    refine ⟨⟨q.1, h.level_lt hT, rfl, ?_⟩, h⟩
    obtain ⟨len, v, hlen, hv, hq⟩ := h
    obtain ⟨nhi, hnhi⟩ := Option.ne_none_iff_exists'.1 hv
    rw [← hq, Nat.div_lt_iff_lt_mul (Nat.two_pow_pos _), ← Nat.pow_add, show width q.1 + (len - width q.1) = len by omega]
    exact (hT _ _ _ hnhi).2.2.1

/-- The number of blocks in use for a table. -/
noncomputable def blocks (T : Table Nat) : Nat := (longer T).card

end StubProfile.Route
