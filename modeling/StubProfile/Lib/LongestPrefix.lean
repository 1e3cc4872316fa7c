import Mathlib.Algebra.Group.Nat.Defs
import Mathlib.Tactic.Common

/-!
# Longest prefix match

A prefix is given by its length `len` and its value `v < 2 ^ len`, the bits from the most significant one down.  A
table assigns something to some prefixes.  The address `x` of `L` bits has the prefix of the length `len` with the
value `x / 2 ^ (L - len)`, and `best T L x` is the entry of the longest prefix of `x` in the table, with its length.

* `best_eq_some_iff` says what this means;
* `best_insert` and `best_erase` follow the best match through a change of the table;
* `best_of_short` drops the last bits of the address where no prefix is that long;
* `best_split` divides the match at a node of a trie: below the node, and in it.
-/

namespace LongestPrefix

variable {ν : Type} {T : Nat → Nat → Option ν} {L W k len x p : Nat} {v : ν}

/-- The entry of the longest prefix of `x`, an address of `L` bits. -/
def best (T : Nat → Nat → Option ν) : Nat → Nat → Option (Nat × ν)
  | 0, x => (T 0 x).map fun v => (0, v)
  | L + 1, x =>
    match T (L + 1) x with
    | some v => some (L + 1, v)
    | none => best T L (x / 2)

theorem best_succ (T : Nat → Nat → Option ν) (L x : Nat) :
    best T (L + 1) x = match T (L + 1) x with
      | some v => some (L + 1, v)
      | none => best T L (x / 2) := rfl

private theorem div_two_pow_succ (x L len : Nat) (h : len ≤ L) : x / 2 ^ (L + 1 - len) = x / 2 / 2 ^ (L - len) := by
  rw [Nat.div_div_eq_div_mul, show L + 1 - len = L - len + 1 by omega, Nat.pow_succ, Nat.mul_comm 2]

theorem div_lt (hx : x < 2 ^ L) (hk : k ≤ L) : x / 2 ^ (L - k) < 2 ^ k := by
  rw [Nat.div_lt_iff_lt_mul (Nat.two_pow_pos _), ← Nat.pow_add, show k + (L - k) = L by omega]
  exact hx

theorem best_eq_some_iff :
    best T L x = some (len, v) ↔ len ≤ L ∧ T len (x / 2 ^ (L - len)) = some v ∧
      ∀ k, len < k → k ≤ L → T k (x / 2 ^ (L - k)) = none := by
  induction L generalizing x with
  | zero =>
    simp only [best, Option.map_eq_some_iff, Prod.mk.injEq]
    constructor
    · rintro ⟨v', hv, rfl, rfl⟩
      exact ⟨Nat.le_refl 0, by simpa using hv, fun k h1 h2 => by omega⟩
    · rintro ⟨hle, hv, -⟩
      obtain rfl : len = 0 := by omega
      exact ⟨v, by simpa using hv, rfl, rfl⟩
  | succ L ih =>
    unfold best
    cases ht : T (L + 1) x with
    | some v' =>
      simp only [Option.some.injEq, Prod.mk.injEq]
      constructor
      · rintro ⟨rfl, rfl⟩
        exact ⟨Nat.le_refl _, by simpa using ht, fun k h1 h2 => by omega⟩
      · rintro ⟨hle, hv, hno⟩
        have hlen : len = L + 1 := by
          by_contra hne
          have := hno (L + 1) (by omega) (Nat.le_refl _)
          simp [ht] at this
        subst hlen
        simpa [ht] using hv
    | none =>
      simp only [ih]
      constructor
      · rintro ⟨hle, hv, hno⟩
        refine ⟨by omega, by rwa [div_two_pow_succ x L len hle], fun k h1 h2 => ?_⟩
        by_cases hk : k = L + 1
        · subst hk
          simpa using ht
        · rw [div_two_pow_succ x L k (by omega)]
          exact hno k h1 (by omega)
      · rintro ⟨hle, hv, hno⟩
        have hlen : len ≤ L := by
          by_contra hne
          obtain rfl : len = L + 1 := by omega
          simp [ht] at hv
        refine ⟨hlen, by rwa [← div_two_pow_succ x L len hlen], fun k h1 h2 => ?_⟩
        rw [← div_two_pow_succ x L k h2]
        exact hno k h1 (by omega)

theorem best_eq_none_iff : best T L x = none ↔ ∀ k ≤ L, T k (x / 2 ^ (L - k)) = none := by
  induction L generalizing x with
  | zero =>
    simp only [best, Option.map_eq_none_iff]
    constructor
    · intro h k hk
      obtain rfl : k = 0 := by omega
      simpa using h
    · intro h
      simpa using h 0 (Nat.le_refl 0)
  | succ L ih =>
    unfold best
    cases ht : T (L + 1) x with
    | some v' =>
      simp only [reduceCtorEq, false_iff, not_forall]
      exact ⟨L + 1, Nat.le_refl _, by simp [ht]⟩
    | none =>
      simp only [ih]
      constructor
      · intro h k hk
        by_cases hk' : k = L + 1
        · subst hk'
          simpa using ht
        · rw [div_two_pow_succ x L k (by omega)]
          exact h k (by omega)
      · intro h k hk
        rw [← div_two_pow_succ x L k hk]
        exact h k (by omega)

theorem best_congr {T' : Nat → Nat → Option ν} (h : ∀ k ≤ L, T k (x / 2 ^ (L - k)) = T' k (x / 2 ^ (L - k))) :
    best T L x = best T' L x := by
  cases hb : best T' L x with
  | none =>
    rw [best_eq_none_iff] at hb ⊢
    exact fun k hk => (h k hk).trans (hb k hk)
  | some r =>
    obtain ⟨len, v⟩ := r
    rw [best_eq_some_iff] at hb ⊢
    obtain ⟨hle, hv, hno⟩ := hb
    exact ⟨hle, (h len hle).trans hv, fun k h1 h2 => (h k h2).trans (hno k h1 h2)⟩

/-- A prefix in the table is at most as long as the match of an address that has it. -/
theorem best_of_entry (hlen : len ≤ L) (h : T len (x / 2 ^ (L - len)) ≠ none) :
    ∃ r, best T L x = some r ∧ len ≤ r.1 := by
  cases hb : best T L x with
  | none => exact absurd (best_eq_none_iff.1 hb len hlen) h
  | some r =>
    refine ⟨r, rfl, ?_⟩
    obtain ⟨-, -, hno⟩ := best_eq_some_iff.1 hb
    by_contra hlt
    exact h (hno len (by omega) hlen)

/-- Without a prefix of more than `M` bits, the match is that of the first `M` bits. -/
theorem best_of_short {M : Nat} (hM : M ≤ L) (h : ∀ k, M < k → k ≤ L → T k (x / 2 ^ (L - k)) = none) :
    best T L x = best T M (x / 2 ^ (L - M)) := by
  induction L generalizing x with
  | zero =>
    obtain rfl : M = 0 := by omega
    simp
  | succ L ih =>
    by_cases hML : M = L + 1
    · simp [hML]
    · have hnone : T (L + 1) x = none := by simpa using h (L + 1) (by omega) (Nat.le_refl _)
      rw [best_succ, hnone, div_two_pow_succ x L M (by omega)]
      refine ih (by omega) fun k h1 h2 => ?_
      rw [← div_two_pow_succ x L k h2]
      exact h k h1 (by omega)

/-! ### Changes of the table -/

/-- The table with another entry, or none, for one prefix. -/
def assign (T : Nat → Nat → Option ν) (len v : Nat) (entry : Option ν) : Nat → Nat → Option ν :=
  fun k u => if k = len ∧ u = v then entry else T k u

theorem assign_of_ne (entry : Option ν) {u : Nat} (h : k ≠ len) : assign T len p entry k u = T k u :=
  if_neg fun he => h he.1

/-- What holds of every entry of a table and of a new one holds of every entry of the changed table. -/
theorem forall_assign {P : Nat → Nat → ν → Prop} {entry : Option ν} (hT : ∀ k u n, T k u = some n → P k u n)
    (h : ∀ n, entry = some n → P len p n) (k u : Nat) (n : ν) (hu : assign T len p entry k u = some n) : P k u n := by
  by_cases heq : k = len ∧ u = p
  · obtain ⟨rfl, rfl⟩ := heq
    exact h n (by simpa [assign] using hu)
  · rw [assign, if_neg heq] at hu
    exact hT k u n hu

/-- The address `x` of `L` bits has the prefix of the length `len` and the value `p`, and no longer one in the table. -/
def Shows (T : Nat → Nat → Option ν) (L x len p : Nat) : Prop :=
  len ≤ L ∧ x / 2 ^ (L - len) = p ∧ ∀ r, best T L x = some r → r.1 ≤ len

theorem shows_self : Shows T L p L p := by
  refine ⟨Nat.le_refl L, by simp, fun r hr => ?_⟩
  exact (best_eq_some_iff.1 hr).1

private theorem shows_succ_of_none (hx : T (L + 1) x = none) (hlen : len ≠ L + 1) :
    Shows T (L + 1) x len p ↔ Shows T L (x / 2) len p := by
  unfold Shows
  rw [best_succ, hx]
  constructor
  · rintro ⟨hle, hp, hr⟩
    exact ⟨by omega, by rwa [← div_two_pow_succ x L len (by omega)], hr⟩
  · rintro ⟨hle, hp, hr⟩
    exact ⟨by omega, by rwa [div_two_pow_succ x L len hle], hr⟩

private theorem not_shows_of_some (hx : T (L + 1) x = some v) (hlen : len ≠ L + 1) : ¬Shows T (L + 1) x len p := by
  rintro ⟨hle, -, hr⟩
  have := hr (L + 1, v) (by rw [best_succ, hx])
  omega

private theorem not_shows_of_ne (hx : x ≠ p) : ¬Shows T (L + 1) x (L + 1) p := by
  rintro ⟨-, hp, -⟩
  simp at hp
  exact hx hp

private theorem best_assign_of_lt (entry : Option ν) (h : L < len) : best (assign T len p entry) L x = best T L x :=
  best_congr fun k hk => assign_of_ne entry (by omega)

open Classical in
/-- An inserted prefix is the match of the addresses that have it and no longer one. -/
theorem best_insert : best (assign T len p (some v)) L x = if Shows T L x len p then some (len, v) else best T L x := by
  induction L generalizing x with
  | zero =>
    by_cases hlen : len = 0
    · subst hlen
      by_cases hx : x = p
      · subst hx
        rw [if_pos shows_self]
        simp [best, assign]
      · rw [if_neg fun h => hx (by simpa using h.2.1)]
        simp [best, assign, hx]
    · rw [best_assign_of_lt _ (by omega), if_neg fun h => hlen (by have := h.1; omega)]
  | succ L ih =>
    by_cases hlen : len = L + 1
    · subst hlen
      by_cases hx : x = p
      · subst hx
        rw [if_pos shows_self, best_succ]
        simp [assign]
      · rw [if_neg (not_shows_of_ne hx), best_succ, best_succ, best_assign_of_lt _ (by omega)]
        simp [assign, hx]
    · rw [best_succ, assign_of_ne _ (Ne.symm hlen)]
      cases hx : T (L + 1) x with
      | some v' => rw [if_neg (not_shows_of_some hx hlen), best_succ, hx]
      | none => rw [shows_succ_of_none hx hlen, best_succ, hx, ih]

open Classical in
/-- Where a deleted prefix was the match, the match is that of the prefix without its last bit. -/
theorem best_erase :
    best (assign T (len + 1) p none) L x = if Shows T L x (len + 1) p then best T len (p / 2) else best T L x := by
  induction L generalizing x with
  | zero => rw [best_assign_of_lt _ (by omega), if_neg fun h => by have := h.1; omega]
  | succ L ih =>
    by_cases hlen : len + 1 = L + 1
    · obtain rfl : len = L := by omega
      by_cases hx : x = p
      · subst hx
        rw [if_pos shows_self, best_succ, best_assign_of_lt _ (by omega)]
        simp [assign]
      · rw [if_neg (not_shows_of_ne hx), best_succ, best_succ, best_assign_of_lt _ (by omega)]
        simp [assign, hx]
    · rw [best_succ, assign_of_ne _ (Ne.symm hlen)]
      cases hx : T (L + 1) x with
      | some v' => rw [if_neg (not_shows_of_some hx hlen), best_succ, hx]
      | none => rw [shows_succ_of_none hx hlen, best_succ, hx, ih]

/-! ### Below a node of a trie -/

/-- The table of the prefixes that start with the four bits `s`, without these bits. -/
def below (T : Nat → Nat → Option ν) (s : Nat) : Nat → Nat → Option ν := fun len v => T (len + 4) (s * 2 ^ len + v)

/-- The match of an address whose first four bits are `s`: in the table below `s`, or among the prefixes of less than
four bits. -/
theorem best_split (T : Nat → Nat → Option ν) (W x : Nat) :
    best T (W + 4) x =
      match best (below T (x / 2 ^ W)) W (x % 2 ^ W) with
      | some (len, v) => some (len + 4, v)
      | none => best T 3 (x / 2 ^ W / 2) := by
  induction W generalizing x with
  | zero =>
    have h4 : T 4 x = below T (x / 2 ^ 0) 0 (x % 2 ^ 0) := by simp [below, Nat.mod_one]
    rw [best, best, h4]
    cases below T (x / 2 ^ 0) 0 (x % 2 ^ 0) with
    | none => simp
    | some v => rfl
  | succ W ih =>
    have hx : below T (x / 2 ^ (W + 1)) (W + 1) (x % 2 ^ (W + 1)) = T (W + 1 + 4) x := by
      simp only [below]
      rw [Nat.mul_comm, Nat.div_add_mod]
    have hdiv : x / 2 / 2 ^ W = x / 2 ^ (W + 1) := by
      rw [Nat.div_div_eq_div_mul, Nat.pow_succ, Nat.mul_comm 2]
    have hmod : x / 2 % 2 ^ W = x % 2 ^ (W + 1) / 2 := by
      rw [Nat.pow_succ, Nat.mul_comm, Nat.mod_mul_right_div_self]
    have hT : T (W + 4 + 1) x = T (W + 1 + 4) x := by rw [Nat.add_right_comm]
    rw [Nat.add_right_comm, best_succ T (W + 4), best_succ (below T (x / 2 ^ (W + 1))), hx, hT, ih, hdiv, hmod]
    cases T (W + 1 + 4) x with
    | some v => rfl
    | none => rfl

end LongestPrefix
