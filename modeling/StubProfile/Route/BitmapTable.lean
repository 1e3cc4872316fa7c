import StubProfile.Lib.SparseArray
import StubProfile.Route.Bitmap
import StubProfile.Route.Table

/-!
# The tree bitmap as a table of prefixes

`MbNode.toTable` reads a node as a table: to a length `len` and a value `v < 2 ^ len` it gives the next hop stored for
that prefix.  `MbNode.WF` says that the arrays of every node are as long as the bitmaps say and that no node below the
root is empty.  Inserting and deleting keep it, and change the table at one prefix.
-/

namespace StubProfile.Route

open SparseArray

variable {ν : Type} {node sub : MbNode ν} {ip : BitVec 32} {cidr len u v : Nat}

/-! ### Bitmaps as sets of positions -/

theorem hasBit_eq (b : BitVec 16) (pos : Nat) : hasBit b pos = b.getLsbD pos := by
  rw [hasBit, ← BitVec.twoPow_eq, BitVec.and_twoPow]
  by_cases hpos : pos < 16
  · have hne : BitVec.twoPow 16 pos ≠ 0#16 := by
      intro h
      have := congrArg (fun c : BitVec 16 => c.getLsbD pos) h
      simp [hpos] at this
    cases hb : b.getLsbD pos <;> simp [hne]
  · simp [BitVec.getLsbD_of_ge b pos (by omega)]

private theorem setBit_getLsbD (b : BitVec 16) {pos : Nat} (hpos : pos < 16) :
    (setBit b pos).getLsbD = Function.update b.getLsbD pos true := by
  funext i
  rw [setBit, ← BitVec.twoPow_eq, BitVec.getLsbD_or, BitVec.getLsbD_twoPow]
  by_cases hi : i = pos
  · subst hi
    simp [hpos]
  · simp [Function.update_of_ne hi, Ne.symm hi]

theorem clearBit_getLsbD (b : BitVec 16) (pos : Nat) :
    (clearBit b pos).getLsbD = Function.update b.getLsbD pos false := by
  funext i
  rw [clearBit, ← BitVec.twoPow_eq, BitVec.getLsbD_and, BitVec.getLsbD_not, BitVec.getLsbD_twoPow]
  by_cases h16 : i < 16
  · by_cases hi : i = pos
    · subst hi
      simp [h16]
    · simp [Function.update_of_ne hi, Ne.symm hi, h16]
  · by_cases hi : i = pos
    · simp [hi]
    · simp [Function.update_of_ne hi, BitVec.getLsbD_of_ge b i (by omega)]

theorem countOnes_eq (b : BitVec 16) {pos : Nat} (hpos : pos ≤ 16) : countOnes b pos = rank b.getLsbD pos := by
  have hshift : ∀ n ≤ pos, rank (b <<< (16 - pos)).getLsbD (16 - pos + n) = rank b.getLsbD n := by
    intro n hn
    induction n with
    | zero =>
      refine rank_eq_zero_iff.2 fun i hi => ?_
      simp only [BitVec.getLsbD_shiftLeft, show i < 16 - pos by omega]
      simp
    | succ n ih =>
      have h16 : 16 - pos + n < 16 := by omega
      rw [← Nat.add_assoc, rank_succ, rank_succ, ih (by omega), BitVec.getLsbD_shiftLeft]
      simp [h16]
  have h := hshift pos (Nat.le_refl _)
  rwa [show 16 - pos + pos = 16 by omega] at h

private theorem exists_getLsbD {b : BitVec 16} (h : b ≠ 0) : ∃ i < 16, b.getLsbD i = true := by
  by_contra hno
  refine h (BitVec.eq_of_getLsbD_eq fun i hi => ?_)
  have hi' : ¬b.getLsbD i = true := fun hbit => hno ⟨i, hi, hbit⟩
  simpa using hi'

theorem popcount_eq (b : BitVec 16) : popcount b = rank b.getLsbD 16 := rfl

theorem countOnes_all (b : BitVec 16) : countOnes b 16 = popcount b := countOnes_eq b (Nat.le_refl 16)

section Counted

variable {α : Type} {b : BitVec 16} {l : List α} {i : Nat} (hl : l.length = popcount b) (hi : i < 16)

include hl hi

/-- An element of the array stands at the index that `count_ones` gives, and only there. -/
theorem lookup_cases :
    (b.getLsbD i = false ∧ lookup b.getLsbD l i = none) ∨
      ∃ a, b.getLsbD i = true ∧ l[countOnes b i]? = some a ∧ lookup b.getLsbD l i = some a := by
  cases hb : b.getLsbD i with
  | false => exact .inl ⟨rfl, by simp [lookup, hb]⟩
  | true =>
    obtain ⟨a, h1, h2⟩ := lookup_eq_some (hl.trans (popcount_eq _)) hi hb
    exact .inr ⟨a, rfl, by rwa [countOnes_eq _ (by omega)], h2⟩

theorem rank_le_length : rank b.getLsbD i ≤ l.length := by
  rw [hl, popcount_eq]
  exact rank_mono _ (by omega)

theorem rank_lt_length (hbit : b.getLsbD i = true) : rank b.getLsbD i < l.length := by
  rw [hl, popcount_eq]
  exact rank_lt hbit hi

theorem length_setBit (hbit : b.getLsbD i = false) (a : α) :
    (l.insertIdx (rank b.getLsbD i) a).length = popcount (setBit b i) := by
  rw [popcount_eq, setBit_getLsbD b hi]
  exact length_insert hl hbit hi a

theorem countOnes_setBit_all (hbit : b.getLsbD i = false) : countOnes (setBit b i) 16 = l.length + 1 := by
  rw [countOnes_all, popcount_eq, setBit_getLsbD b hi, rank_set hbit, if_pos hi, ← popcount_eq, hl]

theorem length_clearBit (hbit : b.getLsbD i = true) :
    (l.eraseIdx (rank b.getLsbD i)).length = popcount (clearBit b i) := by
  rw [popcount_eq, clearBit_getLsbD]
  exact length_erase hl hbit hi

omit hl in
theorem countOnes_setBit (hbit : b.getLsbD i = false) : countOnes (setBit b i) i = rank b.getLsbD i := by
  rw [countOnes_eq _ (by omega), setBit_getLsbD b hi, rank_set hbit, if_neg (by omega), Nat.add_zero]

end Counted

/-! ### Copies of the arrays -/

private theorem insertIdx_eq_take_cons_drop {α : Type} {l : List α} {k : Nat} (a : α) (hk : k ≤ l.length) :
    l.insertIdx k a = l.take k ++ a :: l.drop k := by
  induction l generalizing k with
  | nil =>
    obtain rfl : k = 0 := by simpa using hk
    rfl
  | cons b l ih =>
    cases k with
    | zero => rfl
    | succ k => simp [List.insertIdx_succ_cons, ih (show k ≤ l.length by simpa using hk)]

/-- The copies of what stands before `k` and from `j` on; they are left out where there is nothing to copy. -/
private theorem sliceIf_around {α : Type} {c : Prop} [Decidable c] {l : List α} {k j n : Nat} (hk : k ≤ j)
    (hn : j + n = l.length) (hc : ¬c → k = 0 ∧ n = 0) :
    sliceIf (decide c) l 0 k = some (l.take k) ∧ sliceIf (decide c) l j n = some (l.drop j) := by
  by_cases h : c
  · have htake : (l.drop j).take n = l.drop j := List.take_of_length_le (by rw [List.length_drop]; omega)
    simp [sliceIf, slice, h, hn, htake, show k ≤ l.length by omega]
  · obtain ⟨rfl, rfl⟩ := hc h
    simp [sliceIf, h, List.drop_of_length_le (show l.length ≤ j by omega)]

section Copies

variable {α : Type} {l : List α} {k : Nat}

theorem sliceIf_all (l : List α) : sliceIf (decide (l.length ≠ 0)) l 0 l.length = some l := by
  have hcopy := (sliceIf_around (l := l) (n := 0) (Nat.le_refl l.length) rfl (c := l.length ≠ 0) (by omega)).1
  rwa [List.take_length] at hcopy

/-- The new array with `a` at `k`: what `extend_rule` and `extend_child` copy. -/
theorem copies_insert (a : α) (hk : k ≤ l.length) :
    sliceIf (decide (l.length ≠ 0)) l 0 k = some (l.take k) ∧
      sliceIf (decide (l.length ≠ 0)) l k (l.length - k) = some (l.drop k) ∧ (l.take k).length = k ∧
      l.take k ++ a :: l.drop k = l.insertIdx k a := by
  obtain ⟨hbefore, hbehind⟩ := sliceIf_around (l := l) (c := l.length ≠ 0) (Nat.le_refl k) (Nat.add_sub_cancel' hk)
    (by omega)
  exact ⟨hbefore, hbehind, List.length_take_of_le hk, (insertIdx_eq_take_cons_drop a hk).symm⟩

/-- The new array without the entry at `k`: what `reduce_rule` and `reduce_child` copy. -/
theorem copies_erase (hk : k < l.length) :
    sliceIf (decide (l.length > 1)) l 0 k = some (l.take k) ∧
      sliceIf (decide (l.length > 1)) l (k + 1) (l.length - (k + 1)) = some (l.drop (k + 1)) ∧
      l.take k ++ l.drop (k + 1) = l.eraseIdx k := by
  obtain ⟨hbefore, hbehind⟩ := sliceIf_around (l := l) (c := l.length > 1) (Nat.le_succ k) (Nat.add_sub_cancel' hk)
    (by omega)
  exact ⟨hbefore, hbehind, (List.eraseIdx_eq_take_drop_succ l k).symm⟩

end Copies

section Arrays

variable {external internal : BitVec 16} {rules : List ν} {children : List (MbNode ν)} {k : Nat}

theorem extendRule_eq (nhi : ν) (hr : countOnes internal 16 = rules.length + 1)
    (hc : countOnes external 16 = children.length) (hk : k ≤ rules.length) :
    extendRule (.mk external internal rules children) (k + 1) nhi =
      some (.mk external internal (rules.insertIdx k nhi) children) := by
  obtain ⟨hbefore, hbehind, hlen, hnew⟩ := copies_insert nhi hk
  simp only [extendRule, MbNode.external, MbNode.internal, MbNode.rules, MbNode.children, hr, hc, Nat.add_sub_cancel,
    Nat.add_sub_add_right, sliceIf_all, hbefore, hbehind, Option.bind_eq_bind, Option.bind_some, hlen, hnew, if_true]

theorem extendChild_eq (hr : countOnes internal 16 = rules.length) (hc : countOnes external 16 = children.length + 1)
    (hk : k ≤ children.length) :
    extendChild (.mk external internal rules children) k =
      some (.mk external internal rules (children.insertIdx k .empty)) := by
  obtain ⟨hbefore, hbehind, hlen, hnew⟩ := copies_insert MbNode.empty hk
  simp only [extendChild, MbNode.external, MbNode.internal, MbNode.rules, MbNode.children, hr, hc, Nat.add_sub_cancel,
    sliceIf_all, hbefore, hbehind, Option.bind_eq_bind, Option.bind_some, hlen, hnew, if_true]

theorem reduceRule_eq (hr : countOnes internal 16 = rules.length) (hc : countOnes external 16 = children.length)
    (hk : k < rules.length) :
    reduceRule (.mk external internal rules children) (k + 1) =
      some (.mk external internal (rules.eraseIdx k) children) := by
  obtain ⟨hbefore, hbehind, hnew⟩ := copies_erase hk
  simp only [reduceRule, MbNode.external, MbNode.internal, MbNode.rules, MbNode.children, hr, hc, Nat.add_sub_cancel,
    show ¬rules.length < 1 by omega, if_false, sliceIf_all, hbefore, hbehind, Option.bind_eq_bind, Option.bind_some, hnew]

theorem reduceChild_eq (hr : countOnes internal 16 = rules.length) (hc : countOnes external 16 = children.length)
    (hk : k < children.length) :
    reduceChild (.mk external internal rules children) k =
      some (.mk external internal rules (children.eraseIdx k)) := by
  obtain ⟨hbefore, hbehind, hnew⟩ := copies_erase hk
  simp only [reduceChild, MbNode.external, MbNode.internal, MbNode.rules, MbNode.children, hr, hc, Nat.sub_sub,
    sliceIf_all, hbefore, hbehind, Option.bind_eq_bind, Option.bind_some, hnew]

end Arrays

/-! ### The table of a node -/

/-- The child for the four bits `s`. -/
def MbNode.child (node : MbNode ν) (s : Nat) : Option (MbNode ν) := lookup node.external.getLsbD node.children s

/-- The rule at the position `pos` of the internal bitmap. -/
def MbNode.rule (node : MbNode ν) (pos : Nat) : Option ν := lookup node.internal.getLsbD node.rules pos

/-- The next hop stored for the prefix of the length `len` and the value `v`. -/
def MbNode.toTable : MbNode ν → Nat → Nat → Option ν
  | node, len + 4, v => (node.child (v / 2 ^ len)).bind fun child => child.toTable len (v % 2 ^ len)
  | node, len, v => node.rule (countInlBitmap v len)

/-- The arrays are as long as the bitmaps say, the 16th bit of `internal` is not in use, and no node below is empty. -/
inductive MbNode.WF : MbNode ν → Prop
  | mk {external internal : BitVec 16} {rules : List ν} {children : List (MbNode ν)}
      (rules_length : rules.length = popcount internal) (children_length : children.length = popcount external)
      (top : internal.getLsbD 15 = false) (busy : ∀ child ∈ children, child.isEmpty = false)
      (below : ∀ child ∈ children, child.WF) : WF (.mk external internal rules children)

theorem MbNode.toTable_of_lt (h : len < 4) : node.toTable len v = node.rule (countInlBitmap v len) := by
  match len, h with
  | 0, _ | 1, _ | 2, _ | 3, _ => rfl

theorem MbNode.toTable_add_four (node : MbNode ν) (len v : Nat) :
    node.toTable (len + 4) v = (node.child (v / 2 ^ len)).bind fun child => child.toTable len (v % 2 ^ len) := rfl

private theorem MbNode.isEmpty_iff : node.isEmpty = true ↔ node.internal = 0 ∧ node.external = 0 := by
  rw [MbNode.isEmpty, Bool.and_eq_true, decide_eq_true_iff, decide_eq_true_iff]

theorem MbNode.toTable_of_isEmpty (h : node.isEmpty = true) (len v : Nat) : node.toTable len v = none := by
  obtain ⟨hinternal, hexternal⟩ := MbNode.isEmpty_iff.1 h
  match len with
  | 0 | 1 | 2 | 3 => simp [MbNode.toTable_of_lt, MbNode.rule, lookup, hinternal]
  | len + 4 => simp [MbNode.toTable_add_four, MbNode.child, lookup, hexternal]

private theorem MbNode.isEmpty_of_rule {pos : Nat} {nhi : ν} (h : node.rule pos = some nhi) : node.isEmpty = false := by
  rw [Bool.eq_false_iff, Ne, MbNode.isEmpty_iff]
  rintro ⟨hzero, -⟩
  simp [MbNode.rule, lookup, hzero] at h

private theorem MbNode.isEmpty_of_child {s : Nat} (h : node.child s = some sub) : node.isEmpty = false := by
  rw [Bool.eq_false_iff, Ne, MbNode.isEmpty_iff]
  rintro ⟨-, hzero⟩
  simp [MbNode.child, lookup, hzero] at h

private theorem MbNode.WF.eq_empty (hwf : node.WF) (h : node.isEmpty = true) : node = .empty := by
  obtain ⟨hr, hc, -, -, -⟩ := hwf
  obtain ⟨rfl, rfl⟩ := MbNode.isEmpty_iff.1 h
  rw [List.length_eq_zero_iff.1 hr, List.length_eq_zero_iff.1 hc]
  rfl

theorem MbNode.wf_empty : (MbNode.empty : MbNode ν).WF := .mk rfl rfl rfl (by simp) (by simp)

theorem MbNode.WF.of_child (hwf : node.WF) {s : Nat} (h : node.child s = some sub) :
    sub.isEmpty = false ∧ sub.WF := by
  obtain ⟨-, -, -, busy, below⟩ := hwf
  simp only [MbNode.child, lookup] at h
  split at h
  · have hmem := List.mem_of_getElem? h
    exact ⟨busy sub hmem, below sub hmem⟩
  · cases h

theorem MbNode.WF.rule_eq (hwf : node.WF) {pos : Nat} (hpos : pos < 16) :
    (node.internal.getLsbD pos = false ∧ node.rule pos = none) ∨
      ∃ nhi, node.internal.getLsbD pos = true ∧ node.rules[countOnes node.internal pos]? = some nhi ∧
        node.rule pos = some nhi := by
  obtain ⟨hr, -, -, -, -⟩ := hwf
  exact lookup_cases hr hpos

theorem MbNode.WF.child_eq (hwf : node.WF) {s : Nat} (hs : s < 16) :
    (node.external.getLsbD s = false ∧ node.child s = none) ∨
      ∃ child, node.external.getLsbD s = true ∧ node.children[countOnes node.external s]? = some child ∧
        node.child s = some child := by
  obtain ⟨-, hc, -, -, -⟩ := hwf
  exact lookup_cases hc hs

private theorem countInlBitmap_eq (v len : Nat) : countInlBitmap v len = 2 ^ len + v - 1 := by
  rw [countInlBitmap, Nat.one_shiftLeft]

theorem countInlBitmap_lt (hlen : len < 4) (hv : v < 2 ^ len) : countInlBitmap v len < 15 := by
  have hpow : 2 ^ len ≤ 2 ^ 3 := Nat.pow_le_pow_right (by omega) (by omega)
  rw [countInlBitmap_eq]
  omega

private theorem countInlBitmap_inj (hu : u < 2 ^ len) (hv : v < 2 ^ cidr) :
    countInlBitmap u len = countInlBitmap v cidr ↔ len = cidr ∧ u = v := by
  have hlen : 0 < 2 ^ len := Nat.two_pow_pos len
  have hcidr : 0 < 2 ^ cidr := Nat.two_pow_pos cidr
  rw [countInlBitmap_eq, countInlBitmap_eq]
  rcases Nat.lt_trichotomy len cidr with h | rfl | h
  · have hpow : 2 ^ (len + 1) ≤ 2 ^ cidr := Nat.pow_le_pow_right (by omega) h
    omega
  · omega
  · have hpow : 2 ^ (cidr + 1) ≤ 2 ^ len := Nat.pow_le_pow_right (by omega) h
    omega

theorem exists_countInlBitmap : ∀ pos < 15, ∃ len < 4, ∃ v < 2 ^ len, countInlBitmap v len = pos := by decide

theorem stride_lt {s : Nat} (hs : s < 16) (hv : v < 2 ^ len) : s * 2 ^ len + v < 2 ^ (len + 4) := by
  have h := Nat.mul_le_mul_right (2 ^ len) (show s + 1 ≤ 16 by omega)
  rw [Nat.add_mul, Nat.one_mul] at h
  rw [Nat.pow_add]
  omega

/-- The entries below a child. -/
theorem MbNode.toTable_child {s : Nat} (h : node.child s = some sub) (hv : v < 2 ^ len) :
    node.toTable (len + 4) (s * 2 ^ len + v) = sub.toTable len v := by
  rw [MbNode.toTable_add_four, Nat.mul_comm, Nat.mul_add_div (Nat.two_pow_pos len), Nat.mul_add_mod,
    Nat.div_eq_of_lt hv, Nat.mod_eq_of_lt hv, Nat.add_zero, h, Option.bind_some]

/-- A well-formed node that is not empty has an entry. -/
theorem MbNode.WF.exists_entry (hwf : node.WF) (hne : node.isEmpty = false) :
    ∃ len v, v < 2 ^ len ∧ node.toTable len v ≠ none := by
  induction hwf with
  | @mk external internal rules children hr hc top busy below ih =>
    have hwf : (MbNode.mk external internal rules children).WF := .mk hr hc top busy below
    by_cases hzero : internal = 0
    · -- a child, which has an entry
      have hext : external ≠ 0 := fun h => by
        cases hne.symm.trans (MbNode.isEmpty_iff.2 ⟨hzero, h⟩)
      obtain ⟨s, hs, hbit⟩ := exists_getLsbD hext
      obtain ⟨hbit', -⟩ | ⟨sub, -, hget, hsub⟩ := hwf.child_eq hs
      · cases hbit.symm.trans hbit'
      · have hmem := List.mem_of_getElem? hget
        obtain ⟨len, v, hv, hentry⟩ := ih sub hmem (busy sub hmem)
        exact ⟨len + 4, s * 2 ^ len + v, stride_lt hs hv, by rwa [MbNode.toTable_child hsub hv]⟩
    · obtain ⟨pos, hpos, hbit⟩ := exists_getLsbD hzero
      have hlt : pos < 15 := by
        by_contra h
        obtain rfl : pos = 15 := by omega
        cases hbit.symm.trans top
      obtain ⟨len, hlen, v, hv, rfl⟩ := exists_countInlBitmap pos hlt
      obtain ⟨hbit', -⟩ | ⟨nhi, -, -, hrule⟩ := hwf.rule_eq hpos
      · cases hbit.symm.trans hbit'
      · exact ⟨len, v, hv, by simp [MbNode.toTable_of_lt hlen, hrule]⟩

/-! ### The bits of an address -/

/-- Induction by strides, as `insert_entry` and `delete_entry` go down: the last node has fewer than four bits. -/
theorem stride_induct {motive : Nat → Prop} (last : ∀ cidr < 4, motive cidr)
    (down : ∀ cidr, motive cidr → motive (cidr + 4)) (cidr : Nat) : motive cidr := by
  induction cidr using Nat.strongRecOn with
  | ind cidr ih =>
    by_cases hlt : cidr < 4
    · exact last cidr hlt
    · have := down (cidr - 4) (ih (cidr - 4) (by omega))
      rwa [Nat.sub_add_cancel (by omega)] at this

theorem topStride_lt (ip : BitVec 32) : topStride ip < 16 := by
  rw [topStride, BitVec.toNat_ushiftRight, Nat.shiftRight_eq_div_pow]
  have := ip.isLt
  omega

theorem topStride_eq {m : Nat} (hm : m + 4 ≤ 32) : topStride ip = topBits ip (m + 4) / 2 ^ m := by
  rw [topStride, topBits, BitVec.toNat_ushiftRight, Nat.shiftRight_eq_div_pow, Nat.div_div_eq_div_mul, ← Nat.pow_add,
    show 32 - (m + 4) + m = 28 by omega]

theorem topBits_shiftLeft {m : Nat} (hm : m + 4 ≤ 32) : topBits (ip <<< 4) m = topBits ip (m + 4) % 2 ^ m := by
  rw [topBits, topBits, BitVec.toNat_shiftLeft, Nat.shiftLeft_eq, show 2 ^ 32 = 2 ^ 28 * 2 ^ 4 by rfl,
    Nat.mul_mod_mul_right, show 32 - m = 32 - (m + 4) + 4 by omega, Nat.pow_add,
    Nat.mul_div_mul_right _ _ (Nat.two_pow_pos 4),
    show 2 ^ 28 = 2 ^ (32 - (m + 4)) * 2 ^ m by rw [← Nat.pow_add]; congr 1; omega, Nat.mod_mul_right_div_self]

theorem Masked.shiftLeft {m : Nat} (h : Masked ip (m + 4)) (hm : m + 4 ≤ 32) : Masked (ip <<< 4) m := by
  rw [Masked] at h ⊢
  rw [BitVec.toNat_shiftLeft, Nat.shiftLeft_eq,
    Nat.mod_mod_of_dvd _ (Nat.pow_dvd_pow 2 (show 32 - m ≤ 32 by omega)),
    show 32 - m = 32 - (m + 4) + 4 by omega, Nat.pow_add, Nat.mul_mod_mul_right, h, Nat.zero_mul]

theorem lastStride_eq (hmask : Masked ip cidr) (hcidr : cidr < 4) : lastStride ip cidr = topBits ip cidr := by
  have hlt : topBits ip cidr < 2 ^ cidr := topBits_lt ip (by omega)
  have hpow : 2 ^ cidr ≤ 2 ^ 8 := Nat.pow_le_pow_right (by omega) (by omega)
  by_cases hzero : cidr = 0
  · subst hzero
    have hip : ip.toNat = 0 := by
      rw [Masked, Nat.sub_zero, Nat.mod_eq_of_lt ip.isLt] at hmask
      exact hmask
    simp [lastStride, topBits, hip]
  · rw [lastStride, BitVec.toNat_ushiftRight, Nat.shiftRight_eq_div_pow, Nat.mod_eq_of_lt (show 32 - cidr < 32 by omega)]
    exact Nat.mod_eq_of_lt (by rw [topBits] at hlt; omega)

/-- The entry of a prefix of four bits or more is in the child for its first stride. -/
theorem MbNode.toTable_topBits (hcidr : cidr + 4 ≤ 32) :
    node.toTable (cidr + 4) (topBits ip (cidr + 4)) =
      (node.child (topStride ip)).bind fun sub => sub.toTable cidr (topBits (ip <<< 4) cidr) := by
  rw [MbNode.toTable_add_four, ← topStride_eq hcidr, ← topBits_shiftLeft hcidr]

/-! ### Which nodes there are -/

/-- A prefix of `m + k` bits is stored that begins with the first `m` bits of the address. -/
def StoredUnder (T : Nat → Nat → Option ν) (ip : BitVec 32) (m k : Nat) : Prop :=
  ∃ v < 2 ^ (m + k), v / 2 ^ k = topBits ip m ∧ T (m + k) v ≠ none

theorem storedUnder_zero {T : Nat → Nat → Option ν} {k : Nat} :
    StoredUnder T ip 0 k ↔ ∃ v < 2 ^ k, T k v ≠ none := by
  have hzero : topBits ip 0 < 2 ^ 0 := topBits_lt ip (by omega)
  rw [StoredUnder, Nat.zero_add]
  refine exists_congr fun v => and_congr_right fun hv => ?_
  rw [Nat.div_eq_of_lt hv, and_iff_right (by omega)]

/-- One node further down. -/
theorem storedUnder_add_four {m k : Nat} (hm : m + 4 ≤ 32) :
    StoredUnder node.toTable ip (m + 4) k ↔
      ∃ sub, node.child (topStride ip) = some sub ∧ StoredUnder sub.toTable (ip <<< 4) m k := by
  have hpow : 2 ^ (m + k) = 2 ^ k * 2 ^ m := by rw [Nat.add_comm, Nat.pow_add]
  have hlen : m + 4 + k = m + k + 4 := by omega
  constructor
  · rintro ⟨v, hv, hbits, hentry⟩
    have hstride : v / 2 ^ (m + k) = topStride ip := by rw [topStride_eq hm, ← hbits, Nat.div_div_eq_div_mul, hpow]
    rw [hlen, MbNode.toTable_add_four, hstride] at hentry
    cases hsub : node.child (topStride ip) with
    | none => simp [hsub] at hentry
    | some sub =>
      refine ⟨sub, rfl, v % 2 ^ (m + k), Nat.mod_lt _ (Nat.two_pow_pos _), ?_, by simpa [hsub] using hentry⟩
      rw [topBits_shiftLeft hm, ← hbits, hpow, Nat.mod_mul_right_div_self]
  · rintro ⟨sub, hsub, v, hv, hbits, hentry⟩
    refine ⟨topStride ip * 2 ^ (m + k) + v, by rw [hlen]; exact stride_lt (topStride_lt ip) hv, ?_,
      by rwa [hlen, MbNode.toTable_child hsub hv]⟩
    rw [hpow, Nat.mul_left_comm, Nat.mul_add_div (Nat.two_pow_pos _), hbits, topBits_shiftLeft hm, topStride_eq hm,
      Nat.mul_comm, Nat.div_add_mod]

theorem MbNode.WF.exists_storedUnder_zero (hwf : node.WF) (hne : node.isEmpty = false) :
    ∃ k, StoredUnder node.toTable ip 0 k := by
  obtain ⟨len, v, hv, hentry⟩ := hwf.exists_entry hne
  exact ⟨len, storedUnder_zero.2 ⟨v, hv, hentry⟩⟩

/-- There is a node for the first `m + 4` bits exactly if there is one for the next `m` below the child. -/
theorem exists_storedUnder_add_four {m : Nat} (hm : m + 4 ≤ 32) :
    (∃ k, StoredUnder node.toTable ip (m + 4) k) ↔
      ∃ sub, node.child (topStride ip) = some sub ∧ ∃ k, StoredUnder sub.toTable (ip <<< 4) m k := by
  simp only [storedUnder_add_four hm]
  constructor
  · rintro ⟨k, sub, hsub, hstored⟩
    exact ⟨sub, hsub, k, hstored⟩
  · rintro ⟨sub, hsub, k, hstored⟩
    exact ⟨k, sub, hsub, hstored⟩

/-! ### Inserting -/

private theorem set_insertIdx {α : Type} {l : List α} {k : Nat} (a b : α) (hk : k ≤ l.length) :
    (l.insertIdx k a).set k b = l.insertIdx k b := by
  have hlen : (l.take k).length = k := by simp [hk]
  rw [insertIdx_eq_take_cons_drop a hk, insertIdx_eq_take_cons_drop b hk, List.set_append, if_neg (by omega), hlen,
    Nat.sub_self, List.set_cons_zero]

/-- The child for the bits `s` is replaced. -/
private theorem setChild_spec {sub sub' : MbNode ν} {s : Nat} (hwf : node.WF) (hs : s < 16)
    (hsub : node.child s = some sub) (hne : sub'.isEmpty = false) (hwf' : sub'.WF) :
    (node.setChild (countOnes node.external s) sub').WF ∧
      ∀ i, (node.setChild (countOnes node.external s) sub').child i = if i = s then some sub' else node.child i := by
  obtain ⟨hbit, hnone⟩ | ⟨-, hbit, -, -⟩ := hwf.child_eq hs
  · rw [hnone] at hsub
    cases hsub
  · obtain ⟨hr, hc, top, busy, below⟩ := hwf
    rw [countOnes_eq _ (by omega)]
    refine ⟨.mk hr ((List.length_set ..).trans hc) top ?_ ?_, lookup_set (hc.trans (popcount_eq _)) hbit hs sub'⟩
    · intro c hmem
      obtain hmem | rfl := List.mem_or_eq_of_mem_set hmem
      · exact busy c hmem
      · exact hne
    · intro c hmem
      obtain hmem | rfl := List.mem_or_eq_of_mem_set hmem
      · exact below c hmem
      · exact hwf'

/-- Going down: the child is there or a new empty one, and what replaces it becomes the child for the bits `s`. -/
private theorem childFor_spec (hwf : node.WF) {s : Nat} (hs : s < 16) :
    ∃ node' k, childFor node s = some (node', k) ∧ node'.children[k]? = some ((node.child s).getD .empty) ∧
      ∀ sub : MbNode ν, sub.isEmpty = false → sub.WF → (node'.setChild k sub).WF ∧
        (node'.setChild k sub).rule = node.rule ∧
        ∀ i, (node'.setChild k sub).child i = if i = s then some sub else node.child i := by
  obtain ⟨hbit, hnone⟩ | ⟨sub, hbit, hget, hsub⟩ := hwf.child_eq hs
  case inr =>
    refine ⟨node, countOnes node.external s, ?_, ?_, fun sub' hne' hwf' => ?_⟩
    · simp [childFor, countEnlBitmap, hasBit_eq, hbit]
    · rw [hget, hsub, Option.getD_some]
    · obtain ⟨h1, h2⟩ := setChild_spec hwf hs hsub hne' hwf'
      exact ⟨h1, rfl, h2⟩
  case inl =>
    obtain ⟨external, internal, rules, children⟩ := node
    obtain ⟨hr, hc, top, busy, below⟩ := hwf
    replace hbit : external.getLsbD s = false := hbit
    have hle := rank_le_length hc hs
    refine ⟨.mk (setBit external s) internal rules (children.insertIdx (rank external.getLsbD s) .empty),
      rank external.getLsbD s, ?_, ?_, fun sub' hne' hwf' => ⟨?_, rfl, ?_⟩⟩
    · simp only [childFor, countEnlBitmap, hasBit_eq, MbNode.external, MbNode.internal, MbNode.rules, MbNode.children]
      rw [hbit, if_neg (by simp), countOnes_setBit hs hbit,
        extendChild_eq (by rw [countOnes_all, hr]) (countOnes_setBit_all hc hs hbit) hle]
      rfl
    · rw [hnone]
      exact List.getElem?_insertIdx_self.trans (by simp [hle])
    · simp only [MbNode.setChild, MbNode.external, MbNode.internal, MbNode.rules, MbNode.children, set_insertIdx _ _ hle]
      refine .mk hr (length_setBit hc hs hbit sub') top ?_ ?_
      · intro c hmem
        obtain rfl | hmem := (List.mem_insertIdx hle).1 hmem
        · exact hne'
        · exact busy c hmem
      · intro c hmem
        obtain rfl | hmem := (List.mem_insertIdx hle).1 hmem
        · exact hwf'
        · exact below c hmem
    · intro i
      simp only [MbNode.setChild, MbNode.child, MbNode.external, MbNode.internal, MbNode.rules, MbNode.children,
        set_insertIdx _ _ hle, setBit_getLsbD external hs]
      exact lookup_insert hc hbit hs sub' i

theorem insertEntry_of_lt (nhi : ν) (hlt : cidr < 4) :
    insertEntry nhi cidr ip node =
      let pos := countInlBitmap (lastStride ip cidr) cidr
      if hasBit node.internal pos then
        let k := countOnes node.internal pos
        if k < node.rules.length then some (.mk node.external node.internal (node.rules.set k nhi) node.children)
        else none
      else
        let internal := setBit node.internal pos
        extendRule (.mk node.external internal node.rules node.children) (countOnes internal pos + 1) nhi := by
  match cidr, hlt with
  | 0, _ | 1, _ | 2, _ | 3, _ => rfl

private theorem insertRule_spec (hwf : node.WF) (nhi : ν) (hmask : Masked ip cidr) (hlt : cidr < 4) :
    ∃ node', insertEntry nhi cidr ip node = some node' ∧ node'.WF ∧ node'.child = node.child ∧
      ∀ i, node'.rule i = if i = countInlBitmap (topBits ip cidr) cidr then some nhi else node.rule i := by
  rw [insertEntry_of_lt nhi hlt, lastStride_eq hmask hlt]
  have hpos := countInlBitmap_lt hlt (topBits_lt ip (show cidr ≤ 32 by omega))
  generalize countInlBitmap (topBits ip cidr) cidr = pos at hpos
  obtain ⟨external, internal, rules, children⟩ := node
  obtain ⟨hr, hc, top, busy, below⟩ := hwf
  have hpos' : pos < 16 := by omega
  simp only [hasBit_eq, MbNode.external, MbNode.internal, MbNode.rules, MbNode.children]
  cases hbit : internal.getLsbD pos with
  | true =>
    have hk := rank_lt_length hr hpos' hbit
    refine ⟨.mk external internal (rules.set (rank internal.getLsbD pos) nhi) children, ?_, ?_, rfl, ?_⟩
    · simp [countOnes_eq internal (show pos ≤ 16 by omega), hk]
    · exact .mk ((List.length_set ..).trans hr) hc top busy below
    · exact lookup_set hr hbit hpos' nhi
  | false =>
    refine ⟨.mk external (setBit internal pos) (rules.insertIdx (rank internal.getLsbD pos) nhi) children, ?_, ?_, rfl, ?_⟩
    · rw [if_neg (by simp), countOnes_setBit hpos' hbit, extendRule_eq nhi (countOnes_setBit_all hr hpos' hbit)
        (by rw [countOnes_all, hc]) (rank_le_length hr hpos')]
    · refine .mk (length_setBit hr hpos' hbit nhi) hc ?_ busy below
      rw [setBit_getLsbD internal hpos', Function.update_of_ne (by omega), top]
    · intro i
      simp only [MbNode.rule, MbNode.internal, MbNode.rules, setBit_getLsbD internal hpos']
      exact lookup_insert hr hbit hpos' nhi i

/-- `T'` differs from `T` at most at one prefix, where it has `entry`. -/
def ChangedAt (T T' : Nat → Nat → Option ν) (cidr v : Nat) (entry : Option ν) : Prop :=
  ∀ len u, u < 2 ^ len → T' len u = if len = cidr ∧ u = v then entry else T len u

private theorem ChangedAt.rule {node' : MbNode ν} {entry : Option ν} (hlt : cidr < 4) (hv : v < 2 ^ cidr)
    (hchild : node'.child = node.child)
    (hrule : ∀ i, node'.rule i = if i = countInlBitmap v cidr then entry else node.rule i) :
    ChangedAt node.toTable node'.toTable cidr v entry := by
  intro len u hu
  by_cases hlen : len < 4
  · rw [MbNode.toTable_of_lt hlen, MbNode.toTable_of_lt hlen, hrule, if_congr (countInlBitmap_inj hu hv) rfl rfl]
  · obtain ⟨len, rfl⟩ : ∃ m, len = m + 4 := ⟨len - 4, by omega⟩
    rw [MbNode.toTable_add_four, MbNode.toTable_add_four, hchild, if_neg (by omega)]

/-- A change below the child for the bits `s` is a change of the whole node. -/
private theorem ChangedAt.below {node' sub' : MbNode ν} {entry : Option ν} (hrule : node'.rule = node.rule)
    (hchild : ∀ i, (node'.child i).getD .empty =
      if i = v / 2 ^ cidr then sub' else (node.child i).getD .empty)
    (hsub : ChangedAt ((node.child (v / 2 ^ cidr)).getD .empty).toTable sub'.toTable cidr (v % 2 ^ cidr) entry) :
    ChangedAt node.toTable node'.toTable (cidr + 4) v entry := by
  -- a missing child has the table of an empty one
  have hget : ∀ (n : MbNode ν) (len u : Nat), n.toTable (len + 4) u =
      ((n.child (u / 2 ^ len)).getD .empty).toTable len (u % 2 ^ len) := by
    intro n len u
    rw [MbNode.toTable_add_four]
    cases n.child (u / 2 ^ len) with
    | none => exact (MbNode.toTable_of_isEmpty rfl len _).symm
    | some sub => rfl
  intro len u hu
  by_cases hlen : len < 4
  · rw [MbNode.toTable_of_lt hlen, MbNode.toTable_of_lt hlen, hrule, if_neg (by omega)]
  · obtain ⟨len, rfl⟩ : ∃ m, len = m + 4 := ⟨len - 4, by omega⟩
    rw [hget, hget, hchild]
    by_cases hs : len = cidr ∧ u = v
    · obtain ⟨rfl, rfl⟩ := hs
      rw [if_pos rfl, if_pos ⟨rfl, rfl⟩, hsub _ _ (Nat.mod_lt _ (Nat.two_pow_pos _)), if_pos ⟨rfl, rfl⟩]
    · rw [if_neg (show ¬(len + 4 = cidr + 4 ∧ u = v) by omega)]
      by_cases hdiv : u / 2 ^ len = v / 2 ^ cidr
      · rw [if_pos hdiv, hdiv, hsub _ _ (Nat.mod_lt _ (Nat.two_pow_pos _)), if_neg]
        rintro ⟨rfl, hmod⟩
        refine hs ⟨rfl, ?_⟩
        rw [← Nat.div_add_mod u (2 ^ len), ← Nat.div_add_mod v (2 ^ len), hdiv, hmod]
      · rw [if_neg hdiv]

theorem insertEntry_spec (hwf : node.WF) (nhi : ν) (hmask : Masked ip cidr) (hcidr : cidr ≤ 32) :
    ∃ node', insertEntry nhi cidr ip node = some node' ∧ node'.WF ∧ node'.isEmpty = false ∧
      ChangedAt node.toTable node'.toTable cidr (topBits ip cidr) (some nhi) := by
  induction cidr using stride_induct generalizing node ip with
  | last cidr hlt =>
    obtain ⟨node', h, hwf', hchild, hrule⟩ := insertRule_spec hwf nhi hmask hlt
    refine ⟨node', h, hwf', MbNode.isEmpty_of_rule ((hrule _).trans (if_pos rfl)), ?_⟩
    exact ChangedAt.rule hlt (topBits_lt ip hcidr) hchild hrule
  | down c ih =>
    have hs := topStride_lt ip
    obtain ⟨node₁, k, hdown, hget, hput⟩ := childFor_spec hwf hs
    have hsub : ((node.child (topStride ip)).getD .empty).WF := by
      cases hc : node.child (topStride ip) with
      | none => exact MbNode.wf_empty
      | some sub => exact (hwf.of_child hc).2
    obtain ⟨sub, hins, hwf', hne, hchange⟩ := ih hsub (hmask.shiftLeft hcidr) (by omega)
    obtain ⟨hwf₂, hrule, hchild⟩ := hput sub hne hwf'
    refine ⟨node₁.setChild k sub, ?_, hwf₂, MbNode.isEmpty_of_child ((hchild _).trans (if_pos rfl)), ?_⟩
    · simp [insertEntry, hdown, hget, hins]
    · rw [topBits_shiftLeft hcidr, topStride_eq hcidr] at hchange
      refine ChangedAt.below hrule (fun i => ?_) hchange
      rw [hchild, topStride_eq hcidr]
      split <;> rfl

/-! ### Deleting -/

theorem deleteEntry_of_lt (hlt : cidr < 4) :
    deleteEntry cidr ip node =
      let pos := countInlBitmap (lastStride ip cidr) cidr
      (reduceRule node (countOnes node.internal pos + 1)).bind fun node =>
        let node : MbNode ν := .mk node.external (clearBit node.internal pos) node.rules node.children
        some (node, node.isEmpty) := by
  match cidr, hlt with
  | 0, _ | 1, _ | 2, _ | 3, _ => rfl

private theorem deleteRule_spec (hwf : node.WF) (hmask : Masked ip cidr) (hlt : cidr < 4)
    (hsome : node.rule (countInlBitmap (topBits ip cidr) cidr) ≠ none) :
    ∃ node', deleteEntry cidr ip node = some (node', node'.isEmpty) ∧ node'.WF ∧ node'.child = node.child ∧
      ∀ i, node'.rule i = if i = countInlBitmap (topBits ip cidr) cidr then none else node.rule i := by
  rw [deleteEntry_of_lt hlt, lastStride_eq hmask hlt]
  have hpos := countInlBitmap_lt hlt (topBits_lt ip (show cidr ≤ 32 by omega))
  generalize countInlBitmap (topBits ip cidr) cidr = pos at hpos hsome
  have hpos' : pos < 16 := by omega
  obtain ⟨-, hnone⟩ | ⟨-, hbit, -, -⟩ := hwf.rule_eq hpos'
  · exact absurd hnone hsome
  · obtain ⟨external, internal, rules, children⟩ := node
    obtain ⟨hr, hc, top, busy, below⟩ := hwf
    replace hbit : internal.getLsbD pos = true := hbit
    refine ⟨.mk external (clearBit internal pos) (rules.eraseIdx (rank internal.getLsbD pos)) children, ?_, ?_, rfl, ?_⟩
    · simp only [MbNode.internal]
      rw [countOnes_eq _ (by omega), reduceRule_eq (by rw [countOnes_all, hr]) (by rw [countOnes_all, hc])
        (rank_lt_length hr hpos' hbit)]
      rfl
    · refine .mk (length_clearBit hr hpos' hbit) hc ?_ busy below
      rw [clearBit_getLsbD, Function.update_of_ne (by omega), top]
    · intro i
      simp only [MbNode.rule, MbNode.internal, MbNode.rules, clearBit_getLsbD]
      exact lookup_erase hbit i

/-- The child for the bits `s` is taken out. -/
private theorem reduceChild_spec {sub : MbNode ν} (sub' : MbNode ν) {s : Nat} (hwf : node.WF) (hs : s < 16)
    (hsub : node.child s = some sub) :
    ∃ node' : MbNode ν,
      reduceChild (node.setChild (countOnes node.external s) sub') (countOnes node.external s) = some node' ∧
      (MbNode.mk (clearBit node'.external s) node'.internal node'.rules node'.children).WF ∧
      (MbNode.mk (clearBit node'.external s) node'.internal node'.rules node'.children).rule = node.rule ∧
      ∀ i, (MbNode.mk (clearBit node'.external s) node'.internal node'.rules node'.children).child i =
        if i = s then none else node.child i := by
  obtain ⟨-, hnone⟩ | ⟨-, hbit, -, -⟩ := hwf.child_eq hs
  · rw [hnone] at hsub
    cases hsub
  · obtain ⟨external, internal, rules, children⟩ := node
    obtain ⟨hr, hc, top, busy, below⟩ := hwf
    replace hbit : external.getLsbD s = true := hbit
    refine ⟨.mk external internal rules (children.eraseIdx (rank external.getLsbD s)), ?_, ?_, rfl, ?_⟩
    · simp only [MbNode.setChild, MbNode.external, MbNode.internal, MbNode.rules, MbNode.children]
      rw [countOnes_eq _ (by omega), reduceChild_eq (by rw [countOnes_all, hr])
        (by rw [countOnes_all, List.length_set, hc]) (by rw [List.length_set]; exact rank_lt_length hc hs hbit),
        List.eraseIdx_set_eq]
    · exact .mk hr (length_clearBit hc hs hbit) top (fun c hmem => busy c (List.mem_of_mem_eraseIdx hmem))
        fun c hmem => below c (List.mem_of_mem_eraseIdx hmem)
    · intro i
      simp only [MbNode.child, MbNode.external, MbNode.children, clearBit_getLsbD]
      exact lookup_erase hbit i

theorem deleteEntry_spec (hwf : node.WF) (hmask : Masked ip cidr) (hcidr : cidr ≤ 32)
    (hsome : node.toTable cidr (topBits ip cidr) ≠ none) :
    ∃ node', deleteEntry cidr ip node = some (node', node'.isEmpty) ∧ node'.WF ∧
      ChangedAt node.toTable node'.toTable cidr (topBits ip cidr) none := by
  induction cidr using stride_induct generalizing node ip with
  | last cidr hlt =>
    rw [MbNode.toTable_of_lt hlt] at hsome
    obtain ⟨node', h, hwf', hchild, hrule⟩ := deleteRule_spec hwf hmask hlt hsome
    exact ⟨node', h, hwf', ChangedAt.rule hlt (topBits_lt ip hcidr) hchild hrule⟩
  | down c ih =>
    have hs := topStride_lt ip
    obtain ⟨-, hnone⟩ | ⟨sub, -, hget, hsub⟩ := hwf.child_eq hs
    · rw [MbNode.toTable_topBits hcidr, hnone] at hsome
      exact absurd rfl hsome
    · have hentry : sub.toTable c (topBits (ip <<< 4) c) ≠ none := by
        rwa [MbNode.toTable_topBits hcidr, hsub] at hsome
      obtain ⟨sub', hdel, hwf', hchange⟩ :=
        ih (hwf.of_child hsub).2 (hmask.shiftLeft hcidr) (by omega) hentry
      have hbelow : ChangedAt ((node.child (topBits ip (c + 4) / 2 ^ c)).getD .empty).toTable sub'.toTable c
          (topBits ip (c + 4) % 2 ^ c) none := by
        rw [← topStride_eq hcidr, hsub, ← topBits_shiftLeft hcidr]
        exact hchange
      cases hempty : sub'.isEmpty with
      | false =>
        obtain ⟨hwf₂, hchild⟩ := setChild_spec hwf hs hsub hempty hwf'
        refine ⟨node.setChild (countOnes node.external (topStride ip)) sub', ?_, hwf₂,
          ChangedAt.below rfl (fun i => ?_) hbelow⟩
        · simp [deleteEntry, countEnlBitmap, hget, hdel, hempty]
        · rw [hchild, topStride_eq hcidr]
          split <;> rfl
      | true =>
        obtain ⟨node', hred, hwf₂, hrule, hchild⟩ := reduceChild_spec sub' hwf hs hsub
        refine ⟨_, ?_, hwf₂, ChangedAt.below hrule (fun i => ?_) hbelow⟩
        · have hext : (node.setChild (countOnes node.external (topStride ip)) sub').external = node.external := rfl
          simp [deleteEntry, countEnlBitmap, hget, hdel, hempty, hext, hred]
        · have hsub' : sub' = .empty := hwf'.eq_empty hempty
          rw [hchild, topStride_eq hcidr, hsub']
          split <;> rfl

end StubProfile.Route
