import StubProfile.Route.Painting
import StubProfile.Route.Pool

/-!
# Blocks come and go

`Tree` puts the memory and the allocator together: the memory holds the tree, and the blocks in use are those of its
cells.  `ts_insert_iter` gives a leaf a block (`descend_spec`), and the delete functions take a block of leaves away
(`Tree.shrink`).
-/

namespace StubProfile.Route

variable {B B' : Nat × Nat → Nat × Nat} {C : Finset (Nat × Nat)} {own : Nat × Nat → Nat} {mem mem' : Ptr → Entry}
  {mm : MemCache} {free : List Nat} {q : Nat × Nat} {k x y n N : Nat}

/-! ### The tree with another block -/

private theorem live_insert : Live (insert (k, x) C) q ↔ Live C q ∨ q.1 = k + 1 ∧ q.2 / 256 = x := by
  match q with
  | (0, y) => simp [Live]
  | (j + 1, y) =>
    simp only [Live, Finset.mem_insert, Prod.mk.injEq, Nat.add_right_cancel_iff]
    exact or_comm

private theorem loc_update (hq : Live C q) (hC : (k, x) ∉ C) : loc (Function.update own (k, x) n) q = loc own q := by
  match q, hq with
  | (0, y), _ => rfl
  | (j + 1, y), hq =>
    have hne : (j, y / 256) ≠ (k, x) := fun h => hC (h ▸ hq)
    simp only [loc, Function.update_of_ne hne]

private theorem loc_new (hx : y / 256 = x) : loc (Function.update own (k, x) n) (k + 1, y) = blockPtr n (y % 256) := by
  simp [loc, hx]

theorem loc_ne_block (hn : ∀ q ∈ C, own q ≠ n) (hq : Live C q) {j : Nat} (hj : j < 256) : loc own q ≠ blockPtr n j := by
  match q, hq with
  | (0, y), _ => simp [loc, blockPtr]
  | (i + 1, y), hq =>
    intro h
    obtain ⟨hown, -⟩ := blockPtr_inj (Nat.mod_lt _ (by omega)) hj h
    exact hn _ hq hown

/-- The tags before anything is pushed down to the new block. -/
def fresh (B : Nat × Nat → Nat × Nat) (k x : Nat) : Nat × Nat → Nat × Nat :=
  fun q => if q.1 = k + 1 ∧ q.2 / 256 = x then (0, 0) else B q

private theorem monoOn_fresh (hmono : ∀ k y, (B (k, y / 256)).1 ≤ (B (k + 1, y)).1) :
    MonoOn (InRange (k + 1) (x * 256) 256) (fresh B k x) := by
  intro j y hr
  have hkj : k < j := (inRange_block.1 hr).1
  have hbelow : fresh B k x (j + 1, y) = B (j + 1, y) := if_neg fun h => by
    have := h.1
    simp only at this
    omega
  rw [hbelow]
  unfold fresh
  split
  · exact Nat.zero_le _
  · exact hmono j y

/-- The tag of the leaf, pushed down, is the tag of all cells of the new block. -/
private theorem paint_fresh (hs : Shape B C own mem) (hC : (k, x) ∉ C)
    (hflat : ∀ y, y / 256 = x → B (k + 1, y) = B (k, x)) (hq : Live (insert (k, x) C) q) :
    paint (InRange (k + 1) (x * 256) 256) (B (k, x)).1 ((B (k, x)).1, (B (k, x)).2) (fresh B k x) q = B q := by
  obtain ⟨j, y⟩ := q
  obtain hlive | ⟨rfl, rfl⟩ := live_insert.1 hq
  · -- the other cells are not below this one
    have hr : ¬InRange (k + 1) (x * 256) 256 (j, y) := by
      rw [inRange_block]
      rintro ⟨hkj, htop⟩
      have := hs.mem_of_below hlive hkj
      rw [htop] at this
      exact hC this
    have hnew : ¬(j = k + 1 ∧ y / 256 = x) := by
      rintro ⟨rfl, rfl⟩
      exact hC hlive
    simp [paint, hr, fresh, hnew]
  · have hr : InRange (k + 1) (y / 256 * 256) 256 (k + 1, y) :=
      inRange_block.2 ⟨Nat.lt_succ_self k, by rw [top_succ (Nat.le_refl k), top_self]⟩
    rw [hflat y rfl]
    simp [paint, hr, fresh]

/-- A leaf gets a block that is not in use. -/
private theorem Shape.grow (hs : Shape B C own mem) (hq : Live C (k, x)) (hk : k < 2) (hC : (k, x) ∉ C)
    (hn : ∀ q ∈ C, own q ≠ n) :
    Shape (fresh B k x) (insert (k, x) C) (Function.update own (k, x) n)
      (Function.update mem (loc own (k, x)) ⟨true, (B (k, x)).1, blockNo n⟩) where
  child q hmem := by
    obtain rfl | hmem := Finset.mem_insert.1 hmem
    · exact ⟨hk, live_insert.2 (.inl hq)⟩
    · exact ⟨(hs.child q hmem).1, live_insert.2 (.inl (hs.child q hmem).2)⟩
  inj q hmem q' hmem' h := by
    obtain rfl | hmem := Finset.mem_insert.1 hmem
    · obtain rfl | hmem' := Finset.mem_insert.1 hmem'
      · rfl
      · have hne : q' ≠ (k, x) := fun h => hC (h ▸ hmem')
        rw [Function.update_self, Function.update_of_ne hne] at h
        exact absurd h.symm (hn q' hmem')
    · have hne : q ≠ (k, x) := fun h => hC (h ▸ hmem)
      obtain rfl | hmem' := Finset.mem_insert.1 hmem'
      · rw [Function.update_self, Function.update_of_ne hne] at h
        exact absurd h (hn q hmem)
      · have hne' : q' ≠ (k, x) := fun h => hC (h ▸ hmem')
        rw [Function.update_of_ne hne, Function.update_of_ne hne'] at h
        exact hs.inj q hmem q' hmem' h
  entry q hlive' := by
    obtain hlive | ⟨hlevel, hx⟩ := live_insert.1 hlive'
    · have hfresh : fresh B k x q = B q := by
        refine if_neg fun h => ?_
        obtain ⟨j, y⟩ := q
        obtain ⟨rfl, rfl⟩ := h
        exact hC hlive
      rw [loc_update hlive hC]
      by_cases heq : q = (k, x)
      · subst heq
        rw [Function.update_self, content_of_mem (Finset.mem_insert_self _ _), hfresh, Function.update_self]
      · rw [Function.update_of_ne fun h => heq (hs.loc_inj hlive hq h), hs.entry q hlive]
        simp [content, heq, hfresh]
    · -- the new block is all zero
      obtain ⟨j, y⟩ := q
      obtain rfl : j = k + 1 := hlevel
      have hfresh : fresh B k x (k + 1, y) = (0, 0) := if_pos ⟨rfl, hx⟩
      have hmod : y % 256 < 256 := Nat.mod_lt _ (by omega)
      have hnew : (k + 1, y) ∉ insert (k, x) C := by
        rw [Finset.mem_insert]
        rintro (h | h)
        · simp at h
        · have hparent : (k, y / 256) ∈ C := (hs.child _ h).2
          rw [hx] at hparent
          exact hC hparent
      rw [loc_new hx, Function.update_of_ne (loc_ne_block hn hq hmod).symm, content_of_not_mem hnew, hfresh]
      exact hs.zero _ fun q hlive => loc_ne_block hn hlive hmod
  zero p hp := by
    have hp' : ∀ q, Live C q → loc own q ≠ p := by
      intro q hlive
      rw [← loc_update (n := n) hlive hC]
      exact hp q (live_insert.2 (.inl hlive))
    rw [Function.update_of_ne (hp' _ hq).symm]
    exact hs.zero p hp'

/-! ### The tree without a block -/

private theorem live_erase : Live (C.erase (k, x)) q ↔ Live C q ∧ ¬(q.1 = k + 1 ∧ q.2 / 256 = x) := by
  match q with
  | (0, y) => simp [Live]
  | (j + 1, y) =>
    simp only [Live, Finset.mem_erase, ne_eq, Prod.mk.injEq, Nat.add_right_cancel_iff]
    exact and_comm

/-- A block of leaves is cleared, and the cell above it becomes a leaf. -/
private theorem Shape.shrink (hs : Shape B C own mem) (hC : (k, x) ∈ C) (hleaf : ∀ y, y / 256 = x → (k + 1, y) ∉ C)
    (hclear : ∀ j < 256, mem' (blockPtr (own (k, x)) j) = .zero)
    (hkeep : ∀ p, (∀ j < 256, p ≠ blockPtr (own (k, x)) j) → mem' p = mem p) :
    Shape B (C.erase (k, x)) own (Function.update mem' (loc own (k, x)) ⟨false, (B (k, x)).1, (B (k, x)).2⟩) where
  child q hmem := by
    obtain ⟨-, hmem⟩ := Finset.mem_erase.1 hmem
    refine ⟨(hs.child q hmem).1, live_erase.2 ⟨(hs.child q hmem).2, ?_⟩⟩
    rintro ⟨hlevel, hx⟩
    obtain ⟨j, y⟩ := q
    obtain rfl : j = k + 1 := hlevel
    exact hleaf y hx hmem
  inj q hmem q' hmem' := hs.inj q (Finset.mem_of_mem_erase hmem) q' (Finset.mem_of_mem_erase hmem')
  entry q hlive := by
    obtain ⟨hlive, hout⟩ := live_erase.1 hlive
    by_cases heq : q = (k, x)
    · rw [heq, Function.update_self, content_of_not_mem (Finset.notMem_erase _ _)]
    · rw [Function.update_of_ne fun h => heq (hs.loc_inj hlive (hs.child _ hC).2 h), hkeep _ ?_, hs.entry q hlive]
      · simp [content, heq]
      · intro j hj h
        -- a cell with its entry in the block is one of the cells below
        have hcell := live_block hC hj
        have hloc : blockPtr (own (k, x)) j = loc own (k + 1, x * 256 + j) := by
          simp only [loc]
          rw [block_div x hj, show (x * 256 + j) % 256 = j by omega]
        obtain rfl := hs.loc_inj hlive hcell (h.trans hloc)
        exact hout ⟨rfl, block_div x hj⟩
  zero p hp := by
    have hcell : Live (C.erase (k, x)) (k, x) := live_erase.2 ⟨(hs.child _ hC).2, by simp⟩
    rw [Function.update_of_ne (hp _ hcell).symm]
    by_cases hin : ∃ j < 256, p = blockPtr (own (k, x)) j
    · obtain ⟨j, hj, rfl⟩ := hin
      exact hclear j hj
    · have hout : ∀ j < 256, p ≠ blockPtr (own (k, x)) j := fun j hj h => hin ⟨j, hj, h⟩
      rw [hkeep p hout]
      refine hs.zero p fun q hlive => ?_
      by_cases hblock : q.1 = k + 1 ∧ q.2 / 256 = x
      · obtain ⟨j, y⟩ := q
        obtain ⟨rfl, rfl⟩ := hblock
        exact (hout (y % 256) (Nat.mod_lt _ (by omega))).symm
      · exact hp q (live_erase.2 ⟨hlive, hblock⟩)

/-! ### Memory and allocator together -/

structure Tree (B : Nat × Nat → Nat × Nat) (C : Finset (Nat × Nat)) (own : Nat × Nat → Nat) (free : List Nat) (N : Nat)
    (mm : MemCache) : Prop where
  shape : Shape B C own mm.mem
  pool : Pool (C.image own) free N mm

theorem Tree.fits (h : Tree B C own free N mm) : Fits C own mm := by
  intro q hq
  match q, hq with
  | (0, x), hq => exact decide_eq_true hq
  | (k + 1, x), hq => exact h.pool.valid (Finset.mem_image_of_mem own hq) (Nat.mod_lt _ (by omega))

theorem Pool.of_mem (h : Pool (C.image own) free N mm) (mem : Ptr → Entry) :
    Pool (C.image own) free N { mm with mem := mem } :=
  ⟨h.room, h.cube, h.index, h.tidy, h.listed, h.nodup, h.split, h.apart⟩

theorem Tree.card_image (h : Tree B C own free N mm) : (C.image own).card = C.card :=
  Finset.card_image_of_injOn fun _ hq _ hq' heq => h.shape.inj _ hq _ hq' heq

/-- Cubes that are not there yet are zero. -/
private theorem Tree.zero_above (h : Tree B C own free N mm) (no i : Nat) (hno : mm.currCube < no) :
    mm.mem (.cube no i) = .zero := by
  refine h.shape.zero _ fun q hq => ?_
  match q, hq with
  | (0, x), _ => simp [loc]
  | (k + 1, x), hq =>
    have hlt := (h.pool.split _).2 (.inr (Finset.mem_image_of_mem own hq))
    have hcube := h.pool.cube
    simp only [loc, blockPtr, ne_eq, Ptr.cube.injEq, not_and]
    omega

private theorem image_grow (hC : (k, x) ∉ C) :
    (insert (k, x) C).image (Function.update own (k, x) n) = insert n (C.image own) := by
  rw [Finset.image_insert, Function.update_self]
  congr 1
  refine Finset.image_congr fun q hq => Function.update_of_ne ?_ _ _
  rintro rfl
  exact hC hq

/-- `ts_insert_iter` goes down from a cell: it finds the block below it, or a leaf gets one with its own tag in all
entries. -/
theorem descend_spec (h : Tree B C own free N mm) {turns : Nat} (hq : Live C (k, x)) (hk : k < 2)
    (hturns : 3 ≤ k + 1 + turns) (hroom : (k, x) ∉ C → C.card + 1 < 32 * 4096)
    (hflat : (k, x) ∉ C → ∀ y, y / 256 = x → B (k + 1, y) = B (k, x))
    (hmono : ∀ k y, (B (k, y / 256)).1 ≤ (B (k + 1, y)).1) (hsmall : (B (k, x)).1 < 2 ^ 6 ∧ (B (k, x)).2 < 2 ^ 25)
    (hzero : (B (k, x)).1 = 0 → B (k, x) = (0, 0)) :
    ∃ own' free' N' mm', descend turns mm (loc own (k, x)) = .ok (mm', loc own' (k + 1, x * 256)) ∧
      Tree B (insert (k, x) C) own' free' N' mm' := by
  unfold descend
  rw [h.shape.read_ok h.fits hq, ok_bind]
  by_cases hC : (k, x) ∈ C
  · refine ⟨own, free, N, mm, ?_, by rwa [Finset.insert_eq_of_mem hC]⟩
    simp [content_of_mem hC, loc_block]
  · obtain ⟨n, free', N', mm₁, halloc, hn, hpool, hmem, hcube⟩ :=
      h.pool.alloc (by rw [h.card_image]; exact hroom hC) h.zero_above
    have hn' : ∀ q ∈ C, own q ≠ n := fun q hmem heq => hn (heq ▸ Finset.mem_image_of_mem own hmem)
    have hlt : n < N' := (hpool.split n).2 (.inr (Finset.mem_insert_self _ _))
    have hindex := blockNo_lt (Nat.lt_trans hlt hpool.room)
    have hvalid : mm₁.valid (loc own (k, x)) = true := by
      have hv := h.fits _ hq
      cases hl : loc own (k, x) with
      | l1 i => simpa [hl, MemCache.valid] using hv
      | cube no i =>
        simp only [hl, MemCache.valid, Bool.and_eq_true, decide_eq_true_eq] at hv ⊢
        omega
    -- the block with zeros in it
    have hgrow := h.shape.grow hq hk hC hn'
    rw [← hmem] at hgrow
    rw [← image_grow hC] at hpool
    have htree : Tree (fresh B k x) (insert (k, x) C) (Function.update own (k, x) n) free' N'
        { mm₁ with mem := Function.update mm₁.mem (loc own (k, x)) ⟨true, (B (k, x)).1, blockNo n⟩ } :=
      ⟨hgrow, hpool.of_mem _⟩
    have hptr : loc (Function.update own (k, x) n) (k + 1, x * 256) = getEntry (blockNo n) := by
      rw [loc_block, Function.update_self]
    refine ⟨Function.update own (k, x) n, free', N', ?_⟩
    simp only [content_of_not_mem hC, Bool.false_eq_true, ↓reduceIte, halloc, ok_bind, MemCache.write, hvalid,
      Entry.setIndex_eq hindex]
    by_cases htag : (B (k, x)).1 = 0
    · -- nothing to push
      refine ⟨_, by rw [if_pos htag, hptr], htree.shape.congr fun q hlive => ?_, htree.pool⟩
      unfold fresh
      split
      · rename_i hnew
        obtain ⟨j, y⟩ := q
        obtain ⟨rfl, rfl⟩ := hnew
        rw [hflat hC y rfl, hzero htag]
      · rfl
    · obtain ⟨mem₂, hpush, hs₂⟩ := tsInsertLx_shape _ htree.shape htree.fits hturns
        (row_block (Finset.mem_insert_self _ _)) (one_shiftLeft_eight (B (k, x)).1) (monoOn_fresh hmono) hsmall.1 hsmall.2
      rw [hptr] at hpush
      refine ⟨_, by rw [if_neg htag, hpush, hptr]; rfl, hs₂.congr fun q hlive => ?_, htree.pool.of_mem _⟩
      exact paint_fresh h.shape hC (hflat hC) hlive

/-! ### Recycling a block -/

private theorem Tree.read_block (h : Tree B C own free N mm) (hC : (k, x) ∈ C) {j : Nat} (hj : j < 256) :
    mm.read ((getEntry (blockNo (own (k, x)))).add j) = .ok (content B C own (k + 1, x * 256 + j)) := by
  rw [← loc_block, (row_block hC).ptr j hj]
  exact h.shape.read_ok h.fits (live_block hC hj)

private theorem sameLoop_spec {ne : Ptr} {f : Nat → Entry} (hf : ∀ j < 256, mm.read (ne.add j) = .ok (f j))
    (cidr index : Nat) {m i : Nat} (hi : i + m ≤ 256) :
    ∃ b, sameLoop mm ne cidr index m i = .ok b ∧ (b = true ↔ ∀ j, i ≤ j → j < i + m → f j = ⟨false, cidr, index⟩) := by
  induction m generalizing i with
  | zero => exact ⟨true, rfl, by simp; omega⟩
  | succ m ih =>
    rw [sameLoop, hf i (by omega), ok_bind]
    by_cases hsame : f i = ⟨false, cidr, index⟩
    · obtain ⟨b, hb, hiff⟩ := ih (i := i + 1) (by omega)
      refine ⟨b, by simp [hsame, hb], hiff.trans ⟨fun hall j h1 h2 => ?_,
        fun hall j h1 h2 => hall j (by omega) (by omega)⟩⟩
      obtain rfl | hlt : j = i ∨ i + 1 ≤ j := by omega
      · exact hsame
      · exact hall j hlt (by omega)
    · refine ⟨false, ?_, by simp; exact ⟨i, by omega, by omega, hsame⟩⟩
      rw [if_pos]
      by_contra hne
      refine hsame ?_
      simp only [Bool.or_eq_true, decide_eq_true_eq, not_or, Bool.not_eq_true, ne_eq, Decidable.not_not] at hne
      obtain ⟨⟨h1, h2⟩, h3⟩ := hne
      cases hfi : f i with
      | mk child c d => simp_all

/-- The entries right below the cell are leaves with one and the same tag of at most `level` bits. -/
def Uniform (B : Nat × Nat → Nat × Nat) (C : Finset (Nat × Nat)) (k x level : Nat) : Prop :=
  ∃ tag : Nat × Nat, tag.1 ≤ level ∧ ∀ y, y / 256 = x → (k + 1, y) ∉ C ∧ B (k + 1, y) = tag

private theorem content_eq_leaf {tag : Nat × Nat} : content B C own q = ⟨false, tag.1, tag.2⟩ ↔ q ∉ C ∧ B q = tag := by
  unfold content
  split
  · simp_all
  · rename_i hq
    simp [hq, Prod.ext_iff]

private theorem canRecycle_spec (h : Tree B C own free N mm) (hC : (k, x) ∈ C) (level : Nat) :
    ∃ b, canRecycle mm (content B C own (k, x)) level = .ok b ∧ (b = true ↔ Uniform B C k x level) := by
  have hread : ∀ j < 256,
      mm.read ((getEntry (blockNo (own (k, x)))).add j) = .ok (content B C own (k + 1, x * 256 + j)) :=
    fun j hj => h.read_block hC hj
  have hzero : x * 256 / 256 = x := by omega
  have hfirst : mm.read (getEntry (blockNo (own (k, x)))) = .ok (content B C own (k + 1, x * 256)) := by
    have hlive : Live C (k + 1, x * 256) := by
      show (k, x * 256 / 256) ∈ C
      rwa [hzero]
    rw [← loc_block]
    exact h.shape.read_ok h.fits hlive
  unfold canRecycle
  simp only [content_of_mem hC, hfirst, ok_bind]
  by_cases hchild : (k + 1, x * 256) ∈ C
  · refine ⟨false, by simp [content_of_mem hchild], ?_⟩
    simp only [Bool.false_eq_true, false_iff]
    rintro ⟨tag, -, hall⟩
    exact (hall _ hzero).1 hchild
  · by_cases hlong : level < (B (k + 1, x * 256)).1
    · refine ⟨false, by simp [content_of_not_mem hchild, hlong], ?_⟩
      simp only [Bool.false_eq_true, false_iff]
      rintro ⟨tag, htag, hall⟩
      rw [(hall _ hzero).2] at hlong
      omega
    · obtain ⟨b, hb, hiff⟩ := sameLoop_spec hread (B (k + 1, x * 256)).1 (B (k + 1, x * 256)).2
        (show 1 + 255 ≤ 256 by omega)
      refine ⟨b, by simp [content_of_not_mem hchild, hlong, hb], hiff.trans ⟨fun hall => ?_, ?_⟩⟩
      · refine ⟨B (k + 1, x * 256), by omega, fun y hy => ?_⟩
        obtain rfl | hj : y = x * 256 ∨ x * 256 < y := by omega
        · exact ⟨hchild, rfl⟩
        · have := hall (y % 256) (by omega) (by omega)
          rw [show x * 256 + y % 256 = y by omega] at this
          exact content_eq_leaf.1 this
      · rintro ⟨tag, -, hall⟩ j h1 h2
        obtain ⟨hmem, hB⟩ := hall (x * 256 + j) (block_div x h2)
        obtain ⟨-, hB₀⟩ := hall (x * 256) hzero
        exact content_eq_leaf.2 ⟨hmem, hB.trans hB₀.symm⟩

private theorem clearEntries_spec (e : Entry) (he : e.index = blockNo n)
    (hvalid : ∀ j < 256, mm.valid (blockPtr n j) = true) :
    ∃ mem', clearEntries mm e = .ok { mm with mem := mem' } ∧ (∀ j < 256, mem' (blockPtr n j) = .zero) ∧
      ∀ p, (∀ j < 256, p ≠ blockPtr n j) → mem' p = mm.mem p := by
  let P : Nat → MemCache → Prop := fun i mm' => ∃ mem', mm' = { mm with mem := mem' } ∧
    (∀ j < i, mem' (blockPtr n j) = .zero) ∧ ∀ p, (∀ j < 256, p ≠ blockPtr n j) → mem' p = mm.mem p
  have hloop : ∃ mm', clearEntries mm e = .ok mm' ∧ P 256 mm' := by
    unfold clearEntries
    rw [he, getEntry_blockNo]
    refine forRange_induct ⟨mm.mem, rfl, by simp, fun p _ => rfl⟩ fun i hi mm₁ hP => ?_
    obtain ⟨mem₁, rfl, hclear, hkeep⟩ := hP
    refine ⟨{ mm with mem := Function.update mem₁ (blockPtr n i) .zero }, ?_, _, rfl, fun j hj => ?_, fun p hp => ?_⟩
    · rw [blockPtr_add, Nat.zero_add]
      exact if_pos (hvalid i hi)
    · by_cases heq : j = i
      · rw [heq, Function.update_self]
      · rw [Function.update_of_ne fun h => heq (blockPtr_inj (by omega) hi h).2]
        exact hclear j (by omega)
    · rw [Function.update_of_ne (hp i hi)]
      exact hkeep p hp
  obtain ⟨_, hrun, mem', rfl, hclear, hkeep⟩ := hloop
  exact ⟨mem', hrun, hclear, hkeep⟩

private theorem image_erase_own (hs : Shape B C own mem) (hC : q ∈ C) :
    (C.image own).erase (own q) = (C.erase q).image own := by
  ext n
  simp only [Finset.mem_erase, Finset.mem_image]
  constructor
  · rintro ⟨hne, q', hq', rfl⟩
    exact ⟨q', ⟨fun h => hne (by rw [h]), hq'⟩, rfl⟩
  · rintro ⟨q', ⟨hne, hq'⟩, rfl⟩
    exact ⟨fun h => hne (hs.inj _ hq' _ hC h), q', hq', rfl⟩

/-- A block of leaves is given back, and the cell above it becomes a leaf with its own tag. -/
theorem Tree.shrink (h : Tree B C own free N mm) (hC : (k, x) ∈ C) (hleaf : ∀ y, y / 256 = x → (k + 1, y) ∉ C) :
    ∃ mm₁, recycle mm (loc own (k, x)) = .ok mm₁ ∧ mm₁.read (loc own (k, x)) = .ok (content B C own (k, x)) ∧
      ∃ mm₂, mm₁.write (loc own (k, x)) ⟨false, (B (k, x)).1, (B (k, x)).2⟩ = .ok mm₂ ∧
        Tree B (C.erase (k, x)) own (own (k, x) :: free) N mm₂ := by
  have hlive := (h.shape.child _ hC).2
  have hused := Finset.mem_image_of_mem own hC
  obtain ⟨mem', hclear, hzero, hkeep⟩ := clearEntries_spec (content B C own (k, x)) (by rw [content_of_mem hC])
    fun j hj => h.pool.valid hused hj
  obtain ⟨freeIndex', hdealloc, hpool⟩ := (h.pool.of_mem mem').dealloc hused
  rw [image_erase_own h.shape hC] at hpool
  have hout : ∀ j < 256, loc own (k, x) ≠ blockPtr (own (k, x)) j := by
    intro j hj heq
    have hloc : blockPtr (own (k, x)) j = loc own (k + 1, x * 256 + j) := by
      simp only [loc]
      rw [block_div x hj, show (x * 256 + j) % 256 = j by omega]
    have := h.shape.loc_inj hlive (live_block hC hj) (heq.trans hloc)
    simp at this
  refine ⟨{ mm with mem := mem', freeIndex := freeIndex' }, ?_, ?_, _, if_pos (h.fits _ hlive),
    h.shape.shrink hC hleaf hzero hkeep, hpool.of_mem _⟩
  · rw [recycle, h.shape.read_ok h.fits hlive, ok_bind, hclear, ok_bind, content_of_mem hC, hdealloc]
  · refine (if_pos (h.fits _ hlive)).trans ?_
    rw [← h.shape.entry _ hlive]
    exact congrArg Except.ok (hkeep _ hout)

/-- `can_recycle` and what follows it in the delete functions: if the block goes, the tag has to be that of its cell. -/
theorem collapse_spec (h : Tree B C own free N mm) (hC : (k, x) ∈ C) (ret : Bool) {level : Nat} {tag : Nat × Nat}
    (htag : Uniform B C k x level → tag = B (k, x)) (hsmall : (B (k, x)).1 < 2 ^ 6 ∧ (B (k, x)).2 < 2 ^ 25) :
    ∃ b free' mm', collapse mm (loc own (k, x)) ret tag.1 tag.2 level = .ok (mm', b) ∧
      (b = true ↔ ret = true ∧ Uniform B C k x level) ∧
      Tree B (if b then C.erase (k, x) else C) own free' N mm' := by
  have hlive := (h.shape.child _ hC).2
  unfold collapse
  rw [h.shape.read_ok h.fits hlive, ok_bind]
  cases ret with
  | false => exact ⟨false, free, mm, rfl, by simp, by simpa using h⟩
  | true =>
    obtain ⟨b, hb, hiff⟩ := canRecycle_spec h hC level
    cases b with
    | false => exact ⟨false, free, mm, by simp [hb], by simpa using hiff, by simpa using h⟩
    | true =>
      have huniform := hiff.1 rfl
      obtain ⟨mm₁, hrec, hread, mm₂, hwrite, htree⟩ := h.shrink hC fun y hy => (huniform.choose_spec.2 y hy).1
      refine ⟨true, _, mm₂, ?_, by simpa using hiff, by simpa using htree⟩
      rw [htag huniform]
      simp only [↓reduceIte, hb, ok_bind, hrec, hread]
      simp only [content_of_mem hC, Entry.setIndex_eq hsmall.2, Entry.setCidr_eq hsmall.1, hwrite, ok_bind]

end StubProfile.Route
