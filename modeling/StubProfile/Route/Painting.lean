import StubProfile.Route.Shape

/-!
# The loops of `ts_insert_lx` and `ts_delete_lx`

Both loops go over a range of cells and, through the child entries, over all cells below it, and give those that belong
to a prefix of at most `cidr` bits another tag.  They leave out the cells with a longer prefix together with all that is
below; nothing is missed, because the lengths do not get smaller from a cell to those below it.
-/

namespace StubProfile.Route

variable {B B₁ : Nat × Nat → Nat × Nat} {C : Finset (Nat × Nat)} {own : Nat × Nat → Nat} {mem : Ptr → Entry}
  {mm : MemCache} {q tag : Nat × Nat} {k x n cidr : Nat}

/-! ### Painting cell by cell -/

private theorem paint_none : paint (InRange k x 0) cidr tag B = B := by
  funext q
  refine if_neg fun h => ?_
  obtain ⟨⟨-, h1, h2⟩, -⟩ := h
  omega

private theorem paint_next (i : Nat) :
    paint (InRange k (x + i) 1) cidr tag (paint (InRange k x i) cidr tag B) = paint (InRange k x (i + 1)) cidr tag B := by
  funext q
  by_cases hi : InRange k x i q
  · have h1 : ¬InRange k (x + i) 1 q := by
      unfold InRange at hi ⊢
      omega
    have h2 : InRange k x (i + 1) q := by
      unfold InRange at hi ⊢
      omega
    simp [paint, hi, h1, h2]
  · have h2 : InRange k x (i + 1) q ↔ InRange k (x + i) 1 q := by
      unfold InRange at hi ⊢
      omega
    simp [paint, hi, h2]

private theorem paint_of_lt (hmono : MonoOn (InRange k x 1) B) (h : cidr < (B (k, x)).1) :
    paint (InRange k x 1) cidr tag B = B := by
  funext q
  refine if_neg fun hq => ?_
  obtain ⟨hr, hle⟩ := hq
  have := hmono.le hr
  rw [(inRange_one.1 hr).2] at this
  omega

private theorem paint_block (h : (B (k, x)).1 ≤ cidr) :
    paint (InRange (k + 1) (x * 256) 256) cidr tag (Function.update B (k, x) tag) =
      paint (InRange k x 1) cidr tag B := by
  funext q
  by_cases hq : q = (k, x)
  · subst hq
    simp [paint, inRange_block, inRange_one, top_self, h]
  · have hiff : InRange (k + 1) (x * 256) 256 q ↔ InRange k x 1 q := by
      rw [inRange_block, inRange_one]
      refine ⟨fun hr => ⟨by omega, hr.2⟩, fun hr => ⟨?_, hr.2⟩⟩
      by_contra hlt
      obtain ⟨j, y⟩ := q
      obtain rfl : j = k := by simp only at hr hlt; omega
      rw [top_self] at hr
      exact hq (by rw [hr.2])
    simp only [paint, hiff, Function.update_of_ne hq]

private theorem paint_leaf (hs : Shape B C own mem) (hC : (k, x) ∉ C) (h : (B (k, x)).1 ≤ cidr) (hq : Live C q) :
    paint (InRange k x 1) cidr tag B q = Function.update B (k, x) tag q := by
  by_cases heq : q = (k, x)
  · subst heq
    simp [paint, inRange_one, top_self, h]
  · have hr : ¬InRange k x 1 q := by
      rw [inRange_one]
      rintro ⟨hk, hx⟩
      obtain ⟨j, y⟩ := q
      by_cases hj : k = j
      · subst hj
        rw [top_self] at hx
        exact heq (by rw [hx])
      · have := hs.mem_of_below hq (show k < j by simp only at hk; omega)
        rw [hx] at this
        exact hC this
    simp [paint, hr, Function.update_of_ne heq]

/-- The part painted so far does not touch the next cell and what is below it. -/
private theorem paint_eq_of_next {i : Nat} (hq : InRange k (x + i) 1 q) : paint (InRange k x i) cidr tag B q = B q := by
  refine if_neg fun h => ?_
  obtain ⟨-, h1, h2⟩ := hq
  obtain ⟨⟨-, h3, h4⟩, -⟩ := h
  omega

private theorem MonoOn.paint_next (hmono : MonoOn (InRange k x n) B) {i : Nat} (hi : i < n) :
    MonoOn (InRange k (x + i) 1) (paint (InRange k x i) cidr tag B) := by
  refine MonoOn.congr (hmono.mono fun q hq => ?_) fun q => paint_eq_of_next
  unfold InRange at hq ⊢
  omega

private theorem MonoOn.update_block (hmono : MonoOn (InRange k x 1) B) :
    MonoOn (InRange (k + 1) (x * 256) 256) (Function.update B (k, x) tag) := by
  refine MonoOn.congr (hmono.mono fun q hq => ?_) fun q hq => Function.update_of_ne ?_ _ _
  · rw [inRange_block] at hq
    exact inRange_one.2 ⟨by omega, hq.2⟩
  · rw [inRange_block] at hq
    rintro rfl
    exact absurd hq.1 (Nat.lt_irrefl k)

/-! ### Inserting -/

/-- A range of entries: all of them are there, one behind the other. -/
structure Row (C : Finset (Nat × Nat)) (own : Nat × Nat → Nat) (k x n : Nat) : Prop where
  live : ∀ i < n, Live C (k, x + i)
  ptr : ∀ i < n, (loc own (k, x)).add i = loc own (k, x + i)

/-- There is no level below the third. -/
private theorem Row.level_lt {m : Nat} (hrow : Row C own k x n) (hs : Shape B C own mem) (hn : n = 1 <<< m) :
    k < 3 := by
  have hpos : 0 < n := by
    rw [hn, Nat.one_shiftLeft]
    exact Nat.two_pow_pos _
  by_contra hk
  obtain ⟨j, rfl⟩ : ∃ j, k = j + 1 := ⟨k - 1, by omega⟩
  have hchild : (j, (x + 0) / 256) ∈ C := hrow.live 0 hpos
  have := (hs.child _ hchild).1
  simp only at this
  omega

theorem live_block (h : (k, x) ∈ C) {i : Nat} (hi : i < 256) : Live C (k + 1, x * 256 + i) := by
  show (k, (x * 256 + i) / 256) ∈ C
  rwa [block_div x hi]

/-- The entries of a block. -/
theorem row_block (h : (k, x) ∈ C) : Row C own (k + 1) (x * 256) 256 where
  live i hi := live_block h hi
  ptr i hi := by
    simp only [loc]
    rw [blockPtr_add, block_div x hi, show x * 256 / 256 = x by omega,
      show x * 256 % 256 + i = (x * 256 + i) % 256 by omega]

/-- The recursive calls go over a whole block. -/
theorem one_shiftLeft_eight (cidr : Nat) : 256 = 1 <<< (cidr + 8 - cidr) := by
  rw [Nat.add_sub_cancel_left]
  rfl

theorem loc_block (own : Nat × Nat → Nat) (k x : Nat) : loc own (k + 1, x * 256) = getEntry (blockNo (own (k, x))) := by
  rw [getEntry_blockNo, loc]
  simp

private theorem insertLxEntry_shape (mm : MemCache) (push : MemCache → Ptr → Except Fault MemCache) {nhi : Nat}
    (hs : Shape B C own mm.mem) (hfits : Fits C own mm) (hq : Live C (k, x)) (hmono : MonoOn (InRange k x 1) B)
    (hcidr : cidr < 2 ^ 6)
    (hnhi : nhi < 2 ^ 25)
    (hpush : (k, x) ∈ C → ∀ B₁ mem₁, Shape B₁ C own mem₁ → MonoOn (InRange (k + 1) (x * 256) 256) B₁ →
      ∃ mem₂, push { mm with mem := mem₁ } (loc own (k + 1, x * 256)) = .ok { mm with mem := mem₂ } ∧
        Shape (paint (InRange (k + 1) (x * 256) 256) cidr (cidr, nhi) B₁) C own mem₂) :
    ∃ mem', insertLxEntry push cidr nhi mm (loc own (k, x)) = .ok { mm with mem := mem' } ∧
      Shape (paint (InRange k x 1) cidr (cidr, nhi) B) C own mem' := by
  unfold insertLxEntry
  rw [hs.read_ok hfits hq, ok_bind]
  by_cases hlong : cidr < (B (k, x)).1
  · refine ⟨mm.mem, ?_, by rwa [paint_of_lt hmono hlong]⟩
    by_cases hC : (k, x) ∈ C
    · simp [content_of_mem hC, hlong]
    · simp [content_of_not_mem hC, hlong]
  · have hwrite := hs.write hq (cidr, nhi)
    by_cases hC : (k, x) ∈ C
    · rw [content_of_mem hC, Function.update_self] at hwrite
      obtain ⟨mem₂, hp, hs₂⟩ := hpush hC _ _ hwrite hmono.update_block
      rw [loc_block] at hp
      refine ⟨mem₂, ?_, by rwa [paint_block (by omega)] at hs₂⟩
      simp only [content_of_mem hC, hlong, ↓reduceIte, Entry.setCidr_eq hcidr, hfits.write_ok hq, ok_bind, hp]
    · rw [content_of_not_mem hC, Function.update_self] at hwrite
      refine ⟨_, ?_, hwrite.congr fun q hlive => (paint_leaf hs hC (by omega) hlive).symm⟩
      simp [content_of_not_mem hC, hlong, Entry.setCidr_eq hcidr, Entry.setIndex_eq hnhi, hfits.write_ok hq]

theorem tsInsertLx_shape (mm : MemCache) {turns level nhi : Nat} (hs : Shape B C own mm.mem) (hfits : Fits C own mm)
    (hturns : 3 ≤ k + turns) (hrow : Row C own k x n) (hn : n = 1 <<< (level - cidr)) (hmono : MonoOn (InRange k x n) B)
    (hcidr : cidr < 2 ^ 6) (hnhi : nhi < 2 ^ 25) :
    ∃ mem', tsInsertLx turns mm (loc own (k, x)) cidr nhi level = .ok { mm with mem := mem' } ∧
      Shape (paint (InRange k x n) cidr (cidr, nhi) B) C own mem' := by
  induction turns generalizing k x n level mm B with
  | zero =>
    have := hrow.level_lt hs hn
    omega
  | succ turns ih =>
    let P : Nat → MemCache → Prop := fun i mm' => ∃ mem', mm' = { mm with mem := mem' } ∧
      Shape (paint (InRange k x i) cidr (cidr, nhi) B) C own mem'
    have hloop : ∃ mm', tsInsertLx (turns + 1) mm (loc own (k, x)) cidr nhi level = .ok mm' ∧ P n mm' := by
      rw [tsInsertLx, ← hn]
      refine forRange_induct ⟨mm.mem, rfl, by rwa [paint_none]⟩ fun i hi mm₁ hP => ?_
      obtain ⟨mem₁, rfl, hs₁⟩ := hP
      rw [hrow.ptr i hi]
      obtain ⟨mem₂, hstep, hs₂⟩ := insertLxEntry_shape { mm with mem := mem₁ }
        (fun mm ne => tsInsertLx turns mm ne cidr nhi (cidr + 8)) hs₁ hfits (hrow.live i hi) (hmono.paint_next hi)
        hcidr hnhi fun hC B₁ mem₁ hB₁ hmono₁ =>
          ih { mm with mem := mem₁ } hB₁ hfits (by omega) (row_block hC) (one_shiftLeft_eight cidr) hmono₁
      exact ⟨_, hstep, mem₂, rfl, by rwa [paint_next] at hs₂⟩
    obtain ⟨_, hrun, mem', rfl, hs'⟩ := hloop
    exact ⟨mem', hrun, hs'⟩

/-! ### Deleting -/

/-- Right below a cell there is a block or a tag with more than `cidr` bits. -/
def Busy (B : Nat × Nat → Nat × Nat) (C : Finset (Nat × Nat)) (cidr : Nat) (q : Nat × Nat) : Prop :=
  ∃ y, y / 256 = q.2 ∧ ((q.1 + 1, y) ∈ C ∨ cidr < (B (q.1 + 1, y)).1)

private theorem Busy.congr {q : Nat × Nat} (h : Busy B C cidr q) {B₁ : Nat × Nat → Nat × Nat}
    (hsame : ∀ y, y / 256 = q.2 → B₁ (q.1 + 1, y) = B (q.1 + 1, y)) : Busy B₁ C cidr q := by
  obtain ⟨y, hy, hor⟩ := h
  exact ⟨y, hy, by rwa [hsame y hy]⟩

/-- The call for the block of a busy cell does not return 1. -/
private theorem Busy.not_all (h : Busy B C cidr (k, x)) :
    ¬∀ j < 256, (k + 1, x * 256 + j) ∉ C ∧ (B (k + 1, x * 256 + j)).1 ≤ cidr := by
  intro hall
  obtain ⟨y, hy, hor⟩ := h
  have hcell := hall (y % 256) (Nat.mod_lt _ (by omega))
  simp only at hy
  rw [show x * 256 + y % 256 = y by omega] at hcell
  obtain h | h := hor
  · exact hcell.1 h
  · exact absurd hcell.2 (Nat.not_le.2 h)

private theorem deleteLxEntry_shape (mm : MemCache) (push : MemCache → Ptr → Except Fault (MemCache × Bool))
    (cidr : Nat) (flag : Bool) (hs : Shape B C own mm.mem) (hfits : Fits C own mm) (hq : Live C (k, x))
    (hmono : MonoOn (InRange k x 1) B) (htag : tag.1 < 2 ^ 6 ∧ tag.2 < 2 ^ 25)
    (hpush : (k, x) ∈ C → ∀ B₁ mem₁, Shape B₁ C own mem₁ → MonoOn (InRange (k + 1) (x * 256) 256) B₁ →
      (∀ q, InRange (k + 1) (x * 256) 256 q → B₁ q = B q) →
      ∃ mem₂, push { mm with mem := mem₁ } (loc own (k + 1, x * 256)) = .ok ({ mm with mem := mem₂ }, false) ∧
        Shape (paint (InRange (k + 1) (x * 256) 256) cidr tag B₁) C own mem₂) :
    ∃ mem' flag', deleteLxEntry push cidr tag.1 tag.2 (mm, flag) (loc own (k, x)) = .ok ({ mm with mem := mem' }, flag') ∧
      (flag' = true ↔ flag = true ∧ (k, x) ∉ C ∧ (B (k, x)).1 ≤ cidr) ∧
      Shape (paint (InRange k x 1) cidr tag B) C own mem' := by
  unfold deleteLxEntry
  simp only [hs.read_ok hfits hq, ok_bind]
  by_cases hlong : cidr < (B (k, x)).1
  · refine ⟨mm.mem, false, ?_, by simp; omega, by rwa [paint_of_lt hmono hlong]⟩
    by_cases hC : (k, x) ∈ C
    · simp [content_of_mem hC, hlong]
    · simp [content_of_not_mem hC, hlong]
  · have hwrite := hs.write hq tag
    by_cases hC : (k, x) ∈ C
    · rw [content_of_mem hC, Function.update_self] at hwrite
      have hbelow : ∀ q, InRange (k + 1) (x * 256) 256 q → Function.update B (k, x) tag q = B q := by
        intro q hr
        refine Function.update_of_ne ?_ _ _
        rintro rfl
        exact absurd (inRange_block.1 hr).1 (Nat.lt_irrefl k)
      obtain ⟨mem₂, hp, hs₂⟩ := hpush hC _ _ hwrite hmono.update_block hbelow
      rw [loc_block] at hp
      refine ⟨mem₂, false, ?_, by simp [hC], by rwa [paint_block (by omega)] at hs₂⟩
      simp [content_of_mem hC, hlong, Entry.setCidr_eq htag.1, hfits.write_ok hq, hp]
    · rw [content_of_not_mem hC, Function.update_self] at hwrite
      refine ⟨_, flag, ?_, by simp [hC]; omega, hwrite.congr fun q hlive => (paint_leaf hs hC (by omega) hlive).symm⟩
      simp [content_of_not_mem hC, hlong, Entry.setCidr_eq htag.1, Entry.setIndex_eq htag.2, hfits.write_ok hq]

/-- `ts_delete_lx` where below every child entry something longer is left, so that no block is given back.  The result is
1 if the range has only leaves with at most `cidr` bits. -/
theorem tsDeleteLx_shape (mm : MemCache) {turns level : Nat} (hs : Shape B C own mm.mem) (hfits : Fits C own mm)
    (hturns : 3 ≤ k + turns) (hrow : Row C own k x n) (hn : n = 1 <<< (level - cidr)) (hmono : MonoOn (InRange k x n) B)
    (hbusy : ∀ q ∈ C, InRange k x n q → Busy B C cidr q) (htag : tag.1 < 2 ^ 6 ∧ tag.2 < 2 ^ 25) :
    ∃ mem' flag, tsDeleteLx turns mm (loc own (k, x)) cidr tag.1 tag.2 level = .ok ({ mm with mem := mem' }, flag) ∧
      (flag = true ↔ ∀ i < n, (k, x + i) ∉ C ∧ (B (k, x + i)).1 ≤ cidr) ∧
      Shape (paint (InRange k x n) cidr tag B) C own mem' := by
  induction turns generalizing k x n level mm B with
  | zero =>
    have := hrow.level_lt hs hn
    omega
  | succ turns ih =>
    let P : Nat → MemCache × Bool → Prop := fun i s => ∃ mem' flag, s = ({ mm with mem := mem' }, flag) ∧
      (flag = true ↔ ∀ j < i, (k, x + j) ∉ C ∧ (B (k, x + j)).1 ≤ cidr) ∧
      Shape (paint (InRange k x i) cidr tag B) C own mem'
    have hloop : ∃ s, tsDeleteLx (turns + 1) mm (loc own (k, x)) cidr tag.1 tag.2 level = .ok s ∧ P n s := by
      rw [tsDeleteLx, ← hn]
      refine forRange_induct ⟨mm.mem, true, rfl, by simp, by rwa [paint_none]⟩ fun i hi s hP => ?_
      obtain ⟨mem₁, flag, rfl, hflag, hs₁⟩ := hP
      rw [hrow.ptr i hi]
      have hnext : ∀ q, InRange k (x + i) 1 q → InRange k x n q := by
        intro q hr
        unfold InRange at hr ⊢
        omega
      have hcell : InRange k (x + i) 1 (k, x + i) := inRange_one.2 ⟨Nat.le_refl k, top_self k _⟩
      have hentry := deleteLxEntry_shape { mm with mem := mem₁ }
        (fun mm ne => tsDeleteLx turns mm ne cidr tag.1 tag.2 (cidr + 8)) cidr flag hs₁ hfits (hrow.live i hi)
        (hmono.paint_next hi) htag
      obtain ⟨mem₂, flag', hstep, hflag', hs₂⟩ := hentry fun hC B₁ mem₁ hB₁ hmono₁ hagree => by
        -- what was below the child entry is still there
        have hsame : ∀ q y, InRange k (x + i) 1 q → k ≤ q.1 → y / 256 = q.2 → B₁ (q.1 + 1, y) = B (q.1 + 1, y) := by
          intro q y hr hle hy
          have hr' : InRange k (x + i) 1 (q.1 + 1, y) := InRange.succ (by rwa [hy])
          have hb : InRange (k + 1) ((x + i) * 256) 256 (q.1 + 1, y) :=
            inRange_block.2 ⟨by simp only; omega, (inRange_one.1 hr').2⟩
          rw [hagree _ hb, paint_eq_of_next hr']
        have hbusy₁ : ∀ q ∈ C, InRange k (x + i) 1 q → Busy B₁ C cidr q := by
          intro q hq hr
          exact (hbusy q hq (hnext q hr)).congr fun y hy => hsame q y hr hr.1 hy
        obtain ⟨mem₂, flag', hrun, hflag', hs₂⟩ := ih { mm with mem := mem₁ } hB₁ hfits (by omega) (row_block hC)
          (one_shiftLeft_eight cidr) hmono₁ fun q hq hr =>
            hbusy₁ q hq (inRange_one.2 ⟨by have := (inRange_block.1 hr).1; omega, (inRange_block.1 hr).2⟩)
        obtain rfl : flag' = false := Bool.eq_false_iff.2 fun h => (hbusy₁ _ hC hcell).not_all (hflag'.1 h)
        exact ⟨mem₂, hrun, hs₂⟩
      refine ⟨_, hstep, mem₂, flag', rfl, ?_, by rwa [paint_next] at hs₂⟩
      rw [hflag', hflag, paint_eq_of_next hcell]
      constructor
      · rintro ⟨hall, hlast⟩ j hj
        obtain rfl | hlt : j = i ∨ j < i := by omega
        · exact hlast
        · exact hall j hlt
      · intro hall
        exact ⟨fun j hj => hall j (by omega), hall i (by omega)⟩
    obtain ⟨_, hrun, mem', flag, rfl, hflag, hs'⟩ := hloop
    exact ⟨mem', flag, hrun, hflag, hs'⟩

end StubProfile.Route
