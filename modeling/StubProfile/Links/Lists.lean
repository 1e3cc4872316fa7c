import StubProfile.Links.ListHead

/-!
# Lists for their links

A memory of links represents lists, each known by its head, and cells in no list.  `Represents` says that every cell
there is belongs to one list or to none, and that the cells of a list form a ring.

What an operation of `list.h` does is said for a state in which the lists it touches stand in front; `Forgets` brings
any state into this form.  It may also forget that cells form a list, as the callers do with an entry that was
initialised before it is added.
-/

namespace StubProfile.Links

open LinkRing
open scoped List

/-- Lists by their heads, and the cells in no list. -/
structure Lists (P : Type) where
  rings : List (P × List P)
  loose : List P

variable {P : Type}

def ringCells (r : P × List P) : List P := r.1 :: r.2

def Lists.cells (t : Lists P) : List P := t.rings.flatMap ringCells ++ t.loose

structure Represents (t : Lists P) (m : Memory P) : Prop where
  nodup : t.cells.Nodup
  live : ∀ p, m.live p = true ↔ p ∈ t.cells
  ring : ∀ r ∈ t.rings, Ring m r.1 r.2

/-- The same cells in another order, with some of the lists. -/
structure Lists.Forgets (t t' : Lists P) : Prop where
  cells : t'.cells ~ t.cells
  rings : ∀ r ∈ t'.rings, r ∈ t.rings

theorem Lists.Forgets.of_perm {rings rings' : List (P × List P)} {loose loose' : List P} (hrings : rings' ~ rings)
    (hloose : loose' ~ loose) : Lists.Forgets ⟨rings, loose⟩ ⟨rings', loose'⟩ :=
  ⟨(hrings.flatMap_right _).append hloose, fun _ hr => hrings.mem_iff.1 hr⟩

theorem Lists.Forgets.refl (t : Lists P) : t.Forgets t := ⟨.refl _, fun _ hr => hr⟩

/-- An empty list is a loose cell. -/
theorem Lists.Forgets.loosen (e : P) (rings : List (P × List P)) (loose : List P) :
    Lists.Forgets ⟨(e, []) :: rings, loose⟩ ⟨rings, e :: loose⟩ :=
  ⟨List.perm_middle, fun _ hr => List.mem_cons_of_mem _ hr⟩

variable {t t' : Lists P} {m m' : Memory P}

theorem Represents.forget (hr : Represents t m) (hf : t.Forgets t') : Represents t' m where
  nodup := hf.cells.nodup_iff.2 hr.nodup
  live p := by rw [hr.live, hf.cells.mem_iff]
  ring r hmem := hr.ring r (hf.rings r hmem)

variable {rings rings' : List (P × List P)} {loose loose' : List P} {h l e p q : P} {xs ys pre post : List P}

/-- The lists `old` become the lists `new`, and nothing is written outside of them and of the loose cells. -/
private theorem Represents.change (old new : List (P × List P)) (hr : Represents ⟨old ++ rings, loose⟩ m)
    (hlive : m'.live = m.live)
    (hcells : new.flatMap ringCells ++ loose' ~ old.flatMap ringCells ++ loose)
    (hnew : ∀ r ∈ new, Ring m' r.1 r.2)
    (hsame : ∀ x, x ∉ old.flatMap ringCells ++ loose → m'.next x = m.next x ∧ m'.prev x = m.prev x) :
    Represents ⟨new ++ rings, loose'⟩ m' := by
  have hshuffle (l : List (P × List P)) (k : List P) :
      Lists.cells ⟨l ++ rings, k⟩ ~ (l.flatMap ringCells ++ k) ++ rings.flatMap ringCells := by
    simp only [Lists.cells, List.flatMap_append, List.append_assoc]
    exact List.perm_append_comm.append_left _
  have hperm : Lists.cells ⟨new ++ rings, loose'⟩ ~ Lists.cells ⟨old ++ rings, loose⟩ :=
    (hshuffle new loose').trans ((hcells.append_right _).trans (hshuffle old loose).symm)
  refine ⟨hperm.nodup_iff.2 hr.nodup, fun p => ?_, fun r hmem => ?_⟩
  · rw [hlive, hr.live, hperm.mem_iff]
  · obtain hmem | hmem := List.mem_append.1 hmem
    · exact hnew r hmem
    · -- the cells of the other lists are not among those written to
      have hdisj := List.disjoint_of_nodup_append ((hshuffle old loose).nodup_iff.1 hr.nodup)
      have hout : ∀ x ∈ r.1 :: r.2, x ∉ old.flatMap ringCells ++ loose := fun x hx hx' =>
        hdisj hx' (List.mem_flatMap.2 ⟨r, hmem, hx⟩)
      exact (hr.ring r (List.mem_append_right _ hmem)).frame (fun x hx => (hsame x (hout x hx)).1)
        fun x hx => (hsame x (hout x hx)).2

theorem Represents.live_of_ring (hr : Represents t m) {r : P × List P} (hmem : r ∈ t.rings) (hp : p ∈ r.1 :: r.2) :
    m.live p = true :=
  (hr.live p).2 (List.mem_append_left _ (List.mem_flatMap.2 ⟨r, hmem, hp⟩))

theorem Represents.live_of_loose (hr : Represents t m) (hp : p ∈ t.loose) : m.live p = true :=
  (hr.live p).2 (List.mem_append_right _ hp)

theorem Represents.nodup_ring (hr : Represents t m) {r : P × List P} (hmem : r ∈ t.rings) : (r.1 :: r.2).Nodup :=
  (List.nodup_flatMap.1 hr.nodup.of_append_left).1 r hmem

private theorem Represents.notMem_of_loose (hr : Represents t m) {r : P × List P} (hmem : r ∈ t.rings)
    (hp : p ∈ t.loose) :
    p ∉ r.1 :: r.2 := fun hp' =>
  List.disjoint_of_nodup_append hr.nodup (List.mem_flatMap.2 ⟨r, hmem, hp'⟩) hp

private theorem Represents.disjoint_rings {r r' : P × List P} (hr : Represents ⟨r :: r' :: rings, loose⟩ m) :
    List.Disjoint (r.1 :: r.2) (r'.1 :: r'.2) := by
  have hpair := (List.nodup_flatMap.1 hr.nodup.of_append_left).2
  exact (List.pairwise_cons.1 hpair).1 r' List.mem_cons_self

/-! ### Neighbours in a ring -/

private theorem ne_before (hnodup : (h :: (pre ++ (ys ++ post))).Nodup) :
    ∀ x ∈ (h :: pre).dropLast ++ post, x ≠ before h pre := by
  rintro x hx rfl
  have hnodup' : ((h :: pre) ++ (ys ++ post)).Nodup := hnodup
  obtain hx | hx := List.mem_append.1 hx
  · have hlast : h :: pre = (h :: pre).dropLast ++ [before h pre] := by
      have := List.dropLast_append_getLast? _ (getLast?_cons_before h pre)
      exact this.symm
    have hpre := hnodup'.of_append_left
    rw [hlast] at hpre
    exact List.disjoint_of_nodup_append hpre hx (List.mem_singleton_self _)
  · exact List.disjoint_of_nodup_append hnodup' (before_mem h pre) (List.mem_append_right _ hx)

private theorem ne_after (hnodup : (h :: (pre ++ (ys ++ post))).Nodup) :
    ∀ x ∈ pre ++ (post ++ [h]).tail, x ≠ after h post := by
  have hnodup' : (pre ++ (ys ++ (post ++ [h]))).Nodup := by
    have hperm : pre ++ (ys ++ (post ++ [h])) ~ h :: (pre ++ (ys ++ post)) := by
      simpa using (List.perm_append_singleton h (pre ++ (ys ++ post)))
    exact hperm.nodup_iff.2 hnodup
  rintro x hx rfl
  obtain hx | hx := List.mem_append.1 hx
  · exact List.disjoint_of_nodup_append hnodup' hx (List.mem_append_right _ (after_mem h post))
  · have hpost : (post ++ [h]).Nodup := hnodup'.of_append_right.of_append_right
    cases post with
    | nil => simp at hx
    | cons a post => exact (List.nodup_cons.1 hpost).1 hx

private theorem ne_first (hnodup : xs.Nodup) : ∀ x ∈ xs.tail, x ≠ after h xs := by
  cases xs with
  | nil => simp
  | cons a xs =>
    have := (List.nodup_cons.1 hnodup).1
    grind [after_cons]

private theorem ne_last (hnodup : xs.Nodup) : ∀ x ∈ xs.dropLast, x ≠ before h xs := by
  obtain rfl | ⟨ys, b, rfl⟩ := xs.eq_nil_or_concat'
  · simp
  · have := List.disjoint_of_nodup_append hnodup
    simp only [List.dropLast_concat, before_concat]
    grind

private theorem before_mem_ring (h : P) (pre post : List P) : before h pre ∈ h :: (pre ++ post) :=
  List.mem_append_left post (before_mem h pre)

theorem after_mem_ring (h : P) (pre post : List P) : after h post ∈ h :: (pre ++ post) := by
  have := after_mem h post
  grind

private theorem mem_ring_of_source (hp : p ∈ (h :: pre).dropLast ++ post) : p ∈ h :: (pre ++ (ys ++ post)) := by
  have := (h :: pre).dropLast_sublist.subset
  grind

private theorem mem_ring_of_target (hp : p ∈ pre ++ (post ++ [h]).tail) : p ∈ h :: (pre ++ (ys ++ post)) := by
  have := (post ++ [h]).tail_sublist.subset
  grind

theorem Represents.readNext (hr : Represents t m) (hmem : (h, xs) ∈ t.rings) :
    m.readNext (some h) = .ok (some (after h xs)) := by
  rw [Memory.readNext_some (hr.live_of_ring hmem List.mem_cons_self), (ring_iff.1 (hr.ring _ hmem)).2.1.1]

theorem Represents.readPrev (hr : Represents t m) (hmem : (h, xs) ∈ t.rings) :
    m.readPrev (some h) = .ok (some (before h xs)) := by
  rw [Memory.readPrev_some (hr.live_of_ring hmem List.mem_cons_self), (ring_iff.1 (hr.ring _ hmem)).2.2.2]

theorem Represents.next_entry (hr : Represents t m) (hmem : (h, pre ++ e :: post) ∈ t.rings) :
    m.next e = some (after h post) := by
  have hring : Ring m h ((pre ++ [e]) ++ post) := by
    rw [List.append_assoc]
    exact hr.ring _ hmem
  have := (ring_append.1 hring).2.2.1
  rwa [before_concat] at this

theorem Represents.prev_entry (hr : Represents t m) (hmem : (h, pre ++ e :: post) ∈ t.rings) :
    m.prev e = some (before h pre) :=
  (ring_append.1 (hr.ring _ hmem)).2.2.2

theorem Represents.live_entry (hr : Represents t m) (hmem : (h, pre ++ e :: post) ∈ t.rings) : m.live e = true :=
  hr.live_of_ring hmem (by simp)

private theorem after_eq_iff (hnodup : (h :: xs).Nodup) : after h xs = h ↔ xs = [] := by
  cases xs with
  | nil => simp
  | cons a xs =>
    have : a ≠ h := by grind
    simp [this]

/-! ### Entries -/

variable [DecidableEq P]

/-- An entry and a loose cell are both cells. -/
private theorem entry_perm (h e : P) (pre post loose : List P) :
    [(h, pre ++ e :: post)].flatMap ringCells ++ loose ~ [(h, pre ++ post)].flatMap ringCells ++ e :: loose := by
  rw [List.perm_iff_count]
  intro a
  simp only [ringCells, List.flatMap_cons, List.flatMap_nil, List.count_append, List.count_cons, List.count_nil]
  omega

/-- A new entry between two neighbours. -/
private theorem Represents.addBetween (pre post : List P) (hr : Represents ⟨(h, pre ++ post) :: rings, e :: loose⟩ m) :
    ∃ m', listAddBetween m (some e) (some (before h pre)) (some (after h post)) = .ok m' ∧
      Represents ⟨(h, pre ++ e :: post) :: rings, loose⟩ m' := by
  have hmem : (h, pre ++ post) ∈ (h, pre ++ post) :: rings := List.mem_cons_self
  have hring : Ring m h (pre ++ ([] ++ post)) := hr.ring _ hmem
  have hnodup : (h :: (pre ++ ([] ++ post))).Nodup := hr.nodup_ring hmem
  have hb := before_mem_ring h pre post
  have ha := after_mem_ring h pre post
  have he : ∀ x ∈ h :: (pre ++ ([] ++ post)), x ≠ e := fun x hx heq =>
    hr.notMem_of_loose hmem List.mem_cons_self (heq ▸ hx)
  refine ⟨_, listAddBetween_ok (hr.live_of_loose List.mem_cons_self) (hr.live_of_ring hmem hb)
    (hr.live_of_ring hmem ha), ?_⟩
  refine hr.change [_] [_] rfl (entry_perm h e pre post loose) ?_ fun x hx => ?_
  · rw [List.forall_mem_singleton]
    refine hring.exchange [e] ?_ (fun x hx => ?_) fun x hx => ?_
    · simp [Link, he _ ha, (he _ hb).symm]
    · simp [he x (mem_ring_of_source hx), ne_before hnodup x hx]
    · simp [he x (mem_ring_of_target hx), ne_after hnodup x hx]
  · have hxe : x ≠ e := by grind
    have hxb : x ≠ before h pre := by grind [ringCells]
    have hxa : x ≠ after h post := by grind [ringCells]
    simp [hxe, hxb, hxa]

theorem Represents.listAdd (hr : Represents ⟨(h, xs) :: rings, e :: loose⟩ m) :
    ∃ m', listAdd m (some e) (some h) = .ok m' ∧ Represents ⟨(h, e :: xs) :: rings, loose⟩ m' := by
  have hmem : (h, xs) ∈ (h, xs) :: rings := List.mem_cons_self
  have hfirst := (ring_iff.1 (hr.ring _ hmem)).2.1.1
  have hcall : Links.listAdd m (some e) (some h) = listAddBetween m (some e) (some h) (some (after h xs)) := by
    simp [Links.listAdd, hr.live_of_ring hmem List.mem_cons_self, hfirst]
  rw [hcall]
  exact Represents.addBetween [] xs hr

theorem Represents.listAddTail (hr : Represents ⟨(h, xs) :: rings, e :: loose⟩ m) :
    ∃ m', listAddTail m (some e) (some h) = .ok m' ∧ Represents ⟨(h, xs ++ [e]) :: rings, loose⟩ m' := by
  have hmem : (h, xs) ∈ (h, xs) :: rings := List.mem_cons_self
  have hlast := (ring_iff.1 (hr.ring _ hmem)).2.2.2
  have hcall : Links.listAddTail m (some e) (some h) = listAddBetween m (some e) (some (before h xs)) (some h) := by
    simp [Links.listAddTail, hr.live_of_ring hmem List.mem_cons_self, hlast]
  rw [hcall]
  exact Represents.addBetween xs [] (by rwa [List.append_nil])

/-- The two neighbours of an entry are linked to each other. -/
private theorem Represents.delEntry (hr : Represents ⟨(h, pre ++ e :: post) :: rings, loose⟩ m) :
    ∃ m', listDelEntry m (some e) = .ok m' ∧ Represents ⟨(h, pre ++ post) :: rings, e :: loose⟩ m' := by
  have hmem : (h, pre ++ e :: post) ∈ (h, pre ++ e :: post) :: rings := List.mem_cons_self
  have hring : Ring m h (pre ++ ([e] ++ post)) := hr.ring _ hmem
  have hnodup : (h :: (pre ++ ([e] ++ post))).Nodup := hr.nodup_ring hmem
  have hb : before h pre ∈ h :: (pre ++ e :: post) := before_mem_ring h pre _
  have ha : after h post ∈ h :: (pre ++ e :: post) := by
    have := after_mem_ring h (pre ++ [e]) post
    rwa [List.append_assoc] at this
  refine ⟨_, listDelEntry_ok (hr.live_entry hmem) (hr.prev_entry hmem) (hr.next_entry hmem)
    (hr.live_of_ring hmem hb) (hr.live_of_ring hmem ha), ?_⟩
  refine hr.change [_] [_] rfl (entry_perm h e pre post loose).symm ?_ fun x hx => ?_
  · rw [List.forall_mem_singleton]
    refine hring.exchange [] ?_ (fun x hx => ?_) fun x hx => ?_
    · simp [Link]
    · simp [ne_before hnodup x hx]
    · simp [ne_after hnodup x hx]
  · have hxb : x ≠ before h pre := by grind [ringCells]
    have hxa : x ≠ after h post := by grind [ringCells]
    simp [hxb, hxa]

/-- The pointers of a loose cell say nothing. -/
private theorem Represents.writeLoose (hr : Represents ⟨rings, e :: loose⟩ m) (next prev : Option P) :
    Represents ⟨rings, e :: loose⟩ ⟨m.live, Function.update m.next e next, Function.update m.prev e prev⟩ := by
  refine Represents.change [] [] hr rfl (.refl _) (by simp) fun x hx => ?_
  have hxe : x ≠ e := by grind
  simp [hxe]

theorem Represents.initListHead (hr : Represents ⟨rings, e :: loose⟩ m) :
    ∃ m', initListHead m (some e) = .ok m' ∧ Represents ⟨(e, []) :: rings, loose⟩ m' := by
  refine ⟨_, initListHead_ok (hr.live_of_loose List.mem_cons_self), ?_⟩
  refine Represents.change [] [_] hr rfl (by simp [ringCells]) ?_ fun x hx => ?_
  · simp [ring_nil, Link]
  · have hxe : x ≠ e := by grind
    simp [hxe]

theorem Represents.listDel (poison : Option P × Option P)
    (hr : Represents ⟨(h, pre ++ e :: post) :: rings, loose⟩ m) :
    ∃ m', listDel poison m (some e) = .ok m' ∧ Represents ⟨(h, pre ++ post) :: rings, e :: loose⟩ m' := by
  obtain ⟨m₁, h1, hr1⟩ := hr.delEntry
  refine ⟨_, ?_, hr1.writeLoose poison.1 poison.2⟩
  simp [Links.listDel, h1, hr1.live_of_loose List.mem_cons_self]

theorem Represents.listDelInit (hr : Represents ⟨(h, pre ++ e :: post) :: rings, loose⟩ m) :
    ∃ m', listDelInit m (some e) = .ok m' ∧ Represents ⟨(e, []) :: (h, pre ++ post) :: rings, loose⟩ m' := by
  obtain ⟨m₁, h1, hr1⟩ := hr.delEntry
  obtain ⟨m₂, h2, hr2⟩ := hr1.initListHead
  exact ⟨m₂, by simp [Links.listDelInit, h1, h2], hr2⟩

/-- An entry goes to the front of a list, which may be the one it is in. -/
theorem Represents.listMove (hr : Represents ⟨(h, pre ++ e :: post) :: rings, loose⟩ m)
    (hf : Lists.Forgets ⟨(h, pre ++ post) :: rings, e :: loose⟩ ⟨(l, xs) :: rings', e :: loose'⟩) :
    ∃ m', listMove m (some e) (some l) = .ok m' ∧ Represents ⟨(l, e :: xs) :: rings', loose'⟩ m' := by
  obtain ⟨m₁, h1, hr1⟩ := hr.delEntry
  obtain ⟨m₂, h2, hr2⟩ := (hr1.forget hf).listAdd
  exact ⟨m₂, by simp [Links.listMove, h1, h2], hr2⟩

theorem Represents.listMoveTail (hr : Represents ⟨(h, pre ++ e :: post) :: rings, loose⟩ m)
    (hf : Lists.Forgets ⟨(h, pre ++ post) :: rings, e :: loose⟩ ⟨(l, xs) :: rings', e :: loose'⟩) :
    ∃ m', listMoveTail m (some e) (some l) = .ok m' ∧ Represents ⟨(l, xs ++ [e]) :: rings', loose'⟩ m' := by
  obtain ⟨m₁, h1, hr1⟩ := hr.delEntry
  obtain ⟨m₂, h2, hr2⟩ := (hr1.forget hf).listAddTail
  exact ⟨m₂, by simp [Links.listMoveTail, h1, h2], hr2⟩

theorem Represents.listReplace_entry (hr : Represents ⟨(h, pre ++ e :: post) :: rings, l :: loose⟩ m) :
    ∃ m', listReplace m (some e) (some l) = .ok m' ∧ Represents ⟨(h, pre ++ l :: post) :: rings, e :: loose⟩ m' := by
  have hmem : (h, pre ++ e :: post) ∈ (h, pre ++ e :: post) :: rings := List.mem_cons_self
  have hring : Ring m h (pre ++ ([e] ++ post)) := hr.ring _ hmem
  have hnodup : (h :: (pre ++ ([e] ++ post))).Nodup := hr.nodup_ring hmem
  have hb : before h pre ∈ h :: (pre ++ e :: post) := before_mem_ring h pre _
  have ha : after h post ∈ h :: (pre ++ e :: post) := by
    have := after_mem_ring h (pre ++ [e]) post
    rwa [List.append_assoc] at this
  have hl : ∀ x ∈ h :: (pre ++ ([e] ++ post)), x ≠ l := fun x hx heq =>
    hr.notMem_of_loose hmem List.mem_cons_self (heq ▸ hx)
  have hne : after h post ≠ e := by
    have := after_mem h post
    grind
  refine ⟨_, listReplace_ok (hr.live_entry hmem) (hr.live_of_loose List.mem_cons_self) (hr.prev_entry hmem)
    (hr.next_entry hmem) (hr.live_of_ring hmem hb) (hr.live_of_ring hmem ha) hne, ?_⟩
  refine hr.change [_] [_] rfl ?_ ?_ fun x hx => ?_
  · exact (entry_perm h l pre post (e :: loose)).trans
      (((List.Perm.swap _ _ _).append_left _).trans (entry_perm h e pre post (l :: loose)).symm)
  · rw [List.forall_mem_singleton]
    refine hring.exchange [l] ?_ (fun x hx => ?_) fun x hx => ?_
    · simp [Link, hl _ ha, (hl _ hb).symm]
    · simp [hl x (mem_ring_of_source hx), ne_before hnodup x hx]
    · simp [hl x (mem_ring_of_target hx), ne_after hnodup x hx]
  · have hxl : x ≠ l := by grind
    have hxb : x ≠ before h pre := by grind [ringCells]
    have hxa : x ≠ after h post := by grind [ringCells]
    simp [hxl, hxb, hxa]

/-! ### Heads -/

/-- The entries of a list get another head. -/
theorem Represents.listReplace_head (hr : Represents ⟨(h, xs) :: rings, l :: loose⟩ m) :
    ∃ m', listReplace m (some h) (some l) = .ok m' ∧ Represents ⟨(l, xs) :: rings, h :: loose⟩ m' := by
  have hmem : (h, xs) ∈ (h, xs) :: rings := List.mem_cons_self
  obtain ⟨hchain, hfirst, hlast⟩ := ring_iff.1 (hr.ring _ hmem)
  have hnodup := hr.nodup_ring hmem
  have hl : ∀ x ∈ h :: xs, x ≠ l := fun x hx heq => hr.notMem_of_loose hmem List.mem_cons_self (heq ▸ hx)
  have hlh := hr.live_of_ring hmem List.mem_cons_self
  have hll := hr.live_of_loose (p := l) List.mem_cons_self
  have hperm : [(l, xs)].flatMap ringCells ++ h :: loose ~ [(h, xs)].flatMap ringCells ++ l :: loose := by
    rw [List.perm_iff_count]
    intro a
    simp only [ringCells, List.flatMap_cons, List.flatMap_nil, List.count_append, List.count_cons, List.count_nil]
    omega
  by_cases hxs : xs = []
  · subst hxs
    refine ⟨_, listReplace_self hlh hll hfirst.1, hr.change [_] [_] rfl hperm ?_ fun x hx => ?_⟩
    · simp [ring_nil, Link]
    · have hxl : x ≠ l := by grind
      have hxh : x ≠ h := by grind [ringCells]
      simp [hxl, hxh]
  · have hb : before h xs ∈ h :: xs := before_mem h xs
    have ha : after h xs ∈ h :: xs := by
      have := after_mem_ring h [] xs
      rwa [List.nil_append] at this
    have hne : after h xs ≠ h := fun heq => hxs ((after_eq_iff hnodup).1 heq)
    refine ⟨_, listReplace_ok hlh hll hlast.2 hfirst.1 (hr.live_of_ring hmem hb) (hr.live_of_ring hmem ha) hne, ?_⟩
    refine hr.change [_] [_] rfl hperm ?_ fun x hx => ?_
    · rw [List.forall_mem_singleton]
      refine ring_iff.2 ⟨chain_frame hchain (fun x hx => ?_) fun x hx => ?_, ?_, ?_⟩
      · have hxl : x ≠ l := hl x (List.mem_cons_of_mem _ (List.dropLast_subset _ hx))
        simp [hxl, ne_last hnodup.of_cons x hx]
      · have hxl : x ≠ l := hl x (List.mem_cons_of_mem _ (List.mem_of_mem_tail hx))
        simp [hxl, ne_first hnodup.of_cons x hx]
      · rw [after_congr l h hxs]
        simp [Link, hl _ ha, (hl _ hb).symm]
      · rw [before_congr l h hxs]
        simp [Link]
    · have hxl : x ≠ l := by grind
      have hxb : x ≠ before h xs := by grind [ringCells]
      have hxa : x ≠ after h xs := by grind [ringCells]
      simp [hxl, hxb, hxa]

/-- The entries of a second list go between two neighbours. -/
theorem Represents.spliceBetween (pre post : List P)
    (hr : Represents ⟨(h, pre ++ post) :: (l, ys) :: rings, loose⟩ m) (hys : ys ≠ []) :
    ∃ m', listSpliceBetween m (some l) (some (before h pre)) (some (after h post)) = .ok m' ∧
      Represents ⟨(h, pre ++ (ys ++ post)) :: rings, l :: loose⟩ m' := by
  have hmem : (h, pre ++ post) ∈ (h, pre ++ post) :: (l, ys) :: rings := List.mem_cons_self
  have hmem' : (l, ys) ∈ (h, pre ++ post) :: (l, ys) :: rings := List.mem_cons_of_mem _ List.mem_cons_self
  have hring : Ring m h (pre ++ ([] ++ post)) := hr.ring _ hmem
  have hnodup : (h :: (pre ++ ([] ++ post))).Nodup := hr.nodup_ring hmem
  obtain ⟨hchain, hfirst, hlast⟩ := ring_iff.1 (hr.ring _ hmem')
  have hnodup' : ys.Nodup := (hr.nodup_ring hmem').of_cons
  have hb := before_mem_ring h pre post
  have ha := after_mem_ring h pre post
  have hf : after l ys ∈ l :: ys := by
    have := after_mem_ring l [] ys
    rwa [List.nil_append] at this
  have hl : before l ys ∈ l :: ys := before_mem l ys
  refine ⟨_, listSpliceBetween_ok (hr.live_of_ring hmem' List.mem_cons_self) hfirst.1 hlast.2
    (hr.live_of_ring hmem' hf) (hr.live_of_ring hmem' hl) (hr.live_of_ring hmem hb) (hr.live_of_ring hmem ha), ?_⟩
  have hsep : ∀ {x y : P}, x ∈ h :: (pre ++ ([] ++ post)) → y ∈ l :: ys → x ≠ y := fun hx hy heq =>
    hr.disjoint_rings hx (heq ▸ hy)
  refine hr.change [_, _] [_] rfl ?_ ?_ fun x hx => ?_
  · rw [List.perm_iff_count]
    intro a
    simp only [ringCells, List.flatMap_cons, List.flatMap_nil, List.count_append, List.count_cons, List.count_nil]
    omega
  · rw [List.forall_mem_singleton]
    refine hring.exchange ys (chain_between_iff.2 ⟨?_, ?_, ?_⟩) (fun x hx => ?_) fun x hx => ?_
    · refine chain_frame hchain (fun x hx => ?_) fun x hx => ?_
      · have hxl : x ∈ l :: ys := List.mem_cons_of_mem _ (List.dropLast_subset _ hx)
        simp [(hsep hb hxl).symm, ne_last hnodup' x hx]
      · have hxl : x ∈ l :: ys := List.mem_cons_of_mem _ (List.mem_of_mem_tail hx)
        simp [(hsep ha hxl).symm, ne_first hnodup' x hx]
    · rw [after_congr (after h post) l hys]
      simp [Link, hsep hb hl, (hsep ha hf).symm]
    · rw [before_congr (before h pre) l hys]
      simp [Link]
    · simp [hsep (mem_ring_of_source hx) hl, ne_before hnodup x hx]
    · simp [hsep (mem_ring_of_target hx) hf, ne_after hnodup x hx]
  · have hxb : x ≠ before h pre := by grind [ringCells]
    have hxa : x ≠ after h post := by grind [ringCells]
    have hxf : x ≠ after l ys := by grind [ringCells]
    have hxl : x ≠ before l ys := by grind [ringCells]
    simp [hxb, hxa, hxf, hxl]

/-- The entries up to `e` go to the head `l`. -/
theorem Represents.cutBetween (hr : Represents ⟨(h, pre ++ e :: post) :: rings, l :: loose⟩ m) :
    ∃ m', listCutBetween m (some l) (some h) (some e) = .ok m' ∧
      Represents ⟨(l, pre ++ [e]) :: (h, post) :: rings, loose⟩ m' := by
  have hmem : (h, pre ++ e :: post) ∈ (h, pre ++ e :: post) :: rings := List.mem_cons_self
  have hsplit : pre ++ e :: post = [] ++ ((pre ++ [e]) ++ post) := by simp
  have hring : Ring m h ([] ++ ((pre ++ [e]) ++ post)) := hsplit ▸ hr.ring _ hmem
  have hnodup : (h :: ([] ++ ((pre ++ [e]) ++ post))).Nodup := hsplit ▸ hr.nodup_ring hmem
  have hchain : List.IsChain (Link m) (pre ++ [e]) := by
    have : List.IsChain (Link m) ((pre ++ [e]) ++ post) := (ring_iff.1 hring).1
    exact this.left_of_append
  have hfirst : m.next h = some (after h (pre ++ [e])) := by
    have := (ring_iff.1 hring).2.1.1
    cases pre <;> exact this
  have hl : ∀ x ∈ h :: (pre ++ e :: post), x ≠ l := fun x hx heq =>
    hr.notMem_of_loose hmem List.mem_cons_self (heq ▸ hx)
  have hf : after h (pre ++ [e]) ∈ pre ++ [e] := by
    cases pre <;> simp
  have hf' : after h (pre ++ [e]) ∈ h :: (pre ++ e :: post) := by grind
  have ha : after h post ∈ h :: (pre ++ e :: post) := by
    have := after_mem h post
    grind
  have hanot : after h post ∉ pre ++ [e] := by
    have := after_mem h post
    grind
  refine ⟨_, listCutBetween_ok (hr.live_of_loose List.mem_cons_self) (hr.live_of_ring hmem List.mem_cons_self)
    (hr.live_entry hmem) (hr.next_entry hmem) hfirst (hr.live_of_ring hmem ha) (hr.live_of_ring hmem hf'), ?_⟩
  refine hr.change [_] [_, _] rfl ?_ ?_ fun x hx => ?_
  · rw [List.perm_iff_count]
    intro a
    simp only [ringCells, List.flatMap_cons, List.flatMap_nil, List.count_append, List.count_cons, List.count_nil]
    omega
  · have heh : e ≠ h := by grind
    have hel : e ≠ l := hl e (by simp)
    have hhl : h ≠ l := hl h List.mem_cons_self
    have haf : after h post ≠ after h (pre ++ [e]) := fun heq => hanot (heq ▸ hf)
    rw [List.forall_mem_cons, List.forall_mem_singleton]
    constructor
    · refine ring_iff.2 ⟨chain_frame hchain (fun x hx => ?_) fun x hx => ?_, ?_, ?_⟩
      · have hxe : x ≠ e := by
          rw [List.dropLast_concat] at hx
          grind
        have hxm : x ∈ pre ++ [e] := List.dropLast_subset _ hx
        have hxl : x ≠ l := hl x (by grind)
        have hxh : x ≠ h := by grind
        simp [hxe, hxl, hxh]
      · have hxm : x ∈ pre ++ [e] := List.mem_of_mem_tail hx
        have hxl : x ≠ l := hl x (by grind)
        have hxa : x ≠ after h post := fun heq => hanot (heq ▸ hxm)
        have hxf : x ≠ after h (pre ++ [e]) := ne_first (by grind) x hx
        simp [hxl, hxa, hxf]
      · rw [after_congr l h (by simp)]
        simp [Link, hhl.symm, hel.symm, haf.symm, hl _ hf']
      · rw [before_concat]
        simp [Link, heh, (hl _ ha).symm]
    · refine hring.exchange [] ?_ (fun x hx => ?_) fun x hx => ?_
      · simp [Link]
      · have hxm : x ∈ post := hx
        have hxl : x ≠ l := hl x (by grind)
        have hxh : x ≠ h := by grind
        have hxe : x ≠ e := by grind
        simp [hxl, hxh, hxe]
      · have hxm : x ∈ (post ++ [h]).tail := hx
        have hxa := ne_after hnodup x hx
        have hxp : x ∈ post ++ [h] := List.mem_of_mem_tail hxm
        have hxl : x ≠ l := hl x (by grind)
        have hxf : x ≠ after h (pre ++ [e]) := by grind
        simp [hxa, hxl, hxf]
  · have hxl : x ≠ l := by grind
    have hxh : x ≠ h := by grind [ringCells]
    have hxe : x ≠ e := by grind [ringCells]
    have hxa : x ≠ after h post := by grind [ringCells]
    have hxf : x ≠ after h (pre ++ [e]) := by grind [ringCells]
    simp [hxl, hxh, hxe, hxa, hxf]

/-! ### Tests -/

theorem Represents.listEmpty (hr : Represents t m) (hmem : (h, xs) ∈ t.rings) :
    listEmpty m (some h) = .ok (decide (xs = [])) := by
  simp [Links.listEmpty, hr.readNext hmem, after_eq_iff (hr.nodup_ring hmem)]

theorem Represents.listEmptyCareful (hr : Represents t m) (hmem : (h, xs) ∈ t.rings) :
    listEmptyCareful m (some h) = .ok (decide (xs = [])) := by
  by_cases hxs : xs = []
  · subst hxs
    simp [Links.listEmptyCareful, hr.readNext hmem, hr.readPrev hmem]
  · have hne : after h xs ≠ h := fun heq => hxs ((after_eq_iff (hr.nodup_ring hmem)).1 heq)
    simp [Links.listEmptyCareful, hr.readNext hmem, hne, hxs]

theorem Represents.listIsSingular (hr : Represents t m) (hmem : (h, xs) ∈ t.rings) :
    listIsSingular m (some h) = .ok (decide (xs.length = 1)) := by
  have hnodup := hr.nodup_ring hmem
  simp only [Links.listIsSingular, hr.listEmpty hmem, hr.readNext hmem, hr.readPrev hmem, ok_bind]
  cases xs with
  | nil => simp
  | cons a xs =>
    obtain rfl | ⟨ys, b, rfl⟩ := xs.eq_nil_or_concat'
    · simp [before]
    · have hab : a ≠ b := by grind
      have hbefore : before h (a :: (ys ++ [b])) = b := before_concat h b (a :: ys)
      simp [hbefore, hab]

theorem Represents.listIsLast (hr : Represents t m) (hmem : (h, pre ++ e :: post) ∈ t.rings) :
    listIsLast m (some e) (some h) = .ok (decide (post = [])) := by
  have hnodup : (h :: post).Nodup := by
    have := hr.nodup_ring hmem
    grind
  simp [Links.listIsLast, hr.live_entry hmem, hr.next_entry hmem, after_eq_iff hnodup]

end StubProfile.Links
