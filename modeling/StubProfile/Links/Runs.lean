import StubProfile.Lib.Machine
import StubProfile.Links.Lists

/-!
# Runs of list operations

The operations on whole lists and the loops over a list, and sequences of operations of any kind.  `ListSpec` says what
each operation does to the lists, as `list.h` documents it.  As long as the operations are used as it says, none of
them follows a null pointer or touches a cell that was freed, the memory represents the resulting lists, and the loops
visit their entries in order (`listRun_refines`).
-/

namespace StubProfile.Links

open LinkRing Machine
open scoped List

/-! ### What the operations do -/

/-- The four ways to join two lists: the entries of `l` go to the front of the other list or to its end (`tail`), and
`l` is initialised or not (`init`). -/
def listSpliceWith {P : Type} [DecidableEq P] (tail init : Bool) (m : Memory P) (l h : Option P) :
    Except Fault (Memory P) :=
  match tail, init with
  | false, false => listSplice m l h
  | true, false => listSpliceTail m l h
  | false, true => listSpliceInit m l h
  | true, true => listSpliceTailInit m l h

inductive ListOp (P : Type) where
  | alloc (p : P)
  | free (p : P)
  | init (p : P)
  | add (new head : P)
  | addTail (new head : P)
  | del (entry : P)
  | delInit (entry : P)
  | replace (old new : P)
  | replaceInit (old new : P)
  | move (entry head : P)
  | moveTail (entry head : P)
  | rotateLeft (head : P)
  | cutPosition (list head entry : P)
  | splice (tail init : Bool) (list head : P)

def listStep {P : Type} [DecidableEq P] (poison : Option P × Option P) (m : Memory P) : ListOp P → Except Fault (Memory P)
  | .alloc p => .ok (m.alloc p)
  | .free p => m.free p
  | .init p => initListHead m (some p)
  | .add new head => listAdd m (some new) (some head)
  | .addTail new head => listAddTail m (some new) (some head)
  | .del entry => listDel poison m (some entry)
  | .delInit entry => listDelInit m (some entry)
  | .replace old new => listReplace m (some old) (some new)
  | .replaceInit old new => listReplaceInit m (some old) (some new)
  | .move entry head => listMove m (some entry) (some head)
  | .moveTail entry head => listMoveTail m (some entry) (some head)
  | .rotateLeft head => listRotateLeft m (some head)
  | .cutPosition list head entry => listCutPosition m (some list) (some head) (some entry)
  | .splice tail init list head => listSpliceWith tail init m (some list) (some head)

/-- What the operations do to the lists.  The cells that are freed, initialised, added or that replace another one are
in no list; the others are heads or entries as their names say. -/
inductive ListSpec {P : Type} : Lists P → ListOp P → Lists P → Prop
  | alloc {t p} (hp : p ∉ t.cells) : ListSpec t (.alloc p) ⟨t.rings, p :: t.loose⟩
  | free {t rings p loose} (hf : t.Forgets ⟨rings, p :: loose⟩) : ListSpec t (.free p) ⟨rings, loose⟩
  | init {t rings p loose} (hf : t.Forgets ⟨rings, p :: loose⟩) : ListSpec t (.init p) ⟨(p, []) :: rings, loose⟩
  | add {t h xs rings e loose} (hf : t.Forgets ⟨(h, xs) :: rings, e :: loose⟩) :
      ListSpec t (.add e h) ⟨(h, e :: xs) :: rings, loose⟩
  | addTail {t h xs rings e loose} (hf : t.Forgets ⟨(h, xs) :: rings, e :: loose⟩) :
      ListSpec t (.addTail e h) ⟨(h, xs ++ [e]) :: rings, loose⟩
  | del {t h pre e post rings loose} (hf : t.Forgets ⟨(h, pre ++ e :: post) :: rings, loose⟩) :
      ListSpec t (.del e) ⟨(h, pre ++ post) :: rings, e :: loose⟩
  | delInit {t h pre e post rings loose} (hf : t.Forgets ⟨(h, pre ++ e :: post) :: rings, loose⟩) :
      ListSpec t (.delInit e) ⟨(e, []) :: (h, pre ++ post) :: rings, loose⟩
  | replaceEntry {t h pre e post rings l loose} (hf : t.Forgets ⟨(h, pre ++ e :: post) :: rings, l :: loose⟩) :
      ListSpec t (.replace e l) ⟨(h, pre ++ l :: post) :: rings, e :: loose⟩
  | replaceHead {t h xs rings l loose} (hf : t.Forgets ⟨(h, xs) :: rings, l :: loose⟩) :
      ListSpec t (.replace h l) ⟨(l, xs) :: rings, h :: loose⟩
  | replaceInit {t p q rings loose} (hs : ListSpec t (.replace p q) ⟨rings, p :: loose⟩) :
      ListSpec t (.replaceInit p q) ⟨(p, []) :: rings, loose⟩
  | move {t h pre e post rings loose l xs rings' loose'} (hf : t.Forgets ⟨(h, pre ++ e :: post) :: rings, loose⟩)
      (hg : Lists.Forgets ⟨(h, pre ++ post) :: rings, e :: loose⟩ ⟨(l, xs) :: rings', e :: loose'⟩) :
      ListSpec t (.move e l) ⟨(l, e :: xs) :: rings', loose'⟩
  | moveTail {t h pre e post rings loose l xs rings' loose'}
      (hf : t.Forgets ⟨(h, pre ++ e :: post) :: rings, loose⟩)
      (hg : Lists.Forgets ⟨(h, pre ++ post) :: rings, e :: loose⟩ ⟨(l, xs) :: rings', e :: loose'⟩) :
      ListSpec t (.moveTail e l) ⟨(l, xs ++ [e]) :: rings', loose'⟩
  | rotateEmpty {t h} (hmem : (h, []) ∈ t.rings) : ListSpec t (.rotateLeft h) t
  | rotate {t h e xs rings loose} (hf : t.Forgets ⟨(h, e :: xs) :: rings, loose⟩) :
      ListSpec t (.rotateLeft h) ⟨(h, xs ++ [e]) :: rings, loose⟩
  | cutEmpty {t h l e} (hmem : (h, []) ∈ t.rings) : ListSpec t (.cutPosition l h e) t
  | cutHead {t h xs rings l loose} (hf : t.Forgets ⟨(h, xs) :: rings, l :: loose⟩) (hxs : xs ≠ []) :
      ListSpec t (.cutPosition l h h) ⟨(l, []) :: (h, xs) :: rings, loose⟩
  | cutEntry {t h pre e post rings l loose} (hf : t.Forgets ⟨(h, pre ++ e :: post) :: rings, l :: loose⟩) :
      ListSpec t (.cutPosition l h e) ⟨(l, pre ++ [e]) :: (h, post) :: rings, loose⟩
  | spliceEmpty {t l h} (tail init : Bool) (hmem : (l, []) ∈ t.rings) : ListSpec t (.splice tail init l h) t
  | splice {t h xs l ys rings loose} (tail : Bool) (hf : t.Forgets ⟨(h, xs) :: (l, ys) :: rings, loose⟩)
      (hys : ys ≠ []) :
      ListSpec t (.splice tail false l h) ⟨(h, if tail then xs ++ ys else ys ++ xs) :: rings, l :: loose⟩
  | spliceInit {t h xs l ys rings loose} (tail : Bool) (hf : t.Forgets ⟨(h, xs) :: (l, ys) :: rings, loose⟩)
      (hys : ys ≠ []) :
      ListSpec t (.splice tail true l h) ⟨(l, []) :: (h, if tail then xs ++ ys else ys ++ xs) :: rings, loose⟩

variable {P : Type} {t t' : Lists P} {m m' : Memory P} {rings rings' : List (P × List P)} {loose loose' : List P}
  {h l e p q : P} {xs ys pre post : List P} [DecidableEq P]

/-! ### Whole lists -/

private theorem Represents.listRotateLeft_empty (hr : Represents t m) (hmem : (h, []) ∈ t.rings) :
    listRotateLeft m (some h) = .ok m := by
  simp [listRotateLeft, hr.listEmpty hmem]

private theorem Represents.listRotateLeft (hr : Represents ⟨(h, e :: xs) :: rings, loose⟩ m) :
    ∃ m', listRotateLeft m (some h) = .ok m' ∧ Represents ⟨(h, xs ++ [e]) :: rings, loose⟩ m' := by
  have hmem : (h, e :: xs) ∈ (h, e :: xs) :: rings := List.mem_cons_self
  have hr' : Represents ⟨(h, [] ++ e :: xs) :: rings, loose⟩ m := hr
  obtain ⟨m', hcall, hr''⟩ := hr'.listMoveTail (.refl ⟨(h, xs) :: rings, e :: loose⟩)
  refine ⟨m', ?_, hr''⟩
  simp [Links.listRotateLeft, hr.listEmpty hmem, hr.readNext hmem, hcall]

private theorem Represents.listCutPosition_empty (hr : Represents t m) (hmem : (h, []) ∈ t.rings) :
    listCutPosition m (some l) (some h) (some e) = .ok m := by
  simp [listCutPosition, hr.listEmpty hmem]

private theorem Represents.listCutPosition_head (hr : Represents ⟨(h, xs) :: rings, l :: loose⟩ m) (hxs : xs ≠ []) :
    ∃ m', listCutPosition m (some l) (some h) (some h) = .ok m' ∧
      Represents ⟨(l, []) :: (h, xs) :: rings, loose⟩ m' := by
  have hmem : (h, xs) ∈ (h, xs) :: rings := List.mem_cons_self
  obtain ⟨m', hcall, hr'⟩ := hr.initListHead
  refine ⟨m', ?_, hr'⟩
  simp [listCutPosition, hr.listEmpty hmem, hr.listIsSingular hmem, hr.readNext hmem, hxs, hcall]

private theorem Represents.listCutPosition_entry (hr : Represents ⟨(h, pre ++ e :: post) :: rings, l :: loose⟩ m) :
    ∃ m', listCutPosition m (some l) (some h) (some e) = .ok m' ∧
      Represents ⟨(l, pre ++ [e]) :: (h, post) :: rings, loose⟩ m' := by
  have hmem : (h, pre ++ e :: post) ∈ (h, pre ++ e :: post) :: rings := List.mem_cons_self
  obtain ⟨m', hcall, hr'⟩ := hr.cutBetween
  refine ⟨m', ?_, hr'⟩
  have heh : e ≠ h := by
    have := hr.nodup_ring hmem
    grind
  -- with one entry, it is the one to cut at
  have hsingle : (pre ++ e :: post).length = 1 → after h (pre ++ e :: post) = e := by
    cases pre <;> simp
  simp only [listCutPosition, hr.listEmpty hmem, hr.listIsSingular hmem, hr.readNext hmem, ok_bind]
  by_cases hlen : (pre ++ e :: post).length = 1
  · simp [hsingle hlen, heh, hcall]
  · have hlen' : pre.length + (post.length + 1) ≠ 1 := by simpa using hlen
    simp [hlen', heh, hcall]

private theorem Represents.listSpliceWith_empty (tail init : Bool) (hr : Represents t m) (hmem : (l, []) ∈ t.rings) :
    listSpliceWith tail init m (some l) (some h) = .ok m := by
  cases tail <;> cases init <;>
    simp [listSpliceWith, listSplice, listSpliceTail, listSpliceInit, listSpliceTailInit, hr.listEmpty hmem]

private theorem Represents.listSplice (tail : Bool) (hr : Represents ⟨(h, xs) :: (l, ys) :: rings, loose⟩ m)
    (hys : ys ≠ []) :
    ∃ m', listSpliceWith tail false m (some l) (some h) = .ok m' ∧
      Represents ⟨(h, if tail then xs ++ ys else ys ++ xs) :: rings, l :: loose⟩ m' := by
  have hmem : (h, xs) ∈ (h, xs) :: (l, ys) :: rings := List.mem_cons_self
  have hmem' : (l, ys) ∈ (h, xs) :: (l, ys) :: rings := List.mem_cons_of_mem _ List.mem_cons_self
  cases tail with
  | false =>
    obtain ⟨m', hcall, hr'⟩ := Represents.spliceBetween [] xs hr hys
    refine ⟨m', ?_, hr'⟩
    simpa [listSpliceWith, Links.listSplice, hr.listEmpty hmem', hr.readNext hmem, hys] using hcall
  | true =>
    obtain ⟨m', hcall, hr'⟩ := Represents.spliceBetween xs [] (by rwa [List.append_nil]) hys
    rw [List.append_nil] at hr'
    refine ⟨m', ?_, hr'⟩
    simpa [listSpliceWith, listSpliceTail, hr.listEmpty hmem', hr.readPrev hmem, hys] using hcall

private theorem Represents.listSpliceInit (tail : Bool) (hr : Represents ⟨(h, xs) :: (l, ys) :: rings, loose⟩ m)
    (hys : ys ≠ []) : ∃ m', listSpliceWith tail true m (some l) (some h) = .ok m' ∧
      Represents ⟨(l, []) :: (h, if tail then xs ++ ys else ys ++ xs) :: rings, loose⟩ m' := by
  have hmem' : (l, ys) ∈ (h, xs) :: (l, ys) :: rings := List.mem_cons_of_mem _ List.mem_cons_self
  obtain ⟨m₁, h1, hr1⟩ := hr.listSplice tail hys
  obtain ⟨m₂, h2, hr2⟩ := hr1.initListHead
  refine ⟨m₂, ?_, hr2⟩
  -- the call without initialisation, followed by the initialisation
  have hcall : listSpliceWith tail true m (some l) (some h) =
      (listSpliceWith tail false m (some l) (some h)) >>= fun m => Links.initListHead m (some l) := by
    cases tail <;>
      simp [listSpliceWith, Links.listSplice, listSpliceTail, Links.listSpliceInit, listSpliceTailInit,
        hr.listEmpty hmem', hys]
  rw [hcall, h1]
  exact h2

/-! ### Cells -/

theorem Represents.alloc (hr : Represents t m) (hp : p ∉ t.cells) :
    Represents ⟨t.rings, p :: t.loose⟩ (m.alloc p) := by
  have hperm : Lists.cells ⟨t.rings, p :: t.loose⟩ ~ p :: t.cells := List.perm_middle
  refine ⟨hperm.nodup_iff.2 (List.nodup_cons.2 ⟨hp, hr.nodup⟩), fun q => ?_, fun r hmem => ?_⟩
  · rw [hperm.mem_iff, List.mem_cons, ← hr.live]
    by_cases hq : q = p <;> simp [Memory.alloc, hq]
  · have hne : ∀ x ∈ r.1 :: r.2, x ≠ p := fun x hx heq =>
      hp (heq ▸ List.mem_append_left _ (List.mem_flatMap.2 ⟨r, hmem, hx⟩))
    exact (hr.ring r hmem).frame (fun x hx => by simp [Memory.alloc, hne x hx])
      fun x hx => by simp [Memory.alloc, hne x hx]

theorem Represents.free (hr : Represents ⟨rings, p :: loose⟩ m) :
    ∃ m', m.free p = .ok m' ∧ Represents ⟨rings, loose⟩ m' := by
  have hperm : Lists.cells ⟨rings, p :: loose⟩ ~ p :: Lists.cells ⟨rings, loose⟩ := List.perm_middle
  obtain ⟨hp, hnodup⟩ := List.nodup_cons.1 (hperm.nodup_iff.1 hr.nodup)
  refine ⟨_, Memory.free_some (hr.live_of_loose List.mem_cons_self), hnodup, fun q => ?_, hr.ring⟩
  have hlive := hr.live q
  rw [hperm.mem_iff, List.mem_cons] at hlive
  by_cases hq : q = p
  · simp [hq, hp]
  · simpa [hq] using hlive

/-! ### Loops -/

private theorem Represents.walk_next (pre post : List P) (hr : Represents t m) (hmem : (h, pre ++ post) ∈ t.rings)
    {fuel : Nat} (hfuel : post.length < fuel) : listWalk m.readNext h fuel (some (after h post)) = .ok (some post) := by
  induction post generalizing pre fuel with
  | nil =>
    obtain ⟨fuel, rfl⟩ : ∃ n, fuel = n + 1 := ⟨fuel - 1, by simp at hfuel; omega⟩
    simp [listWalk]
  | cons a post ih =>
    obtain ⟨fuel, rfl⟩ : ∃ n, fuel = n + 1 := ⟨fuel - 1, by simp at hfuel; omega⟩
    have hah : a ≠ h := by
      have := hr.nodup_ring hmem
      grind
    have hmem' : (h, (pre ++ [a]) ++ post) ∈ t.rings := by rwa [List.append_assoc]
    have hrest := ih _ hmem' (Nat.lt_of_succ_lt_succ hfuel)
    simp [listWalk, hah, hr.live_entry hmem, hr.next_entry hmem, hrest]

private theorem Represents.walk_prev (pre post : List P) (hr : Represents t m) (hmem : (h, pre ++ post) ∈ t.rings)
    {fuel : Nat}
    (hfuel : pre.length < fuel) : listWalk m.readPrev h fuel (some (before h pre)) = .ok (some pre.reverse) := by
  induction pre using List.reverseRecOn generalizing post fuel with
  | nil =>
    obtain ⟨fuel, rfl⟩ : ∃ n, fuel = n + 1 := ⟨fuel - 1, by simp at hfuel; omega⟩
    simp [listWalk]
  | append_singleton pre a ih =>
    obtain ⟨fuel, rfl⟩ : ∃ n, fuel = n + 1 := ⟨fuel - 1, by simp at hfuel; omega⟩
    have hmem' : (h, pre ++ a :: post) ∈ t.rings := by
      rwa [List.append_assoc] at hmem
    have hah : a ≠ h := by
      have := hr.nodup_ring hmem'
      grind
    have hrest := ih _ hmem' (by simpa using hfuel)
    simp [listWalk, hah, hr.live_entry hmem', hr.prev_entry hmem', hrest]

theorem Represents.listForEach (hr : Represents t m) (hmem : (h, xs) ∈ t.rings) {fuel : Nat}
    (hfuel : xs.length < fuel) : listForEach m h fuel = .ok (some xs) := by
  simp only [Links.listForEach, hr.readNext hmem, ok_bind]
  exact Represents.walk_next [] xs hr hmem hfuel

theorem Represents.listForEachPrev (hr : Represents t m) (hmem : (h, xs) ∈ t.rings) {fuel : Nat}
    (hfuel : xs.length < fuel) : listForEachPrev m h fuel = .ok (some xs.reverse) := by
  simp only [Links.listForEachPrev, hr.readPrev hmem, ok_bind]
  exact Represents.walk_prev xs [] hr (by rwa [List.append_nil]) hfuel

/-- The loop that is safe against the removal of the entry it is at: `Q xs s` says that the entries `xs` are left in the
list and what else holds, and the body takes the first of them out. -/
theorem listForEachSafe_rule {σ : Type} {links : σ → Memory P} {body : σ → P → Except Fault σ}
    {Q : List P → σ → Prop}
    (hlinks : ∀ xs s, Q xs s → ∃ rings loose, Represents ⟨(h, xs) :: rings, loose⟩ (links s))
    (hbody : ∀ e xs s, Q (e :: xs) s → ∃ s', body s e = .ok s' ∧ Q xs s') {s : σ} (hs : Q xs s) {fuel : Nat}
    (hfuel : xs.length < fuel) : ∃ s', listForEachSafe links body h fuel s = .ok (some s') ∧ Q [] s' := by
  -- a turn starts at the first entry left, with the one behind it read in advance
  have hloop : ∀ xs s n fuel, Q xs s → (links s).readNext (some (after h xs)) = .ok n → xs.length < fuel →
      ∃ s', listSafeLoop links body h fuel s (some (after h xs)) n = .ok (some s') ∧ Q [] s' := by
    intro xs
    induction xs with
    | nil =>
      intro s n fuel hs _ hfuel
      obtain ⟨fuel, rfl⟩ : ∃ k, fuel = k + 1 := ⟨fuel - 1, by simp at hfuel; omega⟩
      exact ⟨s, by simp [listSafeLoop], hs⟩
    | cons e xs ih =>
      intro s n fuel hs hn hfuel
      obtain ⟨fuel, rfl⟩ : ∃ k, fuel = k + 1 := ⟨fuel - 1, by simp at hfuel; omega⟩
      obtain ⟨rings, loose, hr⟩ := hlinks _ s hs
      have hmem : (h, [] ++ e :: xs) ∈ (h, e :: xs) :: rings := List.mem_cons_self
      have heh : e ≠ h := by
        have := hr.nodup_ring hmem
        grind
      have hn' : n = some (after h xs) := by
        rw [after_cons, Memory.readNext_some (hr.live_entry hmem), hr.next_entry hmem] at hn
        exact (Except.ok.inj hn).symm
      obtain ⟨s₁, h1, hs1⟩ := hbody e xs s hs
      obtain ⟨rings₁, loose₁, hr1⟩ := hlinks _ s₁ hs1
      have hlive : (links s₁).live (after h xs) = true := by
        have hafter := after_mem_ring h [] xs
        exact hr1.live_of_ring List.mem_cons_self hafter
      obtain ⟨s', h2, hs'⟩ := ih s₁ _ fuel hs1 (Memory.readNext_some hlive) (Nat.lt_of_succ_lt_succ hfuel)
      refine ⟨s', ?_, hs'⟩
      simp [listSafeLoop, heh, h1, hn', hlive, h2]
  obtain ⟨rings, loose, hr⟩ := hlinks _ s hs
  have hlive : (links s).live (after h xs) = true := hr.live_of_ring List.mem_cons_self (after_mem_ring h [] xs)
  obtain ⟨s', hcall, hs'⟩ := hloop xs s _ fuel hs (Memory.readNext_some hlive) hfuel
  refine ⟨s', ?_, hs'⟩
  simpa [listForEachSafe, hr.readNext List.mem_cons_self, hlive] using hcall

/-! ### Sequences of operations -/

/-- One operation does what it should. -/
private theorem Represents.step (poison : Option P × Option P) {op : ListOp P} (hr : Represents t m)
    (hspec : ListSpec t op t') : ∃ m', listStep poison m op = .ok m' ∧ Represents t' m' := by
  induction hspec generalizing m with
  | alloc hp => exact ⟨_, rfl, hr.alloc hp⟩
  | free hf => exact (hr.forget hf).free
  | init hf => exact (hr.forget hf).initListHead
  | add hf => exact (hr.forget hf).listAdd
  | addTail hf => exact (hr.forget hf).listAddTail
  | del hf => exact (hr.forget hf).listDel poison
  | delInit hf => exact (hr.forget hf).listDelInit
  | replaceEntry hf => exact (hr.forget hf).listReplace_entry
  | replaceHead hf => exact (hr.forget hf).listReplace_head
  | replaceInit _ ih =>
    obtain ⟨m₁, h1, hr1⟩ := ih hr
    obtain ⟨m₂, h2, hr2⟩ := hr1.initListHead
    simp only [listStep] at h1
    exact ⟨m₂, by simp [listStep, listReplaceInit, h1, h2], hr2⟩
  | move hf hg => exact (hr.forget hf).listMove hg
  | moveTail hf hg => exact (hr.forget hf).listMoveTail hg
  | rotateEmpty hmem => exact ⟨m, hr.listRotateLeft_empty hmem, hr⟩
  | rotate hf => exact (hr.forget hf).listRotateLeft
  | cutEmpty hmem => exact ⟨m, hr.listCutPosition_empty hmem, hr⟩
  | cutHead hf hxs => exact (hr.forget hf).listCutPosition_head hxs
  | cutEntry hf => exact (hr.forget hf).listCutPosition_entry
  | spliceEmpty tail init hmem => exact ⟨m, hr.listSpliceWith_empty tail init hmem, hr⟩
  | splice tail hf hys => exact (hr.forget hf).listSplice tail hys
  | spliceInit tail hf hys => exact (hr.forget hf).listSpliceInit tail hys

/-- Any sequence of operations that are used as they should be runs without a fault, and afterwards every list is there
in the memory: the loops visit its entries in order, forward and backward, and the tests tell whether it is empty, whether
it has one entry, and which entry is its last. -/
theorem listRun_refines (poison : Option P × Option P) {ops : List (ListOp P)} (hr : Represents t m)
    (hops : Traces ListSpec t ops t') :
    ∃ m', run (listStep poison) m ops = .ok m' ∧ Represents t' m' ∧
      ∀ h xs, (h, xs) ∈ t'.rings →
        (∀ fuel > xs.length,
          listForEach m' h fuel = .ok (some xs) ∧ listForEachPrev m' h fuel = .ok (some xs.reverse)) ∧
        listEmpty m' (some h) = .ok (decide (xs = [])) ∧ listEmptyCareful m' (some h) = .ok (decide (xs = [])) ∧
        listIsSingular m' (some h) = .ok (decide (xs.length = 1)) ∧
        ∀ pre e post, xs = pre ++ e :: post → listIsLast m' (some e) (some h) = .ok (decide (post = [])) := by
  have hstep : ∀ (t : Lists P) m op t', Represents t m → ListSpec t op t' →
      ∃ m', listStep poison m op = .ok m' ∧ Represents t' m' := fun _ _ _ _ hr hspec => hr.step poison hspec
  obtain ⟨m', hrun, hr'⟩ := run_simulates hstep hr hops
  refine ⟨m', hrun, hr', fun h xs hmem => ⟨fun fuel hfuel => ?_, hr'.listEmpty hmem, hr'.listEmptyCareful hmem,
    hr'.listIsSingular hmem, ?_⟩⟩
  · exact ⟨hr'.listForEach hmem hfuel, hr'.listForEachPrev hmem hfuel⟩
  · rintro pre e post rfl
    exact hr'.listIsLast hmem

/-- A list with two entries, one of which is deleted and freed. -/
theorem listRun_refines_two : ∃ m', run (listStep (none, none)) (Memory.mk (fun _ => false) (fun _ => none)
      (fun _ => none)) [.alloc 0, .init 0, .alloc 1, .addTail 1 0, .alloc 2, .addTail 2 0, .del 1, .free 1] = .ok m' ∧
    listForEach m' 0 2 = .ok (some [2]) ∧ listIsLast m' (some 2) (some 0) = .ok true := by
  have hempty : Represents (⟨[], []⟩ : Lists Nat) ⟨fun _ => false, fun _ => none, fun _ => none⟩ :=
    ⟨by simp [Lists.cells], by simp [Lists.cells], by simp⟩
  have hops : Traces ListSpec ⟨[], []⟩
      [.alloc 0, .init 0, .alloc 1, .addTail 1 0, .alloc 2, .addTail 2 0, .del 1, .free 1] ⟨[(0, [2])], []⟩ :=
    ⟨_, .alloc (by simp [Lists.cells]), _, .init (.refl ⟨[], [0]⟩), _, .alloc (by simp [Lists.cells, ringCells]), _,
      .addTail (.refl ⟨[(0, [])], [1]⟩), _, .alloc (by simp [Lists.cells, ringCells]), _,
      .addTail (.refl ⟨[(0, [1])], [2]⟩), _, .del (.refl ⟨[(0, [] ++ 1 :: [2])], []⟩), _,
      .free (.refl ⟨[(0, [2])], [1]⟩), rfl⟩
  obtain ⟨m', hrun, -, hlists⟩ := listRun_refines (none, none) hempty hops
  obtain ⟨hloops, -, -, -, hlast⟩ := hlists 0 [2] (by simp)
  exact ⟨m', hrun, (hloops 2 (by simp)).1, hlast [] 2 [] rfl⟩

end StubProfile.Links
