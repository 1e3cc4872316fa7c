import Mathlib.Data.List.Chain
import Mathlib.Data.List.Nodup
import Mathlib.Tactic.Common

/-!
# Rings of linked cells

A memory of cells with a pointer forward and a pointer back.  A pointer may be null, and a cell may be absent: to
follow a null pointer or to touch a cell that is not there is a fault.

A ring is a list kept by its head: from the head forward through the entries and back to the head, where every step
forward is undone by the pointer back.  `Ring.exchange` says when a part of a ring may be replaced by another one: the
new part is linked in at its two ends, and the rest of the ring keeps the pointers that lead along it.
-/

namespace LinkRing

open List

inductive Fault where
  | null
  | absent
deriving DecidableEq, Repr

structure Memory (P : Type) where
  live : P → Bool
  next : P → Option P
  prev : P → Option P

variable {P : Type}

/-- Follow a pointer. -/
def Memory.deref (m : Memory P) : Option P → Except Fault P
  | none => .error .null
  | some p => if m.live p then .ok p else .error .absent

theorem Memory.deref_some {m : Memory P} {p : P} (h : m.live p = true) : m.deref (some p) = .ok p := by
  simp only [Memory.deref, h, if_true]

def Memory.readNext (m : Memory P) (p : Option P) : Except Fault (Option P) := do
  let p ← m.deref p
  return m.next p

def Memory.readPrev (m : Memory P) (p : Option P) : Except Fault (Option P) := do
  let p ← m.deref p
  return m.prev p

section
variable [DecidableEq P]

def Memory.setNext (m : Memory P) (p q : Option P) : Except Fault (Memory P) := do
  let p ← m.deref p
  return { m with next := Function.update m.next p q }

def Memory.setPrev (m : Memory P) (p q : Option P) : Except Fault (Memory P) := do
  let p ← m.deref p
  return { m with prev := Function.update m.prev p q }

/-- A new cell, with null pointers. -/
def Memory.alloc (m : Memory P) (p : P) : Memory P :=
  ⟨Function.update m.live p true, Function.update m.next p none, Function.update m.prev p none⟩

def Memory.free (m : Memory P) (p : P) : Except Fault (Memory P) := do
  let p ← m.deref (some p)
  return { m with live := Function.update m.live p false }

end

variable {m m' : Memory P} {p q h : P} {l xs ys zs pre post : List P}

@[simp] theorem ok_bind {α β : Type} (a : α) (f : α → Except Fault β) : (Except.ok a >>= f) = f a := rfl

@[simp] theorem pure_eq_ok {α : Type} (a : α) : (pure a : Except Fault α) = .ok a := rfl

@[simp] theorem Memory.readNext_some (hp : m.live p = true) : m.readNext (some p) = .ok (m.next p) := by
  simp [Memory.readNext, Memory.deref_some hp]

@[simp] theorem Memory.readPrev_some (hp : m.live p = true) : m.readPrev (some p) = .ok (m.prev p) := by
  simp [Memory.readPrev, Memory.deref_some hp]

@[simp] theorem Memory.setNext_some [DecidableEq P] (hp : m.live p = true) (q : Option P) :
    m.setNext (some p) q = .ok { m with next := Function.update m.next p q } := by
  simp [Memory.setNext, Memory.deref_some hp]

@[simp] theorem Memory.setPrev_some [DecidableEq P] (hp : m.live p = true) (q : Option P) :
    m.setPrev (some p) q = .ok { m with prev := Function.update m.prev p q } := by
  simp [Memory.setPrev, Memory.deref_some hp]

theorem Memory.free_some [DecidableEq P] (hp : m.live p = true) :
    m.free p = .ok { m with live := Function.update m.live p false } := by
  simp [Memory.free, Memory.deref_some hp]

/-! ### Chains -/

/-- The pointer forward of `p` and the pointer back of `q` lead to each other. -/
def Link (m : Memory P) (p q : P) : Prop := m.next p = some q ∧ m.prev q = some p

/-- A chain keeps its links when the pointers that lead along it stay. -/
theorem chain_frame (hchain : IsChain (Link m) l) (hnext : ∀ x ∈ l.dropLast, m'.next x = m.next x)
    (hprev : ∀ x ∈ l.tail, m'.prev x = m.prev x) : IsChain (Link m') l := by
  induction l with
  | nil => exact .nil
  | cons a l ih =>
    cases l with
    | nil => exact .singleton a
    | cons b l =>
      obtain ⟨hlink, hrest⟩ := isChain_cons_cons.1 hchain
      refine isChain_cons_cons.2 ⟨⟨?_, ?_⟩, ih hrest ?_ ?_⟩
      · rw [hnext a (by simp), hlink.1]
      · rw [hprev b (by simp), hlink.2]
      · exact fun x hx => hnext x (by simp [hx])
      · exact fun x hx => hprev x (mem_cons_of_mem _ hx)

/-! ### Rings -/

def Ring (m : Memory P) (h : P) (xs : List P) : Prop := IsChain (Link m) (h :: (xs ++ [h]))

/-- The cell in front of what comes behind `pre`. -/
def before (h : P) (pre : List P) : P := pre.getLastD h

/-- The cell behind what comes in front of `post`. -/
def after (h : P) (post : List P) : P := post.headD h

@[simp] theorem before_nil (h : P) : before h [] = h := rfl

@[simp] theorem before_concat (h p : P) (pre : List P) : before h (pre ++ [p]) = p := by simp [before]

@[simp] theorem after_nil (h : P) : after h [] = h := rfl

@[simp] theorem after_cons (h p : P) (post : List P) : after h (p :: post) = p := rfl

theorem before_mem (h : P) (pre : List P) : before h pre ∈ h :: pre := by
  cases pre with
  | nil => exact mem_cons_self
  | cons a l =>
    rw [before, getLastD_cons]
    exact mem_cons_of_mem _ getLastD_mem_cons

theorem after_mem (h : P) (post : List P) : after h post ∈ post ++ [h] := by
  cases post <;> simp [after]

theorem after_congr (a b : P) (hxs : xs ≠ []) : after a xs = after b xs := by
  cases xs with
  | nil => exact absurd rfl hxs
  | cons x xs => rfl

theorem before_congr (a b : P) (hxs : xs ≠ []) : before a xs = before b xs := by
  obtain rfl | ⟨ys, x, rfl⟩ := xs.eq_nil_or_concat'
  · exact absurd rfl hxs
  · rw [before_concat, before_concat]

theorem getLast?_cons_before (h : P) (pre : List P) : (h :: pre).getLast? = some (before h pre) := by
  rw [getLast?_cons]
  cases pre <;> simp [before, getLastD_eq_getLast?]

private theorem head?_append_after (h : P) (post : List P) : (post ++ [h]).head? = some (after h post) := by
  cases post <;> simp [after]

theorem ring_append : Ring m h (pre ++ post) ↔
    IsChain (Link m) (h :: pre) ∧ IsChain (Link m) (post ++ [h]) ∧ Link m (before h pre) (after h post) := by
  have hsplit : h :: (pre ++ post ++ [h]) = (h :: pre) ++ (post ++ [h]) := by simp
  rw [Ring, hsplit, isChain_append, getLast?_cons_before, head?_append_after]
  simp

theorem ring_nil : Ring m h [] ↔ Link m h h := by simp [Ring]

/-- A chain between two cells, by what is between them and the links at its ends. -/
theorem chain_between_iff {a b : P} : IsChain (Link m) (a :: (zs ++ [b])) ↔
    IsChain (Link m) zs ∧ Link m a (after b zs) ∧ Link m (before a zs) b := by
  have hsplit : a :: (zs ++ [b]) = (a :: zs) ++ [b] := rfl
  rw [hsplit, isChain_append, isChain_cons, getLast?_cons_before]
  cases zs with
  | nil => simp
  | cons z zs =>
    simp only [head?_cons, Option.mem_some_iff, forall_eq', isChain_singleton, true_and, after_cons]
    rw [and_assoc, and_left_comm]

/-- A ring by its entries and the links at its head. -/
theorem ring_iff : Ring m h xs ↔ IsChain (Link m) xs ∧ Link m h (after h xs) ∧ Link m (before h xs) h :=
  chain_between_iff

theorem Ring.frame (hring : Ring m h xs) (hnext : ∀ x ∈ h :: xs, m'.next x = m.next x)
    (hprev : ∀ x ∈ h :: xs, m'.prev x = m.prev x) : Ring m' h xs := by
  refine chain_frame hring (fun x hx => hnext x ?_) (fun x hx => hprev x ?_)
  · rwa [← cons_append, dropLast_concat] at hx
  · exact (perm_append_singleton h xs).mem_iff.1 hx

/-- The part `ys` of a ring is replaced by `zs`. -/
theorem Ring.exchange (zs : List P) (hring : Ring m h (pre ++ (ys ++ post)))
    (hseg : IsChain (Link m') (before h pre :: (zs ++ [after h post])))
    (hnext : ∀ x ∈ (h :: pre).dropLast ++ post, m'.next x = m.next x)
    (hprev : ∀ x ∈ pre ++ (post ++ [h]).tail, m'.prev x = m.prev x) : Ring m' h (pre ++ (zs ++ post)) := by
  obtain ⟨hpre, -, -⟩ := ring_append.1 hring
  obtain ⟨-, hpost, -⟩ := ring_append.1 (append_assoc _ _ _ ▸ hring)
  have hpre' : IsChain (Link m') (h :: pre) :=
    chain_frame hpre (fun x hx => hnext x (mem_append_left _ hx)) fun x hx => hprev x (mem_append_left _ hx)
  have hpost' : IsChain (Link m') (post ++ [h]) := by
    refine chain_frame hpost (fun x hx => hnext x ?_) fun x hx => hprev x (mem_append_right _ hx)
    rw [dropLast_concat] at hx
    exact mem_append_right _ hx
  cases zs with
  | nil => exact ring_append.2 ⟨hpre', hpost', (isChain_cons_cons.1 hseg).1⟩
  | cons z zs =>
    obtain ⟨hlink, hzs⟩ := isChain_cons_cons.1 hseg
    obtain ⟨hzs, -, hlast⟩ := isChain_append.1 (cons_append.symm ▸ hzs)
    refine ring_append.2 ⟨hpre', ?_, hlink⟩
    rw [append_assoc]
    refine isChain_append.2 ⟨hzs, hpost', fun x hx y hy => hlast x hx y ?_⟩
    rw [head?_append_after] at hy
    exact hy

end LinkRing
