import Mathlib.Data.List.Nodup
import StubProfile.Lib.LinkRing

/-!
# Objects at addresses

The objects of one type that a program has allocated, at addresses that are not used again.  To follow the null
pointer or a pointer to an object that was freed, to go beyond the end of an array and to free an object twice are
faults.

What the program owns is a list of addresses, with every object once in it (`Store.Owned`).
-/

namespace Objects

open LinkRing (Fault)
open scoped List

structure Store (α : Type) where
  next : Nat
  obj : Nat → Option α
  fresh : ∀ a, next ≤ a → obj a = none

variable {α β : Type}

def Store.empty (α : Type) : Store α := ⟨0, fun _ => none, fun _ _ => rfl⟩

theorem fresh_alloc (h : Store α) (x : α) (a : Nat) (ha : h.next + 1 ≤ a) :
    Function.update h.obj h.next (some x) a = none := by
  rw [Function.update_of_ne (by omega), h.fresh a (by omega)]

theorem fresh_put (h : Store α) (b : Nat) (x : α) (a : Nat) (ha : h.next ≤ a) :
    Function.update h.obj b ((h.obj b).map fun _ => x) a = none := by
  by_cases hab : a = b
  · rw [hab, Function.update_self, h.fresh b (hab ▸ ha), Option.map_none]
  · rw [Function.update_of_ne hab, h.fresh a ha]

theorem fresh_drop (h : Store α) (b a : Nat) (ha : h.next ≤ a) : Function.update h.obj b none a = none := by
  by_cases hab : a = b
  · rw [hab, Function.update_self]
  · rw [Function.update_of_ne hab, h.fresh a ha]

/-- A new object, at the address `h.next`. -/
def Store.alloc (h : Store α) (x : α) : Store α :=
  ⟨h.next + 1, Function.update h.obj h.next (some x), fresh_alloc h x⟩

/-- Write an object, if it is there. -/
def Store.put (h : Store α) (a : Nat) (x : α) : Store α :=
  ⟨h.next, Function.update h.obj a ((h.obj a).map fun _ => x), fresh_put h a x⟩

def Store.drop (h : Store α) (a : Nat) : Store α := ⟨h.next, Function.update h.obj a none, fresh_drop h a⟩

def Store.load (h : Store α) : Option Nat → Except Fault α
  | none => .error .null
  | some a =>
    match h.obj a with
    | none => .error .absent
    | some x => .ok x

/-- `free`; there is nothing to do for the null pointer. -/
def Store.release (h : Store α) : Option Nat → Except Fault (Store α)
  | none => .ok h
  | some a => do
    let _ ← h.load (some a)
    return h.drop a

def Store.loadAt (h : Store (List α)) (p : Option Nat) (i : Nat) : Except Fault α := do
  let l ← h.load p
  match l[i]? with
  | none => .error .absent
  | some x => return x

def Store.storeAt (h : Store (List α)) (p : Option Nat) (i : Nat) (x : α) : Except Fault (Store (List α)) := do
  let l ← h.load p
  match p with
  | none => .error .null
  | some a => if i < l.length then return h.put a (l.set i x) else .error .absent

/-- One turn of a loop over an array: the entry at `i` is changed, and something is put out. -/
def updateAt (f : α → α × List β) (p : Option Nat) (s : Store (List α) × List β) (i : Nat) :
    Except Fault (Store (List α) × List β) := do
  let x ← s.1.loadAt p i
  let h ← s.1.storeAt p i (f x).1
  return (h, s.2 ++ (f x).2)

variable {h : Store α} {a b : Nat} {x y : α}

theorem Store.ext {h h' : Store α} (hnext : h.next = h'.next) (hobj : h.obj = h'.obj) : h = h' := by
  cases h
  cases h'
  cases hnext
  cases hobj
  rfl

theorem Store.lt_next (ha : h.obj a = some x) : a < h.next := by
  refine Nat.lt_of_not_le fun hle => ?_
  rw [h.fresh a hle] at ha
  cases ha

@[simp] theorem Store.load_some (ha : h.obj a = some x) : h.load (some a) = .ok x := by simp only [Store.load, ha]

theorem Store.obj_alloc (h : Store α) (x : α) : (h.alloc x).obj h.next = some x := Function.update_self ..

theorem Store.obj_alloc_of_lt (hab : a < h.next) : (h.alloc x).obj a = h.obj a :=
  Function.update_of_ne (Nat.ne_of_lt hab) ..

theorem Store.obj_put (ha : h.obj a = some x) (y : α) : (h.put a y).obj a = some y := by
  simp only [Store.put, Function.update_self, ha, Option.map_some]

theorem Store.obj_put_of_ne (hab : b ≠ a) (y : α) : (h.put a y).obj b = h.obj b := Function.update_of_ne hab ..

theorem Store.put_self (ha : h.obj a = some x) : h.put a x = h := by
  refine Store.ext rfl (funext fun b => ?_)
  by_cases hb : b = a
  · rw [hb, Store.obj_put ha, ha]
  · exact Store.obj_put_of_ne hb x

theorem Store.put_put (h : Store α) (a : Nat) (x y : α) : (h.put a x).put a y = h.put a y :=
  Store.ext rfl (by simp [Store.put, Function.comp_def])

theorem Store.drop_put (h : Store α) (a : Nat) (x : α) : (h.put a x).drop a = h.drop a :=
  Store.ext rfl (by simp [Store.put, Store.drop])

theorem Store.release_some (ha : h.obj a = some x) : h.release (some a) = .ok (h.drop a) := by
  simp only [Store.release, Store.load_some ha, LinkRing.ok_bind]
  rfl

/-! ### Loops over an array -/

section Arrays

variable {h : Store (List α)} {pre l post : List α} {x : α} {f : α → α × List β}

theorem Store.loadAt_middle (ha : h.obj a = some (pre ++ x :: post)) : h.loadAt (some a) pre.length = .ok x := by
  simp [Store.loadAt, Store.load_some ha]

theorem Store.storeAt_middle (ha : h.obj a = some (pre ++ x :: post)) (y : α) :
    h.storeAt (some a) pre.length y = .ok (h.put a (pre ++ y :: post)) := by
  simp [Store.storeAt, Store.load_some ha]

private theorem updateAt_middle (out : List β) (ha : h.obj a = some (pre ++ x :: post)) :
    updateAt f (some a) (h, out) pre.length = .ok (h.put a (pre ++ (f x).1 :: post), out ++ (f x).2) := by
  simp [updateAt, Store.loadAt_middle ha, Store.storeAt_middle ha]

/-- The loop over the entries in their order. -/
private theorem foldlM_updateAt (pre : List α) (out : List β) (ha : h.obj a = some (pre ++ l)) :
    (List.range' pre.length l.length).foldlM (updateAt f (some a)) (h, out) =
      .ok (h.put a (pre ++ l.map fun x => (f x).1), out ++ l.flatMap fun x => (f x).2) := by
  induction l generalizing pre h out with
  | nil =>
    rw [List.append_nil] at ha
    simp [Store.put_self ha]
  | cons x l ih =>
    have hrest := Store.obj_put ha (pre ++ (f x).1 :: l)
    rw [List.append_cons] at hrest
    have hloop := ih _ (out ++ (f x).2) hrest
    rw [List.length_append, List.length_singleton, Store.put_put] at hloop
    rw [List.length_cons, List.range'_succ, List.foldlM_cons, updateAt_middle out ha, LinkRing.ok_bind,
      List.append_cons pre, hloop]
    simp

theorem foldlM_updateAt_range (out : List β) (ha : h.obj a = some l) :
    (List.range l.length).foldlM (updateAt f (some a)) (h, out) =
      .ok (h.put a (l.map fun x => (f x).1), out ++ l.flatMap fun x => (f x).2) := by
  rw [List.range_eq_range']
  exact foldlM_updateAt [] out ha

/-- The loop over the first entries from the last of them down. -/
theorem foldlM_updateAt_reverse (out : List β) (ha : h.obj a = some (l ++ post)) :
    (List.range l.length).reverse.foldlM (updateAt f (some a)) (h, out) =
      .ok (h.put a ((l.map fun x => (f x).1) ++ post), out ++ l.reverse.flatMap fun x => (f x).2) := by
  induction l using List.reverseRecOn generalizing post h out with
  | nil =>
    rw [List.nil_append] at ha
    simp [Store.put_self ha]
  | append_singleton l x ih =>
    rw [List.append_assoc, List.singleton_append] at ha
    have hrest := Store.obj_put ha (l ++ (f x).1 :: post)
    have hloop := ih (out ++ (f x).2) hrest
    rw [Store.put_put] at hloop
    rw [List.length_append, List.length_singleton, List.range_succ, List.reverse_append, List.reverse_singleton,
      List.singleton_append, List.foldlM_cons, updateAt_middle out ha, LinkRing.ok_bind, hloop]
    simp

/-- Some turns with an entry that stays as it is. -/
theorem foldlM_updateAt_replicate (out : List β) (ha : h.obj a = some (pre ++ x :: post)) (hx : (f x).1 = x) (n : Nat) :
    (List.replicate n pre.length).foldlM (updateAt f (some a)) (h, out) =
      .ok (h, out ++ (List.replicate n (f x).2).flatten) := by
  induction n generalizing out with
  | zero => simp
  | succ n ih =>
    rw [List.replicate_succ, List.foldlM_cons, updateAt_middle out ha, hx, Store.put_self ha, LinkRing.ok_bind, ih,
      List.replicate_succ, List.flatten_cons, List.append_assoc]

end Arrays

/-! ### Ownership -/

structure Store.Owned (h : Store α) (as : List Nat) : Prop where
  nodup : as.Nodup
  mem : ∀ a, a ∈ as ↔ (h.obj a).isSome

variable {as as' : List Nat}

theorem Store.Owned.perm (ho : h.Owned as) (hp : as' ~ as) : h.Owned as' :=
  ⟨hp.nodup_iff.2 ho.nodup, fun a => hp.mem_iff.trans (ho.mem a)⟩

theorem Store.Owned.empty : (Store.empty α).Owned [] := ⟨List.nodup_nil, by simp [Store.empty]⟩

theorem Store.Owned.lt_next (ho : h.Owned as) (ha : a ∈ as) : a < h.next := by
  obtain ⟨x, hx⟩ := Option.isSome_iff_exists.1 ((ho.mem a).1 ha)
  exact Store.lt_next hx

theorem Store.Owned.alloc (ho : h.Owned as) (x : α) : (h.alloc x).Owned (h.next :: as) := by
  refine ⟨List.nodup_cons.2 ⟨fun hmem => Nat.lt_irrefl _ (ho.lt_next hmem), ho.nodup⟩, fun a => ?_⟩
  by_cases ha : a = h.next
  · simp [ha, Store.obj_alloc]
  · simp [ha, ho.mem, Store.alloc]

theorem Store.Owned.put (ho : h.Owned as) (a : Nat) (x : α) : (h.put a x).Owned as := by
  refine ⟨ho.nodup, fun b => ?_⟩
  by_cases hb : b = a
  · simp [hb, ho.mem, Store.put]
  · rw [Store.obj_put_of_ne hb, ho.mem]

theorem Store.Owned.drop (ho : h.Owned (a :: as)) : (h.drop a).Owned as := by
  obtain ⟨hnot, hnodup⟩ := List.nodup_cons.1 ho.nodup
  refine ⟨hnodup, fun b => ?_⟩
  have hmem := ho.mem b
  by_cases hb : b = a
  · simp [hb, hnot, Store.drop]
  · simpa [hb, Store.drop] using hmem

/-- What is owned can be freed, and the other objects stay. -/
theorem Store.Owned.release (ho : h.Owned (a :: as)) :
    ∃ h', h.release (some a) = .ok h' ∧ h'.Owned as ∧ ∀ b ∈ as, h'.obj b = h.obj b := by
  obtain ⟨x, hx⟩ := Option.isSome_iff_exists.1 ((ho.mem a).1 List.mem_cons_self)
  refine ⟨_, Store.release_some hx, ho.drop, fun b hb => ?_⟩
  exact Function.update_of_ne (ne_of_mem_of_not_mem hb (List.nodup_cons.1 ho.nodup).1) ..

/-- What a pointer that may be null leads to. -/
theorem Store.Owned.release_toList {p : Option Nat} (ho : h.Owned (p.toList ++ as)) :
    ∃ h', h.release p = .ok h' ∧ h'.Owned as ∧ ∀ b ∈ as, h'.obj b = h.obj b := by
  cases p with
  | none => exact ⟨h, rfl, ho, fun _ _ => rfl⟩
  | some a => exact Store.Owned.release ho

end Objects
