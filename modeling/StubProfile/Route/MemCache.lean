import StubProfile.Route.Bitmap

/-!
# The entries and the block allocator

The memory of the route table (`ts.h` and the first part of `ts.c`): the entries of `l1` and those of the cubes, which
are handed out in blocks of 256.  A block is named by an index, the number of its cube and its number in the cube.
Freed indices are kept in a list of arrays of twelve slots.  `calloc` succeeds.
-/

namespace StubProfile.Route

/-- `struct entry`: bit fields of 1, 6 and 25 bits. -/
structure Entry where
  child : Bool
  cidr : Nat
  index : Nat
deriving DecidableEq, Repr

def Entry.zero : Entry := ⟨false, 0, 0⟩

def Entry.setCidr (e : Entry) (cidr : Nat) : Entry := { e with cidr := cidr % 2 ^ 6 }

def Entry.setIndex (e : Entry) (index : Nat) : Entry := { e with index := index % 2 ^ 25 }

theorem Entry.setCidr_eq {e : Entry} {cidr : Nat} (h : cidr < 2 ^ 6) : e.setCidr cidr = { e with cidr := cidr } := by
  rw [Entry.setCidr, Nat.mod_eq_of_lt h]

theorem Entry.setIndex_eq {e : Entry} {index : Nat} (h : index < 2 ^ 25) :
    e.setIndex index = { e with index := index } := by
  rw [Entry.setIndex, Nat.mod_eq_of_lt h]

/-- A pointer to an entry of `l1` or of a cube. -/
inductive Ptr where
  | l1 (i : Nat)
  | cube (no i : Nat)
deriving DecidableEq

def Ptr.add : Ptr → Nat → Ptr
  | .l1 i, k => .l1 (i + k)
  | .cube no i, k => .cube no (i + k)

/-- `struct mem_cache`, with the contents of the entries.  In the arrays of twelve slots `none` stands for
`INVALID_INDEX`. -/
structure MemCache where
  freeIndex : List (List (Option Nat))
  currCube : Nat
  currIndex : Nat
  mem : Ptr → Entry

/-- The entries that are there: `l1`, and the cubes allocated so far, of which there is room for 32. -/
def MemCache.valid (mm : MemCache) : Ptr → Bool
  | .l1 i => i < 2 ^ 16
  | .cube no i => no ≤ mm.currCube && no < 32 && i < 2 ^ 20

def MemCache.read (mm : MemCache) (p : Ptr) : Except Fault Entry :=
  if mm.valid p then .ok (mm.mem p) else .error .wild

def MemCache.write (mm : MemCache) (p : Ptr) (e : Entry) : Except Fault MemCache :=
  if mm.valid p then .ok { mm with mem := Function.update mm.mem p e } else .error .wild

@[simp] theorem ok_bind {α β : Type} (a : α) (f : α → Except Fault β) : (Except.ok a >>= f) = f a := rfl

theorem bind_eq_ok {α β : Type} {x : Except Fault α} {f : α → Except Fault β} {b : β} (h : x >>= f = .ok b) :
    ∃ a, x = .ok a ∧ f a = .ok b := by
  cases x with
  | error e => cases h
  | ok a => exact ⟨a, rfl, h⟩

/-- A `for` loop over `0, …, n - 1`. -/
def forRange {σ : Type} (body : Nat → σ → Except Fault σ) : Nat → σ → Except Fault σ
  | 0, s => .ok s
  | n + 1, s => do
    let s ← forRange body n s
    body n s

/-- The rule for a loop with an invariant that may speak of the number of turns done. -/
theorem forRange_induct {σ : Type} {body : Nat → σ → Except Fault σ} {P : Nat → σ → Prop} {n : Nat} {s : σ} (h₀ : P 0 s)
    (hstep : ∀ i < n, ∀ s, P i s → ∃ s', body i s = .ok s' ∧ P (i + 1) s') :
    ∃ s', forRange body n s = .ok s' ∧ P n s' := by
  induction n with
  | zero => exact ⟨s, rfl, h₀⟩
  | succ n ih =>
    obtain ⟨s₁, h1, h2⟩ := ih fun i hi => hstep i (by omega)
    obtain ⟨s₂, h3, h4⟩ := hstep n (by omega) s₁ h2
    refine ⟨s₂, ?_, h4⟩
    rw [forRange, h1]
    exact h3

def cubeNo (index : Nat) : Nat := index >>> 20

def cubeIndex (index : Nat) : Nat := index % 2 ^ 20

/-- `get_entry` and `fast_get_entry`; a pointer into a cube that is not there faults when it is followed. -/
def getEntry (index : Nat) : Ptr := .cube (cubeNo index) (cubeIndex index <<< 8)

/-- The slot that `alloc_entry` takes: the last one in use below `i`. -/
def lastSlot (fb : List (Option Nat)) : Nat → Option (Nat × Nat)
  | 0 => none
  | i + 1 =>
    match fb[i]? with
    | some (some index) => some (i, index)
    | _ => lastSlot fb i

/-- `calloc` of the entries of a cube. -/
def callocCube (mem : Ptr → Entry) (no : Nat) : Ptr → Entry
  | .l1 i => mem (.l1 i)
  | .cube no' i => if no' = no then .zero else mem (.cube no' i)

/-- `alloc_entry`, with `*index` as a second result. -/
def allocEntry (mm : MemCache) : Except Fault (MemCache × Nat) :=
  match mm.freeIndex with
  | fb :: rest =>
    match lastSlot fb 12 with
    | some (i, index) => .ok ({ mm with freeIndex := if i = 0 then rest else fb.set i none :: rest }, index)
    -- the entry returned is `NULL`
    | none => .error .wild
  | [] =>
    if cubeIndex mm.currIndex = 2 ^ 20 / 2 ^ 8 - 1 then
      let currCube := mm.currCube + 1
      if currCube < 32 then
        .ok ({ mm with
          currCube := currCube
          currIndex := currCube <<< 20
          mem := callocCube mm.mem currCube }, mm.currIndex)
      else .error .wild
    else .ok ({ mm with currIndex := mm.currIndex + 1 }, mm.currIndex)

/-- The first invalid slot takes the index; `none` if all twelve are in use. -/
def fillSlot (index : Nat) : List (Option Nat) → Option (List (Option Nat))
  | [] => none
  | none :: slots => some (some index :: slots)
  | some i :: slots => (fillSlot index slots).map (some i :: ·)

/-- The first array with an invalid slot takes the index. -/
def fillBlocks (index : Nat) : List (List (Option Nat)) → Option (List (List (Option Nat)))
  | [] => none
  | fb :: rest =>
    match fillSlot index fb with
    | some fb => some (fb :: rest)
    | none => (fillBlocks index rest).map (fb :: ·)

def deallocEntry (mm : MemCache) (index : Nat) : MemCache :=
  let freeIndex := if mm.freeIndex = [] then [List.replicate 12 none] else mm.freeIndex
  match fillBlocks index freeIndex with
  | some freeIndex => { mm with freeIndex := freeIndex }
  | none => { mm with freeIndex := (some index :: List.replicate 11 none) :: freeIndex }

end StubProfile.Route
