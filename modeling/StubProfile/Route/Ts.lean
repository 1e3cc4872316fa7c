import StubProfile.Route.MemCache

/-!
# The route table

The functions of `ts.c`.  `l1` has an entry for each value of the first 16 bits of an address; an entry is a leaf, with
a next hop, or a child entry, with the index of a block of 256 entries for the next eight bits.  Both keep in `cidr` the
length of the prefix that the entry belongs to.

The recursive functions and the loop of `ts_search` get a number of turns; when they need more, the result is
`Fault.endless`.  The results of `ts_insert_lx` and `ts_insert_iter`, which `ts_insert_prefix` does not look at, are
left out.
-/

namespace StubProfile.Route

/-- `struct ts_tree`; the entries of `l1` are in `mm`. -/
structure TsTree where
  mm : MemCache
  upAux : MbNode Nat

/-- A zeroed tree after `ts_init`. -/
def tsInit : TsTree := ⟨⟨[], 0, 0, fun _ => .zero⟩, .empty⟩

/-! ### Inserting -/

/-- One turn of the loop of `ts_insert_lx`, for the entry `e`; `push` is the recursive call. -/
def insertLxEntry (push : MemCache → Ptr → Except Fault MemCache) (cidr nhi : Nat) (mm : MemCache) (p : Ptr) :
    Except Fault MemCache := do
  let e ← mm.read p
  if e.child then
    if e.cidr > cidr then .ok mm
    else
      let mm ← mm.write p (e.setCidr cidr)
      push mm (getEntry e.index)
  else
    if e.cidr > cidr then .ok mm else mm.write p ((e.setCidr cidr).setIndex nhi)

def tsInsertLx : Nat → MemCache → Ptr → Nat → Nat → Nat → Except Fault MemCache
  | 0, _, _, _, _, _ => .error .endless
  | turns + 1, mm, l1e, cidr, nhi, level =>
    forRange (fun i mm => insertLxEntry (fun mm ne => tsInsertLx turns mm ne cidr nhi (cidr + 8)) cidr nhi mm (l1e.add i))
      (1 <<< (level - cidr)) mm

/-- The block below the entry at `p` in `ts_insert_iter`: it is there, or it is allocated, and the prefix of the entry
pushed down to it. -/
def descend (turns : Nat) (mm : MemCache) (p : Ptr) : Except Fault (MemCache × Ptr) := do
  let e ← mm.read p
  if e.child then .ok (mm, getEntry e.index)
  else
    let (mm, tmpIndex) ← allocEntry mm
    let mm ← mm.write p ({ e with child := true }.setIndex tmpIndex)
    if e.cidr = 0 then .ok (mm, getEntry tmpIndex)
    else
      let mm ← tsInsertLx turns mm (getEntry tmpIndex) e.cidr e.index (e.cidr + 8)
      .ok (mm, getEntry tmpIndex)

def tsInsertIter : Nat → MemCache → Ptr → BitVec 32 → Nat → Nat → Nat → Nat → Except Fault MemCache
  | 0, _, _, _, _, _, _, _ => .error .endless
  | turns + 1, mm, p, ip, cidr, nhi, level, depth => do
    let (mm, ne) ← descend turns mm p
    let ne := ne.add (ip >>> 24).toNat
    if cidr ≤ 8 then tsInsertLx turns mm ne (cidr + depth * 8) nhi level
    else tsInsertIter turns mm ne (ip <<< 8) (cidr - 8) nhi (level + 8) (depth + 1)

/-- `ip & (0xffffffff << (LENGTH - cidr))`. -/
def maskIp (ip : BitVec 32) (cidr : Nat) : BitVec 32 := ip &&& (0xffffffff#32 <<< (32 - cidr))

/-- `ts_insert_prefix` and its return value. -/
def tsInsertPrefix (turns : Nat) (ts : TsTree) (ip : BitVec 32) (cidr nhi : Nat) : Except Fault (TsTree × Int) := do
  if nhi.testBit 25 then return (ts, -1)
  if cidr = 0 then return (ts, 0)
  let ip := maskIp ip cidr
  let l1e := Ptr.l1 (ip >>> 16).toNat
  let mm ←
    if cidr ≤ 16 then tsInsertLx turns ts.mm l1e cidr nhi 16
    else tsInsertIter turns ts.mm l1e (ip <<< 16) (cidr - 16) nhi 24 2
  let upAux ← insertAuxEntry ts.upAux ip cidr nhi
  return (⟨mm, upAux⟩, 0)

/-! ### Deleting -/

/-- The loop of `can_recycle` over the `n` entries from `ne + i` on. -/
def sameLoop (mm : MemCache) (ne : Ptr) (cidr index : Nat) : Nat → Nat → Except Fault Bool
  | 0, _ => .ok true
  | n + 1, i => do
    let e ← mm.read (ne.add i)
    if e.child || e.cidr ≠ cidr || e.index ≠ index then .ok false else sameLoop mm ne cidr index n (i + 1)

def canRecycle (mm : MemCache) (e : Entry) (level : Nat) : Except Fault Bool := do
  let ne := getEntry e.index
  let first ← mm.read ne
  if first.child then .ok false
  else if first.cidr > level then .ok false
  else sameLoop mm ne first.cidr first.index 255 1

def clearEntries (mm : MemCache) (e : Entry) : Except Fault MemCache :=
  forRange (fun i mm => mm.write ((getEntry e.index).add i) .zero) 256 mm

/-- The block below the entry at `p` is cleared and given back. -/
def recycle (mm : MemCache) (p : Ptr) : Except Fault MemCache := do
  let e ← mm.read p
  let mm ← clearEntries mm e
  .ok (deallocEntry mm e.index)

/-- One turn of the loop of `ts_delete_lx`, with `flag`; `push` is the recursive call. -/
def deleteLxEntry (push : MemCache → Ptr → Except Fault (MemCache × Bool)) (cidr overCidr overNhi : Nat)
    (s : MemCache × Bool) (p : Ptr) : Except Fault (MemCache × Bool) := do
  let (mm, flag) := s
  let e ← mm.read p
  if e.child then
    if e.cidr > cidr then .ok (mm, false)
    else
      let mm ← mm.write p (e.setCidr overCidr)
      let (mm, ret) ← push mm (getEntry e.index)
      if ret then
        let mm ← recycle mm p
        let e ← mm.read p
        let mm ← mm.write p ({ e with child := false }.setIndex overNhi)
        .ok (mm, flag)
      else .ok (mm, false)
  else
    if e.cidr > cidr then .ok (mm, false)
    else
      let mm ← mm.write p ((e.setCidr overCidr).setIndex overNhi)
      .ok (mm, flag)

def tsDeleteLx : Nat → MemCache → Ptr → Nat → Nat → Nat → Nat → Except Fault (MemCache × Bool)
  | 0, _, _, _, _, _, _ => .error .endless
  | turns + 1, mm, l1e, cidr, overCidr, overNhi, level =>
    forRange (fun i s =>
        deleteLxEntry (fun mm ne => tsDeleteLx turns mm ne cidr overCidr overNhi (cidr + 8)) cidr overCidr overNhi s
          (l1e.add i))
      (1 <<< (level - cidr)) (mm, true)

/-- `find_overlap_prefix`: `over_cidr` and `over_nhi`. -/
def findOverlapPrefix (upAux : MbNode Nat) (ip : BitVec 32) (cidr pushingLevel : Nat) : Except Fault (Nat × Nat) := do
  let (overCidr, nhiOver) ← orWild (detectOverlap upAux ip cidr pushingLevel)
  match nhiOver with
  -- a next hop of 0 is the null pointer, too
  | none | some 0 => .ok (0, 0)
  | some nhi => .ok (overCidr, nhi)

/-- The entry at `p` becomes a leaf and its block is recycled, if the call below it says so and the block allows it. -/
def collapse (mm : MemCache) (p : Ptr) (ret : Bool) (overCidr overNhi level : Nat) : Except Fault (MemCache × Bool) := do
  let e ← mm.read p
  let can ← if ret then canRecycle mm e level else .ok false
  if can then
    let mm ← recycle mm p
    let e ← mm.read p
    let mm ← mm.write p (({ e with child := false }.setIndex overNhi).setCidr overCidr)
    .ok (mm, true)
  else .ok (mm, false)

def tsDeleteIter : Nat → MemCache → MbNode Nat → Ptr → BitVec 32 → Nat → Nat → Nat → Except Fault (MemCache × Bool)
  | 0, _, _, _, _, _, _, _ => .error .endless
  | turns + 1, mm, upAux, p, ip, cidr, level, depth => do
    let (overCidr, overNhi) ← findOverlapPrefix upAux ip (cidr + 8 * depth) level
    if cidr > 8 then
      let e ← mm.read p
      let ne := (getEntry e.index).add ((ip <<< level) >>> 24).toNat
      let (mm, ret) ← tsDeleteIter turns mm upAux ne ip (cidr - 8) (level + 8) (depth + 1)
      collapse mm p ret overCidr overNhi level
    else tsDeleteLx turns mm p (cidr + 8 * depth) overCidr overNhi level

def tsDeletePrefix (turns : Nat) (ts : TsTree) (ip : BitVec 32) (cidr : Nat) : Except Fault TsTree := do
  if cidr = 0 then return ts
  let ip := maskIp ip cidr
  let l1e := Ptr.l1 (ip >>> 16).toNat
  let (overCidr, overNhi) ← findOverlapPrefix ts.upAux ip cidr 16
  let (mm, _) ←
    if cidr ≤ 16 then tsDeleteLx turns ts.mm l1e cidr overCidr overNhi 16
    else do
      let e ← ts.mm.read l1e
      let ne := (getEntry e.index).add ((ip <<< 16) >>> 24).toNat
      let (mm, ret) ← tsDeleteIter turns ts.mm ts.upAux ne ip (cidr - 16) 24 2
      -- here the block is deallocated before it is cleared, which comes to the same
      collapse mm l1e ret overCidr overNhi 16
  let upAux ← deleteAuxEntry ts.upAux ip cidr
  return ⟨mm, upAux⟩

/-! ### Searching -/

def searchLoop : Nat → MemCache → Ptr → BitVec 32 → Except Fault Nat
  | 0, _, _, _ => .error .endless
  | turns + 1, mm, p, ip => do
    let e ← mm.read p
    if e.child then searchLoop turns mm ((getEntry e.index).add (ip >>> 24).toNat) (ip <<< 8) else .ok e.index

def tsSearch (turns : Nat) (ts : TsTree) (ip : BitVec 32) : Except Fault Nat :=
  searchLoop turns ts.mm (.l1 (ip >>> 16).toNat) (ip <<< 16)

end StubProfile.Route
