import Mathlib.Algebra.Group.Nat.Defs
import StubProfile.Links.Runs

/-!
# The memory manager of the trie

The memory manager of `mm.c`, which `bitmap.c` uses when `USE_MM` is defined.  Blocks are cut from one cube of memory.
In front of a block is a header with the number of nodes it has room for and a link; a block that is given back goes to
the list of the blocks with its number of nodes, and is handed out again from there.

The places of links are the heads of these lists and the headers, named by their offset in the cube; the header of a
block comes into being when the block is cut.  `calloc` succeeds.
-/

namespace StubProfile.Manager

open LinkRing Links

inductive Place where
  | head (i : Nat)
  | info (offset : Nat)
  /-- `LIST_POISON1` and `LIST_POISON2`. -/
  | poison (n : Nat)
deriving DecidableEq

def listPoison : Option Place × Option Place := (some (.poison 1), some (.poison 2))

def cubeSize : Nat := 1024 * 1024 * 64

/-- `sizeof(struct mem_info)` on x86_64. -/
def memInfoSize : Nat := 24

/-- `struct mem_manager`, with the contents of the headers and of the cube.  `left` is an offset in the cube. -/
structure MemManager where
  left : Nat
  space : Nat
  links : Memory Place
  nodeSize : Nat
  nodeNum : Nat → Nat
  bytes : Nat → UInt8

/-- The number of list heads. -/
def headCount (stride : Nat) : Nat := (1 <<< stride) * 2

/-- The loop that initialises the heads. -/
def initHeads (m : Memory Place) (heads : List Place) : Except LinkRing.Fault (Memory Place) :=
  heads.foldlM (fun m p => initListHead m (some p)) m

/-- The memory that `calloc` returns for the heads. -/
def callocHeads (count : Nat) : Memory Place where
  live
    | .head i => i < count
    | _ => false
  next _ := none
  prev _ := none

def initMemManager (stride nodeSize : Nat) : Except LinkRing.Fault MemManager := do
  let links ← initHeads (callocHeads (headCount stride)) ((List.range (headCount stride)).map .head)
  return ⟨0, cubeSize, links, nodeSize, fun _ => 0, fun _ => 0⟩

/-- `memset(&bytes[start], 0, len)`. -/
def zeroBytes (bytes : Nat → UInt8) (start len : Nat) : Nat → UInt8 := fun a =>
  if start ≤ a ∧ a < start + len then 0 else bytes a

/-- `alloc_node`; the second result is the offset of the block, `none` for `NULL`. -/
def allocNode (mm : MemManager) (nodeNum : Nat) : Except LinkRing.Fault (MemManager × Option Nat) :=
  if nodeNum = 0 then .ok (mm, none)
  else do
    let head := Place.head (nodeNum - 1)
    if ← listEmpty mm.links (some head) then
      let size := (nodeNum * mm.nodeSize + memInfoSize) % 2 ^ 32
      if mm.space < size then return (mm, none)
      else
        let p := mm.left
        let links ← initListHead (mm.links.alloc (.info p)) (some (.info p))
        return ({ mm with
          left := p + size
          space := mm.space - size
          links := links
          nodeNum := Function.update mm.nodeNum p nodeNum }, some (p + memInfoSize))
    else
      let pl ← mm.links.readNext (some head)
      let links ← listDel listPoison mm.links pl
      match pl with
      | some (.info p) =>
        let ret := p + memInfoSize
        return ({ mm with
          links := links
          bytes := zeroBytes mm.bytes ret (nodeNum * mm.nodeSize % 2 ^ 32) },
          some ret)
      -- an entry is a header
      | _ => .error .absent

/-- `dealloc_node`. -/
def deallocNode (mm : MemManager) (mem : Nat) : Except LinkRing.Fault MemManager := do
  let p := mem - memInfoSize
  let links ← listAdd mm.links (some (.info p)) (some (.head (mm.nodeNum p - 1)))
  return { mm with links := links }

end StubProfile.Manager
