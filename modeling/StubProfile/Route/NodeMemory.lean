import StubProfile.Lib.BlockHeap
import StubProfile.Route.Bitmap

/-!
# The memory of the tree bitmap

The functions of `bitmap.c` that change the trie, with the blocks they allocate and free.  The rules and the children of
a node are one block, allocated by `new_node`; `child_ptr` points behind the rules, which are counted in units of
`NODE_SIZE`.  The counters `mem` and `mem_destroy` are of the type `int`.

Erasing the pointers gives the nodes without memory; the functions then do what those on `MbNode` do.
-/

namespace StubProfile.Route

open BlockHeap

/-! ### Blocks of nodes -/

/-- `NODE_SIZE`, where pointers have 8 bytes. -/
def nodeSize : Nat := 16

def upRule (x : Nat) : Nat := (x * 8 + nodeSize - 1) / nodeSize

/-- The size in bytes of a block for `mbCnt` children and `resultCnt` rules. -/
def blockBytes (mbCnt resultCnt : Nat) : Nat := (mbCnt + upRule resultCnt) * nodeSize

/-- A pointer into a block; the offset is counted in nodes. -/
structure NodePtr where
  block : Nat
  offset : Int
deriving DecidableEq, Repr

def NodePtr.sub (ptr : NodePtr) (n : Nat) : NodePtr := { ptr with offset := ptr.offset - n }

/-- The blocks allocated, and the counters. -/
structure NodeMemory where
  heap : Heap
  mem : BitVec 32
  memDestroy : BitVec 32

def NodeMemory.start : NodeMemory := ⟨.empty, 0, 0⟩

/-- The library function `free`, on a pointer that is not null: it takes the start of a block in use. -/
def NodeMemory.free (m : NodeMemory) (ptr : NodePtr) : Option NodeMemory :=
  if ptr.offset = 0 then (m.heap.free ptr.block).map fun heap => { m with heap := heap } else none

/-- `new_node`; for no children and no rules the pointer is null. -/
def newNode (m : NodeMemory) (mbCnt resultCnt : Nat) : NodeMemory × Option NodePtr :=
  let size := blockBytes mbCnt resultCnt
  let mem := m.mem + BitVec.ofNat 32 size
  if size ≠ 0 then ({ m with heap := m.heap.alloc size, mem := mem }, some ⟨m.heap.next, upRule resultCnt⟩)
  else ({ m with mem := mem }, none)

def freeNode (m : NodeMemory) (ptr : NodePtr) (cnt : Nat) : Option NodeMemory :=
  (m.free ptr).map fun m => { m with mem := m.mem - BitVec.ofNat 32 (cnt * nodeSize) }

/-- The end of the functions that replace the block of a node: the old one is freed. -/
def freeOld (m : NodeMemory) (childPtr : Option NodePtr) (childNum ruleNum : Nat) : Option NodeMemory :=
  match childPtr with
  | some ptr => freeNode m (ptr.sub (upRule ruleNum)) (childNum + upRule ruleNum)
  | none => some m

/-! ### Nodes with their pointers -/

/-- `struct mb_node` with the block that `child_ptr` points into. -/
inductive MemNode (ν : Type) where
  | mk (external internal : BitVec 16) (childPtr : Option NodePtr) (rules : List ν) (children : List (MemNode ν))

variable {ν : Type}

namespace MemNode

def external : MemNode ν → BitVec 16
  | .mk external _ _ _ _ => external

def internal : MemNode ν → BitVec 16
  | .mk _ internal _ _ _ => internal

def childPtr : MemNode ν → Option NodePtr
  | .mk _ _ childPtr _ _ => childPtr

def rules : MemNode ν → List ν
  | .mk _ _ _ rules _ => rules

def children : MemNode ν → List (MemNode ν)
  | .mk _ _ _ _ children => children

def empty : MemNode ν := .mk 0 0 none [] []

def setChild (node : MemNode ν) (k : Nat) (child : MemNode ν) : MemNode ν :=
  .mk node.external node.internal node.childPtr node.rules (node.children.set k child)

def isEmpty (node : MemNode ν) : Bool := node.internal = 0 && node.external = 0

/-- The node without its pointers. -/
def erase : MemNode ν → MbNode ν
  | .mk external internal _ rules children => .mk external internal rules (children.map erase)

/-- The bytes of the blocks of all nodes, by their bitmaps. -/
def bytes : MemNode ν → Nat
  | .mk external internal _ _ children =>
    nodeSize * (popcount external + upRule (popcount internal)) + (children.map bytes).sum

/-! ### Inserting and deleting -/

def extendRule (m : NodeMemory) (node : MemNode ν) (pos : Nat) (nhi : ν) : Option (NodeMemory × MemNode ν) := do
  let childNum := countOnes node.external 16
  let ruleNum := countOnes node.internal 16 - 1
  let (m, n) := newNode m childNum (ruleNum + 1)
  let children ← sliceIf (childNum ≠ 0) node.children 0 childNum
  let before ← sliceIf (ruleNum ≠ 0) node.rules 0 (pos - 1)
  let behind ← sliceIf (ruleNum ≠ 0) node.rules (pos - 1) (ruleNum + 1 - pos)
  let m ← freeOld m node.childPtr childNum ruleNum
  if before.length + 1 = pos then some (m, .mk node.external node.internal n (before ++ nhi :: behind) children)
  else none

def extendChild (m : NodeMemory) (node : MemNode ν) (pos : Nat) : Option (NodeMemory × MemNode ν) := do
  let childNum := countOnes node.external 16 - 1
  let ruleNum := countOnes node.internal 16
  let (m, n) := newNode m (childNum + 1) ruleNum
  let rules ← sliceIf (ruleNum ≠ 0) node.rules 0 ruleNum
  let before ← sliceIf (childNum ≠ 0) node.children 0 pos
  let behind ← sliceIf (childNum ≠ 0) node.children pos (childNum - pos)
  let m ← freeOld m node.childPtr childNum ruleNum
  if before.length = pos then some (m, .mk node.external node.internal n rules (before ++ .empty :: behind)) else none

/-- `reduce_child`; without children it would ask `new_node` for a negative number of them. -/
def reduceChild (m : NodeMemory) (node : MemNode ν) (pos : Nat) : Option (NodeMemory × MemNode ν) := do
  let childNum := countOnes node.external 16
  let ruleNum := countOnes node.internal 16
  if childNum < 1 then none
  else
    let (m, n) := newNode m (childNum - 1) ruleNum
    let rules ← sliceIf (ruleNum ≠ 0) node.rules 0 ruleNum
    let before ← sliceIf (childNum > 1) node.children 0 pos
    let behind ← sliceIf (childNum > 1) node.children (pos + 1) (childNum - pos - 1)
    let m ← freeOld m node.childPtr childNum ruleNum
    some (m, .mk node.external node.internal n rules (before ++ behind))

def reduceRule (m : NodeMemory) (node : MemNode ν) (pos : Nat) : Option (NodeMemory × MemNode ν) := do
  let childNum := countOnes node.external 16
  let ruleNum := countOnes node.internal 16
  if ruleNum < 1 then some (m, node)
  else
    let (m, n) := newNode m childNum (ruleNum - 1)
    let children ← sliceIf (childNum ≠ 0) node.children 0 childNum
    let before ← sliceIf (ruleNum > 1) node.rules 0 (pos - 1)
    let behind ← sliceIf (ruleNum > 1) node.rules pos (ruleNum - pos)
    let m ← freeOld m node.childPtr childNum ruleNum
    some (m, .mk node.external node.internal n (before ++ behind) children)

def childFor (m : NodeMemory) (node : MemNode ν) (stride : Nat) : Option (NodeMemory × MemNode ν × Nat) :=
  let pos := countEnlBitmap stride
  if hasBit node.external pos then some (m, node, countOnes node.external pos)
  else
    let external := setBit node.external pos
    let k := countOnes external pos
    (extendChild m (.mk external node.internal node.childPtr node.rules node.children) k).map fun r => (r.1, r.2, k)

def insertEntry (nhi : ν) : Nat → BitVec 32 → NodeMemory → MemNode ν → Option (NodeMemory × MemNode ν)
  | cidr + 4, ip, m, node => do
    let (m, node, k) ← childFor m node (topStride ip)
    let child ← node.children[k]?
    let (m, child) ← insertEntry nhi cidr (ip <<< 4) m child
    some (m, node.setChild k child)
  | cidr, ip, m, node =>
    let pos := countInlBitmap (lastStride ip cidr) cidr
    if hasBit node.internal pos then
      let k := countOnes node.internal pos
      if k < node.rules.length then
        some (m, .mk node.external node.internal node.childPtr (node.rules.set k nhi) node.children)
      else none
    else
      let internal := setBit node.internal pos
      extendRule m (.mk node.external internal node.childPtr node.rules node.children) (countOnes internal pos + 1) nhi

/-- `delete_entry` with `update_nodes`; the last result is `node_need_to_del`. -/
def deleteEntry : Nat → BitVec 32 → NodeMemory → MemNode ν → Option (NodeMemory × MemNode ν × Bool)
  | cidr + 4, ip, m, node => do
    let pos := countEnlBitmap (topStride ip)
    let k := countOnes node.external pos
    let child ← node.children[k]?
    let (m, child, needToDel) ← deleteEntry cidr (ip <<< 4) m child
    let node := node.setChild k child
    if needToDel then
      let (m, node) ← reduceChild m node (countOnes node.external pos)
      let node : MemNode ν := .mk (clearBit node.external pos) node.internal node.childPtr node.rules node.children
      some (m, node, node.isEmpty)
    else some (m, node, node.isEmpty)
  | cidr, ip, m, node => do
    let pos := countInlBitmap (lastStride ip cidr) cidr
    let (m, node) ← reduceRule m node (countOnes node.internal pos + 1)
    let node : MemNode ν := .mk node.external (clearBit node.internal pos) node.childPtr node.rules node.children
    some (m, node, node.isEmpty)

/-! ### Destroying -/

/-- The loop of `destroy_subtrie` over the internal bitmap: the slots of the rules, which it sets to null, are there. -/
def rulesThere (node : MemNode ν) : Bool :=
  (List.range 4).all fun cidr => (List.range (1 <<< cidr)).all fun bit =>
    let pos := countInlBitmap bit cidr
    !hasBit node.internal pos || countOnes node.internal pos < node.rules.length

/-- `free(first)`, where `first` is `child_ptr` moved back over the rules. -/
def freeFirst (m : NodeMemory) (childPtr : Option NodePtr) (n : Nat) : Option NodeMemory :=
  match childPtr with
  | some ptr => m.free (ptr.sub n)
  | none => if n = 0 then some m else none

private theorem sizeOf_child_lt {node child : MemNode ν} {k : Nat} (h : node.children[k]? = some child) :
    sizeOf child < sizeOf node := by
  obtain ⟨external, internal, childPtr, rules, children⟩ := node
  have hmem : child ∈ children := List.mem_of_getElem? h
  have hlt := List.sizeOf_lt_of_mem hmem
  simp only [MemNode.mk.sizeOf_spec]
  omega

/-- `destroy_subtrie` where `destroy_nhi` is `NULL`.  The children are set to zero in a block that is freed in the end;
no child is visited twice, so this is not seen. -/
def destroySubtrie (m : NodeMemory) (node : MemNode ν) : Option (NodeMemory × MemNode ν) :=
  if rulesThere node then
    let below := (List.range 16).foldlM (fun m stride =>
      if hasBit node.external (countEnlBitmap stride) then
        match _h : node.children[countOnes node.external (countEnlBitmap stride)]? with
        | some next => (destroySubtrie m next).map (·.1)
        | none => none
      else some m) m
    below.bind fun m =>
      let cntRules := countOnes node.internal 16
      let memDestroy := m.memDestroy + BitVec.ofNat 32 (upRule cntRules * nodeSize)
      let memDestroy := memDestroy + BitVec.ofNat 32 (countOnes node.external 16 * nodeSize)
      (freeFirst { m with memDestroy := memDestroy } node.childPtr (upRule cntRules)).map fun m => (m, .empty)
  else none
termination_by node
decreasing_by exact sizeOf_child_lt _h

end MemNode

/-! ### The functions the route table calls -/

def insertAuxEntryMem (m : NodeMemory) (upAux : MemNode ν) (ip : BitVec 32) (cidr : Nat) (nhi : ν) :
    Except Fault (NodeMemory × MemNode ν) :=
  orWild (MemNode.insertEntry nhi cidr ip m upAux)

def deleteAuxEntryMem (m : NodeMemory) (upAux : MemNode ν) (ip : BitVec 32) (cidr : Nat) :
    Except Fault (NodeMemory × MemNode ν) :=
  orWild ((MemNode.deleteEntry cidr ip m upAux).map fun r => (r.1, r.2.1))

end StubProfile.Route
