import Mathlib.Algebra.Group.Nat.Defs
import Mathlib.Tactic.Common
import StubProfile.Lib.Enumeration

/-!
# The tree bitmap

The auxiliary trie of the route table (`bitmap.c`).  A node covers four bits of an address: bit `2 ^ len + v - 1` of
`internal` says that the node has a rule for the prefix of `len < 4` bits with the value `v`, and bit `s` of `external`
that it has a child for the four bits `s`.  The rules and the children stand in two arrays without gaps on the two
sides of `child_ptr`, the rules downwards; here they are two lists, which start at `child_ptr`.

The arrays are allocated anew on every change, and the parts that stay are copied.  A copy or an access outside of an
array makes the function `none`.  Allocations succeed.
-/

namespace StubProfile.Route

open Enumeration

/-- What ends a call: an access outside of an array or through a null pointer, or a recursion or loop that is not
over after the number of turns granted to it. -/
inductive Fault where
  | wild
  | endless
deriving DecidableEq, Repr

def orWild {α : Type} : Option α → Except Fault α
  | some a => .ok a
  | none => .error .wild

/-- `struct mb_node` with the arrays on the two sides of `child_ptr`. -/
inductive MbNode (ν : Type) where
  | mk (external internal : BitVec 16) (rules : List ν) (children : List (MbNode ν))

variable {ν : Type}

def MbNode.external : MbNode ν → BitVec 16
  | .mk external _ _ _ => external

def MbNode.internal : MbNode ν → BitVec 16
  | .mk _ internal _ _ => internal

def MbNode.rules : MbNode ν → List ν
  | .mk _ _ rules _ => rules

def MbNode.children : MbNode ν → List (MbNode ν)
  | .mk _ _ _ children => children

/-- A node of zeros, as `calloc` and `init_aux_trie` leave it. -/
def MbNode.empty : MbNode ν := .mk 0 0 [] []

def MbNode.setChild (node : MbNode ν) (k : Nat) (child : MbNode ν) : MbNode ν :=
  .mk node.external node.internal node.rules (node.children.set k child)

def MbNode.isEmpty (node : MbNode ν) : Bool := node.internal = 0 && node.external = 0

/-! ### Bitmaps -/

def popcount (b : BitVec 16) : Nat := (List.range 16).countP b.getLsbD

/-- `count_ones`: the shifted bitmap is cut to 16 bits. -/
def countOnes (bitmap : BitVec 16) (pos : Nat) : Nat := popcount (bitmap <<< (16 - pos))

def countInlBitmap (bit cidr : Nat) : Nat := 1 <<< cidr + bit - 1

def countEnlBitmap (bits : Nat) : Nat := bits

/-- The test `bitmap & (1 << pos)`. -/
def hasBit (bitmap : BitVec 16) (pos : Nat) : Bool := bitmap &&& (1#16 <<< pos) ≠ 0#16

def setBit (bitmap : BitVec 16) (pos : Nat) : BitVec 16 := bitmap ||| (1#16 <<< pos)

/-- `clear_bitmap`. -/
def clearBit (bitmap : BitVec 16) (pos : Nat) : BitVec 16 := bitmap &&& ~~~(1#16 <<< pos)

/-- The four bits of the address a node looks at. -/
def topStride (ip : BitVec 32) : Nat := (ip >>> 28).toNat

/-- `ip >> (LENGTH - cidr)` for `cidr < STRIDE`, as a `uint8_t`; the processor takes the shift count modulo 32. -/
def lastStride (ip : BitVec 32) (cidr : Nat) : Nat := (ip >>> ((32 - cidr) % 32)).toNat % 2 ^ 8

/-! ### Growing and shrinking the arrays -/

/-- `memcpy` of `len` elements from the index `start` on. -/
def slice {α : Type} (l : List α) (start len : Nat) : Option (List α) :=
  if start + len ≤ l.length then some ((l.drop start).take len) else none

/-- A copy that is made only if `c`. -/
def sliceIf {α : Type} (c : Bool) (l : List α) (start len : Nat) : Option (List α) :=
  if c then slice l start len else some []

/-- `extend_rule`, called with the bit of the new rule set already; `pos` counts from 1. -/
def extendRule (node : MbNode ν) (pos : Nat) (nhi : ν) : Option (MbNode ν) := do
  let childNum := countOnes node.external 16
  let ruleNum := countOnes node.internal 16 - 1
  let children ← sliceIf (childNum ≠ 0) node.children 0 childNum
  let before ← sliceIf (ruleNum ≠ 0) node.rules 0 (pos - 1)
  let behind ← sliceIf (ruleNum ≠ 0) node.rules (pos - 1) (ruleNum + 1 - pos)
  -- the new rule is number `pos` of the new array
  if before.length + 1 = pos then some (.mk node.external node.internal (before ++ nhi :: behind) children) else none

/-- `extend_child`, called with the bit of the new child set already; the new child is a node of zeros. -/
def extendChild (node : MbNode ν) (pos : Nat) : Option (MbNode ν) := do
  let childNum := countOnes node.external 16 - 1
  let ruleNum := countOnes node.internal 16
  let rules ← sliceIf (ruleNum ≠ 0) node.rules 0 ruleNum
  let before ← sliceIf (childNum ≠ 0) node.children 0 pos
  let behind ← sliceIf (childNum ≠ 0) node.children pos (childNum - pos)
  if before.length = pos then some (.mk node.external node.internal rules (before ++ .empty :: behind)) else none

/-- `reduce_child`, called with the bit of the child still set. -/
def reduceChild (node : MbNode ν) (pos : Nat) : Option (MbNode ν) := do
  let childNum := countOnes node.external 16
  let ruleNum := countOnes node.internal 16
  let rules ← sliceIf (ruleNum ≠ 0) node.rules 0 ruleNum
  let before ← sliceIf (childNum > 1) node.children 0 pos
  let behind ← sliceIf (childNum > 1) node.children (pos + 1) (childNum - pos - 1)
  some (.mk node.external node.internal rules (before ++ behind))

/-- `reduce_rule`, called with the bit of the rule still set; `pos` counts from 1. -/
def reduceRule (node : MbNode ν) (pos : Nat) : Option (MbNode ν) := do
  let childNum := countOnes node.external 16
  let ruleNum := countOnes node.internal 16
  if ruleNum < 1 then some node
  else
    let children ← sliceIf (childNum ≠ 0) node.children 0 childNum
    let before ← sliceIf (ruleNum > 1) node.rules 0 (pos - 1)
    let behind ← sliceIf (ruleNum > 1) node.rules pos (ruleNum - pos)
    some (.mk node.external node.internal (before ++ behind) children)

/-! ### Inserting and deleting -/

/-- The child for the bits `stride`, added if it is missing: the node with it, and its index. -/
def childFor (node : MbNode ν) (stride : Nat) : Option (MbNode ν × Nat) :=
  let pos := countEnlBitmap stride
  if hasBit node.external pos then some (node, countOnes node.external pos)
  else
    let external := setBit node.external pos
    let k := countOnes external pos
    (extendChild (.mk external node.internal node.rules node.children) k).map fun node => (node, k)

/-- `insert_entry`; the loop goes down by recursion on `cidr`. -/
def insertEntry (nhi : ν) : Nat → BitVec 32 → MbNode ν → Option (MbNode ν)
  | cidr + 4, ip, node => do
    let (node, k) ← childFor node (topStride ip)
    let child ← node.children[k]?
    let child ← insertEntry nhi cidr (ip <<< 4) child
    some (node.setChild k child)
  | cidr, ip, node =>
    let pos := countInlBitmap (lastStride ip cidr) cidr
    if hasBit node.internal pos then
      -- the rule is overwritten
      let k := countOnes node.internal pos
      if k < node.rules.length then some (.mk node.external node.internal (node.rules.set k nhi) node.children) else none
    else
      let internal := setBit node.internal pos
      extendRule (.mk node.external internal node.rules node.children) (countOnes internal pos + 1) nhi

/-- `delete_entry` with `update_nodes`, where `destroy_nhi` is `NULL`: down to the node of the rule, and back up, where
a node that has become empty is taken out of its parent.  The second result is `node_need_to_del`. -/
def deleteEntry : Nat → BitVec 32 → MbNode ν → Option (MbNode ν × Bool)
  | cidr + 4, ip, node => do
    let pos := countEnlBitmap (topStride ip)
    let k := countOnes node.external pos
    let child ← node.children[k]?
    let (child, needToDel) ← deleteEntry cidr (ip <<< 4) child
    let node := node.setChild k child
    if needToDel then
      let node ← reduceChild node (countOnes node.external pos)
      let node : MbNode ν := .mk (clearBit node.external pos) node.internal node.rules node.children
      some (node, node.isEmpty)
    else some (node, node.isEmpty)
  | cidr, ip, node => do
    let pos := countInlBitmap (lastStride ip cidr) cidr
    let node ← reduceRule node (countOnes node.internal pos + 1)
    let node : MbNode ν := .mk node.external (clearBit node.internal pos) node.rules node.children
    some (node, node.isEmpty)

/-- `prefix_exsit`, which the route table does not call. -/
def prefixExsit : Nat → BitVec 32 → MbNode ν → Option Bool
  | cidr + 4, ip, node =>
    let pos := countEnlBitmap (topStride ip)
    if hasBit node.external pos then
      (node.children[countOnes node.external pos]?).bind fun child => prefixExsit cidr (ip <<< 4) child
    else some false
  | cidr, ip, node => some (hasBit node.internal (countInlBitmap (lastStride ip cidr) cidr))

/-! ### Searching -/

/-- The loop of `tree_function` and `find_overlap_in_node`: the rule of the longest prefix of less than `i` bits, with
its length. -/
def ruleLoop (bitmap : BitVec 16) : Nat → Nat → Option (Nat × Nat)
  | 0, _ => none
  | i + 1, stride =>
    let stride := stride >>> 1
    let pos := countInlBitmap stride i
    if hasBit bitmap pos then some (pos, i) else ruleLoop bitmap i stride

def treeFunction (bitmap : BitVec 16) (stride : Nat) : Option Nat :=
  if bitmap = 0 then none else (ruleLoop bitmap 4 stride).map (·.1)

/-- `find_overlap_in_node` with `*mask` as a second result. -/
def findOverlapInNode (bitmap : BitVec 16) (stride limitInside : Nat) : Option (Nat × Nat) :=
  if bitmap = 0 then none else ruleLoop bitmap limitInside (stride >>> (4 - limitInside))

private theorem MbNode.sizeOf_child_lt {node child : MbNode ν} {k : Nat} (h : node.children[k]? = some child) :
    sizeOf child < sizeOf node := by
  obtain ⟨external, internal, rules, children⟩ := node
  have hmem : child ∈ children := List.mem_of_getElem? h
  have hlt := List.sizeOf_lt_of_mem hmem
  simp only [MbNode.mk.sizeOf_spec]
  omega

/-- The rule `do_search` has found when it leaves a node. -/
def searchNode (node : MbNode ν) (stride : Nat) (longest : Option ν) : Option (Option ν) :=
  match treeFunction node.internal stride with
  | some pos => (node.rules[countOnes node.internal pos]?).map some
  | none => some longest

/-- `do_search`, with the rule found so far. -/
def doSearch (node : MbNode ν) (ip : BitVec 32) (longest : Option ν) : Option (Option ν) :=
  let stride := topStride ip
  match searchNode node stride longest with
  | none => none
  | some longest =>
    if hasBit node.external (countEnlBitmap stride) then
      match _h : node.children[countOnes node.external (countEnlBitmap stride)]? with
      | some child => doSearch child (ip <<< 4) longest
      | none => none
    else some longest
termination_by node
decreasing_by exact MbNode.sizeOf_child_lt _h

/-- `LEVEL`, the number of entries of `lazy_mark`. -/
def lazyLevel : Nat := 5

/-- `do_search_lazy` from the node where it cannot go down any more: that node and then the marks, the last one first,
until one has a rule. -/
def replayMarks : List (MbNode ν × Nat) → Option (Option ν)
  | [] => some none
  | (node, stride) :: marks =>
    match treeFunction node.internal stride with
    | some pos => (node.rules[countOnes node.internal pos]?).map some
    | none => replayMarks marks

/-- `do_search_lazy` with an array of `level` marks; those set so far are in `marks`, the last one first. -/
def lazySearch (level : Nat) (node : MbNode ν) (ip : BitVec 32) (marks : List (MbNode ν × Nat)) : Option (Option ν) :=
  let stride := topStride ip
  if hasBit node.external (countEnlBitmap stride) then
    -- `lazy_mark[travel_depth]` is written
    if marks.length < level then
      match _h : node.children[countOnes node.external (countEnlBitmap stride)]? with
      | some child => lazySearch level child (ip <<< 4) ((node, stride) :: marks)
      | none => none
    else none
  else replayMarks ((node, stride) :: marks)
termination_by node
decreasing_by exact MbNode.sizeOf_child_lt _h

def doSearchLazy (node : MbNode ν) (ip : BitVec 32) : Option (Option ν) := lazySearch lazyLevel node ip []

/-- What `detect_overlap` has found when it leaves a node: `final_mask` with `*longest`, or `(0, none)`. -/
def overlapNode (orgLimit limit : Nat) (node : MbNode ν) (stride step : Nat) (found : Nat × Option ν) :
    Option (Nat × Option ν) :=
  match findOverlapInNode node.internal stride (if limit > 4 then 4 else limit) with
  | some (pos, mask) =>
    let currMask := step * 4 + mask
    if currMask < orgLimit then (node.rules[countOnes node.internal pos]?).map fun nhi => (currMask, some nhi)
    else some found
  | none => some found

/-- The loop of `detect_overlap`. -/
def detectLoop (orgLimit : Nat) (limit : Nat) (node : MbNode ν) (ip : BitVec 32) (step : Nat)
    (found : Nat × Option ν) : Option (Nat × Option ν) :=
  if limit > 0 then
    let stride := topStride ip
    match overlapNode orgLimit limit node stride step found with
    | none => none
    | some found =>
      if hasBit node.external (countEnlBitmap stride) then
        match node.children[countOnes node.external (countEnlBitmap stride)]? with
        | some child => detectLoop orgLimit (limit - 4) child (ip <<< 4) (step + 1) found
        | none => none
      else some found
  else some found
termination_by limit

/-- `detect_overlap`: the length of the prefix and its next hop, which is not stored when the length is 0. -/
def detectOverlap (aux : MbNode ν) (ip : BitVec 32) (cidr leafPushingBits : Nat) : Option (Nat × Option ν) :=
  let limit := if cidr > leafPushingBits then leafPushingBits + 1 else cidr
  (detectLoop limit limit aux ip 0 (0, none)).map fun found => if found.1 ≠ 0 then found else (0, none)

/-! ### Printing -/

/-- A call of `print_ptr`: the key and the next hop. -/
structure PrintCall (ν : Type) where
  ip : BitVec 32
  cidr : Nat
  nhi : ν
deriving DecidableEq, Repr

/-- `bits << (left_bits - cidr)`; the shift is undefined unless it is by less than 32 bits. -/
def shiftTo (bits leftBits cidr : Nat) : Option (BitVec 32) :=
  if cidr ≤ leftBits ∧ leftBits - cidr < 32 then some (BitVec.ofNat 32 bits <<< (leftBits - cidr)) else none

/-- One turn of the inner loop of `print_mb_node_iter` over the internal bitmap. -/
def printRule (node : MbNode ν) (ip : BitVec 32) (leftBits curCidr cidr bit : Nat) : Option (List (PrintCall ν)) :=
  let pos := countInlBitmap bit cidr
  if hasBit node.internal pos then
    match node.rules[countOnes node.internal pos]?, shiftTo bit leftBits cidr with
    | some nhi, some low => some [⟨ip ||| low, curCidr + cidr, nhi⟩]
    | _, _ => none
  else some []

def printRules (node : MbNode ν) (ip : BitVec 32) (leftBits curCidr : Nat) : Option (List (PrintCall ν)) :=
  collect (fun cidr => collect (printRule node ip leftBits curCidr cidr) (List.range (1 <<< cidr))) (List.range 4)

/-- `print_mb_node_iter`: the calls of `print_ptr`, in order. -/
def printMbNodeIter (node : MbNode ν) (ip : BitVec 32) (leftBits curCidr : Nat) : Option (List (PrintCall ν)) :=
  let below := collect (fun stride =>
    if hasBit node.external (countEnlBitmap stride) then
      match _h : node.children[countOnes node.external (countEnlBitmap stride)]? with
      | some next =>
        match shiftTo stride leftBits 4 with
        | some low => printMbNodeIter next (ip ||| low) (leftBits - 4) (curCidr + 4)
        | none => none
      | none => none
    else some []) (List.range 16)
  followedBy (printRules node ip leftBits curCidr) below
termination_by node
decreasing_by exact MbNode.sizeOf_child_lt _h

def printAuxPrefix (upAux : MbNode ν) : Option (List (PrintCall ν)) := printMbNodeIter upAux 0 32 0

/-! ### The functions the route table calls -/

def insertAuxEntry (upAux : MbNode ν) (ip : BitVec 32) (cidr : Nat) (nhi : ν) : Except Fault (MbNode ν) :=
  orWild (insertEntry nhi cidr ip upAux)

def deleteAuxEntry (upAux : MbNode ν) (ip : BitVec 32) (cidr : Nat) : Except Fault (MbNode ν) :=
  orWild ((deleteEntry cidr ip upAux).map (·.1))

end StubProfile.Route
