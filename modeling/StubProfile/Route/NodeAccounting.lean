import Mathlib.Data.List.Perm.Basic
import StubProfile.Route.AuxTrie
import StubProfile.Route.NodeMemory

/-!
# Each block of the trie is freed once

Every part of a program owns some blocks; `Owns m l` says that the blocks in use are those of the list `l`, and that
the counter `mem` is their size.  A subtree owns the blocks of its nodes (`Owned`), and a function that changes it
leaves the blocks of everything else alone.

Through every sequence of insertions and of deletions of stored prefixes the trie with its memory does what the trie
without it does, and the blocks in use are those of its nodes; `destroy_subtrie` then frees all of them.
-/

namespace StubProfile.Route

open BlockHeap LongestPrefix Machine SparseArray
open scoped List

variable {ν : Type} {m : NodeMemory} {ptr : Option NodePtr} {l l' frame : List (Nat × Nat)} {childNum ruleNum : Nat}

/-! ### Allocating and freeing -/

/-- The block of a node. -/
def ownBlock (childPtr : Option NodePtr) (childNum ruleNum : Nat) : List (Nat × Nat) :=
  match childPtr with
  | some ptr => [(ptr.block, blockBytes childNum ruleNum)]
  | none => []

/-- `child_ptr` points behind the rules of the block; it is null if the block would have no bytes. -/
def PointsTo (childPtr : Option NodePtr) (childNum ruleNum : Nat) : Prop :=
  match childPtr with
  | some ptr => ptr.offset = upRule ruleNum ∧ blockBytes childNum ruleNum ≠ 0
  | none => blockBytes childNum ruleNum = 0

private theorem PointsTo.total_ownBlock (h : PointsTo ptr childNum ruleNum) :
    total (ownBlock ptr childNum ruleNum) = blockBytes childNum ruleNum := by
  cases ptr with
  | none => exact h.symm
  | some ptr => simp [ownBlock, total]

private theorem PointsTo.upRule_eq_zero (h : PointsTo none childNum ruleNum) : upRule ruleNum = 0 := by
  have hzero : (childNum + upRule ruleNum) * 16 = 0 := h
  omega

/-- The blocks in use are those of the list, and they are counted by `mem`; nothing has been destroyed. -/
structure Owns (m : NodeMemory) (l : List (Nat × Nat)) : Prop where
  live : m.heap.live ~ l
  mem : m.mem = BitVec.ofNat 32 (total l)
  memDestroy : m.memDestroy = 0#32

private theorem Owns.perm (h : Owns m l) (hl : l ~ l') : Owns m l' :=
  ⟨h.live.trans hl, by rw [h.mem, total_perm hl], h.memDestroy⟩

private theorem Owns.newNode (h : Owns m l) (childNum ruleNum : Nat) :
    ∃ m' n, newNode m childNum ruleNum = (m', n) ∧ PointsTo n childNum ruleNum ∧
      Owns m' (ownBlock n childNum ruleNum ++ l) := by
  by_cases hsize : blockBytes childNum ruleNum = 0
  · refine ⟨m, none, ?_, hsize, h⟩
    simp [Route.newNode, hsize]
  · refine ⟨_, some ⟨m.heap.next, upRule ruleNum⟩, if_pos hsize, ⟨rfl, hsize⟩, h.live.cons _, ?_, h.memDestroy⟩
    simp [h.mem, ownBlock, total, BitVec.ofNat_add, BitVec.add_comm]

private theorem free_back {ptr : NodePtr} {n size : Nat} (hptr : ptr.offset = n)
    (hlive : m.heap.live ~ (ptr.block, size) :: l) :
    ∃ heap, m.free (ptr.sub n) = some { m with heap := heap } ∧ heap.live ~ l := by
  obtain ⟨heap, hfree, hl⟩ := Heap.free_owned hlive
  refine ⟨heap, ?_, hl⟩
  simp [NodeMemory.free, NodePtr.sub, hptr, hfree]

private theorem Owns.freeOld (h : Owns m (ownBlock ptr childNum ruleNum ++ l)) (hptr : PointsTo ptr childNum ruleNum) :
    ∃ m', freeOld m ptr childNum ruleNum = some m' ∧ Owns m' l := by
  cases ptr with
  | none => exact ⟨m, rfl, h⟩
  | some ptr =>
    obtain ⟨heap, hfree, hl⟩ := free_back hptr.1 h.live
    refine ⟨⟨heap, m.mem - BitVec.ofNat 32 (blockBytes childNum ruleNum), m.memDestroy⟩, ?_, hl, ?_, h.memDestroy⟩
    · rw [Route.freeOld, freeNode, hfree]
      rfl
    · rw [h.mem, total_append, hptr.total_ownBlock, Nat.add_comm, BitVec.ofNat_add]
      exact BitVec.add_sub_cancel _ _

/-- A block is replaced by one of another size: the new one is there before the old one is given back. -/
private theorem Owns.reallocate (h : Owns m (ownBlock ptr childNum ruleNum ++ l)) (hptr : PointsTo ptr childNum ruleNum)
    {childNum' ruleNum' : Nat} {α : Type} {node : Option NodePtr → α} {call : Option (NodeMemory × α)}
    (hcall : call = (Route.freeOld (Route.newNode m childNum' ruleNum').1 ptr childNum ruleNum).bind fun m' =>
      some (m', node (Route.newNode m childNum' ruleNum').2)) :
    ∃ m' n, call = some (m', node n) ∧ PointsTo n childNum' ruleNum' ∧ Owns m' (ownBlock n childNum' ruleNum' ++ l) := by
  obtain ⟨m₁, n, hnew, hn, h₁⟩ := h.newNode childNum' ruleNum'
  obtain ⟨m', hfree, h'⟩ := (h₁.perm (List.perm_append_comm_assoc ..)).freeOld hptr
  refine ⟨m', n, ?_, hn, h'⟩
  rw [hcall, hnew, hfree]
  rfl

section Arrays

variable {external internal : BitVec 16} {rules : List ν} {children : List (MemNode ν)} {k : Nat}
  (h : Owns m (ownBlock ptr children.length rules.length ++ l)) (hptr : PointsTo ptr children.length rules.length)

include h hptr

private theorem MemNode.extendRule_spec (nhi : ν) (hr : countOnes internal 16 = rules.length + 1)
    (hc : countOnes external 16 = children.length) (hk : k ≤ rules.length) :
    ∃ m' n, extendRule m (.mk external internal ptr rules children) (k + 1) nhi =
        some (m', .mk external internal n (rules.insertIdx k nhi) children) ∧
      PointsTo n children.length (rules.length + 1) ∧ Owns m' (ownBlock n children.length (rules.length + 1) ++ l) := by
  obtain ⟨hbefore, hbehind, hlen, hnew⟩ := copies_insert nhi hk
  refine h.reallocate hptr ?_
  simp only [extendRule, MemNode.external, MemNode.internal, MemNode.childPtr, MemNode.rules, MemNode.children, hr, hc,
    Nat.add_sub_cancel, Nat.add_sub_add_right, sliceIf_all, hbefore, hbehind, Option.bind_eq_bind, Option.bind_some,
    hlen, hnew, if_true]

private theorem MemNode.extendChild_spec (hr : countOnes internal 16 = rules.length)
    (hc : countOnes external 16 = children.length + 1) (hk : k ≤ children.length) :
    ∃ m' n, extendChild m (.mk external internal ptr rules children) k =
        some (m', .mk external internal n rules (children.insertIdx k .empty)) ∧
      PointsTo n (children.length + 1) rules.length ∧ Owns m' (ownBlock n (children.length + 1) rules.length ++ l) := by
  obtain ⟨hbefore, hbehind, hlen, hnew⟩ := copies_insert MemNode.empty hk
  refine h.reallocate hptr ?_
  simp only [extendChild, MemNode.external, MemNode.internal, MemNode.childPtr, MemNode.rules, MemNode.children, hr, hc,
    Nat.add_sub_cancel, sliceIf_all, hbefore, hbehind, Option.bind_eq_bind, Option.bind_some, hlen, hnew,
    if_true]

private theorem MemNode.reduceRule_spec (hr : countOnes internal 16 = rules.length)
    (hc : countOnes external 16 = children.length) (hk : k < rules.length) :
    ∃ m' n, reduceRule m (.mk external internal ptr rules children) (k + 1) =
        some (m', .mk external internal n (rules.eraseIdx k) children) ∧
      PointsTo n children.length (rules.length - 1) ∧ Owns m' (ownBlock n children.length (rules.length - 1) ++ l) := by
  obtain ⟨hbefore, hbehind, hnew⟩ := copies_erase hk
  refine h.reallocate hptr ?_
  simp only [reduceRule, MemNode.external, MemNode.internal, MemNode.childPtr, MemNode.rules, MemNode.children, hr, hc,
    Nat.add_sub_cancel, show ¬rules.length < 1 by omega, if_false, sliceIf_all, hbefore, hbehind,
    Option.bind_eq_bind, Option.bind_some, hnew]

private theorem MemNode.reduceChild_spec (hr : countOnes internal 16 = rules.length)
    (hc : countOnes external 16 = children.length) (hk : k < children.length) :
    ∃ m' n, reduceChild m (.mk external internal ptr rules children) k =
        some (m', .mk external internal n rules (children.eraseIdx k)) ∧
      PointsTo n (children.length - 1) rules.length ∧ Owns m' (ownBlock n (children.length - 1) rules.length ++ l) := by
  obtain ⟨hbefore, hbehind, hnew⟩ := copies_erase hk
  refine h.reallocate hptr ?_
  simp only [reduceChild, MemNode.external, MemNode.internal, MemNode.childPtr, MemNode.rules, MemNode.children, hr, hc,
    Nat.sub_sub, show ¬children.length < 1 by omega, if_false, sliceIf_all, hbefore, hbehind,
    Option.bind_eq_bind, Option.bind_some, hnew]

end Arrays

/-! ### The blocks of a subtree -/

namespace MemNode

/-- The blocks of the node and of all nodes below it. -/
def blocks : MemNode ν → List (Nat × Nat)
  | .mk _ _ childPtr rules children => ownBlock childPtr children.length rules.length ++ children.flatMap blocks

/-- The arrays are as long as the bitmaps say, and the pointers point to them. -/
inductive Sound : MemNode ν → Prop
  | mk {external internal : BitVec 16} {childPtr : Option NodePtr} {rules : List ν} {children : List (MemNode ν)}
      (rules_length : rules.length = popcount internal) (children_length : children.length = popcount external)
      (points : PointsTo childPtr children.length rules.length)
      (below : ∀ child ∈ children, child.Sound) : Sound (.mk external internal childPtr rules children)

private theorem sound_empty : (empty : MemNode ν).Sound :=
  .mk rfl rfl (show blockBytes 0 0 = 0 from rfl) (by simp)

private theorem blocks_empty : (empty : MemNode ν).blocks = [] := by simp [empty, blocks, ownBlock]

private theorem erase_empty : (empty : MemNode ν).erase = .empty := by simp [empty, erase, MbNode.empty]

private theorem isEmpty_erase (node : MemNode ν) : node.erase.isEmpty = node.isEmpty := by
  obtain ⟨external, internal, childPtr, rules, children⟩ := node
  rw [erase]
  rfl

private theorem external_erase (node : MemNode ν) : node.erase.external = node.external := by
  obtain ⟨external, internal, childPtr, rules, children⟩ := node
  rw [erase]
  rfl

private theorem erase_setExternal (node : MemNode ν) (external : BitVec 16) :
    (MemNode.mk external node.internal node.childPtr node.rules node.children).erase =
      .mk external node.erase.internal node.erase.rules node.erase.children := by
  obtain ⟨_, internal, childPtr, rules, children⟩ := node
  rw [erase, erase]
  rfl

private theorem erase_setChild (node : MemNode ν) (k : Nat) (child : MemNode ν) :
    (node.setChild k child).erase = node.erase.setChild k child.erase := by
  obtain ⟨external, internal, childPtr, rules, children⟩ := node
  simp only [setChild, erase, MemNode.external, MemNode.internal, MemNode.childPtr, MemNode.rules, MemNode.children,
    List.map_set]
  rfl

private theorem children_setChild {node child : MemNode ν} {k : Nat} (h : node.children[k]? = some child)
    (child' : MemNode ν) : (node.setChild k child').children[k]? = some child' :=
  List.getElem?_set_self (List.getElem?_eq_some_iff.1 h).1

private theorem external_setChild (node : MemNode ν) (k : Nat) (child : MemNode ν) :
    (node.setChild k child).external = node.external := rfl

private theorem children_erase {node child : MemNode ν} {k : Nat} (h : node.children[k]? = some child) :
    node.erase.children[k]? = some child.erase := by
  obtain ⟨external, internal, childPtr, rules, children⟩ := node
  rw [erase]
  exact (List.getElem?_map ..).trans (congrArg _ h)

private theorem Sound.blocks_of_isEmpty {node : MemNode ν} (hsound : node.Sound) (h : node.isEmpty = true) :
    node.blocks = [] := by
  obtain @⟨external, internal, childPtr, rules, children, hr, hc, hptr, -⟩ := hsound
  rw [isEmpty, Bool.and_eq_true, decide_eq_true_iff, decide_eq_true_iff] at h
  obtain ⟨rfl, rfl⟩ : internal = 0 ∧ external = 0 := h
  obtain rfl : rules = [] := List.length_eq_zero_iff.1 hr
  obtain rfl : children = [] := List.length_eq_zero_iff.1 hc
  cases childPtr with
  | none => exact blocks_empty
  | some ptr => exact absurd (show blockBytes 0 0 = 0 from rfl) hptr.2

private theorem Sound.child_eq {node : MemNode ν} (h : node.Sound) {s : Nat} (hs : s < 16) :
    node.erase.child s = none ∨ ∃ child, node.external.getLsbD s = true ∧
      node.children[countOnes node.external s]? = some child ∧ node.erase.child s = some child.erase := by
  obtain ⟨-, hc, -, -⟩ := h
  rw [erase, MbNode.child, MbNode.external, MbNode.children, lookup_map]
  obtain ⟨-, hnone⟩ | ⟨child, hbit, hget, hsome⟩ := lookup_cases hc hs
  · exact .inl (by rw [hnone, Option.map_none])
  · exact .inr ⟨child, hbit, hget, by rw [hsome, Option.map_some]⟩

/-- The counters of the bitmaps are the sizes of the blocks. -/
private theorem Sound.total_blocks {node : MemNode ν} (h : node.Sound) : total node.blocks = node.bytes := by
  induction h with
  | @mk external internal childPtr rules children hr hc hptr below ih =>
    rw [blocks, bytes, total_append, total_flatMap, hptr.total_ownBlock, List.map_congr_left ih, hr, hc, blockBytes,
      Nat.mul_comm]

end MemNode

/-- The memory has the subtree, and besides it the blocks of `frame`. -/
structure Owned (m : NodeMemory) (node : MemNode ν) (frame : List (Nat × Nat)) : Prop where
  sound : node.Sound
  owns : Owns m (node.blocks ++ frame)

/-- A node is owned with its block, of `childNum` children and `ruleNum` rules, and with what is below it. -/
private theorem owned_mk {external internal : BitVec 16} {rules : List ν} {children : List (MemNode ν)}
    (hr : rules.length = popcount internal) (hc : children.length = popcount external)
    (below : ∀ child ∈ children, child.Sound) (hchildNum : children.length = childNum)
    (hruleNum : rules.length = ruleNum) (hptr : PointsTo ptr childNum ruleNum)
    (howns : Owns m (ownBlock ptr childNum ruleNum ++ (l ++ frame))) (hl : l ~ children.flatMap MemNode.blocks) :
    Owned m (.mk external internal ptr rules children) frame := by
  subst hchildNum hruleNum
  refine ⟨.mk hr hc hptr below, ?_⟩
  rw [MemNode.blocks, List.append_assoc]
  exact howns.perm ((hl.append_right frame).append_left _)

/-- A child is owned together with the rest of the node, and can be replaced by whatever is owned in its place. -/
private theorem Owned.focus {node child : MemNode ν} {k : Nat} (h : Owned m node frame)
    (hget : node.children[k]? = some child) :
    ∃ frame', Owned m child frame' ∧ ∀ m' child', Owned m' child' frame' → Owned m' (node.setChild k child') frame := by
  obtain ⟨external, internal, ptr, rules, children⟩ := node
  obtain ⟨⟨hr, hc, hptr, below⟩, howns⟩ := h
  obtain ⟨hk, hchild⟩ : ∃ hk : k < children.length, children[k] = child := List.getElem?_eq_some_iff.1 hget
  have hset : ∀ child' : MemNode ν, (children.set k child').flatMap MemNode.blocks ~
      child'.blocks ++ (children.eraseIdx k).flatMap MemNode.blocks := fun child' =>
    (List.set_perm_cons_eraseIdx hk child').flatMap_right MemNode.blocks
  refine ⟨ownBlock ptr children.length rules.length ++ ((children.eraseIdx k).flatMap MemNode.blocks ++ frame),
    ⟨below _ (hchild ▸ List.getElem_mem hk), howns.perm ?_⟩, fun m' child' h' => ?_⟩
  · have hperm := hset child
    rw [← hchild, List.set_getElem_self, hchild] at hperm
    rw [MemNode.blocks, List.append_assoc]
    refine ((hperm.append_right frame).append_left _).trans ?_
    rw [List.append_assoc]
    exact List.perm_append_comm_assoc ..
  · have howns' := h'.owns.perm (List.perm_append_comm_assoc ..)
    rw [← List.append_assoc child'.blocks] at howns'
    refine owned_mk hr ((List.length_set ..).trans hc) (fun c hmem => ?_) (List.length_set ..) rfl hptr howns'
      (hset child').symm
    obtain hmem | rfl := List.mem_or_eq_of_mem_set hmem
    · exact below c hmem
    · exact h'.sound

/-! ### Inserting -/

variable {node : MemNode ν} {ip : BitVec 32} {cidr : Nat}

/-- Going down: the child is there, or the block of the node gets room for a new one. -/
private theorem Owned.childFor (h : Owned m node frame) {s : Nat} (hs : s < 16) :
    ∃ m' node' k child, node.childFor m s = some (m', node', k) ∧ Route.childFor node.erase s = some (node'.erase, k) ∧
      node'.children[k]? = some child ∧ Owned m' node' frame := by
  obtain ⟨external, internal, ptr, rules, children⟩ := node
  obtain ⟨⟨hr, hc, hptr, below⟩, howns⟩ := h
  obtain ⟨hbit, -⟩ | ⟨child, hbit, hget, -⟩ := lookup_cases hc hs
  case inr =>
    refine ⟨m, .mk external internal ptr rules children, countOnes external s, child, ?_, ?_, hget,
      ⟨.mk hr hc hptr below, howns⟩⟩
    · simp [MemNode.childFor, countEnlBitmap, hasBit_eq, MemNode.external, hbit]
    · simp [Route.childFor, countEnlBitmap, hasBit_eq, MemNode.erase, MbNode.external, hbit]
  case inl =>
    have hle := rank_le_length hc hs
    have hr' : countOnes internal 16 = rules.length := by rw [countOnes_all, hr]
    rw [MemNode.blocks, List.append_assoc] at howns
    obtain ⟨m', n, hext, hptr', howns'⟩ :=
      MemNode.extendChild_spec howns hptr hr' (countOnes_setBit_all hc hs hbit) hle
    refine ⟨m', .mk (setBit external s) internal n rules (children.insertIdx (rank external.getLsbD s) .empty),
      rank external.getLsbD s, .empty, ?_, ?_, ?_, ?_⟩
    · simp only [MemNode.childFor, countEnlBitmap, hasBit_eq, MemNode.external, MemNode.internal, MemNode.childPtr,
        MemNode.rules, MemNode.children]
      rw [hbit, if_neg (by simp), countOnes_setBit hs hbit, hext]
      rfl
    · have hc' : (children.map MemNode.erase).length = popcount external := (List.length_map _).trans hc
      rw [MemNode.erase, MemNode.erase, List.map_insertIdx, MemNode.erase_empty]
      simp only [Route.childFor, countEnlBitmap, hasBit_eq, MbNode.external, MbNode.internal, MbNode.rules,
        MbNode.children]
      rw [hbit, if_neg (by simp), countOnes_setBit hs hbit,
        extendChild_eq hr' (countOnes_setBit_all hc' hs hbit) (rank_le_length hc' hs)]
      rfl
    · exact List.getElem?_insertIdx_self.trans (by simp [hle])
    · have hperm := (List.perm_insertIdx MemNode.empty children hle).flatMap_right MemNode.blocks
      rw [List.flatMap_cons, MemNode.blocks_empty, List.nil_append] at hperm
      refine owned_mk hr (length_setBit hc hs hbit _) (fun c hmem => ?_) (List.length_insertIdx_of_le_length hle _) rfl
        hptr' howns' hperm.symm
      obtain rfl | hmem := (List.mem_insertIdx hle).1 hmem
      · exact MemNode.sound_empty
      · exact below c hmem

private theorem MemNode.insertEntry_of_lt (nhi : ν) (hlt : cidr < 4) :
    insertEntry nhi cidr ip m node =
      let pos := countInlBitmap (lastStride ip cidr) cidr
      if hasBit node.internal pos then
        let k := countOnes node.internal pos
        if k < node.rules.length then
          some (m, .mk node.external node.internal node.childPtr (node.rules.set k nhi) node.children)
        else none
      else
        let internal := setBit node.internal pos
        extendRule m (.mk node.external internal node.childPtr node.rules node.children) (countOnes internal pos + 1)
          nhi := by
  match cidr, hlt with
  | 0, _ | 1, _ | 2, _ | 3, _ => rfl

private theorem Owned.insertRule (h : Owned m node frame) (nhi : ν) (hmask : Masked ip cidr) (hlt : cidr < 4) :
    ∃ m' node', node.insertEntry nhi cidr ip m = some (m', node') ∧
      Route.insertEntry nhi cidr ip node.erase = some node'.erase ∧ Owned m' node' frame := by
  rw [MemNode.insertEntry_of_lt nhi hlt, insertEntry_of_lt nhi hlt, lastStride_eq hmask hlt]
  have hpos := countInlBitmap_lt hlt (topBits_lt ip (show cidr ≤ 32 by omega))
  generalize countInlBitmap (topBits ip cidr) cidr = pos at hpos
  have hpos' : pos < 16 := by omega
  obtain ⟨external, internal, ptr, rules, children⟩ := node
  obtain ⟨⟨hr, hc, hptr, below⟩, howns⟩ := h
  rw [MemNode.blocks, List.append_assoc] at howns
  simp only [hasBit_eq, MemNode.erase, MemNode.external, MemNode.internal, MemNode.childPtr, MemNode.rules,
    MemNode.children, MbNode.external, MbNode.internal, MbNode.rules, MbNode.children]
  cases hbit : internal.getLsbD pos with
  | true =>
    have hk := rank_lt_length hr hpos' hbit
    refine ⟨m, .mk external internal ptr (rules.set (rank internal.getLsbD pos) nhi) children, ?_, ?_, ?_⟩
    · simp [countOnes_eq internal (show pos ≤ 16 by omega), hk]
    · simp [countOnes_eq internal (show pos ≤ 16 by omega), hk, MemNode.erase]
    · exact owned_mk ((List.length_set ..).trans hr) hc below rfl (List.length_set ..) hptr howns (.refl _)
  | false =>
    have hle := rank_le_length hr hpos'
    have hc' : countOnes external 16 = children.length := by rw [countOnes_all, hc]
    obtain ⟨m', n, hext, hptr', howns'⟩ :=
      MemNode.extendRule_spec howns hptr nhi (countOnes_setBit_all hr hpos' hbit) hc' hle
    refine ⟨m', .mk external (setBit internal pos) n (rules.insertIdx (rank internal.getLsbD pos) nhi) children,
      ?_, ?_, ?_⟩
    · rw [if_neg (by simp), countOnes_setBit hpos' hbit, hext]
    · rw [if_neg (by simp), countOnes_setBit hpos' hbit, extendRule_eq nhi (countOnes_setBit_all hr hpos' hbit)
        (by rw [hc', List.length_map]) hle, MemNode.erase]
    · exact owned_mk (length_setBit hr hpos' hbit nhi) hc below rfl (List.length_insertIdx_of_le_length hle _) hptr'
        howns' (.refl _)

private theorem Owned.insertEntry (h : Owned m node frame) (nhi : ν) (hmask : Masked ip cidr) (hcidr : cidr ≤ 32) :
    ∃ m' node', node.insertEntry nhi cidr ip m = some (m', node') ∧
      Route.insertEntry nhi cidr ip node.erase = some node'.erase ∧ Owned m' node' frame := by
  induction cidr using stride_induct generalizing m node ip frame with
  | last cidr hlt => exact h.insertRule nhi hmask hlt
  | down c ih =>
    obtain ⟨m₁, node₁, k, child, hdown, hdown', hget, h₁⟩ := h.childFor (topStride_lt ip)
    -- the rest of the node is in the frame of the call below
    obtain ⟨frame', hchild, hput⟩ := h₁.focus hget
    obtain ⟨m', child', hins, hins', h'⟩ := ih hchild (hmask.shiftLeft hcidr) (by omega)
    refine ⟨m', node₁.setChild k child', ?_, ?_, hput m' child' h'⟩
    · simp [MemNode.insertEntry, hdown, hget, hins]
    · simp [Route.insertEntry, hdown', MemNode.children_erase hget, hins', MemNode.erase_setChild]

/-! ### Deleting -/

private theorem MemNode.deleteEntry_of_lt (hlt : cidr < 4) :
    deleteEntry cidr ip m node =
      let pos := countInlBitmap (lastStride ip cidr) cidr
      (reduceRule m node (countOnes node.internal pos + 1)).bind fun (m, node) =>
        let node : MemNode ν := .mk node.external (clearBit node.internal pos) node.childPtr node.rules node.children
        some (m, node, node.isEmpty) := by
  match cidr, hlt with
  | 0, _ | 1, _ | 2, _ | 3, _ => rfl

private theorem Owned.deleteRule (h : Owned m node frame) (hmask : Masked ip cidr) (hlt : cidr < 4)
    (hsome : node.erase.rule (countInlBitmap (topBits ip cidr) cidr) ≠ none) :
    ∃ m' node', node.deleteEntry cidr ip m = some (m', node', node'.isEmpty) ∧
      Route.deleteEntry cidr ip node.erase = some (node'.erase, node'.isEmpty) ∧ Owned m' node' frame := by
  rw [MemNode.deleteEntry_of_lt hlt, deleteEntry_of_lt hlt, lastStride_eq hmask hlt]
  have hpos := countInlBitmap_lt hlt (topBits_lt ip (show cidr ≤ 32 by omega))
  generalize countInlBitmap (topBits ip cidr) cidr = pos at hpos hsome
  have hpos' : pos < 16 := by omega
  obtain ⟨external, internal, ptr, rules, children⟩ := node
  obtain ⟨⟨hr, hc, hptr, below⟩, howns⟩ := h
  rw [MemNode.blocks, List.append_assoc] at howns
  rw [MemNode.erase] at hsome ⊢
  obtain ⟨-, hnone⟩ | ⟨-, hbit, -, -⟩ := lookup_cases hr hpos'
  · exact absurd hnone hsome
  · have hk := rank_lt_length hr hpos' hbit
    have hr' : countOnes internal 16 = rules.length := by rw [countOnes_all, hr]
    have hc' : countOnes external 16 = children.length := by rw [countOnes_all, hc]
    obtain ⟨m', n, hred, hptr', howns'⟩ := MemNode.reduceRule_spec howns hptr hr' hc' hk
    refine ⟨m', .mk external (clearBit internal pos) n (rules.eraseIdx (rank internal.getLsbD pos)) children,
      ?_, ?_, ?_⟩
    · simp only [MemNode.internal]
      rw [countOnes_eq _ (by omega), hred]
      rfl
    · simp only [MbNode.internal]
      rw [countOnes_eq _ (by omega), reduceRule_eq hr' (by rw [hc', List.length_map]) hk, MemNode.erase]
      rfl
    · exact owned_mk (length_clearBit hr hpos' hbit) hc below rfl (List.length_eraseIdx_of_lt hk) hptr' howns' (.refl _)

/-- A child without blocks is taken out. -/
private theorem Owned.reduceChild (h : Owned m node frame) {child : MemNode ν} {s : Nat} (hs : s < 16)
    (hbit : node.external.getLsbD s = true) (hget : node.children[countOnes node.external s]? = some child)
    (hempty : child.blocks = []) :
    ∃ m' node', node.reduceChild m (countOnes node.external s) = some (m', node') ∧
      Route.reduceChild node.erase (countOnes node.external s) = some node'.erase ∧
      Owned m' (.mk (clearBit node'.external s) node'.internal node'.childPtr node'.rules node'.children) frame := by
  obtain ⟨external, internal, ptr, rules, children⟩ := node
  obtain ⟨⟨hr, hc, hptr, below⟩, howns⟩ := h
  simp only [MemNode.external, MemNode.children] at hbit hget ⊢
  rw [countOnes_eq _ (by omega)] at hget ⊢
  obtain ⟨hk, hchild⟩ := List.getElem?_eq_some_iff.1 hget
  have hr' : countOnes internal 16 = rules.length := by rw [countOnes_all, hr]
  have hc' : countOnes external 16 = children.length := by rw [countOnes_all, hc]
  rw [MemNode.blocks, List.append_assoc] at howns
  obtain ⟨m', n, hred, hptr', howns'⟩ := MemNode.reduceChild_spec howns hptr hr' hc' hk
  refine ⟨m', .mk external internal n rules (children.eraseIdx (rank external.getLsbD s)), hred, ?_, ?_⟩
  · rw [MemNode.erase, MemNode.erase, reduceChild_eq hr' (by rw [hc', List.length_map]) (by rwa [List.length_map]),
      List.eraseIdx_map]
  · have hperm := (List.getElem_cons_eraseIdx_perm hk).flatMap_right MemNode.blocks
    rw [List.flatMap_cons, hchild, hempty, List.nil_append] at hperm
    exact owned_mk hr (length_clearBit hc hs hbit) (fun c hmem => below c (List.mem_of_mem_eraseIdx hmem))
      (List.length_eraseIdx_of_lt hk) rfl hptr' howns' hperm.symm

private theorem Owned.deleteEntry (h : Owned m node frame) (hmask : Masked ip cidr) (hcidr : cidr ≤ 32)
    (hsome : node.erase.toTable cidr (topBits ip cidr) ≠ none) :
    ∃ m' node', node.deleteEntry cidr ip m = some (m', node', node'.isEmpty) ∧
      Route.deleteEntry cidr ip node.erase = some (node'.erase, node'.isEmpty) ∧ Owned m' node' frame := by
  induction cidr using stride_induct generalizing m node ip frame with
  | last cidr hlt =>
    rw [MbNode.toTable_of_lt hlt] at hsome
    exact h.deleteRule hmask hlt hsome
  | down c ih =>
    have hs := topStride_lt ip
    rw [MbNode.toTable_topBits hcidr] at hsome
    obtain hnone | ⟨child, hbit, hget, hchild⟩ := h.sound.child_eq hs
    · rw [hnone] at hsome
      exact absurd rfl hsome
    · rw [hchild] at hsome
      obtain ⟨frame', h₁, hput⟩ := h.focus hget
      obtain ⟨m₁, child', hdel, hdel', h₂⟩ := ih h₁ (hmask.shiftLeft hcidr) (by omega) hsome
      have h₃ := hput m₁ child' h₂
      have hget' := MemNode.children_erase hget
      have hext : node.erase.external = node.external := MemNode.external_erase node
      cases hempty : child'.isEmpty with
      | false =>
        refine ⟨m₁, node.setChild (countOnes node.external (topStride ip)) child', ?_, ?_, h₃⟩
        · simp [MemNode.deleteEntry, countEnlBitmap, hget, hdel, hempty]
        · simp [Route.deleteEntry, countEnlBitmap, hext, hget', hdel', hempty, ← MemNode.erase_setChild,
            MemNode.isEmpty_erase]
      | true =>
        have hget₃ := MemNode.children_setChild hget child'
        obtain ⟨m', node', hred, hred', h'⟩ := h₃.reduceChild hs hbit hget₃ (h₂.sound.blocks_of_isEmpty hempty)
        rw [MemNode.external_setChild] at hred hred'
        refine ⟨m', _, ?_, ?_, h'⟩
        · simp [MemNode.deleteEntry, countEnlBitmap, hget, hdel, hempty, MemNode.external_setChild, hred]
        · have hext₃ : (node.erase.setChild (countOnes node.external (topStride ip)) child'.erase).external =
            node.external := hext
          rw [MemNode.erase_setChild] at hred'
          simp [Route.deleteEntry, countEnlBitmap, hext, hget', hdel', hempty, hext₃, hred', MemNode.erase_setExternal,
            ← MemNode.isEmpty_erase, MemNode.external_erase]

/-! ### Destroying -/

namespace MemNode

private theorem Sound.length_rules (h : node.Sound) : node.rules.length = popcount node.internal := by
  obtain ⟨hr, -, -, -⟩ := h
  exact hr

private theorem Sound.length_children (h : node.Sound) : node.children.length = popcount node.external := by
  obtain ⟨-, hc, -, -⟩ := h
  exact hc

private theorem Sound.pointsTo (h : node.Sound) : PointsTo node.childPtr node.children.length node.rules.length := by
  obtain ⟨-, -, hptr, -⟩ := h
  exact hptr

private theorem Sound.rulesThere (h : node.Sound) : node.rulesThere = true := by
  simp only [MemNode.rulesThere, List.all_eq_true, List.mem_range, Nat.one_shiftLeft, Bool.or_eq_true,
    Bool.not_eq_true', decide_eq_true_eq]
  intro len hlen bit hbit
  have hpos := countInlBitmap_lt hlen hbit
  rw [hasBit_eq, countOnes_eq _ (by omega)]
  cases hset : node.internal.getLsbD (countInlBitmap bit len) with
  | false => exact .inl rfl
  | true => exact .inr (rank_lt_length h.length_rules (by omega) hset)

/-- The end of `destroy_subtrie`: the block is counted and freed. -/
def destroyBlock (node : MemNode ν) (m : NodeMemory) : Option NodeMemory :=
  let memDestroy := m.memDestroy + BitVec.ofNat 32 (upRule (popcount node.internal) * nodeSize)
  let memDestroy := memDestroy + BitVec.ofNat 32 (popcount node.external * nodeSize)
  freeFirst { m with memDestroy := memDestroy } node.childPtr (upRule (popcount node.internal))

/-- `destroy_subtrie` goes through the children in order. -/
private theorem Sound.destroySubtrie_eq (h : node.Sound) (m : NodeMemory) :
    node.destroySubtrie m =
      (node.children.foldlM (fun m child => (destroySubtrie m child).map (·.1)) m).bind fun m =>
        (node.destroyBlock m).map fun m => (m, .empty) := by
  rw [destroySubtrie, if_pos h.rulesThere]
  simp only [countOnes_all, countEnlBitmap, hasBit_eq]
  congr 1
  refine foldlM_positions h.length_children ?_ ?_ m
  · intro i hi child m hbit hget
    rw [← countOnes_eq _ (by omega)] at hget
    rw [if_pos hbit]
    split
    next next hnext =>
      cases hget.symm.trans hnext
      rfl
    next hnext => cases hget.symm.trans hnext
  · intro i hi m hbit
    simp [hbit]

private theorem freeFirst_spec (hptr : PointsTo ptr childNum ruleNum)
    (hlive : m.heap.live ~ ownBlock ptr childNum ruleNum ++ frame) :
    ∃ heap, freeFirst m ptr (upRule ruleNum) = some { m with heap := heap } ∧ heap.live ~ frame := by
  cases ptr with
  | none => exact ⟨m.heap, if_pos hptr.upRule_eq_zero, hlive⟩
  | some ptr => exact free_back hptr.1 hlive

/-- The block of a node is counted by its bitmaps and is freed. -/
private theorem Sound.destroyBlock_spec (h : node.Sound)
    (hlive : m.heap.live ~ ownBlock node.childPtr node.children.length node.rules.length ++ frame) :
    ∃ heap, node.destroyBlock m = some ⟨heap, m.mem, m.memDestroy +
      BitVec.ofNat 32 (nodeSize * (popcount node.external + upRule (popcount node.internal)))⟩ ∧ heap.live ~ frame := by
  have hsize : BitVec.ofNat 32 (nodeSize * (popcount node.external + upRule (popcount node.internal))) =
      BitVec.ofNat 32 (upRule (popcount node.internal) * nodeSize) +
        BitVec.ofNat 32 (popcount node.external * nodeSize) := by
    rw [← BitVec.ofNat_add, ← Nat.add_mul, Nat.add_comm, Nat.mul_comm]
  have hptr := h.pointsTo
  rw [h.length_rules] at hptr hlive
  rw [hsize, ← BitVec.add_assoc]
  exact freeFirst_spec hptr hlive

/-- What is left of the memory when a list of subtrees has been destroyed. -/
private theorem destroySubtries_spec {nodes : List (MemNode ν)}
    (hnodes : ∀ node ∈ nodes, ∀ m frame, m.heap.live ~ node.blocks ++ frame → ∃ heap,
      destroySubtrie m node = some (⟨heap, m.mem, m.memDestroy + BitVec.ofNat 32 node.bytes⟩, .empty) ∧
        heap.live ~ frame)
    (hlive : m.heap.live ~ nodes.flatMap blocks ++ frame) :
    ∃ heap, nodes.foldlM (fun m child => (destroySubtrie m child).map (·.1)) m =
        some ⟨heap, m.mem, m.memDestroy + BitVec.ofNat 32 (nodes.map bytes).sum⟩ ∧ heap.live ~ frame := by
  induction nodes generalizing m with
  | nil => exact ⟨m.heap, by simp, hlive⟩
  | cons node nodes ih =>
    obtain ⟨hnode, hrest⟩ := List.forall_mem_cons.1 hnodes
    rw [List.flatMap_cons, List.append_assoc] at hlive
    obtain ⟨heap₁, h1, hlive₁⟩ := hnode m _ hlive
    obtain ⟨heap, h2, hlive₂⟩ := ih (m := ⟨heap₁, m.mem, m.memDestroy + BitVec.ofNat 32 node.bytes⟩) hrest hlive₁
    refine ⟨heap, ?_, hlive₂⟩
    rw [List.map_cons, List.sum_cons, BitVec.ofNat_add, ← BitVec.add_assoc, ← h2]
    simp [h1]

/-- `destroy_subtrie` frees the blocks of the subtree, each once, and counts their bytes. -/
private theorem Sound.destroySubtrie_spec (h : node.Sound) (hlive : m.heap.live ~ node.blocks ++ frame) :
    ∃ heap, destroySubtrie m node = some (⟨heap, m.mem, m.memDestroy + BitVec.ofNat 32 node.bytes⟩, .empty) ∧
      heap.live ~ frame := by
  induction h generalizing m frame with
  | @mk external internal ptr rules children hr hc hptr below ih =>
    have hsound : (MemNode.mk external internal ptr rules children).Sound := .mk hr hc hptr below
    rw [blocks, List.append_assoc] at hlive
    -- until the children are destroyed the block of the node is in their frame
    obtain ⟨heap₁, h1, hlive₁⟩ :=
      destroySubtries_spec (fun child hmem m frame => ih child hmem) (hlive.trans (List.perm_append_comm_assoc ..))
    obtain ⟨heap, h2, hlive₂⟩ := hsound.destroyBlock_spec
      (m := ⟨heap₁, m.mem, m.memDestroy + BitVec.ofNat 32 (children.map bytes).sum⟩) hlive₁
    refine ⟨heap, ?_, hlive₂⟩
    rw [hsound.destroySubtrie_eq, MemNode.children, h1, Option.bind_some, h2, bytes,
      Nat.add_comm _ (children.map bytes).sum, BitVec.ofNat_add, ← BitVec.add_assoc]
    rfl

end MemNode

/-! ### Whole runs -/

def memStep (s : NodeMemory × MemNode ν) : RouteOp ν → Except Fault (NodeMemory × MemNode ν)
  | .insert ip cidr nhi => insertAuxEntryMem s.1 s.2 ip cidr nhi
  | .delete ip cidr => deleteAuxEntryMem s.1 s.2 ip cidr

private theorem owned_start : Owned .start (.empty : MemNode ν) [] where
  sound := MemNode.sound_empty
  owns := by
    rw [MemNode.blocks_empty]
    exact ⟨.refl _, rfl, rfl⟩

/-- The trie with its memory takes the step that the trie without it takes. -/
private theorem Owned.step {T : Table ν} {s : NodeMemory × MemNode ν} (h : Owned s.1 s.2 [])
    (hrep : Represents T s.2.erase) (op : RouteOp ν) (hlegal : AuxLegal T op) :
    ∃ s', memStep s op = .ok s' ∧ auxStep s.2.erase op = .ok s'.2.erase ∧ Owned s'.1 s'.2 [] := by
  cases op with
  | insert ip cidr nhi =>
    obtain ⟨-, hcidr, hmask⟩ := hlegal
    obtain ⟨m', node', hins, hins', h'⟩ := h.insertEntry nhi hmask hcidr
    refine ⟨(m', node'), ?_, ?_, h'⟩
    · simp only [memStep, insertAuxEntryMem, hins]
      rfl
    · simp only [auxStep, insertAuxEntry, hins']
      rfl
  | delete ip cidr =>
    obtain ⟨⟨-, hcidr, hmask⟩, hsome⟩ := hlegal
    rw [← hrep.table cidr _ (topBits_lt ip hcidr)] at hsome
    obtain ⟨m', node', hdel, hdel', h'⟩ := h.deleteEntry hmask hcidr hsome
    refine ⟨(m', node'), ?_, ?_, h'⟩
    · simp only [memStep, deleteAuxEntryMem, hdel]
      rfl
    · simp only [auxStep, deleteAuxEntry, hdel']
      rfl

/-- The trie has the entries of the table and owns all blocks. -/
structure MemRep (T : Table ν) (s : NodeMemory × MemNode ν) : Prop where
  represents : Represents T s.2.erase
  owned : Owned s.1 s.2 []

private theorem memRep_start : MemRep Table.empty (.start, (.empty : MemNode ν)) where
  represents := by
    rw [MemNode.erase_empty]
    exact represents_empty
  owned := owned_start

private theorem MemRep.step {T : Table ν} {s : NodeMemory × MemNode ν} (h : MemRep T s) (op : RouteOp ν)
    (hlegal : AuxLegal T op) :
    ∃ s', memStep s op = .ok s' ∧ auxStep s.2.erase op = .ok s'.2.erase ∧ MemRep (op.apply T) s' := by
  obtain ⟨s', hmem, haux, howned⟩ := h.owned.step h.represents op hlegal
  obtain ⟨node', haux', hrep⟩ := h.represents.step op hlegal
  cases haux.symm.trans haux'
  exact ⟨s', hmem, haux, hrep, howned⟩

private theorem owned_after {ops : List (RouteOp ν)} (h : Allowed RouteOp.apply AuxLegal Table.empty ops) :
    ∃ m node, run memStep (.start, .empty) ops = .ok (m, node) ∧ run auxStep .empty ops = .ok node.erase ∧
      Owned m node [] := by
  obtain ⟨⟨m, node⟩, hmem, haux, hrep⟩ :=
    run_refines_map (R := MemRep) (f := fun s => s.2.erase) (fun _ _ op hrep => hrep.step op) memRep_start h
  rw [MemNode.erase_empty] at haux
  exact ⟨m, node, hmem, haux, hrep.owned⟩

private theorem toInt_ofNat {n : Nat} (h : n < 2 ^ 31) : (BitVec.ofNat 32 n).toInt = n := by
  have hmod : n % 2 ^ 32 = n := Nat.mod_eq_of_lt (by omega)
  rw [BitVec.toInt_eq_toNat_of_lt, BitVec.toNat_ofNat, hmod]
  rw [BitVec.toNat_ofNat, hmod]
  omega

/-- After every sequence of legal calls the trie with its memory is the trie without it, the blocks in use are those of
its nodes, and `mem` is what its bitmaps say; `destroy_subtrie` frees each of these blocks once and adds as much to
`mem_destroy`. -/
theorem nodeMemory_accounted (ops : List (RouteOp ν)) (h : Allowed RouteOp.apply AuxLegal Table.empty ops) :
    ∃ m node, run memStep (.start, .empty) ops = .ok (m, node) ∧ run auxStep .empty ops = .ok node.erase ∧
      m.heap.live ~ node.blocks ∧ (node.bytes < 2 ^ 31 → m.mem.toInt = node.bytes) ∧
      ∃ m', node.destroySubtrie m = some (m', .empty) ∧ m'.heap.live = [] ∧
        (node.bytes < 2 ^ 31 → m'.memDestroy.toInt = m.memDestroy.toInt + node.bytes) := by
  obtain ⟨m, node, hrun, hrun', hsound, hlive, hmem, hdestroy⟩ := owned_after h
  obtain ⟨heap, hcall, hempty⟩ := hsound.destroySubtrie_spec hlive
  rw [List.append_nil] at hlive hmem
  rw [hsound.total_blocks] at hmem
  refine ⟨m, node, hrun, hrun', hlive, fun hlt => ?_, _, hcall, hempty.eq_nil, fun hlt => ?_⟩
  · rw [hmem, toInt_ofNat hlt]
  · simp only [hdestroy, BitVec.zero_add, toInt_ofNat hlt, BitVec.toInt_zero, Int.zero_add]

/-- The trie of 10.1.0.0/16 after 10.0.0.0/8 has been deleted. -/
def nestedNode : MemNode Nat :=
  .mk 0x0001 0 (some ⟨0, 0⟩) [] [.mk 0x0400 0 (some ⟨1, 0⟩) [] [.mk 0x0001 0 (some ⟨6, 0⟩) []
    [.mk 0x0002 0 (some ⟨4, 0⟩) [] [.mk 0 0x0001 (some ⟨5, 1⟩) [2] []]]]]

private theorem run_nestedOps : ∃ m, run memStep (.start, .empty) nestedOps = .ok (m, nestedNode) := ⟨_, rfl⟩

private theorem bytes_nestedNode : nestedNode.bytes = 80 := by
  simp only [nestedNode, MemNode.bytes, List.map_cons, List.map_nil]
  rfl

theorem nodeMemory_accounted_nested :
    ∃ m, run memStep (.start, .empty) nestedOps = .ok (m, nestedNode) ∧ m.mem.toInt = 80 ∧
      ∃ m', nestedNode.destroySubtrie m = some (m', .empty) ∧ m'.heap.live = [] := by
  obtain ⟨m, node, hrun, -, -, hmem, m', hcall, hempty, -⟩ := nodeMemory_accounted nestedOps allowed_nestedOps
  obtain ⟨m₀, hnode⟩ := run_nestedOps
  cases hrun.symm.trans hnode
  refine ⟨m, hrun, ?_, m', hcall, hempty⟩
  rw [hmem (by rw [bytes_nestedNode]; omega), bytes_nestedNode]
  rfl

end StubProfile.Route
