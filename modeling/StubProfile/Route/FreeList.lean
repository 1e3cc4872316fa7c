import StubProfile.Links.Runs
import StubProfile.Route.Allocator

/-!
# The free list of the allocator with its links

The list of freed indices of `alloc_entry`, `dealloc_entry` and `destory_mem_cache` as it is in memory: structures with
twelve slots that are allocated when a slot is needed, linked to the head in `struct mem_cache`, and freed when their
last slot is emptied.  A structure and a cube that are freed are gone; to touch them or to free them again is a fault.

The calls do what the model with a list of arrays does (`LinkedCache.follows`), and `destory_mem_cache` frees what is
left (`linkedCache_destroyed`).
-/

namespace StubProfile.Route

open Machine Links
open LinkRing (Memory Ring before after)
open scoped List

/-- The places of links: the head, the structures in the order of their allocation, and `LIST_POISON1` and
`LIST_POISON2`. -/
inductive FreePlace where
  | head
  | blocks (n : Nat)
  | poison (n : Nat)
deriving DecidableEq

def freePoison : Option FreePlace × Option FreePlace := (some (.poison 1), some (.poison 2))

/-- `struct mem_cache` with its free list in memory.  `slots` are the arrays of the structures, `callocs` is the number
of structures allocated so far, and `cubes` says which cubes are allocated. -/
structure LinkedCache where
  links : Memory FreePlace
  slots : Nat → List (Option Nat)
  callocs : Nat
  cubes : Nat → Bool
  currCube : Nat
  currIndex : Nat
  mem : Ptr → Entry

/-- The part of `ts_init` about the cache, on a zeroed structure. -/
def LinkedCache.init : Except LinkRing.Fault LinkedCache := do
  let links ← initListHead ⟨fun p => p = .head, fun _ => none, fun _ => none⟩ (some .head)
  return ⟨links, fun _ => [], 0, fun no => no = 0, 0, 0, fun _ => .zero⟩

/-- A structure with one slot filled, or none, becomes the first one of the list. -/
def LinkedCache.addBlocks (s : LinkedCache) (slot : Option Nat) : Except LinkRing.Fault LinkedCache := do
  let fb := some (FreePlace.blocks s.callocs)
  let links ← initListHead (s.links.alloc (.blocks s.callocs)) fb
  let links ← listAdd links fb (some .head)
  return { s with
    links := links
    slots := Function.update s.slots s.callocs (slot :: List.replicate 11 none)
    callocs := s.callocs + 1 }

/-- `list_del` and `free` of a structure. -/
def LinkedCache.dropBlocks (s : LinkedCache) (fb : FreePlace) : Except LinkRing.Fault LinkedCache := do
  let links ← listDel freePoison s.links (some fb)
  return { s with links := ← links.free fb }

/-- `alloc_entry`, with `*index` as a second result. -/
def LinkedCache.allocEntry (s : LinkedCache) : Except LinkRing.Fault (LinkedCache × Nat) := do
  if ← listEmpty s.links (some .head) then
    if cubeIndex s.currIndex = 2 ^ 20 / 2 ^ 8 - 1 then
      let currCube := s.currCube + 1
      -- the table of cubes has 32 entries
      if currCube < 32 then
        return ({ s with
          cubes := Function.update s.cubes currCube true
          currCube := currCube
          currIndex := currCube <<< 20
          mem := callocCube s.mem currCube }, s.currIndex)
      else .error .absent
    else return ({ s with currIndex := s.currIndex + 1 }, s.currIndex)
  else
    match ← s.links.readNext (some .head) with
    | some (.blocks n) =>
      match lastSlot (s.slots n) 12 with
      | some (i, index) =>
        let s := { s with slots := Function.update s.slots n ((s.slots n).set i none) }
        -- the last one is consumed
        if i = 0 then return (← s.dropBlocks (.blocks n), index) else return (s, index)
      -- the entry returned is `NULL`
      | none => .error .null
    | _ => .error .absent

/-- The loop of `dealloc_entry`: the first structure with an invalid slot takes the index.  The second result is
`add_flag`; `none` if the loop does not end within `fuel` turns. -/
def LinkedCache.fillLoop (index : Nat) (s : LinkedCache) :
    Nat → Option FreePlace → Except LinkRing.Fault (Option (LinkedCache × Bool))
  | 0, _ => .ok none
  | fuel + 1, pos =>
    match pos with
    | some .head => .ok (some (s, false))
    | some (.blocks n) =>
      match fillSlot index (s.slots n) with
      | some fb => .ok (some ({ s with slots := Function.update s.slots n fb }, true))
      | none => do s.fillLoop index fuel (← s.links.readNext pos)
    | _ => .error .absent

/-- The first part of `dealloc_entry`: a list without structures gets one with twelve invalid slots. -/
def LinkedCache.ensureBlocks (s : LinkedCache) : Except LinkRing.Fault LinkedCache := do
  if ← listEmpty s.links (some .head) then s.addBlocks none else return s

/-- `dealloc_entry`; `none` if it does not return. -/
def LinkedCache.deallocEntry (s : LinkedCache) (index : Nat) (fuel : Nat) :
    Except LinkRing.Fault (Option LinkedCache) := do
  let s ← s.ensureBlocks
  match ← s.fillLoop index fuel (← s.links.readNext (some .head)) with
  | none => return none
  | some (s, true) => return some s
  | some (s, false) => return some (← s.addBlocks (some index))

/-- The loop that frees the first `n` cubes. -/
def LinkedCache.freeCubes (s : LinkedCache) : Nat → Except LinkRing.Fault LinkedCache
  | 0 => .ok s
  | n + 1 => do
    let s ← s.freeCubes n
    if s.cubes n then return { s with cubes := Function.update s.cubes n false } else .error .absent

/-- The first part of `destory_mem_cache`, the structures of the free list. -/
def LinkedCache.emptyList (s : LinkedCache) (fuel : Nat) : Except LinkRing.Fault (Option LinkedCache) := do
  if ← listEmpty s.links (some .head) then return some s
  else listForEachSafe LinkedCache.links LinkedCache.dropBlocks .head fuel s

/-- `destory_mem_cache`; `none` if it does not return. -/
def LinkedCache.destoryMemCache (s : LinkedCache) (fuel : Nat) : Except LinkRing.Fault (Option LinkedCache) := do
  match ← s.emptyList fuel with
  | none => return none
  | some s =>
    let s ← s.freeCubes (s.currCube + 1)
    return some { s with currCube := 0, currIndex := 0 }

/-! ### The same calls on a list of arrays -/

/-- The structures `ns` are linked to the head in this order, and there are no others. -/
structure LinkedCache.Follows (s : LinkedCache) (ns : List Nat) (mm : MemCache) : Prop where
  links : Links.Represents ⟨[(.head, ns.map .blocks)], []⟩ s.links
  old : ∀ n ∈ ns, n < s.callocs
  slots : ns.map s.slots = mm.freeIndex
  cubes : ∀ no, s.cubes no = decide (no ≤ mm.currCube)
  currCube : s.currCube = mm.currCube
  currIndex : s.currIndex = mm.currIndex
  mem : s.mem = mm.mem

variable {s : LinkedCache} {mm mm' : MemCache} {n index fuel : Nat} {ns pre post : List Nat}

private theorem LinkedCache.Follows.nodup (h : s.Follows ns mm) : ns.Nodup := by
  have := h.links.nodup_ring List.mem_cons_self
  exact (List.nodup_cons.1 this).2.of_map

private theorem LinkedCache.Follows.listEmpty (h : s.Follows ns mm) :
    listEmpty s.links (some .head) = .ok (decide (ns = [])) := by
  rw [h.links.listEmpty List.mem_cons_self]
  simp

private theorem map_update_of_notMem {β : Type} {f : Nat → β} {b : β} (hn : n ∉ ns) :
    ns.map (Function.update f n b) = ns.map f :=
  List.map_congr_left fun _ hm => Function.update_of_ne (ne_of_mem_of_not_mem hm hn) b f

private theorem LinkedCache.init_follows : ∃ s, LinkedCache.init = .ok s ∧ s.Follows [] tsInit.mm := by
  have hstart : Links.Represents (⟨[], [.head]⟩ : Links.Lists FreePlace)
      ⟨fun p => p = .head, fun _ => none, fun _ => none⟩ :=
    ⟨by simp [Links.Lists.cells], by simp [Links.Lists.cells], by simp⟩
  obtain ⟨links, hinit, hlinks⟩ := hstart.initListHead
  refine ⟨⟨links, fun _ => [], 0, fun no => no = 0, 0, 0, fun _ => .zero⟩, ?_, ?_⟩
  · simp only [LinkedCache.init, hinit, LinkRing.ok_bind]
    rfl
  · exact ⟨hlinks, by simp, rfl, by simp [tsInit], rfl, rfl, rfl⟩

/-- The new structure is the first one. -/
private theorem LinkedCache.Follows.addBlocks (h : s.Follows ns mm) (slot : Option Nat) :
    ∃ s', s.addBlocks slot = .ok s' ∧ s'.Follows (s.callocs :: ns)
      { mm with freeIndex := (slot :: List.replicate 11 none) :: mm.freeIndex } := by
  have hfresh : s.callocs ∉ ns := fun hmem => Nat.lt_irrefl _ (h.old _ hmem)
  have hcell : FreePlace.blocks s.callocs ∉ Links.Lists.cells ⟨[(.head, ns.map .blocks)], []⟩ := by
    simp [Links.Lists.cells, ringCells, hfresh]
  obtain ⟨links₁, h1, hlinks₁⟩ := (h.links.alloc hcell).initListHead
  -- the links of the structure by itself are written again by `list_add`
  obtain ⟨links₂, h2, hlinks₂⟩ := (hlinks₁.forget (.loosen _ _ _)).listAdd
  have hcall : s.addBlocks slot = .ok { s with
      links := links₂
      slots := Function.update s.slots s.callocs (slot :: List.replicate 11 none)
      callocs := s.callocs + 1 } := by
    simp only [LinkedCache.addBlocks, h1, h2, LinkRing.ok_bind]
    rfl
  refine ⟨_, hcall, hlinks₂, ?_, ?_, h.cubes, h.currCube, h.currIndex, h.mem⟩
  · intro n hn
    obtain rfl | hn := List.mem_cons.1 hn
    · exact Nat.lt_succ_self _
    · exact Nat.lt_succ_of_lt (h.old n hn)
  · simp only [List.map_cons, Function.update_self, map_update_of_notMem hfresh, h.slots]

/-- The slots of a structure in the list are written. -/
private theorem LinkedCache.Follows.setSlots (pre : List Nat) (h : s.Follows (pre ++ n :: post) mm)
    (fb : List (Option Nat)) :
    ({ s with slots := Function.update s.slots n fb } : LinkedCache).Follows (pre ++ n :: post)
      { mm with freeIndex := pre.map s.slots ++ fb :: post.map s.slots } := by
  have hnodup := h.nodup
  have hpre : n ∉ pre := by grind
  have hpost : n ∉ post := by grind
  refine ⟨h.links, h.old, ?_, h.cubes, h.currCube, h.currIndex, h.mem⟩
  simp only [List.map_append, List.map_cons, Function.update_self, map_update_of_notMem hpre, map_update_of_notMem hpost]

/-- The first structure is taken out of the list and freed. -/
private theorem LinkedCache.Follows.dropBlocks (h : s.Follows (n :: ns) mm) :
    ∃ s', s.dropBlocks (.blocks n) = .ok s' ∧ s'.Follows ns { mm with freeIndex := mm.freeIndex.tail } := by
  have hlinks : Links.Represents ⟨[(.head, [] ++ .blocks n :: ns.map .blocks)], []⟩ s.links := h.links
  obtain ⟨links₁, h1, hlinks₁⟩ := hlinks.listDel freePoison
  obtain ⟨links₂, h2, hlinks₂⟩ := hlinks₁.free
  have hcall : s.dropBlocks (.blocks n) = .ok { s with links := links₂ } := by
    simp only [LinkedCache.dropBlocks, h1, h2, LinkRing.ok_bind]
    rfl
  refine ⟨_, hcall, hlinks₂, fun m hm => h.old m (List.mem_cons_of_mem _ hm), ?_, h.cubes, h.currCube, h.currIndex,
    h.mem⟩
  rw [← h.slots]
  rfl

/-- `alloc_entry` with its links does what it does on the list of arrays. -/
private theorem LinkedCache.Follows.allocEntry (h : s.Follows ns mm) (hcall : Route.allocEntry mm = .ok (mm', index)) :
    ∃ s' ns', s.allocEntry = .ok (s', index) ∧ s'.Follows ns' mm' := by
  cases ns with
  | nil =>
    have hnil : mm.freeIndex = [] := h.slots.symm
    have hempty : Links.listEmpty s.links (some .head) = .ok true := h.listEmpty
    simp only [Route.allocEntry, hnil] at hcall
    simp only [LinkedCache.allocEntry, hempty, LinkRing.ok_bind, if_true, h.currCube, h.currIndex]
    split at hcall
    · next hlast =>
      rw [if_pos hlast]
      split at hcall
      · next hroom =>
        cases hcall
        rw [if_pos hroom]
        refine ⟨_, [], rfl, h.links, by simp, h.slots.trans hnil, fun no => ?_, rfl, rfl, by simp only [h.mem]⟩
        by_cases hno : no = mm.currCube + 1
        · simp [hno]
        · simp only [Function.update_of_ne hno, h.cubes]
          exact decide_eq_decide.2 (by omega)
      · cases hcall
    · next hlast =>
      cases hcall
      rw [if_neg hlast]
      exact ⟨_, [], rfl, h.links, by simp, h.slots.trans hnil, h.cubes, rfl, rfl, h.mem⟩
  | cons n ns =>
    have hcons : mm.freeIndex = s.slots n :: ns.map s.slots := h.slots.symm
    have hempty : Links.listEmpty s.links (some .head) = .ok false := h.listEmpty
    have hread : s.links.readNext (some .head) = .ok (some (.blocks n)) := h.links.readNext List.mem_cons_self
    simp only [Route.allocEntry, hcons] at hcall
    simp only [LinkedCache.allocEntry, hempty, hread, LinkRing.ok_bind, Bool.false_eq_true, if_false]
    cases hslot : lastSlot (s.slots n) 12 with
    | none => simp [hslot] at hcall
    | some slot =>
      obtain ⟨i, index'⟩ := slot
      simp only [hslot, Except.ok.injEq, Prod.mk.injEq] at hcall
      obtain ⟨rfl, rfl⟩ := hcall
      have hset := LinkedCache.Follows.setSlots [] h ((s.slots n).set i none)
      by_cases hi : i = 0
      · obtain ⟨s', hdrop, hs'⟩ := LinkedCache.Follows.dropBlocks hset
        simp only [if_pos hi, hdrop]
        exact ⟨s', ns, rfl, hs'⟩
      · simp only [if_neg hi]
        exact ⟨_, n :: ns, rfl, hset⟩

/-- The loop of `dealloc_entry` from some structure on. -/
private theorem LinkedCache.Follows.fillLoop (pre : List Nat) (h : s.Follows (pre ++ post) mm) (index : Nat)
    (hfuel : post.length < fuel) :
    ∃ result, s.fillLoop index fuel (some (after .head (post.map .blocks))) = .ok (some result) ∧
      match fillBlocks index (post.map s.slots) with
      | some freeIndex => result.2 = true ∧
        result.1.Follows (pre ++ post) { mm with freeIndex := pre.map s.slots ++ freeIndex }
      | none => result = (s, false) := by
  induction post generalizing pre fuel with
  | nil =>
    obtain ⟨fuel, rfl⟩ := Nat.exists_eq_add_of_lt hfuel
    exact ⟨_, rfl, rfl⟩
  | cons n post ih =>
    obtain ⟨fuel, rfl⟩ := Nat.exists_eq_succ_of_ne_zero (Nat.ne_zero_of_lt hfuel)
    simp only [List.map_cons, LinkRing.after_cons, LinkedCache.fillLoop, fillBlocks]
    cases hfill : fillSlot index (s.slots n) with
    | some fb => exact ⟨_, rfl, rfl, h.setSlots pre fb⟩
    | none =>
      have hsplit : pre ++ n :: post = (pre ++ [n]) ++ post := by simp
      have hlinks := h.links
      rw [List.map_append, List.map_cons] at hlinks
      have hread : s.links.readNext (some (.blocks n)) = .ok (some (after .head (post.map .blocks))) := by
        rw [Memory.readNext_some (hlinks.live_entry List.mem_cons_self), hlinks.next_entry List.mem_cons_self]
      obtain ⟨result, hloop, hresult⟩ := ih (pre ++ [n]) (hsplit ▸ h) (Nat.lt_of_succ_lt_succ hfuel)
      refine ⟨result, by simpa only [hread, LinkRing.ok_bind] using hloop, ?_⟩
      cases hrest : fillBlocks index (post.map s.slots) with
      | none => simpa only [hrest, Option.map_none] using hresult
      | some freeIndex => simpa [hrest] using hresult

private theorem LinkedCache.Follows.ensureBlocks (h : s.Follows ns mm) :
    ∃ s' ns', s.ensureBlocks = .ok s' ∧ ns'.length ≤ ns.length + 1 ∧
      s'.Follows ns'
        { mm with freeIndex := if mm.freeIndex = [] then [List.replicate 12 none] else mm.freeIndex } := by
  have hslots := h.slots
  cases ns with
  | nil =>
    obtain ⟨s', hadd, hs'⟩ := h.addBlocks none
    have hnil : mm.freeIndex = [] := hslots.symm
    simp only [LinkedCache.ensureBlocks, h.listEmpty, decide_true, LinkRing.ok_bind, if_true, if_pos hnil]
    rw [hnil] at hs'
    exact ⟨s', [s.callocs], hadd, by simp, hs'⟩
  | cons n ns =>
    have hne : mm.freeIndex ≠ [] := by simp [← hslots]
    simp only [LinkedCache.ensureBlocks, h.listEmpty, LinkRing.ok_bind, if_neg hne]
    exact ⟨s, n :: ns, rfl, Nat.le_succ _, h⟩

/-- `dealloc_entry` with its links does what it does on the list of arrays. -/
private theorem LinkedCache.Follows.deallocEntry (h : s.Follows ns mm) (index : Nat) (hfuel : ns.length + 1 < fuel) :
    ∃ s' ns', s.deallocEntry index fuel = .ok (some s') ∧ s'.Follows ns' (Route.deallocEntry mm index) := by
  obtain ⟨s₁, ns₁, hensure, hlen, h₁⟩ := h.ensureBlocks
  obtain ⟨result, hloop, hresult⟩ := LinkedCache.Follows.fillLoop [] h₁ index (Nat.lt_of_le_of_lt hlen hfuel)
  simp only [LinkedCache.deallocEntry, hensure, h₁.links.readNext List.mem_cons_self, hloop, LinkRing.ok_bind]
  simp only [h₁.slots] at hresult
  simp only [Route.deallocEntry]
  cases hfill : fillBlocks index (if mm.freeIndex = [] then [List.replicate 12 none] else mm.freeIndex) with
  | some freeIndex =>
    rw [hfill] at hresult
    obtain ⟨s', flag⟩ := result
    obtain ⟨rfl, hs'⟩ := hresult
    exact ⟨s', ns₁, rfl, hs'⟩
  | none =>
    rw [hfill] at hresult
    obtain ⟨s', hadd, hs'⟩ := h₁.addBlocks (some index)
    subst hresult
    exact ⟨s', _, by simp only [hadd]; rfl, hs'⟩

/-! ### Runs -/

/-- A call of the allocator with the free list in memory.  The list has at most as many structures as were allocated. -/
def linkedStep (s : LinkedCache) : AllocCall → Except LinkRing.Fault LinkedCache
  | .alloc => do return (← s.allocEntry).1
  | .dealloc index => do
    match ← s.deallocEntry index (s.callocs + 2) with
    | some s => return s
    | none => .error .absent

private theorem LinkedCache.Follows.length_le (h : s.Follows ns mm) : ns.length ≤ s.callocs := by
  have hsub : ns.Subperm (List.range s.callocs) :=
    h.nodup.subperm fun n hn => List.mem_range.2 (h.old n hn)
  simpa using hsub.length_le

private theorem LinkedCache.Follows.step {a a' : Allocator} {call : AllocCall} (h : s.Follows ns a.mm)
    (hstep : allocStep a call = .ok a') : ∃ s' ns', linkedStep s call = .ok s' ∧ s'.Follows ns' a'.mm := by
  cases call with
  | alloc =>
    obtain ⟨⟨mm, index⟩, hcall, ha'⟩ := bind_eq_ok hstep
    cases ha'
    obtain ⟨s', ns', hlinked, hs'⟩ := h.allocEntry hcall
    exact ⟨s', ns', by simp only [linkedStep, hlinked]; rfl, hs'⟩
  | dealloc index =>
    cases hstep
    have hfuel : ns.length + 1 < s.callocs + 2 := Nat.add_lt_add_right (Nat.lt_succ_of_le h.length_le) 1
    obtain ⟨s', ns', hlinked, hs'⟩ := h.deallocEntry index hfuel
    exact ⟨s', ns', by simp only [linkedStep, hlinked]; rfl, hs'⟩

theorem LinkedCache.follows {calls : List AllocCall} {a : Allocator} (hrun : run allocStep .start calls = .ok a) :
    ∃ s₀ s ns, LinkedCache.init = .ok s₀ ∧ run linkedStep s₀ calls = .ok s ∧ s.Follows ns a.mm := by
  obtain ⟨s₀, hinit, h₀⟩ := LinkedCache.init_follows
  have hstep : ∀ (a : Allocator) (s : LinkedCache) (call : AllocCall) (a' : Allocator), (∃ ns, s.Follows ns a.mm) →
      allocStep a call = .ok a' → ∃ s', linkedStep s call = .ok s' ∧ ∃ ns, s'.Follows ns a'.mm := by
    rintro a s call a' ⟨ns, h⟩ ha
    obtain ⟨s', ns', hlinked, hs'⟩ := h.step ha
    exact ⟨s', hlinked, ns', hs'⟩
  obtain ⟨s, hlinked, ns, hs⟩ := run_simulates hstep ⟨[], h₀⟩ (traces_of_run hrun)
  exact ⟨s₀, s, ns, hinit, hlinked, hs⟩

/-! ### The end -/

private theorem LinkedCache.Follows.emptyList (h : s.Follows ns mm) (hfuel : ns.length < fuel) :
    ∃ s', s.emptyList fuel = .ok (some s') ∧ s'.Follows [] { mm with freeIndex := [] } := by
  by_cases hns : ns = []
  · have hnil : mm.freeIndex = [] := by simp [← h.slots, hns]
    refine ⟨s, ?_, ?_⟩
    · simp only [LinkedCache.emptyList, h.listEmpty, hns, decide_true, LinkRing.ok_bind, if_true]
      rfl
    · rw [← hnil, ← hns]
      exact h
  · -- the structures left are those the loop has not come to
    let Q (xs : List FreePlace) (s : LinkedCache) : Prop :=
      ∃ ns freeIndex, xs = ns.map .blocks ∧ s.Follows ns { mm with freeIndex := freeIndex }
    have hlinks : ∀ xs s, Q xs s → ∃ rings loose, Links.Represents ⟨(.head, xs) :: rings, loose⟩ s.links := by
      rintro xs s ⟨ns, freeIndex, rfl, h⟩
      exact ⟨[], [], h.links⟩
    have hbody : ∀ e xs s, Q (e :: xs) s → ∃ s', s.dropBlocks e = .ok s' ∧ Q xs s' := by
      rintro e xs s ⟨ns, freeIndex, heq, h⟩
      obtain ⟨n, ns, rfl, rfl, rfl⟩ := List.map_eq_cons_iff.1 heq.symm
      obtain ⟨s', hdrop, hs'⟩ := h.dropBlocks
      exact ⟨s', hdrop, ns, _, rfl, hs'⟩
    obtain ⟨s', hloop, ns', freeIndex, heq, hs'⟩ :=
      listForEachSafe_rule hlinks hbody ⟨ns, mm.freeIndex, rfl, h⟩ (by simpa using hfuel)
    obtain rfl : ns' = [] := List.map_eq_nil_iff.1 heq.symm
    obtain rfl : freeIndex = [] := hs'.slots.symm
    refine ⟨s', ?_, hs'⟩
    simp only [LinkedCache.emptyList, h.listEmpty, hns, LinkRing.ok_bind]
    exact hloop

private theorem LinkedCache.freeCubes_eq (hcubes : ∀ no < n, s.cubes no = true) :
    s.freeCubes n = .ok { s with cubes := fun no => s.cubes no && decide (n ≤ no) } := by
  induction n with
  | zero => simp [LinkedCache.freeCubes]
  | succ n ih =>
    have hn : s.cubes n = true := hcubes n (Nat.lt_succ_self n)
    have hcubes' : Function.update (fun no => s.cubes no && decide (n ≤ no)) n false =
        fun no => s.cubes no && decide (n + 1 ≤ no) := by
      funext no
      by_cases hno : no = n
      · simp [hno]
      · rw [Function.update_of_ne hno]
        congr 1
        exact decide_eq_decide.2 (by omega)
    simp only [LinkedCache.freeCubes, ih fun no hno => hcubes no (Nat.lt_succ_of_lt hno), LinkRing.ok_bind, hn, le_refl,
      decide_true, Bool.and_true, if_true, hcubes']
    rfl

private theorem LinkedCache.Follows.destoryMemCache (h : s.Follows ns mm) (hfuel : ns.length < fuel) :
    ∃ s', s.destoryMemCache fuel = .ok (some s') ∧ (∀ p, s'.links.live p = true ↔ p = .head) ∧
      (∀ no, s'.cubes no = false) ∧ s'.currCube = 0 ∧ s'.currIndex = 0 := by
  obtain ⟨s₁, hempty, h₁⟩ := h.emptyList hfuel
  have hcubes : ∀ no < s₁.currCube + 1, s₁.cubes no = true := by
    intro no hno
    rw [h₁.cubes, ← h₁.currCube]
    exact decide_eq_true (Nat.le_of_lt_succ hno)
  refine ⟨_, by simp only [LinkedCache.destoryMemCache, hempty, LinkedCache.freeCubes_eq hcubes, LinkRing.ok_bind]; rfl,
    fun p => ?_, fun no => ?_, rfl, rfl⟩
  · simpa [Links.Lists.cells, ringCells] using h₁.links.live p
  · simp only [h₁.cubes, h₁.currCube, Bool.and_eq_false_imp, decide_eq_true_eq, decide_eq_false_iff_not]
    omega

/-- Whatever blocks a caller takes and returns, the calls with the free list in memory follow no link to a structure
that is not there and hand out the same blocks; `destory_mem_cache` then frees each structure and each cube that is
left, once. -/
theorem linkedCache_destroyed (calls : List AllocCall) (h : Obeys allocStep AllocLegal .start calls) :
    ∃ a s₀ s ns s', run allocStep .start calls = .ok a ∧ LinkedCache.init = .ok s₀ ∧ run linkedStep s₀ calls = .ok s ∧
      s.Follows ns a.mm ∧
      (∀ mm index, allocEntry a.mm = .ok (mm, index) → ∃ s'', s.allocEntry = .ok (s'', index)) ∧
      s.destoryMemCache (s.callocs + 1) = .ok (some s') ∧ (∀ p, s'.links.live p = true ↔ p = .head) ∧
      ∀ no, s'.cubes no = false := by
  obtain ⟨a, hrun, -⟩ := run_of_obeys Accounted.step accounted_start h
  obtain ⟨s₀, s, ns, hinit, hlinked, hs⟩ := LinkedCache.follows hrun
  obtain ⟨s', hdestroy, hlive, hcubes, -⟩ := hs.destoryMemCache (Nat.lt_succ_of_le hs.length_le)
  refine ⟨a, s₀, s, ns, s', hrun, hinit, hlinked, hs, fun mm index hcall => ?_, hdestroy, hlive, hcubes⟩
  obtain ⟨s'', -, hcall', -⟩ := hs.allocEntry hcall
  exact ⟨s'', hcall'⟩

theorem linkedCache_destroyed_two :
    ∃ a s₀ s s', run allocStep .start [.alloc, .alloc, .dealloc 0] = .ok a ∧ LinkedCache.init = .ok s₀ ∧
      run linkedStep s₀ [.alloc, .alloc, .dealloc 0] = .ok s ∧ freed a.mm.freeIndex = [0] ∧
      s.destoryMemCache (s.callocs + 1) = .ok (some s') ∧ ∀ p, s'.links.live p = true ↔ p = .head := by
  have hlegal : Obeys allocStep AllocLegal .start [.alloc, .alloc, .dealloc 0] :=
    .cons (by decide) rfl (.cons (by decide) rfl (.cons (by decide) rfl trivial))
  obtain ⟨a, s₀, s, ns, s', hrun, hinit, hlinked, -, -, hdestroy, hlive, -⟩ := linkedCache_destroyed _ hlegal
  refine ⟨a, s₀, s, s', hrun, hinit, hlinked, ?_, hdestroy, hlive⟩
  cases hrun
  decide

end StubProfile.Route
