import StubProfile.Lib.LinkRing

/-!
# The linked lists

The operations on `struct list_head` (`list.h`, which `libprofile` and `test/lib` have each a copy of).  The links are
those of a memory over any type of cells; a pointer is `none` if it is `NULL`.  The embedding of a link in a structure
(`list_entry`) is left to the users, who take the address of the structure for the address of its link.

The two copies differ in what `list_del` leaves in the entry: `NULL` in `libprofile`, two addresses that are no cells in
`test/lib`.
-/

namespace StubProfile.Links

open LinkRing

variable {P : Type} [DecidableEq P]

def initListHead (m : Memory P) (list : Option P) : Except Fault (Memory P) := do
  let m ← m.setNext list list
  m.setPrev list list

variable {m : Memory P} {new old prev next entry p q : P}

theorem initListHead_ok (hp : m.live p = true) : initListHead m (some p) =
    .ok ⟨m.live, Function.update m.next p (some p), Function.update m.prev p (some p)⟩ := by
  simp [initListHead, hp]

/-! ### Adding and deleting -/

/-- `__list_add`. -/
def listAddBetween (m : Memory P) (new prev next : Option P) : Except Fault (Memory P) := do
  let m ← m.setPrev next new
  let m ← m.setNext new next
  let m ← m.setPrev new prev
  m.setNext prev new

theorem listAddBetween_ok (hnew : m.live new = true) (hprev : m.live prev = true) (hnext : m.live next = true) :
    listAddBetween m (some new) (some prev) (some next) = .ok ⟨m.live,
      Function.update (Function.update m.next new (some next)) prev (some new),
      Function.update (Function.update m.prev next (some new)) new (some prev)⟩ := by
  simp [listAddBetween, hnew, hprev, hnext]

def listAdd (m : Memory P) (new head : Option P) : Except Fault (Memory P) := do
  listAddBetween m new head (← m.readNext head)

def listAddTail (m : Memory P) (new head : Option P) : Except Fault (Memory P) := do
  listAddBetween m new (← m.readPrev head) head

/-- `__list_del`. -/
def listDelBetween (m : Memory P) (prev next : Option P) : Except Fault (Memory P) := do
  let m ← m.setPrev next prev
  m.setNext prev next

/-- `__list_del_entry`. -/
def listDelEntry (m : Memory P) (entry : Option P) : Except Fault (Memory P) := do
  listDelBetween m (← m.readPrev entry) (← m.readNext entry)

theorem listDelEntry_ok (hentry : m.live entry = true) (hp : m.prev entry = some p) (hq : m.next entry = some q)
    (hlp : m.live p = true) (hlq : m.live q = true) : listDelEntry m (some entry) =
      .ok ⟨m.live, Function.update m.next p (some q), Function.update m.prev q (some p)⟩ := by
  simp [listDelEntry, listDelBetween, hentry, hp, hq, hlp, hlq]

/-- `list_del`, which leaves the pointers `poison` in the entry. -/
def listDel (poison : Option P × Option P) (m : Memory P) (entry : Option P) : Except Fault (Memory P) := do
  let m ← listDelEntry m entry
  let m ← m.setNext entry poison.1
  m.setPrev entry poison.2

def listDelInit (m : Memory P) (entry : Option P) : Except Fault (Memory P) := do
  let m ← listDelEntry m entry
  initListHead m entry

def listReplace (m : Memory P) (old new : Option P) : Except Fault (Memory P) := do
  let m ← m.setNext new (← m.readNext old)
  let m ← m.setPrev (← m.readNext new) new
  let m ← m.setPrev new (← m.readPrev old)
  m.setNext (← m.readPrev new) new

/-- Unless the old cell is its own neighbour, the new one takes its two neighbours. -/
theorem listReplace_ok (hold : m.live old = true) (hnew : m.live new = true) (hp : m.prev old = some p)
    (hq : m.next old = some q) (hlp : m.live p = true) (hlq : m.live q = true) (hne : q ≠ old) :
    listReplace m (some old) (some new) = .ok ⟨m.live,
      Function.update (Function.update m.next new (some q)) p (some new),
      Function.update (Function.update m.prev q (some new)) new (some p)⟩ := by
  simp [listReplace, hold, hnew, hp, hq, hlp, hlq, hne.symm]

/-- A cell that is its own neighbour is one no longer: its pointer back leads to the new one. -/
theorem listReplace_self (hold : m.live old = true) (hnew : m.live new = true) (hq : m.next old = some old) :
    listReplace m (some old) (some new) = .ok ⟨m.live, Function.update m.next new (some new),
      Function.update (Function.update m.prev old (some new)) new (some new)⟩ := by
  simp [listReplace, hold, hnew, hq]

def listReplaceInit (m : Memory P) (old new : Option P) : Except Fault (Memory P) := do
  let m ← listReplace m old new
  initListHead m old

def listMove (m : Memory P) (list head : Option P) : Except Fault (Memory P) := do
  let m ← listDelEntry m list
  listAdd m list head

def listMoveTail (m : Memory P) (list head : Option P) : Except Fault (Memory P) := do
  let m ← listDelEntry m list
  listAddTail m list head

/-! ### Tests -/

def listIsLast (m : Memory P) (list head : Option P) : Except Fault Bool := do
  return (← m.readNext list) = head

def listEmpty (m : Memory P) (head : Option P) : Except Fault Bool := do
  return (← m.readNext head) = head

def listEmptyCareful (m : Memory P) (head : Option P) : Except Fault Bool := do
  let next ← m.readNext head
  -- the second test is made only if the first one succeeds
  if next = head then return next = (← m.readPrev head) else return false

def listIsSingular (m : Memory P) (head : Option P) : Except Fault Bool := do
  if ← listEmpty m head then return false else return (← m.readNext head) = (← m.readPrev head)

/-! ### Whole lists -/

def listRotateLeft (m : Memory P) (head : Option P) : Except Fault (Memory P) := do
  if ← listEmpty m head then return m
  else
    let first ← m.readNext head
    listMoveTail m first head

/-- `__list_cut_position`. -/
def listCutBetween (m : Memory P) (list head entry : Option P) : Except Fault (Memory P) := do
  let newFirst ← m.readNext entry
  let m ← m.setNext list (← m.readNext head)
  let m ← m.setPrev (← m.readNext list) list
  let m ← m.setPrev list entry
  let m ← m.setNext entry list
  let m ← m.setNext head newFirst
  m.setPrev newFirst head

theorem listCutBetween_ok {list head first : P} (hlist : m.live list = true) (hhead : m.live head = true)
    (hentry : m.live entry = true) (hq : m.next entry = some q) (hfirst : m.next head = some first)
    (hlq : m.live q = true) (hlf : m.live first = true) :
    listCutBetween m (some list) (some head) (some entry) = .ok ⟨m.live,
      Function.update (Function.update (Function.update m.next list (some first)) entry (some list)) head (some q),
      Function.update (Function.update (Function.update m.prev first (some list)) list (some entry)) q
        (some head)⟩ := by
  simp [listCutBetween, hlist, hhead, hentry, hq, hfirst, hlq, hlf]

def listCutPosition (m : Memory P) (list head entry : Option P) : Except Fault (Memory P) := do
  if ← listEmpty m head then return m
  else if (← listIsSingular m head) && ((← m.readNext head) ≠ entry && head ≠ entry) then return m
  else if entry = head then initListHead m list
  else listCutBetween m list head entry

/-- `__list_splice`. -/
def listSpliceBetween (m : Memory P) (list prev next : Option P) : Except Fault (Memory P) := do
  let first ← m.readNext list
  let last ← m.readPrev list
  let m ← m.setPrev first prev
  let m ← m.setNext prev first
  let m ← m.setNext last next
  m.setPrev next last

theorem listSpliceBetween_ok {list first last : P} (hlist : m.live list = true) (hfirst : m.next list = some first)
    (hlast : m.prev list = some last) (hlf : m.live first = true) (hll : m.live last = true)
    (hprev : m.live prev = true) (hnext : m.live next = true) :
    listSpliceBetween m (some list) (some prev) (some next) = .ok ⟨m.live,
      Function.update (Function.update m.next prev (some first)) last (some next),
      Function.update (Function.update m.prev first (some prev)) next (some last)⟩ := by
  simp [listSpliceBetween, hlist, hfirst, hlast, hlf, hll, hprev, hnext]

def listSplice (m : Memory P) (list head : Option P) : Except Fault (Memory P) := do
  if ← listEmpty m list then return m else listSpliceBetween m list head (← m.readNext head)

def listSpliceTail (m : Memory P) (list head : Option P) : Except Fault (Memory P) := do
  if ← listEmpty m list then return m else listSpliceBetween m list (← m.readPrev head) head

def listSpliceInit (m : Memory P) (list head : Option P) : Except Fault (Memory P) := do
  if ← listEmpty m list then return m
  else
    let m ← listSpliceBetween m list head (← m.readNext head)
    initListHead m list

def listSpliceTailInit (m : Memory P) (list head : Option P) : Except Fault (Memory P) := do
  if ← listEmpty m list then return m
  else
    let m ← listSpliceBetween m list (← m.readPrev head) head
    initListHead m list

/-! ### Loops over a list -/

/-- The entries that a loop visits, which starts at `pos` and goes on by `step` until it is back at `head`; `none` if
it does not end within `fuel` turns. -/
def listWalk (step : Option P → Except Fault (Option P)) (head : P) : Nat → Option P → Except Fault (Option (List P))
  | 0, _ => .ok none
  | fuel + 1, pos =>
    if pos = some head then .ok (some [])
    else
      match pos with
      | none => .error .null
      | some p => do
        let rest ← listWalk step head fuel (← step pos)
        return rest.map (p :: ·)

/-- `list_for_each` and `list_for_each_entry`. -/
def listForEach (m : Memory P) (head : P) (fuel : Nat) : Except Fault (Option (List P)) := do
  listWalk m.readNext head fuel (← m.readNext (some head))

/-- `list_for_each_prev` and `list_for_each_entry_reverse`. -/
def listForEachPrev (m : Memory P) (head : P) (fuel : Nat) : Except Fault (Option (List P)) := do
  listWalk m.readPrev head fuel (← m.readPrev (some head))

/-- The turns of `list_for_each_entry_safe`: `n` is read before the body changes the entry at `pos`.  The body works on
a state with the memory of the links in it. -/
def listSafeLoop {σ : Type} (links : σ → Memory P) (body : σ → P → Except Fault σ) (head : P) :
    Nat → σ → Option P → Option P → Except Fault (Option σ)
  | 0, _, _, _ => .ok none
  | fuel + 1, s, pos, n =>
    if pos = some head then .ok (some s)
    else
      match pos with
      | none => .error .null
      | some p => do
        let s ← body s p
        listSafeLoop links body head fuel s n (← (links s).readNext n)

/-- `list_for_each_safe` and `list_for_each_entry_safe`. -/
def listForEachSafe {σ : Type} (links : σ → Memory P) (body : σ → P → Except Fault σ) (head : P) (fuel : Nat) (s : σ) :
    Except Fault (Option σ) := do
  let pos ← (links s).readNext (some head)
  listSafeLoop links body head fuel s pos (← (links s).readNext pos)

end StubProfile.Links
