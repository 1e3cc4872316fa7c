import StubProfile.Tools.Targets

/-!
# Snippets in a program

What the tools do to a program through Dyninst: they insert calls of a library at the entry and exit points of the
target functions and in the callbacks of objects.  The program is what Dyninst says about it (`Image`); each insertion
may fail.  A program that runs passes points, and at each one makes the calls of the snippets there (`execute`).

`CountUtil` and `TracerTest` insert counting calls in the same way (`insertCount`), for each target one at the entry and
one at the exit points of its function (`callsAt_countSnippets`).
-/

namespace StubProfile.Tools

/-- Where a snippet runs: at the entry or the exit points of a function, or when an object is initialised or finished. -/
inductive Site (φ : Type) where
  | entry (f : φ)
  | exit (f : φ)
  | init (obj : CString)
  | fini (obj : CString)
deriving DecidableEq, Repr

/-- The call of a function of the library. -/
inductive LibCall where
  | pre (id : UInt32)
  | post (id : UInt32)
  | init (range : IdRange)
  | exit
  | threadExit
deriving DecidableEq, Repr

structure Snippet (φ : Type) where
  site : Site φ
  call : LibCall
deriving DecidableEq, Repr

/-- What Dyninst says about the functions of a program: whether `findPoint` finds entry and exit points, which functions
of the image match a pattern, and the object of the module of a function.  `callbackIn f obj` if the callback for the end
of the object is at a point of `f`. -/
structure Image (φ : Type) where
  hasEntry : φ → Bool
  hasExit : φ → Bool
  findFunction : CString → List φ
  object : φ → CString
  isSharedLib : φ → Bool
  callbackIn : φ → CString → Bool

/-- The snippets of a program, the latest first, which is also their order at a point, and the number of insertions
tried. -/
structure Space (φ : Type) where
  snippets : List (Snippet φ)
  tried : Nat

section Insert

variable {φ : Type} (img : Image φ) (accepts : Nat → Bool)

/-- `insertSnippet`, `insertInitCallback` or `insertFiniCallback`; the insertion with the number `n` succeeds if
`accepts n`. -/
def Space.insert (s : Space φ) (snippet : Snippet φ) : Bool × Space φ :=
  if accepts s.tried then (true, ⟨snippet :: s.snippets, s.tried + 1⟩) else (false, ⟨s.snippets, s.tried + 1⟩)

/-- The targets that `insertCount` does not pass over. -/
def Counted (tf : TargetFunc φ) : Bool := tf.index ≠ uintMax && img.hasEntry tf.func && img.hasExit tf.func

/-- `CountUtil::insertCount`, and `TracerTest::insertCount` when it has found its functions. -/
def insertCount : List (TargetFunc φ) → Space φ → Bool × Space φ
  | [], s => (true, s)
  | tf :: targets, s =>
    if Counted img tf then
      match s.insert accepts ⟨.entry tf.func, .pre tf.index⟩ with
      | (false, s) => (false, s)
      | (true, s) =>
        match s.insert accepts ⟨.exit tf.func, .post tf.index⟩ with
        | (false, s) => (false, s)
        | (true, s) => insertCount targets s
    else insertCount targets s

/-- The loops over the functions that match `_init` or `_fini`: a callback for the object of each, which becomes a target
without an index.  With `strict` a failure ends the loop. -/
def callbackLoop (snippet : CString → Snippet φ) (skip : φ → Bool) (strict : Bool) :
    List φ → List (TargetFunc φ) → Space φ → Bool × List (TargetFunc φ) × Space φ
  | [], targets, s => (true, targets, s)
  | f :: funcs, targets, s =>
    if skip f then callbackLoop snippet skip strict funcs targets s
    else
      let (ok, s) := s.insert accepts (snippet (img.object f))
      if strict && !ok then (false, targets, s)
      else callbackLoop snippet skip strict funcs (targets ++ [⟨f, uintMax⟩]) s

/-- The second part of the two `insertExit`: the first function that matches the pattern calls the library first. -/
def insertThreadExit (pattern : CString) (found : Bool) (s : Space φ) : Bool × Space φ :=
  match img.findFunction pattern with
  | [] => (true, s)
  | f :: _ => if !img.hasEntry f then (true, s) else if !found then (false, s) else s.insert accepts ⟨.entry f, .threadExit⟩

end Insert

/-! ### Runs of a program with snippets -/

section Execute

variable {φ : Type} [DecidableEq φ]

def callsAt (snippets : List (Snippet φ)) (site : Site φ) : List LibCall :=
  (snippets.filter (·.site = site)).map Snippet.call

/-- The calls of the library in a run that passes the points of `trace`. -/
def execute (snippets : List (Snippet φ)) (trace : List (Site φ)) : List LibCall := trace.flatMap (callsAt snippets)

end Execute

/-! ### The counting calls -/

variable {φ : Type} {img : Image φ} {accepts : Nat → Bool} {s : Space φ} {tf : TargetFunc φ}
  {targets : List (TargetFunc φ)}

/-- The snippets for the targets, in the order they are inserted. -/
def countSnippets (img : Image φ) (targets : List (TargetFunc φ)) : List (Snippet φ) :=
  (targets.filter (Counted img)).flatMap fun tf => [⟨.entry tf.func, .pre tf.index⟩, ⟨.exit tf.func, .post tf.index⟩]

/-- Insertions up to the first that fails. -/
def insertAll (accepts : Nat → Bool) : List (Snippet φ) → Space φ → Bool × Space φ
  | [], s => (true, s)
  | snippet :: l, s =>
    match s.insert accepts snippet with
    | (false, s) => (false, s)
    | (true, s) => insertAll accepts l s

theorem insertCount_eq (targets : List (TargetFunc φ)) (s : Space φ) :
    insertCount img accepts targets s = insertAll accepts (countSnippets img targets) s := by
  induction targets generalizing s with
  | nil => rfl
  | cons tf targets ih =>
    by_cases hc : Counted img tf = true
    · have hsnippets : countSnippets img (tf :: targets) =
          ⟨.entry tf.func, .pre tf.index⟩ :: ⟨.exit tf.func, .post tf.index⟩ :: countSnippets img targets := by
        simp [countSnippets, hc]
      simp only [insertCount, hc, hsnippets, insertAll, if_true, ih]
    · have hsnippets : countSnippets img (tf :: targets) = countSnippets img targets := by
        simp [countSnippets, hc]
      rw [insertCount, if_neg hc, hsnippets, ih]

theorem insertAll_spec (accepts : Nat → Bool) (l : List (Snippet φ)) (s : Space φ) :
    ∃ l', l' <+: l ∧ (insertAll accepts l s).2.snippets = l'.reverse ++ s.snippets ∧
      ((insertAll accepts l s).1 = true → l' = l) := by
  induction l generalizing s with
  | nil => exact ⟨[], List.nil_prefix, rfl, fun _ => rfl⟩
  | cons snippet l ih =>
    unfold insertAll Space.insert
    by_cases ha : accepts s.tried = true
    · obtain ⟨l', hprefix, hl', hall⟩ := ih ⟨snippet :: s.snippets, s.tried + 1⟩
      simp only [ha, if_true]
      refine ⟨snippet :: l', List.prefix_cons_inj snippet |>.2 hprefix, by simp [hl'], fun hok => ?_⟩
      rw [hall hok]
    · simp only [ha]
      exact ⟨[], List.nil_prefix, rfl, fun hok => by cases hok⟩

/-! ### What a run calls -/

variable [DecidableEq φ]

theorem callsAt_append (l l' : List (Snippet φ)) (site : Site φ) :
    callsAt (l ++ l') site = callsAt l site ++ callsAt l' site := by
  simp [callsAt]

theorem callsAt_reverse (l : List (Snippet φ)) (site : Site φ) : callsAt l.reverse site = (callsAt l site).reverse := by
  simp [callsAt]

/-- The counting calls at a point, for the targets that are counted. -/
def countCalls (counted : List (TargetFunc φ)) : Site φ → List LibCall
  | .entry f => (counted.filter (·.func = f)).map fun tf => .pre tf.index
  | .exit f => (counted.filter (·.func = f)).map fun tf => .post tf.index
  | .init _ => []
  | .fini _ => []

theorem callsAt_countSnippets (targets : List (TargetFunc φ)) (site : Site φ) :
    callsAt (countSnippets img targets) site = countCalls (targets.filter (Counted img)) site := by
  unfold countSnippets
  induction targets.filter (Counted img) with
  | nil => cases site <;> rfl
  | cons tf counted ih =>
    rw [List.flatMap_cons, callsAt_append, ih]
    cases site with
    | entry f => by_cases hf : tf.func = f <;> simp [callsAt, countCalls, hf]
    | exit f => by_cases hf : tf.func = f <;> simp [callsAt, countCalls, hf]
    | init obj => simp [callsAt, countCalls]
    | fini obj => simp [callsAt, countCalls]

end StubProfile.Tools
