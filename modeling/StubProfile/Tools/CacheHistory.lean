import StubProfile.Lib.Machine
import StubProfile.Tools.CacheRoundTrip

/-!
# The cache files over time

ELF files are modified and function maps are loaded, in any order, by processes that come and go.  A map that is
built on an object and loaded without force should be the map a forced load would compute (`LoadExact`).

The cache is keyed by the name of the object and compared with the modification time of its path, at whole seconds
and with `>`.  So it goes wrong when the cache file was written for another ELF file with the same base name, and
when the ELF file is modified again in the second its cache file was written.  Nothing closes or flushes the stream
that writes the cache file: what is in its buffer gets into the file whenever the process makes room or ends, so a
load may find a part of the text, and a flush may come after a modification of the ELF file.  `CacheStep` excludes
the three.  Under it every cache file is still being written, empty, older than the ELF file it was written for, or
holds the names of that file (`CacheInv`), and then every load gives the right map (`loadExact_of_cacheStep`).
-/

namespace StubProfile.Tools

open Interning Lines Machine

/-- Who loads: a map built on an object, from a name and a path, or from a path alone, which fills the skip list
only if an earlier map of the process has. -/
inductive Loader where
  | object (name path : CString)
  | named (name path : CString)
  | byPath (path : CString) (filled : Bool)
deriving DecidableEq, Repr

/-- The map before it is loaded.  An object has the modules of the ELF file at its path. -/
def Loader.funcMap (fs : Fs) : Loader → FuncMap
  | .object name path => FuncMap.ofObject name path (((fs.elf path).map Elf.modules).getD [])
  | .named name path => FuncMap.ofNamePath name path
  | .byPath path _ => FuncMap.ofPath path

def Loader.skiplist : Loader → List CString
  | .object _ _ => initSkipList []
  | .named _ _ => initSkipList []
  | .byPath _ filled => if filled then initSkipList [] else []

/-- One event of a history.  A load comes with the outcomes of its system calls, a flush with the stream and the
number of characters that leave its buffer. -/
inductive Op where
  | tick (seconds : Nat)
  | modify (path : CString) (modules : List (List CString))
  | load (ld : Loader) (force : Bool) (env : Env)
  | flush (i n : Nat)

/-- A stream `updateCache` has opened: the name of the cache file, how much the stream has written to it, and what is
in the buffer. -/
structure CacheStream where
  name : CString
  offset : Nat
  buffer : List Char
deriving DecidableEq, Repr

/-- The stream of a load that wrote a cache file. -/
def CacheStream.opened (env : Env) (fm : FuncMap) : CacheStream :=
  ⟨fm.elfName, (env.written (cacheText fm)).length, env.unwritten (cacheText fm)⟩

/-- The stream after `n` more characters. -/
def CacheStream.advance (s : CacheStream) (n : Nat) : CacheStream :=
  ⟨s.name, s.offset + (s.buffer.take n).length, s.buffer.drop n⟩

/-- The file system, the time, for each cache file the path it was written for, and the streams in the order they were
opened. -/
structure World where
  clock : Nat
  fs : Fs
  origin : CString → Option CString
  streams : List CacheStream

def World.initial : World := ⟨0, ⟨fun _ => none, fun _ => .absent⟩, fun _ => none, []⟩

def World.load (w : World) (ld : Loader) (force : Bool) (env : Env) : Except Fault (Bool × FuncMap × Fs) :=
  Tools.load { env with now := w.clock } ld.skiplist force (ld.funcMap w.fs) w.fs

/-- The text of a file after a write at an offset inside it. -/
def writeAt (text : List Char) (offset : Nat) (chunk : List Char) : List Char :=
  text.take offset ++ chunk ++ text.drop (offset + chunk.length)

/-- The next `n` characters of the stream `i` get into its file.  A write of nothing leaves the modification time
alone, and a write behind the end, of a stream whose file another one has truncated, leaves a hole. -/
def World.flush (w : World) (i n : Nat) : Except Fault World :=
  match w.streams[i]? with
  | none => .ok w
  | some s =>
    if s.buffer.take n = [] then .ok w
    else
      match w.fs.cache s.name with
      | .file _ text =>
        if text.length < s.offset then .error .hole
        else
          .ok { w with
            fs := { w.fs with
              cache := Function.update w.fs.cache s.name
                (.file w.clock (writeAt text s.offset (s.buffer.take n))) }
            streams := w.streams.set i (s.advance n) }
      | _ => .ok { w with streams := w.streams.set i (s.advance n) }

def World.step (w : World) : Op → Except Fault World
  | .tick seconds => .ok { w with clock := w.clock + seconds }
  | .modify path modules =>
    .ok { w with fs := { w.fs with elf := Function.update w.fs.elf path (some ⟨w.clock, modules⟩) } }
  | .load ld force env =>
    match w.load ld force env with
    | .error e => .error e
    | .ok (ok, fm, fs) =>
      if ok && ReadsElf force (ld.funcMap w.fs) w.fs then
        .ok { w with
          fs := fs
          origin := Function.update w.origin fm.elfName (some fm.elfPath)
          streams := w.streams ++ [CacheStream.opened env fm] }
      else .ok { w with fs := fs }
  | .flush i n => w.flush i n

/-- An unforced load of a map on an object that returns true gives the map any forced load would compute. -/
def LoadExact (w : World) : Op → Prop
  | .load (.object name path) false env =>
    ∀ fm fs, w.load (.object name path) false env = .ok (true, fm, fs) →
      ∀ env' r, w.load (.object name path) true env' = .ok r → r.2.1 = fm
  | _ => True

/-- The stream `i` has characters in its buffer. -/
def World.Pending (w : World) (i : Nat) (s : CacheStream) : Prop := w.streams[i]? = some s ∧ s.buffer ≠ []

/-- Everything that was written to the cache file of the name is in it. -/
def World.Flushed (w : World) (name : CString) : Prop := ∀ i s, w.Pending i s → s.name ≠ name

/-- An ELF file is modified when the cache files written for it are flushed, and not in the second in which one of
them was written (or earlier).  A map is loaded when the cache file of its name is flushed, and a map on an object that
finds its cache file up to date finds the one written for its own path. -/
def CacheStep (w : World) : Op → Prop
  | .modify path _ =>
    ∀ name, w.origin name = some path → w.Flushed name ∧
      ∀ mtime text, w.fs.cache name = .file mtime text → text ≠ [] → mtime < w.clock
  | .load (.object name path) false _ =>
    w.Flushed name ∧
      (checkState (Loader.funcMap w.fs (.object name path)) w.fs = .cached → w.origin name = some path)
  | .load ld _ _ => w.Flushed (ld.funcMap w.fs).elfName
  | _ => True

def ShortName (n : CString) : Prop := n ≠ [] ∧ n.length ≤ 254 ∧ '\n' ∉ n

def Op.ShortNames : Op → Prop
  | .modify _ modules => ∀ n ∈ modules.flatten, ShortName n
  | _ => True

/-! ### What a load does -/

variable {env : Env} {skiplist : List CString} {force ok : Bool} {fm fm' : FuncMap} {fs fs' : Fs} {w w' : World}
  {ld : Loader} {op : Op}

private theorem loadFromELF_cases (h : loadFromELF env skiplist fm fs = (ok, fm', fs')) :
    (ok = false ∧ fs' = fs) ∨
    (ok = true ∧ ∃ names, elfNames env fm fs = some names ∧ fm' = addFunctions skiplist fm names ∧
      fs' = { fs with cache := Function.update fs.cache fm'.elfName (.file env.now (env.written (cacheText fm'))) }) := by
  unfold loadFromELF at h
  cases hn : elfNames env fm fs with
  | none =>
    rw [hn] at h
    cases h
    exact .inl ⟨rfl, rfl⟩
  | some names =>
    rw [hn] at h
    simp only [Prod.mk.injEq] at h
    obtain ⟨h1, rfl, h3⟩ := h
    unfold updateCache at h1 h3
    by_cases hd : env.dirOk = true
    · by_cases hw : env.writeOk = true
      · simp only [hd, hw, Bool.not_true, Bool.false_eq_true, ↓reduceIte] at h1 h3
        exact .inr ⟨h1.symm, names, rfl, rfl, h3.symm⟩
      · simp only [hd, hw, Bool.not_true, Bool.not_false, Bool.false_eq_true, ↓reduceIte] at h1 h3
        exact .inl ⟨h1.symm, h3.symm⟩
    · simp only [hd, Bool.not_false, ↓reduceIte] at h1 h3
      exact .inl ⟨h1.symm, h3.symm⟩

private theorem Loader.isNew (fs : Fs) (ld : Loader) : (ld.funcMap fs).IsNew := by
  cases ld <;> exact ⟨rfl, rfl⟩

private theorem Loader.elfNames_eq {names : List CString} (h : elfNames env (ld.funcMap fs) fs = some names) :
    names = [] ∨ ∃ elf, fs.elf (ld.funcMap fs).elfPath = some elf ∧ names = elf.modules.flatten := by
  -- a map without an object opens the file at its path
  have hpath : ∀ (fm : FuncMap) (p : CString), fm.obj = none → fm.elfPath = p → elfNames env fm fs = some names →
      ∃ elf, fs.elf p = some elf ∧ names = elf.modules.flatten := by
    intro fm p ho hp hn
    unfold elfNames at hn
    simp only [ho, hp] at hn
    split at hn
    · cases he : fs.elf p with
      | none => simp [he] at hn
      | some elf => exact ⟨elf, rfl, by simpa [he] using hn.symm⟩
    · cases hn
  cases ld with
  | object name path =>
    simp only [Loader.funcMap, FuncMap.ofObject, elfNames, Option.some.injEq] at h
    cases he : fs.elf path with
    | none =>
      rw [he] at h
      exact .inl h.symm
    | some elf =>
      rw [he] at h
      exact .inr ⟨elf, he, h.symm⟩
  | named name path => exact .inr (hpath _ _ rfl rfl h)
  | byPath path filled => exact .inr (hpath _ _ rfl rfl h)

private theorem Loader.skiplist_subset (ld : Loader) : ∀ func ∈ ld.skiplist, func ∈ initSkipList [] := by
  cases ld with
  | object name path => exact fun _ h => h
  | named name path => exact fun _ h => h
  | byPath path filled =>
    cases filled
    · intro func h
      cases h
    · exact fun _ h => h

private theorem CacheStep.flushed (h : CacheStep w (.load ld force env)) : w.Flushed (ld.funcMap w.fs).elfName := by
  cases ld with
  | object name path =>
    cases force with
    | false => exact h.1
    | true => exact h
  | named name path => exact h
  | byPath path filled => exact h

/-- A load that returns leaves the world alone, or writes the cache file of its name and keeps the stream open. -/
private theorem World.step_load (hs : w.step (.load ld force env) = .ok w') :
    w' = w ∨
    ∃ names, elfNames { env with now := w.clock } (ld.funcMap w.fs) w.fs = some names ∧
      w' = { w with
        fs := { w.fs with
          cache := Function.update w.fs.cache (ld.funcMap w.fs).elfName
            (.file w.clock (env.written (unlines '\n' (keptNames ld.skiplist names)))) }
        origin := Function.update w.origin (ld.funcMap w.fs).elfName (some (ld.funcMap w.fs).elfPath)
        streams := w.streams ++
          [CacheStream.opened env ((ld.funcMap w.fs).withNames (keptNames ld.skiplist names))] } := by
  simp only [World.step] at hs
  cases hl : w.load ld force env with
  | error e => simp [hl] at hs
  | ok r =>
    obtain ⟨ok, fm, fs⟩ := r
    simp only [hl] at hs
    rcases load_cases hl with ⟨hr, helf⟩ | ⟨hr, rfl, -⟩ | ⟨hr, rfl, -⟩
    · rcases loadFromELF_cases helf with ⟨rfl, rfl⟩ | ⟨rfl, names, hnames, rfl, rfl⟩
      · simp only [Bool.false_and, Bool.false_eq_true, ↓reduceIte, Except.ok.injEq] at hs
        exact .inl hs.symm
      · simp only [hr, decide_true, Bool.and_self, ↓reduceIte, Except.ok.injEq] at hs
        rw [(Loader.isNew w.fs ld).addFunctions] at hs
        exact .inr ⟨names, hnames, hs.symm⟩
    · simp only [hr, decide_false, Bool.and_false, Bool.false_eq_true, ↓reduceIte, Except.ok.injEq] at hs
      exact .inl hs.symm
    · simp only [hr, decide_false, Bool.and_false, Bool.false_eq_true, ↓reduceIte, Except.ok.injEq] at hs
      exact .inl hs.symm

/-! ### The invariant -/

/-- The text is that of a map filled from the names, with the skip list filled or not. -/
def IsCacheOf (text : List Char) (names : List CString) : Prop :=
  ∃ s : List CString, (∀ func ∈ s, func ∈ initSkipList []) ∧ text = unlines '\n' (keptNames s names)

/-- The names in the ELF files are short.  At most one stream of a cache file is not flushed, and the file and its
buffer are the cache of the ELF file it was opened for.  A cache file that is flushed is empty, out of date, or the
cache of the ELF file it was written for. -/
structure CacheInv (w : World) : Prop where
  short : ∀ {path elf}, w.fs.elf path = some elf → ∀ n ∈ elf.modules.flatten, ShortName n
  single : ∀ {i j s t}, w.Pending i s → w.Pending j t → s.name = t.name → i = j
  pending : ∀ {i s}, w.Pending i s → ∃ mtime text path elf, w.fs.cache s.name = .file mtime text ∧
    text.length = s.offset ∧ w.origin s.name = some path ∧ w.fs.elf path = some elf ∧
      IsCacheOf (text ++ s.buffer) elf.modules.flatten
  flushed : ∀ {name mtime text}, w.Flushed name → w.fs.cache name = .file mtime text → text ≠ [] →
    ∃ path elf, w.origin name = some path ∧ w.fs.elf path = some elf ∧
      (mtime < elf.mtime ∨ IsCacheOf text elf.modules.flatten)

private theorem cacheInv_initial : CacheInv World.initial := by
  refine ⟨?_, ?_, ?_, ?_⟩
  · intro path elf h
    cases h
  · intro i j s t h
    cases h.1
  · intro i s h
    cases h.1
  · intro name mtime text _ h
    cases h

private theorem CacheInv.modify (h : CacheInv w) {path : CString} {modules : List (List CString)}
    (hc : CacheStep w (.modify path modules)) (hn : Op.ShortNames (.modify path modules)) :
    CacheInv { w with fs := { w.fs with elf := Function.update w.fs.elf path (some ⟨w.clock, modules⟩) } } := by
  refine ⟨?_, h.single, ?_, ?_⟩
  · intro p elf he
    by_cases hp : p = path
    · subst hp
      simp only [Function.update_self, Option.some.injEq] at he
      subst he
      exact hn
    · simp only [Function.update_of_ne hp] at he
      exact h.short he
  · intro i s hs
    obtain ⟨mtime, text, p, elf, hf, hlen, ho, he, hof⟩ := h.pending hs
    have hp : p ≠ path := by
      rintro rfl
      exact (hc s.name ho).1 i s hs rfl
    exact ⟨mtime, text, p, elf, hf, hlen, ho, by simpa [Function.update_of_ne hp] using he, hof⟩
  · intro name mtime text hfl ht hne
    obtain ⟨p, elf, ho, he, hcase⟩ := h.flushed hfl ht hne
    by_cases hp : p = path
    · -- the modification makes the cache file out of date
      subst hp
      exact ⟨p, ⟨w.clock, modules⟩, ho, by simp, .inl ((hc name ho).2 mtime text ht hne)⟩
    · exact ⟨p, elf, ho, by simpa [Function.update_of_ne hp] using he, hcase⟩

/-- A stream with characters in its buffer was there before, or is the new one. -/
private theorem pending_concat {streams : List CacheStream} {s₀ s : CacheStream} {i : Nat}
    (h : (streams ++ [s₀])[i]? = some s) : streams[i]? = some s ∨ (i = streams.length ∧ s = s₀) := by
  rcases Nat.lt_or_ge i streams.length with hi | hi
  · rw [List.getElem?_append_left hi] at h
    exact .inl h
  · rw [List.getElem?_append_right hi, List.getElem?_singleton] at h
    split at h
    · cases h
      exact .inr ⟨by omega, rfl⟩
    · cases h

private theorem CacheInv.load (h : CacheInv w) (hc : CacheStep w (.load ld force env))
    (hs : w.step (.load ld force env) = .ok w') : CacheInv w' := by
  rcases World.step_load hs with rfl | ⟨names, hnames, rfl⟩
  · exact h
  have hfl := hc.flushed
  -- a stream of the old world that is not flushed has another name
  have hold : ∀ {i : Nat} {s : CacheStream}, w.streams[i]? = some s → s.buffer ≠ [] →
      s.name ≠ (ld.funcMap w.fs).elfName := fun hi hb => hfl _ _ ⟨hi, hb⟩
  -- what has left the buffer and what has not is the cache of the ELF file
  have hnew : ∀ {text : List Char}, text = unlines '\n' (keptNames ld.skiplist names) → text ≠ [] →
      ∃ elf, w.fs.elf (ld.funcMap w.fs).elfPath = some elf ∧ IsCacheOf text elf.modules.flatten := by
    rintro text rfl hne
    rcases Loader.elfNames_eq hnames with rfl | ⟨elf, he, rfl⟩
    · exact absurd rfl hne
    · exact ⟨elf, he, ld.skiplist, ld.skiplist_subset, rfl⟩
  refine ⟨h.short, ?_, ?_, ?_⟩
  · rintro i j s t ⟨hi, hbi⟩ ⟨hj, hbj⟩ hname
    rcases pending_concat hi with hi | ⟨rfl, rfl⟩ <;> rcases pending_concat hj with hj | ⟨rfl, rfl⟩
    · exact h.single ⟨hi, hbi⟩ ⟨hj, hbj⟩ hname
    · exact absurd hname (hold hi hbi)
    · exact absurd hname.symm (hold hj hbj)
    · rfl
  · rintro i s ⟨hi, hb⟩
    rcases pending_concat hi with hi | ⟨rfl, rfl⟩
    · simp only [Function.update_of_ne (hold hi hb)]
      exact h.pending ⟨hi, hb⟩
    · obtain ⟨elf, he, hof⟩ := hnew (env.written_append_unwritten _) (List.append_ne_nil_of_right_ne_nil _ hb)
      exact ⟨w.clock, _, _, elf, Function.update_self .., rfl, Function.update_self .., he, hof⟩
  · intro name mtime text hflushed ht hne
    by_cases hname : name = (ld.funcMap w.fs).elfName
    · -- a new file that is flushed holds the whole text
      subst hname
      simp only [Function.update_self, Cache.file.injEq] at ht ⊢
      obtain ⟨-, rfl⟩ := ht
      have hb : env.unwritten (unlines '\n' (keptNames ld.skiplist names)) = [] := by
        by_contra hb
        exact hflushed w.streams.length _ ⟨List.getElem?_concat_length, hb⟩ rfl
      have htext := env.written_append_unwritten (unlines '\n' (keptNames ld.skiplist names))
      rw [hb, List.append_nil] at htext
      obtain ⟨elf, he, hof⟩ := hnew htext hne
      exact ⟨_, elf, rfl, he, .inr hof⟩
    · simp only [Function.update_of_ne hname] at ht ⊢
      refine h.flushed ?_ ht hne
      rintro i s ⟨hi, hb⟩
      refine hflushed i s ⟨?_, hb⟩
      show (w.streams ++ _)[i]? = some s
      rw [List.getElem?_append_left (List.getElem?_eq_some_iff.1 hi).1, hi]

private theorem getElem?_set_cases {streams : List CacheStream} {s' t : CacheStream} {i j : Nat}
    (h : (streams.set i s')[j]? = some t) : (j = i ∧ t = s') ∨ (j ≠ i ∧ streams[j]? = some t) := by
  by_cases hj : j = i
  · subst hj
    rw [List.getElem?_set_self'] at h
    cases hs : streams[j]? with
    | none =>
      rw [hs] at h
      cases h
    | some _ =>
      rw [hs] at h
      exact .inl ⟨rfl, (Option.some.inj h).symm⟩
  · rw [List.getElem?_set_ne (Ne.symm hj)] at h
    exact .inr ⟨hj, h⟩

/-- A flush adds to the end of the file of a stream that was not flushed. -/
private theorem CacheInv.flush_cases (h : CacheInv w) {i n : Nat} (hs : w.flush i n = .ok w') :
    w' = w ∨ ∃ s mtime text, w.Pending i s ∧ w.fs.cache s.name = .file mtime text ∧
      w' = { w with
        fs := { w.fs with cache := Function.update w.fs.cache s.name (.file w.clock (text ++ s.buffer.take n)) }
        streams := w.streams.set i (s.advance n) } := by
  unfold World.flush at hs
  cases hi : w.streams[i]? with
  | none =>
    rw [hi] at hs
    exact .inl (Except.ok.inj hs).symm
  | some s =>
    simp only [hi] at hs
    split at hs
    · exact .inl (Except.ok.inj hs).symm
    · rename_i hchunk
      have hp : w.Pending i s := ⟨hi, fun hb => hchunk (by rw [hb, List.take_nil])⟩
      obtain ⟨mtime, text, -, -, hf, hlen, -⟩ := h.pending hp
      simp only [hf, hlen, Nat.lt_irrefl, ↓reduceIte, Except.ok.injEq] at hs
      have hwrite : writeAt text s.offset (s.buffer.take n) = text ++ s.buffer.take n := by
        rw [writeAt, ← hlen, List.take_length, List.drop_of_length_le (Nat.le_add_right ..), List.append_nil]
      rw [hwrite] at hs
      exact .inr ⟨s, mtime, text, hp, hf, hs.symm⟩

private theorem CacheInv.flush (h : CacheInv w) {i n : Nat} (hs : w.flush i n = .ok w') : CacheInv w' := by
  rcases h.flush_cases hs with rfl | ⟨s, mtime, text, hp, hf, rfl⟩
  · exact h
  -- another stream that is not flushed has another name, and was there before
  have hother : ∀ {j : Nat} {t : CacheStream}, w.streams[j]? = some t → t.buffer ≠ [] → j ≠ i → t.name ≠ s.name :=
    fun hj hb hne hname => hne (h.single ⟨hj, hb⟩ hp hname)
  obtain ⟨mtime', text', path, elf, hf', hlen, ho, he, hof⟩ := h.pending hp
  rw [hf] at hf'
  cases hf'
  have htext : text ++ s.buffer.take n ++ s.buffer.drop n = text ++ s.buffer := by
    rw [List.append_assoc, List.take_append_drop]
  refine ⟨h.short, ?_, ?_, ?_⟩
  · rintro j k t u ⟨hj, hbj⟩ ⟨hk, hbk⟩ hname
    rcases getElem?_set_cases hj with ⟨hji, rfl⟩ | ⟨hji, hj'⟩ <;>
      rcases getElem?_set_cases hk with ⟨hki, rfl⟩ | ⟨hki, hk'⟩
    · rw [hji, hki]
    · exact absurd hname.symm (hother hk' hbk hki)
    · exact absurd hname (hother hj' hbj hji)
    · exact h.single ⟨hj', hbj⟩ ⟨hk', hbk⟩ hname
  · rintro j t ⟨hj, hb⟩
    rcases getElem?_set_cases hj with ⟨rfl, rfl⟩ | ⟨hji, hj⟩
    · refine ⟨w.clock, _, path, elf, Function.update_self .., ?_, ho, he, ?_⟩
      · simp [CacheStream.advance, hlen]
      · exact htext ▸ hof
    · simp only [Function.update_of_ne (hother hj hb hji)]
      exact h.pending ⟨hj, hb⟩
  · intro name mtime' text' hflushed ht hne
    by_cases hname : name = s.name
    · -- the buffer is empty now
      subst hname
      simp only [Function.update_self, Cache.file.injEq] at ht
      obtain ⟨-, rfl⟩ := ht
      have hdrop : s.buffer.drop n = [] := by
        by_contra hb
        exact hflushed i (s.advance n) ⟨List.getElem?_set_self (List.getElem?_eq_some_iff.1 hp.1).1, hb⟩ rfl
      rw [hdrop, List.append_nil] at htext
      exact ⟨path, elf, ho, he, .inr (htext ▸ hof)⟩
    · simp only [Function.update_of_ne hname] at ht
      refine h.flushed ?_ ht hne
      rintro j t ⟨hj, hb⟩ rfl
      have hji : j ≠ i := by
        rintro rfl
        rw [hp.1] at hj
        cases hj
        exact hname rfl
      refine hflushed j t ⟨?_, hb⟩ rfl
      show (w.streams.set i _)[j]? = some t
      rw [List.getElem?_set_ne hji.symm, hj]

private theorem cacheInv_step (h : CacheInv w) (hc : CacheStep w op) (hn : op.ShortNames) (hs : w.step op = .ok w') :
    CacheInv w' := by
  cases op with
  | tick seconds =>
    cases hs
    exact ⟨h.short, h.single, h.pending, h.flushed⟩
  | modify path modules =>
    cases hs
    exact h.modify hc hn
  | load ld force env => exact h.load hc hs
  | flush i n => exact h.flush hs

/-! ### The loads -/

private theorem loadFromCache_isCacheOf {mtime : Nat} {text : List Char} {names : List CString} (hnew : fm.IsNew)
    (hfile : fs.cache fm.elfName = .file mtime text) (hne : text ≠ []) (hcache : IsCacheOf text names)
    (hshort : ∀ n ∈ names, ShortName n) (h : loadFromCache env (initSkipList []) fm fs = .ok (true, fm')) :
    fm' = fm.withNames (keptNames (initSkipList []) names) := by
  obtain ⟨s, hs, rfl⟩ := hcache
  have hkept : keptNames s names ≠ [] := by
    intro h0
    rw [h0] at hne
    exact hne rfl
  have hlines := cacheLines_unlines hkept fun n hn => hshort n (mem_keptNames.1 hn).1
  obtain ⟨mtime', text', lines, hfile', hl, rfl⟩ := loadFromCache_true h
  rw [hfile] at hfile'
  cases hfile'
  rw [hlines] at hl
  cases hl
  rw [hnew.addFunctions, keptNames_reread hs]

private theorem loadExact_of_cacheInv (h : CacheInv w) (hc : CacheStep w op) : LoadExact w op := by
  unfold LoadExact
  split
  · rename_i name path env
    intro fm fs hl env' r hr
    -- the forced load
    have hforce : r.2.1 = (Loader.funcMap w.fs (.object name path)).withNames
        (keptNames (initSkipList []) ((((w.fs.elf path).map Elf.modules).getD []).flatten)) := by
      rw [← Except.ok.inj hr]
      exact (Loader.isNew w.fs (.object name path)).addFunctions _
    rw [hforce]
    rcases load_cases hl with ⟨-, helf⟩ | ⟨-, -, hst, hcached⟩ | ⟨-, -, hfalse⟩
    · rcases loadFromELF_cases helf with ⟨hfalse, -⟩ | ⟨-, names, hnames, rfl, -⟩
      · cases hfalse
      · have hflat := Option.some.inj hnames
        subst hflat
        exact ((Loader.isNew w.fs (.object name path)).addFunctions _).symm
    · -- the cache file is not empty, not older than the ELF file, and was written for this path
      obtain ⟨elf, mtime, text, he, hf, hold, hne⟩ := checkState_cached hst
      obtain ⟨p, elf', ho, he', hcase⟩ := h.flushed hc.1 hf hne
      have hpath := (hc.2 hst).symm.trans ho
      cases hpath
      rw [show w.fs.elf path = some elf from he] at he'
      cases he'
      have hof : IsCacheOf text elf.modules.flatten := hcase.resolve_left (Nat.not_lt.2 hold)
      have hnames : (((w.fs.elf path).map Elf.modules).getD []).flatten = elf.modules.flatten := by
        rw [show w.fs.elf path = some elf from he]
        rfl
      rw [hnames]
      exact (loadFromCache_isCacheOf (Loader.isNew w.fs (.object name path)) hf hne hof (h.short he) hcached).symm
    · cases hfalse
  · trivial

/-- In a history whose steps all meet `CacheStep`, every unforced load on an object gives the map of the ELF file. -/
theorem loadExact_of_cacheStep {l : List Op} (hn : ∀ op ∈ l, op.ShortNames)
    (hm : Meets World.step CacheStep World.initial l) : Meets World.step LoadExact World.initial l := by
  have hinv := cacheInv_initial
  generalize World.initial = w at hinv hm ⊢
  induction l generalizing w with
  | nil => trivial
  | cons op l ih =>
    intro w' hs
    obtain ⟨hc, hm'⟩ := hm w' hs
    refine ⟨loadExact_of_cacheInv hinv hc, ?_⟩
    exact ih (fun op' h => hn op' (by simp [h])) w' (cacheInv_step hinv hc (hn op (by simp)) hs) hm'

private theorem World.flushed_of_forall {name : CString} (h : ∀ s ∈ w.streams, s.buffer = []) : w.Flushed name :=
  fun _ s hp _ => hp.2 (h s (List.mem_of_getElem? hp.1))

/-- The load of an ELF file gets two characters into the cache file, and the others follow a second later.  Then the ELF
file is modified and loaded again, with nothing in the cache file until two flushes have brought all of the text, and
the last load reads it from there. -/
theorem loadExact_modified_later :
    Meets World.step LoadExact World.initial
      [.modify "/bin/prog".toList [["main".toList]],
        .load (.object "prog".toList "/bin/prog".toList) false ⟨0, true, true, true, true, some 2⟩,
        .tick 1, .flush 0 4096, .tick 1, .modify "/bin/prog".toList [["main".toList, "usage".toList]],
        .load (.object "prog".toList "/bin/prog".toList) false ⟨0, true, true, true, true, some 0⟩,
        .flush 1 7, .tick 1, .flush 1 4096,
        .load (.object "prog".toList "/bin/prog".toList) false (Env.good 0)] := by
  apply loadExact_of_cacheStep
  · simp [Op.ShortNames, ShortName]
  refine Meets.cons rfl (fun _ ho => by cases ho) ?_
  refine Meets.cons rfl ⟨World.flushed_of_forall (by decide), fun h => by cases h⟩ ?_
  refine Meets.cons rfl trivial (Meets.cons rfl trivial (Meets.cons rfl trivial ?_))
  refine Meets.cons rfl ?_ ?_
  · intro name ho
    refine ⟨World.flushed_of_forall (by decide), ?_⟩
    intro mtime text hf _
    by_cases hname : name = "prog".toList
    · subst hname
      cases hf
      decide
    · have ho' : Function.update (fun _ => none) "prog".toList (some "/bin/prog".toList) name =
          some "/bin/prog".toList := ho
      rw [Function.update_of_ne hname] at ho'
      cases ho'
  refine Meets.cons rfl ⟨World.flushed_of_forall (by decide), fun h => by cases h⟩ ?_
  refine Meets.cons rfl trivial (Meets.cons rfl trivial (Meets.cons rfl trivial ?_))
  intro w' _
  exact ⟨⟨World.flushed_of_forall (by decide), fun _ => rfl⟩, trivial⟩

/-- Two ELF files with the same base name: the cache file written for the first one is up to date for the second
one, whose map then holds the names of the first. -/
theorem cache_of_same_name :
    ∃ w, run World.step World.initial
        [.modify "/a/prog".toList [["main".toList]], .modify "/b/prog".toList [["work".toList]],
          .load (.object "prog".toList "/a/prog".toList) false (Env.good 0)] = .ok w ∧
      ¬ LoadExact w (.load (.object "prog".toList "/b/prog".toList) false (Env.good 0)) := by
  obtain ⟨w, hrun, hfile, helf⟩ : ∃ w, run World.step World.initial
        [.modify "/a/prog".toList [["main".toList]], .modify "/b/prog".toList [["work".toList]],
          .load (.object "prog".toList "/a/prog".toList) false (Env.good 0)] = .ok w ∧
      w.fs.cache "prog".toList = .file 0 (unlines '\n' ["main".toList]) ∧
      w.fs.elf "/b/prog".toList = some ⟨0, [["work".toList]]⟩ := ⟨_, rfl, rfl, rfl⟩
  refine ⟨w, hrun, ?_⟩
  intro h
  have hlines : cacheLines [] (unlines '\n' ["main".toList]) false = .ok ["main".toList, "main".toList] :=
    cacheLines_unlines (by simp) (by decide)
  have hcached : checkState (Loader.funcMap w.fs (.object "prog".toList "/b/prog".toList)) w.fs = .cached := by
    simp only [checkState, Loader.funcMap, FuncMap.ofObject, hfile, helf]
    decide
  have hread : loadFromCache { Env.good 0 with now := w.clock } (initSkipList [])
      (Loader.funcMap w.fs (.object "prog".toList "/b/prog".toList)) w.fs =
        .ok (true, addFunctions (initSkipList []) (Loader.funcMap w.fs (.object "prog".toList "/b/prog".toList))
          ["main".toList, "main".toList]) := by
    have hname : (Loader.funcMap w.fs (.object "prog".toList "/b/prog".toList)).elfName = "prog".toList := rfl
    simp only [loadFromCache, hname, hfile, hlines]
    rfl
  have hload : w.load (.object "prog".toList "/b/prog".toList) false (Env.good 0) =
      .ok (true, addFunctions (initSkipList []) (Loader.funcMap w.fs (.object "prog".toList "/b/prog".toList))
        ["main".toList, "main".toList], w.fs) := by
    have hskip : Loader.skiplist (.object "prog".toList "/b/prog".toList) = initSkipList [] := rfl
    simp only [World.load, load, hskip, hcached, hread, Bool.false_eq_true, ↓reduceIte]
  have hforce := h _ _ hload (Env.good 0) _ rfl
  have hfuncs := congrArg FuncMap.funcs hforce
  simp only [loadFromELF, elfNames, Loader.funcMap, FuncMap.ofObject, helf] at hfuncs
  revert hfuncs
  decide

end StubProfile.Tools
