import StubProfile.Tools.FuncMap

/-!
# Writing a cache file and reading it back

`updateCache` prints one name a line, of any length; `loadFromCache` reads through a buffer of `FUNC_NAME_MAX`
characters in a loop driven by `feof`.  A line with at most 254 characters fits (`cacheLines_short`), and the last
line is passed to `addFunction` twice, which does no harm.  A line of 255 characters fills the buffer, its newline
is read alone and gives the empty name (`cacheLines_full`), and a longer line is cut in pieces.  From an empty file
the loop gets no line at all and looks at `str[-1]`.

So a map survives the round trip exactly when it is not empty and all its names have at most 254 characters
(`roundTrip_iff`).
-/

namespace StubProfile.Tools

open Interning Lines

variable {skiplist names lines : List CString} {fm : FuncMap} {str line : CString} {rest : List Char} {eof : Bool}

/-- A new map filled from the names, written by `updateCache` and read by `loadFromCache` into a map like the one
it started from, comes out the same. -/
def RoundTrip (skiplist : List CString) (fm : FuncMap) (names : List CString) : Prop :=
  ∀ now fs,
    loadFromCache (Env.good now) skiplist fm (updateCache (Env.good now) (addFunctions skiplist fm names) fs).2 =
      .ok (true, addFunctions skiplist fm names)

/-! ### The loop of `loadFromCache` -/

private theorem cacheLines_eof : cacheLines str rest true = .ok [] := by
  rw [cacheLines]
  rfl

/-- A line with room for its newline is passed on as it is. -/
theorem cacheLines_short (hlen : line.length ≤ 254) (hnl : '\n' ∉ line) :
    cacheLines str (line ++ '\n' :: rest) false = (cacheLines line rest false).map (line :: ·) := by
  have hread : readLine '\n' (funcNameMax - 1) (line ++ '\n' :: rest) = ⟨line ++ ['\n'], rest, false⟩ :=
    readLine_short (by unfold funcNameMax; omega) hnl
  rw [cacheLines, hread]
  simp

/-- A line of 255 characters is passed on, and its newline is left for the next round. -/
theorem cacheLines_full (hlen : line.length = 255) (hnl : '\n' ∉ line) :
    cacheLines str (line ++ rest) false = (cacheLines line rest false).map (line :: ·) := by
  have hread : readLine '\n' (funcNameMax - 1) (line ++ rest) = ⟨line, rest, false⟩ :=
    readLine_full (by unfold funcNameMax; omega) hnl
  have hne : line ≠ [] := by
    rintro rfl
    simp at hlen
  have hlast : line.getLast hne ≠ '\n' := fun h => hnl (h ▸ List.getLast_mem hne)
  rw [cacheLines, hread]
  simp [hne, List.getLast?_eq_some_getLast hne, hlast]

/-- At the end of the text the buffer is passed on once more. -/
private theorem cacheLines_end (hne : str ≠ []) (hnl : '\n' ∉ str) : cacheLines str [] false = .ok [str] := by
  have hread : readLine '\n' (funcNameMax - 1) ([] : List Char) = ⟨[], [], true⟩ := readLine_nil (by decide)
  have hlast : str.getLast hne ≠ '\n' := fun h => hnl (h ▸ List.getLast_mem hne)
  rw [cacheLines, hread]
  simp [List.getLast?_eq_some_getLast hne, hlast, cacheLines_eof, Except.map]

/-- With an empty buffer the end of the text is a fault. -/
private theorem cacheLines_empty : cacheLines [] [] false = .error .emptyString := by
  have hread : readLine '\n' (funcNameMax - 1) ([] : List Char) = ⟨[], [], true⟩ := readLine_nil (by decide)
  rw [cacheLines, hread]
  simp

private theorem cacheLines_lines {l : List CString} (hl : ∀ n ∈ l, n.length ≤ 254 ∧ '\n' ∉ n) :
    cacheLines str (unlines '\n' l ++ rest) false = (cacheLines (l.getLastD str) rest false).map (l ++ ·) := by
  induction l generalizing str with
  | nil =>
    rw [unlines_nil, List.nil_append, List.getLastD_nil]
    cases cacheLines str rest false <;> rfl
  | cons n l ih =>
    obtain ⟨hlen, hnl⟩ := hl n (by simp)
    rw [unlines_cons, List.append_assoc, List.cons_append, cacheLines_short hlen hnl,
      ih fun m hm => hl m (by simp [hm]), List.getLastD_cons]
    cases cacheLines (l.getLastD n) rest false <;> simp [Except.map]

/-- What the loop gets from a file with at least one short line: the lines, and the last one again. -/
theorem cacheLines_unlines {l : List CString} (hne : l ≠ []) (hl : ∀ n ∈ l, n ≠ [] ∧ n.length ≤ 254 ∧ '\n' ∉ n) :
    cacheLines [] (unlines '\n' l) false = .ok (l ++ [l.getLast hne]) := by
  have hlast := hl _ (List.getLast_mem hne)
  have hD : l.getLastD [] = l.getLast hne := List.getLastD_eq_getLast?.trans (by simp [List.getLast?_eq_some_getLast hne])
  have h : cacheLines [] (unlines '\n' l ++ []) false = _ := cacheLines_lines fun n hn => (hl n hn).2
  rw [List.append_nil, hD, cacheLines_end hlast.1 hlast.2.2] at h
  exact h

/-- No string the loop passes on is longer than the buffer. -/
private theorem length_cacheLines_le (hstr : str.length ≤ 255) (h : cacheLines str rest eof = .ok lines) :
    ∀ x ∈ lines, x.length ≤ 255 := by
  fun_induction cacheLines str rest eof generalizing lines with
  | case1 =>
    cases h
    simp
  | case2 => cases h
  | case3 str rest eof heof chunk str₁ c hc str₂ =>
    rename_i ih
    have hchunk : chunk.line.length ≤ 255 := length_readLine_le
    have hstr₁ : str₁.length ≤ 255 := by
      show (if chunk.line = [] then str else chunk.line).length ≤ 255
      split <;> assumption
    have hstr₂ : str₂.length ≤ 255 := by
      show (if c = '\n' then str₁.dropLast else str₁).length ≤ 255
      split
      · rw [List.length_dropLast]
        omega
      · exact hstr₁
    cases hrec : cacheLines str₂ chunk.rest chunk.eof with
    | error e =>
      rw [hrec] at h
      cases h
    | ok l =>
      rw [hrec] at h
      cases h
      intro x hx
      rcases List.mem_cons.1 hx with rfl | hx
      · exact hstr₂
      · exact ih hstr₂ hrec x hx

/-! ### The round trip -/

private theorem loadFromCache_updateCache (hnew : fm.IsNew) (now : Nat) (fs : Fs) :
    loadFromCache (Env.good now) skiplist fm (updateCache (Env.good now) (addFunctions skiplist fm names) fs).2 =
      (cacheLines [] (unlines '\n' (keptNames skiplist names)) false).map
        fun lines => (true, fm.withNames (keptNames skiplist lines)) := by
  rw [hnew.addFunctions]
  simp only [loadFromCache, updateCache, Env.good, Env.written, FuncMap.withNames, cacheText, Bool.not_true,
    Bool.false_eq_true, ↓reduceIte, Function.update_self]
  cases cacheLines [] (unlines '\n' (keptNames skiplist names)) false with
  | error e => rfl
  | ok lines =>
    show Except.ok (true, addFunctions skiplist fm lines) = _
    rw [hnew.addFunctions]
    rfl

private theorem roundTrip_iff_lines (hnew : fm.IsNew) :
    RoundTrip skiplist fm names ↔
      ∃ lines, cacheLines [] (unlines '\n' (keptNames skiplist names)) false = .ok lines ∧
        keptNames skiplist lines = keptNames skiplist names := by
  have hfill : addFunctions skiplist fm names = _ := hnew.addFunctions names
  constructor
  · intro h
    have h0 := h 0 ⟨fun _ => none, fun _ => .absent⟩
    rw [loadFromCache_updateCache hnew, hfill] at h0
    cases hl : cacheLines [] (unlines '\n' (keptNames skiplist names)) false with
    | error e =>
      rw [hl] at h0
      cases h0
    | ok lines =>
      rw [hl] at h0
      refine ⟨lines, rfl, ?_⟩
      simp only [Except.map, Except.ok.injEq, Prod.mk.injEq, true_and] at h0
      exact congrArg FuncMap.funcs h0
  · rintro ⟨lines, hl, he⟩ now fs
    rw [loadFromCache_updateCache hnew, hl, hfill, ← he]
    rfl

/-- A map filled from what is read back from its own short names. -/
theorem keptNames_reread {s : List CString} (hs : ∀ func ∈ s, func ∈ skiplist)
    (h : keptNames s names ≠ []) :
    keptNames skiplist (keptNames s names ++ [(keptNames s names).getLast h]) = keptNames skiplist names := by
  rw [keptNames_append fun func hf => ?_, keptNames_keptNames hs]
  rw [List.mem_singleton.1 hf]
  exact List.getLast_mem h

/-- A name of exactly 255 characters brings the empty name into the map. -/
private theorem nil_mem_of_full {l₁ l₂ : List CString} {n : CString}
    (h₁ : ∀ m ∈ l₁, m.length ≤ 254 ∧ '\n' ∉ m) (hn : n.length = 255) (hnl : '\n' ∉ n)
    (h : cacheLines [] (unlines '\n' (l₁ ++ n :: l₂)) false = .ok lines) : [] ∈ lines := by
  have hempty : cacheLines n ('\n' :: unlines '\n' l₂) false =
      (cacheLines [] (unlines '\n' l₂) false).map ([] :: ·) := by
    have hline : ([] : CString).length ≤ 254 ∧ '\n' ∉ ([] : CString) := by simp
    exact cacheLines_short hline.1 hline.2
  rw [unlines_append, cacheLines_lines h₁, unlines_cons, cacheLines_full hn hnl, hempty] at h
  cases hrec : cacheLines [] (unlines '\n' l₂) false with
  | error e =>
    rw [hrec] at h
    cases h
  | ok l =>
    rw [hrec] at h
    cases h
    simp

/-- Names that are read back as they were written are short: the first one of 255 characters would add the empty
name, and none can be longer than the buffer. -/
private theorem length_le_of_reread (hskip : [] ∉ skiplist) (hnames : ∀ n ∈ names, n ≠ [] ∧ '\n' ∉ n)
    (hl : cacheLines [] (unlines '\n' (keptNames skiplist names)) false = .ok lines)
    (he : keptNames skiplist lines = keptNames skiplist names) : ∀ n ∈ keptNames skiplist names, n.length ≤ 254 := by
  have hkept : ∀ n ∈ keptNames skiplist names, n.length ≤ 255 := by
    intro n hn
    rw [← he] at hn
    exact length_cacheLines_le (by simp) hl n (mem_keptNames.1 hn).1
  have hword : ∀ n ∈ keptNames skiplist names, n ≠ [] ∧ '\n' ∉ n := fun n hn => hnames n (mem_keptNames.1 hn).1
  intro n hn
  by_contra hlong
  -- the first name that does not fit
  obtain ⟨m, l₁, l₂, hbefore, hm, hsplit, -⟩ :=
    List.exists_of_eraseP hn (p := fun m : CString => decide (254 < m.length)) (by simpa using hlong)
  simp only [decide_eq_true_eq, Nat.not_lt] at hbefore hm
  rw [hsplit] at hkept hword hl
  have hm255 : m.length = 255 := by
    have h1 := hkept m (by simp)
    omega
  have hshort : ∀ k ∈ l₁, k.length ≤ 254 ∧ '\n' ∉ k := fun k hk => ⟨hbefore k hk, (hword k (by simp [hk])).2⟩
  have hnil : [] ∈ keptNames skiplist names := by
    rw [← he]
    exact mem_keptNames.2 ⟨nil_mem_of_full hshort hm255 (hword m (by simp)).2 hl, hskip⟩
  exact (hnames [] (mem_keptNames.1 hnil).1).1 rfl

/-- The names read back are those written exactly if there is one outside the skip list, and all of those have at
most 254 characters. -/
theorem roundTrip_iff (hnew : fm.IsNew) (hskip : [] ∉ skiplist) (hnames : ∀ n ∈ names, n ≠ [] ∧ '\n' ∉ n) :
    RoundTrip skiplist fm names ↔
      (∃ n ∈ names, n ∉ skiplist) ∧ ∀ n ∈ names, n ∉ skiplist → n.length ≤ 254 := by
  rw [roundTrip_iff_lines hnew]
  constructor
  · rintro ⟨lines, hl, he⟩
    refine ⟨?_, fun n hn hs => length_le_of_reread hskip hnames hl he n (mem_keptNames.2 ⟨hn, hs⟩)⟩
    by_contra hno
    have hnil : keptNames skiplist names = [] := by
      apply List.eq_nil_iff_forall_not_mem.2
      intro n hn
      exact hno ⟨n, mem_keptNames.1 hn⟩
    rw [hnil, unlines_nil, cacheLines_empty] at hl
    cases hl
  · rintro ⟨⟨n, hn, hs⟩, hlen⟩
    have hne : keptNames skiplist names ≠ [] := List.ne_nil_of_mem (mem_keptNames.2 ⟨hn, hs⟩)
    refine ⟨_, cacheLines_unlines hne fun m hm => ?_, keptNames_reread (fun _ h => h) hne⟩
    obtain ⟨hm, hms⟩ := mem_keptNames.1 hm
    exact ⟨(hnames m hm).1, hlen m hm hms, (hnames m hm).2⟩

/-- A map with two names, one of them reported twice and a third one skipped. -/
theorem roundTrip_two_names :
    RoundTrip initialSkipList (FuncMap.ofNamePath "prog".toList "/bin/prog".toList)
      ["main".toList, "_init".toList, "usage".toList, "main".toList] := by
  refine (roundTrip_iff ⟨rfl, rfl⟩ (by decide) (by decide)).2 ⟨⟨"main".toList, by decide, by decide⟩, ?_⟩
  decide

/-- A name of 300 characters is read back as two names, of 255 and 45 characters. -/
theorem long_name_split :
    cacheLines [] (unlines '\n' [List.replicate 300 'a']) false =
        .ok [List.replicate 255 'a', List.replicate 45 'a', List.replicate 45 'a'] ∧
      ¬ RoundTrip initialSkipList (FuncMap.ofNamePath "prog".toList "/bin/prog".toList)
        [List.replicate 300 'a'] := by
  have hnl : ∀ k, '\n' ∉ List.replicate k 'a' := by
    intro k h
    have h1 := List.eq_of_mem_replicate h
    revert h1
    decide
  have hlines : cacheLines [] (unlines '\n' [List.replicate 300 'a']) false =
      .ok [List.replicate 255 'a', List.replicate 45 'a', List.replicate 45 'a'] := by
    have hsplit : (List.replicate 300 'a' : List Char) = List.replicate 255 'a' ++ List.replicate 45 'a' :=
      List.replicate_add 255 45 'a'
    have h45 : (List.replicate 45 'a' : List Char).length = 45 := List.length_replicate
    rw [unlines_cons, unlines_nil, hsplit, List.append_assoc, cacheLines_full List.length_replicate (hnl 255),
      cacheLines_short (by omega) (hnl 45), cacheLines_end (List.ne_nil_of_length_pos (by omega)) (hnl 45)]
    rfl
  have hs : List.replicate 300 'a' ∉ initialSkipList := by
    have hlen : ∀ n ∈ initialSkipList, n.length ≤ 21 := by decide
    intro h
    have h300 := hlen _ h
    rw [List.length_replicate] at h300
    omega
  have hkept : keptNames initialSkipList [List.replicate 300 'a'] = [List.replicate 300 'a'] := by
    have hf : [List.replicate 300 'a'].filter (· ∉ initialSkipList) = [List.replicate 300 'a'] :=
      List.filter_cons_of_pos (decide_eq_true hs)
    unfold keptNames
    rw [hf]
    rfl
  refine ⟨hlines, ?_⟩
  rw [roundTrip_iff_lines ⟨rfl, rfl⟩, hkept]
  rintro ⟨lines, hl, he⟩
  rw [hlines] at hl
  cases hl
  have hmem : List.replicate 300 'a' ∈ keptNames initialSkipList
      [List.replicate 255 'a', List.replicate 45 'a', List.replicate 45 'a'] := by
    rw [he]
    exact List.mem_singleton_self _
  have hlen := length_cacheLines_le (Nat.zero_le _) hlines _ (mem_keptNames.1 hmem).1
  rw [List.length_replicate] at hlen
  omega

end StubProfile.Tools
