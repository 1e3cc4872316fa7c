import StubProfile.Route.TsCorrect

/-!
# The workload of the route table

`test_random_ips` of `random.c`: it reads prefixes from a file, inserts them with their numbers as next hops, the first
one with the next hop 0, searches for addresses of them, and deletes them in the same order.  `find_overlap_prefix` takes
a next hop 0 for none, so a deletion under a prefix with it goes wrong; but when the workload deletes a prefix, the first
one is the prefix itself or gone.

With this condition on deletions the table may have next hops 0 everywhere (`zeroHops_refine`), and the workload finds the
longest prefix of each address and leaves an empty table (`testRandomIps_longest`).
-/

namespace StubProfile.Route

open LongestPrefix Machine

/-! ### Next hops 0 -/

variable {T T' : Table Nat} {ts : TsTree} {turns n : Nat}

/-- After every sequence of `ZeroLegal` calls, with next hops that may be 0, `ts_search` returns for each address the next
hop of its longest prefix, and if the table is empty, all blocks are in the free list. -/
theorem zeroHops_refine (turns : Nat) (hturns : 3 ≤ turns) (ops : List (RouteOp Nat))
    (h : Allowed RouteOp.apply ZeroLegal Table.empty ops) :
    ∃ ts, run (tsStep turns) tsInit ops = .ok ts ∧
      (∀ ip, tsSearch turns ts ip = .ok ((best (Table.after ops) 32 ip.toNat).elim 0 (·.2))) ∧
      (Table.after ops = Table.empty → (∀ x < 2 ^ 16, level16 ts.mm x = .zero) ∧
        ∀ n < 32 * 4096, blockNo n < ts.mm.currIndex → blockNo n ∈ freed ts.mm.freeIndex) := by
  obtain ⟨ts, hrun, hts⟩ := tsHolds_run hturns tsHolds_init h
  refine ⟨ts, hrun, fun ip => hts.search ip hturns, fun hempty => ?_⟩
  have hts' : TsHolds Table.empty ts := hempty ▸ hts
  obtain ⟨hzero, hfree⟩ := hts'.all_free
  exact ⟨hzero, fun n _ hn => hfree n hn⟩

/-- 10.0.0.0/8 has the next hop 0 and goes before 10.1.0.0/16. -/
theorem zeroHops_refine_first :
    ∃ ts, run (tsStep 3) tsInit [.insert 0x0a000000 8 0, .insert 0x0a010000 16 5, .delete 0x0a000000 8] = .ok ts ∧
      tsSearch 3 ts 0x0a010203 = .ok 5 ∧ tsSearch 3 ts 0x0a020000 = .ok 0 := by
  have hcalls : Allowed RouteOp.apply ZeroCall Table.empty
      [.insert 0x0a000000 8 0, .insert 0x0a010000 16 5, .delete 0x0a000000 8] :=
    ⟨by decide, by decide, by decide, trivial⟩
  have hlegal := (zeroLegal_of_length Table.good_empty.fits (by rw [blocks_empty]; decide) hcalls).1
  obtain ⟨ts, hrun, hsearch, -⟩ := zeroHops_refine 3 (by decide) _ hlegal
  refine ⟨ts, hrun, (hsearch _).trans ?_, (hsearch _).trans ?_⟩
  · rfl
  · rfl

-- 10.1.1.0/24 is deleted under 10.1.0.0/23 with the next hop 0; 10.1.0.0/22 then takes its place although it is shorter
example :
    (do
      let ts ← run (tsStep 3) tsInit [.insert 0x0a010000 23 0, .insert 0x0a010100 24 5, .delete 0x0a010100 24,
        .insert 0x0a010000 22 7]
      tsSearch 3 ts 0x0a010101) = .ok 7 := by
  decide +kernel

/-! ### The workload -/

/-- `RAND_SIZE`. -/
def randSize : Nat := 1000000

section File

variable {L : Type} (inetNetwork : L → BitVec 32) (atoi : L → Nat)

/-- The loop over the lines of the file, which are an address and a length in turn; `n` is the number of the prefix.  The
shift of the mask is undefined for other lengths than 1 to 32, and the arrays have `RAND_SIZE` elements. -/
def readRules : Nat → List L → Except Fault (List (BitVec 32 × Nat))
  | n, addr :: line :: lines =>
    if 1 ≤ atoi line ∧ atoi line ≤ 32 ∧ n < randSize then do
      return (maskIp (inetNetwork addr) (atoi line), atoi line) :: (← readRules (n + 1) lines)
    else .error .wild
  | _, _ => .ok []

/-- The calls that insert the prefixes with the next hops `n`, `n + 1`, …. -/
def insertions : Nat → List (BitVec 32 × Nat) → List (RouteOp Nat)
  | _, [] => []
  | n, (ip, cidr) :: rules => .insert ip cidr n :: insertions (n + 1) rules

def deletions (rules : List (BitVec 32 × Nat)) : List (RouteOp Nat) := rules.map fun r => .delete r.1 r.2

/-- `ips[random() % cnt]` for the first `n` random numbers; without prefixes the division faults. -/
def randomIps (rules : List (BitVec 32 × Nat)) (random : Nat → Nat) : Nat → Except Fault (List (BitVec 32))
  | 0 => .ok []
  | n + 1 => do
    let ips ← randomIps rules random n
    return ips ++ [(← orWild rules[random n % rules.length]?).1]

/-- The searches, with the addresses searched for. -/
def searchAll (turns : Nat) (ts : TsTree) : List (BitVec 32) → Except Fault (List (BitVec 32 × Nat))
  | [] => .ok []
  | ip :: ips => do
    let index ← tsSearch turns ts ip
    return (ip, index) :: (← searchAll turns ts ips)

/-- The calls of `test_random_ips`, for the prefixes `rules` and the addresses `ips`. -/
def useTable (turns : Nat) (rules : List (BitVec 32 × Nat)) (ips : List (BitVec 32)) :
    Except Fault (List (BitVec 32 × Nat) × TsTree) := do
  let ts ← run (tsStep turns) tsInit (insertions 0 rules)
  -- the first search is outside the measured loop
  let found ← searchAll turns ts (ips.take 1 ++ ips)
  let ts ← run (tsStep turns) ts (deletions rules)
  return (found, ts)

/-- `test_random_ips` up to `ts_destroy`, for a file with these lines and the random numbers `random`. -/
def testRandomIps (turns : Nat) (random : Nat → Nat) (lines : List L) :
    Except Fault (List (BitVec 32 × Nat) × TsTree) := do
  let rules ← readRules inetNetwork atoi 0 lines
  let ips ← randomIps rules random randSize
  useTable turns rules ips

end File

/-! ### The table of the prefixes -/

/-- The prefix of a rule. -/
def prefixOf (r : BitVec 32 × Nat) : Nat × Nat := (r.2, topBits r.1 r.2)

/-- The prefixes of the table are those of the rules, with their numbers from `n` on as next hops. -/
def Tabulates (n : Nat) (rules : List (BitVec 32 × Nat)) (T : Table Nat) : Prop :=
  ∀ len v nhi, T len v = some nhi ↔ ∃ i r, rules[i]? = some r ∧ prefixOf r = (len, v) ∧ nhi = n + i

variable {rules done : List (BitVec 32 × Nat)} {r : BitVec 32 × Nat} {ip : BitVec 32} {cidr : Nat}

private theorem tabulates_nil : Tabulates n [] T ↔ T = Table.empty := by
  constructor
  · intro h
    funext len v
    refine Option.eq_none_iff_forall_not_mem.2 fun nhi hnhi => ?_
    obtain ⟨i, r, hr, -⟩ := (h len v nhi).1 hnhi
    simp at hr
  · rintro rfl len v nhi
    simp [Table.empty]

private theorem Tabulates.concat (h : Tabulates n rules T) (hnew : prefixOf (ip, cidr) ∉ rules.map prefixOf) :
    Tabulates n (rules ++ [(ip, cidr)]) (assign T cidr (topBits ip cidr) (some (n + rules.length))) := by
  intro len v nhi
  have hget : ∀ i r, (rules ++ [(ip, cidr)])[i]? = some r ↔
      rules[i]? = some r ∨ i = rules.length ∧ r = (ip, cidr) := by grind
  by_cases hkey : len = cidr ∧ v = topBits ip cidr
  · obtain ⟨rfl, rfl⟩ := hkey
    simp only [assign, and_self, if_true, Option.some.injEq, hget]
    constructor
    · rintro rfl
      exact ⟨rules.length, (ip, len), .inr ⟨rfl, rfl⟩, rfl, rfl⟩
    · rintro ⟨i, r, hr | ⟨rfl, rfl⟩, heq, rfl⟩
      · exact absurd (List.mem_map.2 ⟨r, List.mem_of_getElem? hr, heq⟩) hnew
      · rfl
  · rw [assign, if_neg hkey, h]
    simp only [hget]
    constructor
    · rintro ⟨i, r, hr, heq, rfl⟩
      exact ⟨i, r, .inl hr, heq, rfl⟩
    · rintro ⟨i, r, hr | ⟨rfl, rfl⟩, heq, rfl⟩
      · exact ⟨i, r, hr, heq, rfl⟩
      · cases heq
        exact absurd ⟨rfl, rfl⟩ hkey

private theorem Tabulates.tail (h : Tabulates n ((ip, cidr) :: rules) T)
    (hnew : prefixOf (ip, cidr) ∉ rules.map prefixOf) :
    Tabulates (n + 1) rules (assign T cidr (topBits ip cidr) none) := by
  intro len v nhi
  by_cases hkey : len = cidr ∧ v = topBits ip cidr
  · obtain ⟨rfl, rfl⟩ := hkey
    simp only [assign, and_self, if_true, reduceCtorEq, false_iff]
    rintro ⟨i, r, hr, heq, rfl⟩
    exact hnew (List.mem_map.2 ⟨r, List.mem_of_getElem? hr, heq⟩)
  · rw [assign, if_neg hkey, h]
    constructor
    · rintro ⟨i, r, hr, heq, rfl⟩
      cases i with
      | zero =>
        cases hr
        cases heq
        exact absurd ⟨rfl, rfl⟩ hkey
      | succ i => exact ⟨i, r, hr, heq, by omega⟩
    · rintro ⟨i, r, hr, heq, rfl⟩
      exact ⟨i + 1, r, hr, heq, by omega⟩

private theorem Tabulates.fits (h : Tabulates n rules T) (hcidr : ∀ r ∈ rules, 1 ≤ r.2 ∧ r.2 ≤ 32)
    (hlen : n + rules.length ≤ randSize) : T.Fits := by
  intro len v nhi hnhi
  obtain ⟨i, r, hr, heq, rfl⟩ := (h len v nhi).1 hnhi
  cases heq
  obtain ⟨h1, h32⟩ := hcidr r (List.mem_of_getElem? hr)
  have hi : i < rules.length := (List.getElem?_eq_some_iff.1 hr).1
  refine ⟨h1, h32, topBits_lt _ h32, ?_⟩
  unfold randSize at hlen
  omega

private theorem Tabulates.ne_none_iff (h : Tabulates n rules T) {len v : Nat} :
    T len v ≠ none ↔ (len, v) ∈ rules.map prefixOf := by
  rw [Option.ne_none_iff_exists', List.mem_map]
  constructor
  · rintro ⟨nhi, hnhi⟩
    obtain ⟨i, r, hr, heq, -⟩ := (h len v nhi).1 hnhi
    exact ⟨r, List.mem_of_getElem? hr, heq⟩
  · rintro ⟨r, hr, heq⟩
    obtain ⟨i, hi⟩ := List.mem_iff_getElem?.1 hr
    exact ⟨n + i, (h len v _).2 ⟨i, r, hi, heq, rfl⟩⟩

/-! ### The calls are legal -/

/-- What `readRules` makes sure of, and that no prefix is in the file twice. -/
structure Readable (rules : List (BitVec 32 × Nat)) : Prop where
  cidr : ∀ r ∈ rules, 1 ≤ r.2 ∧ r.2 ≤ 32
  length : rules.length ≤ randSize
  nodup : (rules.map prefixOf).Nodup

private theorem Readable.append (done : List (BitVec 32 × Nat)) (h : Readable (done ++ rules)) :
    Readable done ∧ Readable rules := by
  obtain ⟨hcidr, hlen, hnodup⟩ := h
  rw [List.length_append] at hlen
  rw [List.map_append] at hnodup
  exact ⟨⟨fun r hr => hcidr r (List.mem_append_left _ hr), by omega, hnodup.of_append_left⟩,
    fun r hr => hcidr r (List.mem_append_right _ hr), by omega, hnodup.of_append_right⟩

private theorem Readable.notMem (done : List (BitVec 32 × Nat)) (h : Readable (done ++ r :: rules)) :
    prefixOf r ∉ done.map prefixOf ∧ prefixOf r ∉ rules.map prefixOf := by
  have := h.nodup
  simp only [List.map_append, List.map_cons] at this
  grind

private theorem Tabulates.insertions (h : Tabulates 0 done T) (hrules : Readable (done ++ rules)) :
    Tabulates 0 (done ++ rules) ((insertions done.length rules).foldl RouteOp.apply T) := by
  induction rules generalizing done T with
  | nil => simpa [Route.insertions] using h
  | cons r rules ih =>
    have hstep := h.concat (hrules.notMem done).1
    rw [Nat.zero_add] at hstep
    have := ih hstep (by simpa using hrules)
    simpa [Route.insertions, RouteOp.apply] using this

/-- The table with some of the prefixes does not need more blocks than the one with all. -/
private theorem Tabulates.blocks_le {n' : Nat} (h : Tabulates n done T) (hdone : Readable done)
    (hlen : n + done.length ≤ randSize)
    (h' : Tabulates n' rules T') (hrules : Readable rules) (hlen' : n' + rules.length ≤ randSize)
    (hsub : done ⊆ rules) : blocks T ≤ blocks T' := by
  refine blocks_mono (h.fits hdone.cidr hlen) (h'.fits hrules.cidr hlen') fun len v hv => ?_
  rw [h.ne_none_iff] at hv
  rw [h'.ne_none_iff]
  exact List.map_subset _ hsub hv

private theorem allowed_insertions (h : Tabulates 0 done T) (hrules : Readable (done ++ rules))
    (hT' : Tabulates 0 (done ++ rules) T') (hroom : blocks T' < 32 * 4096 - 1) :
    Allowed RouteOp.apply ZeroLegal T (insertions done.length rules) := by
  induction rules generalizing done T with
  | nil => trivial
  | cons r rules ih =>
    obtain ⟨ip, cidr⟩ := r
    have hstep := h.concat (hrules.notMem done).1
    rw [Nat.zero_add] at hstep
    have hsplit : done ++ (ip, cidr) :: rules = (done ++ [(ip, cidr)]) ++ rules := by simp
    rw [hsplit] at hrules hT'
    have hdone := (hrules.append (done ++ [(ip, cidr)])).1
    have hlen := hdone.length
    have hblocks := hstep.blocks_le hdone (by omega) hT' hrules (by rw [Nat.zero_add]; exact hrules.length)
      (List.subset_append_left _ _)
    have hnhi : done.length < 2 ^ 25 := by
      simp only [List.length_append, List.length_singleton, randSize] at hlen
      omega
    refine ⟨⟨⟨hdone.cidr (ip, cidr) (by simp), hnhi⟩, Nat.lt_of_le_of_lt hblocks hroom⟩, ?_⟩
    · have := ih hstep hrules hT'
      rwa [List.length_append] at this

/-- A prefix is not under one with the next hop 0 when it is deleted: that could be only the prefix with the number 0. -/
private theorem Tabulates.zeroFree (h : Tabulates n (r :: rules) T) : ZeroFree T r.1 r.2 := by
  intro len hlt hzero
  obtain ⟨i, r', hr, heq, hi⟩ := (h _ _ _).1 hzero
  obtain rfl : i = 0 := by omega
  cases hr
  cases heq
  exact Nat.lt_irrefl _ hlt

private theorem allowed_deletions (h : Tabulates n rules T) (hrules : Readable rules)
    (hlen : n + rules.length ≤ randSize) (hroom : blocks T < 32 * 4096 - 1) :
    Allowed RouteOp.apply ZeroLegal T (deletions rules) ∧ (deletions rules).foldl RouteOp.apply T = Table.empty := by
  induction rules generalizing n T with
  | nil => exact ⟨trivial, tabulates_nil.1 h⟩
  | cons r rules ih =>
    obtain ⟨ip, cidr⟩ := r
    have htail : Readable rules := (Readable.append [(ip, cidr)] hrules).2
    have hstep := h.tail (Readable.notMem [] hrules).2
    have hlen' : n + 1 + rules.length ≤ randSize := by
      rw [List.length_cons] at hlen
      omega
    have hblocks := hstep.blocks_le htail hlen' h hrules hlen (List.subset_cons_self _ _)
    have hroom' := Nat.lt_of_le_of_lt hblocks hroom
    obtain ⟨hrest, hempty⟩ := ih hstep htail hlen' hroom'
    have hcall : ZeroCall T (.delete ip cidr) :=
      ⟨hrules.cidr (ip, cidr) List.mem_cons_self, h.ne_none_iff.2 List.mem_cons_self, h.zeroFree⟩
    exact ⟨⟨⟨hcall, hroom'⟩, hrest⟩, hempty⟩

/-! ### The searches -/

/-- Among the rules whose prefix the address has, the one with the number `i` is the longest. -/
def LongestRule (rules : List (BitVec 32 × Nat)) (ip : BitVec 32) (i : Nat) : Prop :=
  ∃ r, rules[i]? = some r ∧ topBits ip r.2 = topBits r.1 r.2 ∧
    ∀ r' ∈ rules, topBits ip r'.2 = topBits r'.1 r'.2 → r'.2 ≤ r.2

/-- An address of some rule has a longest one. -/
private theorem Tabulates.longestRule (h : Tabulates 0 rules T) (hrules : Readable rules) (hr : r ∈ rules) :
    LongestRule rules r.1 ((best T 32 r.1.toNat).elim 0 (·.2)) := by
  have hentry (r' : BitVec 32 × Nat) (hr' : r' ∈ rules) (hmatch : topBits r.1 r'.2 = topBits r'.1 r'.2) :
      ∃ b, best T 32 r.1.toNat = some b ∧ r'.2 ≤ b.1 := by
    refine best_of_entry (hrules.cidr r' hr').2 (h.ne_none_iff.2 ?_)
    exact List.mem_map.2 ⟨r', hr', Prod.ext rfl hmatch.symm⟩
  obtain ⟨⟨len, nhi⟩, hbest, -⟩ := hentry r hr rfl
  obtain ⟨-, hnhi, -⟩ := best_eq_some_iff.1 hbest
  obtain ⟨i, r', hr', heq, rfl⟩ := (h _ _ _).1 hnhi
  obtain ⟨rfl, hmatch⟩ : r'.2 = len ∧ topBits r'.1 r'.2 = topBits r.1 len := Prod.ext_iff.1 heq
  rw [hbest, Nat.zero_add]
  refine ⟨r', hr', hmatch.symm, fun r'' hr'' hmatch' => ?_⟩
  obtain ⟨b, hb, hle⟩ := hentry r'' hr'' hmatch'
  cases hbest.symm.trans hb
  exact hle

private theorem randomIps_ok (hne : rules ≠ []) (random : Nat → Nat) (n : Nat) :
    ∃ ips, randomIps rules random n = .ok ips ∧ ips.length = n ∧ ∀ ip ∈ ips, ∃ r ∈ rules, r.1 = ip := by
  induction n with
  | zero => exact ⟨[], rfl, rfl, by simp⟩
  | succ n ih =>
    obtain ⟨ips, hips, hlen, hmem⟩ := ih
    have hlt := Nat.mod_lt (random n) (List.length_pos_of_ne_nil hne)
    refine ⟨ips ++ [rules[random n % rules.length].1], ?_, by simp [hlen], fun ip hip => ?_⟩
    · simp only [randomIps, hips, ok_bind, List.getElem?_eq_getElem hlt, orWild]
      rfl
    · obtain hip | hip := List.mem_append.1 hip
      · exact hmem ip hip
      · exact ⟨_, List.getElem_mem hlt, (List.mem_singleton.1 hip).symm⟩

private theorem searchAll_ok {f : BitVec 32 → Nat} (h : ∀ ip, tsSearch turns ts ip = .ok (f ip))
    (ips : List (BitVec 32)) :
    searchAll turns ts ips = .ok (ips.map fun ip => (ip, f ip)) := by
  induction ips with
  | nil => rfl
  | cons ip ips ih =>
    simp only [searchAll, h, ih, ok_bind, List.map_cons]
    rfl

private theorem readRules_ok {L : Type} {inetNetwork : L → BitVec 32} {atoi : L → Nat} {lines : List L}
    (h : readRules inetNetwork atoi n lines = .ok rules) (hn : n ≤ randSize) :
    (∀ r ∈ rules, 1 ≤ r.2 ∧ r.2 ≤ 32) ∧ n + rules.length ≤ randSize := by
  induction n, lines using readRules.induct atoi generalizing rules with
  | case1 n addr line lines hok ih =>
    rw [readRules, if_pos hok] at h
    obtain ⟨rules, hrest, hcons⟩ := bind_eq_ok h
    cases hcons
    obtain ⟨hcidr, hlen⟩ := ih hrest hok.2.2
    refine ⟨?_, by rw [List.length_cons]; omega⟩
    rintro r (_ | ⟨_, hr⟩)
    · exact ⟨hok.1, hok.2.1⟩
    · exact hcidr r hr
  | case2 n addr line lines hbad =>
    rw [readRules, if_neg hbad] at h
    cases h
  | case3 lines n hshort =>
    rw [readRules] at h
    · cases h
      exact ⟨by simp, hn⟩
    · exact hshort

private theorem Readable.useTable (hrules : Readable rules) (hturns : 3 ≤ turns)
    (hroom : blocks (Table.after (insertions 0 rules)) < 32 * 4096 - 1) {ips : List (BitVec 32)}
    (hips : ∀ ip ∈ ips, ∃ r ∈ rules, r.1 = ip) :
    ∃ found ts, useTable turns rules ips = .ok (found, ts) ∧ found.map Prod.fst = ips.take 1 ++ ips ∧
      (∀ s ∈ found, LongestRule rules s.1 s.2) ∧ TsHolds Table.empty ts := by
  have hlen := hrules.length
  have hstart : Tabulates 0 [] Table.empty := tabulates_nil.2 rfl
  have hfull : Tabulates 0 rules (Table.after (insertions 0 rules)) := hstart.insertions hrules
  obtain ⟨ts₁, hrun₁, hts₁⟩ : ∃ ts₁, run (tsStep turns) tsInit (insertions 0 rules) = .ok ts₁ ∧
      TsHolds (Table.after (insertions 0 rules)) ts₁ :=
    tsHolds_run hturns tsHolds_init (allowed_insertions hstart hrules hfull hroom)
  obtain ⟨hdel, hempty⟩ := allowed_deletions hfull hrules (by omega) hroom
  obtain ⟨ts₂, hrun₂, hts₂⟩ := tsHolds_run hturns hts₁ hdel
  have hsearch := searchAll_ok (fun ip => hts₁.search ip hturns) (ips.take 1 ++ ips)
  rw [hempty] at hts₂
  refine ⟨_, ts₂, by simp only [Route.useTable, hrun₁, hsearch, hrun₂, ok_bind]; rfl, ?_, fun s hs => ?_, hts₂⟩
  · rw [List.map_map]
    exact List.map_id _
  obtain ⟨ip, hip, rfl⟩ := List.mem_map.1 hs
  have hip' : ip ∈ ips := (List.mem_append.1 hip).elim List.mem_of_mem_take id
  obtain ⟨r, hr, rfl⟩ := hips ip hip'
  show LongestRule rules r.1 _
  exact hfull.longestRule hrules hr

/-- With one to `RAND_SIZE` different prefixes of 1 to 32 bits in the file, for which there are blocks, each search of
`test_random_ips` finds the longest prefix of its address, and at the end the table is empty and all blocks are in the
free list. -/
theorem testRandomIps_longest {L : Type} (inetNetwork : L → BitVec 32) (atoi : L → Nat) (turns : Nat) (hturns : 3 ≤ turns)
    (random : Nat → Nat) (lines : List L) (rules : List (BitVec 32 × Nat))
    (hread : readRules inetNetwork atoi 0 lines = .ok rules) (hne : rules ≠ []) (hnodup : (rules.map prefixOf).Nodup)
    (hroom : blocks (Table.after (insertions 0 rules)) < 32 * 4096 - 1) :
    ∃ found ts, testRandomIps inetNetwork atoi turns random lines = .ok (found, ts) ∧
      found.length = randSize + 1 ∧ (∀ s ∈ found, LongestRule rules s.1 s.2) ∧
      (∀ x < 2 ^ 16, level16 ts.mm x = .zero) ∧ ∀ n, blockNo n < ts.mm.currIndex → blockNo n ∈ freed ts.mm.freeIndex := by
  obtain ⟨hcidr, hlen⟩ := readRules_ok hread (Nat.zero_le _)
  rw [Nat.zero_add] at hlen
  obtain ⟨ips, hips, hlenips, hmem⟩ := randomIps_ok hne random randSize
  obtain ⟨found, ts, huse, hfound, hlongest, hts⟩ := Readable.useTable ⟨hcidr, hlen, hnodup⟩ hturns hroom hmem
  refine ⟨found, ts, ?_, ?_, hlongest, hts.all_free⟩
  · rw [testRandomIps, hread, ok_bind, hips, ok_bind, huse]
  · have hcount := congrArg List.length hfound
    rw [List.length_map, List.length_append, List.length_take, hlenips, Nat.min_eq_left (by decide)] at hcount
    rw [hcount, Nat.add_comm]

/-- A file with 10.0.0.0/8 and 10.1.0.0/16, whose lines are numbers. -/
theorem testRandomIps_longest_two :
    ∃ found ts, testRandomIps (BitVec.ofNat 32) id 3 id [0x0a000000, 8, 0x0a010000, 16] = .ok (found, ts) ∧
      (∀ s ∈ found, LongestRule [(0x0a000000, 8), (0x0a010000, 16)] s.1 s.2) ∧ ∀ x < 2 ^ 16, level16 ts.mm x = .zero := by
  have hcalls : Allowed RouteOp.apply ZeroCall Table.empty (insertions 0 [(0x0a000000, 8), (0x0a010000, 16)]) :=
    ⟨by decide, by decide, trivial⟩
  have hroom := (zeroLegal_of_length Table.good_empty.fits (by rw [blocks_empty]; decide) hcalls).2
  obtain ⟨found, ts, hrun, -, hlongest, hzero, -⟩ := testRandomIps_longest (BitVec.ofNat 32) id 3 (by decide) id
    [0x0a000000, 8, 0x0a010000, 16] [(0x0a000000, 8), (0x0a010000, 16)] (by decide) (by decide) (by decide) hroom
  exact ⟨found, ts, hrun, hlongest, hzero⟩

end StubProfile.Route
