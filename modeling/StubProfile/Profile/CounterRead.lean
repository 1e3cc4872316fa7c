import Mathlib.Data.List.TakeWhile
import Mathlib.Data.Nat.Digits.Defs
import StubProfile.Profile.Process

/-!
# Reading a counter through its descriptor

`prof_evsel__read` reads the eight bytes of a counter with `readn`, which goes on after short reads and after `EINTR`.
At the end of the file `readn` returns 0, as `read` does, but `prof_evsel__read` takes only negative results for
errors.  It then returns the bytes that did arrive, filled up with what was in its variable `data`
(`evselRead_right_iff`).
-/

namespace StubProfile.Profile

/-! ### The source -/

/-- What a call of `read` does: it is interrupted, it fails, or it delivers some of these bytes, as many as are asked
for; with no bytes it is the end of the file. -/
inductive ReadOutcome where
  | eintr
  | error
  | data (bytes : List UInt8)
deriving DecidableEq, Repr

/-- `readn` with its result and the buffer, or `none` while it waits for the next `read`.  The buffer is split at the
pointer `buf`. -/
def readn (n : Nat) : (left : Nat) → (before buf : List UInt8) → List ReadOutcome → Option (Int × List UInt8)
  | 0, before, buf, _ => some (n, before ++ buf)
  | _ + 1, _, _, [] => none
  | left + 1, before, buf, .eintr :: outcomes => readn n (left + 1) before buf outcomes
  | _ + 1, before, buf, .error :: _ => some (-1, before ++ buf)
  | left + 1, before, buf, .data bytes :: outcomes =>
    let got := bytes.take (left + 1)
    if got.length = 0 then some (0, before ++ buf)
    else readn n (left + 1 - got.length) (before ++ got) (buf.drop got.length) outcomes

def uint64Max : UInt64 := 18446744073709551615

/-- The value of a variable with these bytes. -/
def uint64OfBytes (bytes : List UInt8) : UInt64 := UInt64.ofNat (Nat.ofDigits 256 (bytes.map UInt8.toNat))

/-- The macro `FD`. -/
def evselFd (ev : Evsel) (thread : Int) : Except Fault Int :=
  match ev.perThread with
  | none => .error .nullPerThread
  | some l =>
    match l[thread.toNat]? with
    | none => .error .badThread
    | some data => if 0 ≤ thread then .ok data.fd else .error .badThread

/-- `prof_evsel__read`, where the variable `data` has the bytes `data` before it is set. -/
def evselRead (ev : Evsel) (thread : Int) (outcomes : List ReadOutcome) (data : Vector UInt8 8) :
    Except Fault (Option UInt64) :=
  if !ev.isEnable then .ok (some 0)
  else
    match evselFd ev thread with
    | .error e => .error e
    | .ok fd =>
      if fd < 0 then .ok (some uint64Max)
      else
        match readn 8 8 [] data.toList outcomes with
        | none => .ok none
        | some (ret, buf) => if ret < 0 then .ok (some uint64Max) else .ok (some (uint64OfBytes buf))

/-! ### What the reads deliver -/

def ReadOutcome.bytes : ReadOutcome → List UInt8
  | .data bytes => bytes
  | _ => []

/-- `readn` calls `read` again, if bytes are left. -/
def ReadOutcome.goesOn : ReadOutcome → Bool
  | .eintr => true
  | .error => false
  | .data bytes => bytes ≠ []

/-- The bytes up to the first failure or the end of the file, at most eight. -/
def delivered (outcomes : List ReadOutcome) : List UInt8 :=
  ((outcomes.takeWhile ReadOutcome.goesOn).flatMap ReadOutcome.bytes).take 8

/-- Fewer than eight bytes have arrived, and no `read` has failed or come to the end of the file. -/
def Pending (outcomes : List ReadOutcome) : Prop :=
  (delivered outcomes).length < 8 ∧ outcomes.dropWhile ReadOutcome.goesOn = []

/-- The file ends before eight bytes have arrived. -/
def EndsEarly (outcomes : List ReadOutcome) : Prop :=
  (delivered outcomes).length < 8 ∧ ∃ rest, outcomes.dropWhile ReadOutcome.goesOn = .data [] :: rest

/-- The function waits only if it has to, and returns only `UINT64_MAX` or the eight bytes. -/
def RightAnswer (outcomes : List ReadOutcome) : Option UInt64 → Prop
  | none => Pending outcomes
  | some v => v = uint64Max ∨ (delivered outcomes).length = 8 ∧ v = uint64OfBytes (delivered outcomes)

/-! ### The loop of `readn` -/

/-- The loop takes in what arrives, up to what it still needs. -/
private theorem readn_append {pre : List ReadOutcome} (hon : ∀ o ∈ pre, o.goesOn = true) (n left : Nat)
    (before buf : List UInt8) (rest : List ReadOutcome) (got : List UInt8)
    (hgot : got = (pre.flatMap ReadOutcome.bytes).take left) :
    readn n left before buf (pre ++ rest) =
      readn n (left - got.length) (before ++ got) (buf.drop got.length) rest := by
  induction pre generalizing left before buf got with
  | nil => simp [hgot]
  | cons o pre ih =>
    have hon' : ∀ o ∈ pre, o.goesOn = true := fun o ho => hon o (by simp [ho])
    cases left with
    | zero => simp [hgot, readn]
    | succ left =>
      cases o with
      | eintr => simpa [readn] using ih hon' (left + 1) before buf got (by simpa [ReadOutcome.bytes] using hgot)
      | error => simp [ReadOutcome.goesOn] at hon
      | data bytes =>
        have hne : bytes ≠ [] := by simpa [ReadOutcome.goesOn] using hon (.data bytes) (by simp)
        have hpos : (bytes.take (left + 1)).length ≠ 0 := by simpa using hne
        have hsplit : got = bytes.take (left + 1) ++
            (pre.flatMap ReadOutcome.bytes).take (left + 1 - (bytes.take (left + 1)).length) := by
          rw [hgot, List.flatMap_cons, ReadOutcome.bytes, List.take_append, List.length_take]
          congr 2
          omega
        rw [List.cons_append, readn]
        simp only [hpos, if_false]
        rw [ih hon' _ _ _ _ rfl, hsplit]
        simp only [List.length_append, List.append_assoc, List.drop_drop, Nat.sub_sub]

/-- All reads of `readn` up to the one that ends it. -/
private theorem readn_eq (outcomes : List ReadOutcome) (buf : List UInt8) :
    readn 8 8 [] buf outcomes =
      readn 8 (8 - (delivered outcomes).length) (delivered outcomes) (buf.drop (delivered outcomes).length)
        (outcomes.dropWhile ReadOutcome.goesOn) := by
  have hon : ∀ o ∈ outcomes.takeWhile ReadOutcome.goesOn, o.goesOn = true := fun o ho => List.mem_takeWhile_imp ho
  have h := readn_append hon 8 8 [] buf (outcomes.dropWhile ReadOutcome.goesOn) (delivered outcomes) rfl
  rwa [List.takeWhile_append_dropWhile] at h

private theorem length_delivered_le (outcomes : List ReadOutcome) : (delivered outcomes).length ≤ 8 :=
  List.length_take_le 8 _

private theorem readn_of_eight {outcomes : List ReadOutcome} (h : (delivered outcomes).length = 8) {buf : List UInt8}
    (hbuf : buf.length = 8) : readn 8 8 [] buf outcomes = some (8, delivered outcomes) := by
  rw [readn_eq, h, List.drop_of_length_le (by omega)]
  simp [readn]

private theorem readn_of_endsEarly {outcomes : List ReadOutcome} (h : EndsEarly outcomes) (buf : List UInt8) :
    readn 8 8 [] buf outcomes = some (0, delivered outcomes ++ buf.drop (delivered outcomes).length) := by
  obtain ⟨hlt, rest, hrest⟩ := h
  obtain ⟨left, hleft⟩ : ∃ k, 8 - (delivered outcomes).length = k + 1 := ⟨7 - (delivered outcomes).length, by omega⟩
  rw [readn_eq, hleft, hrest]
  rfl

/-- Otherwise the loop waits or fails. -/
private theorem readn_of_lt {outcomes : List ReadOutcome} (hlt : (delivered outcomes).length < 8)
    (hno : ¬ EndsEarly outcomes) (buf : List UInt8) :
    (Pending outcomes ∧ readn 8 8 [] buf outcomes = none) ∨ ∃ buf', readn 8 8 [] buf outcomes = some (-1, buf') := by
  obtain ⟨left, hleft⟩ : ∃ k, 8 - (delivered outcomes).length = k + 1 := ⟨7 - (delivered outcomes).length, by omega⟩
  rw [readn_eq, hleft]
  cases hrest : outcomes.dropWhile ReadOutcome.goesOn with
  | nil => exact .inl ⟨⟨hlt, hrest⟩, rfl⟩
  | cons o rest =>
    -- the first outcome that does not go on
    have hstop : o.goesOn = false := by
      have := List.head_dropWhile_not ReadOutcome.goesOn (l := outcomes) (by simp [hrest])
      simpa only [hrest, List.head_cons] using this
    cases o with
    | eintr => cases hstop
    | error => exact .inr ⟨_, rfl⟩
    | data bytes =>
      obtain rfl : bytes = [] := by simpa [ReadOutcome.goesOn] using hstop
      exact absurd ⟨hlt, rest, hrest⟩ hno

/-! ### The answer -/

/-- Bytes filled up with zeros are not `UINT64_MAX`. -/
private theorem uint64OfBytes_append_zeros {bytes : List UInt8} (h : bytes.length < 8) (k : Nat) :
    uint64OfBytes (bytes ++ List.replicate k 0) ≠ uint64Max := by
  have hdigits : Nat.ofDigits 256 (bytes.map UInt8.toNat) < 256 ^ (bytes.map UInt8.toNat).length := by
    apply Nat.ofDigits_lt_base_pow_length (by decide)
    intro x hx
    obtain ⟨b, -, rfl⟩ := List.mem_map.1 hx
    exact b.toNat_lt
  have hpow : 256 ^ (bytes.map UInt8.toNat).length ≤ 256 ^ 7 :=
    Nat.pow_le_pow_right (by decide) (by rw [List.length_map]; omega)
  intro hmax
  have hval := congrArg UInt64.toNat hmax
  rw [uint64OfBytes, List.map_append, List.map_replicate, UInt8.toNat_zero, Nat.ofDigits_append_replicate_zero,
    UInt64.toNat_ofNat', Nat.mod_eq_of_lt (by omega)] at hval
  have : uint64Max.toNat = 18446744073709551615 := rfl
  omega

private theorem evselRead_eq {ev : Evsel} {thread fd : Int} (hen : ev.isEnable = true)
    (hfd : evselFd ev thread = .ok fd) (h0 : 0 ≤ fd) (outcomes : List ReadOutcome) (data : Vector UInt8 8) :
    evselRead ev thread outcomes data =
      .ok ((readn 8 8 [] data.toList outcomes).map fun r => if r.1 < 0 then uint64Max else uint64OfBytes r.2) := by
  unfold evselRead
  simp only [hen, hfd, Bool.not_true, Bool.false_eq_true, if_false, Int.not_lt.2 h0]
  cases readn 8 8 [] data.toList outcomes with
  | none => rfl
  | some r =>
    simp only [Option.map_some]
    split <;> rfl

/-- For an enabled event and a descriptor, the answer of `prof_evsel__read` is right, whatever was in its variable,
exactly if the file does not end before eight bytes have arrived. -/
theorem evselRead_right_iff (ev : Evsel) (thread fd : Int) (hen : ev.isEnable = true)
    (hfd : evselFd ev thread = .ok fd) (h0 : 0 ≤ fd) (outcomes : List ReadOutcome) :
    (∀ data, ∃ answer, evselRead ev thread outcomes data = .ok answer ∧ RightAnswer outcomes answer) ↔
      ¬ EndsEarly outcomes := by
  constructor
  · intro hright hearly
    obtain ⟨answer, hanswer, hok⟩ := hright (Vector.replicate 8 0)
    rw [evselRead_eq hen hfd h0, readn_of_endsEarly hearly, Vector.toList_replicate, List.drop_replicate,
      Except.ok.injEq] at hanswer
    subst hanswer
    obtain hmax | ⟨height, -⟩ := hok
    · exact uint64OfBytes_append_zeros hearly.1 _ hmax
    · exact absurd height (by have := hearly.1; omega)
  · intro hno data
    refine ⟨_, evselRead_eq hen hfd h0 outcomes data, ?_⟩
    obtain height | hlt := (length_delivered_le outcomes).eq_or_lt
    · rw [readn_of_eight height data.length_toList]
      exact .inr ⟨height, rfl⟩
    · obtain ⟨hpending, hread⟩ | ⟨buf', hread⟩ := readn_of_lt hlt hno data.toList
      · rw [hread]
        exact hpending
      · rw [hread]
        exact .inl rfl

/-- An enabled event with the descriptor 5 for its only thread. -/
def countingEvent : Evsel := ⟨[], ⟨0, 0, false, false⟩, 0, none, some [⟨5, 0, false⟩], true, true⟩

/-- A short read, an interrupt, and the rest. -/
theorem evselRead_right_short :
    ∃ answer, evselRead countingEvent 0 [.data [1, 2, 3], .eintr, .data [4, 5, 6, 7, 8]] (Vector.replicate 8 0) =
        .ok answer ∧
      RightAnswer [.data [1, 2, 3], .eintr, .data [4, 5, 6, 7, 8]] answer := by
  refine (evselRead_right_iff countingEvent 0 5 rfl rfl (by decide) _).2 (fun hearly => ?_) _
  exact absurd hearly.1 (by decide)

/-- At the end of the file the function returns what was in its variable. -/
theorem evselRead_end_of_file :
    evselRead countingEvent 0 [.data []] ⟨#[1, 0, 0, 0, 0, 0, 0, 0], rfl⟩ = .ok (some 1) ∧ delivered [.data []] = [] ∧
      ¬ RightAnswer [.data []] (some 1) := by
  refine ⟨by decide, rfl, ?_⟩
  intro hright
  obtain hmax | ⟨height, -⟩ := hright
  · exact absurd hmax (by decide)
  · exact absurd height (by decide)

end StubProfile.Profile
