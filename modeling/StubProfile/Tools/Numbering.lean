import Mathlib.Data.Nat.Digits.Defs
import Mathlib.Data.Set.Function
import StubProfile.Tools.Constructors

/-!
# The numbers of a function map

A map keeps its names twice, in the vector `funcs` and as the keys of `func_indices`, and `addFunction` is the only
function that changes them.  Whatever is added, the vector is the list of the distinct names outside the skip list.  The
number of a name is its position in the vector, as an `unsigned`, and `UINT_MAX` stands for no number.  So the numbers
are right exactly if there are fewer than `2 ^ 32` names (`numbered_iff`).
-/

namespace StubProfile.Tools

open Interning

variable {skiplist names : List CString} {fm : FuncMap}

/-- The two containers of a map that was filled with `names` are inverse to each other. -/
structure Numbered (skiplist names : List CString) (fm : FuncMap) : Prop where
  /-- the distinct names outside the skip list, in the order of their first occurrence -/
  funcs_eq : fm.funcs = (names.filter (· ∉ skiplist)).eraseDups
  /-- `func_indices` maps `funcs[i]` to `i`, and nothing else -/
  indices : ∀ func i, (fm.funcIndices func).map UInt32.toNat = some i ↔ fm.funcs[i]? = some func
  closed : ∀ more, (∀ func ∈ more, func ∈ fm.funcs ∨ func ∈ skiplist) → addFunctions skiplist fm more = fm
  ids : Set.BijOn (fun func => (getFunctionID fm func).toNat) {func | func ∈ fm.funcs} (Set.Iio fm.funcs.length)
  others : ∀ func, getFunctionID fm func = uintMax ↔ func ∉ fm.funcs

private theorem addFunctions_build (c : Constructor) (skiplist names : List CString) :
    addFunctions skiplist c.build names = c.build.withNames ((names.filter (· ∉ skiplist)).eraseDups) := by
  rw [c.isNew_build.addFunctions, keptNames, internAll_nil_eq]

private theorem nodup_eraseDups (l : List CString) : l.eraseDups.Nodup := by
  rw [← internAll_nil_eq]
  exact nodup_internAll List.nodup_nil

/-! ### Fewer than `2 ^ 32` names -/

private theorem indexIn_toNat (hlen : names.length < 2 ^ 32) (func : CString) :
    (indexIn names func).map UInt32.toNat = if func ∈ names then some (names.idxOf func) else none := by
  unfold indexIn
  by_cases hmem : func ∈ names
  · have hlt := List.idxOf_lt_length_of_mem hmem
    rw [if_pos hmem, if_pos hmem, Option.map_some, UInt32.toNat_ofNat', Nat.mod_eq_of_lt (by omega)]
  · rw [if_neg hmem, if_neg hmem]
    rfl

private theorem indices_withNames (hn : names.Nodup) (hlen : names.length < 2 ^ 32) (func : CString) (i : Nat) :
    ((fm.withNames names).funcIndices func).map UInt32.toNat = some i ↔ names[i]? = some func := by
  show (indexIn names func).map UInt32.toNat = some i ↔ _
  rw [indexIn_toNat hlen]
  constructor
  · intro h
    by_cases hmem : func ∈ names
    · rw [if_pos hmem, Option.some.injEq] at h
      subst h
      exact List.getElem?_idxOf hmem
    · rw [if_neg hmem] at h
      cases h
  · intro h
    obtain ⟨hi, rfl⟩ := List.getElem?_eq_some_iff.1 h
    rw [if_pos (List.getElem_mem hi), hn.idxOf_getElem]

private theorem closed_withNames {more : List CString} (h : ∀ func ∈ more, func ∈ names ∨ func ∈ skiplist) :
    addFunctions skiplist (fm.withNames names) more = fm.withNames names := by
  rw [addFunctions_withNames, internAll_of_subset]
  intro func hfunc
  obtain ⟨hmore, hskip⟩ := List.mem_filter.1 hfunc
  exact (h func hmore).resolve_right (by simpa using hskip)

private theorem getFunctionID_toNat (fm : FuncMap) (hlen : names.length < 2 ^ 32) {func : CString}
    (hmem : func ∈ names) : (getFunctionID (fm.withNames names) func).toNat = names.idxOf func := by
  have hlt := List.idxOf_lt_length_of_mem hmem
  rw [getFunctionID_withNames, if_pos hmem, UInt32.toNat_ofNat', Nat.mod_eq_of_lt (by omega)]

private theorem ids_withNames (hn : names.Nodup) (hlen : names.length < 2 ^ 32) :
    Set.BijOn (fun func => (getFunctionID (fm.withNames names) func).toNat) {func | func ∈ names}
      (Set.Iio names.length) := by
  refine ⟨?_, ?_, ?_⟩
  · intro func hmem
    simp only [Set.mem_Iio, getFunctionID_toNat fm hlen hmem]
    exact List.idxOf_lt_length_of_mem hmem
  · intro func hmem func' hmem' heq
    simp only [getFunctionID_toNat fm hlen hmem, getFunctionID_toNat fm hlen hmem'] at heq
    exact (List.idxOf_inj hmem).1 heq
  · intro i hi
    have hi : i < names.length := hi
    refine ⟨names[i], List.getElem_mem hi, ?_⟩
    simp only [getFunctionID_toNat fm hlen (List.getElem_mem hi), hn.idxOf_getElem]

private theorem others_withNames (hlen : names.length < 2 ^ 32) (func : CString) :
    getFunctionID (fm.withNames names) func = uintMax ↔ func ∉ names := by
  constructor
  · intro hmax hmem
    have hlt := List.idxOf_lt_length_of_mem hmem
    have hid := getFunctionID_toNat fm hlen hmem
    rw [hmax, show uintMax.toNat = 2 ^ 32 - 1 by rfl] at hid
    omega
  · intro hmem
    rw [getFunctionID_withNames, if_neg hmem]

/-! ### More names -/

/-- The name at the position `2 ^ 32 - 1` has the number that stands for no number. -/
private theorem not_numbered_withNames (hn : names.Nodup) (hmany : 2 ^ 32 ≤ names.length) (l : List CString) :
    ¬ Numbered skiplist l (fm.withNames names) := by
  intro h
  have hi : 2 ^ 32 - 1 < names.length := by omega
  have hmax : getFunctionID (fm.withNames names) names[2 ^ 32 - 1] = uintMax := by
    rw [getFunctionID_withNames, if_pos (List.getElem_mem hi), hn.idxOf_getElem]
    rfl
  exact (h.others _).1 hmax (List.getElem_mem hi)

/-- After every sequence of calls of `addFunction` on a new map, the vector and the numbers are right exactly if there
are fewer than `2 ^ 32` distinct names outside the skip list. -/
theorem numbered_iff (c : Constructor) (skiplist names : List CString) :
    Numbered skiplist names (addFunctions skiplist c.build names) ↔
      ((names.filter (· ∉ skiplist)).eraseDups).length < 2 ^ 32 := by
  have hn := nodup_eraseDups (names.filter (· ∉ skiplist))
  rw [addFunctions_build]
  constructor
  · intro h
    by_contra hmany
    exact not_numbered_withNames hn (by omega) names h
  · intro hlen
    exact ⟨rfl, indices_withNames hn hlen, fun _ => closed_withNames, ids_withNames hn hlen, others_withNames hlen⟩

/-- The decimal digits of a number, the lowest first. -/
def digitName (i : Nat) : CString := (Nat.digits 10 i).map fun d => Char.ofNat (48 + d)

private theorem digitName_inj {i j : Nat} (h : digitName i = digitName j) : i = j := by
  have hdigit : ∀ d < 10, (Char.ofNat (48 + d)).toNat - 48 = d := by decide
  have hback : ∀ n, (digitName n).map (fun c => c.toNat - 48) = Nat.digits 10 n := by
    intro n
    rw [digitName, List.map_map]
    conv_rhs => rw [← List.map_id (Nat.digits 10 n)]
    exact List.map_congr_left fun d hd => hdigit d (Nat.digits_lt_base (by decide) hd)
  apply Nat.digits.injective 10
  rw [← hback, ← hback, h]

/-- Distinct names, one for each number below `n`. -/
def digitNames (n : Nat) : List CString := (List.range n).map digitName

private theorem nodup_digitNames (n : Nat) : (digitNames n).Nodup := List.nodup_range.map fun _ _ => digitName_inj

private theorem length_digitNames (n : Nat) : (digitNames n).length = n := by simp [digitNames]

private theorem eraseDups_digitNames (n : Nat) :
    ((digitNames n).filter (· ∉ ([] : List CString))).eraseDups = digitNames n := by
  rw [List.filter_eq_self.2 (by simp), ← internAll_nil_eq]
  exact internAll_of_nodup (by simpa using nodup_digitNames n)

/-- With `2 ^ 32` names the last one is in the map, but its number is `UINT_MAX`. -/
theorem numbered_too_many :
    ¬ Numbered [] (digitNames (2 ^ 32))
      (addFunctions [] (Constructor.path "/bin/p".toList).build (digitNames (2 ^ 32))) := by
  rw [addFunctions_build, eraseDups_digitNames]
  exact not_numbered_withNames (nodup_digitNames _) (Nat.le_of_eq (length_digitNames _).symm) _

end StubProfile.Tools
