import Mathlib.Tactic.Common

/-!
# Reading a text line by line through a buffer

`readLine nl n cs` takes characters off `cs` until it has a line end `nl`, has `n` characters, or runs into the end
of the text, as `fgets` does with a buffer of `n + 1` characters.  Only the last case raises the end-of-file flag.
-/

namespace Lines

variable {α : Type} [DecidableEq α]

/-- The characters read, what is left, and whether the end of the text was met. -/
structure Chunk (α : Type) where
  line : List α
  rest : List α
  eof : Bool
deriving DecidableEq, Repr

def readLine (nl : α) : Nat → List α → Chunk α
  | 0, cs => ⟨[], cs, false⟩
  | _ + 1, [] => ⟨[], [], true⟩
  | n + 1, c :: cs =>
    if c = nl then ⟨[c], cs, false⟩
    else { readLine nl n cs with line := c :: (readLine nl n cs).line }

/-- The text with a line end after each line. -/
def unlines (nl : α) (l : List (List α)) : List α := l.flatMap fun line => line ++ [nl]

omit [DecidableEq α] in
@[simp] theorem unlines_nil (nl : α) : unlines nl [] = [] := rfl

omit [DecidableEq α] in
@[simp] theorem unlines_cons (nl : α) (line : List α) (l : List (List α)) :
    unlines nl (line :: l) = line ++ nl :: unlines nl l := by
  simp [unlines]

omit [DecidableEq α] in
theorem unlines_append (nl : α) (l l' : List (List α)) : unlines nl (l ++ l') = unlines nl l ++ unlines nl l' := by
  simp [unlines]

variable {nl : α} {n : Nat} {cs line rest : List α}

theorem length_readLine_le : (readLine nl n cs).line.length ≤ n := by
  induction n generalizing cs with
  | zero => simp [readLine]
  | succ n ih =>
    cases cs with
    | nil => simp [readLine]
    | cons c cs =>
      unfold readLine
      split
      · simp
      · simpa using ih

private theorem readLine_append : (readLine nl n cs).line ++ (readLine nl n cs).rest = cs := by
  induction n generalizing cs with
  | zero => simp [readLine]
  | succ n ih =>
    cases cs with
    | nil => simp [readLine]
    | cons c cs =>
      unfold readLine
      split
      · simp
      · simp [ih]

theorem readLine_progress (hn : 0 < n) (h : (readLine nl n cs).eof = false) :
    (readLine nl n cs).rest.length < cs.length := by
  have happ : ((readLine nl n cs).line ++ (readLine nl n cs).rest).length = cs.length := by rw [readLine_append]
  rw [List.length_append] at happ
  cases n with
  | zero => omega
  | succ n =>
    cases cs with
    | nil => simp [readLine] at h
    | cons c cs =>
      have hline : (readLine nl (n + 1) (c :: cs)).line ≠ [] := by
        unfold readLine
        split <;> simp
      have := List.length_pos_iff.2 hline
      omega

theorem readLine_nil (hn : 0 < n) : readLine nl n [] = ⟨[], [], true⟩ := by
  cases n with
  | zero => omega
  | succ n => rfl

/-- A line that leaves room for its end is read whole. -/
theorem readLine_short (hlen : line.length < n) (hnl : nl ∉ line) :
    readLine nl n (line ++ nl :: rest) = ⟨line ++ [nl], rest, false⟩ := by
  induction line generalizing n with
  | nil =>
    cases n with
    | zero => simp at hlen
    | succ n => simp [readLine]
  | cons c line ih =>
    simp only [List.mem_cons, not_or] at hnl
    cases n with
    | zero => simp at hlen
    | succ n =>
      have hrec := ih (n := n) (by simpa using hlen) hnl.2
      simp [readLine, Ne.symm hnl.1, hrec]

/-- A line that fills the buffer is cut there, and its end stays in the text. -/
theorem readLine_full (hlen : line.length = n) (hnl : nl ∉ line) :
    readLine nl n (line ++ rest) = ⟨line, rest, false⟩ := by
  induction line generalizing n with
  | nil =>
    cases n with
    | zero => rfl
    | succ n => simp at hlen
  | cons c line ih =>
    simp only [List.mem_cons, not_or] at hnl
    cases n with
    | zero => simp at hlen
    | succ n =>
      have hrec := ih (n := n) (by simpa using hlen) hnl.2
      simp [readLine, Ne.symm hnl.1, hrec]

end Lines
