import CallTrace.Text.CodeRange

/-!
# Lines

A text is cut into lines at every line boundary character. A carriage return with the line feed
after it is one boundary, and a boundary at the end of the text opens no further line.
-/

namespace CallTrace.Text

def breakRanges : List CodeRange :=
  [(0x0A, 0x0D), (0x1C, 0x1E), (0x85, 0x85), (0x2028, 0x2029)]

def isBreak (c : Char) : Bool := within breakRanges c

/-- What follows the boundary at the head of a text. -/
def afterBreak : List Char → List Char
  | [] => []
  | '\r' :: '\n' :: r => r
  | _ :: r => r

theorem length_afterBreak_lt {s : List Char} (h : s ≠ []) : (afterBreak s).length < s.length := by
  fun_cases afterBreak s with
  | case1 => exact absurd rfl h
  | case2 r =>
    rw [List.length_cons, List.length_cons]
    omega
  | case3 => simp

/-- The lines of a text, without their boundaries. -/
def lines (s : List Char) : List (List Char) :=
  if s = [] then []
  else
    s.takeWhile (fun c => !isBreak c) :: lines (afterBreak (s.dropWhile (fun c => !isBreak c)))
termination_by s.length
decreasing_by
  have hle : (s.dropWhile (fun c => !isBreak c)).length ≤ s.length :=
    (List.dropWhile_suffix _).length_le
  by_cases hd : s.dropWhile (fun c => !isBreak c) = []
  · rw [hd]
    exact List.length_pos_iff.mpr ‹_›
  · exact Nat.lt_of_lt_of_le (length_afterBreak_lt hd) hle

@[simp] theorem lines_nil : lines [] = [] := by simp [lines]

theorem not_isBreak_of_mem_lines {s l : List Char} (hl : l ∈ lines s) {c : Char} (hc : c ∈ l) :
    isBreak c = false := by
  fun_induction lines s with
  | case1 => simp at hl
  | case2 s _ ih =>
    rcases List.mem_cons.mp hl with rfl | hl
    · have hp := List.all_eq_true.mp (List.all_takeWhile (p := fun c => !isBreak c)) c hc
      simpa using hp
    · exact ih hl

/-- The text of some lines, each with a line feed after it. -/
def unlines (ls : List String) : String := "".intercalate (ls.map (· ++ "\n"))

theorem toList_unlines (ls : List String) :
    (unlines ls).toList = ls.flatMap fun l => l.toList ++ ['\n'] := by
  induction ls with
  | nil => rfl
  | cons l ls ih =>
    cases ls with
    | nil => simp [unlines]
    | cons m ls => simp_all [unlines]

/-- A line feed ends the line before it. -/
theorem lines_append_lineFeed {l : List Char} (hl : ∀ c ∈ l, isBreak c = false) (s : List Char) :
    lines (l ++ '\n' :: s) = l :: lines s := by
  have hpos : ∀ c ∈ l, (!isBreak c) = true := fun c hc => by simp [hl c hc]
  have hfeed : isBreak '\n' = true := by decide
  have hafter : afterBreak ('\n' :: s) = s := by simp [afterBreak]
  rw [lines, if_neg (by simp), List.takeWhile_append_of_pos hpos, List.dropWhile_append_of_pos hpos]
  simp [hfeed, hafter]

/-- Lines without boundaries come back from their text. -/
theorem lines_unlines {ls : List String} (h : ∀ l ∈ ls, ∀ c ∈ l.toList, isBreak c = false) :
    lines (unlines ls).toList = ls.map String.toList := by
  rw [toList_unlines]
  induction ls with
  | nil => exact lines_nil
  | cons l ls ih =>
    obtain ⟨hl, hls⟩ := List.forall_mem_cons.mp h
    rw [List.flatMap_cons, List.append_assoc, List.singleton_append, lines_append_lineFeed hl,
      ih hls, List.map_cons]

end CallTrace.Text
