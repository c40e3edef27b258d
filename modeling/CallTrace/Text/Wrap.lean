/-!
# Wrapping

A text is filled word by word into lines of a given width. A word has the blanks around it; the
blanks after it may stick out of a line and are then cut away. A word that is too long for any
line starts on a line of its own and is cut into pieces. The characters are of any type, as long
as it is known which are blank.
-/

namespace CallTrace.Text.Wrap

variable {α : Type _}

/-- The first word and what follows it; `none` if there are only blanks. -/
def word? (blank : α → Bool) (s : List α) : Option (List α × List α) :=
  let r := s.dropWhile blank
  let body := r.takeWhile (!blank ·)
  let t := r.dropWhile (!blank ·)
  if body = [] then none
  else some (s.takeWhile blank ++ body ++ t.takeWhile blank, t.dropWhile blank)

theorem length_lt_of_word? {blank : α → Bool} {s w r : List α}
    (h : word? blank s = some (w, r)) : r.length < s.length := by
  simp only [word?] at h
  generalize ht : s.dropWhile blank = t at h
  split at h
  · cases h
  · next hb =>
    cases h
    have rest_le : ((t.dropWhile (!blank ·)).dropWhile blank).length ≤
        (t.dropWhile (!blank ·)).length := (List.dropWhile_suffix blank).length_le
    have tail_le : t.length ≤ s.length := ht ▸ (List.dropWhile_suffix blank).length_le
    have cut : (t.takeWhile (!blank ·)).length + (t.dropWhile (!blank ·)).length = t.length := by
      rw [← List.length_append, List.takeWhile_append_dropWhile]
    have body_pos : 0 < (t.takeWhile (!blank ·)).length := List.length_pos_iff.mpr hb
    omega

def words (blank : α → Bool) (s : List α) : List (List α) :=
  match _h : word? blank s with
  | none => []
  | some (w, r) => w :: words blank r
termination_by s.length
decreasing_by exact length_lt_of_word? ‹_›

/-- The length without the blanks at the end. -/
def solidLength (blank : α → Bool) (s : List α) : Nat := (s.reverse.dropWhile blank).length

/-- Pieces of `w` characters; the last one may be shorter. -/
def pieces (w : Nat) (s : List α) : List (List α) :=
  if w = 0 ∨ s.length ≤ w then [s] else s.take w :: pieces w (s.drop w)
termination_by s.length
decreasing_by
  simp only [List.length_drop]
  omega

/-- Fills lines with words; `line` is what the line under way holds. -/
def fill (blank : α → Bool) (w : Nat) : List α → List (List α) → List (List α)
  | line, [] => if line = [] then [] else [line]
  | line, word :: rest =>
    let n := solidLength blank word
    if line.length + n ≤ w then fill blank w (line ++ word) rest
    else if n ≤ w then line :: fill blank w word rest
    else
      let ps := pieces w word
      (if line = [] then [] else [line]) ++ ps.dropLast ++ fill blank w (ps.getLastD []) rest

/-- Cuts a line down to the width, blanks at its end first. -/
def crop (blank : α → Bool) (w : Nat) (line : List α) : List α :=
  let ends := line.length - solidLength blank line
  (line.take (line.length - min ends (line.length - w))).take w

def wrap (blank : α → Bool) (w : Nat) (s : List α) : List (List α) :=
  let ws := words blank s
  let ls := if ws = [] then [s] else fill blank w [] ws
  ls.map (crop blank w)

end CallTrace.Text.Wrap
