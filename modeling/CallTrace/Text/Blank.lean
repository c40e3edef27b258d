import CallTrace.Text.CodeRange

/-!
# Blanks

Blanks are the characters with the Unicode property `White_Space`. The control characters
U+001C to U+001F, which end lines in some formats, do not have it.
-/

namespace CallTrace.Text

def blankRanges : List CodeRange :=
  [(0x09, 0x0D), (0x20, 0x20), (0x85, 0x85), (0xA0, 0xA0), (0x1680, 0x1680), (0x2000, 0x200A),
    (0x2028, 0x2029), (0x202F, 0x202F), (0x205F, 0x205F), (0x3000, 0x3000)]

def isBlank (c : Char) : Bool := within blankRanges c

/-- Drops the blanks at both ends. -/
def trim (s : List Char) : List Char :=
  ((s.dropWhile isBlank).reverse.dropWhile isBlank).reverse

theorem trim_eq_self {s : List Char} (hs : ∀ c ∈ s, isBlank c = false) : trim s = s := by
  have drop : ∀ t : List Char, (∀ c ∈ t, isBlank c = false) → t.dropWhile isBlank = t := by
    intro t ht
    cases t with
    | nil => rfl
    | cons c t => simp [ht c List.mem_cons_self]
  simp [trim, drop s hs, drop s.reverse (by simpa using hs)]

theorem mem_dropWhile_isBlank {s : List Char} {c : Char} (hc : c ∈ s) (hb : isBlank c = false) :
    c ∈ s.dropWhile isBlank := by
  rw [← List.takeWhile_append_dropWhile (p := isBlank) (l := s), List.mem_append] at hc
  cases hc with
  | inl hfront =>
    have hblank := List.all_eq_true.mp (List.all_takeWhile (p := isBlank)) c hfront
    cases hb.symm.trans hblank
  | inr hback => exact hback

/-- Only blanks are dropped. -/
theorem mem_trim {s : List Char} {c : Char} (hc : c ∈ s) (hb : isBlank c = false) : c ∈ trim s := by
  have hfront := List.mem_reverse.mpr (mem_dropWhile_isBlank hc hb)
  exact List.mem_reverse.mpr (mem_dropWhile_isBlank hfront hb)

end CallTrace.Text
