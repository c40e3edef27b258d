import CallTrace.Text.Integer

/-!
# Printing

Not every text can be made. An integer is printed only with as many digits as readers take, and a
text is repeated only as long as the whole is not too long.
-/

namespace CallTrace

/-- A sequence of two steps succeeds exactly if each of them does. -/
theorem bind_eq_ok_iff {ε α β : Type} {x : Except ε α} {f : α → Except ε β} {b : β} :
    (x >>= f) = .ok b ↔ ∃ a, x = .ok a ∧ f a = .ok b := by
  cases x <;> simp [bind, Except.bind]

namespace Text

/-- The length of the longest text. -/
def maxLength : Nat := 9223372036854775807

/-- Why a text cannot be made. -/
inductive Unprintable
  | tooManyDigits
  | tooManyCopies
  | tooLong
deriving DecidableEq

def Unprintable.message : Unprintable → String
  | .tooManyDigits =>
    "Exceeds the limit (" ++ toString digitLimit ++ " digits) for integer string conversion; " ++
      "use sys.set_int_max_str_digits() to increase the limit"
  | .tooManyCopies => "cannot fit 'int' into an index-sized integer"
  | .tooLong => "repeated string is too long"

def printInteger (n : Int) : Except Unprintable String :=
  if Readable n then .ok (toString n) else .error .tooManyDigits

/-- The text `n` times. -/
def copies (s : String) (n : Nat) : String := String.ofList (List.replicate n s.toList).flatten

def printCopies (s : String) (n : Nat) : Except Unprintable String :=
  if maxLength < n then .error .tooManyCopies
  else if maxLength < n * s.length then .error .tooLong
  else .ok (copies s n)

theorem printInteger_eq_ok_iff {n : Int} {t : String} :
    printInteger n = .ok t ↔ Readable n ∧ t = toString n := by
  by_cases h : Readable n <;> simp [printInteger, h, eq_comm]

theorem printInteger_of_not_readable {n : Int} (h : ¬ Readable n) :
    printInteger n = .error .tooManyDigits :=
  if_neg h

/-- Copies of a text can be made as long as the whole is not too long. -/
theorem printCopies_eq_ok_iff {s t : String} {n : Nat} (hs : 0 < s.length) :
    printCopies s n = .ok t ↔ n * s.length ≤ maxLength ∧ t = copies s n := by
  have hle : n ≤ n * s.length := Nat.le_mul_of_pos_right n hs
  unfold printCopies
  split
  · next hn =>
    have hlong : ¬ n * s.length ≤ maxLength := by omega
    simp [hlong]
  · by_cases hlong : maxLength < n * s.length
    · simp [hlong, Nat.not_le.mpr hlong]
    · simp [hlong, Nat.not_lt.mp hlong, eq_comm]

theorem printCopies_of_lt {s : String} {n : Nat} (h : maxLength < n) :
    printCopies s n = .error .tooManyCopies :=
  if_pos h

end Text

end CallTrace
