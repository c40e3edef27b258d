/-!
# Code point ranges

A class of characters is given by a table of closed ranges of code points.
-/

namespace CallTrace.Text

abbrev CodeRange := Nat × Nat

def CodeRange.Contains (r : CodeRange) (n : Nat) : Prop := r.1 ≤ n ∧ n ≤ r.2

instance (r : CodeRange) (n : Nat) : Decidable (r.Contains n) :=
  inferInstanceAs (Decidable (r.1 ≤ n ∧ n ≤ r.2))

def within (rs : List CodeRange) (c : Char) : Bool := rs.any fun r => decide (r.Contains c.toNat)

theorem within_iff {rs : List CodeRange} {c : Char} :
    within rs c = true ↔ ∃ r ∈ rs, r.Contains c.toNat := by
  simp [within]

end CallTrace.Text
