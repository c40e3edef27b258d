/-!
# Splitting

`splitLast? p s` cuts `s` around its last occurrence of `p`. A text that is cut at every occurrence
of a character gives pieces without it.
-/

namespace CallTrace.Text

/-- One step of the scan from the end: the text read so far, and the cut found in it. -/
def splitStep (p : List Char) (c : Char)
    (found : List Char × Option (List Char × List Char)) :
    List Char × Option (List Char × List Char) :=
  let s := c :: found.1
  match found.2 with
  | some (before, after) => (s, some (c :: before, after))
  | none => (s, if p.isPrefixOf s then some ([], s.drop p.length) else none)

def splitLast? (p s : List Char) : Option (List Char × List Char) :=
  (s.foldr (splitStep p) ([], none)).2

theorem foldr_splitStep_fst (p s : List Char) : (s.foldr (splitStep p) ([], none)).1 = s := by
  induction s with
  | nil => rfl
  | cons c s ih =>
    simp only [List.foldr_cons, splitStep, ih]
    split <;> rfl

@[simp] theorem splitLast?_nil (p : List Char) : splitLast? p [] = none := rfl

theorem splitLast?_cons (p : List Char) (c : Char) (s : List Char) :
    splitLast? p (c :: s) =
      match splitLast? p s with
      | some (before, after) => some (c :: before, after)
      | none => if p.isPrefixOf (c :: s) then some ([], (c :: s).drop p.length) else none := by
  have hs := foldr_splitStep_fst p s
  simp only [splitLast?, List.foldr_cons, splitStep, hs]
  split <;> simp_all

theorem eq_append_of_splitLast? {p s a b : List Char} (h : splitLast? p s = some (a, b)) :
    s = a ++ p ++ b := by
  induction s generalizing a with
  | nil => simp at h
  | cons c s ih =>
    rw [splitLast?_cons] at h
    split at h
    · next x y hxy =>
      simp only [Option.some.injEq, Prod.mk.injEq] at h
      obtain ⟨rfl, rfl⟩ := h
      simp [ih hxy]
    · split at h
      · next hp =>
        simp only [Option.some.injEq, Prod.mk.injEq] at h
        obtain ⟨rfl, rfl⟩ := h
        obtain ⟨t, ht⟩ := List.isPrefixOf_iff_prefix.mp hp
        simp [← ht]
      · simp at h

theorem splitLast?_eq_none_iff {p s : List Char} (hp : p ≠ []) :
    splitLast? p s = none ↔ ¬ p <:+: s := by
  induction s with
  | nil => simpa using hp
  | cons c s ih =>
    rw [splitLast?_cons, List.infix_cons_iff]
    cases hs : splitLast? p s with
    | some cut =>
      have hin : p <:+: s := by
        apply Decidable.not_not.mp
        intro hno
        cases hs.symm.trans (ih.mpr hno)
      simp [hin]
    | none =>
      have hno : ¬ p <:+: s := ih.mp hs
      by_cases hstart : p <+: c :: s
      · simp [hstart]
      · simp [hstart, hno]

/-- Nothing after the cut holds a further occurrence. -/
theorem not_infix_of_splitLast? {c : Char} {p s a b : List Char}
    (h : splitLast? (c :: p) s = some (a, b)) : ¬ c :: p <:+: b := by
  induction s generalizing a with
  | nil => simp at h
  | cons x s ih =>
    rw [splitLast?_cons] at h
    cases hs : splitLast? (c :: p) s with
    | some cut =>
      obtain ⟨front, back⟩ := cut
      simp only [hs, Option.some.injEq, Prod.mk.injEq] at h
      apply ih (a := front)
      rw [hs, h.2]
    | none =>
      simp only [hs, Option.ite_none_right_eq_some, Option.some.injEq, Prod.mk.injEq] at h
      obtain ⟨-, -, rfl⟩ := h
      intro hin
      have hlater : c :: p <:+: s := hin.trans (List.drop_suffix p.length s).isInfix
      exact (splitLast?_eq_none_iff (List.cons_ne_nil c p)).mp hs hlater

/-- What begins with a character cannot begin in a part that lacks it. -/
theorem infix_of_infix_append {c : Char} {p q b : List Char} (hq : c ∉ q)
    (h : c :: p <:+: q ++ b) : c :: p <:+: b := by
  induction q with
  | nil => exact h
  | cons x q ih =>
    obtain ⟨hx, hq⟩ := not_or.mp (mt List.mem_cons.mpr hq)
    cases List.infix_cons_iff.mp h with
    | inl hstart => exact absurd (List.cons_prefix_cons.mp hstart).1 hx
    | inr hlater => exact ih hq hlater

/-- The last occurrence is the one that is followed by no other. -/
theorem splitLast?_eq_some_iff {c : Char} {p s a b : List Char} (hp : c ∉ p) :
    splitLast? (c :: p) s = some (a, b) ↔ s = a ++ c :: p ++ b ∧ ¬ c :: p <:+: b := by
  constructor
  · intro h
    exact ⟨eq_append_of_splitLast? h, not_infix_of_splitLast? h⟩
  · rintro ⟨rfl, hb⟩
    induction a with
    | nil =>
      have hnone : splitLast? (c :: p) (p ++ b) = none :=
        (splitLast?_eq_none_iff (List.cons_ne_nil c p)).mpr (mt (infix_of_infix_append hp) hb)
      have hstart : (c :: p).isPrefixOf (c :: (p ++ b)) = true :=
        List.isPrefixOf_iff_prefix.mpr (List.prefix_append (c :: p) b)
      rw [List.nil_append, List.cons_append, splitLast?_cons, hnone]
      simp [hstart]
    | cons x a ih => rw [List.cons_append, List.cons_append, splitLast?_cons, ih]

/-- No piece of a text that is cut at a character holds this character. -/
theorem not_mem_of_mem_splitOn {c : Char} {s l : List Char} (hl : l ∈ s.splitOn c) : c ∉ l := by
  induction s generalizing l with
  | nil => simp_all
  | cons x s ih =>
    rw [List.splitOn_cons_eq_if_modifyHead] at hl
    by_cases hx : x = c
    · simp only [hx, beq_self_eq_true, if_true, List.mem_cons] at hl
      cases hl with
      | inl hnil => simp [hnil]
      | inr hl => exact ih hl
    · obtain ⟨first, rest, hpieces⟩ := List.exists_cons_of_ne_nil (List.splitOn_ne_nil c s)
      simp only [beq_iff_eq, hx, if_false, hpieces, List.modifyHead_cons, List.mem_cons] at hl
      cases hl with
      | inl heq =>
        have hfirst : c ∉ first := ih (by simp [hpieces])
        simp [heq, hfirst, Ne.symm hx]
      | inr hl => exact ih (by simp [hpieces, hl])

end CallTrace.Text
