import CallTrace.Trace.Reader

/-!
# Checked reading

A checked reader checks each line and each error when it makes it and gives the first rule that is
broken instead of an answer. What passes the checks is the answer of the reader without them.
-/

namespace CallTrace.Trace

def Fault.checkedAt (f : Fault) (lineNo : Nat) (line : List Char) : Checked Error :=
  Error.make lineNo (String.ofList line) f.reason

def checkedReadLine (hidden : List String) (lineNo : Nat) (s : List Char) :
    Checked (Except Error Line) :=
  match readLine hidden s with
  | .error f => do
    let e ← f.checkedAt lineNo s
    return .error e
  | .ok l => do
    let l ← Line.make l.signature l.className l.depth l.lineNumber l.isSink
    return .ok l

def checkedReadLines (hidden : List String) :
    Nat → List (List Char) → Checked (Except Error (List Line))
  | _, [] => return .ok []
  | lineNo, s :: ss =>
    if s = [] then checkedReadLines hidden (lineNo + 1) ss
    else do
      match ← checkedReadLine hidden lineNo s with
      | .error e => return .error e
      | .ok l =>
        let rest ← checkedReadLines hidden (lineNo + 1) ss
        return rest.map (l :: ·)

def checkedRead (text : String) (hidden : List String) : Checked (Except Error (List Line)) :=
  match Text.lines text.toList with
  | [] => do
    let e ← Fault.header.checkedAt 1 []
    return .error e
  | s :: ss =>
    if s = header.toList then checkedReadLines hidden 2 ss
    else do
      let e ← Fault.header.checkedAt 1 s
      return .error e

theorem Fault.reason_ne (f : Fault) : f.reason ≠ "" := by
  cases f with
  | header => exact Text.append_ne_empty (by decide) _
  | oddIndent spaces => exact Text.append_ne_empty (Text.append_ne_empty (by decide) _) _
  | noMarker => decide
  | notInteger text => exact Text.append_ne_empty (by decide) _
  | notTwoWords => decide

/-- Every fault has a reason, and lines are counted from one. -/
theorem Fault.checkedAt_eq (f : Fault) {lineNo : Nat} (h : 0 < lineNo) (line : List Char) :
    f.checkedAt lineNo line = .ok (f.at lineNo line) := by
  have hlineNo : 1 ≤ (lineNo : Int) := by omega
  unfold checkedAt Error.make
  rw [require_of hlineNo, require_of f.reason_ne]
  rfl

theorem names_ne_of_readLine {hidden : List String} {s : List Char} {l : Line}
    (h : readLine hidden s = .ok l) : l.signature ≠ "" ∧ l.className ≠ "" := by
  unfold readLine readBody at h
  dsimp only at h
  split at h
  · split at h
    · cases h
    · split at h
      · cases h
      · split at h
        · cases h
        · next hwords =>
          obtain rfl := Except.ok.inj h
          obtain ⟨-, hsignature, hclassName⟩ := words?_eq_some_iff.mp hwords
          exact ⟨by simpa using hsignature.1, by simpa using hclassName.1⟩
  · cases h

theorem checkedReadLine_eq (hidden : List String) {lineNo : Nat} (h : 0 < lineNo) (s : List Char) :
    checkedReadLine hidden lineNo s =
      .ok ((readLine hidden s).mapError fun f => f.at lineNo s) := by
  unfold checkedReadLine
  cases hread : readLine hidden s with
  | error f =>
    simp only [f.checkedAt_eq h]
    rfl
  | ok l =>
    obtain ⟨hsignature, hclassName⟩ := names_ne_of_readLine hread
    simp only [Line.make_of hsignature hclassName]
    rfl

theorem checkedReadLines_eq (hidden : List String) {lineNo : Nat} (h : 0 < lineNo)
    (ss : List (List Char)) :
    checkedReadLines hidden lineNo ss = .ok (readLines hidden lineNo ss) := by
  induction ss generalizing lineNo with
  | nil => rfl
  | cons s ss ih =>
    have hrest := ih (Nat.succ_pos lineNo)
    unfold checkedReadLines readLines
    by_cases hs : s = []
    · rw [if_pos hs, if_pos hs, hrest]
    · rw [if_neg hs, if_neg hs, checkedReadLine_eq hidden h s]
      cases readLine hidden s with
      | error f => rfl
      | ok l =>
        simp only [hrest]
        rfl

/-- A checked reader breaks no rule and gives the answer of the reader without checks. -/
theorem checkedRead_eq (text : String) (hidden : List String) :
    checkedRead text hidden = .ok (read text hidden) := by
  unfold checkedRead read
  cases Text.lines text.toList with
  | nil =>
    simp only [Fault.header.checkedAt_eq Nat.one_pos]
    rfl
  | cons s ss =>
    by_cases hs : s = header.toList
    · simp only [if_pos hs, checkedReadLines_eq hidden Nat.two_pos ss]
    · simp only [if_neg hs, Fault.header.checkedAt_eq Nat.one_pos]
      rfl

end CallTrace.Trace
