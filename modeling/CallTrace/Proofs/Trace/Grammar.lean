import CallTrace.Trace.Checks
import Mathlib.Data.List.Forall2

/-!
# The grammar of traces

After the header each line that is not empty has a margin of two spaces for each level, two words,
the marker and an integer, which may be written in any way that readers take. A reader accepts
exactly such texts. It blames the first line that is none of this, for the first check it fails.
-/

namespace CallTrace.Trace

/-- The text is a written form of the line for a reader that knows the hidden classes. -/
inductive Spells (hidden : List String) : List Char → Line → Prop
  | line {depth : Nat} {signature className number : List Char} {lineNumber : Int} {isSink : Bool}
      (hsignature : IsToken signature) (hclassName : IsToken className)
      (hnumber : Text.integer? number = some lineNumber)
      (hsink : isSink = true ↔
        ∃ c ∈ candidates (String.ofList className), CoveredBy hidden c) :
      Spells hidden
        (List.replicate (2 * depth) ' ' ++
          (signature ++ ' ' :: className ++ lineMarker.toList ++ number))
        ⟨String.ofList signature, String.ofList className, depth, lineNumber, isSink⟩

/-- The first check that a line fails: for an even margin, the marker, the integer after the last
marker and the two words before it. -/
inductive Fails : List Char → Fault → Prop
  | oddIndent {spaces : Nat} {body : List Char} (hbody : body.head? ≠ some ' ')
      (hodd : spaces % 2 = 1) :
      Fails (List.replicate spaces ' ' ++ body) (.oddIndent spaces)
  | noMarker {depth : Nat} {body : List Char} (hbody : body.head? ≠ some ' ')
      (hmarker : ¬ lineMarker.toList <:+: body) :
      Fails (List.replicate (2 * depth) ' ' ++ body) .noMarker
  | notInteger {depth : Nat} {front number : List Char}
      (hbody : (front ++ lineMarker.toList ++ number).head? ≠ some ' ')
      (hlast : ¬ lineMarker.toList <:+: number) (hnumber : Text.integer? number = none) :
      Fails (List.replicate (2 * depth) ' ' ++ (front ++ lineMarker.toList ++ number))
        (.notInteger (String.ofList number))
  | notTwoWords {depth : Nat} {front number : List Char} {lineNumber : Int}
      (hbody : (front ++ lineMarker.toList ++ number).head? ≠ some ' ')
      (hnumber : Text.integer? number = some lineNumber)
      (hwords : ∀ signature className, IsToken signature → IsToken className →
        front ≠ signature ++ ' ' :: className) :
      Fails (List.replicate (2 * depth) ' ' ++ (front ++ lineMarker.toList ++ number)) .notTwoWords

/-- Among the lines after the header, the first one that is neither empty nor written as the grammar
says, and the check it fails. -/
structure FirstBad (hidden : List String) (before : List (List Char)) (s : List Char) (f : Fault) :
    Prop where
  good_before : ∀ t ∈ before, t = [] ∨ ∃ l, Spells hidden t l
  ne_nil : s ≠ []
  not_spells : ∀ l, ¬ Spells hidden s l
  fails : Fails s f

/-- The error of a text that is cut into lines. -/
inductive Blames (hidden : List String) : List (List Char) → Error → Prop
  | noLine : Blames hidden [] ⟨1, "", Fault.header.reason⟩
  | header {s : List Char} {ss : List (List Char)} (hs : s ≠ header.toList) :
      Blames hidden (s :: ss) ⟨1, String.ofList s, Fault.header.reason⟩
  | line {before after : List (List Char)} {s : List Char} {f : Fault}
      (hbad : FirstBad hidden before s f) :
      Blames hidden (Trace.header.toList :: (before ++ s :: after))
        ⟨before.length + 2, String.ofList s, f.reason⟩

theorem exists_margin (s : List Char) :
    ∃ spaces body, s = List.replicate spaces ' ' ++ body ∧ body.head? ≠ some ' ' := by
  induction s with
  | nil => exact ⟨0, [], rfl, by simp⟩
  | cons c s ih =>
    by_cases hc : c = ' '
    · obtain ⟨spaces, body, rfl, hbody⟩ := ih
      exact ⟨spaces + 1, body, by rw [hc, List.replicate_succ, List.cons_append], hbody⟩
    · exact ⟨0, c :: s, rfl, by simpa using hc⟩

theorem readLine_margin (hidden : List String) (spaces : Nat) {body : List Char}
    (hbody : body.head? ≠ some ' ') :
    readLine hidden (List.replicate spaces ' ' ++ body) =
      if spaces % 2 = 0 then readBody hidden (spaces / 2) body else .error (.oddIndent spaces) := by
  have hmargin : body.takeWhile (· = ' ') = [] := by
    cases body with
    | nil => rfl
    | cons c body => exact List.takeWhile_cons_of_neg (by simpa using hbody)
  have hspaces : (List.replicate spaces ' ' ++ body).takeWhile (· = ' ') =
      List.replicate spaces ' ' := by
    rw [List.takeWhile_append_of_pos (by simp), hmargin, List.append_nil]
  rw [readLine, hspaces]
  simp

theorem readLine_even_margin (hidden : List String) (depth : Nat) {body : List Char}
    (hbody : body.head? ≠ some ' ') :
    readLine hidden (List.replicate (2 * depth) ' ' ++ body) = readBody hidden depth body := by
  rw [readLine_margin hidden (2 * depth) hbody]
  simp

theorem splitLast?_lineMarker {s a b : List Char} :
    Text.splitLast? lineMarker.toList s = some (a, b) ↔
      s = a ++ lineMarker.toList ++ b ∧ ¬ lineMarker.toList <:+: b := by
  have hmarker : lineMarker.toList = ' ' :: "linenumber=".toList := rfl
  rw [hmarker]
  exact Text.splitLast?_eq_some_iff (by decide)

theorem splitLast?_append_lineMarker {front number : List Char}
    (h : ¬ lineMarker.toList <:+: number) :
    Text.splitLast? lineMarker.toList (front ++ lineMarker.toList ++ number) =
      some (front, number) :=
  splitLast?_lineMarker.mpr ⟨rfl, h⟩

theorem not_infix_of_integer? {number : List Char} {n : Int}
    (h : Text.integer? number = some n) : ¬ lineMarker.toList <:+: number := by
  intro hin
  have hmem : '=' ∈ number := hin.subset (by decide)
  exact absurd (Text.mem_of_integer? h hmem) (by decide)

theorem IsToken.head?_append {s : List Char} (h : IsToken s) (t : List Char) :
    (s ++ t).head? ≠ some ' ' := by
  obtain ⟨c, r, rfl⟩ := List.exists_cons_of_ne_nil h.1
  have hc : c ≠ ' ' := fun heq => h.2 (heq ▸ List.mem_cons_self)
  simpa using hc

section

variable {hidden : List String} {s : List Char} {l : Line} {f : Fault}

theorem Spells.readLine_eq (h : Spells hidden s l) : readLine hidden s = .ok l := by
  cases h with
  | @line depth signature className number n isSink hsignature hclassName hnumber hsink =>
    have hbody : (signature ++ ' ' :: className ++ lineMarker.toList ++ number).head? ≠ some ' ' := by
      simpa using hsignature.head?_append (' ' :: (className ++ (lineMarker.toList ++ number)))
    have hwords : words? (signature ++ ' ' :: className) = some (signature, className) :=
      words?_eq_some_iff.mpr ⟨rfl, hsignature, hclassName⟩
    have hmark : showsHidden hidden (String.ofList className) = isSink := by
      rw [Bool.eq_iff_iff, hsink, showsHidden_eq_true_iff]
    simp only [readLine_even_margin hidden depth hbody, readBody,
      splitLast?_append_lineMarker (not_infix_of_integer? hnumber), hnumber, hwords, hmark]

theorem Fails.readLine_eq (h : Fails s f) : readLine hidden s = .error f := by
  cases h with
  | @oddIndent spaces body hbody hodd =>
    rw [readLine_margin hidden spaces hbody, if_neg (by omega)]
  | @noMarker depth body hbody hmarker =>
    have hnone : Text.splitLast? lineMarker.toList body = none :=
      (Text.splitLast?_eq_none_iff (by decide)).mpr hmarker
    simp only [readLine_even_margin hidden depth hbody, readBody, hnone]
  | @notInteger depth front number hbody hlast hnumber =>
    simp only [readLine_even_margin hidden depth hbody, readBody,
      splitLast?_append_lineMarker hlast, hnumber]
  | @notTwoWords depth front number n hbody hnumber hwords =>
    have hnone : words? front = none := by
      apply Option.eq_none_iff_forall_ne_some.mpr
      rintro ⟨signature, className⟩ heq
      obtain ⟨hfront, hsignature, hclassName⟩ := words?_eq_some_iff.mp heq
      exact hwords signature className hsignature hclassName hfront
    simp only [readLine_even_margin hidden depth hbody, readBody,
      splitLast?_append_lineMarker (not_infix_of_integer? hnumber), hnumber, hnone]

/-- Every line has a written form or fails a check. -/
theorem spells_or_fails (hidden : List String) (s : List Char) :
    (∃ l, Spells hidden s l) ∨ ∃ f, Fails s f := by
  obtain ⟨spaces, body, rfl, hbody⟩ := exists_margin s
  rcases Nat.mod_two_eq_zero_or_one spaces with heven | hodd
  · obtain ⟨depth, rfl⟩ : ∃ depth, spaces = 2 * depth := ⟨spaces / 2, by omega⟩
    cases hcut : Text.splitLast? lineMarker.toList body with
    | none =>
      have hmarker := (Text.splitLast?_eq_none_iff (by decide)).mp hcut
      exact .inr ⟨_, .noMarker hbody hmarker⟩
    | some cut =>
      obtain ⟨front, number⟩ := cut
      obtain ⟨rfl, hlast⟩ := splitLast?_lineMarker.mp hcut
      cases hnumber : Text.integer? number with
      | none => exact .inr ⟨_, .notInteger hbody hlast hnumber⟩
      | some n =>
        cases hwords : words? front with
        | none =>
          refine .inr ⟨_, .notTwoWords hbody hnumber ?_⟩
          intro signature className hsignature hclassName hfront
          cases hwords.symm.trans (words?_eq_some_iff.mpr ⟨hfront, hsignature, hclassName⟩)
        | some words =>
          obtain ⟨rfl, hsignature, hclassName⟩ := words?_eq_some_iff.mp hwords
          exact .inl ⟨_, .line hsignature hclassName hnumber decide_eq_true_iff⟩
  · exact .inr ⟨_, .oddIndent hbody hodd⟩

theorem readLine_eq_ok_iff : readLine hidden s = .ok l ↔ Spells hidden s l := by
  constructor
  · intro h
    rcases spells_or_fails hidden s with ⟨m, hm⟩ | ⟨f, hf⟩
    · obtain rfl := Except.ok.inj (hm.readLine_eq.symm.trans h)
      exact hm
    · cases hf.readLine_eq.symm.trans h
  · exact Spells.readLine_eq

theorem readLine_eq_error_iff : readLine hidden s = .error f ↔ Fails s f := by
  constructor
  · intro h
    rcases spells_or_fails hidden s with ⟨m, hm⟩ | ⟨g, hg⟩
    · cases hm.readLine_eq.symm.trans h
    · have hread : readLine hidden s = .error g := hg.readLine_eq
      obtain rfl := Except.error.inj (hread.symm.trans h)
      exact hg
  · exact Fails.readLine_eq

/-- The lines after the header are read as the grammar says, the empty ones apart. -/
theorem readLines_eq_ok_iff {lineNo : Nat} {ss : List (List Char)} {ls : List Line} :
    readLines hidden lineNo ss = .ok ls ↔
      List.Forall₂ (Spells hidden) (ss.filter (· ≠ [])) ls := by
  induction ss generalizing lineNo ls with
  | nil => simp [readLines, eq_comm]
  | cons s ss ih =>
    by_cases hs : s = []
    · simp only [readLines, hs, if_true, ih]
      simp
    · have hfilter : (s :: ss).filter (· ≠ []) = s :: ss.filter (· ≠ []) :=
        List.filter_cons_of_pos (decide_eq_true hs)
      rw [hfilter, List.forall₂_cons_left_iff, readLines, if_neg hs]
      cases hline : readLine hidden s with
      | error f =>
        have hno (l : Line) : ¬ Spells hidden s l := by
          intro h
          cases h.readLine_eq.symm.trans hline
        simp [hno]
      | ok l =>
        have hl (m : Line) : Spells hidden s m ↔ l = m := by
          rw [← readLine_eq_ok_iff, hline, Except.ok.injEq]
        have hrest (ms : List Line) :
            List.Forall₂ (Spells hidden) (ss.filter (· ≠ [])) ms ↔
              readLines hidden (lineNo + 1) ss = .ok ms := ih.symm
        simp only [hl, hrest]
        cases readLines hidden (lineNo + 1) ss <;> simp [Except.map, eq_comm]

theorem FirstBad.cons {before : List (List Char)} (h : FirstBad hidden before s f)
    {t : List Char} (ht : t = [] ∨ ∃ l, Spells hidden t l) : FirstBad hidden (t :: before) s f :=
  { h with good_before := List.forall_mem_cons.mpr ⟨ht, h.good_before⟩ }

theorem Fails.firstBad (h : Fails s f) (hs : s ≠ []) : FirstBad hidden [] s f where
  good_before := by simp
  ne_nil := hs
  not_spells l hl := by cases hl.readLine_eq.symm.trans h.readLine_eq
  fails := h

theorem readLines_of_firstBad {before : List (List Char)} (h : FirstBad hidden before s f)
    (lineNo : Nat) (after : List (List Char)) :
    readLines hidden lineNo (before ++ s :: after) =
      .error (f.at (lineNo + before.length) s) := by
  induction before generalizing lineNo with
  | nil => simp [readLines, h.ne_nil, h.fails.readLine_eq]
  | cons t before ih =>
    obtain ⟨ht, hbefore⟩ := List.forall_mem_cons.mp h.good_before
    have hrest := ih { h with good_before := hbefore } (lineNo + 1)
    have hlength : lineNo + 1 + before.length = lineNo + (t :: before).length := by
      rw [List.length_cons]
      omega
    rw [hlength] at hrest
    by_cases hne : t = []
    · simp only [List.cons_append, readLines, hne, if_true, hrest]
    · obtain ⟨l, hl⟩ := ht.resolve_left hne
      simp only [List.cons_append, readLines, hne, if_false, hl.readLine_eq, hrest]
      rfl

theorem exists_firstBad_of_readLines {lineNo : Nat} {ss : List (List Char)} {e : Error}
    (h : readLines hidden lineNo ss = .error e) :
    ∃ before s after f, ss = before ++ s :: after ∧ FirstBad hidden before s f := by
  fun_induction readLines hidden lineNo ss generalizing e with
  | case1 lineNo => cases h
  | case2 lineNo ss ih =>
    obtain ⟨before, s, after, f, rfl, hbad⟩ := ih h
    exact ⟨[] :: before, s, after, f, rfl, hbad.cons (.inl rfl)⟩
  | case3 lineNo s ss hs f hf =>
    exact ⟨[], s, ss, f, rfl, (readLine_eq_error_iff.mp hf).firstBad hs⟩
  | case4 lineNo s ss hs l hl ih =>
    cases hrest : readLines hidden (lineNo + 1) ss with
    | ok ls => cases (congrArg _ hrest).symm.trans h
    | error d =>
      obtain ⟨before, t, after, f, rfl, hbad⟩ := ih hrest
      exact ⟨s :: before, t, after, f, rfl, hbad.cons (.inr ⟨l, readLine_eq_ok_iff.mp hl⟩)⟩

/-- The error of lines is that of the first bad one. -/
theorem readLines_eq_error_iff {lineNo : Nat} {ss : List (List Char)} {e : Error} :
    readLines hidden lineNo ss = .error e ↔
      ∃ before s after f, ss = before ++ s :: after ∧ FirstBad hidden before s f ∧
        e = f.at (lineNo + before.length) s := by
  constructor
  · intro h
    obtain ⟨before, s, after, f, rfl, hbad⟩ := exists_firstBad_of_readLines h
    rw [readLines_of_firstBad hbad] at h
    exact ⟨before, s, after, f, rfl, hbad, (Except.error.inj h).symm⟩
  · rintro ⟨before, s, after, f, rfl, hbad, rfl⟩
    exact readLines_of_firstBad hbad lineNo after

end

theorem read_of_header {text : String} {ss : List (List Char)}
    (h : Text.lines text.toList = header.toList :: ss) (hidden : List String) :
    read text hidden = readLines hidden 2 ss := by
  simp only [read, h, if_true]

theorem read_eq_ok_iff {text : String} {hidden : List String} {ls : List Line} :
    read text hidden = .ok ls ↔
      ∃ ss, Text.lines text.toList = header.toList :: ss ∧
        List.Forall₂ (Spells hidden) (ss.filter (· ≠ [])) ls := by
  constructor
  · intro h
    unfold read at h
    split at h
    · cases h
    · next s ss hlines =>
      by_cases hs : s = header.toList
      · rw [if_pos hs] at h
        exact ⟨ss, hs ▸ hlines, readLines_eq_ok_iff.mp h⟩
      · rw [if_neg hs] at h
        cases h
  · rintro ⟨ss, hlines, hforms⟩
    rw [read_of_header hlines]
    exact readLines_eq_ok_iff.mpr hforms

theorem blames_of_read_eq_error {text : String} {hidden : List String} {e : Error}
    (h : read text hidden = .error e) : Blames hidden (Text.lines text.toList) e := by
  unfold read at h
  split at h
  · next hlines =>
    obtain rfl := Except.error.inj h
    rw [hlines]
    exact .noLine
  · next s ss hlines =>
    rw [hlines]
    by_cases hs : s = header.toList
    · rw [if_pos hs] at h
      obtain ⟨before, t, after, f, rfl, hbad, rfl⟩ := readLines_eq_error_iff.mp h
      rw [hs, Nat.add_comm]
      exact .line hbad
    · rw [if_neg hs] at h
      obtain rfl := Except.error.inj h
      exact .header hs

theorem Blames.read_eq {text : String} {hidden : List String} {e : Error}
    (h : Blames hidden (Text.lines text.toList) e) : read text hidden = .error e := by
  generalize hlines : Text.lines text.toList = ss at h
  cases h with
  | noLine => simp only [read, hlines]; rfl
  | header hs => simp only [read, hlines, if_neg hs]; rfl
  | @line before after s f hbad =>
    rw [read_of_header hlines, readLines_of_firstBad hbad, Nat.add_comm]
    rfl

/-- A reader accepts exactly the texts of the grammar, and gives one line for each line that is not
empty. Of any other text it blames the first bad line for the first check that this line fails; it
makes no line and no error that breaks a rule. -/
theorem read_follows_grammar (text : String) (hidden : List String) :
    let ss := Text.lines text.toList
    checkedRead text hidden = .ok (read text hidden) ∧
      (∀ ls, read text hidden = .ok ls ↔
        ∃ rest, ss = header.toList :: rest ∧
          List.Forall₂ (Spells hidden) (rest.filter (· ≠ [])) ls) ∧
      ∀ e, read text hidden = .error e ↔ Blames hidden ss e := by
  intro ss
  exact ⟨checkedRead_eq text hidden, fun _ => read_eq_ok_iff,
    fun _ => ⟨blames_of_read_eq_error, Blames.read_eq⟩⟩

/-- An empty line counts, and of several faults of a line the first one is blamed. -/
example : read "Call tree\n\n   main() linenumber=x\n" [] =
    .error ⟨3, "   main() linenumber=x", "odd indentation of 3 spaces"⟩ := by
  decide +kernel

end CallTrace.Trace
