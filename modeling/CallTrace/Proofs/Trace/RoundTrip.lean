import CallTrace.Proofs.Trace.Grammar

/-!
# Traces read back

A reader gives a line back as it was written if its signature and its class name are one word each,
its number is not too long and its mark agrees with the hidden classes. Then a whole trace of such
lines reads back to these lines.
-/

namespace CallTrace

namespace Text

/-- A part of one line. -/
def Unbroken (s : String) : Prop := ∀ c ∈ s.toList, isBreak c = false

-- an instance for all characters would go through every code point
instance (s : String) : Decidable (Unbroken s) := List.decidableBAll _ _

/-- A part of one line without spaces. -/
def IsWord (s : String) : Prop := ∀ c ∈ s.toList, c ≠ ' ' ∧ isBreak c = false

instance (s : String) : Decidable (IsWord s) := List.decidableBAll _ _

theorem IsWord.not_mem_space {s : String} (h : IsWord s) : ' ' ∉ s.toList :=
  fun hc => (h ' ' hc).1 rfl

theorem not_isBreak_of_mem_toString {n : Int} {c : Char} (hc : c ∈ (toString n).toList) :
    isBreak c = false := by
  rcases mem_toString hc with rfl | hdigit
  · decide
  · exact not_within_of_isDigit hdigit (by decide)

end Text

namespace Trace

/-- What a reader that knows the hidden classes needs to give the line back. -/
structure Line.Legible (hidden : List String) (l : Line) : Prop where
  signature_ne : l.signature ≠ ""
  className_ne : l.className ≠ ""
  signature_word : Text.IsWord l.signature
  className_word : Text.IsWord l.className
  readable : Text.Readable l.lineNumber
  isSink_eq : l.isSink = showsHidden hidden l.className

/-- What follows the margin of a line. -/
def Line.body (l : Line) : List Char :=
  l.signature.toList ++ ' ' :: l.className.toList ++ lineMarker.toList ++
    (toString l.lineNumber).toList

theorem Line.toList_margin (d : Nat) : (margin d).toList = List.replicate (2 * d) ' ' := by
  rw [margin, String.toList_ofList]
  induction d with
  | zero => rfl
  | succ d ih =>
    rw [List.replicate_succ, List.flatten_cons, ih]
    rfl

theorem Line.toList_text (l : Line) : l.text.toList = List.replicate (2 * l.depth) ' ' ++ l.body := by
  simp [text, body, toList_margin, String.toList_append]

namespace Line.Legible

variable {hidden : List String} {l : Line}

theorem spells (h : l.Legible hidden) : Spells hidden l.text.toList l := by
  have hsignature : IsToken l.signature.toList :=
    ⟨by simpa using h.signature_ne, h.signature_word.not_mem_space⟩
  have hclassName : IsToken l.className.toList :=
    ⟨by simpa using h.className_ne, h.className_word.not_mem_space⟩
  have hsink : l.isSink = true ↔
      ∃ c ∈ Trace.candidates (String.ofList l.className.toList), CoveredBy hidden c := by
    rw [String.ofList_toList, h.isSink_eq, showsHidden_eq_true_iff]
  have hnumber := (Text.integer?_toString l.lineNumber).trans (if_pos h.readable)
  have hspells : Spells hidden (List.replicate (2 * l.depth) ' ' ++ l.body) _ :=
    .line hsignature hclassName hnumber hsink
  rw [toList_text]
  simpa using hspells

theorem unbroken_text (h : l.Legible hidden) : Text.Unbroken l.text := by
  have hspace : Text.isBreak ' ' = false := by decide
  have hmarker : Text.Unbroken lineMarker := by decide
  intro c hc
  rw [toList_text, body] at hc
  simp only [List.mem_append, List.mem_cons, List.mem_replicate] at hc
  rcases hc with ⟨-, rfl⟩ | ((hc | rfl | hc) | hc) | hc
  · exact hspace
  · exact (h.signature_word c hc).2
  · exact hspace
  · exact (h.className_word c hc).2
  · exact hmarker c hc
  · exact Text.not_isBreak_of_mem_toString hc

end Line.Legible

theorem text_ne_nil (l : Line) : l.text.toList ≠ [] := by
  rw [Line.toList_text, Line.body]
  simp

theorem readLines_map_text {hidden : List String} {ls : List Line}
    (h : ∀ l ∈ ls, l.Legible hidden) (lineNo : Nat) :
    readLines hidden lineNo (ls.map fun l => l.text.toList) = .ok ls := by
  induction ls generalizing lineNo with
  | nil => rfl
  | cons l ls ih =>
    obtain ⟨hl, hls⟩ := List.forall_mem_cons.mp h
    rw [List.map_cons, readLines, if_neg (text_ne_nil l), hl.spells.readLine_eq, ih hls]
    rfl

/-- A trace of legible lines reads back to these lines. -/
theorem read_render {hidden : List String} {ls : List Line} (h : ∀ l ∈ ls, l.Legible hidden) :
    read (render ls) hidden = .ok ls := by
  have hbreaks : ∀ s ∈ header :: ls.map Line.text, Text.Unbroken s := by
    intro s hs
    rcases List.mem_cons.mp hs with rfl | hs
    · decide
    · obtain ⟨l, hl, rfl⟩ := List.mem_map.mp hs
      exact (h l hl).unbroken_text
  have hlines : Text.lines (render ls).toList = header.toList :: ls.map fun l => l.text.toList := by
    rw [render, Text.lines_unlines hbreaks, List.map_cons, List.map_map]
    rfl
  rw [read, hlines]
  exact (if_pos rfl).trans (readLines_map_text h 2)

theorem IsToken.isWord {s : List Char} (h : IsToken s) (hs : ∀ c ∈ s, Text.isBreak c = false) :
    Text.IsWord (String.ofList s) := by
  intro c hc
  rw [String.toList_ofList] at hc
  exact ⟨fun heq => h.2 (heq ▸ hc), hs c hc⟩

theorem Spells.legible {hidden : List String} {s : List Char} {l : Line} (h : Spells hidden s l)
    (hs : ∀ c ∈ s, Text.isBreak c = false) : l.Legible hidden := by
  cases h with
  | @line depth signature className number n isSink hsignature hclassName hnumber hsink =>
    simp only [List.forall_mem_append, List.forall_mem_cons] at hs
    exact {
      signature_ne := by simpa using hsignature.1
      className_ne := by simpa using hclassName.1
      signature_word := hsignature.isWord hs.2.1.1.1
      className_word := hclassName.isWord hs.2.1.1.2.2
      readable := Text.readable_of_integer? hnumber
      isSink_eq := by rw [Bool.eq_iff_iff, hsink, showsHidden_eq_true_iff] }

theorem exists_spells_of_mem {hidden : List String} {ss : List (List Char)} {ls : List Line}
    (h : List.Forall₂ (Spells hidden) ss ls) {l : Line} (hl : l ∈ ls) :
    ∃ s ∈ ss, Spells hidden s l := by
  induction h with
  | nil => cases hl
  | @cons s m ss ls hs _ ih =>
    rcases List.mem_cons.mp hl with rfl | hl
    · exact ⟨s, List.mem_cons_self, hs⟩
    · obtain ⟨t, ht, hspells⟩ := ih hl
      exact ⟨t, List.mem_cons_of_mem s ht, hspells⟩

/-- What a reader gives can be written and read again. -/
theorem legible_of_read {text : String} {hidden : List String} {ls : List Line}
    (h : read text hidden = .ok ls) : ∀ l ∈ ls, l.Legible hidden := by
  obtain ⟨ss, hlines, hforms⟩ := read_eq_ok_iff.mp h
  intro l hl
  obtain ⟨s, hs, hspells⟩ := exists_spells_of_mem hforms hl
  have hmem : s ∈ Text.lines text.toList := by
    rw [hlines]
    exact List.mem_cons_of_mem _ (List.mem_filter.mp hs).1
  exact hspells.legible fun c hc => Text.not_isBreak_of_mem_lines hmem hc

theorem read_render_iff {hidden : List String} {ls : List Line} :
    read (render ls) hidden = .ok ls ↔ ∀ l ∈ ls, l.Legible hidden :=
  ⟨legible_of_read, read_render⟩

/-- Lines that break no rule and whose numbers read back as they are written come back from their
trace exactly if their names are single words and their marks agree with the hidden classes. So what
was read from any text comes back when it is written and read again. -/
theorem lines_come_back_iff {hidden : List String} {ls : List Line}
    (hvalid : ∀ l ∈ ls, l.check = .ok l)
    (hnumbers : ∀ l ∈ ls, Text.integer? (toString l.lineNumber).toList = some l.lineNumber) :
    (read (render ls) hidden = .ok ls ↔
      ∀ l ∈ ls, Text.IsWord l.signature ∧ Text.IsWord l.className ∧
        (l.isSink = true ↔ ∃ c ∈ l.candidates, CoveredBy hidden c)) ∧
      ∀ text ms, read text hidden = .ok ms → read (render ms) hidden = .ok ms := by
  refine ⟨read_render_iff.trans ?_, fun text ms h => read_render (legible_of_read h)⟩
  refine forall₂_congr fun l hl => ?_
  constructor
  · intro h
    refine ⟨h.signature_word, h.className_word, ?_⟩
    rw [h.isSink_eq, showsHidden_eq_true_iff]
    rfl
  · rintro ⟨hsignature, hclassName, hsink⟩
    obtain ⟨hsig, hclass⟩ := Line.check_eq_ok_iff.mp (hvalid l hl)
    exact {
      signature_ne := hsig
      className_ne := hclass
      signature_word := hsignature
      className_word := hclassName
      readable := Text.readable_of_integer? (hnumbers l hl)
      isSink_eq := Bool.eq_iff_iff.mpr (hsink.trans showsHidden_eq_true_iff.symm) }

/-- A name may hold the marker, and a group may have a hidden class in any place, but a name that is
broken by a space does not come back. -/
theorem marked_names_come_back :
    let hidden := ["lib.*"]
    let named : Line := ⟨"linenumber=3(linenumber=)", "app.Main:lib.Log:", 3, -7, true⟩
    let plain : Line := ⟨"main()", "app.Lib", 0, 12, false⟩
    let broken : Line := ⟨"main()", "app Main", 1, 12, false⟩
    (∀ l ∈ [named, plain, broken], l.check = .ok l) ∧
      (∀ l ∈ [named, plain, broken],
        Text.integer? (toString l.lineNumber).toList = some l.lineNumber) ∧
      read (render [named, plain]) hidden = .ok [named, plain] ∧
      read (render [named, broken]) hidden ≠ .ok [named, broken] := by
  intro hidden named plain broken
  have hvalid : ∀ l ∈ [named, plain, broken], l.check = .ok l := by decide +revert
  have hnumbers : ∀ l ∈ [named, plain, broken],
      Text.integer? (toString l.lineNumber).toList = some l.lineNumber := by decide +revert
  have hgood : [named, plain] ⊆ [named, plain, broken] := by simp
  have hbad : [named, broken] ⊆ [named, plain, broken] := by simp
  have hwords : ∀ l ∈ [named, plain], Text.IsWord l.signature ∧ Text.IsWord l.className ∧
      (l.isSink = true ↔ ∃ c ∈ l.candidates, CoveredBy hidden c) := by decide +revert
  have hbroken : ¬ Text.IsWord broken.className := by decide +revert
  refine ⟨hvalid, hnumbers, ?_, ?_⟩
  · have hback := @lines_come_back_iff hidden [named, plain] (fun l hl => hvalid l (hgood hl))
      fun l hl => hnumbers l (hgood hl)
    exact hback.1.mpr hwords
  · intro hread
    have hback := @lines_come_back_iff hidden [named, broken] (fun l hl => hvalid l (hbad hl))
      fun l hl => hnumbers l (hbad hl)
    exact hbroken (hback.1.mp hread broken (by simp)).2.1

end Trace

end CallTrace
