import CallTrace.Policy.Checks
import Mathlib.Data.List.Infix

/-!
# Written call sites

A written site is cut at its last two colons, so the class of the caller may hold colons and the
name of the method may not. The line may be written in any way that readers take for its number. A
reader accepts exactly such texts, and a site comes back from its text exactly if its name can.
-/

namespace CallTrace

theorem Text.splitLast?_singleton_eq_some_iff {c : Char} {s a b : List Char} :
    splitLast? [c] s = some (a, b) ↔ s = a ++ c :: b ∧ c ∉ b := by
  rw [splitLast?_eq_some_iff List.not_mem_nil, List.singleton_infix_iff, List.append_assoc,
    List.singleton_append]

namespace CallSite

/-- The text is the three parts with colons between them, and only the first may hold a colon. -/
structure Cut (text callerClass methodName line : String) : Prop where
  text_eq : text = callerClass ++ ":" ++ methodName ++ ":" ++ line
  callerClass_ne : callerClass ≠ ""
  methodName_ne : methodName ≠ ""
  not_mem_methodName : ':' ∉ methodName.toList
  not_mem_line : ':' ∉ line.toList

/-- The text is a written form of the site. -/
def Spells (text : String) (s : CallSite) : Prop :=
  ∃ line, Cut text s.callerClass s.methodName line ∧ Text.integer? line.toList = some s.line

/-- The first check that a text fails: for the three parts, then for the number of the line. -/
inductive Fails (text : String) : SiteFault → Prop
  | wrongShape (hshape : ∀ callerClass methodName line, ¬ Cut text callerClass methodName line) :
      Fails text (.wrongShape text)
  | wrongLine {callerClass methodName line : String} (hcut : Cut text callerClass methodName line)
      (hline : Text.integer? line.toList = none) : Fails text (.wrongLine text line)

theorem parts?_eq_some_iff {text callerClass methodName line : String} :
    parts? text.toList = some (callerClass.toList, methodName.toList, line.toList) ↔
      Cut text callerClass methodName line := by
  have hcolon : ":".toList = [':'] := rfl
  constructor
  · intro h
    simp only [parts?, Option.bind_eq_bind, Option.bind_eq_some_iff, Prod.exists,
      Option.ite_none_left_eq_some, not_or, Option.some.injEq, Prod.mk.injEq] at h
    obtain ⟨front, _, hback, _, _, hfront, ⟨hcaller, hmethod⟩, rfl, rfl, rfl⟩ := h
    obtain ⟨htext, hline⟩ := Text.splitLast?_singleton_eq_some_iff.mp hback
    obtain ⟨rfl, hname⟩ := Text.splitLast?_singleton_eq_some_iff.mp hfront
    exact {
      text_eq := by
        apply String.toList_injective
        simp [htext, hcolon]
      callerClass_ne := by simpa using hcaller
      methodName_ne := by simpa using hmethod
      not_mem_methodName := hname
      not_mem_line := hline }
  · rintro ⟨rfl, hcaller, hmethod, hname, hline⟩
    have hback : Text.splitLast? [':']
        (callerClass.toList ++ ':' :: methodName.toList ++ ':' :: line.toList) =
          some (callerClass.toList ++ ':' :: methodName.toList, line.toList) :=
      Text.splitLast?_singleton_eq_some_iff.mpr ⟨rfl, hline⟩
    have hfront : Text.splitLast? [':'] (callerClass.toList ++ ':' :: methodName.toList) =
        some (callerClass.toList, methodName.toList) :=
      Text.splitLast?_singleton_eq_some_iff.mpr ⟨rfl, hname⟩
    simp only [List.append_assoc, List.cons_append] at hback
    simp [parts?, hcolon, hback, hfront, hcaller, hmethod]

theorem parse_eq_of_not_cut {text : String}
    (h : ∀ callerClass methodName line, ¬ Cut text callerClass methodName line) :
    parse text = .error (.wrongShape text) := by
  cases hparts : parts? text.toList with
  | none => simp only [parse, hparts]
  | some parts =>
    obtain ⟨callerClass, methodName, line⟩ := parts
    refine absurd (parts?_eq_some_iff.mp ?_)
      (h (String.ofList callerClass) (String.ofList methodName) (String.ofList line))
    simp only [String.toList_ofList, hparts]

theorem Spells.parse_eq {text : String} {s : CallSite} (h : Spells text s) :
    parse text = .ok s := by
  obtain ⟨line, hcut, hline⟩ := h
  simp only [parse, parts?_eq_some_iff.mpr hcut, hline, String.ofList_toList]

theorem Fails.parse_eq {text : String} {f : SiteFault} (h : Fails text f) :
    parse text = .error f := by
  cases h with
  | wrongShape hshape => exact parse_eq_of_not_cut hshape
  | wrongLine hcut hline =>
    simp only [parse, parts?_eq_some_iff.mpr hcut, hline, String.ofList_toList]

theorem spells_or_fails (text : String) : (∃ s, Spells text s) ∨ ∃ f, Fails text f := by
  by_cases hcut : ∃ callerClass methodName line, Cut text callerClass methodName line
  · obtain ⟨callerClass, methodName, line, hcut⟩ := hcut
    cases hline : Text.integer? line.toList with
    | none => exact .inr ⟨_, .wrongLine hcut hline⟩
    | some n => exact .inl ⟨⟨callerClass, methodName, n⟩, line, hcut, hline⟩
  · exact .inr ⟨_, .wrongShape fun callerClass methodName line h => hcut ⟨_, _, _, h⟩⟩

/-- No number is written with a colon. -/
theorem not_mem_toString (n : Int) : ':' ∉ (toString n).toList := by
  intro h
  rcases Text.mem_toString h with heq | hdigit
  · exact absurd heq (by decide)
  · exact absurd hdigit (by decide)

theorem spells_text_iff {s : CallSite} (hcaller : s.callerClass ≠ "") (hmethod : s.methodName ≠ "") :
    Spells s.text s ↔ ':' ∉ s.methodName.toList ∧ Text.Readable s.line := by
  constructor
  · rintro ⟨line, hcut, hline⟩
    exact ⟨hcut.not_mem_methodName, Text.readable_of_integer? hline⟩
  · rintro ⟨hname, hline⟩
    exact ⟨toString s.line, ⟨rfl, hcaller, hmethod, hname, not_mem_toString s.line⟩,
      (Text.integer?_toString s.line).trans (if_pos hline)⟩

/-- The digits of a number that has too many of them are not read as a number. -/
theorem fails_text_of_not_readable {s : CallSite} (hcaller : s.callerClass ≠ "")
    (hmethod : s.methodName ≠ "") (hname : ':' ∉ s.methodName.toList)
    (hline : ¬ Text.Readable s.line) : Fails s.text (.wrongLine s.text (toString s.line)) :=
  .wrongLine ⟨rfl, hcaller, hmethod, hname, not_mem_toString s.line⟩
    ((Text.integer?_toString s.line).trans (if_neg hline))

theorem Spells.readable {text : String} {s : CallSite} (h : Spells text s) :
    Text.Readable s.line := by
  obtain ⟨_, -, hline⟩ := h
  exact Text.readable_of_integer? hline

/-- What was read can be written and read again. -/
theorem Spells.text {text : String} {s : CallSite} (h : Spells text s) : Spells s.text s := by
  have hreadable := h.readable
  obtain ⟨_, hcut, -⟩ := h
  exact (spells_text_iff hcut.callerClass_ne hcut.methodName_ne).mpr
    ⟨hcut.not_mem_methodName, hreadable⟩

theorem checkedParse_eq_ok_iff {text : String} {s : CallSite} :
    checkedParse text = .ok (.ok s) ↔ Spells text s := by
  refine ⟨fun h => ?_, fun h => checkedParse_of_ok h.parse_eq⟩
  rcases spells_or_fails text with ⟨t, ht⟩ | ⟨f, hf⟩
  · cases (checkedParse_of_ok ht.parse_eq).symm.trans h
    exact ht
  · cases (checkedParse_of_error hf.parse_eq).symm.trans h

/-- A text is read exactly if it spells a site, and as this site. Any other text is refused for the
first check that it fails, in the name of the field that holds the sites; no rule is broken on the
way. A site that breaks no rule can be written if its number does not have too many digits, and it
comes back from its own text exactly if there is no colon in its name. With too many digits it can
neither be written nor come back. What was read can always be written and comes back. -/
theorem sites_read_exactly :
    (∀ text s, checkedParse text = .ok (.ok s) ↔ Spells text s) ∧
      (∀ text, (¬ ∃ s, Spells text s) → ∃ f, Fails text f ∧
        checkedParse text = .ok (.error ⟨"edge_class_map", f.reason⟩)) ∧
      (∀ s : CallSite, s.check = .ok s → Text.Readable s.line →
        ∃ text, s.print = .ok text ∧
          (checkedParse text = .ok (.ok s) ↔ ':' ∉ s.methodName.toList)) ∧
      (∀ s : CallSite, ¬ Text.Readable s.line →
        s.print = .error .tooManyDigits ∧ ∀ text, checkedParse text ≠ .ok (.ok s)) ∧
      ∀ text s, checkedParse text = .ok (.ok s) →
        ∃ t, s.print = .ok t ∧ checkedParse t = .ok (.ok s) := by
  refine ⟨fun text s => checkedParse_eq_ok_iff, ?_, ?_, ?_, ?_⟩
  · intro text hnone
    obtain ⟨f, hf⟩ := (spells_or_fails text).resolve_left hnone
    exact ⟨f, hf, checkedParse_of_error hf.parse_eq⟩
  · intro s hs hline
    obtain ⟨hcaller, hmethod⟩ := check_eq_ok_iff.mp hs
    refine ⟨s.text, print_eq_ok_iff.mpr ⟨hline, rfl⟩, ?_⟩
    rw [checkedParse_eq_ok_iff, spells_text_iff hcaller hmethod, and_iff_left hline]
  · intro s hline
    refine ⟨print_of_not_readable hline, ?_⟩
    intro text h
    exact hline (checkedParse_eq_ok_iff.mp h).readable
  · intro text s h
    have hspells := checkedParse_eq_ok_iff.mp h
    exact ⟨s.text, print_eq_ok_iff.mpr ⟨hspells.readable, rfl⟩,
      checkedParse_eq_ok_iff.mpr hspells.text⟩

/-- The class may hold colons and the number may be written with a sign, zeros and blanks. -/
theorem lengthy_site_comes_back :
    let lengthy := "lib:App:run: +0_7 "
    let site : CallSite := ⟨"lib:App", "run", 7⟩
    let nameless := "App::7"
    let broken : CallSite := ⟨"App", "a:b", 7⟩
    Spells lengthy site ∧ checkedParse lengthy = .ok (.ok site) ∧
      (∃ t, site.print = .ok t ∧ checkedParse t = .ok (.ok site)) ∧
      site.print = .ok "lib:App:run:7" ∧
      (¬ ∃ s, Spells nameless s) ∧ (∃ f, Fails nameless f ∧
        checkedParse nameless = .ok (.error ⟨"edge_class_map", f.reason⟩)) ∧
      broken.check = .ok broken ∧ Text.Readable broken.line ∧
      ∃ t, broken.print = .ok t ∧ checkedParse t ≠ .ok (.ok broken) := by
  intro lengthy site nameless broken
  obtain ⟨hread, hrefused, hwritten, -, hback⟩ := sites_read_exactly
  have hspells : Spells lengthy site := by
    refine ⟨" +0_7 ", ⟨?_, ?_, ?_, ?_, ?_⟩, ?_⟩ <;> decide
  have hlengthy := (hread lengthy site).mpr hspells
  have hnameless : ¬ ∃ s, Spells nameless s := by
    rintro ⟨s, hs⟩
    have hfault : parse nameless = .error (.wrongShape nameless) := by decide
    cases hfault.symm.trans hs.parse_eq
  have hbroken : broken.check = .ok broken := check_of (by decide) (by decide)
  have hline : Text.Readable broken.line := by decide
  obtain ⟨t, hprint, hcolon⟩ := hwritten broken hbroken hline
  refine ⟨hspells, hlengthy, hback lengthy site hlengthy, by decide, hnameless,
    hrefused nameless hnameless, hbroken, hline, t, hprint, ?_⟩
  intro h
  exact absurd (hcolon.mp h) (by decide)

/-- A site may break no rule and have no colon in its name and still not come back: its number, a
one with 4300 zeros, has too many digits. -/
theorem long_number_does_not_come_back :
    let site : CallSite := ⟨"A", "m", Text.ofDigits (1 :: List.replicate 4300 0)⟩
    let text := "A:m:" ++ toString site.line
    site.check = .ok site ∧ ':' ∉ site.methodName.toList ∧ site.print = .error .tooManyDigits ∧
      checkedParse text =
        .ok (.error ⟨"edge_class_map", (SiteFault.wrongLine text (toString site.line)).reason⟩) ∧
      ¬ ((∃ t, site.print = .ok t ∧ checkedParse t = .ok (.ok site)) ↔
        ':' ∉ site.methodName.toList) := by
  intro site text
  have hcaller : site.callerClass ≠ "" := by decide
  have hmethod : site.methodName ≠ "" := by decide
  have hname : ':' ∉ site.methodName.toList := by decide
  have hdigits : Text.digitLimit ≤ 4300 := by decide
  have hline : ¬ Text.Readable site.line := Text.not_readable_of_le hdigits
  have hprint := print_of_not_readable hline
  refine ⟨check_of hcaller hmethod, hname, hprint, ?_, ?_⟩
  · exact checkedParse_of_error (fails_text_of_not_readable hcaller hmethod hname hline).parse_eq
  · intro h
    obtain ⟨t, ht, -⟩ := h.mpr hname
    cases hprint.symm.trans ht

end CallSite

end CallTrace
