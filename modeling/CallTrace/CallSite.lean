import CallTrace.Call
import CallTrace.ConfigError
import CallTrace.Text.Print
import CallTrace.Text.Split

/-!
# Call sites

A call site is what the calls of one polymorphic place share: the class of the caller, the name
of the method called and the line. Its written form is `callerClass:methodName:line`, read from
the right, so a colon in the class is no hindrance.
-/

namespace CallTrace

structure CallSite where
  callerClass : String
  methodName : String
  line : Int := unknownLine
deriving DecidableEq

inductive SiteFault
  | wrongShape (text : String)
  | wrongLine (text line : String)
deriving DecidableEq

def SiteFault.reason : SiteFault → String
  | .wrongShape text => "key " ++ Text.quote text ++ " is not callerClass:methodName:line"
  | .wrongLine text line => "key " ++ Text.quote text ++ " has non-integer line " ++ Text.quote line

/-- A written site is blamed on the configuration field that holds it. -/
def SiteFault.toConfigError (f : SiteFault) : ConfigError := ⟨"edge_class_map", f.reason⟩

namespace CallSite

def ofCall (c : Call) : CallSite := ⟨c.caller.owner, c.callee.name, c.lineNumber⟩

def check (s : CallSite) : Checked CallSite := do
  let _ ← require (s.callerClass ≠ "") (.isEmpty .callerClass)
  let _ ← require (s.methodName ≠ "") (.isEmpty .methodName)
  return s

def text (s : CallSite) : String :=
  s.callerClass ++ ":" ++ s.methodName ++ ":" ++ toString s.line

/-- Makes the written form of a site. -/
def print (s : CallSite) : Except Text.Unprintable String := do
  let line ← Text.printInteger s.line
  return s.callerClass ++ ":" ++ s.methodName ++ ":" ++ line

theorem print_eq_ok_iff {s : CallSite} {t : String} :
    s.print = .ok t ↔ Text.Readable s.line ∧ t = s.text := by
  simp only [print, text, bind_eq_ok_iff, Text.printInteger_eq_ok_iff, pure, Except.pure,
    Except.ok.injEq]
  constructor
  · rintro ⟨_, ⟨hreadable, rfl⟩, rfl⟩
    exact ⟨hreadable, rfl⟩
  · rintro ⟨hreadable, rfl⟩
    exact ⟨_, ⟨hreadable, rfl⟩, rfl⟩

theorem print_of_not_readable {s : CallSite} (h : ¬ Text.Readable s.line) :
    s.print = .error .tooManyDigits := by
  rw [print, Text.printInteger_of_not_readable h]
  rfl

/-- The three parts of a written site. -/
def parts? (s : List Char) : Option (List Char × List Char × List Char) := do
  let (front, line) ← Text.splitLast? [':'] s
  let (callerClass, methodName) ← Text.splitLast? [':'] front
  if callerClass = [] ∨ methodName = [] then none else some (callerClass, methodName, line)

def parse (text : String) : Except SiteFault CallSite :=
  match parts? text.toList with
  | none => .error (.wrongShape text)
  | some (callerClass, methodName, line) =>
    match Text.integer? line with
    | none => .error (.wrongLine text (String.ofList line))
    | some n => .ok ⟨String.ofList callerClass, String.ofList methodName, n⟩

theorem check_eq_ok_iff {s : CallSite} :
    s.check = .ok s ↔ s.callerClass ≠ "" ∧ s.methodName ≠ "" := by
  simp [check, require_bind_eq_ok_iff, pure, Except.pure]

theorem check_of {s : CallSite} (hc : s.callerClass ≠ "") (hm : s.methodName ≠ "") :
    s.check = .ok s :=
  check_eq_ok_iff.mpr ⟨hc, hm⟩

theorem check_ofCall (c : Call) : (ofCall c).check = .ok (ofCall c) :=
  check_of c.caller.owner_ne c.callee.name_ne

end CallSite

end CallTrace
