import CallTrace.Walk.Recording
import CallTrace.Walk.Step

/-!
# Checked steps

A checked step checks each call site and each line when it makes it, and prints what it shows and
reports. The sites are those of the calls it picks and of the methods at which it arrives. No check
fails, so a checked step records the events of the step without checks.
-/

namespace CallTrace.Walk

/-- Checks the site of an arrival; the entry of a walk has none. -/
def checkSite (m : Method) (line : Int) : Option String → Recording Unit
  | none => return ()
  | some callerClass => do
    let _ ← Recording.check (siteFrom callerClass m line).check
    return ()

/-- Checks the line of a method, prints it and writes it. -/
def emit (m : Method) (className : String) (depth : Nat) (line : Int) (isSink : Bool) :
    Recording Unit := do
  let l ← Recording.check (Trace.Line.make m.signature className depth line isSink)
  record (.shown l m)

def checkedVisit (w : Walk) (m : Method) (depth : Nat) (line : Int) (callerClass : Option String) :
    Recording Bool :=
  if m.name ∈ w.policy.cutMethods then return false
  else do
    checkSite m line callerClass
    recordAll (w.fallback m line callerClass)
    let name := w.className m line callerClass
    match w.verdict m name with
    | .walked =>
      emit m name depth line false
      return true
    | .sink =>
      emit m name depth line true
      return false
    | .hidden => return false

def checkedFollow (w : Walk) (f : Frame) (c : Call) (s : State) : Recording State :=
  if c.IsSelfCall then return s
  else do
    if ← w.checkedVisit c.callee (f.depth + 1) c.lineNumber (some f.method.owner) then
      let (es, s) := w.enter c.callee (f.depth + 1) s
      recordAll es
      return s
    else return s

def checkedStep (w : Walk) (s : State) : Recording (Option State) :=
  match s.stack with
  | [] => return none
  | ⟨m, _, []⟩ :: fs => return some ⟨fs, w.release m s.expanded⟩
  | ⟨m, d, p :: ps⟩ :: fs => do
    let _ ← Recording.check (CallSite.ofCall p.call).check
    match p with
    | .merge c =>
      record (.logged (Pick.mergeLog c))
      return some ⟨⟨m, d, ps⟩ :: fs, s.expanded⟩
    | .follow c =>
      let t ← w.checkedFollow ⟨m, d, ps⟩ c ⟨⟨m, d, ps⟩ :: fs, s.expanded⟩
      return some t

theorem checkSite_eq (m : Method) (line : Int) {callerClass : Option String}
    (h : ∀ c ∈ callerClass, c ≠ "") : checkSite m line callerClass = return () := by
  cases callerClass with
  | none => rfl
  | some callerClass =>
    have hsite : (siteFrom callerClass m line).check = .ok (siteFrom callerClass m line) :=
      CallSite.check_of (h callerClass rfl) m.name_ne
    rw [checkSite, hsite]
    rfl

theorem emit_eq (m : Method) {className : String} (h : className ≠ "") (depth : Nat) (line : Int)
    (isSink : Bool) :
    emit m className depth line isSink =
      record (.shown (shownLine m className depth line isSink) m) := by
  rw [emit, Trace.Line.make_of m.signature_ne h]
  rfl

theorem checkedVisit_eq (w : Walk) (m : Method) (depth : Nat) (line : Int)
    {callerClass : Option String} (h : ∀ c ∈ callerClass, c ≠ "") :
    w.checkedVisit m depth line callerClass =
      recordThen (w.visit m depth line callerClass).events
        (w.visit m depth line callerClass).opens := by
  have hemit := emit_eq m (w.className_ne m line callerClass) depth line
  by_cases hcut : m.name ∈ w.policy.cutMethods
  · rw [checkedVisit, if_pos hcut, visit, if_pos hcut]
    rfl
  · rw [checkedVisit, if_neg hcut, visit, if_neg hcut, checkSite_eq m line h, pure_bind]
    dsimp only
    cases w.verdict m (w.className m line callerClass) with
    | walked =>
      dsimp only
      rw [hemit, recordThen_append, recordThen_singleton]
    | sink =>
      dsimp only
      rw [hemit, recordThen_append, recordThen_singleton]
    | hidden => rfl

theorem checkedFollow_eq (w : Walk) (f : Frame) (c : Call) (s : State) :
    w.checkedFollow f c s = recordThen (w.follow f c s).1 (w.follow f c s).2 := by
  have howner : ∀ cls ∈ some f.method.owner, cls ≠ "" := by
    rintro cls ⟨⟩
    exact f.method.owner_ne
  by_cases hself : c.IsSelfCall
  · rw [checkedFollow, if_pos hself, follow, if_pos hself]
    rfl
  · rw [checkedFollow, if_neg hself, follow, if_neg hself,
      checkedVisit_eq w c.callee (f.depth + 1) c.lineNumber howner, recordThen_bind]
    dsimp only
    cases hopens : (w.visit c.callee (f.depth + 1) c.lineNumber (some f.method.owner)).opens with
    | true =>
      rw [if_pos rfl, if_pos rfl, recordThen_append]
      rfl
    | false => rfl

theorem checkedStep_eq (w : Walk) (s : State) :
    w.checkedStep s =
      match w.step s with
      | none => return none
      | some (es, t) => recordThen es (some t) := by
  obtain ⟨stack, closed⟩ := s
  rcases stack with _ | ⟨⟨m, d, _ | ⟨p, ps⟩⟩, fs⟩
  · rfl
  · rfl
  · simp only [checkedStep, CallSite.check_ofCall, Recording.check_ok, pure_bind]
    cases p with
    | merge c =>
      simp only [step, recordThen_singleton]
    | follow c =>
      simp only [step, checkedFollow_eq, recordThen_bind]
      rfl

/-- A checked step leads where the step without checks leads. -/
theorem exists_step_of_checkedStep {w : Walk} {s t : State} {j k : Journal}
    (h : w.checkedStep s j = .ok (some t) k) : ∃ es, w.step s = some (es, t) := by
  rw [checkedStep_eq] at h
  cases hs : w.step s with
  | none =>
    rw [hs] at h
    cases h
  | some next =>
    rw [hs] at h
    exact ⟨next.1, by rw [← Option.some.inj (answer_of_recordThen h)]⟩

end CallTrace.Walk
