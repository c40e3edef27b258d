import CallTrace.Policy

/-!
# Checked entries

A checked reader of a configuration checks each call site and each error when it makes it and gives
the first rule that is broken instead of an answer. What passes the checks is the answer of the
reader without them.
-/

namespace CallTrace

def SiteFault.checked (f : SiteFault) : Checked ConfigError :=
  ConfigError.make f.toConfigError.field f.toConfigError.reason

theorem SiteFault.reason_ne (f : SiteFault) : f.reason ≠ "" := by
  have hkey (text : String) : "key " ++ Text.quote text ≠ "" :=
    Text.append_ne_empty (by decide) _
  cases f with
  | wrongShape text => exact Text.append_ne_empty (hkey text) _
  | wrongLine text line => exact Text.append_ne_empty (Text.append_ne_empty (hkey text) _) _

/-- Every fault names the field that holds the site, and has a reason. -/
theorem SiteFault.checked_eq (f : SiteFault) : f.checked = .ok f.toConfigError := by
  have hfield : "edge_class_map" ≠ "" := by decide
  unfold checked ConfigError.make toConfigError
  rw [require_of hfield, require_of f.reason_ne]
  rfl

namespace CallSite

def checkedParse (text : String) : Checked (Except ConfigError CallSite) :=
  match parse text with
  | .error f => do
    let e ← f.checked
    return .error e
  | .ok s => do
    let s ← s.check
    return .ok s

/-- The cut already refuses empty names. -/
theorem names_ne_of_parse {text : String} {s : CallSite} (h : parse text = .ok s) :
    s.callerClass ≠ "" ∧ s.methodName ≠ "" := by
  unfold parse at h
  split at h
  · cases h
  · next callerClass methodName line hparts =>
    split at h
    · cases h
    · obtain rfl := Except.ok.inj h
      simp only [parts?, Option.bind_eq_bind, Option.bind_eq_some_iff, Prod.exists,
        Option.ite_none_left_eq_some, not_or, Option.some.injEq, Prod.mk.injEq] at hparts
      obtain ⟨_, _, -, _, _, -, ⟨hcaller, hmethod⟩, rfl, rfl, rfl⟩ := hparts
      exact ⟨by simpa using hcaller, by simpa using hmethod⟩

theorem checkedParse_of_ok {text : String} {s : CallSite} (h : parse text = .ok s) :
    checkedParse text = .ok (.ok s) := by
  obtain ⟨hcaller, hmethod⟩ := names_ne_of_parse h
  simp only [checkedParse, h, check_of hcaller hmethod]
  rfl

theorem checkedParse_of_error {text : String} {f : SiteFault} (h : parse text = .error f) :
    checkedParse text = .ok (.error f.toConfigError) := by
  simp only [checkedParse, h, f.checked_eq]
  rfl

end CallSite

namespace Policy

/-- Reads the entries one after another into `a`. The reports of unreadable keys come first in the
answer: they stand even if a rule is broken later. -/
def checkedAliases (a : AliasMap) : List (SiteKey × List String) → List Log × Checked AliasMap
  | [] => ([], .ok a)
  | (.site s, names) :: es => checkedAliases (a.insert s (.ofList names)) es
  | (.text t, names) :: es =>
    match CallSite.checkedParse t with
    | .error v => ([], .error v)
    | .ok (.ok s) => checkedAliases (a.insert s (.ofList names)) es
    | .ok (.error e) =>
      let (logs, aliases) := checkedAliases a es
      (.keyIgnored t e.reason :: logs, aliases)

/-- The policy with these fields whose alias entries come in this order, with what their reading
reports. -/
def checkedOfEntries (d : PolicyDraft) (es : List (SiteKey × List String)) :
    List Log × Checked Policy :=
  let (logs, aliases) := checkedAliases .empty es
  (logs, aliases.bind d.toPolicy)

theorem checkedAliases_eq (a : AliasMap) (es : List (SiteKey × List String)) :
    checkedAliases a es = (keyLogs es, .ok (es.foldl addAlias a)) := by
  induction es generalizing a with
  | nil => rfl
  | cons e es ih =>
    obtain ⟨key, names⟩ := e
    cases key with
    | site s => exact ih _
    | text t =>
      cases hparse : CallSite.parse t with
      | error f =>
        simp [checkedAliases, CallSite.checkedParse_of_error hparse, hparse, ih, keyLogs, keyLog?,
          addAlias, SiteKey.read, SiteFault.toConfigError]
      | ok s =>
        simp [checkedAliases, CallSite.checkedParse_of_ok hparse, hparse, ih, keyLogs, keyLog?,
          addAlias, SiteKey.read]

/-- No check fails while the entries are read. -/
theorem checkedOfEntries_eq (d : PolicyDraft) (es : List (SiteKey × List String)) :
    checkedOfEntries d es = (keyLogs es, d.toPolicy (readAliases es)) := by
  simp only [checkedOfEntries, checkedAliases_eq, readAliases]
  rfl

end Policy

end CallTrace
