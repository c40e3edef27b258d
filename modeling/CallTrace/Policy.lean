import CallTrace.Alias

/-!
# Policies

A policy says what a walk shows: which classes, which method names, which methods of hidden
classes (the sinks), how deep, and how long an expanded method stays closed. Its alias map is read
from entries whose sites may be written out; an entry whose site cannot be read is left out.
-/

namespace CallTrace

/-- How long a method that has been expanded is not expanded again. -/
inductive Scope
  | path
  | global
deriving DecidableEq

namespace Scope

def name : Scope → String
  | .path => "PATH"
  | .global => "GLOBAL"

def number : Scope → Nat
  | .path => 1
  | .global => 2

def all : List Scope := [.path, .global]

end Scope

def initializerName : String := "<init>"

structure Policy where
  classes : ClassFilter := {}
  cutMethods : NameSet := .empty
  aliases : AliasMap := .empty
  sinks : Table String NameSet := .empty
  initializer : String := initializerName
  depthBound : Option Nat := none
  scope : Scope := .path
  initializer_ne : initializer ≠ "" := by decide

namespace Policy

theorem ext_iff {p q : Policy} :
    p = q ↔ p.classes = q.classes ∧ p.cutMethods = q.cutMethods ∧ p.aliases = q.aliases ∧
      p.sinks = q.sinks ∧ p.initializer = q.initializer ∧ p.depthBound = q.depthBound ∧
      p.scope = q.scope := by
  cases p
  cases q
  simp

instance : DecidableEq Policy := fun _ _ => decidable_of_iff' _ ext_iff

def empty : Policy := {}

def sinkMethods (p : Policy) (className : String) : NameSet := (p.sinks.get? className).getD .empty

def IsSink (p : Policy) (className methodName : String) : Prop :=
  methodName ∈ p.sinkMethods className

instance (p : Policy) (className methodName : String) : Decidable (p.IsSink className methodName) :=
  inferInstanceAs (Decidable (methodName ∈ p.sinkMethods className))

end Policy

/-- A call site as a configuration gives it. -/
inductive SiteKey
  | site (s : CallSite)
  | text (t : String)
deriving DecidableEq

namespace SiteKey

def read : SiteKey → Except SiteFault CallSite
  | .site s => .ok s
  | .text t => CallSite.parse t

end SiteKey

/-- The fields of a policy as a configuration gives them, but for its alias map. -/
structure PolicyDraft where
  classes : ClassFilter := {}
  cutMethods : List String := []
  sinks : Table String (List String) := .empty
  initializer : String := initializerName
  depthBound : Option Int := none
  scope : Scope := .path

/-- The entries that give back an alias map. -/
def AliasMap.toEntries (a : AliasMap) : Table SiteKey (List String) :=
  .ofList (a.entries.map fun e => (.site e.1, e.2.names))

namespace Policy

/-- Of the entries for one site the last one counts. -/
def addAlias (a : AliasMap) (e : SiteKey × List String) : AliasMap :=
  match e.1.read with
  | .ok s => a.insert s (.ofList e.2)
  | .error _ => a

def readAliases (es : List (SiteKey × List String)) : AliasMap := es.foldl addAlias .empty

/-- A key that cannot be read is reported. -/
def keyLog? : SiteKey → Option Log
  | .site _ => none
  | .text t =>
    match CallSite.parse t with
    | .ok _ => none
    | .error f => some (.keyIgnored t f.reason)

def keyLogs (es : List (SiteKey × List String)) : List Log := es.filterMap fun e => keyLog? e.1

def checkDepth (depth : Option Int) : Checked (Option Nat) :=
  match depth with
  | none => .ok none
  | some n => if 0 ≤ n then .ok (some n.toNat) else .error (.tooSmall .maxDepth 0 n)

end Policy

/-- The policy with these fields and this alias map; the first rule that it breaks is the one
reported. -/
def PolicyDraft.toPolicy (d : PolicyDraft) (aliases : AliasMap) : Checked Policy := do
  let ⟨initializer_ne⟩ ← require (d.initializer ≠ "") (.isEmpty .constructorName)
  let depthBound ← Policy.checkDepth d.depthBound
  return {
    classes := d.classes, cutMethods := .ofList d.cutMethods, aliases,
    sinks := d.sinks.map fun _ => .ofList, initializer := d.initializer, depthBound,
    scope := d.scope, initializer_ne }

end CallTrace
