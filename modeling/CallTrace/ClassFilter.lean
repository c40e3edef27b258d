/-!
# Class filters

A class pattern covers the classes whose names begin with it; wildcard marks in a pattern do not
count. A filter has patterns of classes to show and patterns of classes to hide.
-/

namespace CallTrace

def wildcard : Char := '*'

def patternStem (pattern : String) : String := String.ofList (pattern.toList.filter (· ≠ wildcard))

def Covers (pattern className : String) : Prop :=
  (patternStem pattern).toList <+: className.toList

instance (pattern className : String) : Decidable (Covers pattern className) :=
  inferInstanceAs (Decidable (_ <+: _))

/-- The first pattern that covers the class, as it was written. -/
def covering? (patterns : List String) (className : String) : Option String :=
  patterns.find? fun p => decide (Covers p className)

def CoveredBy (patterns : List String) (className : String) : Prop :=
  ∃ p ∈ patterns, Covers p className

instance (patterns : List String) (className : String) :
    Decidable (CoveredBy patterns className) :=
  inferInstanceAs (Decidable (∃ p ∈ patterns, Covers p className))

theorem covering?_isSome_iff {patterns : List String} {className : String} :
    (covering? patterns className).isSome ↔ CoveredBy patterns className := by
  simp [covering?, CoveredBy]

theorem CoveredBy.mono {ps qs : List String} {className : String} (h : ps ⊆ qs)
    (hp : CoveredBy ps className) : CoveredBy qs className :=
  let ⟨p, hm, hc⟩ := hp
  ⟨p, h hm, hc⟩

/-- An empty list of shown patterns shows all classes. -/
structure ClassFilter where
  shown : List String := []
  hidden : List String := []
deriving DecidableEq

namespace ClassFilter

def Hides (f : ClassFilter) (className : String) : Prop := CoveredBy f.hidden className

instance (f : ClassFilter) (className : String) : Decidable (f.Hides className) :=
  inferInstanceAs (Decidable (CoveredBy _ _))

/-- Calls into hidden classes are followed up to the class, where a sink may still be shown. -/
def Follows (f : ClassFilter) (className : String) : Prop :=
  f.shown = [] ∨ CoveredBy f.shown className ∨ f.Hides className

instance (f : ClassFilter) (className : String) : Decidable (f.Follows className) :=
  inferInstanceAs (Decidable (_ ∨ _ ∨ _))

end ClassFilter

end CallTrace
