import CallTrace.Walk.Visit

/-!
# Steps of a walk

A walk keeps a stack of the methods that it is expanding, each with what is left of its picks,
and the methods that it must not expand again. One step takes one pick of the topmost method.
-/

namespace CallTrace.Walk

structure Frame where
  method : Method
  depth : Nat
  picks : List Pick

structure State where
  stack : List Frame
  expanded : List Method

namespace State

def start : State := ⟨[], []⟩

def methods (s : State) : List Method := s.stack.map Frame.method

end State

/-- Whether the depth bound keeps a method at this depth from being expanded. -/
def BoundReached (w : Walk) (depth : Nat) : Prop := ∃ d ∈ w.policy.depthBound, d ≤ depth

instance (w : Walk) (depth : Nat) : Decidable (w.BoundReached depth) :=
  inferInstanceAs (Decidable (∃ d ∈ w.policy.depthBound, d ≤ depth))

/-- Opens a frame for the method unless it is closed or too deep. -/
def enter (w : Walk) (m : Method) (depth : Nat) (s : State) : List Event × State :=
  if m ∈ s.expanded then ([], s)
  else if w.BoundReached depth then ([.logged (.depthLimit m depth)], s)
  else ([], ⟨⟨m, depth, w.offers m⟩ :: s.stack, m :: s.expanded⟩)

/-- What stays closed when a method has been expanded. -/
def release (w : Walk) (m : Method) (expanded : List Method) : List Method :=
  match w.policy.scope with
  | .path => expanded.erase m
  | .global => expanded

/-- Follows a call from the method of frame `f`. -/
def follow (w : Walk) (f : Frame) (c : Call) (s : State) : List Event × State :=
  if c.IsSelfCall then ([], s)
  else
    let v := w.visit c.callee (f.depth + 1) c.lineNumber (some f.method.owner)
    if v.opens then
      let (es, s) := w.enter c.callee (f.depth + 1) s
      (v.events ++ es, s)
    else (v.events, s)

/-- One step; `none` when the stack is empty. -/
def step (w : Walk) (s : State) : Option (List Event × State) :=
  match s.stack with
  | [] => none
  | ⟨m, _, []⟩ :: fs => some ([], ⟨fs, w.release m s.expanded⟩)
  | ⟨m, d, .merge c :: ps⟩ :: fs =>
    some ([.logged (Pick.mergeLog c)], ⟨⟨m, d, ps⟩ :: fs, s.expanded⟩)
  | ⟨m, d, .follow c :: ps⟩ :: fs =>
    some (w.follow ⟨m, d, ps⟩ c ⟨⟨m, d, ps⟩ :: fs, s.expanded⟩)

end CallTrace.Walk
