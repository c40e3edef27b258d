import CallTrace.Proofs.Walk.Arrivals

/-!
# Paths of calls

A path that a trace shows leads along selected calls through distinct methods that pass the
filters; only its last method may be one of those above or a sink.
-/

namespace CallTrace.Walk

/-- A call that leaves a method, and its place among the picks of that method. Picks keep the
order in which the calls were recorded. -/
structure Hop where
  position : Nat
  call : Call

namespace Hop

def arrival (h : Hop) : Arrival := .ofCall h.call

end Hop

/-- The call at this place is followed, and not a call of the method itself. -/
def Selects (w : Walk) (h : Hop) : Prop :=
  (w.offers h.call.caller)[h.position]? = some (.follow h.call) ∧ ¬ h.call.IsSelfCall

/-- The first call leaves `m`, and each further one the method called before. -/
def Linked : Method → List Hop → Prop
  | _, [] => True
  | m, h :: p => h.call.caller = m ∧ Linked h.call.callee p

/-- Where a path ends that begins at `root`. -/
def endOf (root : Arrival) (p : List Hop) : Arrival :=
  (root :: p.map Hop.arrival).getLast (List.cons_ne_nil _ _)

/-- Where a path passes before its end. -/
def above (root : Arrival) (p : List Hop) : List Arrival := (root :: p.map Hop.arrival).dropLast

/-- A path of calls that a trace shows if it begins at depth `d`. -/
structure ShownPath (w : Walk) (root : Arrival) (d : Nat) (p : List Hop) : Prop where
  linked : Linked root.method p
  selected : ∀ h ∈ p, w.Selects h
  distinct : ((above root p).map Arrival.method).Nodup
  passed : ∀ a ∈ above root p, w.Passes a
  shown : w.Shows (endOf root p)
  bounded : p ≠ [] → ∀ bound ∈ w.policy.depthBound, d + p.length - 1 < bound

/-- The line of a path that begins at depth `d`. -/
def endLine (w : Walk) (root : Arrival) (d : Nat) (p : List Hop) : Trace.Line × Method :=
  w.lineAt (d + p.length) (endOf root p)

/-- Lexicographic by places, a path before its extensions. -/
def Before (p q : List Hop) : Prop := p.map Hop.position < q.map Hop.position

theorem endOf_cons (root : Arrival) (h : Hop) (p : List Hop) :
    endOf root (h :: p) = endOf h.arrival p :=
  List.getLast_cons (List.cons_ne_nil _ _)

theorem endLine_cons (w : Walk) (root : Arrival) (d : Nat) (h : Hop) (p : List Hop) :
    w.endLine root d (h :: p) = w.endLine h.arrival (d + 1) p := by
  rw [endLine, endLine, endOf_cons, List.length_cons, Nat.add_assoc, Nat.add_comm 1]

theorem before_of_position_lt {h k : Hop} {p q : List Hop} (hlt : h.position < k.position) :
    Before (h :: p) (k :: q) :=
  List.Lex.rel hlt

theorem Before.cons {p q : List Hop} (h : Hop) (hpq : Before p q) : Before (h :: p) (h :: q) :=
  List.Lex.cons hpq

/-- A path below `m` that is shown while the methods in `closed` are closed. -/
def ShownBelow (w : Walk) : List Method → Method → Nat → List Hop → Prop
  | _, _, _, [] => False
  | closed, m, d, h :: p =>
    h.call.caller = m ∧ w.Selects h ∧
      (p = [] ∧ w.Shows h.arrival ∨
        w.Passes h.arrival ∧ w.Admits closed h.call.callee (d + 1) ∧
          w.ShownBelow (h.call.callee :: closed) h.call.callee (d + 1) p)

theorem shownPath_nil {w : Walk} {root : Arrival} {d : Nat} :
    w.ShownPath root d [] ↔ w.Shows root := by
  constructor
  · exact ShownPath.shown
  · intro h
    refine ⟨trivial, ?_, .nil, ?_, h, ?_⟩
    · intro k hk
      cases hk
    · intro a ha
      cases ha
    · intro hne
      exact absurd rfl hne

theorem above_cons (root : Arrival) (h : Hop) (p : List Hop) :
    above root (h :: p) = root :: above h.arrival p :=
  rfl

/-- The bound holds at the end of a path if it holds at its beginning and from the first call
on. -/
theorem bounded_cons_iff {w : Walk} {d : Nat} {p : List Hop} :
    (∀ bound ∈ w.policy.depthBound, d + p.length < bound) ↔
      ¬ w.BoundReached d ∧
        (p ≠ [] → ∀ bound ∈ w.policy.depthBound, d + 1 + p.length - 1 < bound) := by
  rw [BoundReached]
  constructor
  · intro h
    refine ⟨?_, ?_⟩
    · intro hreached
      obtain ⟨bound, hb, hle⟩ := hreached
      have := h bound hb
      omega
    · intro _ bound hb
      have := h bound hb
      omega
  · intro h bound hb
    have hlt : d < bound := Nat.lt_of_not_le fun hle => h.1 ⟨bound, hb, hle⟩
    cases p with
    | nil => exact hlt
    | cons k p =>
      have := h.2 (List.cons_ne_nil k p) bound hb
      omega

/-- A path with a first call is a path from that call on. The methods in `closed` stand for those
passed before `root`. -/
theorem shownPath_cons_iff {w : Walk} {closed : List Method} {root : Arrival} {d : Nat} {h : Hop}
    {p : List Hop} :
    (w.ShownPath root d (h :: p) ∧ ∀ a ∈ above root (h :: p), a.method ∉ closed) ↔
      w.Passes root ∧ w.Admits closed root.method d ∧ h.call.caller = root.method ∧ w.Selects h ∧
        w.ShownPath h.arrival (d + 1) p ∧
          ∀ a ∈ above h.arrival p, a.method ∉ root.method :: closed := by
  have hbound := bounded_cons_iff (w := w) (d := d) (p := p)
  constructor
  · intro hpath
    obtain ⟨⟨hlinked, hselected, hdistinct, hpassed, hshown, hbounded⟩, hclosed⟩ := hpath
    rw [above_cons] at hdistinct hpassed hclosed
    obtain ⟨hsel, hselected⟩ := List.forall_mem_cons.mp hselected
    obtain ⟨hpass, hpassed⟩ := List.forall_mem_cons.mp hpassed
    obtain ⟨hopen, hclosed⟩ := List.forall_mem_cons.mp hclosed
    obtain ⟨hnew, hdistinct⟩ := List.nodup_cons.mp hdistinct
    obtain ⟨hd, hbounded⟩ := hbound.mp (hbounded (List.cons_ne_nil h p))
    rw [endOf_cons] at hshown
    refine ⟨hpass, ⟨hopen, hd⟩, hlinked.1, hsel,
      ⟨hlinked.2, hselected, hdistinct, hpassed, hshown, hbounded⟩, ?_⟩
    intro a ha hmem
    cases List.mem_cons.mp hmem with
    | inl heq =>
      apply hnew
      rw [← heq]
      exact List.mem_map_of_mem ha
    | inr hmem => exact hclosed a ha hmem
  · intro hpath
    obtain ⟨hpass, ⟨hopen, hd⟩, hcaller, hsel,
      ⟨hlinked, hselected, hdistinct, hpassed, hshown, hbounded⟩, hclosed⟩ := hpath
    have hnew : root.method ∉ (above h.arrival p).map Arrival.method := by
      intro hmem
      obtain ⟨a, ha, heq⟩ := List.mem_map.mp hmem
      exact hclosed a ha (List.mem_cons.mpr (.inl heq))
    refine ⟨⟨⟨hcaller, hlinked⟩, List.forall_mem_cons.mpr ⟨hsel, hselected⟩,
      List.nodup_cons.mpr ⟨hnew, hdistinct⟩, List.forall_mem_cons.mpr ⟨hpass, hpassed⟩, ?_,
      fun _ => hbound.mpr ⟨hd, hbounded⟩⟩, List.forall_mem_cons.mpr ⟨hopen, ?_⟩⟩
    · rw [endOf_cons]
      exact hshown
    · intro a ha hmem
      exact hclosed a ha (List.mem_cons_of_mem _ hmem)

/-- The paths through methods that are not closed, as they are followed call by call. -/
theorem shownPath_iff {w : Walk} {closed : List Method} {root : Arrival} {d : Nat} {p : List Hop} :
    (w.ShownPath root d p ∧ ∀ a ∈ above root p, a.method ∉ closed) ↔
      p = [] ∧ w.Shows root ∨
        w.Passes root ∧ w.Admits closed root.method d ∧
          w.ShownBelow (root.method :: closed) root.method d p := by
  induction p generalizing closed root d with
  | nil =>
    rw [shownPath_nil]
    simp [above, ShownBelow]
  | cons h p ih =>
    rw [shownPath_cons_iff, ih, ShownBelow]
    simp [Hop.arrival, Arrival.ofCall]

end CallTrace.Walk
