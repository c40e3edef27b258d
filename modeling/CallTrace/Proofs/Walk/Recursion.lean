import CallTrace.Proofs.Walk.RunEvents

/-!
# Walks told by recursion

The same walk without a stack and without picks made in advance: a method is expanded by a scan
of the calls that leave it, and a call is followed by expanding the method called on the spot.
The rule of the grouping looks at one call at a time and remembers the sites whose group already
has a call that was followed. A run has the events of this recursion.
-/

namespace CallTrace

/-- The groupings of the library as rules for one call at a time. -/
inductive Rule
  | byAlias
  | keepAll
  | fixed (name : String)

namespace Rule

def grouping : Rule → Grouping
  | byAlias => .byAlias
  | keepAll => .keepAll
  | fixed name => .fixed name

/-- The call is passed over without a report. -/
def Drops (f : ClassFilter) (c : Call) : Rule → Prop
  | byAlias => ¬ f.Follows c.callee.owner
  | keepAll => False
  | fixed _ => False

/-- The call is one of a group, for which one call is enough. -/
def Groups (a : AliasMap) (c : Call) : Rule → Prop
  | byAlias => c.callee.owner ∈ a.group (.ofCall c)
  | keepAll => False
  | fixed _ => False

instance (r : Rule) (f : ClassFilter) (c : Call) : Decidable (r.Drops f c) := by
  cases r <;> unfold Drops <;> infer_instance

instance (r : Rule) (a : AliasMap) (c : Call) : Decidable (r.Groups a c) := by
  cases r <;> unfold Groups <;> infer_instance

/-- The sites that have a followed call once `c` has been followed. -/
def represent (a : AliasMap) (seen : List CallSite) (c : Call) (r : Rule) : List CallSite :=
  if r.Groups a c then .ofCall c :: seen else seen

/-- The scan in advance, with the sites that have a followed call already. -/
def picks (f : ClassFilter) (a : AliasMap) (r : Rule) (seen : List CallSite) : List Call → List Pick
  | [] => []
  | c :: cs =>
    if r.Drops f c then r.picks f a seen cs
    else if r.Groups a c ∧ .ofCall c ∈ seen then .merge c :: r.picks f a seen cs
    else .follow c :: r.picks f a (r.represent a seen c) cs

/-- A scan reads the groups of the sites of its calls and no others. -/
theorem picks_congr {f : ClassFilter} {a b : AliasMap} {cs : List Call}
    (h : ∀ c ∈ cs, a.group (.ofCall c) = b.group (.ofCall c)) (r : Rule) (seen : List CallSite) :
    r.picks f a seen cs = r.picks f b seen cs := by
  induction cs generalizing seen with
  | nil => rfl
  | cons c cs ih =>
    obtain ⟨hc, hcs⟩ := List.forall_mem_cons.mp h
    have hgroups : r.Groups a c ↔ r.Groups b c := by cases r <;> simp only [Groups, hc]
    simp only [picks, represent, hgroups, ih hcs]

theorem picks_byAlias (f : ClassFilter) (a : AliasMap) (seen : List CallSite) (cs : List Call) :
    byAlias.picks f a seen cs = Grouping.scan f a seen cs := by
  induction cs generalizing seen with
  | nil => rfl
  | cons c cs ih =>
    rw [picks, Grouping.scan, ih, ih]
    by_cases hf : f.Follows c.callee.owner
    · by_cases hg : c.callee.owner ∈ a.group (.ofCall c) <;> simp [Drops, Groups, represent, hf, hg]
    · simp [Drops, hf]

theorem picks_followAll {r : Rule} {f : ClassFilter} {a : AliasMap} (hd : ∀ c, ¬ r.Drops f c)
    (hg : ∀ c, ¬ r.Groups a c) (seen : List CallSite) (cs : List Call) :
    r.picks f a seen cs = Grouping.followAll cs := by
  induction cs generalizing seen with
  | nil => rfl
  | cons c cs ih =>
    rw [picks, if_neg (hd c), if_neg fun h => hg c h.1, represent, if_neg (hg c), ih]
    rfl

theorem grouping_picks (r : Rule) (f : ClassFilter) (a : AliasMap) (cs : List Call) :
    r.grouping.picks f a cs = r.picks f a [] cs := by
  cases r with
  | byAlias => exact (picks_byAlias f a [] cs).symm
  | keepAll => exact (picks_followAll (fun _ => id) (fun _ => id) [] cs).symm
  | fixed name => exact (picks_followAll (fun _ => id) (fun _ => id) [] cs).symm

end Rule

namespace Walk

mutual

/-- Expands `m` unless the guard or the depth bound forbids it. Gives the events and the methods
expanded, the last one first. -/
def expand (r : Rule) (w : Walk) (guard : List Method) (m : Method) (d : Nat) :
    List Event × List Method :=
  if m ∈ guard then ([], [])
  else if w.BoundReached d then ([.logged (.depthLimit m d)], [])
  else
    let (es, opened) := scan r w (m :: guard) m d [] (w.graph.callsFrom m)
    (es, opened ++ [m])
termination_by (w.unopened guard, 1)
decreasing_by
  exact w.opening_lt (by assumption) (fun hk => by rw [callsFrom_eq_nil hk]; rfl) Nat.one_pos

/-- Scans calls that leave `m`. The guard of the later calls has in addition what an earlier one
expanded, if methods stay closed for the whole run; on a path it has the methods above only. -/
def scan (r : Rule) (w : Walk) (guard : List Method) (m : Method) (d : Nat)
    (seen : List CallSite) : List Call → List Event × List Method
  | [] => ([], [])
  | c :: cs =>
    if r.Drops w.policy.classes c then scan r w guard m d seen cs
    else if r.Groups w.policy.aliases c ∧ .ofCall c ∈ seen then
      let (es, opened) := scan r w guard m d seen cs
      (.logged (.callMerged (.ofCall c) c.callee) :: es, opened)
    else if c.caller = c.callee then scan r w guard m d (r.represent w.policy.aliases seen c) cs
    else
      let v := w.visit c.callee (d + 1) c.lineNumber (some m.owner)
      if v.opens then
        let (es, opened) := expand r w guard c.callee (d + 1)
        let rest := scan r w (w.closedAfter opened guard) m d
          (r.represent w.policy.aliases seen c) cs
        (v.events ++ es ++ rest.1, rest.2 ++ opened)
      else
        let (es, opened) := scan r w guard m d (r.represent w.policy.aliases seen c) cs
        (v.events ++ es, opened)
termination_by cs => (w.unopened guard, 2 * cs.length)
decreasing_by
  all_goals simp only [List.length_cons]
  · exact Prod.Lex.right _ (by omega)
  · exact Prod.Lex.right _ (by omega)
  · exact Prod.Lex.right _ (by omega)
  · exact Prod.Lex.right _ (by omega)
  · exact w.closing_lt _ _ (by omega)
  · exact Prod.Lex.right _ (by omega)

end

/-- The events of a whole run but for the report of its end. -/
def recursiveStory (r : Rule) (w : Walk) (entry : Method) (depth : Nat) (line : Option Int) :
    List Event :=
  let v := w.visit entry depth (line.getD unknownLine) none
  [.logged (.started entry w.graph.calls.length), .header] ++ v.events ++
    if v.opens then (expand r w [] entry depth).1 else []

section

variable {r : Rule} {w : Walk} (hw : w.grouping = r.grouping)

include hw

theorem offers_eq_picks (m : Method) :
    w.offers m = r.picks w.policy.classes w.policy.aliases [] (w.graph.callsFrom m) := by
  rw [offers, hw]
  exact r.grouping_picks ..

theorem expand_and_scan_eq :
    (∀ guard m d, expand r w guard m d =
      if w.Admits guard m d then
        ((w.unfoldPicks (m :: guard) m d (w.offers m)).events,
          (w.unfoldPicks (m :: guard) m d (w.offers m)).opened ++ [m])
      else (w.refusal guard m d, [])) ∧
    (∀ guard m d seen cs, scan r w guard m d seen cs =
      ((w.unfoldPicks guard m d (r.picks w.policy.classes w.policy.aliases seen cs)).events,
        (w.unfoldPicks guard m d (r.picks w.policy.classes w.policy.aliases seen cs)).opened)) := by
  apply expand.mutual_induct r w
  -- `expand`: the guard, the depth bound, the scan
  · intro guard m d hm
    have hadm : ¬ w.Admits guard m d := fun h => h.1 hm
    rw [expand, if_pos hm, if_neg hadm, refusal, if_neg fun h => h.1 hm]
  · intro guard m d hm hd
    have hadm : ¬ w.Admits guard m d := fun h => h.2 hd
    rw [expand, if_neg hm, if_pos hd, if_neg hadm, refusal, if_pos ⟨hm, hd⟩]
  · intro guard m d hm hd es opened hscan ih
    have hadm : w.Admits guard m d := ⟨hm, hd⟩
    rw [expand, if_neg hm, if_neg hd, if_pos hadm, ih, offers_eq_picks hw]
  -- `scan`: no call left, then a call that is dropped, merged, a self call, and followed
  · intro guard m d seen
    rw [scan, Rule.picks, unfoldPicks_nil]
    rfl
  · intro guard m d seen c cs hdrop ih
    rw [scan, if_pos hdrop, ih, Rule.picks, if_pos hdrop]
  · intro guard m d seen c cs hdrop hmerge es opened hscan ih
    rw [scan, if_neg hdrop, if_pos hmerge, ih, Rule.picks, if_neg hdrop, if_pos hmerge,
      unfoldPicks_of_not_opens rfl]
    rfl
  · intro guard m d seen c cs hdrop hmerge hself ih
    have hg : w.glance m d (.follow c) = ⟨[], false⟩ := if_pos hself
    rw [scan, if_neg hdrop, if_neg hmerge, if_pos hself, ih, Rule.picks, if_neg hdrop,
      if_neg hmerge, unfoldPicks_of_not_opens (by rw [hg]), hg]
    rfl
  · intro guard m d seen c cs hdrop hmerge hself v hopens es opened hexpand ihe ih
    have hg : w.glance m d (.follow c) = v := if_neg hself
    have hgo : (w.glance m d (.follow c)).opens = true := by rw [hg]; exact hopens
    rw [scan, if_neg hdrop, if_neg hmerge, if_neg hself, Rule.picks, if_neg hdrop, if_neg hmerge]
    change (if v.opens = true then _ else _) = _
    rw [if_pos hopens]
    simp only [hexpand, ih]
    rw [hexpand] at ihe
    by_cases hadm : w.Admits guard c.callee (d + 1)
    · rw [if_pos hadm] at ihe
      obtain ⟨rfl, rfl⟩ := Prod.mk.inj ihe
      rw [unfoldPicks_of_admits hgo hadm, hg]
      rfl
    · rw [if_neg hadm] at ihe
      obtain ⟨rfl, rfl⟩ := Prod.mk.inj ihe
      rw [unfoldPicks_of_not_admits hgo hadm, hg, closedAfter_nil, List.append_nil]
      rfl
  · intro guard m d seen c cs hdrop hmerge hself v hopens es opened hscan ih
    have hg : w.glance m d (.follow c) = v := if_neg hself
    have hgo : (w.glance m d (.follow c)).opens = false := by rw [hg]; exact eq_false_of_ne_true hopens
    rw [scan, if_neg hdrop, if_neg hmerge, if_neg hself, Rule.picks, if_neg hdrop, if_neg hmerge]
    change (if v.opens = true then _ else _) = _
    rw [if_neg hopens, ih, unfoldPicks_of_not_opens hgo, hg, Unfolding.events, Unfolding.opened,
      List.append_nil]

theorem story_eq_recursiveStory (entry : Method) (depth : Nat) (line : Option Int) :
    w.story entry depth line = recursiveStory r w entry depth line := by
  rw [story, opening_eq, recursiveStory, (expand_and_scan_eq hw).1, unfolding, List.append_assoc]
  by_cases hopens : (w.visit entry depth (line.getD unknownLine) none).opens = true
  · by_cases hadm : w.Admits [] entry depth
    · have hexp : w.Expands entry depth line := ⟨hopens, hadm⟩
      simp [hopens, hadm, hexp, refusal_of_admits]
    · have hexp : ¬ w.Expands entry depth line := fun h => hadm h.2
      simp [hopens, hadm, hexp, Unfolding.events]
  · have hexp : ¬ w.Expands entry depth line := fun h => hopens h.1
    simp [hopens, hexp, Unfolding.events]

end

/-- A run is the recursion: the same writes and reports in the same order, and the same figures.
These are the number of lines that the recursion shows, its sinks in order, and the greatest depth
of a line, or -1 if there is none. -/
theorem run_eq_recursion (r : Rule) (g : CallGraph) (p : Policy) (entry : Method) (depth : Nat)
    (line : Option Int) :
    let w : Walk := ⟨g, p, r.grouping⟩
    let events := recursiveStory r w entry depth line
    let shown := events.filterMap Event.shown?
    let summary := Summary.ofShown shown
    w.run none entry depth line = ⟨events ++ [finished entry summary], true⟩ ∧
      (w.run none entry depth line).outcome = .ok summary ∧
      (w.run none entry depth line).written =
        (Trace.header ++ "\n") :: shown.map (fun l => l.1.text ++ "\n") ∧
      summary.lines = shown.length ∧
      summary.sinks = (shown.filter fun l => l.1.isSink).map Prod.snd ∧
      (∀ l ∈ shown, l.1.depth ≤ summary.deepest) ∧
      (shown ≠ [] → ∃ l ∈ shown, l.1.depth = summary.deepest) ∧
      (shown = [] → summary.deepest = -1) := by
  intro w events shown summary
  have hstory : w.story entry depth line = events := story_eq_recursiveStory (r := r) rfl ..
  have hshown : (w.run none entry depth line).shown = shown := by
    rw [shown_run_unlimited, hstory]
  refine ⟨?_, ?_, ?_, rfl, rfl, ?_, ?_, ?_⟩
  · rw [run_unlimited, hstory]
  · rw [outcome_run_unlimited, hstory]
  · rw [written_run, Run.lines, hshown, List.map_map]
    rfl
  · intro l hl
    exact Summary.le_greatestDepth (List.mem_map_of_mem hl)
  · intro hne
    obtain ⟨l, hl, hdepth⟩ := Summary.exists_depth_eq_greatestDepth (mt List.map_eq_nil_iff.mp hne)
    obtain ⟨s, hs, rfl⟩ := List.mem_map.mp hl
    exact ⟨s, hs, hdepth⟩
  · intro hnil
    exact Summary.greatestDepth_eq_neg_one_iff.mpr (List.map_eq_nil_iff.mpr hnil)

end Walk

end CallTrace
