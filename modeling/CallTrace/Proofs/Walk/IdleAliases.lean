import CallTrace.Proofs.Alias.Groups
import CallTrace.Proofs.Walk.Agreement
import CallTrace.Proofs.Walk.Validity

/-!
# Idle aliases

A walk looks up the groups of the sites of recorded calls and no others. The line of such a site is
counted from one or not known, so an entry for any other line has no influence, and a group without
members is the same as none.
-/

namespace CallTrace

namespace AliasMap

theorem group_insert (a : AliasMap) (s t : CallSite) (names : NameSet) :
    group (a.insert s names) t = if t = s then names else a.group t := by
  simp only [group, Table.get?_insert]
  split <;> rfl

theorem group_of_not_mem_keys {a : AliasMap} {s : CallSite} (hs : s ∉ a.keys) :
    a.group s = .empty := by
  rw [group, Table.get?_eq_none_iff.mpr hs, Option.getD_none]

/-- What is filtered out leaves its site without a group. -/
theorem group_filter (a : AliasMap) (keep : CallSite → NameSet → Bool) (s : CallSite) :
    group (a.filter keep) s = if keep s (a.group s) then a.group s else .empty := by
  unfold group
  rw [Table.get?_filter]
  cases a.get? s with
  | none => simp
  | some names => cases hkeep : keep s names <;> simp [Option.filter, hkeep]

end AliasMap

namespace CallSite

/-- No call has a site with this line. -/
def OffLine (s : CallSite) : Prop := s.line = 0 ∨ s.line < unknownLine

instance (s : CallSite) : Decidable s.OffLine := inferInstanceAs (Decidable (_ ∨ _))

theorem not_offLine_ofCall (c : Call) : ¬ (ofCall c).OffLine := by
  simp only [OffLine, ofCall, Call.lineNumber]
  cases hline : c.line with
  | none => decide
  | some n =>
    have hpos : 0 < n := c.line_pos n hline
    simp only [unknownLine]
    omega

end CallSite

namespace AliasMap

/-- An entry that could as well be missing. -/
def Idle (s : CallSite) (names : NameSet) : Prop := s.OffLine ∨ names = .empty

instance (s : CallSite) (names : NameSet) : Decidable (Idle s names) :=
  inferInstanceAs (Decidable (_ ∨ _))

theorem group_insert_of_idle {a : AliasMap} {s : CallSite} {names : NameSet} (hs : s ∉ a.keys)
    (hidle : Idle s names) {t : CallSite} (ht : ¬ t.OffLine) :
    group (a.insert s names) t = a.group t := by
  rw [group_insert]
  split
  · next heq =>
    subst heq
    rw [group_of_not_mem_keys hs]
    exact hidle.resolve_left ht
  · rfl

theorem group_filter_of_idle {a : AliasMap} {keep : CallSite → NameSet → Bool}
    (hidle : ∀ s ∈ a.keys, keep s (a.group s) = false → Idle s (a.group s))
    {t : CallSite} (ht : ¬ t.OffLine) : group (a.filter keep) t = a.group t := by
  rw [group_filter]
  cases hkeep : keep t (a.group t) with
  | true => rfl
  | false =>
    by_cases hmem : t ∈ a.keys
    · exact ((hidle t hmem hkeep).resolve_left ht).symm
    · exact (group_of_not_mem_keys hmem).symm

end AliasMap

namespace Walk

theorem checkedRun_of_neg (w : Walk) (room : Option Nat) (entry : Method) {depth : Int}
    (h : depth < 0) (line : Option Int) :
    w.checkedRun room entry depth line =
      .error ⟨⟨[], false⟩, .invalid (.tooSmall .depth 0 depth)⟩ := by
  rw [checkedRun, recording, require_of_not (Int.not_le.mpr h)]
  rfl

theorem checkedRun_congr {w v : Walk} {entry : Method} {line : Option Int}
    (h : ∀ depth, w.story entry depth line = v.story entry depth line) (room : Option Nat)
    (depth : Int) :
    w.checkedRun room entry depth line = v.checkedRun room entry depth line := by
  cases depth with
  | ofNat depth =>
    simp only [Int.ofNat_eq_natCast, checkedRun, recording_eq, h depth]
  | negSucc depth =>
    have hneg : Int.negSucc depth < 0 := Int.negSucc_lt_zero depth
    rw [checkedRun_of_neg w room entry hneg, checkedRun_of_neg v room entry hneg]

theorem story_eq_of_same_groups {cs : List Call} {a b : AliasMap}
    (h : ∀ c ∈ cs, a.group (.ofCall c) = b.group (.ofCall c)) (p : Policy) (r : Rule)
    (entry : Method) (depth : Nat) (line : Option Int) :
    story ⟨.ofCalls cs, { p with aliases := a }, r.grouping⟩ entry depth line =
      story ⟨.ofCalls cs, { p with aliases := b }, r.grouping⟩ entry depth line := by
  let w : Walk := ⟨.ofCalls cs, { p with aliases := b }, r.grouping⟩
  have hagrees : w.Agrees (w.withAliases a) := by
    apply agrees_withAliases rfl (indexed_ofCalls _ _ _)
    intro m c hc
    exact h c (CallGraph.mem_callsFrom_ofCalls.mp hc).1
  exact hagrees.story_eq_of_length_eq rfl entry depth line

/-- Alias maps with the same groups at the sites of the recorded calls have the same runs: the same
writes, the same reports and the same result or failure, whatever the writer takes, at every depth.
So entries for a line that no call has, and groups without members, can be added and taken out. A
run has a result, and its checked run has it too exactly if all that it shows and reports can be
printed. -/
theorem idle_aliases_without_influence (cs : List Call) (p : Policy) (r : Rule) (entry : Method)
    (line : Option Int) :
    let walk (a : AliasMap) : Walk := ⟨.ofCalls cs, { p with aliases := a }, r.grouping⟩
    let SameRuns (a b : AliasMap) : Prop := ∀ room depth,
      (walk a).checkedRun room entry depth line = (walk b).checkedRun room entry depth line
    (∀ a b : AliasMap, (∀ c ∈ cs, a.group (.ofCall c) = b.group (.ofCall c)) → SameRuns a b) ∧
      (∀ (a : AliasMap) s names, s ∉ a.keys → AliasMap.Idle s names →
        SameRuns (a.insert s names) a) ∧
      (∀ (a : AliasMap) keep,
        (∀ s ∈ a.keys, keep s (a.group s) = false → AliasMap.Idle s (a.group s)) →
          SameRuns (a.filter keep) a) ∧
      ∀ a (depth : Nat), ∃ s, ((walk a).run none entry depth line).outcome = .ok s ∧
        ((∃ run, (walk a).checkedRun none entry depth line = .ok run ∧ run.outcome = .ok s) ↔
          ∀ e ∈ ((walk a).run none entry depth line).events, e.Printable) := by
  intro walk SameRuns
  have hsame (a b : AliasMap) (h : ∀ c ∈ cs, a.group (.ofCall c) = b.group (.ofCall c)) :
      SameRuns a b :=
    checkedRun_congr fun depth => story_eq_of_same_groups h p r entry depth line
  refine ⟨hsame, ?_, ?_, ?_⟩
  · intro a s names hs hidle
    apply hsame
    intro c _
    exact AliasMap.group_insert_of_idle hs hidle (CallSite.not_offLine_ofCall c)
  · intro a keep hidle
    apply hsame
    intro c _
    exact AliasMap.group_filter_of_idle hidle (CallSite.not_offLine_ofCall c)
  · intro a depth
    have houtcome := outcome_run (walk a) entry depth line
    refine ⟨_, houtcome, ?_, ?_⟩
    · rintro ⟨run, hrun, -⟩
      exact (checkedRun_eq_ok_iff.mp hrun).1
    · intro h
      exact ⟨_, checkedRun_eq_ok_iff.mpr ⟨h, rfl⟩, houtcome⟩

/-- A call at line 0 has a site without a line: an entry for line 0 adds no member to its group. -/
theorem entry_for_line_zero_unread :
    let main : Method := { name := "main", owner := "App" }
    let disk : Method := { name := "write", owner := "Disk" }
    let cloud : Method := { name := "write", owner := "Cloud" }
    let calls : List Call := [.make main disk (some 0), .make main cloud none]
    let zero : CallSite := ⟨"App", "write", 0⟩
    let other : CallSite := ⟨"App", "read", 7⟩
    let a : AliasMap := .ofList [(⟨"App", "write", -1⟩, .ofList ["Disk", "Cloud"])]
    let names : NameSet := .ofList ["Log"]
    let b := a.insert zero names
    let c := b.insert other names
    let keep (s : CallSite) (_ : NameSet) : Bool := !decide s.OffLine
    let run (a : AliasMap) : Except Stopped Run :=
      checkedRun ⟨.ofCalls calls, { aliases := a }, Rule.byAlias.grouping⟩ none main 0 none
    zero ∉ a.keys ∧ AliasMap.Idle zero names ∧ run b = run a ∧
      (∀ s ∈ b.keys, keep s (AliasMap.group b s) = false → AliasMap.Idle s (AliasMap.group b s)) ∧
      run (b.filter keep) = run b ∧
      (∀ d ∈ calls, AliasMap.group c (.ofCall d) = AliasMap.group b (.ofCall d)) ∧
      run c = run b ∧
      (run a).map Run.text =
        .ok ("Call tree\nmain() App linenumber=-1\n  write() Cloud:Disk linenumber=-1\n") := by
  intro main disk cloud calls zero other a names b c keep run
  have hzero : zero ∉ a.keys := by decide +revert
  have hidle : AliasMap.Idle zero names := by decide +revert
  have hreal : ∀ s ∈ b.keys,
      keep s (AliasMap.group b s) = false → AliasMap.Idle s (AliasMap.group b s) := by
    decide +revert
  have hgroups : ∀ d ∈ calls, AliasMap.group c (.ofCall d) = AliasMap.group b (.ofCall d) := by
    decide +revert
  have htext : (run a).map Run.text =
      .ok ("Call tree\nmain() App linenumber=-1\n  write() Cloud:Disk linenumber=-1\n") := by
    decide +kernel +revert
  obtain ⟨hsame, hinsert, hfilter, -⟩ :=
    idle_aliases_without_influence calls {} .byAlias main none
  exact ⟨hzero, hidle, hinsert a zero names hzero hidle none 0, hreal,
    hfilter b keep hreal none 0, hgroups, hsame c b hgroups none 0, htext⟩

end Walk

end CallTrace
