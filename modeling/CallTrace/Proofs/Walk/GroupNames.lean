import CallTrace.Proofs.Alias.Picks
import CallTrace.Proofs.Walk.Expansions

/-!
# The names of groups

That a callee is one of a group is asked twice. The scan of the calls that leave a method looks for
the class of the callee in the group of the call site; the visit looks for it among the parts of
the name of the group. The two agree wherever class names do not contain the separator.
-/

namespace CallTrace.Walk

section

variable {w : Walk} {c : Call} (hdisplay : w.grouping.display = Grouping.joined)
  (hplain : ∀ n ∈ w.policy.aliases.group (.ofCall c), Trace.Plain n)

include hdisplay hplain

theorem nameAt_eq_joined_iff (howner : Trace.Plain c.callee.owner) :
    w.nameAt (.ofCall c) = Grouping.joined (w.policy.aliases.group (.ofCall c)) ↔
      c.callee.owner ∈ w.policy.aliases.group (.ofCall c) := by
  have hname := nameAt_ofCall hdisplay hplain
  constructor
  · intro hjoined
    apply (Grouping.mem_candidates_joined hplain c.callee.owner_ne).mp
    rw [← hjoined]
    exact owner_mem_candidates w howner
  · intro hmem
    exact hname.trans (if_pos hmem)

end

/-- What the visit of a callee shows, told by its name and the verdict on it. -/
theorem shown_visitAt_of_not_cut (w : Walk) {a : Arrival} (h : a.method.name ∉ w.policy.cutMethods)
    (d : Nat) :
    (w.visitAt d a).events.filterMap Event.shown? =
      if w.verdictAt a = .hidden then [] else [w.lineAt d a] := by
  have hshows : w.Shows a ↔ ¬ w.verdictAt a = .hidden := and_iff_right h
  simp only [shown_visitAt, hshows, ite_not]

/-- A callee is shown under the name of its group exactly if the scan of the calls took it for a
member, and otherwise under its own class; no two calls that one expansion follows are members of
the same group. -/
theorem group_name_iff_member (cs : List Call) (p : Policy)
    (howners : ∀ c ∈ cs, Trace.Plain c.callee.owner)
    (haliases : ∀ ns ∈ p.aliases.values, ∀ n ∈ ns, Trace.Plain n) (entry : Method) (depth : Nat)
    (line : Option Int) :
    let w : Walk := ⟨.ofCalls cs, p, .byAlias⟩
    ∀ x ∈ w.expansions entry depth line,
      (∀ t ∈ x.turns, Leads t.pick → t.call.callee.name ∉ p.cutMethods →
        let callee := t.call.callee
        let group := p.aliases.group (.ofCall t.call)
        let name := w.className callee t.call.lineNumber (some x.method.owner)
        name = (if callee.owner ∈ group then Grouping.joined group else callee.owner) ∧
        (name = Grouping.joined group ↔
          Grouping.Represents p.aliases (.ofCall t.call) t.pick) ∧
        t.visit.events <:+: (w.run none entry depth line).events ∧
        (t.visit.opens = true ↔ w.verdict callee name = .walked) ∧
        t.shown = if w.verdict callee name = .hidden then [] else
          [(shownLine callee name (x.depth + 1) t.call.lineNumber
            (w.verdict callee name = .sink), callee)]) ∧
      x.turns.Pairwise fun t u =>
        ∀ s, Grouping.Represents p.aliases s t.pick → ¬ Grouping.Represents p.aliases s u.pick := by
  intro w x hx
  have hw : w.Indexed := indexed_ofCalls cs p .byAlias
  have hsound := sound_of_mem_expansions hw hx
  constructor
  · intro t ht hlead hcut callee group name
    obtain ⟨hpick, hcaller, hvisit⟩ := hsound.of_mem_turns hw ht
    have hgroup : ∀ n ∈ group, Trace.Plain n := by
      intro n hn
      exact haliases _ (AliasMap.group_mem_values hn) n hn
    have howner : Trace.Plain callee.owner :=
      howners _ (call_mem_of_mem_offers hpick).1
    have hname : name = w.nameAt (.ofCall t.call) := by
      simp only [name, ← hcaller]
      rfl
    have hfollow : t.pick = .follow t.call := eq_follow_of_leads hlead
    have hglance : t.visit = w.visitAt (x.depth + 1) (.ofCall t.call) :=
      hvisit.trans (glance_of_leads hcaller hlead x.depth)
    refine ⟨?_, ?_, infix_run hx ht, ?_, ?_⟩
    · exact hname.trans (nameAt_ofCall rfl hgroup)
    · rw [hname, hfollow]
      exact (nameAt_eq_joined_iff rfl hgroup howner).trans (and_iff_right rfl).symm
    · rw [hglance, opens_visitAt, hname]
      exact and_iff_right hcut
    · rw [Turn.shown, hglance, shown_visitAt_of_not_cut w hcut, hname]
      rfl
  · rw [hsound.turns_eq]
    exact List.pairwise_map.mpr (Grouping.pairwise_scan [] _)

/-- Of three classes that answer one call two are aliases; the third is shown by itself. -/
theorem outsider_shown_beside_group :
    let start : Method := { name := "main", owner := "M" }
    let branch : Method := { name := "run", owner := "A" }
    let leaf : Method := { name := "run", owner := "B" }
    let outsider : Method := { name := "run", owner := "C" }
    let toBranch : Call := { caller := start, callee := branch, line := some 5 }
    let toLeaf : Call := { caller := start, callee := leaf, line := some 5 }
    let toOutsider : Call := { caller := start, callee := outsider, line := some 5 }
    let calls := [toBranch, toLeaf, toOutsider]
    let p : Policy := { aliases := .ofList [(⟨"M", "run", 5⟩, .ofList ["A", "B"])] }
    let w : Walk := ⟨.ofCalls calls, p, .byAlias⟩
    (∀ c ∈ calls, Trace.Plain c.callee.owner) ∧
      (∀ ns ∈ p.aliases.values, ∀ n ∈ ns, Trace.Plain n) ∧
      w.offers start = [.follow toBranch, .merge toLeaf, .follow toOutsider] ∧
      ∃ x ∈ w.expansions start 0 none, ∃ t ∈ x.turns, ∃ u ∈ x.turns,
        Leads t.pick ∧ Leads u.pick ∧ t.call.callee.name ∉ p.cutMethods ∧
        t.shown = [(⟨"run()", "A:B", 1, 5, false⟩, branch)] ∧
        w.className outsider 5 (some "M") = "C" ∧
        Grouping.Represents p.aliases ⟨"M", "run", 5⟩ t.pick ∧
        ¬ Grouping.Represents p.aliases ⟨"M", "run", 5⟩ u.pick := by
  intro start branch leaf outsider toBranch toLeaf toOutsider calls p w
  have howners : ∀ c ∈ calls, Trace.Plain c.callee.owner := by decide +revert
  have haliases : ∀ ns ∈ p.aliases.values, ∀ n ∈ ns.names, Trace.Plain n := by decide +revert
  have hoffers : w.offers start = [.follow toBranch, .merge toLeaf, .follow toOutsider] := by
    decide +revert
  have hexp : w.Expands start 0 none := by decide +revert
  have hbranch : .follow toBranch ∈ w.offers start := by decide +revert
  have houtsider : .follow toOutsider ∈ w.offers start := by decide +revert
  have hleads : Leads (.follow toBranch) ∧ Leads (.follow toOutsider) := by decide +revert
  have hcut : branch.name ∉ p.cutMethods := by decide +revert
  have hmember : branch.owner ∈ p.aliases.group (.ofCall toBranch) := of_decide_eq_true rfl
  have hother : outsider.owner ∉ p.aliases.group (.ofCall toOutsider) := of_decide_eq_true rfl
  have hjoined : Grouping.joined (p.aliases.group (.ofCall toBranch)) = "A:B" := by rfl
  have hverdict : w.verdict branch "A:B" = .walked := by rfl
  have hx := entry_mem_expansions hexp
  have ht := List.mem_map_of_mem (f := fun k => (⟨k, w.glance start 0 k⟩ : Turn)) hbranch
  have hu := List.mem_map_of_mem (f := fun k => (⟨k, w.glance start 0 k⟩ : Turn)) houtsider
  obtain ⟨hnames, -⟩ := group_name_iff_member calls p howners haliases start 0 none _ hx
  obtain ⟨hname, -, -, -, hshown⟩ := hnames _ ht hleads.1 hcut
  obtain ⟨hownName, -⟩ := hnames _ hu hleads.2 hcut
  have hgroupName : w.className branch 5 (some "M") = "A:B" :=
    hname.trans ((if_pos hmember).trans hjoined)
  refine ⟨howners, haliases, hoffers, _, hx, _, ht, _, hu, hleads.1, hleads.2, hcut, ?_,
    hownName.trans (if_neg hother), ⟨rfl, hmember⟩, fun h => hother h.2⟩
  refine hshown.trans ?_
  change (if w.verdict branch (w.className branch 5 (some "M")) = .hidden then [] else
    [(shownLine branch (w.className branch 5 (some "M")) 1 5
      (decide (w.verdict branch (w.className branch 5 (some "M")) = .sink)), branch)]) = _
  rw [hgroupName, hverdict]
  rfl

end CallTrace.Walk
