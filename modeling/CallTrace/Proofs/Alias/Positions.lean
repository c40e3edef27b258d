import CallTrace.Proofs.Alias.Picks
import Mathlib.Data.List.Basic

/-!
# Positions that are followed

Whether `Grouping.byAlias` follows a call depends on the calls before it alone: of the calls of one
site into its group the first one that the filter lets through stands for all of them. Duplicates of
a call are told apart by their positions.
-/

namespace CallTrace.Grouping

/-- The filter lets the call through, and it leads from the site into the group of the site. -/
def Enters (f : ClassFilter) (a : AliasMap) (s : CallSite) (c : Call) : Prop :=
  .ofCall c = s ∧ f.Follows c.callee.owner ∧ c.callee.owner ∈ a.group s

instance (f : ClassFilter) (a : AliasMap) (s : CallSite) (c : Call) :
    Decidable (Enters f a s c) :=
  inferInstanceAs (Decidable (_ ∧ _ ∧ _))

/-- The call at a position is let through and is not in the group of its site, or it is the first
one to enter this group. -/
def Kept (f : ClassFilter) (a : AliasMap) (cs : List Call) (i : Fin cs.length) : Prop :=
  f.Follows (cs.get i).callee.owner ∧
    ((cs.get i).callee.owner ∉ a.group (.ofCall (cs.get i)) ∨
      ∀ j < i, ¬ Enters f a (.ofCall (cs.get i)) (cs.get j))

instance (f : ClassFilter) (a : AliasMap) (cs : List Call) : DecidablePred (Kept f a cs) :=
  fun _ => inferInstanceAs (Decidable (_ ∧ (_ ∨ _)))

/-- The call at a position is let through, but another call stands for it. -/
def Dropped (f : ClassFilter) (a : AliasMap) (cs : List Call) (i : Fin cs.length) : Prop :=
  f.Follows (cs.get i).callee.owner ∧ ¬ Kept f a cs i

instance (f : ClassFilter) (a : AliasMap) (cs : List Call) : DecidablePred (Dropped f a cs) :=
  fun _ => inferInstanceAs (Decidable (_ ∧ ¬ _))

/-- What becomes of a call after the calls in `before`. -/
def pickAfter (f : ClassFilter) (a : AliasMap) (before : List Call) (c : Call) : Option Pick :=
  if ¬ f.Follows c.callee.owner then none
  else if c.callee.owner ∉ a.group (.ofCall c) ∨ ∀ d ∈ before, ¬ Enters f a (.ofCall c) d then
    some (.follow c)
  else some (.merge c)

/-- What becomes of the calls in `cs` after those in `before`, position by position. -/
def picksAfter (f : ClassFilter) (a : AliasMap) (before cs : List Call) : List Pick :=
  (List.finRange cs.length).filterMap fun i : Fin cs.length =>
    pickAfter f a (before ++ cs.take i) (cs.get i)

variable {f : ClassFilter} {a : AliasMap}

theorem picksAfter_cons (before : List Call) (c : Call) (cs : List Call) :
    picksAfter f a before (c :: cs) =
      (pickAfter f a before c).toList ++ picksAfter f a (before ++ [c]) cs := by
  have hpositions : List.finRange (c :: cs).length = 0 :: (List.finRange cs.length).map Fin.succ :=
    List.finRange_succ
  unfold picksAfter
  rw [hpositions, List.filterMap_cons, List.filterMap_map]
  cases h : pickAfter f a before c <;> simp [h, Function.comp_def]

/-- The sites whose groups the calls before enter. -/
def Entered (f : ClassFilter) (a : AliasMap) (seen : List CallSite) (before : List Call) : Prop :=
  ∀ s, s ∈ seen ↔ ∃ d ∈ before, Enters f a s d

namespace Entered

variable {seen : List CallSite} {before : List Call} (h : Entered f a seen before) {c : Call}

include h

theorem concat (hc : ∀ s, Enters f a s c → s ∈ seen) : Entered f a seen (before ++ [c]) := by
  intro s
  simp only [List.mem_append, List.mem_singleton, or_and_right, exists_or, exists_eq_left, ← h s]
  exact (or_iff_left_of_imp (hc s)).symm

theorem concat_cons (hf : f.Follows c.callee.owner) (hg : c.callee.owner ∈ a.group (.ofCall c)) :
    Entered f a (.ofCall c :: seen) (before ++ [c]) := by
  intro s
  have hc : Enters f a s c ↔ s = .ofCall c := by
    constructor
    · intro henters
      exact henters.1.symm
    · rintro rfl
      exact ⟨rfl, hf, hg⟩
  rw [List.mem_cons, h s, or_comm]
  simp [or_and_right, exists_or, hc]

end Entered

/-- The scan judges each call by those before it. -/
theorem scan_eq_picksAfter {seen : List CallSite} {before : List Call}
    (h : Entered f a seen before) (cs : List Call) :
    scan f a seen cs = picksAfter f a before cs := by
  induction cs generalizing seen before with
  | nil => rfl
  | cons c cs ih =>
    have hfirst : (∀ d ∈ before, ¬ Enters f a (.ofCall c) d) ↔ .ofCall c ∉ seen := by
      simp [h (.ofCall c)]
    rw [picksAfter_cons]
    by_cases hf : f.Follows c.callee.owner
    · by_cases hg : c.callee.owner ∈ a.group (.ofCall c)
      · by_cases hs : .ofCall c ∈ seen
        · have hrest := ih (h.concat fun s henters => henters.1 ▸ hs)
          simp [scan, pickAfter, hfirst, hf, hg, hs, hrest]
        · have hrest := ih (h.concat_cons hf hg)
          simp [scan, pickAfter, hfirst, hf, hg, hs, hrest]
      · have hout (s : CallSite) : ¬ Enters f a s c := by
          rintro ⟨rfl, -, hin⟩
          exact hg hin
        have hrest := ih (h.concat fun s henters => absurd henters (hout s))
        simp [scan, pickAfter, hf, hg, hrest]
    · have hrest := ih (h.concat fun s henters => absurd henters.2.1 hf)
      simp [scan, pickAfter, hf, hrest]

section

variable {cs : List Call} {i : Fin cs.length}

theorem forall_mem_take_iff {p : Call → Prop} :
    (∀ d ∈ cs.take i, p d) ↔ ∀ j < i, p (cs.get j) := by
  constructor
  · intro h j hj
    exact h (cs.get j) (List.mem_take_iff_getElem.mpr ⟨j, by omega, rfl⟩)
  · intro h d hd
    obtain ⟨j, hj, rfl⟩ := List.mem_take_iff_getElem.mp hd
    exact h ⟨j, by omega⟩ (by simp only [Fin.lt_def]; omega)

theorem pickAfter_take :
    pickAfter f a (cs.take i) (cs.get i) =
      if Kept f a cs i then some (.follow (cs.get i))
      else if Dropped f a cs i then some (.merge (cs.get i)) else none := by
  have hkept : Kept f a cs i ↔ f.Follows (cs.get i).callee.owner ∧
      ((cs.get i).callee.owner ∉ a.group (.ofCall (cs.get i)) ∨
        ∀ d ∈ cs.take i, ¬ Enters f a (.ofCall (cs.get i)) d) := by
    rw [Kept, forall_mem_take_iff]
  unfold pickAfter
  by_cases hf : f.Follows (cs.get i).callee.owner
  · rw [if_neg (not_not_intro hf)]
    by_cases hk : Kept f a cs i
    · rw [if_pos (hkept.mp hk).2, if_pos hk]
    · rw [if_neg fun h => hk (hkept.mpr ⟨hf, h⟩), if_neg hk, if_pos ⟨hf, hk⟩]
  · rw [if_pos hf, if_neg fun h => hf h.1, if_neg fun h => hf h.1]

end

theorem filterMap_ite {α β : Type _} (p : α → Prop) [DecidablePred p] (g : α → β) (l : List α) :
    l.filterMap (fun x => if p x then some (g x) else none) = (l.filter p).map g := by
  rw [← List.filterMap_eq_map', List.filterMap_filter]
  simp

theorem picks_eq_filterMap (cs : List Call) :
    byAlias.picks f a cs = (List.finRange cs.length).filterMap fun i =>
      if Kept f a cs i then some (.follow (cs.get i))
      else if Dropped f a cs i then some (.merge (cs.get i)) else none := by
  have hscan : scan f a [] cs = picksAfter f a [] cs := scan_eq_picksAfter (by simp [Entered]) cs
  exact hscan.trans (List.filterMap_congr fun i _ => pickAfter_take)

theorem followed_picks (cs : List Call) :
    Pick.followed (byAlias.picks f a cs) =
      ((List.finRange cs.length).filter fun i => Kept f a cs i).map cs.get := by
  rw [picks_eq_filterMap, Pick.followed, List.filterMap_filterMap, ← filterMap_ite]
  refine List.filterMap_congr fun i _ => ?_
  by_cases hk : Kept f a cs i
  · simp [hk, Pick.followed?]
  · by_cases hd : Dropped f a cs i <;> simp [hk, hd, Pick.followed?]

theorem logs_picks (cs : List Call) :
    (byAlias.picks f a cs).filterMap Pick.log? =
      ((List.finRange cs.length).filter fun i => Dropped f a cs i).map fun i =>
        Pick.mergeLog (cs.get i) := by
  rw [picks_eq_filterMap, List.filterMap_filterMap, ← filterMap_ite]
  refine List.filterMap_congr fun i _ => ?_
  by_cases hk : Kept f a cs i
  · have hd : ¬ Dropped f a cs i := fun h => h.2 hk
    simp [hk, hd, Pick.log?]
  · by_cases hd : Dropped f a cs i <;> simp [hk, hd, Pick.log?]

section

variable {cs : List Call} {i j k : Fin cs.length} {s : CallSite}

/-- The first call to enter a group is kept. -/
theorem exists_kept_of_enters (i : Fin cs.length) (h : Enters f a s (cs.get i)) :
    ∃ j, Kept f a cs j ∧ Enters f a s (cs.get j) := by
  by_cases hfirst : ∀ j < i, ¬ Enters f a (.ofCall (cs.get i)) (cs.get j)
  · exact ⟨i, ⟨h.2.1, .inr hfirst⟩, h⟩
  · obtain ⟨j, hj, henters⟩ : ∃ j < i, Enters f a (.ofCall (cs.get i)) (cs.get j) := by
      simpa using hfirst
    exact exists_kept_of_enters j (h.1 ▸ henters)
termination_by i

theorem not_lt_of_kept (hk : Kept f a cs k) (henters : Enters f a s (cs.get k))
    (h : Enters f a s (cs.get j)) : ¬ j < k := by
  intro hlt
  obtain ⟨rfl, -, hgroup⟩ := henters
  exact (hk.2.resolve_left (not_not_intro hgroup)) j hlt h

theorem existsUnique_kept_of_dropped (h : Dropped f a cs i) :
    ∃! j, Kept f a cs j ∧ Enters f a (.ofCall (cs.get i)) (cs.get j) := by
  have hgroup : (cs.get i).callee.owner ∈ a.group (.ofCall (cs.get i)) :=
    Decidable.not_not.mp fun hout => h.2 ⟨h.1, .inl hout⟩
  obtain ⟨j, hj, henters⟩ := exists_kept_of_enters i ⟨rfl, h.1, hgroup⟩
  refine ⟨j, ⟨hj, henters⟩, ?_⟩
  rintro k ⟨hk, henters'⟩
  exact Fin.le_antisymm (Fin.not_lt.mp (not_lt_of_kept hk henters' henters))
    (Fin.not_lt.mp (not_lt_of_kept hj henters henters'))

end

/-- Calls of which no two enter one group are all followed. -/
theorem scan_eq_followAll {seen : List CallSite} {cs : List Call}
    (hfollows : ∀ c ∈ cs, f.Follows c.callee.owner)
    (hnew : ∀ s ∈ seen, ∀ c ∈ cs, ¬ Enters f a s c)
    (halone : cs.Pairwise fun c d => ∀ s, Enters f a s c → ¬ Enters f a s d) :
    scan f a seen cs = followAll cs := by
  induction cs generalizing seen with
  | nil => rfl
  | cons c cs ih =>
    obtain ⟨hf, hfollows⟩ := List.forall_mem_cons.mp hfollows
    obtain ⟨hc, halone⟩ := List.pairwise_cons.mp halone
    have hrest : ∀ s ∈ seen, ∀ d ∈ cs, ¬ Enters f a s d :=
      fun s hs d hd => hnew s hs d (List.mem_cons_of_mem c hd)
    by_cases hg : c.callee.owner ∈ a.group (.ofCall c)
    · have henters : Enters f a (.ofCall c) c := ⟨rfl, hf, hg⟩
      have hs : .ofCall c ∉ seen := fun hs => hnew _ hs c List.mem_cons_self henters
      have hnew' : ∀ s ∈ .ofCall c :: seen, ∀ d ∈ cs, ¬ Enters f a s d :=
        List.forall_mem_cons.mpr ⟨fun d hd => hc d hd _ henters, hrest⟩
      simpa [scan, followAll, hf, hg, hs] using ih hfollows hnew' halone
    · simpa [scan, followAll, hf, hg] using ih hfollows hrest halone

theorem picks_followed_picks (cs : List Call) :
    byAlias.picks f a (Pick.followed (byAlias.picks f a cs)) =
      followAll (Pick.followed (byAlias.picks f a cs)) := by
  refine scan_eq_followAll ?_ ?_ ?_
  · intro c hc
    have hsub : (Pick.followed (byAlias.picks f a cs)).Sublist
        (cs.filter fun c => f.Follows c.callee.owner) := followed_scan_sublist [] cs
    simpa using (List.mem_filter.mp (hsub.subset hc)).2
  · simp
  · refine List.pairwise_filterMap.mpr ((pairwise_scan [] cs).imp ?_)
    intro k l hkl c hc d hd s hcs hds
    cases k with
    | merge _ => cases hc
    | follow _ =>
      cases l with
      | merge _ => cases hd
      | follow _ =>
        cases hc
        cases hd
        exact hkl s ⟨hcs.1, hcs.2.2⟩ ⟨hds.1, hds.2.2⟩

/-- Of the calls that the filter lets through exactly those are followed that are outside the groups
or the first into their group. Each of the others is reported, in order, and has exactly one followed
call of its site and group; the calls that the filter keeps out are not reported. To pick among the
followed calls again leaves all of them. -/
theorem one_call_stands_for_a_group (f : ClassFilter) (a : AliasMap) (cs : List Call) :
    let ps := byAlias.picks f a cs
    Pick.followed ps = ((List.finRange cs.length).filter fun i => Kept f a cs i).map cs.get ∧
      ps.filterMap Pick.log? =
        ((List.finRange cs.length).filter fun i => Dropped f a cs i).map (fun i =>
          .callMerged (.ofCall (cs.get i)) (cs.get i).callee) ∧
      (∀ i, Dropped f a cs i →
        ∃! j, Kept f a cs j ∧ CallSite.ofCall (cs.get j) = .ofCall (cs.get i) ∧
          (cs.get j).callee.owner ∈ a.group (.ofCall (cs.get i))) ∧
      Pick.followed (byAlias.picks f a (Pick.followed ps)) = Pick.followed ps := by
  intro ps
  refine ⟨followed_picks cs, logs_picks cs, ?_, ?_⟩
  · intro i hi
    have henters (j : Fin cs.length) :
        Kept f a cs j ∧ Enters f a (.ofCall (cs.get i)) (cs.get j) ↔
          Kept f a cs j ∧ CallSite.ofCall (cs.get j) = .ofCall (cs.get i) ∧
            (cs.get j).callee.owner ∈ a.group (.ofCall (cs.get i)) :=
      and_congr_right fun hkept => and_congr_right fun _ => and_iff_right hkept.1
    exact (existsUnique_congr henters).mp (existsUnique_kept_of_dropped hi)
  · rw [picks_followed_picks, followed_followAll]

/-- A call that the filter keeps out does not stand for its group. -/
example :
    let call (owner : String) (h : owner ≠ "") : Call :=
      { caller := { name := "main", owner := "M" }
        callee := { name := "run", owner, owner_ne := h }, line := some 5 }
    let a := call "A" (by decide)
    let b := call "B" (by decide)
    let c := call "C" (by decide)
    byAlias.picks { shown := ["B", "C"] } (.ofList [(.ofCall a, .ofList ["A", "B", "C"])])
      [a, b, c] = [.follow b, .merge c] := by
  decide

end CallTrace.Grouping
