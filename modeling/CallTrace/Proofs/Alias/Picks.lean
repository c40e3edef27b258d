import CallTrace.Grouping

/-!
# Picked calls

Of the calls that leave a method `Grouping.byAlias` follows those outside the groups and, for each
call site, the first one in its group.
-/

namespace CallTrace

namespace Pick

@[simp] theorem followed_follow (c : Call) (ps : List Pick) :
    followed (.follow c :: ps) = c :: followed ps :=
  rfl

@[simp] theorem followed_merge (c : Call) (ps : List Pick) :
    followed (.merge c :: ps) = followed ps :=
  rfl

theorem mem_followed_iff {c : Call} {ps : List Pick} : c ∈ followed ps ↔ .follow c ∈ ps := by
  rw [followed, List.mem_filterMap]
  constructor
  · rintro ⟨k, hk, hc⟩
    cases k with
    | follow d =>
      obtain rfl := Option.some.inj hc
      exact hk
    | merge d => cases hc
  · intro hc
    exact ⟨.follow c, hc, rfl⟩

end Pick

namespace Grouping

variable {f : ClassFilter} {a : AliasMap}

/-- The call that stands for the group of a site. -/
def leader? (f : ClassFilter) (a : AliasMap) (s : CallSite) (cs : List Call) : Option Call :=
  cs.find? fun c => f.Follows c.callee.owner ∧ .ofCall c = s ∧ c.callee.owner ∈ a.group s

theorem leader?_cons_of {s : CallSite} {c : Call} (hf : f.Follows c.callee.owner)
    (hs : .ofCall c = s) (hg : c.callee.owner ∈ a.group s) (cs : List Call) :
    leader? f a s (c :: cs) = some c :=
  List.find?_cons_of_pos (decide_eq_true ⟨hf, hs, hg⟩)

theorem leader?_cons_of_not {s : CallSite} {c : Call}
    (h : ¬ (f.Follows c.callee.owner ∧ .ofCall c = s ∧ c.callee.owner ∈ a.group s))
    (cs : List Call) : leader? f a s (c :: cs) = leader? f a s cs := by
  apply List.find?_cons_of_neg
  simpa using h

theorem of_leader?_eq_some {s : CallSite} {c : Call} {cs : List Call}
    (h : leader? f a s cs = some c) :
    c ∈ cs ∧ f.Follows c.callee.owner ∧ .ofCall c = s ∧ c.callee.owner ∈ a.group s := by
  rw [leader?] at h
  exact ⟨List.mem_of_find?_eq_some h, by simpa using List.find?_some h⟩

theorem exists_leader {c : Call} {cs : List Call} (hc : c ∈ cs) (hf : f.Follows c.callee.owner)
    (hg : c.callee.owner ∈ a.group (.ofCall c)) :
    ∃ d, leader? f a (.ofCall c) cs = some d := by
  apply Option.isSome_iff_exists.mp
  rw [leader?, List.find?_isSome]
  exact ⟨c, hc, decide_eq_true ⟨hf, rfl, hg⟩⟩

/-- What makes the scan follow a call when the sites in `seen` have a followed call already. -/
def FollowedBy (f : ClassFilter) (a : AliasMap) (seen : List CallSite) (cs : List Call)
    (c : Call) : Prop :=
  c ∈ cs ∧ f.Follows c.callee.owner ∧
    (c.callee.owner ∉ a.group (.ofCall c) ∨
      .ofCall c ∉ seen ∧ leader? f a (.ofCall c) cs = some c)

theorem followedBy_cons_iff {seen : List CallSite} {c d : Call} {cs : List Call} (hne : c ≠ d)
    (h : .ofCall c ∉ seen → leader? f a (.ofCall c) (d :: cs) = leader? f a (.ofCall c) cs) :
    FollowedBy f a seen (d :: cs) c ↔ FollowedBy f a seen cs c := by
  have hmem : c ∈ d :: cs ↔ c ∈ cs := by
    rw [List.mem_cons]
    exact or_iff_right hne
  rw [FollowedBy, FollowedBy, hmem]
  refine and_congr_right' (and_congr_right' (or_congr_right (and_congr_right ?_)))
  intro hseen
  rw [h hseen]

theorem follow_mem_scan_iff {seen : List CallSite} {cs : List Call} {c : Call} :
    .follow c ∈ scan f a seen cs ↔ FollowedBy f a seen cs c := by
  fun_induction scan f a seen cs with
  | case1 seen => simp [FollowedBy]
  | case2 seen d cs hf ih =>
    rw [ih]
    by_cases hcd : c = d
    · subst hcd
      exact iff_of_false (fun h => hf h.2.1) (fun h => hf h.2.1)
    · refine (followedBy_cons_iff hcd ?_).symm
      intro _
      exact leader?_cons_of_not (fun h => hf h.1) cs
  | case3 seen d cs s hf hg ih =>
    rw [List.mem_cons, ih, Pick.follow.injEq]
    by_cases hcd : c = d
    · subst hcd
      exact iff_of_true (.inl rfl) ⟨List.mem_cons_self, Decidable.not_not.mp hf, .inl hg⟩
    · rw [or_iff_right hcd]
      refine (followedBy_cons_iff hcd ?_).symm
      intro _
      apply leader?_cons_of_not
      intro h
      rw [← h.2.1] at h
      exact hg h.2.2
  | case4 seen d cs s hf hg hs ih =>
    have hmerge : Pick.follow c ≠ .merge d := Pick.noConfusion
    rw [List.mem_cons, or_iff_right hmerge, ih]
    by_cases hcd : c = d
    · subst hcd
      have hgroup : c.callee.owner ∈ a.group (.ofCall c) := Decidable.not_not.mp hg
      have hno (xs : List Call) : ¬ FollowedBy f a seen xs c := by
        intro h
        cases h.2.2 with
        | inl hout => exact hout hgroup
        | inr hfirst => exact hfirst.1 hs
      exact iff_of_false (hno cs) (hno (c :: cs))
    · refine (followedBy_cons_iff hcd ?_).symm
      intro hseen
      apply leader?_cons_of_not
      intro h
      rw [← h.2.1] at hseen
      exact hseen hs
  | case5 seen d cs s hf hg hs ih =>
    have hfol : f.Follows d.callee.owner := Decidable.not_not.mp hf
    have hgroup : d.callee.owner ∈ a.group s := Decidable.not_not.mp hg
    rw [List.mem_cons, ih, Pick.follow.injEq]
    by_cases hcd : c = d
    · subst hcd
      exact iff_of_true (.inl rfl)
        ⟨List.mem_cons_self, hfol, .inr ⟨hs, leader?_cons_of hfol rfl hgroup cs⟩⟩
    · rw [or_iff_right hcd]
      by_cases hsite : .ofCall d = CallSite.ofCall c
      · -- the group of the site has its call with `d`
        have hfirst : leader? f a (.ofCall c) (d :: cs) = some d := by
          rw [← hsite]
          exact leader?_cons_of hfol rfl hgroup cs
        have hmem : c ∈ d :: cs ↔ c ∈ cs := by
          rw [List.mem_cons]
          exact or_iff_right hcd
        rw [FollowedBy, FollowedBy, hfirst, hmem]
        refine and_congr_right' (and_congr_right' (or_congr_right ?_))
        refine iff_of_false ?_ ?_
        · intro h
          exact h.1 (List.mem_cons.mpr (.inl hsite.symm))
        · intro h
          exact hcd (Option.some.inj h.2).symm
      · have hnew : .ofCall c ∉ s :: seen ↔ .ofCall c ∉ seen := by
          rw [List.mem_cons, or_iff_right (Ne.symm hsite)]
        have hrest : FollowedBy f a (s :: seen) cs c ↔ FollowedBy f a seen cs c := by
          rw [FollowedBy, FollowedBy, hnew]
        rw [hrest]
        refine (followedBy_cons_iff hcd ?_).symm
        intro _
        exact leader?_cons_of_not (fun h => hsite h.2.1) cs

/-- The pick follows a call into the group of the site. -/
def Represents (a : AliasMap) (s : CallSite) : Pick → Prop
  | .follow c => .ofCall c = s ∧ c.callee.owner ∈ a.group s
  | .merge _ => False

theorem not_mem_seen_of_represents {seen : List CallSite} {cs : List Call} {k : Pick}
    {s : CallSite} (hk : k ∈ scan f a seen cs) (hs : Represents a s k) : s ∉ seen := by
  cases k with
  | merge c => exact hs.elim
  | follow c =>
    obtain ⟨rfl, hgroup⟩ := hs
    obtain ⟨-, -, hout | ⟨hseen, -⟩⟩ := follow_mem_scan_iff.mp hk
    · exact absurd hgroup hout
    · exact hseen

/-- No two picks represent the group of one site. -/
theorem pairwise_scan (seen : List CallSite) (cs : List Call) :
    (scan f a seen cs).Pairwise fun k l => ∀ s, Represents a s k → ¬ Represents a s l := by
  fun_induction scan f a seen cs with
  | case1 seen => exact .nil
  | case2 seen c cs hf ih => exact ih
  | case3 seen c cs site hf hg ih =>
    refine List.pairwise_cons.mpr ⟨?_, ih⟩
    rintro l - s ⟨rfl, hgroup⟩
    exact absurd hgroup hg
  | case4 seen c cs site hf hg hs ih =>
    refine List.pairwise_cons.mpr ⟨?_, ih⟩
    intro l _ s hmerge
    exact hmerge.elim
  | case5 seen c cs site hf hg hs ih =>
    refine List.pairwise_cons.mpr ⟨?_, ih⟩
    rintro l hl s ⟨rfl, -⟩ hrep
    exact not_mem_seen_of_represents hl hrep List.mem_cons_self

/-- The groups of the sites take calls away and add none. -/
theorem followed_scan_sublist (seen : List CallSite) (cs : List Call) :
    (Pick.followed (scan f a seen cs)).Sublist (cs.filter fun c => f.Follows c.callee.owner) := by
  fun_induction scan f a seen cs with
  | case1 seen => exact .slnil
  | case2 seen c cs hf ih => simpa [hf] using ih
  | case3 seen c cs site hf hg ih => simpa [Decidable.not_not.mp hf] using ih
  | case4 seen c cs site hf hg hs ih => simpa [Decidable.not_not.mp hf] using ih.cons c
  | case5 seen c cs site hf hg hs ih => simpa [Decidable.not_not.mp hf] using ih

theorem followed_scan_of_no_groups (h : ∀ s n, n ∉ a.group s) (seen : List CallSite)
    (cs : List Call) :
    Pick.followed (scan f a seen cs) = cs.filter fun c => f.Follows c.callee.owner := by
  fun_induction scan f a seen cs with
  | case1 seen => rfl
  | case2 seen c cs hf ih => simpa [hf] using ih
  | case3 seen c cs site hf hg ih => simpa [Decidable.not_not.mp hf] using ih
  | case4 seen c cs site hf hg hs ih => exact absurd (h _ _) hg
  | case5 seen c cs site hf hg hs ih => exact absurd (h _ _) hg

/-- A scan that lets more calls through, and has sites behind it that the other has not, follows
nothing new among the calls on which the filters agree: a call that only it lets through may stand
for its group in place of another. -/
theorem filter_followed_scan_sublist {g : ClassFilter} {q : Call → Prop} [DecidablePred q]
    (hmore : ∀ n, f.Follows n → g.Follows n) {cs : List Call}
    (hagree : ∀ c ∈ cs, q c → g.Follows c.callee.owner → f.Follows c.callee.owner)
    {seen seen' : List CallSite} (hseen : seen ⊆ seen') :
    ((Pick.followed (scan g a seen' cs)).filter q).Sublist (Pick.followed (scan f a seen cs)) := by
  induction cs generalizing seen seen' with
  | nil => exact .slnil
  | cons c cs ih =>
    obtain ⟨hc, hagree⟩ := List.forall_mem_cons.mp hagree
    by_cases hf : f.Follows c.callee.owner
    · have hg := hmore _ hf
      by_cases hmem : c.callee.owner ∈ a.group (.ofCall c)
      · by_cases hs : .ofCall c ∈ seen
        · simpa [scan, hf, hg, hmem, hs, hseen hs] using ih hagree hseen
        · by_cases hs' : .ofCall c ∈ seen'
          · have hrest := ih hagree (List.cons_subset.mpr ⟨hs', hseen⟩)
            simpa [scan, hf, hg, hmem, hs, hs'] using hrest.cons c
          · have hrest := ih hagree (List.cons_subset_cons (.ofCall c) hseen)
            by_cases hq : q c
            · simpa [scan, hf, hg, hmem, hs, hs', hq] using hrest
            · simpa [scan, hf, hg, hmem, hs, hs', hq] using hrest.cons c
      · have hrest := ih hagree hseen
        by_cases hq : q c
        · simpa [scan, hf, hg, hmem, hq] using hrest
        · simpa [scan, hf, hg, hmem, hq] using hrest.cons c
    · by_cases hg : g.Follows c.callee.owner
      · -- what comes in here does not count, but it may take the place of its group
        have hq : ¬ q c := fun hq => hf (hc hq hg)
        by_cases hmem : c.callee.owner ∈ a.group (.ofCall c)
        · by_cases hs' : .ofCall c ∈ seen'
          · simpa [scan, hf, hg, hmem, hs', hq] using ih hagree hseen
          · have hrest := ih hagree (List.subset_cons_of_subset (.ofCall c) hseen)
            simpa [scan, hf, hg, hmem, hs', hq] using hrest
        · simpa [scan, hf, hg, hmem, hq] using ih hagree hseen
      · simpa [scan, hf, hg] using ih hagree hseen

/-- The calls before do not matter for those that come later, but for the sites of their groups. -/
theorem exists_scan_append (seen : List CallSite) (cs ds : List Call) :
    ∃ later, scan f a seen (cs ++ ds) = scan f a seen cs ++ scan f a later ds := by
  fun_induction scan f a seen cs with
  | case1 seen => exact ⟨seen, rfl⟩
  | case2 seen c cs hf ih =>
    obtain ⟨later, ih⟩ := ih
    refine ⟨later, ?_⟩
    rw [List.cons_append, scan, if_pos hf, ih]
  | case3 seen c cs s hf hg ih =>
    obtain ⟨later, ih⟩ := ih
    refine ⟨later, ?_⟩
    rw [List.cons_append, scan, if_neg hf, if_pos hg, ih, List.cons_append]
  | case4 seen c cs s hf hg hs ih =>
    obtain ⟨later, ih⟩ := ih
    refine ⟨later, ?_⟩
    rw [List.cons_append, scan, if_neg hf, if_neg hg, if_pos hs, ih, List.cons_append]
  | case5 seen c cs s hf hg hs ih =>
    obtain ⟨later, ih⟩ := ih
    refine ⟨later, ?_⟩
    rw [List.cons_append, scan, if_neg hf, if_neg hg, if_neg hs, ih, List.cons_append]

end Grouping

end CallTrace
