import CallTrace.Proofs.Report.Nesting
import CallTrace.Trace.Line

/-!
# Elements hung up one after the other

A tree can be built from a list in one pass that never looks back: the elements below which others
may still come are kept as hooks, the last one first, and each element hangs on the first hook that
is less deep. This is the forest that is nested from the list, whatever the depths are.
-/

namespace CallTrace.Report

/-- An element below which later elements may hang. -/
structure Hook where
  depth : Nat
  number : Nat

/-- The hooks from the first one on that is less deep than `d`. -/
def hooksFor (d : Nat) (hooks : List Hook) : List Hook := hooks.dropWhile (d ≤ ·.depth)

/-- The number of the element on which an element at depth `d` hangs, none if it is at the top. -/
def hungOn (d : Nat) (hooks : List Hook) : Option Nat := (hooksFor d hooks).head?.map Hook.number

/-- For elements at the depths `ds`, counted from `n`, the numbers of the elements on which they
hang. Each becomes a hook and replaces those that are no less deep. -/
def hang (hooks : List Hook) (n : Nat) : List Nat → List (Option Nat)
  | [] => []
  | d :: ds => hungOn d hooks :: hang (⟨d, n⟩ :: hooksFor d hooks) (n + 1) ds

theorem hooksFor_cons_of_lt {d : Nat} {h : Hook} (hlt : h.depth < d) (hooks : List Hook) :
    hooksFor d (h :: hooks) = h :: hooks :=
  List.dropWhile_cons_of_neg (by simpa using hlt)

theorem hooksFor_cons_of_le {d : Nat} {h : Hook} (hle : d ≤ h.depth) (hooks : List Hook) :
    hooksFor d (h :: hooks) = hooksFor d hooks :=
  List.dropWhile_cons_of_pos (by simpa using hle)

/-- A hook that is taken off is of no use to an element that is no deeper. -/
theorem hooksFor_hooksFor {d e : Nat} (hle : d ≤ e) (hooks : List Hook) :
    hooksFor d (hooksFor e hooks) = hooksFor d hooks := by
  induction hooks with
  | nil => rfl
  | cons h hooks ih =>
    by_cases he : e ≤ h.depth
    · rw [hooksFor_cons_of_le he, hooksFor_cons_of_le (Nat.le_trans hle he), ih]
    · rw [hooksFor_cons_of_lt (Nat.lt_of_not_le he)]

/-- The hooks give every element the nearest of the depths in `past` that is less. -/
def Serves (hooks : List Hook) (past : List Nat) : Prop := ∀ d, hungOn d hooks = nearest d past

theorem serves_nil : Serves [] [] := fun _ => rfl

theorem Serves.push {hooks : List Hook} {past : List Nat} (h : Serves hooks past) (e : Nat) :
    Serves (⟨e, past.length⟩ :: hooksFor e hooks) (past ++ [e]) := by
  intro d
  -- an element that is no deeper than the new hook passes it and asks the hooks that were left
  by_cases hd : d ≤ e
  · rw [nearest_concat_of_le hd, ← h d, hungOn, hooksFor_cons_of_le hd, hooksFor_hooksFor hd,
      hungOn]
  · have hlt : e < d := Nat.lt_of_not_le hd
    rw [nearest_concat_of_lt hlt, hungOn, hooksFor_cons_of_lt hlt]
    rfl

theorem Serves.hang_eq {hooks : List Hook} {past : List Nat} (h : Serves hooks past)
    (ds : List Nat) : hang hooks past.length ds = nearests past ds := by
  induction ds generalizing hooks past with
  | nil => rfl
  | cons d ds ih =>
    have hrest := ih (h.push d)
    rw [List.length_append, List.length_singleton] at hrest
    rw [hang, nearests, h d, hrest]

theorem nearest_eq_some_iff {d : Nat} {ds : List Nat} {j : Nat} :
    nearest d ds = some j ↔ ∃ front e between, ds = front ++ e :: between ∧ front.length = j ∧
      e < d ∧ ∀ x ∈ between, d ≤ x := by
  constructor
  · intro h
    induction ds generalizing j with
    | nil => cases h
    | cons e es ih =>
      rw [nearest] at h
      cases hes : nearest d es with
      | some i =>
        obtain ⟨front, x, between, rfl, rfl, hlt, hbetween⟩ := ih hes
        obtain rfl : front.length + 1 = j := by simpa [hes] using h
        exact ⟨e :: front, x, between, rfl, rfl, hlt, hbetween⟩
      | none =>
        obtain ⟨hlt, rfl⟩ : e < d ∧ 0 = j := by simpa [hes] using h
        exact ⟨[], e, es, rfl, rfl, hlt, nearest_eq_none_iff.mp hes⟩
  · rintro ⟨front, e, between, rfl, rfl, hlt, hbetween⟩
    have hlast : nearest d (e :: between) = some 0 := by
      rw [nearest, nearest_eq_none_iff.mpr hbetween, if_pos hlt]
      rfl
    rw [nearest_append, hlast]
    simp [Forest.behind]

theorem length_nearests (past ds : List Nat) : (nearests past ds).length = ds.length := by
  induction ds generalizing past with
  | nil => rfl
  | cons d ds ih => rw [nearests, List.length_cons, ih, List.length_cons]

theorem getElem?_nearests (past before after : List Nat) (d : Nat) :
    (nearests past (before ++ d :: after))[before.length]? = some (nearest d (past ++ before)) := by
  have hlength := length_nearests past before
  rw [nearests_append, List.getElem?_append_right (Nat.le_of_eq hlength), hlength, Nat.sub_self]
  rfl

namespace Forest

variable {α : Type _}

theorem takeWhile_parents (below after : Forest α) (n : Nat) :
    (below.parents.map under ++ after.parents.map (behind n)).takeWhile Option.isSome =
      below.parents.map under := by
  have hbelow : ∀ q ∈ below.parents.map under, q.isSome = true := by
    intro q hq
    obtain ⟨p, -, rfl⟩ := List.mem_map.mp hq
    rfl
  have hafter : (after.parents.map (behind n)).takeWhile Option.isSome = [] := by
    cases after with
    | nil => rfl
    | cons => rfl
  rw [List.takeWhile_append_of_pos hbelow, hafter, List.append_nil]

/-- A forest is known from its elements in preorder and the numbers of their parents. -/
theorem eq_of_parents {f g : Forest α} (hpreorder : f.preorder = g.preorder)
    (hparents : f.parents = g.parents) : f = g := by
  induction f generalizing g with
  | nil =>
    cases g with
    | nil => rfl
    | cons => cases hpreorder
  | cons a below after ihb iha =>
    cases g with
    | nil => cases hpreorder
    | cons b below' after' =>
      obtain ⟨rfl, helements⟩ := List.cons.inj hpreorder
      have hnumbers := (List.cons.inj hparents).2
      -- the parents below the first element end where an element at the top follows
      have hunder : below.parents.map under = below'.parents.map under := by
        rw [← takeWhile_parents below after, hnumbers, takeWhile_parents]
      have hbelow : below.parents = below'.parents := under_injective.list_map hunder
      have hsize : below.preorder.length = below'.preorder.length := by
        rw [← length_parents, ← length_parents, hbelow]
      obtain ⟨hin, hout⟩ := List.append_inj helements hsize
      rw [hunder, hsize] at hnumbers
      have hbehind := List.append_cancel_left hnumbers
      rw [ihb hin hbelow, iha hout ((behind_injective _).list_map hbehind)]

end Forest

theorem exists_split_map_iff {α β : Type _} {f : α → β} {as : List α} {j : Nat}
    {P Q : β → Prop} :
    (∃ front e between, as.map f = front ++ e :: between ∧ front.length = j ∧ P e ∧
        ∀ x ∈ between, Q x) ↔
      ∃ front a between, as = front ++ a :: between ∧ front.length = j ∧ P (f a) ∧
        ∀ x ∈ between, Q (f x) := by
  constructor
  · rintro ⟨front, e, between, has, rfl, he, hbetween⟩
    obtain ⟨front, rest, rfl, rfl, hrest⟩ := List.map_eq_append_iff.mp has
    obtain ⟨a, between, rfl, rfl, rfl⟩ := List.map_eq_cons_iff.mp hrest
    exact ⟨front, a, between, rfl, (List.length_map f).symm, he, List.forall_mem_map.mp hbetween⟩
  · rintro ⟨front, a, between, rfl, rfl, ha, hbetween⟩
    exact ⟨front.map f, f a, between.map f, by simp, List.length_map f, ha,
      List.forall_mem_map.mpr hbetween⟩

/-- Whatever the depths of the elements are, the forest nested from a list has each of them once, in
the order of the list. The parent of an element is the nearest element before it that is less deep,
which is the one on which it hangs when the elements are hung up one after the other, and the
children of an element are in the order in which they were hung on it. No other forest has these
elements and parents. -/
theorem elements_hang_on_nearest {α : Type _} (depth : α → Nat) (as : List α) :
    let tree := Forest.nest depth as
    let hung := hang [] 0 (as.map depth)
    tree.preorder = as ∧ tree.parents = hung ∧ tree.roots = hung.idxsOf none ∧
      tree.children = (List.range as.length).map (fun j => hung.idxsOf (some j)) ∧
      (∀ f : Forest α, f.preorder = as ∧ f.parents = hung ↔ f = tree) ∧
      ∀ before a after, as = before ++ a :: after →
        ∃ q, tree.parents[before.length]? = some q ∧
          (q = none ↔ ∀ b ∈ before, depth a ≤ depth b) ∧
          ∀ j, q = some j ↔ ∃ front b between, before = front ++ b :: between ∧
            front.length = j ∧ depth b < depth a ∧ ∀ c ∈ between, depth a ≤ depth c := by
  intro tree hung
  have hpreorder : tree.preorder = as := Forest.preorder_nest depth as
  have hnearests : hung = nearests [] (as.map depth) := serves_nil.hang_eq (as.map depth)
  have hparents : tree.parents = hung := (parents_nest depth as).trans hnearests.symm
  refine ⟨hpreorder, hparents, ?_, ?_, ?_, ?_⟩
  · rw [Forest.roots_eq, hparents]
  · rw [Forest.children_eq, hparents, hpreorder]
  · intro f
    constructor
    · rintro ⟨helements, hnumbers⟩
      exact Forest.eq_of_parents (helements.trans hpreorder.symm) (hnumbers.trans hparents.symm)
    · rintro rfl
      exact ⟨hpreorder, hparents⟩
  · rintro before a after rfl
    have hplace := getElem?_nearests [] (before.map depth) (after.map depth) (depth a)
    rw [List.length_map, List.nil_append, ← List.map_cons, ← List.map_append, ← hnearests,
      ← hparents] at hplace
    refine ⟨nearest (depth a) (before.map depth), hplace, ?_, ?_⟩
    · rw [nearest_eq_none_iff, List.forall_mem_map]
    · intro j
      rw [nearest_eq_some_iff, exists_split_map_iff]

/-- The first line is not at the margin, the second one skips a level, and the third one comes back
to a level at which there was no line. -/
theorem skipped_levels_nested :
    let row (depth : Nat) : Trace.Line := { signature := "run()", className := "App", depth }
    let ls := [2, 4, 3, 1, 3, 0].map row
    let tree := Forest.nest Trace.Line.depth ls
    tree.preorder = ls ∧ tree.parents = [none, some 0, some 0, none, some 3, none] ∧
      tree.roots = [0, 3, 5] ∧ tree.children = [[1, 2], [], [], [4], [], []] := by
  intro row ls tree
  obtain ⟨hpreorder, hparents, hroots, hchildren, -⟩ :=
    elements_hang_on_nearest Trace.Line.depth ls
  exact ⟨hpreorder, hparents.trans rfl, hroots.trans rfl, hchildren.trans rfl⟩

end CallTrace.Report
