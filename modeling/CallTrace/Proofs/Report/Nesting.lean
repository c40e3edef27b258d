import CallTrace.Report.Forest
import Mathlib.Data.List.Basic
import Mathlib.Data.List.TakeWhile

/-!
# The shape of a nested forest

The elements of a forest are numbered in preorder. In the forest that is nested from a list the
parent of an element is the nearest element before it that is less deep.
-/

namespace CallTrace.Report

theorem idxsOf_map_of_ne {β γ : Type _} [BEq γ] [LawfulBEq γ] {f : β → γ} {bs : List β} {c : γ}
    (h : ∀ b ∈ bs, f b ≠ c) (k : Nat) : (bs.map f).idxsOf c k = [] := by
  apply List.idxsOf_eq_nil_iff.mpr
  simpa using h

theorem idxsOf_map_of_injective {β γ : Type _} [BEq β] [LawfulBEq β] [BEq γ] [LawfulBEq γ]
    {f : β → γ} (hf : Function.Injective f) (b : β) (bs : List β) (k : Nat) :
    (bs.map f).idxsOf (f b) k = (bs.idxsOf b).map (· + k) := by
  have hsame : (fun c => f c == f b) = fun c => c == b := by
    funext c
    exact Bool.eq_iff_iff.mpr (by simp [hf.eq_iff])
  rw [← List.idxsOf_start, List.idxsOf_map]
  exact congrArg (bs.findIdxs · k) hsame

namespace Forest

variable {α : Type _}

/-- The number of a parent, counted from an element above. -/
def under (q : Option Nat) : Option Nat := some (q.elim 0 (· + 1))

/-- The number of a parent, counted from `n` elements earlier. -/
def behind (n : Nat) : Option Nat → Option Nat := Option.map (· + n)

/-- The number of the parent of each element; the elements at the top have none. -/
def parents : Forest α → List (Option Nat)
  | nil => []
  | cons _ below after =>
    none :: (below.parents.map under ++ after.parents.map (behind (below.preorder.length + 1)))

/-- The numbers of the elements at the top, in order. -/
def roots : Forest α → List Nat
  | nil => []
  | cons _ below after => 0 :: after.roots.map (· + (below.preorder.length + 1))

/-- The numbers of the children of each element, in order. -/
def children : Forest α → List (List Nat)
  | nil => []
  | cons _ below after =>
    below.roots.map (· + 1) :: (below.children.map (List.map (· + 1)) ++
      after.children.map (List.map (· + (below.preorder.length + 1))))

theorem under_injective : Function.Injective under := by
  rintro (_ | i) (_ | j) h
  · rfl
  · cases h
  · cases h
  · cases h
    rfl

theorem behind_injective (n : Nat) : Function.Injective (behind n) :=
  Option.map_injective fun _ _ => Nat.add_right_cancel

@[simp] theorem length_parents (f : Forest α) : f.parents.length = f.preorder.length := by
  induction f with
  | nil => rfl
  | cons a below after ihb iha => simp [parents, preorder, ihb, iha]

theorem lt_of_mem_parents {f : Forest α} {j : Nat} (h : some j ∈ f.parents) :
    j < f.preorder.length := by
  induction f generalizing j with
  | nil => cases h
  | cons a below after ihb iha =>
    rw [preorder, List.length_cons, List.length_append]
    rcases List.mem_cons.mp h with h | h
    · cases h
    · rcases List.mem_append.mp h with h | h
      · obtain ⟨q, hq, heq⟩ := List.mem_map.mp h
        obtain rfl : q.elim 0 (· + 1) = j := Option.some.inj heq
        cases q with
        | none => exact Nat.succ_pos _
        | some i => exact Nat.succ_lt_succ (Nat.lt_add_right _ (ihb hq))
      · obtain ⟨q, hq, heq⟩ := List.mem_map.mp h
        obtain ⟨i, rfl, rfl⟩ := Option.map_eq_some_iff.mp heq
        have := iha hq
        omega

section

variable (a : α) (below after : Forest α)

/-- The children of an element stand below the first element of a forest or after it. -/
theorem idxsOf_parents_cons {q : Option Nat} (hq : q ≠ none) :
    (cons a below after).parents.idxsOf q = (below.parents.map under).idxsOf q 1 ++
      (after.parents.map (behind (below.preorder.length + 1))).idxsOf q
        (below.preorder.length + 1) := by
  have hfirst : ¬ (none == q) = true := fun h => hq (eq_of_beq h).symm
  rw [parents, List.idxsOf_cons, if_neg hfirst, List.idxsOf_append, List.length_map,
    length_parents, Nat.zero_add, Nat.add_comm 1]

theorem idxsOf_none_parents_cons : (cons a below after).parents.idxsOf none =
    0 :: (after.parents.idxsOf none).map (· + (below.preorder.length + 1)) := by
  have hbelow : (below.parents.map under).idxsOf none 1 = [] :=
    idxsOf_map_of_ne (fun q _ => Option.some_ne_none _) 1
  have hafter := idxsOf_map_of_injective (behind_injective (below.preorder.length + 1)) none
    after.parents (below.preorder.length + 1)
  rw [parents, List.idxsOf_cons, if_pos BEq.rfl, List.idxsOf_append, Nat.zero_add, hbelow,
    List.nil_append, List.length_map, length_parents, Nat.add_comm 1]
  exact congrArg _ hafter

theorem idxsOf_under_parents_cons {q : Option Nat} (hq : ∀ j ∈ q, j < below.preorder.length) :
    (cons a below after).parents.idxsOf (under q) = (below.parents.idxsOf q).map (· + 1) := by
  have hbelow := idxsOf_map_of_injective under_injective q below.parents 1
  have hafter : (after.parents.map (behind (below.preorder.length + 1))).idxsOf (under q)
      (below.preorder.length + 1) = [] := by
    apply idxsOf_map_of_ne
    intro p _ h
    obtain ⟨i, -, hi⟩ := Option.map_eq_some_iff.mp h
    cases q with
    | none =>
      have : i + (below.preorder.length + 1) = 0 := hi
      omega
    | some j =>
      have : i + (below.preorder.length + 1) = j + 1 := hi
      have := hq j rfl
      omega
  have hall := idxsOf_parents_cons a below after (q := under q) (Option.some_ne_none _)
  rw [hall, hafter, List.append_nil]
  exact hbelow

theorem idxsOf_add_parents_cons (j : Nat) :
    (cons a below after).parents.idxsOf (some (j + (below.preorder.length + 1))) =
      (after.parents.idxsOf (some j)).map (· + (below.preorder.length + 1)) := by
  have hafter := idxsOf_map_of_injective (behind_injective (below.preorder.length + 1)) (some j)
    after.parents (below.preorder.length + 1)
  have hbelow : (below.parents.map under).idxsOf (some (j + (below.preorder.length + 1))) 1 = [] := by
    apply idxsOf_map_of_ne
    intro q hq h
    have hnumber : q.elim 0 (· + 1) = j + (below.preorder.length + 1) := Option.some.inj h
    cases q with
    | none =>
      have : 0 = j + (below.preorder.length + 1) := hnumber
      omega
    | some i =>
      have : i + 1 = j + (below.preorder.length + 1) := hnumber
      have := lt_of_mem_parents hq
      omega
  rw [idxsOf_parents_cons a below after (Option.some_ne_none _), hbelow, List.nil_append]
  exact hafter

end

theorem roots_eq (f : Forest α) : f.roots = f.parents.idxsOf none := by
  induction f with
  | nil => rfl
  | cons a below after ihb iha => rw [idxsOf_none_parents_cons, roots, iha]

/-- The children of an element are in the order in which they come in the forest. -/
theorem children_eq (f : Forest α) :
    f.children = (List.range f.preorder.length).map fun j => f.parents.idxsOf (some j) := by
  induction f with
  | nil => rfl
  | cons a below after ihb iha =>
    have hsize : (cons a below after).preorder.length =
        below.preorder.length + 1 + after.preorder.length := by
      rw [preorder, List.length_cons, List.length_append]
      omega
    rw [hsize, List.range_add, List.range_succ_eq_map, children, roots_eq, ihb, iha]
    simp only [List.cons_append, List.map_cons, List.map_append, List.map_map]
    congr 1
    · apply (idxsOf_under_parents_cons a below after (q := none) _).symm
      rintro _ ⟨⟩
    · congr 1
      · apply List.map_congr_left
        intro j hj
        apply (idxsOf_under_parents_cons a below after (q := some j) _).symm
        rintro _ ⟨⟩
        exact List.mem_range.mp hj
      · apply List.map_congr_left
        intro j _
        rw [Function.comp_apply, Function.comp_apply, Nat.add_comm _ j]
        exact (idxsOf_add_parents_cons ..).symm

end Forest

/-- The place of the last of the depths `ds` that is less than `d`. -/
def nearest (d : Nat) : List Nat → Option Nat
  | [] => none
  | e :: es => ((nearest d es).map (· + 1)).or (if e < d then some 0 else none)

/-- For each depth the nearest one before it that is less, `past` being the depths before them. -/
def nearests (past : List Nat) : List Nat → List (Option Nat)
  | [] => []
  | d :: ds => nearest d past :: nearests (past ++ [d]) ds

theorem nearest_append (d : Nat) (ds es : List Nat) :
    nearest d (ds ++ es) = (Forest.behind ds.length (nearest d es)).or (nearest d ds) := by
  induction ds with
  | nil => cases h : nearest d es <;> simp [Forest.behind, nearest, h]
  | cons e ds ih =>
    rw [List.cons_append, nearest, nearest, ih]
    cases nearest d es <;> simp [Forest.behind, Nat.add_assoc]

theorem nearest_eq_none_iff {d : Nat} {ds : List Nat} : nearest d ds = none ↔ ∀ e ∈ ds, d ≤ e := by
  induction ds with
  | nil => simp [nearest]
  | cons e ds ih => simp [nearest, ih, and_comm]

theorem nearest_concat_of_lt {d e : Nat} (h : e < d) (ds : List Nat) :
    nearest d (ds ++ [e]) = some ds.length := by
  simp [nearest_append, nearest, Forest.behind, h]

theorem nearest_concat_of_le {d e : Nat} (h : d ≤ e) (ds : List Nat) :
    nearest d (ds ++ [e]) = nearest d ds := by
  simp [nearest_append, nearest, Forest.behind, Nat.not_lt.mpr h]

theorem nearests_append (past ds es : List Nat) :
    nearests past (ds ++ es) = nearests past ds ++ nearests (past ++ ds) es := by
  induction ds generalizing past with
  | nil => simp [nearests]
  | cons d ds ih => simp [nearests, ih]

/-- Below an element the elements before it do not matter. -/
theorem nearests_cons_of_lt {d : Nat} {ds : List Nat} (h : ∀ e ∈ ds, d < e) (past : List Nat) :
    nearests (d :: past) ds = (nearests past ds).map Forest.under := by
  induction ds generalizing past with
  | nil => rfl
  | cons e ds ih =>
    obtain ⟨he, hds⟩ := List.forall_mem_cons.mp h
    have hfirst : nearest e (d :: past) = Forest.under (nearest e past) := by
      rw [nearest, if_pos he]
      cases nearest e past <;> rfl
    rw [nearests, nearests, List.map_cons, hfirst]
    exact congrArg _ (ih hds (past ++ [e]))

/-- After an element that is no deeper than all before it these do not matter. -/
theorem nearests_append_cons_of_le {d : Nat} {above : List Nat} (h : ∀ e ∈ above, d ≤ e)
    (past ds : List Nat) :
    nearests (above ++ d :: past) ds =
      (nearests (d :: past) ds).map (Forest.behind above.length) := by
  induction ds generalizing past with
  | nil => rfl
  | cons e ds ih =>
    have hfirst : nearest e (above ++ d :: past) =
        Forest.behind above.length (nearest e (d :: past)) := by
      rw [nearest_append]
      cases hnear : nearest e (d :: past) with
      | some j => rfl
      | none =>
        have hd : e ≤ d := nearest_eq_none_iff.mp hnear d List.mem_cons_self
        exact nearest_eq_none_iff.mpr fun x hx => Nat.le_trans hd (h x hx)
    rw [nearests, nearests, List.map_cons, hfirst]
    simpa using ih (past ++ [e])

theorem nearests_of_le {d : Nat} {above : List Nat} (h : ∀ e ∈ above, d ≤ e) (ds : List Nat) :
    nearests above (d :: ds) = (nearests [] (d :: ds)).map (Forest.behind above.length) := by
  rw [nearests, nearests, List.map_cons, nearest_eq_none_iff.mpr h, List.nil_append,
    nearests_append_cons_of_le h]
  rfl

/-- In a nested forest the parent of an element is the nearest element before it that is less
deep. -/
theorem parents_nest {α : Type _} (depth : α → Nat) (as : List α) :
    (Forest.nest depth as).parents = nearests [] (as.map depth) := by
  fun_induction Forest.nest depth as with
  | case1 => rfl
  | case2 a as ihb iha =>
    have hdeeper : ∀ e ∈ (as.takeWhile (depth a < depth ·)).map depth, depth a < e := by
      intro e he
      obtain ⟨b, hb, rfl⟩ := List.mem_map.mp he
      simpa using List.mem_takeWhile_imp hb
    have hafter : nearests (depth a :: (as.takeWhile (depth a < depth ·)).map depth)
        ((as.dropWhile (depth a < depth ·)).map depth) =
          (nearests [] ((as.dropWhile (depth a < depth ·)).map depth)).map
            (Forest.behind ((as.takeWhile (depth a < depth ·)).length + 1)) := by
      have hfirst := List.head?_dropWhile_not (fun b => decide (depth a < depth b)) as
      cases hrest : as.dropWhile (depth a < depth ·) with
      | nil => rfl
      | cons b bs =>
        rw [hrest] at hfirst
        have hle : depth b ≤ depth a := Nat.le_of_not_lt (of_decide_eq_false hfirst)
        have hall : ∀ e ∈ depth a :: (as.takeWhile (depth a < depth ·)).map depth, depth b ≤ e :=
          List.forall_mem_cons.mpr ⟨hle, fun e he => Nat.le_trans hle (Nat.le_of_lt (hdeeper e he))⟩
        rw [List.map_cons, nearests_of_le hall, List.length_cons, List.length_map]
    have hsplit : as.map depth = (as.takeWhile (depth a < depth ·)).map depth ++
        (as.dropWhile (depth a < depth ·)).map depth := by
      rw [← List.map_append, List.takeWhile_append_dropWhile]
    rw [Forest.parents, ihb, iha, Forest.preorder_nest, List.map_cons, nearests, hsplit,
      nearests_append, List.nil_append, nearests_cons_of_lt hdeeper, List.singleton_append, hafter]
    rfl

end CallTrace.Report
