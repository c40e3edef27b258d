import CallTrace.Report.Forest
import Mathlib.Data.List.TakeWhile

/-!
# Rows

A row is a list that begins at some depth and gets nowhere less deep, so rows of one depth may follow
one another without an element of one coming below an element of another. What is below an element
can therefore be looked up, or taken out of the nested forest together with the element, row by row.
-/

namespace CallTrace.Report

variable {α β : Type _} {depth : α → Nat}

/-- A list that begins at depth `d` and has no element that is less deep. -/
structure Row (depth : α → Nat) (d : Nat) (as : List α) : Prop where
  head_eq : ∀ a ∈ as.head?, depth a = d
  le : ∀ a ∈ as, d ≤ depth a

namespace Row

variable {d : Nat} {as bs : List α}

theorem nil : Row depth d [] := by
  constructor <;> simp

theorem cons {a : α} (ha : depth a = d) (has : ∀ b ∈ as, d ≤ depth b) : Row depth d (a :: as) where
  head_eq := by
    rintro _ ⟨⟩
    exact ha
  le := List.forall_mem_cons.mpr ⟨Nat.le_of_eq ha.symm, has⟩

theorem append (ha : Row depth d as) (hb : Row depth d bs) : Row depth d (as ++ bs) := by
  cases as with
  | nil => exact hb
  | cons a as =>
    obtain ⟨-, has⟩ := List.forall_mem_cons.mp ha.le
    exact cons (ha.head_eq a rfl) (List.forall_mem_append.mpr ⟨has, hb.le⟩)

theorem flatMap {l : List β} {f : β → List α} (h : ∀ x ∈ l, Row depth d (f x)) :
    Row depth d (l.flatMap f) := by
  induction l with
  | nil => exact nil
  | cons x l ih =>
    obtain ⟨hx, hl⟩ := List.forall_mem_cons.mp h
    exact hx.append (ih hl)

/-- An element that is no deeper than a row has nothing of it below. -/
theorem takeWhile_eq_nil (h : Row depth d bs) {k : Nat} (hk : d ≤ k) :
    bs.takeWhile (k < depth ·) = [] := by
  cases bs with
  | nil => rfl
  | cons b bs =>
    have hb : ¬ k < depth b := by
      rw [h.head_eq b rfl]
      exact Nat.not_lt.mpr hk
    exact List.takeWhile_cons_of_neg (by simpa using hb)

/-- What is below an element does not reach into a row that begins no deeper than it. -/
theorem takeWhile_append (h : Row depth d bs) {k : Nat} (hk : d ≤ k) (as : List α) :
    (as ++ bs).takeWhile (k < depth ·) = as.takeWhile (k < depth ·) := by
  rw [List.takeWhile_append, h.takeWhile_eq_nil hk, List.append_nil]
  split
  · next hall => exact (List.takeWhile_prefix _).eq_of_length hall |>.symm
  · rfl

theorem dropWhile_append (h : Row depth d bs) {k : Nat} (hk : d ≤ k) (as : List α) :
    (as ++ bs).dropWhile (k < depth ·) = as.dropWhile (k < depth ·) ++ bs := by
  have hrow := List.takeWhile_append_dropWhile (p := (k < depth ·)) (l := bs)
  rw [h.takeWhile_eq_nil hk, List.nil_append] at hrow
  rw [List.dropWhile_append, hrow]
  split
  · next hnone => rw [List.isEmpty_iff.mp hnone, List.nil_append]
  · rfl

end Row

/-- `P` relates each element of a nested list to what is below it. -/
def BelowEach (depth : α → Nat) (P : α → List α → Prop) (as : List α) : Prop :=
  ∀ before a after, as = before ++ a :: after → P a (after.takeWhile (depth a < depth ·))

namespace BelowEach

variable {P : α → List α → Prop} {d : Nat} {as bs : List α}

theorem nil : BelowEach depth P [] := by
  intro before a after h
  simp at h

theorem cons {a : α} (ha : P a as) (hlt : ∀ b ∈ as, depth a < depth b)
    (has : BelowEach depth P as) : BelowEach depth P (a :: as) := by
  intro before b after h
  cases before with
  | nil =>
    obtain ⟨rfl, rfl⟩ := List.cons.inj h
    have hall : ∀ b ∈ as, decide (depth a < depth b) = true := by simpa using hlt
    rwa [List.takeWhile_eq_self_iff.mpr hall]
  | cons _ before => exact has before b after (List.cons.inj h).2

theorem append (ha : BelowEach depth P as) (hle : ∀ a ∈ as, d ≤ depth a)
    (hb : BelowEach depth P bs) (hrow : Row depth d bs) : BelowEach depth P (as ++ bs) := by
  intro before x after h
  rcases List.append_eq_append_iff.mp h with ⟨mid, -, hbs⟩ | ⟨mid, rfl, hafter⟩
  · exact hb mid x after hbs
  · cases mid with
    | nil => exact hb [] x after hafter.symm
    | cons y mid =>
      rw [List.cons_append] at hafter
      obtain ⟨rfl, rfl⟩ := List.cons.inj hafter
      have hx : d ≤ depth x := hle x (List.mem_append_right _ List.mem_cons_self)
      rw [hrow.takeWhile_append hx]
      exact ha before x mid rfl

theorem flatMap {l : List β} {f : β → List α} (h : ∀ x ∈ l, BelowEach depth P (f x))
    (hrow : ∀ x ∈ l, Row depth d (f x)) : BelowEach depth P (l.flatMap f) := by
  induction l with
  | nil => exact nil
  | cons x l ih =>
    obtain ⟨hx, hl⟩ := List.forall_mem_cons.mp h
    obtain ⟨hrowx, hrowl⟩ := List.forall_mem_cons.mp hrow
    exact hx.append hrowx.le (ih hl hrowl) (.flatMap hrowl)

end BelowEach

namespace Forest

section

variable (p : α → Prop) [DecidablePred p]

/-- Takes out each element that fits `p` together with all that is below it. -/
def without : Forest α → Forest α
  | nil => nil
  | cons a below after =>
    if p a then after.without else cons a below.without after.without

/-- What is left in order when the elements that fit `p` are taken out of a nested list together with
all that is below them. -/
def remaining (depth : α → Nat) (as : List α) : List α := ((nest depth as).without p).preorder

end

variable {p : α → Prop} [DecidablePred p] {d : Nat} {as bs : List α}

theorem without_sublist (f : Forest α) : (f.without p).preorder.Sublist f.preorder := by
  induction f with
  | nil => exact .slnil
  | cons a below after ihb iha =>
    rw [without]
    split
    · exact (iha.trans (List.sublist_append_right _ _)).cons a
    · exact (ihb.append iha).cons_cons a

theorem remaining_sublist (as : List α) : (remaining p depth as).Sublist as := by
  have hsub := without_sublist (p := p) (nest depth as)
  rwa [preorder_nest] at hsub

theorem remaining_nil : remaining p depth [] = [] := by
  rw [remaining, nest_nil]
  rfl

theorem remaining_cons (a : α) (as : List α) :
    remaining p depth (a :: as) =
      (if p a then [] else a :: remaining p depth (as.takeWhile (depth a < depth ·))) ++
        remaining p depth (as.dropWhile (depth a < depth ·)) := by
  rw [remaining, nest_cons, without]
  by_cases ha : p a
  · rw [if_pos ha, if_pos ha]
    rfl
  · rw [if_neg ha, if_neg ha]
    rfl

theorem remaining_cons_of_lt {a : α} (h : ∀ b ∈ as, depth a < depth b) :
    remaining p depth (a :: as) = if p a then [] else a :: remaining p depth as := by
  have hall : ∀ b ∈ as, decide (depth a < depth b) = true := by simpa using h
  rw [remaining_cons, List.takeWhile_eq_self_iff.mpr hall, List.dropWhile_eq_nil_iff.mpr hall,
    remaining_nil, List.append_nil]

theorem remaining_append (ha : ∀ a ∈ as, d ≤ depth a) (hb : Row depth d bs) :
    remaining p depth (as ++ bs) = remaining p depth as ++ remaining p depth bs := by
  induction as using nest.induct depth with
  | case1 => rw [remaining_nil]; rfl
  | case2 a as _ ih =>
    obtain ⟨hle, has⟩ := List.forall_mem_cons.mp ha
    have hrest : ∀ b ∈ as.dropWhile (depth a < depth ·), d ≤ depth b :=
      fun b hmem => has b ((List.dropWhile_suffix _).subset hmem)
    rw [List.cons_append, remaining_cons, remaining_cons, hb.takeWhile_append hle,
      hb.dropWhile_append hle, ih hrest, List.append_assoc]

theorem remaining_flatMap {l : List β} {f : β → List α} (h : ∀ x ∈ l, Row depth d (f x)) :
    remaining p depth (l.flatMap f) = l.flatMap fun x => remaining p depth (f x) := by
  induction l with
  | nil => exact remaining_nil
  | cons x l ih =>
    obtain ⟨hx, hl⟩ := List.forall_mem_cons.mp h
    rw [List.flatMap_cons, remaining_append hx.le (Row.flatMap hl), ih hl, List.flatMap_cons]

end Forest

end CallTrace.Report
