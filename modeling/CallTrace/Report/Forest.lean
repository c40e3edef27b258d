/-!
# Forests

A forest is its first tree's root, the forest below that root and the forest of the trees after
it. `Forest.nest` hangs each element below the nearest element before it that is less deep.
-/

namespace CallTrace.Report

inductive Forest (α : Type _)
  | nil
  | cons (root : α) (below : Forest α) (after : Forest α)

namespace Forest

variable {α : Type _}

def isNil : Forest α → Bool
  | nil => true
  | cons .. => false

def preorder : Forest α → List α
  | nil => []
  | cons a below after => a :: (below.preorder ++ after.preorder)

/-- The elements right after the first one that are deeper than it are below it. -/
def nest (depth : α → Nat) : List α → Forest α
  | [] => nil
  | a :: as =>
    cons a (nest depth (as.takeWhile (depth a < depth ·)))
      (nest depth (as.dropWhile (depth a < depth ·)))
termination_by as => as.length
decreasing_by
  · exact Nat.lt_succ_of_le (List.takeWhile_prefix _).length_le
  · exact Nat.lt_succ_of_le (List.dropWhile_suffix _).length_le

@[simp] theorem nest_nil (depth : α → Nat) : nest depth [] = nil := by simp [nest]

theorem nest_cons (depth : α → Nat) (a : α) (as : List α) :
    nest depth (a :: as) =
      cons a (nest depth (as.takeWhile (depth a < depth ·)))
        (nest depth (as.dropWhile (depth a < depth ·))) := by
  rw [nest]

@[simp] theorem preorder_nest (depth : α → Nat) (as : List α) : (nest depth as).preorder = as := by
  fun_induction nest depth as with
  | case1 => rfl
  | case2 a as ih₁ ih₂ => simp [preorder, ih₁, ih₂]

end Forest

end CallTrace.Report
