import CallTrace.Walk.Event

/-!
# Summaries

What a walk has written, in figures, and the sinks that it has shown, in order and with
repetitions.
-/

namespace CallTrace.Walk

structure Summary where
  lines : Nat
  sinks : List Method
  /-- The greatest depth shown, and -1 if nothing is shown. -/
  deepest : Int
deriving DecidableEq

namespace Summary

def check (s : Summary) : Checked Summary := do
  let _ ← require (s.sinks.length ≤ s.lines) .moreSinksThanLines
  return s

/-- A summary from figures that have not been checked yet. -/
def make (lines : Int) (sinks : List Method) (deepest : Int) :
    Checked Summary := do
  let _ ← require (0 ≤ lines) (.tooSmall .linesWritten 0 lines)
  check ⟨lines.toNat, sinks, deepest⟩

theorem make_of {s : Summary} (h : s.sinks.length ≤ s.lines) :
    make s.lines s.sinks s.deepest = .ok s := by
  unfold make check
  rw [require_of (Int.natCast_nonneg s.lines), require_of (by simpa using h)]
  rfl

def greatestDepth (ls : List Trace.Line) : Int := ls.foldl (fun d l => max d l.depth) (-1)

theorem foldl_max_depth (ls : List Trace.Line) (d : Int) :
    let deepest := ls.foldl (fun d l => max d l.depth) d
    d ≤ deepest ∧ (∀ l ∈ ls, l.depth ≤ deepest) ∧ (deepest = d ∨ ∃ l ∈ ls, l.depth = deepest) := by
  induction ls generalizing d with
  | nil => simp
  | cons l ls ih =>
    obtain ⟨hd, hls, heq⟩ := ih (max d l.depth)
    refine ⟨Int.le_trans (Int.le_max_left ..) hd,
      List.forall_mem_cons.mpr ⟨Int.le_trans (Int.le_max_right ..) hd, hls⟩, ?_⟩
    rcases heq with heq | ⟨k, hk, heq⟩
    · rcases Int.le_total l.depth d with hle | hle
      · exact .inl (heq.trans (Int.max_eq_left hle))
      · exact .inr ⟨l, List.mem_cons_self, (heq.trans (Int.max_eq_right hle)).symm⟩
    · exact .inr ⟨k, List.mem_cons_of_mem l hk, heq⟩

theorem le_greatestDepth {ls : List Trace.Line} {l : Trace.Line} (hl : l ∈ ls) :
    l.depth ≤ greatestDepth ls :=
  (foldl_max_depth ls (-1)).2.1 l hl

theorem greatestDepth_eq_neg_one_iff {ls : List Trace.Line} : greatestDepth ls = -1 ↔ ls = [] := by
  constructor
  · intro h
    apply List.eq_nil_iff_forall_not_mem.mpr
    intro l hl
    have := le_greatestDepth hl
    omega
  · rintro rfl
    rfl

theorem exists_depth_eq_greatestDepth {ls : List Trace.Line} (h : ls ≠ []) :
    ∃ l ∈ ls, l.depth = greatestDepth ls :=
  (foldl_max_depth ls (-1)).2.2.resolve_left fun heq => h (greatestDepth_eq_neg_one_iff.mp heq)

def ofShown (ls : List (Trace.Line × Method)) : Summary where
  lines := ls.length
  sinks := (ls.filter (·.1.isSink)).map Prod.snd
  deepest := greatestDepth (ls.map Prod.fst)

theorem length_sinks_ofShown_le (ls : List (Trace.Line × Method)) :
    (ofShown ls).sinks.length ≤ (ofShown ls).lines := by
  simpa [ofShown] using List.length_filter_le _ ls

end Summary

end CallTrace.Walk
