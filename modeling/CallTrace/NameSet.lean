/-!
# Sets of names

A set of names is the strictly increasing list of its members, by code points, so two sets with
the same members are equal.
-/

namespace CallTrace

structure NameSet where
  names : List String
  increasing : names.Pairwise (· < ·)
deriving DecidableEq

namespace NameSet

def empty : NameSet := ⟨[], .nil⟩

instance : Membership String NameSet := ⟨fun s n => n ∈ s.names⟩

instance (n : String) (s : NameSet) : Decidable (n ∈ s) :=
  inferInstanceAs (Decidable (n ∈ s.names))

theorem mem_def {n : String} {s : NameSet} : n ∈ s ↔ n ∈ s.names := Iff.rfl

theorem nodup (s : NameSet) : s.names.Nodup := s.increasing.imp String.ne_of_lt

theorem ext {s t : NameSet} (h : ∀ n, n ∈ s ↔ n ∈ t) : s = t := by
  have hperm : s.names.Perm t.names := (List.perm_ext_iff_of_nodup s.nodup t.nodup).mpr h
  have hnames : s.names = t.names :=
    hperm.eq_of_pairwise (fun _ _ _ _ hab hba => absurd hba (String.lt_asymm hab))
      s.increasing t.increasing
  cases s
  cases t
  cases hnames
  rfl

/-- The members are listed in the one way in which they are increasing. -/
theorem names_eq_iff {s : NameSet} {ns : List String} :
    s.names = ns ↔ ns.Pairwise (· < ·) ∧ ∀ n, n ∈ ns ↔ n ∈ s := by
  constructor
  · rintro rfl
    exact ⟨s.increasing, fun _ => Iff.rfl⟩
  · rintro ⟨hincreasing, hmem⟩
    have hset : s = ⟨ns, hincreasing⟩ := ext fun n => (hmem n).symm
    exact congrArg names hset

@[simp] theorem not_mem_empty {n : String} : n ∉ empty := fun h => nomatch mem_def.mp h

def place (n : String) : List String → List String
  | [] => [n]
  | m :: ms => if n < m then n :: m :: ms else if n = m then m :: ms else m :: place n ms

theorem mem_place {n m : String} {ms : List String} : m ∈ place n ms ↔ m = n ∨ m ∈ ms := by
  induction ms with
  | nil => simp [place]
  | cons a ms ih =>
    simp only [place]
    split
    · simp
    · split
      · next h => simp [h]
      · simp only [List.mem_cons, ih]
        exact or_left_comm

theorem pairwise_place {n : String} {ms : List String} (h : ms.Pairwise (· < ·)) :
    (place n ms).Pairwise (· < ·) := by
  induction ms with
  | nil => simp [place]
  | cons a ms ih =>
    obtain ⟨ha, hms⟩ := List.pairwise_cons.mp h
    simp only [place]
    split
    · next hn =>
      refine List.pairwise_cons.mpr ⟨fun b hb => ?_, h⟩
      rcases List.mem_cons.mp hb with rfl | hb
      · exact hn
      · exact String.lt_trans hn (ha b hb)
    · split
      · exact h
      · next hlt hne =>
        refine List.pairwise_cons.mpr ⟨fun b hb => ?_, ih hms⟩
        rcases mem_place.mp hb with rfl | hb
        · exact String.not_le.mp fun hle => hne (String.le_antisymm hle (String.not_lt.mp hlt))
        · exact ha b hb

def insert (s : NameSet) (n : String) : NameSet := ⟨place n s.names, pairwise_place s.increasing⟩

@[simp] theorem mem_insert {n m : String} {s : NameSet} : m ∈ s.insert n ↔ m = n ∨ m ∈ s :=
  mem_place

def ofList (ns : List String) : NameSet := ns.foldl insert empty

theorem mem_foldl_insert {m : String} {ns : List String} {s : NameSet} :
    m ∈ ns.foldl insert s ↔ m ∈ s ∨ m ∈ ns := by
  induction ns generalizing s with
  | nil => simp
  | cons n ns ih => simp [ih, or_assoc, or_left_comm]

@[simp] theorem mem_ofList {m : String} {ns : List String} : m ∈ ofList ns ↔ m ∈ ns := by
  simp [ofList, mem_foldl_insert]

/-- Order and repetitions in a list leave no mark on its set. -/
theorem ofList_eq_ofList_iff {ms ns : List String} :
    ofList ms = ofList ns ↔ ∀ n, n ∈ ms ↔ n ∈ ns := by
  constructor
  · intro h n
    rw [← mem_ofList, h, mem_ofList]
  · intro h
    apply ext
    simpa using h

def size (s : NameSet) : Nat := s.names.length

end NameSet

end CallTrace
