/-!
# Tables

A table holds at most one value for each key and keeps its keys in the order in which they first
came. Two tables agree when they look up the same value for every key.
-/

namespace CallTrace

structure Table (κ : Type _) (α : Type _) where
  entries : List (κ × α)
  keys_nodup : (entries.map Prod.fst).Nodup
deriving DecidableEq

namespace Table

variable {κ : Type _} {α : Type _} {β : Type _}

def empty : Table κ α := ⟨[], by simp⟩

def keys (t : Table κ α) : List κ := t.entries.map Prod.fst

def values (t : Table κ α) : List α := t.entries.map Prod.snd

def size (t : Table κ α) : Nat := t.entries.length

theorem keys_empty : (empty : Table κ α).keys = [] := rfl

def map (f : κ → α → β) (t : Table κ α) : Table κ β where
  entries := t.entries.map fun e => (e.1, f e.1 e.2)
  keys_nodup := by simpa [List.map_map, Function.comp_def] using t.keys_nodup

def filter (p : κ → α → Bool) (t : Table κ α) : Table κ α where
  entries := t.entries.filter fun e => p e.1 e.2
  keys_nodup := t.keys_nodup.sublist (List.filter_sublist.map Prod.fst)

variable [DecidableEq κ]

def find (k : κ) : List (κ × α) → Option α
  | [] => none
  | e :: es => if e.1 = k then some e.2 else find k es

def get? (t : Table κ α) (k : κ) : Option α := find k t.entries

@[simp] theorem get?_empty (k : κ) : (empty : Table κ α).get? k = none := rfl

theorem find_eq_none_iff {k : κ} {es : List (κ × α)} :
    find k es = none ↔ k ∉ es.map Prod.fst := by
  induction es with
  | nil => simp [find]
  | cons e es ih => by_cases h : e.1 = k <;> simp [find, h, ih, eq_comm (a := k)]

theorem get?_eq_none_iff {t : Table κ α} {k : κ} : t.get? k = none ↔ k ∉ t.keys :=
  find_eq_none_iff

theorem mem_of_find_eq_some {k : κ} {v : α} {es : List (κ × α)} (h : find k es = some v) :
    (k, v) ∈ es := by
  induction es with
  | nil => simp [find] at h
  | cons e es ih =>
    by_cases he : e.1 = k
    · simp only [find, he, if_pos, Option.some.injEq] at h
      exact List.mem_cons.mpr (.inl (Prod.ext he.symm h.symm))
    · simp only [find, he, if_false] at h
      exact List.mem_cons_of_mem _ (ih h)

theorem mem_values_of_get?_eq_some {t : Table κ α} {k : κ} {v : α} (h : t.get? k = some v) :
    v ∈ t.values :=
  List.mem_map.mpr ⟨(k, v), mem_of_find_eq_some h, rfl⟩

theorem find_eq_some_of_mem {k : κ} {v : α} {es : List (κ × α)}
    (hkeys : (es.map Prod.fst).Nodup) (h : (k, v) ∈ es) : find k es = some v := by
  induction es with
  | nil => exact absurd h List.not_mem_nil
  | cons e es ih =>
    obtain ⟨hnew, hkeys⟩ := List.nodup_cons.mp hkeys
    rcases List.mem_cons.mp h with rfl | h
    · exact if_pos rfl
    · have hne : e.1 ≠ k := by
        rintro rfl
        exact hnew (List.mem_map.mpr ⟨(e.1, v), h, rfl⟩)
      exact (if_neg hne).trans (ih hkeys h)

theorem exists_get?_of_mem_values {t : Table κ α} {v : α} (h : v ∈ t.values) :
    ∃ k, t.get? k = some v := by
  obtain ⟨e, he, rfl⟩ := List.mem_map.mp h
  exact ⟨e.1, find_eq_some_of_mem t.keys_nodup he⟩

/-- Sets the value at `k` to `f` of what stands there; a new key goes to the end. -/
def update (k : κ) (f : Option α → α) : List (κ × α) → List (κ × α)
  | [] => [(k, f none)]
  | e :: es => if e.1 = k then (k, f (some e.2)) :: es else e :: update k f es

theorem keys_update (k : κ) (f : Option α → α) (es : List (κ × α)) :
    (update k f es).map Prod.fst =
      if k ∈ es.map Prod.fst then es.map Prod.fst else es.map Prod.fst ++ [k] := by
  induction es with
  | nil => rfl
  | cons e es ih =>
    by_cases he : e.1 = k
    · simp [update, he]
    · have hk : k ≠ e.1 := fun h => he h.symm
      simp only [update, he, if_false, List.map_cons, ih, List.mem_cons, hk, false_or]
      split <;> rfl

theorem find_update (k j : κ) (f : Option α → α) (es : List (κ × α)) :
    find j (update k f es) = if j = k then some (f (find k es)) else find j es := by
  induction es with
  | nil => by_cases h : j = k <;> simp [update, find, h, eq_comm (a := k)]
  | cons e es ih =>
    by_cases he : e.1 = k
    · subst he
      by_cases h : j = e.1 <;> simp [update, find, h, eq_comm (a := e.1)]
    · by_cases h : j = k
      · subst h
        simp [update, find, he, ih]
      · by_cases hj : e.1 = j <;> simp [update, find, he, h, hj, ih]

def alter (t : Table κ α) (k : κ) (f : Option α → α) : Table κ α where
  entries := update k f t.entries
  keys_nodup := by
    rw [keys_update]
    split
    · exact t.keys_nodup
    · next h =>
      refine List.nodup_append.mpr ⟨t.keys_nodup, by simp, ?_⟩
      rintro a ha b hb rfl
      exact h (by rwa [← List.mem_singleton.mp hb])

theorem get?_alter (t : Table κ α) (k j : κ) (f : Option α → α) :
    (t.alter k f).get? j = if j = k then some (f (t.get? k)) else t.get? j :=
  find_update k j f t.entries

theorem mem_keys_alter {t : Table κ α} {k j : κ} {f : Option α → α} :
    j ∈ (t.alter k f).keys ↔ j ∈ t.keys ∨ j = k := by
  simp only [keys, alter, keys_update]
  split
  · next h =>
    refine ⟨.inl, fun hj => hj.elim id ?_⟩
    rintro rfl
    exact h
  · simp

def insert (t : Table κ α) (k : κ) (v : α) : Table κ α := t.alter k fun _ => v

theorem get?_insert (t : Table κ α) (k j : κ) (v : α) :
    (t.insert k v).get? j = if j = k then some v else t.get? j :=
  get?_alter t k j _

/-- The last value given for a key counts. -/
def ofList (es : List (κ × α)) : Table κ α := es.foldl (fun t e => t.insert e.1 e.2) empty

end Table

end CallTrace
