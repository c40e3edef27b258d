import CallTrace.Walk.Visit

/-!
# The index of a recorded graph

In a graph that was recorded call by call the indexes are in step with the calls: each gives for a
method exactly the calls that leave or enter it, in the order in which they were recorded.
-/

namespace CallTrace

namespace CallGraph

/-- The table lists the calls under their keys, in order and with repetitions. -/
structure Indexes (key : Call → Method) (t : Table Method (List Call)) (cs : List Call) : Prop where
  get?_eq : ∀ m, (t.get? m).getD [] = cs.filter fun c => key c = m
  mem_keys_iff : ∀ m, m ∈ t.keys ↔ ∃ c ∈ cs, key c = m
  indexed_eq : indexed t = cs.length

theorem length_flatten_update (m : Method) (c : Call) (es : List (Method × List Call)) :
    ((Table.update m (appendCall c) es).map Prod.snd).flatten.length =
      (es.map Prod.snd).flatten.length + 1 := by
  induction es with
  | nil => rfl
  | cons e es ih =>
    by_cases he : e.1 = m
    · simp only [Table.update, he, if_true, appendCall, Option.getD_some, List.map_cons,
        List.flatten_cons, List.length_append, List.length_singleton]
      omega
    · simp only [Table.update, he, if_false, List.map_cons, List.flatten_cons, List.length_append,
        ih]
      omega

theorem Indexes.empty (key : Call → Method) : Indexes key .empty [] where
  get?_eq _ := rfl
  mem_keys_iff _ := by simp [Table.keys_empty]
  indexed_eq := rfl

theorem Indexes.concat {key : Call → Method} {t : Table Method (List Call)} {cs : List Call}
    (h : Indexes key t cs) (c : Call) :
    Indexes key (t.alter (key c) (appendCall c)) (cs ++ [c]) where
  get?_eq m := by
    rw [Table.get?_alter, List.filter_append, ← h.get?_eq m]
    by_cases hm : m = key c
    · simp [hm, appendCall]
    · have hm' : key c ≠ m := fun heq => hm heq.symm
      simp [hm, hm']
  mem_keys_iff m := by
    rw [Table.mem_keys_alter, h.mem_keys_iff]
    simp [or_and_right, exists_or, eq_comm (a := m)]
  indexed_eq := by
    rw [List.length_append, List.length_singleton, ← h.indexed_eq]
    exact length_flatten_update (key c) c t.entries

/-- Both indexes are in step with the calls. -/
structure Exact (g : CallGraph) : Prop where
  outgoing : Indexes Call.caller g.outgoing g.calls
  incoming : Indexes Call.callee g.incoming g.calls

theorem exact_empty : Exact empty := ⟨.empty _, .empty _⟩

theorem Exact.record {g : CallGraph} (h : g.Exact) (c : Call) : (g.record c).Exact :=
  ⟨h.outgoing.concat c, h.incoming.concat c⟩

theorem Exact.foldl_record {g : CallGraph} (h : g.Exact) (cs : List Call) :
    (cs.foldl CallGraph.record g).Exact := by
  induction cs generalizing g with
  | nil => exact h
  | cons c cs ih => exact ih (h.record c)

theorem exact_ofCalls (cs : List Call) : (ofCalls cs).Exact := exact_empty.foldl_record cs

theorem calls_foldl_record (g : CallGraph) (cs : List Call) :
    (cs.foldl record g).calls = g.calls ++ cs := by
  induction cs generalizing g with
  | nil => simp
  | cons c cs ih =>
    rw [List.foldl_cons, ih]
    simp [record]

theorem calls_ofCalls (cs : List Call) : (ofCalls cs).calls = cs :=
  calls_foldl_record empty cs

theorem callsFrom_ofCalls (cs : List Call) (m : Method) :
    (ofCalls cs).callsFrom m = cs.filter fun c => c.caller = m := by
  have h := (exact_ofCalls cs).outgoing.get?_eq m
  rwa [calls_ofCalls] at h

theorem callsTo_ofCalls (cs : List Call) (m : Method) :
    (ofCalls cs).callsTo m = cs.filter fun c => c.callee = m := by
  have h := (exact_ofCalls cs).incoming.get?_eq m
  rwa [calls_ofCalls] at h

/-- The counts of the check follow from the step by step recording. -/
theorem Exact.check_eq {g : CallGraph} (h : g.Exact) : g.check = .ok g := by
  unfold check
  rw [require_of ⟨h.outgoing.indexed_eq, h.incoming.indexed_eq⟩]
  rfl

theorem Exact.mem_methods_iff {g : CallGraph} (h : g.Exact) (m : Method) :
    m ∈ g.methods ↔ ∃ c ∈ g.calls, c.caller = m ∨ c.callee = m := by
  have hmem : m ∈ g.methods ↔ m ∈ g.outgoing.keys ∨ m ∈ g.incoming.keys := by
    simp only [methods, List.mem_append, List.mem_filter, decide_eq_true_iff]
    by_cases hout : m ∈ g.outgoing.keys <;> simp [hout]
  rw [hmem, h.outgoing.mem_keys_iff, h.incoming.mem_keys_iff]
  simp only [and_or_left, exists_or]

theorem nodup_methods (g : CallGraph) : g.methods.Nodup := by
  refine List.nodup_append.mpr
    ⟨g.outgoing.keys_nodup, g.incoming.keys_nodup.sublist List.filter_sublist, ?_⟩
  rintro m hout _ hin rfl
  exact of_decide_eq_true (List.mem_filter.mp hin).2 hout

theorem mem_callsFrom_ofCalls {cs : List Call} {m : Method} {c : Call} :
    c ∈ (ofCalls cs).callsFrom m ↔ c ∈ cs ∧ c.caller = m := by
  rw [callsFrom_ofCalls, List.mem_filter, decide_eq_true_iff]

end CallGraph

namespace Walk

/-- Every pick comes from the index. -/
theorem call_mem_callsFrom {w : Walk} {m : Method} {p : Pick} (hp : p ∈ w.offers m) :
    p.call ∈ w.graph.callsFrom m :=
  (w.grouping.picks_sublist _ _ _).subset (List.mem_map_of_mem hp)

theorem call_mem_of_mem_offers {cs : List Call} {p : Policy} {g : Grouping} {m : Method} {k : Pick}
    (hk : k ∈ offers ⟨.ofCalls cs, p, g⟩ m) : k.call ∈ cs ∧ k.call.caller = m :=
  CallGraph.mem_callsFrom_ofCalls.mp (call_mem_callsFrom hk)

/-- The calls that the index gives for a method do leave it. -/
def Indexed (w : Walk) : Prop := ∀ m, ∀ k ∈ w.offers m, k.call.caller = m

theorem indexed_ofCalls (cs : List Call) (p : Policy) (g : Grouping) :
    Indexed ⟨.ofCalls cs, p, g⟩ := by
  intro m k hk
  exact (call_mem_of_mem_offers hk).2

end Walk

end CallTrace
