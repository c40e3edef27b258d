import CallTrace.Walk.Step

/-!
# Termination of walks

The methods on the stack of a walk are distinct and each is the entry or the target of a recorded
call, so the stack has a largest height. A frame is given the weight of all that can still happen
in it and above it; every step makes the total weight smaller.
-/

namespace CallTrace.Walk

/-- The calls in the index of the calls that leave a method. -/
def indexedCalls (w : Walk) : List Call := w.graph.outgoing.values.flatten

/-- The methods that a walk can open. -/
def targets (w : Walk) (entry : Method) : List Method := entry :: w.indexedCalls.map Call.callee

theorem callsFrom_sublist_indexedCalls (w : Walk) (m : Method) :
    (w.graph.callsFrom m).Sublist w.indexedCalls := by
  unfold CallGraph.callsFrom
  cases h : w.graph.outgoing.get? m with
  | none => exact List.nil_sublist _
  | some cs => exact List.sublist_flatten_of_mem (Table.mem_values_of_get?_eq_some h)

theorem offers_sublist (w : Walk) (m : Method) :
    ((w.offers m).map Pick.call).Sublist w.indexedCalls :=
  (w.grouping.picks_sublist _ _ _).trans (w.callsFrom_sublist_indexedCalls m)

theorem length_offers_le (w : Walk) (m : Method) :
    (w.offers m).length ≤ w.indexedCalls.length := by
  simpa using (w.offers_sublist m).length_le

theorem callee_mem_targets {w : Walk} {entry m : Method} {p : Pick} (hp : p ∈ w.offers m) :
    p.call.callee ∈ w.targets entry :=
  List.mem_cons_of_mem _ (List.mem_map_of_mem
    ((w.offers_sublist m).subset (List.mem_map_of_mem hp)))

/-- What holds of every state of a walk from `entry`. -/
structure Inv (w : Walk) (entry : Method) (s : State) : Prop where
  nodup : s.methods.Nodup
  known : ∀ m ∈ s.methods, m ∈ w.targets entry
  closed : ∀ m ∈ s.methods, m ∈ s.expanded
  offered : ∀ f ∈ s.stack, f.picks <:+ w.offers f.method

theorem Inv.start (w : Walk) (entry : Method) : w.Inv entry .start := by
  constructor <;> simp [State.start, State.methods]

theorem Inv.height_le {w : Walk} {entry : Method} {s : State} (h : w.Inv entry s) :
    s.stack.length ≤ (w.targets entry).length := by
  simpa [State.methods] using h.nodup.length_le_of_subset h.known

theorem enter_cases (w : Walk) (m : Method) (d : Nat) (s : State) :
    (w.enter m d s).2 = s ∨
      m ∉ s.expanded ∧ (w.enter m d s).2 = ⟨⟨m, d, w.offers m⟩ :: s.stack, m :: s.expanded⟩ := by
  unfold enter
  split
  · exact .inl rfl
  · split
    · exact .inl rfl
    · exact .inr ⟨‹_›, rfl⟩

theorem follow_cases (w : Walk) (f : Frame) (c : Call) (s : State) :
    (w.follow f c s).2 = s ∨ (w.follow f c s).2 = (w.enter c.callee (f.depth + 1) s).2 := by
  unfold follow
  split
  · exact .inl rfl
  · dsimp only
    split
    · exact .inr rfl
    · exact .inl rfl

theorem Inv.enter {w : Walk} {entry m : Method} {d : Nat} {s : State} (h : w.Inv entry s)
    (hm : m ∈ w.targets entry) : w.Inv entry (w.enter m d s).2 := by
  rcases w.enter_cases m d s with he | ⟨hne, he⟩
  · rwa [he]
  · rw [he]
    constructor
    · exact List.nodup_cons.mpr ⟨fun hs => hne (h.closed m hs), h.nodup⟩
    · exact List.forall_mem_cons.mpr ⟨hm, h.known⟩
    · exact List.forall_mem_cons.mpr
        ⟨List.mem_cons_self, fun x hx => List.mem_cons_of_mem _ (h.closed x hx)⟩
    · exact List.forall_mem_cons.mpr ⟨List.suffix_refl _, h.offered⟩

theorem Inv.follow {w : Walk} {entry : Method} {f : Frame} {c : Call} {s : State}
    (h : w.Inv entry s) (hc : c.callee ∈ w.targets entry) : w.Inv entry (w.follow f c s).2 := by
  rcases w.follow_cases f c s with he | he
  · rwa [he]
  · rw [he]
    exact h.enter hc

/-- The topmost method has been expanded. -/
theorem Inv.pop {w : Walk} {entry : Method} {f : Frame} {fs : List Frame} {x : List Method}
    (h : w.Inv entry ⟨f :: fs, x⟩) : w.Inv entry ⟨fs, w.release f.method x⟩ := by
  obtain ⟨hf, hnd⟩ := List.nodup_cons.mp h.nodup
  refine ⟨hnd, (List.forall_mem_cons.mp h.known).2, fun m hm => ?_,
    (List.forall_mem_cons.mp h.offered).2⟩
  have hx := h.closed m (List.mem_cons_of_mem _ hm)
  unfold release
  split
  · refine (List.mem_erase_of_ne ?_).mpr hx
    rintro rfl
    exact hf hm
  · exact hx

/-- The topmost method has one pick less. -/
theorem Inv.advance {w : Walk} {entry m : Method} {d : Nat} {p : Pick} {ps : List Pick}
    {fs : List Frame} {x : List Method} (h : w.Inv entry ⟨⟨m, d, p :: ps⟩ :: fs, x⟩) :
    w.Inv entry ⟨⟨m, d, ps⟩ :: fs, x⟩ := by
  refine ⟨h.nodup, h.known, h.closed, ?_⟩
  obtain ⟨hf, hfs⟩ := List.forall_mem_cons.mp h.offered
  exact List.forall_mem_cons.mpr ⟨(List.suffix_cons p ps).trans hf, hfs⟩

theorem Inv.step {w : Walk} {entry : Method} {s t : State} {es : List Event}
    (h : w.Inv entry s) (hs : w.step s = some (es, t)) : w.Inv entry t := by
  obtain ⟨stack, x⟩ := s
  unfold Walk.step at hs
  split at hs
  · cases hs
  · next heq =>
    cases heq
    cases hs
    exact h.pop
  · next heq =>
    cases heq
    cases hs
    exact h.advance
  · next c _ _ heq =>
    cases heq
    obtain ⟨-, rfl⟩ := Prod.mk.inj (Option.some.inj hs)
    have hp := (List.forall_mem_cons.mp h.offered).1.subset List.mem_cons_self
    exact h.advance.follow (callee_mem_targets hp)

/-- What a frame with `b` picks weighs if `k` frames can stand above it, itself not counted. -/
def headroom (b : Nat) : Nat → Nat
  | 0 => 0
  | k + 1 => 1 + b * (1 + headroom b k)

def weight (b height : Nat) : List Frame → Nat
  | [] => 0
  | f :: fs => 1 + f.picks.length * (1 + headroom b (height - (fs.length + 1))) + weight b height fs

theorem weight_pop_lt (b n : Nat) (f : Frame) (fs : List Frame) :
    weight b n fs < weight b n (f :: fs) := by
  simp only [weight]
  omega

theorem weight_advance_lt (b n : Nat) (m : Method) (d : Nat) (p : Pick) (ps : List Pick)
    (fs : List Frame) : weight b n (⟨m, d, ps⟩ :: fs) < weight b n (⟨m, d, p :: ps⟩ :: fs) := by
  simp only [weight, List.length_cons, Nat.add_mul]
  omega

theorem weight_open_lt {b n : Nat} {m₁ m₂ : Method} {d₁ d₂ : Nat} {p : Pick} {ps qs : List Pick}
    {fs : List Frame} (hn : fs.length + 2 ≤ n) (hb : qs.length ≤ b) :
    weight b n (⟨m₂, d₂, qs⟩ :: ⟨m₁, d₁, ps⟩ :: fs) < weight b n (⟨m₁, d₁, p :: ps⟩ :: fs) := by
  obtain ⟨k, hk⟩ : ∃ k, n - (fs.length + 1) = k + 1 := ⟨n - (fs.length + 2), by omega⟩
  have hk' : n - (fs.length + 1 + 1) = k := by omega
  have hle : qs.length * (1 + headroom b k) ≤ b * (1 + headroom b k) := Nat.mul_le_mul_right _ hb
  simp only [weight, List.length_cons, hk, hk', headroom, Nat.add_mul]
  omega

theorem weight_follow_lt {w : Walk} {entry m : Method} {d : Nat} {c : Call} {ps : List Pick}
    {fs : List Frame} {x : List Method} {f : Frame} {t : State}
    (ht : t = (w.follow f c ⟨⟨m, d, ps⟩ :: fs, x⟩).2) (hi : w.Inv entry t) :
    weight w.indexedCalls.length (w.targets entry).length t.stack <
      weight w.indexedCalls.length (w.targets entry).length (⟨m, d, .follow c :: ps⟩ :: fs) := by
  rcases w.follow_cases f c ⟨⟨m, d, ps⟩ :: fs, x⟩ with he | he
  · rw [ht, he]
    exact weight_advance_lt ..
  · rcases w.enter_cases c.callee (f.depth + 1) ⟨⟨m, d, ps⟩ :: fs, x⟩ with hp | ⟨-, hp⟩
    · rw [ht, he, hp]
      exact weight_advance_lt ..
    · have hh := hi.height_le
      rw [ht, he, hp] at hh ⊢
      exact weight_open_lt hh (w.length_offers_le _)

theorem weight_step_lt {w : Walk} {entry : Method} {s t : State} {es : List Event}
    (h : w.Inv entry s) (hs : w.step s = some (es, t)) :
    weight w.indexedCalls.length (w.targets entry).length t.stack <
      weight w.indexedCalls.length (w.targets entry).length s.stack := by
  have hi := h.step hs
  obtain ⟨stack, x⟩ := s
  unfold Walk.step at hs
  split at hs
  · cases hs
  · next heq =>
    cases heq
    cases hs
    exact weight_pop_lt ..
  · next heq =>
    cases heq
    cases hs
    exact weight_advance_lt ..
  · next heq =>
    cases heq
    exact weight_follow_lt (Prod.mk.inj (Option.some.inj hs)).2.symm hi

end CallTrace.Walk
