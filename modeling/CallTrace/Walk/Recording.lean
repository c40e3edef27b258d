import CallTrace.Failure
import CallTrace.Walk.Event

/-!
# Recordings

A recording does one thing after another and keeps a journal of it. It breaks off at a check that
fails, at a text that cannot be made and at a write that is refused, and the journal then holds what
was done before.
-/

namespace CallTrace.Walk

abbrev Recording := EStateM Failure Journal

namespace Recording

variable {α : Type}

def check : Checked α → Recording α
  | .ok a => return a
  | .error v => throw (.invalid v)

theorem check_ok (a : α) : check (.ok a) = (pure a : Recording α) := rfl

end Recording

/-- Makes the texts of an event and hands it to the writer. -/
def record (e : Event) : Recording Unit := fun j =>
  match e.print with
  | .error u => .error (.unprintable u) j
  | .ok () =>
    match j.add e with
    | .ok k => .ok () k
    | .error k => .error .writerFull k

def recordAll : List Event → Recording Unit
  | [] => return ()
  | e :: es => do
    record e
    recordAll es

theorem recordAll_append (es fs : List Event) :
    recordAll (es ++ fs) = recordAll es >>= fun _ => recordAll fs := by
  induction es with
  | nil => rfl
  | cons e es ih => simp only [List.cons_append, recordAll, ih, bind_assoc]

section

variable {α β : Type}

/-- Records events and gives the answer that they come with. -/
def recordThen (es : List Event) (a : α) : Recording α := do
  recordAll es
  return a

theorem recordThen_bind (es : List Event) (a : α) (f : α → Recording β) :
    recordThen es a >>= f = recordAll es >>= fun _ => f a := by
  rw [recordThen, bind_assoc]
  rfl

theorem recordThen_append (es fs : List Event) (a : α) :
    recordThen (es ++ fs) a = recordAll es >>= fun _ => recordThen fs a := by
  rw [recordThen, recordAll_append, bind_assoc]
  rfl

/-- If all events are recorded, the answer is the one that they come with. -/
theorem answer_of_recordThen {es : List Event} {a b : α} {j k : Journal}
    (h : recordThen es a j = .ok b k) : a = b := by
  simp only [recordThen, bind, EStateM.bind] at h
  cases hes : recordAll es j with
  | ok _ l =>
    rw [hes] at h
    cases h
    rfl
  | error f l =>
    rw [hes] at h
    cases h

theorem recordThen_singleton (e : Event) (a : α) :
    recordThen [e] a = record e >>= fun _ => return a :=
  bind_assoc _ _ _

end

theorem record_of_printable {e : Event} (h : e.Printable) (j : Journal) :
    record e j =
      match j.add e with
      | .ok k => .ok () k
      | .error k => .error .writerFull k := by
  rw [record, Event.print_eq_ok_iff.mpr h]

theorem record_of_error {e : Event} {u : Text.Unprintable} (h : e.print = .error u)
    (j : Journal) : record e j = .error (.unprintable u) j := by
  rw [record, h]

/-- Only the writer can refuse events whose texts can be made. -/
theorem recordAll_of_printable {es : List Event} (h : ∀ e ∈ es, e.Printable) (j : Journal) :
    recordAll es j =
      match j.addAll es with
      | .ok k => .ok () k
      | .error k => .error .writerFull k := by
  induction es generalizing j with
  | nil => rfl
  | cons e es ih =>
    obtain ⟨he, hes⟩ := List.forall_mem_cons.mp h
    simp only [recordAll, bind, EStateM.bind, record_of_printable he, Journal.addAll]
    cases j.add e with
    | ok k => exact ih hes k
    | error k => rfl

/-- The first text that cannot be made ends the recording, and nothing after it is done. -/
theorem recordAll_of_unprintable {es fs : List Event} {e : Event} {u : Text.Unprintable}
    (hes : ∀ f ∈ es, f.Printable) (he : e.print = .error u) :
    recordAll (es ++ e :: fs) (.start none) = .error (.unprintable u) ⟨es.reverse, none⟩ := by
  have hjournal := Journal.addAll_of_unlimited [] es
  rw [List.append_nil] at hjournal
  simp only [recordAll_append, recordAll, bind, EStateM.bind, recordAll_of_printable hes,
    Journal.start, hjournal, record_of_error he]

theorem printable_or_exists_unprintable (es : List Event) :
    (∀ e ∈ es, e.Printable) ∨ ∃ fs e gs u, es = fs ++ e :: gs ∧ (∀ f ∈ fs, f.Printable) ∧
      e.print = .error u := by
  induction es with
  | nil => exact .inl (List.forall_mem_nil _)
  | cons e es ih =>
    cases hprint : e.print with
    | error u => exact .inr ⟨[], e, es, u, rfl, List.forall_mem_nil _, hprint⟩
    | ok _ =>
      have he : e.Printable := Event.print_eq_ok_iff.mp hprint
      rcases ih with hes | ⟨fs, f, gs, u, rfl, hfs, hf⟩
      · exact .inl (List.forall_mem_cons.mpr ⟨he, hes⟩)
      · exact .inr ⟨e :: fs, f, gs, u, rfl, List.forall_mem_cons.mpr ⟨he, hfs⟩, hf⟩

end CallTrace.Walk
