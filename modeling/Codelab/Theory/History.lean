import Codelab.Theory.Machine

/-! History variables. A machine is run together with a record of the run so far that no
step reads, so a statement may speak of what has happened. Recording changes nothing: the
runs of the machine are those of the recorded machine without their records. -/

namespace Machine

variable {σ α η : Type*} {M : Machine σ α} {start : σ → η} {note : σ → α → σ → η → η}

/-- `note s a s' past` is the record after the step `a` from `s` to `s'`. -/
def recorded (M : Machine σ α) (start : σ → η) (note : σ → α → σ → η → η) :
    Machine (σ × η) α where
  init p := M.init p.1 ∧ p.2 = start p.1
  next p a := (M.next p.1 a).map fun s' => (s', note p.1 a s' p.2)

theorem recorded_next {p p' : σ × η} {a : α} :
    (M.recorded start note).next p a = some p' ↔
      M.next p.1 a = some p'.1 ∧ p'.2 = note p.1 a p'.1 p.2 := by
  constructor
  · intro next
    obtain ⟨s', moved, rfl⟩ := Option.map_eq_some_iff.mp next
    exact ⟨moved, rfl⟩
  · rintro ⟨moved, noted⟩
    exact Option.map_eq_some_iff.mpr ⟨p'.1, moved, Prod.ext rfl noted.symm⟩

theorem ReachableBy.forget {ok : σ → α → Prop} {p : σ × η}
    (h : (M.recorded start note).ReachableBy (fun p a => ok p.1 a) p) : M.ReachableBy ok p.1 := by
  induction h with
  | init hp => exact .init hp.1
  | step _ hok hnext ih => exact .step ih hok (recorded_next.mp hnext).1

theorem ReachableBy.recorded {ok : σ → α → Prop} {s : σ} (h : M.ReachableBy ok s) :
    ∃ past, (M.recorded start note).ReachableBy (fun p a => ok p.1 a) (s, past) := by
  induction h with
  | @init s hs => exact ⟨start s, .init ⟨hs, rfl⟩⟩
  | @step s s' a _ hok hnext ih =>
    obtain ⟨past, reached⟩ := ih
    exact ⟨note s a s' past, .step reached hok (recorded_next.mpr ⟨hnext, rfl⟩)⟩

/-- The induction over a recorded run: what holds at the start and what every admitted step
with its note preserves. -/
theorem ReachableBy.recorded_invariant {ok : σ × η → α → Prop} (inv : σ → η → Prop)
    (begins : ∀ s, M.init s → inv s (start s))
    (keep : ∀ s a s' past, inv s past → ok (s, past) a → M.next s a = some s' →
      inv s' (note s a s' past))
    {p : σ × η} (h : (M.recorded start note).ReachableBy ok p) : inv p.1 p.2 := by
  refine h.invariant (fun p => inv p.1 p.2) (fun p hp => ?_) fun p a p' before hok next => ?_
  · rw [hp.2]
    exact begins p.1 hp.1
  · obtain ⟨moved, noted⟩ := recorded_next.mp next
    rw [noted]
    exact keep p.1 a p'.1 p.2 before hok moved

end Machine
