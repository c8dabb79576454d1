import Mathlib.Data.List.Nodup

/-! Singly linked chains through a `next` map. `Path next p l` says that following
`next` from the pointer `p` visits exactly the nodes of `l` and ends in null.
Since `next` is a function, the nodes determine the list and never repeat. -/

namespace Chain

variable {α : Type*} {next next' : α → Option α} {p : Option α} {l l' : List α} {a b x : α}

def Path (next : α → Option α) : Option α → List α → Prop
  | p, [] => p = none
  | p, a :: l => p = some a ∧ Path next (next a) l

@[simp] theorem path_nil : Path next p [] ↔ p = none := Iff.rfl

@[simp] theorem path_cons : Path next p (a :: l) ↔ p = some a ∧ Path next (next a) l := Iff.rfl

theorem Path.eq_nil (h : Path next none l) : l = [] := by
  cases l with
  | nil => rfl
  | cons a l => cases h.1

theorem Path.of_some (h : Path next (some a) l) :
    ∃ rest, l = a :: rest ∧ Path next (next a) rest := by
  cases l with
  | nil => cases h
  | cons c rest =>
    obtain ⟨same, tail⟩ := h
    obtain rfl := Option.some.inj same
    exact ⟨rest, rfl, tail⟩

theorem Path.unique (h : Path next p l) (h' : Path next p l') : l = l' := by
  induction l generalizing p l' with
  | nil =>
    obtain rfl := h
    exact h'.eq_nil.symm
  | cons a l ih =>
    obtain ⟨rfl, tail⟩ := h
    obtain ⟨rest, rfl, tail'⟩ := h'.of_some
    rw [ih tail tail']

/-- Only the links of the visited nodes matter. -/
theorem Path.congr (h : Path next p l) (agree : ∀ a ∈ l, next' a = next a) : Path next' p l := by
  induction l generalizing p with
  | nil => exact h
  | cons a l ih =>
    refine ⟨h.1, ?_⟩
    rw [agree a List.mem_cons_self]
    exact ih h.2 fun b hb => agree b (List.mem_cons_of_mem a hb)

theorem Path.drop (h : Path next p (l ++ a :: l')) : Path next (next a) l' := by
  induction l generalizing p with
  | nil => exact h.2
  | cons b l ih => exact ih h.2

/-- A chain that ends cannot come back to a node: the rest of it would be its own tail. -/
theorem Path.nodup (h : Path next p l) : l.Nodup := by
  induction l generalizing p with
  | nil => exact List.nodup_nil
  | cons a l ih =>
    refine List.nodup_cons.mpr ⟨fun again => ?_, ih h.2⟩
    obtain ⟨before, after, rfl⟩ := List.append_of_mem again
    have short := congrArg List.length (h.2.unique h.2.drop)
    simp only [List.length_append, List.length_cons] at short
    omega

theorem Path.next_mem (h : Path next p l) (ha : a ∈ l) (hb : next a = some b) : b ∈ l := by
  obtain ⟨before, after, rfl⟩ := List.append_of_mem ha
  have rest := h.drop
  rw [hb] at rest
  obtain ⟨more, rfl, -⟩ := rest.of_some
  simp

/-- The successor of a visited node is not the first node. -/
theorem Path.next_ne_head (h : Path next p (x :: l)) (ha : a ∈ x :: l) (hb : next a = some b) :
    b ≠ x := by
  rintro rfl
  have fresh := (List.nodup_cons.mp h.nodup).1
  obtain ⟨before, after, split⟩ := List.append_of_mem ha
  have whole := h
  rw [split] at whole
  have rest := whole.drop
  rw [hb] at rest
  obtain ⟨more, rfl, -⟩ := rest.of_some
  cases before with
  | nil =>
    injection split with _ tail
    exact fresh (by simp [tail])
  | cons c before =>
    injection split with _ tail
    exact fresh (by simp [tail])

theorem Path.last_of_end (h : Path next p l) (ha : a ∈ l) (hend : next a = none) :
    ∃ init, l = init ++ [a] := by
  obtain ⟨before, after, rfl⟩ := List.append_of_mem ha
  have rest := h.drop
  rw [hend] at rest
  exact ⟨before, by rw [rest.eq_nil]⟩

/-- Linking a second chain behind the last node of a first one that it avoids. -/
theorem Path.link {q : Option α} {m : List α} (h : Path next p (l ++ [x])) (hm : Path next q m)
    (apart : x ∉ m) (hx : next' x = q) (same : ∀ a, a ≠ x → next' a = next a) :
    Path next' p (l ++ x :: m) := by
  induction l generalizing p with
  | nil =>
    refine ⟨h.1, ?_⟩
    rw [hx]
    exact hm.congr fun a ha => same a fun e => apart (e ▸ ha)
  | cons b l ih =>
    have fresh : b ≠ x := by
      rintro rfl
      exact (List.nodup_cons.mp h.nodup).1 (by simp)
    refine ⟨h.1, ?_⟩
    rw [same b fresh]
    exact ih h.2

/-- A new first node. -/
theorem Path.push (h : Path next p l) (fresh : x ∉ l) (hx : next' x = p)
    (same : ∀ a, a ≠ x → next' a = next a) : Path next' (some x) (x :: l) := by
  refine ⟨rfl, ?_⟩
  rw [hx]
  exact h.congr fun a ha => same a fun e => fresh (e ▸ ha)

/-- A new node behind a visited one. -/
theorem Path.insert (h : Path next p (l ++ a :: l')) (fresh : x ∉ l ++ a :: l')
    (hx : next' x = next a) (ha : next' a = some x)
    (same : ∀ b, b ≠ a → b ≠ x → next' b = next b) : Path next' p (l ++ a :: x :: l') := by
  induction l generalizing p with
  | nil =>
    have alone := (List.nodup_cons.mp h.nodup).1
    refine ⟨h.1, ha, ?_⟩
    rw [hx]
    refine h.2.congr fun b hb => same b ?_ ?_
    · rintro rfl
      exact alone hb
    · rintro rfl
      exact fresh (List.mem_cons_of_mem a hb)
  | cons b l ih =>
    have apart : b ≠ a := by
      rintro rfl
      exact (List.nodup_cons.mp h.nodup).1 (by simp)
    have new : b ≠ x := by
      rintro rfl
      exact fresh List.mem_cons_self
    refine ⟨h.1, ?_⟩
    rw [same b apart new]
    exact ih h.2 fun again => fresh (List.mem_cons_of_mem b again)

end Chain
