import Codelab.SkipListStructure

/-! `FindGreaterOrEqual` against a scan of level 0 alone. The higher levels only shorten the
way: what the search returns is what the scan returns, and `prev` is the last node that a scan
of each level would pass. -/

namespace Codelab.SkipList

open State

variable {s : State} {L R order : List ℕ} {a i rounds x : ℕ} {k : Int}

/-- Level 0 with the test of `FindGreaterOrEqual`, for at most `rounds` rounds. -/
def State.scan (s : State) (key : Int) : ℕ → ℕ → Except Fault (Option ℕ)
  | 0, _ => .error .unfinished
  | rounds + 1, x => do
      let next ← s.next x 0
      match next.filter fun n => key ≥ (s.heap n).key with
      | some n => State.scan s key rounds n
      | none => pure next

/-- Each node is passed at most once. -/
def State.linearScan (s : State) (key : Int) : Except Fault (Option ℕ) := s.scan key s.made s.head

/-- The last node of a list whose key is not greater, or the head. -/
def State.lastNotGreater (s : State) (key : Int) (nodes : List ℕ) : ℕ :=
  (nodes.filter fun a => s.key a ≤ key).getLastD s.head

/-- On level 0 and without `prev` the search is the scan. -/
theorem search_zero : s.search k rounds x 0 none = (s.scan k rounds x).map fun p => (p, none) := by
  induction rounds generalizing x with
  | zero => rfl
  | succ rounds ih =>
    cases read : s.next x 0 with
    | error e => simp only [search, scan, read, bind, Except.bind, Except.map]
    | ok p =>
      cases go : p.filter fun n => k ≥ (s.heap n).key with
      | none =>
        simp only [search, scan, read, go, bind, Except.bind]
        rfl
      | some n =>
        simp only [search, scan, read, go, bind, Except.bind]
        exact ih

namespace Shape

variable (h : Shape s (L ++ R)) (le : ∀ a ∈ L, s.key a ≤ k) (gt : ∀ a ∈ R, k < s.key a)

include h le gt in
theorem linearScan : s.linearScan k = .ok R.head? := by
  have found : s.search k s.made s.head 0 none = .ok (R.head?, none) :=
    h.search_descend le gt (by decide) List.mem_cons_self (by omega)
  rw [search_zero] at found
  cases run : s.scan k s.made s.head with
  | error e =>
    rw [run] at found
    exact nomatch found
  | ok p =>
    rw [run] at found
    exact run.trans (congrArg Except.ok (Prod.mk.inj (Except.ok.inj found)).1)

include le gt

theorem lastNotGreater_level : s.lastNotGreater k (s.level (L ++ R) i) = s.last L i := by
  have left : (s.level L i).filter (fun a => s.key a ≤ k) = s.level L i :=
    List.filter_eq_self.mpr fun a ha => decide_eq_true (le a (mem_level.mp ha).1)
  have right : (s.level R i).filter (fun a => s.key a ≤ k) = [] :=
    List.filter_eq_nil_iff.mpr fun a ha => by
      have greater := gt a (mem_level.mp ha).1
      simp only [decide_eq_true_eq]
      omega
  rw [lastNotGreater, level_append, List.filter_append, left, right, List.append_nil, last]

theorem find_greater : (L ++ R).find? (fun a => k < s.key a) = R.head? := by
  have none : L.find? (fun a => k < s.key a) = none :=
    List.find?_eq_none.mpr fun a ha => by
      have small := le a ha
      simp only [decide_eq_true_eq]
      omega
  rw [List.find?_append, none, Option.none_or]
  cases R with
  | nil => rfl
  | cons b R => exact List.find?_cons_of_pos (decide_eq_true (gt b List.mem_cons_self))

end Shape

/-- The search returns what the scan of level 0 returns, the first node with a greater key, and
writes to `prev` on the levels in use, and there the last node whose key is not greater. -/
def Agrees (s : State) (nodes : ℕ → List ℕ) : Prop :=
  ∀ (k : Int) (prev : Prev), s.linearScan k = .ok ((nodes 0).find? fun a => k < s.key a) ∧
    s.findGreaterOrEqual k prev = .ok ((nodes 0).find? fun a => k < s.key a,
      prev.map fun slots level =>
        if level < s.maxHeight then some (s.lastNotGreater k (nodes level)) else slots level)

theorem Shape.agrees {order : List ℕ} (shape : Shape s order) : Agrees s (s.level order) := by
  intro k prev
  obtain ⟨L, R, rfl, le, gt⟩ := Sorted.split shape.sorted k
  rw [shape.level_zero, Shape.find_greater le gt, shape.findGreaterOrEqual le gt]
  refine ⟨shape.linearScan le gt, ?_⟩
  simp only [Shape.lastNotGreater_level le gt]

/-- After every sequence of calls, whatever the heights drawn. -/
theorem search_agrees_iff (layout : Layout) (calls : List Insertion)
    (drawn : ∀ c ∈ calls, c.drawn) :
    (∃ s nodes, after layout calls = .ok s ∧ Levels calls s nodes ∧ Agrees s nodes) ↔
      layout.sizeofPtr ≤ layout.sizeofInt := by
  constructor
  · rintro ⟨s, nodes, run, -⟩
    exact narrow_of_after run
  · intro narrow
    obtain ⟨s, order, run, shape, recorded⟩ := after_ok narrow calls drawn
    exact ⟨s, s.level order, run, shape.levels recorded, shape.agrees⟩

/-- Three calls, two of them with one key. -/
theorem search_agrees_iff_three :
    (∃ s nodes, after .ilp32 [⟨5, 1⟩, ⟨7, 12⟩, ⟨5, 3⟩] = .ok s ∧
      Levels [⟨5, 1⟩, ⟨7, 12⟩, ⟨5, 3⟩] s nodes ∧ Agrees s nodes) ↔
      Layout.ilp32.sizeofPtr ≤ Layout.ilp32.sizeofInt :=
  search_agrees_iff .ilp32 [⟨5, 1⟩, ⟨7, 12⟩, ⟨5, 3⟩] (by simp [Insertion.drawn, kMaxHeight])

/-- There is no list to search: the constructor writes behind the memory of `head_`. -/
theorem search_overflows : ¬∀ (layout : Layout) (calls : List Insertion),
    (∀ c ∈ calls, c.drawn) →
    ∃ s nodes, after layout calls = .ok s ∧ Levels calls s nodes ∧ Agrees s nodes := by
  intro always
  obtain ⟨s, -, run, -⟩ := always .lp64 [] (by simp)
  have overflow : after .lp64 [] = .error .outOfBounds := by rfl
  rw [overflow] at run
  cases run

end Codelab.SkipList
