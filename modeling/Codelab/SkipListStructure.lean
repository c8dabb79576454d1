import Codelab.SkipListInsert
import Mathlib.Data.List.Induction

/-! Runs of `Insert` on a new skip list. Node `n + 1` is the one that call `n` made. Every
level stays the sublist of the nodes high enough for it, in the order of the keys and,
among equal keys, of the calls. `Contains` looks at the first node beyond the key, so it
never finds one. -/

namespace Codelab.SkipList

open State

theorem clear_ok {s : State} {count i : ℕ} (fits : i + count ≤ s.slots s.head) :
    ∃ s', clear count i s = .ok s' ∧ s'.made = s.made ∧ s'.head = s.head ∧
      s'.maxHeight = s.maxHeight ∧ s'.height = s.height ∧ s'.slots = s.slots ∧
      ∀ j < i + count, i ≤ j ∨ (s.heap s.head).next j = some none →
        (s'.heap s.head).next j = some none := by
  induction count generalizing s i with
  | zero =>
    refine ⟨s, rfl, rfl, rfl, rfl, rfl, rfl, fun j low cleared => ?_⟩
    exact cleared.resolve_left (by omega)
  | succ count ih =>
    have here : i + 1 + count ≤ (s.put s.head i none).slots (s.put s.head i none).head := by
      rw [put_slots, put_head]
      omega
    obtain ⟨s', cleared, made, head, maxHeight, height, slots, written⟩ := ih here
    refine ⟨s', ?_, made, head, maxHeight, height.trans put_height, slots.trans put_slots,
      fun j low known => ?_⟩
    · simp only [clear, setNext_ok (show i < s.slots s.head by omega), bind, Except.bind]
      exact cleared
    · refine written j (by omega) ?_
      rw [put_head, put_slot]
      by_cases first : j = i
      · exact .inr (if_pos ⟨rfl, first⟩)
      · rw [if_neg (by omega)]
        exact known.imp_left (by omega)

/-- The constructor's loop writes behind the memory of `head_`. -/
theorem clear_fails {s : State} {count i : ℕ} (within : i ≤ s.slots s.head)
    (short : s.slots s.head < i + count) : clear count i s = .error .outOfBounds := by
  induction count generalizing s i with
  | zero => omega
  | succ count ih =>
    rcases Nat.lt_or_eq_of_le within with fits | last
    · have here : i + 1 ≤ (s.put s.head i none).slots (s.put s.head i none).head := by
        rw [put_slots, put_head]
        exact fits
      simp only [clear, setNext_ok fits, bind, Except.bind]
      refine ih here ?_
      rw [put_slots, put_head]
      omega
    · have outside : s.setNext s.head i none = .error .outOfBounds :=
        if_neg (Nat.not_lt.mpr (Nat.le_of_eq last.symm))
      simp only [clear, outside, bind, Except.bind]

variable {layout : Layout}

theorem new_fails (wide : layout.sizeofInt < layout.sizeofPtr) :
    new layout = .error .outOfBounds :=
  clear_fails (Nat.zero_le _) ((layout.slots_lt wide).trans_eq (Nat.zero_add kMaxHeight).symm)

/-- The constructor leaves twelve empty levels. -/
theorem new_shape (narrow : layout.sizeofPtr ≤ layout.sizeofInt) :
    ∃ s, new layout = .ok s ∧ Shape s [] ∧ s.made = 1 ∧ s.head = 0 ∧ s.maxHeight = 1 := by
  let empty : State :=
    { heap := fun _ => { key := 0, height := 0, slots := 0, next := fun _ => none }
      made := 0, head := 0, maxHeight := 0 }
  let start : State := { (empty.newNode layout 0 kMaxHeight).1 with head := 0, maxHeight := 1 }
  have tall : start.height 0 = kMaxHeight := rfl
  have wide : start.slots 0 = layout.slots kMaxHeight := rfl
  have enough : kMaxHeight ≤ layout.slots kMaxHeight := layout.le_slots narrow
  obtain ⟨s, cleared, made, head, maxHeight, height, slots, written⟩ :=
    clear_ok (s := start) (i := 0) ((Nat.zero_add kMaxHeight).trans_le enough)
  have headNull : ∀ j < kMaxHeight, (s.heap 0).next j = some none := fun j low =>
    written j (by omega) (.inl (Nat.zero_le j))
  have head0 : s.head = 0 := head
  have made1 : s.made = 1 := made
  have max1 : s.maxHeight = 1 := maxHeight
  refine ⟨s, cleared, ⟨?_, ?_, ?_, ?_, ?_, List.Pairwise.nil, ?_, ?_, ?_⟩, made, head, maxHeight⟩
  · omega
  · rw [head0, height, tall]
  · intro a
    rw [made1, head0]
    simp
  · rintro a ⟨⟩
  · rw [max1]
    decide
  · intro i hi
    refine ⟨rfl, ?_⟩
    rw [head0, State.succ, headNull i hi]
    rfl
  · intro a ha i low
    obtain rfl : a = 0 := by omega
    rw [height, tall] at low
    rw [headNull i low]
    rfl
  · intro a ha
    obtain rfl : a = 0 := by omega
    rw [height, slots, tall, wide]
    exact enough

/-- `s` is the list that `calls` make of a new one. -/
structure Recorded (calls : List Insertion) (s : State) : Prop where
  made : s.made = calls.length + 1
  head : s.head = 0
  node : ∀ n c, calls[n]? = some c → s.key (n + 1) = c.key ∧ s.height (n + 1) = c.height
  maxHeight : s.maxHeight = calls.foldl (fun m c => max m c.height) 1

theorem Recorded.insert {calls : List Insertion} {s s' : State} {c : Insertion} {L R : List ℕ}
    (h : Recorded calls s) (inserted : Inserted s s' c.key c.height L R) :
    Recorded (calls ++ [c]) s' where
  made := by rw [inserted.made, h.made, List.length_append, List.length_singleton]
  head := inserted.head.trans h.head
  maxHeight := by rw [inserted.maxHeight, h.maxHeight, List.foldl_append]; rfl
  node n d hd := by
    rw [inserted.key, inserted.height, h.made]
    rcases Nat.lt_trichotomy n calls.length with old | new | beyond
    · rw [List.getElem?_append_left old] at hd
      rw [Function.update_of_ne (by omega), Function.update_of_ne (by omega)]
      exact h.node n d hd
    · rw [new, List.getElem?_concat_length] at hd
      rw [new, Function.update_self, Function.update_self, Option.some.inj hd]
      exact ⟨rfl, rfl⟩
    · rw [List.getElem?_eq_none (by simp; omega)] at hd
      cases hd

/-- A sorted order splits at every key. -/
theorem Sorted.split {s : State} {order : List ℕ} (h : s.Sorted order) (k : Int) :
    ∃ L R, order = L ++ R ∧ (∀ a ∈ L, s.key a ≤ k) ∧ ∀ a ∈ R, k < s.key a := by
  induction order with
  | nil => exact ⟨[], [], rfl, by rintro _ ⟨⟩, by rintro _ ⟨⟩⟩
  | cons a order ih =>
    obtain ⟨first, rest⟩ := List.pairwise_cons.mp h
    by_cases le : s.key a ≤ k
    · obtain ⟨L, R, rfl, left, right⟩ := ih rest
      refine ⟨a :: L, R, rfl, fun b hb => ?_, right⟩
      rcases List.mem_cons.mp hb with rfl | hb
      · exact le
      · exact left b hb
    · refine ⟨[], a :: order, rfl, by rintro _ ⟨⟩, fun b hb => ?_⟩
      rcases List.mem_cons.mp hb with rfl | hb
      · omega
      · have after := first b hb
        omega

/-- Every sequence of calls succeeds. -/
theorem after_ok (narrow : layout.sizeofPtr ≤ layout.sizeofInt) (calls : List Insertion)
    (drawn : ∀ c ∈ calls, c.drawn) :
    ∃ s order, after layout calls = .ok s ∧ Shape s order ∧ Recorded calls s := by
  induction calls using List.reverseRecOn with
  | nil =>
    obtain ⟨s, made, shape, count, head, maxHeight⟩ := new_shape narrow
    refine ⟨s, [], after_nil.trans made, shape, count, head, ?_, maxHeight⟩
    rintro n c ⟨⟩
  | append_singleton calls c ih =>
    obtain ⟨s, order, earlier, shape, recorded⟩ := ih fun d hd =>
      drawn d (List.mem_append_left [c] hd)
    obtain ⟨positive, bounded⟩ := drawn c (by simp)
    obtain ⟨L, R, rfl, le, gt⟩ := Sorted.split shape.sorted c.key
    obtain ⟨s', call, inserted⟩ := shape.insert narrow le gt positive bounded
    refine ⟨s', _, ?_, inserted.shape, recorded.insert inserted⟩
    rw [after_append, earlier]
    exact call

/-- The levels of the list that `calls` make, where `nodes i` are the nodes that the chain
on level `i` visits after the head. -/
structure Levels (calls : List Insertion) (s : State) (nodes : ℕ → List ℕ) : Prop where
  chain : ∀ i < kMaxHeight, Chain.Path (s.succ i) (s.succ i s.head) (nodes i)
  readable : ∀ i < kMaxHeight, ∀ a ∈ s.head :: nodes i, s.next a i = .ok (s.succ i a)
  ordered : ∀ i < kMaxHeight, (nodes i).Pairwise fun a b => s.key a ≤ s.key b
  sublist : ∀ i, i + 1 < kMaxHeight → (nodes (i + 1)).Sublist (nodes i)
  height : ∀ n c, calls[n]? = some c → ∀ i < kMaxHeight, n + 1 ∈ nodes i ↔ i < c.height
  key : ∀ n c, calls[n]? = some c → s.key (n + 1) = c.key
  all : (nodes 0).Perm ((List.range calls.length).map (· + 1))
  keys : ((nodes 0).map s.key).Perm (calls.map Insertion.key)
  stable : (nodes 0).Pairwise fun a b => s.key a = s.key b → a < b
  maxHeight : s.maxHeight = calls.foldl (fun m c => max m c.height) 1
  unused : ∀ i < kMaxHeight, s.maxHeight ≤ i → s.succ i s.head = none

theorem Recorded.mem {calls : List Insertion} {s : State} {order : List ℕ} {n : ℕ}
    (h : Recorded calls s) (shape : Shape s order) (low : n < calls.length) : n + 1 ∈ order := by
  rw [shape.mem, h.made, h.head]
  omega

theorem Recorded.perm {calls : List Insertion} {s : State} {order : List ℕ}
    (h : Recorded calls s) (shape : Shape s order) :
    order.Perm ((List.range calls.length).map (· + 1)) := by
  have distinct : ((List.range calls.length).map (· + 1)).Nodup :=
    List.nodup_range.map (Nat.succ_injective)
  rw [List.perm_ext_iff_of_nodup shape.nodup distinct]
  intro a
  rw [shape.mem, h.made, h.head]
  simp only [List.mem_map, List.mem_range]
  constructor
  · rintro ⟨low, positive⟩
    exact ⟨a - 1, by omega, by omega⟩
  · rintro ⟨n, low, rfl⟩
    omega

theorem Recorded.keys {calls : List Insertion} {s : State} (h : Recorded calls s) :
    ((List.range calls.length).map (· + 1)).map s.key = calls.map Insertion.key := by
  apply List.ext_getElem
  · simp
  · intro n hn hn'
    have low : n < calls.length := by simpa using hn'
    have node := (h.node n calls[n] (List.getElem?_eq_getElem low)).1
    simpa using node

theorem Shape.levels {calls : List Insertion} {s : State} {order : List ℕ} (shape : Shape s order)
    (recorded : Recorded calls s) : Levels calls s (s.level order) where
  chain i hi := (shape.chain i hi).2
  readable i hi a ha := shape.next_ok hi ha
  ordered i hi := by
    refine (shape.sorted.sublist level_sublist).imp fun {a b} before => ?_
    omega
  sublist i _ := level_succ_sublist
  height n c hc i hi := by
    have low := (List.getElem?_eq_some_iff.mp hc).1
    rw [mem_level, (recorded.node n c hc).2]
    exact and_iff_right (recorded.mem shape low)
  key n c hc := (recorded.node n c hc).1
  all := by
    rw [shape.level_zero]
    exact recorded.perm shape
  keys := by
    rw [shape.level_zero, ← recorded.keys]
    exact (recorded.perm shape).map s.key
  stable := by
    rw [shape.level_zero]
    refine shape.sorted.imp fun {a b} before same => ?_
    omega
  maxHeight := recorded.maxHeight
  unused i hi high := by
    have chain := (shape.chain i hi).2
    rw [shape.level_empty high] at chain
    exact chain

/-- No call has a list to work on where pointers are wider than an `int`. -/
theorem narrow_of_after {calls : List Insertion} {s : State} (run : after layout calls = .ok s) :
    layout.sizeofPtr ≤ layout.sizeofInt := by
  by_contra wide
  rw [after_of_error (new_fails (Nat.lt_of_not_le wide))] at run
  cases run

/-- After every sequence of calls, whatever the heights drawn. -/
theorem levels_after_iff (layout : Layout) (calls : List Insertion)
    (drawn : ∀ c ∈ calls, c.drawn) :
    (∃ s nodes, after layout calls = .ok s ∧ Levels calls s nodes) ↔
      layout.sizeofPtr ≤ layout.sizeofInt := by
  constructor
  · rintro ⟨s, nodes, run, -⟩
    exact narrow_of_after run
  · intro narrow
    obtain ⟨s, order, run, shape, recorded⟩ := after_ok narrow calls drawn
    exact ⟨s, s.level order, run, shape.levels recorded⟩

/-- Pointers as wide as an `int`. -/
def Layout.ilp32 : Layout := ⟨4, 4, by decide⟩

/-- Pointers twice as wide as an `int`. -/
def Layout.lp64 : Layout := ⟨4, 8, by decide⟩

/-- Three calls, two of them with one key. -/
theorem levels_after_iff_three :
    (∃ s nodes, after .ilp32 [⟨5, 1⟩, ⟨7, 12⟩, ⟨5, 3⟩] = .ok s ∧
      Levels [⟨5, 1⟩, ⟨7, 12⟩, ⟨5, 3⟩] s nodes) ↔
      Layout.ilp32.sizeofPtr ≤ Layout.ilp32.sizeofInt :=
  levels_after_iff .ilp32 [⟨5, 1⟩, ⟨7, 12⟩, ⟨5, 3⟩] (by simp [Insertion.drawn, kMaxHeight])

/-- The constructor writes twelve slots of a `head_` that has room for six. -/
theorem levels_overflow : ¬∀ (layout : Layout) (calls : List Insertion), (∀ c ∈ calls, c.drawn) →
    ∃ s nodes, after layout calls = .ok s ∧ Levels calls s nodes := by
  intro always
  obtain ⟨s, -, run, -⟩ := always .lp64 [] (by simp)
  have overflow : after .lp64 [] = .error .outOfBounds := by rfl
  rw [overflow] at run
  cases run

/-- The search passes the nodes with the key, so `Contains` compares with a greater one. -/
theorem Shape.contains_false {s : State} {order : List ℕ} (h : Shape s order) (k : Int) :
    s.contains k = .ok false := by
  obtain ⟨L, R, rfl, le, gt⟩ := Sorted.split h.sorted k
  simp only [State.contains, h.findGreaterOrEqual le gt, bind, Except.bind]
  cases R with
  | nil => rfl
  | cons b R =>
    have greater := gt b List.mem_cons_self
    have differ : k ≠ (s.heap b).key := by
      simp only [State.key] at greater
      omega
    simp only [List.head?_cons, decide_eq_false differ]
    rfl

/-- `Contains` tells whether the key was inserted exactly for the keys that were not, and only where
pointers are no wider than an `int`. -/
theorem contains_iff (layout : Layout) (calls : List Insertion) (drawn : ∀ c ∈ calls, c.drawn)
    (k : Int) :
    (∃ s found, after layout calls = .ok s ∧ s.contains k = .ok found ∧
      (found = true ↔ k ∈ calls.map Insertion.key)) ↔
      layout.sizeofPtr ≤ layout.sizeofInt ∧ k ∉ calls.map Insertion.key := by
  constructor
  · rintro ⟨s, found, run, contains, exact⟩
    have narrow := narrow_of_after run
    obtain ⟨s', order, run', shape, -⟩ := after_ok narrow calls drawn
    obtain rfl := Except.ok.inj (run.symm.trans run')
    obtain rfl := Except.ok.inj (contains.symm.trans (shape.contains_false k))
    exact ⟨narrow, fun inserted => Bool.false_ne_true (exact.mpr inserted)⟩
  · rintro ⟨narrow, fresh⟩
    obtain ⟨s, order, run, shape, -⟩ := after_ok narrow calls drawn
    exact ⟨s, false, run, shape.contains_false k, fun found => (Bool.false_ne_true found).elim,
      fun inserted => absurd inserted fresh⟩

theorem contains_iff_five :
    (∃ s found, after .ilp32 [⟨5, 2⟩] = .ok s ∧ s.contains 7 = .ok found ∧
      (found = true ↔ 7 ∈ [(⟨5, 2⟩ : Insertion)].map Insertion.key)) ↔
      Layout.ilp32.sizeofPtr ≤ Layout.ilp32.sizeofInt ∧
        7 ∉ [(⟨5, 2⟩ : Insertion)].map Insertion.key :=
  contains_iff .ilp32 [⟨5, 2⟩] (by simp [Insertion.drawn, kMaxHeight]) 7

/-- Five is inserted and then not found. -/
theorem contains_misses : ¬∀ (layout : Layout) (calls : List Insertion), (∀ c ∈ calls, c.drawn) →
    ∀ k : Int, ∃ s found, after layout calls = .ok s ∧ s.contains k = .ok found ∧
      (found = true ↔ k ∈ calls.map Insertion.key) := by
  intro exact
  obtain ⟨s, found, run, contains, exact⟩ :=
    exact .ilp32 [⟨5, 2⟩] (by simp [Insertion.drawn, kMaxHeight]) 5
  have missed : (after .ilp32 [⟨5, 2⟩]).bind (·.contains 5) = .ok false := by rfl
  rw [run] at missed
  have answer : found = false := Except.ok.inj (contains.symm.trans missed)
  rw [exact.mpr (by simp)] at answer
  cases answer

end Codelab.SkipList
