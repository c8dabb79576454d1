import Codelab.SkipListSearch

/-! `Insert`: the new node goes behind the last node of each of its levels whose key is not
greater, which on the levels that are new is the head. So the order on level 0 is that of
the keys and, among equal keys, that of the calls. -/

namespace Codelab.SkipList

open State

/-- `s'` is `s` with node `x` linked in on the levels from `lo` to `hi - 1`, on level `j`
behind `p j`. -/
structure Spliced (s s' : State) (x : ℕ) (p : ℕ → ℕ) (lo hi : ℕ) : Prop where
  key : s'.key = s.key
  height : s'.height = s.height
  slots : s'.slots = s.slots
  made : s'.made = s.made
  head : s'.head = s.head
  maxHeight : s'.maxHeight = s.maxHeight
  before : ∀ j, lo ≤ j → j < hi → (s'.heap (p j)).next j = some (some x)
  new : ∀ j, lo ≤ j → j < hi → (s'.heap x).next j = some (s.succ j (p j))
  same : ∀ a j, j < lo ∨ hi ≤ j ∨ a ≠ p j ∧ a ≠ x → (s'.heap a).next j = (s.heap a).next j

/-- What the loop of `Insert` needs of the slots on one level. -/
structure Ready (s : State) (x p j : ℕ) : Prop where
  apart : p ≠ x
  low : j < s.slots p
  written : ((s.heap p).next j).isSome
  fits : j < s.slots x

section

variable {s s' s₁ : State} {x a i j count : ℕ} {p : ℕ → ℕ} {q : Option ℕ}

/-- Storing into one slot. -/
def State.put (s : State) (x n : ℕ) (p : Option ℕ) : State :=
  { s with
    heap := Function.update s.heap x
      { s.heap x with next := Function.update (s.heap x).next n (some p) } }

@[simp] theorem put_made : (s.put x i q).made = s.made := rfl

@[simp] theorem put_head : (s.put x i q).head = s.head := rfl

@[simp] theorem put_maxHeight : (s.put x i q).maxHeight = s.maxHeight := rfl

@[simp] theorem put_key : (s.put x i q).key = s.key := by
  funext a
  by_cases here : a = x
  · simp [here, State.key, put]
  · simp [here, State.key, put]

@[simp] theorem put_height : (s.put x i q).height = s.height := by
  funext a
  by_cases here : a = x
  · simp [here, State.height, put]
  · simp [here, State.height, put]

@[simp] theorem put_slots : (s.put x i q).slots = s.slots := by
  funext a
  by_cases here : a = x
  · simp [here, State.slots, put]
  · simp [here, State.slots, put]

theorem put_slot : ((s.put x i q).heap a).next j =
    if a = x ∧ j = i then some q else (s.heap a).next j := by
  by_cases here : a = x
  · by_cases there : j = i
    · simp [here, there, put]
    · simp [here, there, put]
  · simp [here, put]

theorem setNext_ok (fits : i < s.slots x) : s.setNext x i q = .ok (s.put x i q) := if_pos fits

theorem link_round {slots : ℕ → Option ℕ} (named : slots i = some (p i))
    (ready : Ready s x (p i) i) :
    ∃ s', Spliced s s' x p i (i + 1) ∧
      link x (some slots) (count + 1) i s = link x (some slots) count (i + 1) s' := by
  refine ⟨(s.put x i (s.succ i (p i))).put (p i) i (some x), ?_, ?_⟩
  · refine ⟨by simp, by simp, by simp, rfl, rfl, rfl, ?_, ?_, ?_⟩
    · intro j lo hi
      obtain rfl : j = i := by omega
      simp [put_slot]
    · intro j lo hi
      obtain rfl : j = i := by omega
      simp [put_slot, ready.apart.symm]
    · intro a j far
      have other : ¬(a = p i ∧ j = i) ∧ ¬(a = x ∧ j = i) := by
        by_cases here : j = i
        · subst here
          simp only [and_true]
          omega
        · simp [here]
      simp only [put_slot, if_neg other.1, if_neg other.2]
  · have read : Prev.get (some slots) i = .ok (p i) := by
      simp only [Prev.get, named]
    have second : i < (s.put x i (s.succ i (p i))).slots (p i) := by
      rw [put_slots]
      exact ready.low
    simp only [link, read, next_of_written ready.low ready.written, setNext_ok ready.fits,
      setNext_ok second, bind, Except.bind]

theorem Spliced.trans (h : Spliced s s₁ x p i (i + 1)) (h' : Spliced s₁ s' x p (i + 1) j)
    (lt : i < j) : Spliced s s' x p i j where
  key := h'.key.trans h.key
  height := h'.height.trans h.height
  slots := h'.slots.trans h.slots
  made := h'.made.trans h.made
  head := h'.head.trans h.head
  maxHeight := h'.maxHeight.trans h.maxHeight
  before k lo hi := by
    by_cases first : k = i
    · subst first
      rw [h'.same _ _ (.inl (Nat.lt_succ_self k))]
      exact h.before k (Nat.le_refl k) (Nat.lt_succ_self k)
    · exact h'.before k (by omega) hi
  new k lo hi := by
    by_cases first : k = i
    · subst first
      rw [h'.same _ _ (.inl (Nat.lt_succ_self k))]
      exact h.new k (Nat.le_refl k) (Nat.lt_succ_self k)
    · rw [h'.new k (by omega) hi, State.succ, h.same _ _ (by omega), State.succ]
  same a k far := by
    rw [h'.same a k (by omega), h.same a k (by omega)]

theorem link_ok {slots : ℕ → Option ℕ} (named : ∀ j, i ≤ j → j < i + count → slots j = some (p j))
    (ready : ∀ j, i ≤ j → j < i + count → Ready s x (p j) j) :
    ∃ s', Spliced s s' x p i (i + count) ∧ link x (some slots) count i s = .ok s' := by
  induction count generalizing s i with
  | zero =>
    refine ⟨s, ⟨rfl, rfl, rfl, rfl, rfl, rfl, ?_, ?_, fun _ _ _ => rfl⟩, rfl⟩ <;>
    · intro j lo hi
      omega
  | succ count ih =>
    obtain ⟨s₁, first, round⟩ : ∃ s₁, Spliced s s₁ x p i (i + 1) ∧
        link x (some slots) (count + 1) i s = link x (some slots) count (i + 1) s₁ :=
      link_round (named i (by omega) (by omega)) (ready i (by omega) (by omega))
    have ready' : ∀ j, i + 1 ≤ j → j < i + 1 + count → Ready s₁ x (p j) j := by
      intro j lo hi
      have old := ready j (by omega) (by omega)
      refine ⟨old.apart, ?_, ?_, ?_⟩
      · rw [first.slots]
        exact old.low
      · rw [first.same _ _ (by omega)]
        exact old.written
      · rw [first.slots]
        exact old.fits
    obtain ⟨s', others, rest⟩ := ih (fun j lo hi => named j (by omega) (by omega)) ready'
    rw [Nat.add_assoc, Nat.add_comm 1 count] at others
    exact ⟨s', first.trans others (by omega), round.trans rest⟩

end

/-- The state in which `Insert` begins to link the new node in. -/
def State.grown (s : State) (layout : Layout) (k : Int) (height : ℕ) : State :=
  ({ s with maxHeight := max s.maxHeight height }.newNode layout k height).1

theorem fillHead_ok {s : State} {count i : ℕ} {slots : ℕ → Option ℕ}
    (fits : i + count ≤ kMaxHeight) :
    s.fillHead count i (some slots) =
      .ok (some fun j => if i ≤ j ∧ j < i + count then some s.head else slots j) := by
  induction count generalizing i slots with
  | zero =>
    have none (j : ℕ) : ¬(i ≤ j ∧ j < i + 0) := by omega
    simp only [fillHead, none, if_false]
    rfl
  | succ count ih =>
    have set : Prev.set (some slots) i s.head =
        .ok (some (Function.update slots i (some s.head))) :=
      if_pos (by omega)
    simp only [fillHead, set, bind, Except.bind]
    rw [ih (by omega)]
    congr 2
    funext j
    by_cases first : j = i
    · subst first
      rw [if_neg (by omega), if_pos (by omega), Function.update_self]
    · rw [Function.update_of_ne first]
      by_cases later : i + 1 ≤ j ∧ j < i + 1 + count
      · rw [if_pos later, if_pos (by omega)]
      · rw [if_neg later, if_neg (by omega)]

namespace Shape

variable {s s' : State} {L R : List ℕ} {k : Int} {height : ℕ} {layout : Layout}

theorem last_of_high {i : ℕ} (h : Shape s (L ++ R)) (high : s.maxHeight ≤ i) :
    s.last L i = s.head := by
  have none := h.level_empty high
  rw [level_append, List.append_eq_nil_iff] at none
  rw [State.last, none.1, List.getLastD_nil]

/-- When the linking begins, `prev` names the last node before the key on every level of
the new node. -/
theorem insert_eq_link (h : Shape s (L ++ R)) (le : ∀ a ∈ L, s.key a ≤ k)
    (gt : ∀ a ∈ R, k < s.key a)
    (drawn : height ≤ kMaxHeight) : ∃ slots, (∀ j < height, slots j = some (s.last L j)) ∧
      s.insert layout k height = link s.made (some slots) height 0 (s.grown layout k height) := by
  have found : s.findGreaterOrEqual k (some fun _ => none) =
      .ok (R.head?, some fun j => if j < s.maxHeight then some (s.last L j) else none) :=
    h.findGreaterOrEqual le gt _
  by_cases higher : height > s.maxHeight
  · have filled : s.fillHead (height - s.maxHeight) s.maxHeight
        (some fun j => if j < s.maxHeight then some (s.last L j) else none) =
        .ok (some fun j => if s.maxHeight ≤ j ∧ j < s.maxHeight + (height - s.maxHeight)
          then some s.head else if j < s.maxHeight then some (s.last L j) else none) :=
      fillHead_ok (by omega)
    refine ⟨fun j => if s.maxHeight ≤ j ∧ j < s.maxHeight + (height - s.maxHeight)
      then some s.head else if j < s.maxHeight then some (s.last L j) else none, ?_, ?_⟩
    · intro j low
      by_cases inUse : j < s.maxHeight
      · exact (if_neg (by omega)).trans (if_pos inUse)
      · exact (if_pos (by omega)).trans (congrArg some (h.last_of_high (by omega)).symm)
    · simp only [State.insert, found, bind, Except.bind, if_pos higher, filled]
      rw [State.grown, Nat.max_eq_right (by omega)]
      rfl
  · refine ⟨fun j => if j < s.maxHeight then some (s.last L j) else none, ?_, ?_⟩
    · intro j low
      exact if_pos (by omega)
    · simp only [State.insert, found, bind, Except.bind, if_neg higher]
      rw [State.grown, Nat.max_eq_left (by omega)]
      rfl

end Shape

/-- What a call of `Insert` does: the new node comes behind the nodes of `L`. -/
structure Inserted (s s' : State) (k : Int) (height : ℕ) (L R : List ℕ) : Prop where
  shape : Shape s' (L ++ s.made :: R)
  made : s'.made = s.made + 1
  head : s'.head = s.head
  maxHeight : s'.maxHeight = max s.maxHeight height
  key : s'.key = Function.update s.key s.made k
  height : s'.height = Function.update s.height s.made height

section

variable {s s' : State} {a i j height : ℕ} {k : Int} {L R : List ℕ} {layout : Layout}

theorem grown_key : (s.grown layout k height).key = Function.update s.key s.made k := by
  funext a
  by_cases here : a = s.made
  · simp [here, State.key, State.grown, State.newNode]
  · simp [here, State.key, State.grown, State.newNode]

theorem grown_height :
    (s.grown layout k height).height = Function.update s.height s.made height := by
  funext a
  by_cases here : a = s.made
  · simp [here, State.height, State.grown, State.newNode]
  · simp [here, State.height, State.grown, State.newNode]

theorem grown_slots :
    (s.grown layout k height).slots = Function.update s.slots s.made (layout.slots height) := by
  funext a
  by_cases here : a = s.made
  · simp [here, State.slots, State.grown, State.newNode]
  · simp [here, State.slots, State.grown, State.newNode]

theorem grown_slot (old : a ≠ s.made) :
    ((s.grown layout k height).heap a).next j = (s.heap a).next j := by
  simp [old, State.grown, State.newNode]

theorem Shape.old (h : Shape s (L ++ R)) (ha : a ∈ s.head :: s.level L i) : a ≠ s.made := by
  rcases List.mem_cons.mp ha with rfl | inside
  · exact Nat.ne_of_lt h.head
  · exact Nat.ne_of_lt ((h.mem a).mp (List.mem_append_left R (mem_level.mp inside).1)).1

theorem Shape.last_old (h : Shape s (L ++ R)) : s.last L i ≠ s.made := h.old last_mem

/-- Every slot the loop is about to read and write is there. -/
theorem Shape.ready (h : Shape s (L ++ R)) (narrow : layout.sizeofPtr ≤ layout.sizeofInt)
    (drawn : height ≤ kMaxHeight) (low : j < height) :
    Ready (s.grown layout k height) s.made (s.last L j) j := by
  have present : s.last L j ∈ s.head :: s.level (L ++ R) j := by
    rw [level_append, ← List.cons_append]
    exact List.mem_append_left _ last_mem
  have listed : s.last L j < s.made ∧ j < s.height (s.last L j) := by
    rcases List.mem_cons.mp present with first | inside
    · rw [first, h.headHeight]
      exact ⟨h.head, by omega⟩
    · obtain ⟨member, high⟩ := mem_level.mp inside
      exact ⟨((h.mem _).mp member).1, high⟩
  refine ⟨h.last_old, ?_, ?_, ?_⟩
  · rw [grown_slots, Function.update_of_ne h.last_old]
    exact listed.2.trans_le (h.room _ listed.1)
  · rw [grown_slot h.last_old]
    exact h.written _ listed.1 j listed.2
  · rw [grown_slots, Function.update_self]
    exact low.trans_le (layout.le_slots narrow)

theorem level_old {s : State} {x height i : ℕ} {l : List ℕ}
    (heights : s'.height = Function.update s.height x height) (old : x ∉ l) :
    s'.level l i = s.level l i := by
  apply List.filter_congr
  intro a ha
  have apart : a ≠ x := fun same => old (same ▸ ha)
  rw [heights, Function.update_of_ne apart]

theorem level_new {s : State} {x height i : ℕ}
    (heights : s'.height = Function.update s.height x height) (old : x ∉ L ++ R) :
    s'.level (L ++ x :: R) i = s.level L i ++ (if i < height then [x] else []) ++ s.level R i := by
  have left := level_old (i := i) heights fun inside => old (List.mem_append_left R inside)
  have right := level_old (i := i) heights fun inside => old (List.mem_append_right L inside)
  have here : s'.height x = height := by rw [heights, Function.update_self]
  rw [level_append, left, List.append_assoc]
  congr 1
  rw [State.level, List.filter_cons, here, ← right]
  by_cases low : i < height
  · simp [low, State.level]
  · simp [low, State.level]

theorem Shape.new_not_mem (h : Shape s (L ++ R)) : s.made ∉ L ++ R := fun listed =>
  Nat.lt_irrefl _ ((h.mem _).mp listed).1

/-- On a level of the new node the chain gets one node longer. -/
theorem Shape.splice_chain_new (h : Shape s (L ++ R))
    (spliced : Spliced (s.grown layout k height) s' s.made (s.last L) 0 height)
    (hi : i < kMaxHeight) (low : i < height) :
    Chain.Path (s'.succ i) (some s.head) (s.head :: (s.level L i ++ s.made :: s.level R i)) := by
  have chain := h.chain i hi
  obtain ⟨init, split⟩ : ∃ init, s.head :: s.level L i = init ++ [s.last L i] := by
    refine ⟨(s.head :: s.level L i).dropLast, ?_⟩
    have last := List.dropLast_append_getLast (List.cons_ne_nil s.head (s.level L i))
    rw [List.getLast_eq_getLastD] at last
    exact last.symm
  rw [level_append, ← List.cons_append, split, List.append_assoc, List.singleton_append] at chain
  rw [← List.cons_append, split, List.append_assoc, List.singleton_append]
  refine chain.insert ?_ ?_ ?_ ?_
  · intro again
    have inside : s.made ∈ s.head :: s.level (L ++ R) i := by
      rw [level_append, ← List.cons_append, split, List.append_assoc]
      exact again
    rcases List.mem_cons.mp inside with first | listed
    · exact absurd h.head (by omega)
    · exact h.new_not_mem (mem_level.mp listed).1
  · simp only [State.succ, spliced.new i (Nat.zero_le i) low, Option.join_some,
      grown_slot h.last_old]
  · simp only [State.succ, spliced.before i (Nat.zero_le i) low, Option.join_some]
  · intro b other old
    simp only [State.succ, spliced.same b i (.inr (.inr ⟨other, old⟩)), grown_slot old]

theorem Shape.splice_chain_high (h : Shape s (L ++ R))
    (spliced : Spliced (s.grown layout k height) s' s.made (s.last L) 0 height)
    (hi : i < kMaxHeight) (high : height ≤ i) :
    Chain.Path (s'.succ i) (some s.head) (s.head :: (s.level L i ++ s.level R i)) := by
  have chain := h.chain i hi
  rw [level_append] at chain
  refine chain.congr fun a ha => ?_
  have old : a ≠ s.made := by
    rintro rfl
    rcases List.mem_cons.mp ha with first | listed
    · exact absurd h.head (by omega)
    · rw [← level_append] at listed
      exact h.new_not_mem (mem_level.mp listed).1
  simp only [State.succ, spliced.same a i (.inr (.inl high)), grown_slot old]

theorem Shape.splice_sorted (h : Shape s (L ++ R)) (le : ∀ a ∈ L, s.key a ≤ k)
    (gt : ∀ a ∈ R, k < s.key a) (keys : s'.key = Function.update s.key s.made k) :
    s'.Sorted (L ++ s.made :: R) := by
  have oldKey : ∀ a ∈ L ++ R, s'.key a = s.key a := by
    intro a ha
    have apart : a ≠ s.made := fun same => h.new_not_mem (same ▸ ha)
    rw [keys, Function.update_of_ne apart]
  have newKey : s'.key s.made = k := by rw [keys, Function.update_self]
  obtain ⟨left, right, across⟩ := List.pairwise_append.mp h.sorted
  refine List.pairwise_append.mpr ⟨?_, List.pairwise_cons.mpr ⟨?_, ?_⟩, ?_⟩
  · refine left.imp_of_mem fun {a b} ha hb before => ?_
    rw [oldKey a (List.mem_append_left R ha), oldKey b (List.mem_append_left R hb)]
    exact before
  · intro b hb
    rw [newKey, oldKey b (List.mem_append_right L hb)]
    exact .inl (gt b hb)
  · refine right.imp_of_mem fun {a b} ha hb before => ?_
    rw [oldKey a (List.mem_append_right L ha), oldKey b (List.mem_append_right L hb)]
    exact before
  · intro a ha b hb
    rw [oldKey a (List.mem_append_left R ha)]
    rcases List.mem_cons.mp hb with rfl | hb
    · have le := le a ha
      have older := ((h.mem a).mp (List.mem_append_left R ha)).1
      rw [newKey]
      omega
    · rw [oldKey b (List.mem_append_right L hb)]
      exact across a ha b hb

theorem Shape.splice (h : Shape s (L ++ R)) (narrow : layout.sizeofPtr ≤ layout.sizeofInt)
    (le : ∀ a ∈ L, s.key a ≤ k) (gt : ∀ a ∈ R, k < s.key a) (positive : 0 < height)
    (drawn : height ≤ kMaxHeight)
    (spliced : Spliced (s.grown layout k height) s' s.made (s.last L) 0 height) :
    Inserted s s' k height L R := by
  have keys : s'.key = Function.update s.key s.made k := spliced.key.trans grown_key
  have heights : s'.height = Function.update s.height s.made height :=
    spliced.height.trans grown_height
  have slots : s'.slots = Function.update s.slots s.made (layout.slots height) :=
    spliced.slots.trans grown_slots
  have made : s'.made = s.made + 1 := spliced.made
  have head : s'.head = s.head := spliced.head
  have maxHeight : s'.maxHeight = max s.maxHeight height := spliced.maxHeight
  have oldHeight : ∀ a, a ≠ s.made → s'.height a = s.height a := fun a old => by
    rw [heights, Function.update_of_ne old]
  have newHeight : s'.height s.made = height := by rw [heights, Function.update_self]
  have lowHead := h.head
  refine ⟨⟨?_, ?_, ?_, ?_, ?_, h.splice_sorted le gt keys, ?_, ?_, fun a ha => ?_⟩, made, head,
    maxHeight, keys, heights⟩
  · rw [head, made]
    omega
  · rw [head, oldHeight _ (Nat.ne_of_lt lowHead), h.headHeight]
  · intro a
    have old := h.mem a
    rw [made, head]
    simp only [List.mem_append, List.mem_cons] at old ⊢
    by_cases here : a = s.made
    · subst here
      simp
      omega
    · simp only [here, false_or, old]
      omega
  · intro a ha
    rw [maxHeight]
    by_cases here : a = s.made
    · rw [here, newHeight]
      omega
    · have listed : a ∈ L ++ R := by
        simp only [List.mem_append, List.mem_cons] at ha ⊢
        tauto
      have bounds := h.heights a listed
      rw [oldHeight a here]
      omega
  · have bounds := h.maxHeight
    rw [maxHeight]
    omega
  · intro i hi
    rw [head, level_new heights h.new_not_mem]
    by_cases low : i < height
    · rw [if_pos low, List.append_assoc, List.singleton_append]
      exact h.splice_chain_new spliced hi low
    · rw [if_neg low, List.append_nil]
      exact h.splice_chain_high spliced hi (by omega)
  · intro a ha i low
    by_cases here : a = s.made
    · rw [here, newHeight] at low
      rw [here, spliced.new i (Nat.zero_le i) low]
      rfl
    · by_cases before : i < height ∧ a = s.last L i
      · rw [before.2, spliced.before i (Nat.zero_le i) before.1]
        rfl
      · rw [spliced.same a i (by omega), grown_slot here]
        rw [oldHeight a here] at low
        exact h.written a (by omega) i low
  · rw [heights, slots]
    by_cases here : a = s.made
    · rw [here, Function.update_self, Function.update_self]
      exact layout.le_slots narrow
    · rw [Function.update_of_ne here, Function.update_of_ne here]
      exact h.room a (by omega)

/-- A call of `Insert` succeeds, and the new node comes behind the last node whose key is
not greater. -/
theorem Shape.insert (h : Shape s (L ++ R)) (narrow : layout.sizeofPtr ≤ layout.sizeofInt)
    (le : ∀ a ∈ L, s.key a ≤ k) (gt : ∀ a ∈ R, k < s.key a) (positive : 0 < height)
    (drawn : height ≤ kMaxHeight) :
    ∃ s', s.insert layout k height = .ok s' ∧ Inserted s s' k height L R := by
  obtain ⟨slots, named, calls⟩ := h.insert_eq_link le gt drawn
  have inRange (j : ℕ) (low : j < 0 + height) : j < height := by omega
  have ready (j : ℕ) (_ : 0 ≤ j) (low : j < 0 + height) :
      Ready (s.grown layout k height) s.made (s.last L j) j := h.ready narrow drawn (inRange j low)
  obtain ⟨s', spliced, linked⟩ := link_ok (fun j _ low => named j (inRange j low)) ready
  rw [Nat.zero_add] at spliced
  exact ⟨s', calls.trans linked, h.splice narrow le gt positive drawn spliced⟩

end

end Codelab.SkipList
