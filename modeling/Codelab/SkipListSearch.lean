import Codelab.SkipList
import Mathlib.Data.List.TakeWhile
import Mathlib.Data.List.Perm.Subperm
import Mathlib.Tactic.Linarith

/-! The descent of `FindGreaterOrEqual`. The chain on level 0 is a list `order` of nodes
sorted by key, and the chain on level `i` is what is left of it when the nodes not higher
than `i` are taken out. On each level the search walks to the last node whose key is not
greater than the one looked for. -/

namespace Codelab.SkipList

namespace State

variable (s : State)

def key (a : ℕ) : Int := (s.heap a).key

def height (a : ℕ) : ℕ := (s.heap a).height

def slots (a : ℕ) : ℕ := (s.heap a).slots

/-- The node after `a` on level `i`. -/
def succ (i a : ℕ) : Option ℕ := ((s.heap a).next i).join

/-- The nodes of `order` that are on level `i`. -/
def level (order : List ℕ) (i : ℕ) : List ℕ := order.filter fun a => i < s.height a

variable {s} {a i : ℕ} {L R order : List ℕ}

theorem mem_level : a ∈ s.level order i ↔ a ∈ order ∧ i < s.height a := by
  simp [level]

theorem level_append : s.level (L ++ R) i = s.level L i ++ s.level R i := by
  simp [level]

theorem level_succ_sublist : (s.level order (i + 1)).Sublist (s.level order i) := by
  apply List.monotone_filter_right
  intro a high
  simp only [decide_eq_true_eq] at high ⊢
  omega

theorem level_sublist : (s.level order i).Sublist order := List.filter_sublist

theorem next_of_written (low : i < s.slots a) (written : ((s.heap a).next i).isSome) :
    s.next a i = .ok (s.succ i a) := by
  obtain ⟨p, slot⟩ := Option.isSome_iff_exists.mp written
  simp only [next, succ, slot]
  exact if_pos low

/-- Nodes in the order of their keys, equal keys in the order of their allocation. -/
def Sorted (s : State) (order : List ℕ) : Prop :=
  order.Pairwise fun a b => s.key a < s.key b ∨ s.key a = s.key b ∧ a < b

end State

open State

/-- `order` is the chain on level 0, and every level is threaded through the nodes that
are high enough. -/
structure Shape (s : State) (order : List ℕ) : Prop where
  head : s.head < s.made
  headHeight : s.height s.head = kMaxHeight
  mem : ∀ a, a ∈ order ↔ a < s.made ∧ a ≠ s.head
  heights : ∀ a ∈ order, 0 < s.height a ∧ s.height a ≤ s.maxHeight
  maxHeight : 0 < s.maxHeight ∧ s.maxHeight ≤ kMaxHeight
  sorted : s.Sorted order
  chain : ∀ i < kMaxHeight, Chain.Path (s.succ i) (some s.head) (s.head :: s.level order i)
  written : ∀ a < s.made, ∀ i < s.height a, ((s.heap a).next i).isSome
  room : ∀ a < s.made, s.height a ≤ s.slots a

namespace Shape

variable {s : State} {order L R rest beyond : List ℕ} {a x i rounds : ℕ} {k : Int} {prev : Prev}

theorem next_ok (h : Shape s order) (hi : i < kMaxHeight) (ha : a ∈ s.head :: s.level order i) :
    s.next a i = .ok (s.succ i a) := by
  rcases List.mem_cons.mp ha with rfl | inside
  · have low : i < s.height s.head := by
      rw [h.headHeight]
      exact hi
    exact next_of_written (low.trans_le (h.room _ h.head)) (h.written _ h.head i low)
  · obtain ⟨listed, low⟩ := mem_level.mp inside
    have made := ((h.mem a).mp listed).1
    exact next_of_written (low.trans_le (h.room a made)) (h.written a made i low)

theorem nodup (h : Shape s order) : order.Nodup :=
  h.sorted.imp fun before => by
    rintro rfl
    omega

theorem length_lt (h : Shape s order) : order.length < s.made := by
  have distinct : (s.head :: order).Nodup :=
    List.nodup_cons.mpr ⟨fun listed => ((h.mem _).mp listed).2 rfl, h.nodup⟩
  have within : s.head :: order ⊆ List.range s.made := by
    intro a ha
    rw [List.mem_range]
    rcases List.mem_cons.mp ha with rfl | listed
    · exact h.head
    · exact ((h.mem a).mp listed).1
  have short := (List.Nodup.subperm distinct within).length_le
  rw [List.length_cons, List.length_range] at short
  omega

theorem level_zero (h : Shape s order) : s.level order 0 = order :=
  List.filter_eq_self.mpr fun a ha => decide_eq_true (h.heights a ha).1

theorem level_empty (h : Shape s order) (high : s.maxHeight ≤ i) : s.level order i = [] := by
  rw [level, List.filter_eq_nil_iff]
  intro a ha
  have low := (h.heights a ha).2
  simp only [decide_eq_true_eq]
  omega

end Shape

theorem search_forward {s : State} {k : Int} {rounds x n i : ℕ} {prev : Prev}
    (next : s.next x i = .ok (some n)) (le : s.key n ≤ k) :
    s.search k (rounds + 1) x i prev = s.search k rounds n i prev := by
  have go : (some n).filter (fun n => k ≥ (s.heap n).key) = some n :=
    Option.filter_some_pos (decide_eq_true le)
  simp only [search, next, bind, Except.bind, go]

theorem search_down {s : State} {k : Int} {rounds x i : ℕ} {prev : Prev} {p : Option ℕ}
    (next : s.next x i = .ok p) (gt : ∀ n, p = some n → k < s.key n) :
    s.search k (rounds + 1) x i prev = (prev.record i x).bind fun prev =>
      if i = 0 then .ok (p, prev) else s.search k rounds x (i - 1) prev := by
  have stop : p.filter (fun n => k ≥ (s.heap n).key) = none := by
    rw [Option.filter_eq_none_iff]
    intro n hn
    have less := gt n hn
    simp only [State.key] at less
    simp only [ge_iff_le, decide_eq_true_eq]
    omega
  simp only [search, next, bind, Except.bind, stop]
  rfl

/-- The walk along level `i` from `x` over the nodes whose keys are not greater. -/
theorem search_walk {s : State} {k : Int} {rounds x i : ℕ} {prev : Prev} {rest beyond : List ℕ}
    (path : Chain.Path (s.succ i) (some x) (x :: (rest ++ beyond)))
    (readable : ∀ a ∈ x :: rest, s.next a i = .ok (s.succ i a))
    (le : ∀ a ∈ rest, s.key a ≤ k) (gt : ∀ a ∈ beyond, k < s.key a) :
    s.search k (rounds + rest.length + 1) x i prev =
      (prev.record i (rest.getLastD x)).bind fun prev =>
        if i = 0 then .ok (beyond.head?, prev)
        else s.search k rounds (rest.getLastD x) (i - 1) prev := by
  induction rest generalizing x with
  | nil =>
    have last : s.succ i x = beyond.head? := by
      have tail := path.2
      cases beyond with
      | nil => exact tail
      | cons b beyond => exact tail.1
    have next := readable x List.mem_cons_self
    rw [last] at next
    exact search_down next fun n hn => gt n (List.mem_of_mem_head? hn)
  | cons b rest ih =>
    have next : s.next x i = .ok (some b) := by
      rw [readable x List.mem_cons_self, path.2.1]
    rw [List.length_cons, ← Nat.add_assoc, search_forward next (le b List.mem_cons_self),
      List.getLastD_cons]
    refine ih ⟨rfl, path.2.2⟩ (fun a ha => readable a (List.mem_cons_of_mem x ha))
      fun a ha => le a (List.mem_cons_of_mem b ha)

/-- The last node of `L` on level `i`, or the head. -/
def State.last (s : State) (L : List ℕ) (i : ℕ) : ℕ := (s.level L i).getLastD s.head

theorem last_mem {s : State} {L : List ℕ} {i : ℕ} : s.last L i ∈ s.head :: s.level L i :=
  List.getLastD_mem_cons

theorem record_ok {prev : Prev} {i x : ℕ} (hi : i < kMaxHeight) :
    prev.record i x = .ok (prev.map fun slots => Function.update slots i (some x)) := by
  cases prev with
  | none => rfl
  | some slots => exact if_pos hi

theorem getLastD_of_split {before rest l : List ℕ} {x d : ℕ}
    (split : d :: l = before ++ x :: rest) :
    rest.getLastD x = l.getLastD d := by
  rw [← List.getLast_eq_getLastD (List.cons_ne_nil x rest),
    ← List.getLast_eq_getLastD (List.cons_ne_nil d l)]
  simp only [split]
  exact (List.getLast_append_of_ne_nil _ (List.cons_ne_nil x rest)).symm

theorem mem_of_split {before rest l : List ℕ} {a x d : ℕ} (split : d :: l = before ++ x :: rest)
    (ha : a ∈ rest) : a ∈ l := by
  cases before with
  | nil =>
    injection split with _ tail
    exact tail ▸ ha
  | cons b before =>
    injection split with _ tail
    rw [tail]
    exact List.mem_append_right before (List.mem_cons_of_mem x ha)

/-- One level of the search, from any node on it that is not beyond the key: it uses up
at most one round for every node. -/
theorem Shape.search_level {s : State} {L R : List ℕ} (h : Shape s (L ++ R)) {k : Int}
    (le : ∀ a ∈ L, s.key a ≤ k) (gt : ∀ a ∈ R, k < s.key a) {i x rounds left : ℕ} (prev : Prev)
    (hi : i < kMaxHeight) (hx : x ∈ s.head :: s.level L i) (enough : s.made + left ≤ rounds) :
    ∃ rounds', left ≤ rounds' ∧ s.search k rounds x i prev =
      (prev.record i (s.last L i)).bind fun prev =>
        if i = 0 then .ok ((s.level R i).head?, prev)
        else s.search k rounds' (s.last L i) (i - 1) prev := by
  obtain ⟨before, rest, split⟩ := List.append_of_mem hx
  have short : rest.length < s.made := by
    have parts := congrArg List.length split
    have part := (show (s.level L i).Sublist L from level_sublist).length_le
    have whole := h.length_lt
    simp only [List.length_cons, List.length_append] at parts whole
    omega
  have path : Chain.Path (s.succ i) (some x) (x :: (rest ++ s.level R i)) := by
    have chain := h.chain i hi
    rw [level_append, ← List.cons_append, split, List.append_assoc, List.cons_append] at chain
    exact ⟨rfl, chain.drop⟩
  have inside : ∀ a ∈ x :: rest, a ∈ s.head :: s.level L i := by
    intro a ha
    rw [split]
    exact List.mem_append_right before ha
  refine ⟨rounds - (rest.length + 1), by omega, ?_⟩
  have count : rounds = rounds - (rest.length + 1) + rest.length + 1 := by omega
  have last : s.last L i = rest.getLastD x := (getLastD_of_split split).symm
  rw [last, count, search_walk path]
  · simp only [Nat.add_sub_cancel, Nat.add_assoc]
  · intro a ha
    apply h.next_ok hi
    rw [level_append, ← List.cons_append]
    exact List.mem_append_left _ (inside a ha)
  · exact fun a ha => le a (mem_level.mp (mem_of_split split ha)).1
  · exact fun a ha => gt a (mem_level.mp ha).1

/-- The descent from any node on level `i` that is not beyond the key. -/
theorem Shape.search_descend {s : State} {L R : List ℕ} (h : Shape s (L ++ R)) {k : Int}
    (le : ∀ a ∈ L, s.key a ≤ k) (gt : ∀ a ∈ R, k < s.key a) {i x rounds : ℕ} {prev : Prev}
    (hi : i < kMaxHeight) (hx : x ∈ s.head :: s.level L i) (enough : s.made * (i + 1) ≤ rounds) :
    s.search k rounds x i prev = .ok (R.head?, prev.map fun slots j =>
      if j ≤ i then some (s.last L j) else slots j) := by
  induction i generalizing x rounds prev with
  | zero =>
    have room : s.made + 0 ≤ rounds := by omega
    obtain ⟨rounds', -, found⟩ := h.search_level le gt prev hi hx room
    have all : s.level R 0 = R := List.filter_eq_self.mpr fun a ha =>
      decide_eq_true (h.heights a (List.mem_append_right L ha)).1
    rw [found, record_ok hi, all]
    have slots : (fun (slots : ℕ → Option ℕ) => Function.update slots 0 (some (s.last L 0))) =
        fun slots j => if j ≤ 0 then some (s.last L j) else slots j := by
      funext slots j
      cases j with
      | zero => simp
      | succ j => simp
    rw [slots]
    rfl
  | succ i ih =>
    have room : s.made + s.made * (i + 1) ≤ rounds := by
      rw [Nat.mul_succ] at enough
      omega
    obtain ⟨rounds', enough', found⟩ := h.search_level le gt prev hi hx room
    have lower : s.last L (i + 1) ∈ s.head :: s.level L i :=
      List.cons_subset_cons s.head level_succ_sublist.subset last_mem
    rw [found, record_ok hi]
    simp only [Except.bind, Nat.add_sub_cancel]
    rw [if_neg (Nat.succ_ne_zero i), ih (by omega) lower enough', Option.map_map]
    have slots : (fun (slots : ℕ → Option ℕ) j => if j ≤ i then some (s.last L j) else slots j) ∘
        (fun slots => Function.update slots (i + 1) (some (s.last L (i + 1)))) =
        fun slots j => if j ≤ i + 1 then some (s.last L j) else slots j := by
      funext slots j
      simp only [Function.comp_apply, Function.update_apply]
      by_cases low : j ≤ i
      · rw [if_pos low, if_pos (by omega)]
      · by_cases top : j = i + 1
        · rw [top]
          simp
        · rw [if_neg low, if_neg top, if_neg (by omega)]
    rw [slots]

/-- `FindGreaterOrEqual` returns the first node with a greater key, and lets `prev` name
the node before it on every level in use. -/
theorem Shape.findGreaterOrEqual {s : State} {L R : List ℕ} (h : Shape s (L ++ R)) {k : Int}
    (le : ∀ a ∈ L, s.key a ≤ k) (gt : ∀ a ∈ R, k < s.key a) (prev : Prev) :
    s.findGreaterOrEqual k prev = .ok (R.head?, prev.map fun slots j =>
      if j < s.maxHeight then some (s.last L j) else slots j) := by
  obtain ⟨positive, bounded⟩ := h.maxHeight
  have top : s.maxHeight - 1 + 1 = s.maxHeight := by omega
  have enough : s.made * (s.maxHeight - 1 + 1) ≤ s.made * s.maxHeight := by rw [top]
  rw [State.findGreaterOrEqual, h.search_descend le gt (by omega) List.mem_cons_self enough]
  simp only [Nat.le_sub_one_iff_lt positive]

end Codelab.SkipList
