import Mathlib.Data.List.Nodup
import Mathlib.Logic.Function.Basic

/-! Circular doubly linked lists through a `next` and a `prev` map. `Seg next prev a l b`
links `a` to `b` both ways through the nodes of `l`; a ring with head `c` is a segment
from `c` back to `c`. -/

namespace Ring

variable {α : Type*} {next prev next' prev' : α → Option α} {a b c x y : α} {l m : List α}

def Seg (next prev : α → Option α) : α → List α → α → Prop
  | a, [], b => next a = some b ∧ prev b = some a
  | a, x :: l, b => next a = some x ∧ prev x = some a ∧ Seg next prev x l b

/-- The ring with head `c` and the nodes of `l` in the order of `next`. -/
def Circle (next prev : α → Option α) (c : α) (l : List α) : Prop :=
  (c :: l).Nodup ∧ Seg next prev c l c

theorem Seg.split (h : Seg next prev a (l ++ x :: m) b) :
    Seg next prev a l x ∧ Seg next prev x m b := by
  induction l generalizing a with
  | nil => exact ⟨⟨h.1, h.2.1⟩, h.2.2⟩
  | cons y l ih =>
    obtain ⟨forth, back, rest⟩ := h
    obtain ⟨left, right⟩ := ih rest
    exact ⟨⟨forth, back, left⟩, right⟩

/-- Only the `next` of the start and the nodes and the `prev` of the nodes and the end
matter. -/
theorem Seg.congr (h : Seg next prev a l b) (forth : ∀ y ∈ a :: l, next' y = next y)
    (back : ∀ y ∈ l ++ [b], prev' y = prev y) : Seg next' prev' a l b := by
  induction l generalizing a with
  | nil =>
    refine ⟨?_, ?_⟩
    · rw [forth a List.mem_cons_self]
      exact h.1
    · rw [back b (by simp)]
      exact h.2
  | cons x l ih =>
    refine ⟨?_, ?_, ih h.2.2 (fun y hy => ?_) fun y hy => ?_⟩
    · rw [forth a List.mem_cons_self]
      exact h.1
    · rw [back x (by simp)]
      exact h.2.1
    · exact forth y (List.mem_cons_of_mem a hy)
    · exact back y (List.mem_cons_of_mem x hy)

theorem Circle.congr (h : Circle next prev c l) (forth : ∀ y ∈ c :: l, next' y = next y)
    (back : ∀ y ∈ c :: l, prev' y = prev y) : Circle next' prev' c l := by
  refine ⟨h.1, h.2.congr forth fun y hy => back y ?_⟩
  rcases List.mem_append.mp hy with node | head
  · exact List.mem_cons_of_mem c node
  · rw [List.mem_singleton.mp head]
    exact List.mem_cons_self

theorem Circle.nodup (h : Circle next prev c l) : l.Nodup := (List.nodup_cons.mp h.1).2

theorem Circle.head_not_mem (h : Circle next prev c l) : c ∉ l := (List.nodup_cons.mp h.1).1

/-- The first node behind the head. -/
theorem Circle.next_head (h : Circle next prev c l) : next c = some (l.headD c) := by
  cases l with
  | nil => exact h.2.1
  | cons x l => exact h.2.1

theorem circle_nil (forth : next c = some c) (back : prev c = some c) : Circle next prev c [] :=
  ⟨List.nodup_singleton c, forth, back⟩

variable [DecidableEq α]

/-- Two segments around a node, joined without it. -/
theorem Seg.join (left : Seg next prev a l x) (right : Seg next prev x m b)
    (nodup : (a :: (l ++ x :: m)).Nodup) (apart : b ∉ l ++ x :: m) :
    ∃ p n, prev x = some p ∧ next x = some n ∧ p ∈ a :: l ∧ n ∈ m ++ [b] ∧
      Seg (Function.update next p (some n)) (Function.update prev n (some p)) a (l ++ m) b := by
  induction l generalizing a with
  | nil =>
    cases m with
    | nil =>
      refine ⟨a, b, left.2, right.1, List.mem_cons_self, by simp, ?_, ?_⟩ <;>
        rw [Function.update_self]
    | cons y m =>
      obtain ⟨forth, back, rest⟩ := right
      simp only [List.nil_append, List.nodup_cons, List.mem_cons, not_or] at nodup apart
      obtain ⟨⟨-, ay, am⟩, -, ym, -⟩ := nodup
      refine ⟨a, y, left.2, forth, List.mem_cons_self, by simp, ?_, ?_, rest.congr ?_ ?_⟩
      · rw [Function.update_self]
      · rw [Function.update_self]
      · intro z hz
        refine Function.update_of_ne ?_ _ _
        rintro rfl
        rcases List.mem_cons.mp hz with e | hz
        · exact ay e
        · exact am hz
      · intro z hz
        refine Function.update_of_ne ?_ _ _
        rintro rfl
        rcases List.mem_append.mp hz with hz | hz
        · exact ym hz
        · exact apart.2.1 (List.mem_singleton.mp hz).symm
  | cons y l ih =>
    obtain ⟨forth, back, rest⟩ := left
    obtain ⟨fresh, nodup⟩ := List.nodup_cons.mp nodup
    have apart' : b ∉ l ++ x :: m := fun hb => apart (List.mem_cons_of_mem y hb)
    obtain ⟨p, n, hprev, hnext, hp, hn, seg⟩ := ih rest nodup apart'
    refine ⟨p, n, hprev, hnext, List.mem_cons_of_mem a hp, hn, ?_, ?_, seg⟩
    · rw [Function.update_of_ne, forth]
      rintro rfl
      refine fresh ?_
      rcases List.mem_cons.mp hp with rfl | hp
      · exact List.mem_cons_self
      · exact List.mem_cons_of_mem y (List.mem_append_left _ hp)
    · rw [Function.update_of_ne, back]
      rintro rfl
      rcases List.mem_append.mp hn with hn | hn
      · refine (List.nodup_cons.mp nodup).1 ?_
        exact List.mem_append_right l (List.mem_cons_of_mem x hn)
      · rw [List.mem_singleton.mp hn] at apart
        exact apart List.mem_cons_self

/-- A new last node of a segment. -/
theorem Seg.snoc (h : Seg next prev a l b) (nodup : (a :: l).Nodup) (apart : b ∉ l)
    (fresh : x ∉ a :: l) (ne : x ≠ b) : ∃ p, prev b = some p ∧ p ∈ a :: l ∧
      Seg (Function.update (Function.update next x (some b)) p (some x))
        (Function.update (Function.update prev x (some p)) b (some x)) a (l ++ [x]) b := by
  induction l generalizing a with
  | nil =>
    have xa : x ≠ a := fun e => fresh (e ▸ List.mem_cons_self)
    refine ⟨a, h.2, List.mem_cons_self, ?_, ?_, ?_, ?_⟩
    · rw [Function.update_self]
    · rw [Function.update_of_ne ne, Function.update_self]
    · rw [Function.update_of_ne xa, Function.update_self]
    · rw [Function.update_self]
  | cons y l ih =>
    obtain ⟨forth, back, rest⟩ := h
    obtain ⟨once, nodup⟩ := List.nodup_cons.mp nodup
    obtain ⟨p, hprev, hp, seg⟩ := ih rest nodup (fun hb => apart (List.mem_cons_of_mem y hb))
      fun hx => fresh (List.mem_cons_of_mem a hx)
    refine ⟨p, hprev, List.mem_cons_of_mem a hp, ?_, ?_, seg⟩
    · rw [Function.update_of_ne, Function.update_of_ne, forth]
      · rintro rfl
        exact fresh List.mem_cons_self
      · rintro rfl
        exact once hp
    · rw [Function.update_of_ne, Function.update_of_ne, back]
      · rintro rfl
        exact fresh (by simp)
      · rintro rfl
        exact apart List.mem_cons_self

/-- Taking a node out between its neighbours. -/
theorem Circle.remove (h : Circle next prev c l) (hx : x ∈ l) :
    ∃ p n, prev x = some p ∧ next x = some n ∧ p ∈ c :: l ∧ n ∈ c :: l ∧ p ≠ x ∧ n ≠ x ∧
      Circle (Function.update next p (some n)) (Function.update prev n (some p)) c (l.erase x) := by
  obtain ⟨before, after, rfl⟩ := List.append_of_mem hx
  obtain ⟨nodup, seg⟩ := h
  obtain ⟨left, right⟩ := seg.split
  have apart : c ∉ before ++ x :: after := (List.nodup_cons.mp nodup).1
  obtain ⟨p, n, hprev, hnext, hp, hn, joined⟩ := left.join right nodup apart
  have once : x ∉ before := by
    intro again
    have := (List.nodup_append.mp (List.nodup_cons.mp nodup).2).2.2
    exact this x again x List.mem_cons_self rfl
  have last : x ∉ after := by
    have := (List.nodup_append.mp (List.nodup_cons.mp nodup).2).2.1
    exact (List.nodup_cons.mp this).1
  have head : x ≠ c := fun e => apart (e ▸ hx)
  have same : (before ++ x :: after).erase x = before ++ after := by
    rw [List.erase_append_right _ once, List.erase_cons_head]
  refine ⟨p, n, hprev, hnext, ?_, ?_, ?_, ?_, ?_⟩
  · rcases List.mem_cons.mp hp with rfl | hp
    · exact List.mem_cons_self
    · exact List.mem_cons_of_mem c (List.mem_append_left _ hp)
  · rcases List.mem_append.mp hn with hn | hn
    · exact List.mem_cons_of_mem c (List.mem_append_right _ (List.mem_cons_of_mem x hn))
    · rw [List.mem_singleton.mp hn]
      exact List.mem_cons_self
  · rintro rfl
    rcases List.mem_cons.mp hp with e | hp
    · exact head e
    · exact once hp
  · rintro rfl
    rcases List.mem_append.mp hn with hn | hn
    · exact last hn
    · exact head (List.mem_singleton.mp hn)
  · rw [same]
    refine ⟨nodup.sublist ?_, joined⟩
    exact List.Sublist.cons_cons c
      (List.Sublist.append_left (List.sublist_cons_self x after) before)

/-- Linking a new node in front of the head, that is behind the last node. -/
theorem Circle.append (h : Circle next prev c l) (fresh : x ∉ c :: l) :
    ∃ p, prev c = some p ∧ p ∈ c :: l ∧
      Circle (Function.update (Function.update next x (some c)) p (some x))
        (Function.update (Function.update prev x (some p)) c (some x)) c (l ++ [x]) := by
  have ne : x ≠ c := fun e => fresh (e ▸ List.mem_cons_self)
  obtain ⟨p, hprev, hp, seg⟩ := h.2.snoc h.1 h.head_not_mem fresh ne
  refine ⟨p, hprev, hp, ?_, seg⟩
  rw [← List.cons_append, List.nodup_append]
  refine ⟨h.1, List.nodup_singleton x, fun y hy z hz e => ?_⟩
  rw [List.mem_singleton.mp hz] at e
  exact fresh (e ▸ hy)

end Ring
