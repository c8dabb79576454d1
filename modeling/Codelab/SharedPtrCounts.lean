import Codelab.SharedPtr
import Mathlib.Tactic.Linarith

/-! The two counters of a block against the references to it. `owners b` is the number of
`shared_count`s that refer to block `b`, `holders b` that of all who keep the block itself:
the `weak_count`s and, while it has owners, the owners together as one. -/

namespace Codelab.SharedPtr

/-- The references that one count makes. -/
def one (c : Count) (b : ℕ) : ℕ := if c = some b then 1 else 0

@[simp] theorem one_none (b : ℕ) : one none b = 0 := rfl

@[simp] theorem one_self (b : ℕ) : one (some b) b = 1 := if_pos rfl

theorem one_of_ne {b c : ℕ} (h : c ≠ b) : one (some b) c = 0 :=
  if_neg fun same => h (Option.some.inj same).symm

structure Counted (m : Memory) (owners holders : ℕ → ℕ) : Prop where
  use : ∀ b < m.made, (m.block b).useCount = owners b
  weak : ∀ b < m.made, (m.block b).weakCount = holders b
  deleted : ∀ b < m.made, m.deleted.count (m.block b).px = if owners b = 0 then 1 else 0
  destroyed : ∀ b < m.made, m.destroyed.count b = if holders b = 0 then 1 else 0
  kept : ∀ b, holders b = 0 → owners b = 0
  unmade : ∀ b, m.made ≤ b → holders b = 0 ∧ b ∉ m.destroyed
  object : ∀ b < m.made, (m.block b).px < m.objects
  distinct : ∀ b < m.made, ∀ c < m.made, (m.block b).px = (m.block c).px → b = c
  known : ∀ p ∈ m.deleted, p < m.objects

/-- The owners keep the block together as one holder. -/
def holders (owners watchers : ℕ → ℕ) (b : ℕ) : ℕ := watchers b + if owners b = 0 then 0 else 1

section

variable {m m' : Memory} {o t o' t' w : ℕ → ℕ} {b p : ℕ} {x : Block}

namespace Counted

theorem made_of_held (h : Counted m o t) (held : 0 < t b) : b < m.made := by
  by_contra beyond
  have none := (h.unmade b (by omega)).1
  omega

theorem not_destroyed (h : Counted m o t) (held : 0 < t b) : b ∉ m.destroyed := by
  have alive := h.destroyed b (h.made_of_held held)
  rw [if_neg (by omega)] at alive
  exact List.count_eq_zero.mp alive

theorem load_ok (h : Counted m o t) (held : 0 < t b) : m.load b = .ok (m.block b) :=
  if_neg (h.not_destroyed held)

end Counted

/-- The blocks stay, each with the object it was made for, and what is deleted stays so. -/
structure Kept (m m' : Memory) : Prop where
  made : m.made ≤ m'.made
  px : ∀ b < m.made, (m'.block b).px = (m.block b).px
  deleted : m.deleted <:+ m'.deleted

theorem Kept.refl (m : Memory) : Kept m m := ⟨Nat.le_refl _, fun _ _ => rfl, List.suffix_refl _⟩

theorem Kept.trans {m'' : Memory} (h : Kept m m') (h' : Kept m' m'') : Kept m m'' where
  made := Nat.le_trans h.made h'.made
  px b hb := (h'.px b (Nat.lt_of_lt_of_le hb h.made)).trans (h.px b hb)
  deleted := h.deleted.trans h'.deleted

/-- `m'` is `m` with block `b` changed to `x`, which points to the same object. -/
structure Stored (m m' : Memory) (b : ℕ) (x : Block) : Prop where
  here : m'.block b = x
  px : x.px = (m.block b).px
  others : ∀ c, c ≠ b → m'.block c = m.block c
  made : m'.made = m.made
  objects : m'.objects = m.objects

theorem Stored.px_eq (h : Stored m m' b x) (c : ℕ) : (m'.block c).px = (m.block c).px := by
  by_cases same : c = b
  · rw [same, h.here, h.px]
  · rw [h.others c same]

theorem Stored.kept (h : Stored m m' b x) (deleted : m.deleted <:+ m'.deleted) : Kept m m' :=
  ⟨Nat.le_of_eq h.made.symm, fun c _ => h.px_eq c, deleted⟩

theorem Counted.store (h : Counted m o t) (held : 0 < t b) (px : x.px = (m.block b).px) :
    ∃ m', m.store b x = .ok m' ∧ Stored m m' b x ∧ m'.deleted = m.deleted ∧
      m'.destroyed = m.destroyed := by
  refine ⟨{ m with block := Function.update m.block b x }, if_neg (h.not_destroyed held),
    ?_, rfl, rfl⟩
  exact ⟨Function.update_self .., px, fun c other => Function.update_of_ne other .., rfl, rfl⟩

/-- A change of the counters, the deletions and the destructions at block `b` only. -/
theorem Counted.change (h : Counted m o t) (held : 0 < t b) (stored : Stored m m' b x)
    (owners : ∀ c, c ≠ b → o' c = o c) (holders : ∀ c, c ≠ b → t' c = t c)
    (use : x.useCount = o' b) (weak : x.weakCount = t' b) (kept : t' b = 0 → o' b = 0)
    (deleted : m'.deleted.count x.px = if o' b = 0 then 1 else 0)
    (deletions : ∀ p, p ≠ x.px → m'.deleted.count p = m.deleted.count p)
    (destroyed : m'.destroyed.count b = if t' b = 0 then 1 else 0)
    (destructions : ∀ c, c ≠ b → m'.destroyed.count c = m.destroyed.count c) :
    Counted m' o' t' where
  use c hc := by
    rw [stored.made] at hc
    by_cases same : c = b
    · rw [same, stored.here, use]
    · rw [stored.others c same, owners c same, h.use c hc]
  weak c hc := by
    rw [stored.made] at hc
    by_cases same : c = b
    · rw [same, stored.here, weak]
    · rw [stored.others c same, holders c same, h.weak c hc]
  deleted c hc := by
    rw [stored.made] at hc
    by_cases same : c = b
    · rw [same, stored.here, deleted]
    · have apart : (m.block c).px ≠ x.px := by
        rw [stored.px]
        exact fun equal => same (h.distinct c hc b (h.made_of_held held) equal)
      rw [stored.others c same, deletions _ apart, owners c same, h.deleted c hc]
  destroyed c hc := by
    rw [stored.made] at hc
    by_cases same : c = b
    · rw [same, destroyed]
    · rw [destructions c same, holders c same, h.destroyed c hc]
  kept c none := by
    by_cases same : c = b
    · rw [same] at none ⊢
      exact kept none
    · rw [owners c same]
      rw [holders c same] at none
      exact h.kept c none
  unmade c hc := by
    rw [stored.made] at hc
    have made := h.made_of_held held
    have same : c ≠ b := by omega
    obtain ⟨none, absent⟩ := h.unmade c hc
    rw [holders c same]
    refine ⟨none, List.count_eq_zero.mp ?_⟩
    rw [destructions c same]
    exact List.count_eq_zero.mpr absent
  object c hc := by
    rw [stored.made] at hc
    rw [stored.px_eq, stored.objects]
    exact h.object c hc
  distinct c hc d hd equal := by
    rw [stored.made] at hc hd
    rw [stored.px_eq, stored.px_eq] at equal
    exact h.distinct c hc d hd equal
  known p hp := by
    rw [stored.objects]
    by_cases mine : p = x.px
    · rw [mine, stored.px]
      exact h.object b (h.made_of_held held)
    · have before := deletions p mine
      exact h.known p (List.count_pos_iff.mp (before ▸ List.count_pos_iff.mpr hp))

/-- A change of the counters alone. -/
theorem Counted.recount (h : Counted m o t) (held : 0 < t b) (stored : Stored m m' b x)
    (owners : ∀ c, c ≠ b → o' c = o c) (holders : ∀ c, c ≠ b → t' c = t c)
    (use : x.useCount = o' b) (weak : x.weakCount = t' b)
    (owned : o' b = 0 ↔ o b = 0) (still : t' b ≠ 0)
    (deleted : m'.deleted = m.deleted) (destroyed : m'.destroyed = m.destroyed) :
    Counted m' o' t' := by
  refine h.change held stored owners holders use weak (fun none => absurd none still) ?_ ?_ ?_ ?_
  · rw [deleted, stored.px, h.deleted b (h.made_of_held held)]
    simp only [owned]
  · intro p _
    rw [deleted]
  · rw [destroyed, h.destroyed b (h.made_of_held held), if_neg (by omega), if_neg still]
  · intro c _
    rw [destroyed]

theorem Counted.addRefCopy (h : Counted m o t) (owned : 0 < o b) :
    ∃ m', m.addRefCopy b = .ok m' ∧ Kept m m' ∧ Counted m' (o + one (some b)) t := by
  have held : 0 < t b := by
    have kept := h.kept b
    omega
  obtain ⟨m', store, stored, deleted, destroyed⟩ := h.store held
    (x := { m.block b with useCount := (m.block b).useCount + 1 }) rfl
  refine ⟨m', ?_, stored.kept (deleted ▸ List.suffix_refl _), ?_⟩
  · simp only [Memory.addRefCopy, h.load_ok held, bind, Except.bind]
    exact store
  · have use := h.use b (h.made_of_held held)
    refine h.recount held stored ?_ (fun _ _ => rfl) ?_ (h.weak b (h.made_of_held held)) ?_
      (by omega) deleted destroyed
    · intro c other
      simp [one_of_ne other]
    · simp [use]
    · simp
      omega

theorem Counted.weakAddRef (h : Counted m o t) (held : 0 < t b) :
    ∃ m', m.weakAddRef b = .ok m' ∧ Kept m m' ∧ Counted m' o (t + one (some b)) := by
  obtain ⟨m', store, stored, deleted, destroyed⟩ := h.store held
    (x := { m.block b with weakCount := (m.block b).weakCount + 1 }) rfl
  refine ⟨m', ?_, stored.kept (deleted ▸ List.suffix_refl _), ?_⟩
  · simp only [Memory.weakAddRef, h.load_ok held, bind, Except.bind]
    exact store
  · have weak := h.weak b (h.made_of_held held)
    refine h.recount held stored (fun _ _ => rfl) ?_ (h.use b (h.made_of_held held)) ?_ Iff.rfl ?_
      deleted destroyed
    · intro c other
      simp [one_of_ne other]
    · simp [weak]
    · simp

theorem Counted.weakRelease (h : Counted m o (t + one (some b))) (kept : t b = 0 → o b = 0) :
    ∃ m', m.weakRelease b = .ok m' ∧ Kept m m' ∧ Counted m' o t := by
  have held : 0 < (t + one (some b)) b := by simp
  have made := h.made_of_held held
  have weak := h.weak b made
  simp only [Pi.add_apply, one_self] at weak
  have others : ∀ c, c ≠ b → t c = (t + one (some b)) c := by
    intro c other
    simp [one_of_ne other]
  obtain ⟨m', store, stored, deleted, destroyed⟩ := h.store held
    (x := { m.block b with weakCount := (m.block b).weakCount - 1 }) rfl
  by_cases last : t b = 0
  · have alive : m'.load b = .ok (m'.block b) := by
      refine if_neg ?_
      rw [destroyed]
      exact h.not_destroyed held
    have kept' : Kept m m' := stored.kept (deleted ▸ List.suffix_refl _)
    refine ⟨{ m' with destroyed := b :: m'.destroyed }, ?_,
      ⟨kept'.made, kept'.px, kept'.deleted⟩, ?_⟩
    · have one : (m.block b).weakCount = 1 := by omega
      simp only [Memory.weakRelease, h.load_ok held, store, bind, Except.bind, if_pos one,
        Memory.destroy, alive]
      rfl
    · refine h.change held ⟨stored.here, stored.px, stored.others, stored.made, stored.objects⟩
        (fun _ _ => rfl) others (h.use b made) (by simp; omega) kept ?_ ?_ ?_ ?_
      · rw [deleted]
        exact h.deleted b made
      · intro p _
        rw [deleted]
      · have before := h.destroyed b made
        rw [if_neg (by omega)] at before
        rw [destroyed, List.count_cons_self, before, if_pos last]
      · intro c other
        rw [destroyed, List.count_cons_of_ne other.symm]
  · refine ⟨m', ?_, stored.kept (deleted ▸ List.suffix_refl _), ?_⟩
    · have more : (m.block b).weakCount ≠ 1 := by omega
      simp only [Memory.weakRelease, h.load_ok held, store, bind, Except.bind, if_neg more]
      rfl
    · exact h.recount held stored (fun _ _ => rfl) others (h.use b made) (by simp; omega) Iff.rfl
        last deleted destroyed

theorem Counted.release (h : Counted m (o + one (some b)) (holders (o + one (some b)) w)) :
    ∃ m', m.release b = .ok m' ∧ Kept m m' ∧ Counted m' o (holders o w) := by
  have held : 0 < holders (o + one (some b)) w b := by simp [holders]
  have made := h.made_of_held held
  have use := h.use b made
  have weak := h.weak b made
  simp only [holders, Pi.add_apply, one_self, Nat.add_one_ne_zero, if_false] at use weak
  have owners : ∀ c, c ≠ b → o c = (o + one (some b)) c := by
    intro c other
    simp [one_of_ne other]
  have keepers : ∀ c, c ≠ b → holders o w c = holders (o + one (some b)) w c := by
    intro c other
    rw [holders, holders, owners c other]
  obtain ⟨m', store, stored, deleted, destroyed⟩ := h.store held
    (x := { m.block b with useCount := (m.block b).useCount - 1 }) rfl
  by_cases last : o b = 0
  · have alive : m'.load b = .ok (m'.block b) := by
      refine if_neg ?_
      rw [destroyed]
      exact h.not_destroyed held
    let disposed : Memory := { m' with deleted := (m'.block b).px :: m'.deleted }
    have mine : (m'.block b).px = (m.block b).px := stored.px_eq b
    have between : Counted disposed o (holders o w + one (some b)) := by
      refine h.change held ⟨stored.here, stored.px, stored.others, stored.made, stored.objects⟩
        owners ?_ (by simp; omega) (by simp [holders, last]; omega) ?_ ?_ ?_ ?_ ?_
      · intro c other
        simp [keepers c other, one_of_ne other]
      · intro none
        simp at none
      · have before := h.deleted b made
        simp only [Pi.add_apply, one_self, Nat.add_one_ne_zero, if_false] at before
        simp only [disposed, mine, deleted, List.count_cons_self, before, last, if_true]
      · intro p other
        simp only [disposed, mine, deleted]
        exact List.count_cons_of_ne other.symm
      · simp only [disposed, destroyed, Pi.add_apply, one_self, Nat.add_one_ne_zero, if_false]
        exact List.count_eq_zero.mpr (h.not_destroyed held)
      · intro c _
        simp only [disposed, destroyed]
    obtain ⟨m'', weakly, kept, done⟩ := between.weakRelease fun _ => last
    have kept' : Kept m m' := stored.kept (deleted ▸ List.suffix_refl _)
    have same : Kept m disposed :=
      ⟨kept'.made, kept'.px, kept'.deleted.trans (List.suffix_cons _ _)⟩
    refine ⟨m'', ?_, same.trans kept, done⟩
    have one : (m.block b).useCount = 1 := by omega
    simp only [Memory.release, h.load_ok held, store, bind, Except.bind, if_pos one,
      Memory.dispose, alive]
    exact weakly
  · refine ⟨m', ?_, stored.kept (deleted ▸ List.suffix_refl _), ?_⟩
    · have more : (m.block b).useCount ≠ 1 := by omega
      simp only [Memory.release, h.load_ok held, store, bind, Except.bind, if_neg more]
      rfl
    · refine h.recount held stored owners keepers (by simp; omega) ?_ ?_ ?_ deleted destroyed
      · simp only [holders, if_neg last]
        exact weak
      · simp [last]
      · simp [holders, last]

/-- A raw pointer that no block has got yet. -/
structure Fresh (m : Memory) (p : ℕ) : Prop where
  object : p < m.objects
  kept : p ∉ m.deleted
  unowned : ∀ b < m.made, (m.block b).px ≠ p

theorem Counted.newObject (h : Counted m o t) :
    Counted { m with objects := m.objects + 1 } o t ∧
      Fresh { m with objects := m.objects + 1 } m.objects := by
  refine ⟨{ h with object := ?_, known := ?_ }, Nat.lt_succ_self m.objects, ?_, ?_⟩
  · exact fun b hb => Nat.lt_succ_of_lt (h.object b hb)
  · exact fun p hp => Nat.lt_succ_of_lt (h.known p hp)
  · exact fun listed => Nat.lt_irrefl _ (h.known _ listed)
  · exact fun b hb => Nat.ne_of_lt (h.object b hb)

/-- A throwing `new` leaves the counts and deletes the object. -/
theorem Counted.throw (h : Counted m o t) (fresh : Fresh m p) :
    Counted { m with deleted := p :: m.deleted } o t := by
  refine { h with deleted := ?_, known := ?_ }
  · intro b hb
    rw [List.count_cons_of_ne (fresh.unowned b hb).symm]
    exact h.deleted b hb
  · intro q hq
    rcases List.mem_cons.mp hq with rfl | hq
    · exact fresh.object
    · exact h.known q hq

/-- The memory with a new block for `p`. -/
def Memory.grown (m : Memory) (p : ℕ) : Memory :=
  { m with
    block := Function.update m.block m.made { useCount := 1, weakCount := 1, px := p }
    made := m.made + 1 }

theorem Counted.construct (h : Counted m o (holders o w)) (fresh : Fresh m p) :
    Counted (m.grown p) (o + one (some m.made)) (holders (o + one (some m.made)) w) := by
  obtain ⟨unheld, absent⟩ := h.unmade m.made (Nat.le_refl _)
  have unowned := h.kept m.made unheld
  have unwatched : w m.made = 0 := by
    simp only [holders] at unheld
    omega
  have newBlock : (m.grown p).block m.made = { useCount := 1, weakCount := 1, px := p } :=
    Function.update_self ..
  have oldBlock : ∀ b, b ≠ m.made → (m.grown p).block b = m.block b := fun b other =>
    Function.update_of_ne other ..
  have owners : ∀ b, b ≠ m.made → (o + one (some m.made)) b = o b := by
    intro b other
    simp [one_of_ne other]
  have keepers : ∀ b, b ≠ m.made → holders (o + one (some m.made)) w b = holders o w b := by
    intro b other
    rw [holders, holders, owners b other]
  have newOwner : (o + one (some m.made)) m.made = 1 := by simp [unowned]
  have newHolder : holders (o + one (some m.made)) w m.made = 1 := by
    simp [holders, unowned, unwatched]
  have old : ∀ b < m.made + 1, b ≠ m.made → b < m.made := fun b hb other => by omega
  refine ⟨?_, ?_, ?_, ?_, ?_, ?_, ?_, ?_, h.known⟩
  · intro b hb
    by_cases here : b = m.made
    · rw [here, newBlock, newOwner]
      rfl
    · rw [oldBlock b here, owners b here, h.use b (old b hb here)]
  · intro b hb
    by_cases here : b = m.made
    · rw [here, newBlock, newHolder]
      rfl
    · rw [oldBlock b here, keepers b here, h.weak b (old b hb here)]
  · intro b hb
    by_cases here : b = m.made
    · rw [here, newBlock, newOwner]
      exact List.count_eq_zero.mpr fresh.kept
    · rw [oldBlock b here, owners b here]
      exact h.deleted b (old b hb here)
  · intro b hb
    by_cases here : b = m.made
    · rw [here, newHolder]
      exact List.count_eq_zero.mpr absent
    · rw [keepers b here]
      exact h.destroyed b (old b hb here)
  · intro b none
    by_cases here : b = m.made
    · rw [here, newHolder] at none
      omega
    · rw [keepers b here] at none
      rw [owners b here]
      exact h.kept b none
  · intro b hb
    have beyond : m.made + 1 ≤ b := hb
    have here : b ≠ m.made := by omega
    rw [keepers b here]
    exact h.unmade b (by omega)
  · intro b hb
    by_cases here : b = m.made
    · rw [here, newBlock]
      exact fresh.object
    · rw [oldBlock b here]
      exact h.object b (old b hb here)
  · intro b hb c hc equal
    by_cases here : b = m.made
    · by_cases there : c = m.made
      · rw [here, there]
      · rw [here, newBlock, oldBlock c there] at equal
        exact absurd equal.symm (fresh.unowned c (old c hc there))
    · by_cases there : c = m.made
      · rw [there, newBlock, oldBlock b here] at equal
        exact absurd equal (fresh.unowned b (old b hb here))
      · rw [oldBlock b here, oldBlock c there] at equal
        exact h.distinct b (old b hb here) c (old c hc there) equal

end

end Codelab.SharedPtr
