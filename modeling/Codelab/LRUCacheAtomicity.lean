import Codelab.LRUCachePolicy

/-! When an Insert refuses, and what it leaves behind then and otherwise. -/

namespace Codelab.LRUCache

variable {Value : Type*} {s s' : State Value} {l u : List ℕ} {n : ℕ} {key : Int} {value : Value}

/-- Nothing of the cache has changed; the new handle has been made and freed again. -/
structure Untouched (s s' : State Value) : Prop where
  memory : ∀ e, e ≠ .handle s.made → s'.memory e = s.memory e
  cacheIndex : s'.cacheIndex = s.cacheIndex
  usage : s'.usage = s.usage
  capacity : s'.capacity = s.capacity
  pins : s'.pins = s.pins
  undeleted : s'.undeleted = s.undeleted
  freed : s'.made = s.made + 1 ∧ s'.deleted = s.made :: s.deleted

namespace Inv

theorem lru_empty (h : Inv s l u) : (s.memory .lru).next = some .lru ↔ l = [] := by
  have first : (s.memory .lru).next = some ((l.map Addr.handle).headD .lru) :=
    h.rep.linked.lru.next_head
  rw [first]
  cases l with
  | nil => exact iff_of_true rfl rfl
  | cons n l => exact iff_of_false nofun (List.cons_ne_nil n l)

/-- A full cache with nothing on `lru_` has no room, and the loop does nothing. -/
theorem insertVia_refused (h : Inv s l u) (full : s.usage = s.capacity) (empty : l = [])
    (after : Addr → Option Addr) : s.insertVia after key value =
      .ok ({ s.prepared key value with deleted := s.made :: s.deleted }, false) := by
  obtain ⟨s', l', victims, loop, evicted, -⟩ := h.evicts key value
  have last : (s.memory .lru).next = some .lru := h.lru_empty.mpr empty
  have stop : State.evict (s.usage + 1) (s.prepared key value) = .ok (s.prepared key value) :=
    if_neg fun more => more.2 last
  obtain rfl := Except.ok.inj (stop.symm.trans loop)
  exact h.refuses loop evicted (Nat.not_lt.mpr full.ge) after

theorem untouched (h : Inv s l u) :
    Untouched s { s.prepared key value with deleted := s.made :: s.deleted } where
  memory := by
    intro e other
    change Function.update (Function.update (Function.update s.memory _ _) _ _) _ _ e = s.memory e
    rw [Function.update_of_ne other, Function.update_of_ne other, Function.update_of_ne other]
  cacheIndex := rfl
  usage := rfl
  capacity := rfl
  pins := rfl
  undeleted := by
    ext m
    have fresh : s.made ∉ s.deleted := fun no => Nat.lt_irrefl _ (h.rep.made _ no)
    rw [State.mem_undeleted, State.mem_undeleted]
    change m < s.made + 1 ∧ m ∉ s.made :: s.deleted ↔ _
    rw [List.mem_cons]
    constructor
    · rintro ⟨below, out⟩
      exact ⟨by omega, fun no => out (.inr no)⟩
    · rintro ⟨below, out⟩
      exact ⟨by omega, not_or.mpr ⟨by omega, out⟩⟩
  freed := ⟨rfl, rfl⟩

/-- An Insert succeeds except in a full cache that has nothing on `lru_`. -/
theorem insert_done (h : Inv s l u) (key : Int) (value : Value) :
    ∃ s' done, s.insert key value = .ok (s', done) ∧
      (done = false ↔ s.usage = s.capacity ∧ l = []) := by
  by_cases refused : s.usage = s.capacity ∧ l = []
  · exact ⟨_, false, h.insertVia_refused refused.1 refused.2 some, iff_of_true rfl refused⟩
  · obtain ⟨s₃, l', victims, loop, evicted, out, -⟩ := h.evicts key value
    have room := (evicted.room_iff h.capacity).mpr refused
    obtain ⟨s₅, run, rep, -⟩ := h.admits loop evicted out room
    have made := rep.live s.made (by simp)
    exact ⟨_, true, (run some).trans (State.finish_handle made),
      iff_of_false (Bool.false_ne_true ∘ Eq.symm) refused⟩

end Inv

/-- After every run with balanced Releases, in which no handle has more unreleased Lookups than
`ref` can count: an Insert returns false exactly if the cache is full and nothing is on `lru_`,
every handle being pinned then, and it has changed nothing. Otherwise it has evicted one entry at
most. -/
theorem insert_all_or_nothing (hs : (machine Value).ReachableBy (fun s a => s.proper a) s)
    (key : Int) (value : Value) : ∃ s' done, s.insert key value = .ok (s', done) ∧
      (done = false ↔ s.usage = s.capacity ∧ (s.memory .lru).next = some .lru) ∧
      (done = false → Untouched s s' ∧ s.victims key value = [] ∧
        ∀ n ∈ s.undeleted, 0 < s.pins n) ∧
      (done = true → (s.victims key value).length ≤ 1) := by
  obtain ⟨l, u, h⟩ := inv_of_reachable hs
  obtain ⟨s', done, run, refused⟩ := h.insert_done key value
  obtain ⟨s₃, l', victims, loop, evicted, -⟩ := h.evicts key value
  have short := evicted.victims_short h.capacity
  rw [State.victims_eq loop evicted.deleted]
  refine ⟨s', done, run, refused.trans (and_congr_right fun _ => h.lru_empty.symm), fun no => ?_,
    fun _ => short⟩
  obtain ⟨full, empty⟩ := refused.mp no
  have same := Except.ok.inj (run.symm.trans (h.insertVia_refused full empty some))
  obtain ⟨rfl, -⟩ := Prod.mk.inj same
  refine ⟨h.untouched, ?_, fun n live => ?_⟩
  · exact (List.append_eq_nil_iff.mp (evicted.split.symm.trans empty)).1
  · have own := h.rep.kept n (Option.some_ne_none n)
    by_cases listed : n ∈ l ++ u
    · rw [empty, List.nil_append] at listed
      exact own.pinned listed
    · exact (own.loose live listed).2.2

/-- The only unit is pinned. -/
theorem insert_all_or_nothing_pinned : ∃ s : State ℕ,
    (s.usage = s.capacity ∧ (s.memory .lru).next = some .lru) ∧
    ∃ s' done, s.insert 2 20 = .ok (s', done) ∧
      (done = false ↔ s.usage = s.capacity ∧ (s.memory .lru).next = some .lru) ∧
      (done = false → Untouched s s' ∧ s.victims 2 20 = [] ∧ ∀ n ∈ s.undeleted, 0 < s.pins n) ∧
      (done = true → (s.victims 2 20).length ≤ 1) := by
  have ran : ((machine ℕ).runBy (fun s a => s.proper a) (initial garbage 1)
      [.insert 1 10, .lookup 1]).map (fun s => (s.usage, s.capacity, (s.memory .lru).next)) =
        some (1, 1, some .lru) := by decide +kernel
  obtain ⟨s, hrun, result⟩ := Option.map_eq_some_iff.mp ran
  simp only [Prod.mk.injEq] at result
  have start : (machine ℕ).init (initial garbage 1) := rfl
  have hs := Machine.runBy_reachable (.init start) hrun
  exact ⟨s, ⟨result.1.trans result.2.1.symm, result.2.2⟩, insert_all_or_nothing hs 2 20⟩

/-- Without the bound on the Lookups a balanced call may leave no cache to insert into. -/
theorem insert_all_or_nothing_overflow : ¬∀ (s : State ℕ) (a : Action ℕ),
    (machine ℕ).ReachableBy (fun s a => s.balanced a) s → s.balanced a = true →
    ∃ s₁, s.act a = .ok s₁ ∧ ∀ key value, ∃ s' done, s₁.insert key value = .ok (s', done) ∧
      (done = false ↔ s₁.usage = s₁.capacity ∧ (s₁.memory .lru).next = some .lru) ∧
      (done = false → Untouched s₁ s' ∧ s₁.victims key value = [] ∧
        ∀ n ∈ s₁.undeleted, 0 < s₁.pins n) ∧
      (done = true → (s₁.victims key value).length ≤ 1) := by
  intro always
  obtain ⟨s, reached, overflow⟩ := overflow_reached
  obtain ⟨s₁, run, -⟩ := always s (.lookup 1) reached rfl
  cases overflow.symm.trans run

/-- The exception is the entry of `key` itself: if nobody has it pinned, its unit comes back only
after another entry was evicted to make room. -/
theorem usage_after_eviction (hs : (machine Value).ReachableBy (fun s a => s.proper a) s)
    (run : s.insert key value = .ok (s', true)) (gone : n ∈ s.victims key value)
    (other : (s.handle n).key ≠ key) : s'.usage + s.returned key = s'.capacity := by
  obtain ⟨l, u, h⟩ := inv_of_reachable hs
  obtain ⟨s₃, l', victims, loop, evicted, out, -⟩ := h.evicts key value
  rw [State.victims_eq loop evicted.deleted] at gone
  have single := eq_singleton_of_mem (evicted.victims_short h.capacity) gone
  subst single
  by_cases room : s₃.usage < s₃.capacity
  · obtain ⟨s₅, admitted, rep, -, keeps, -, usage⟩ := h.admits loop evicted out room
    have made := rep.live s.made (by simp)
    have same := Except.ok.inj (run.symm.trans ((admitted some).trans (State.finish_handle made)))
    obtain ⟨rfl, -⟩ := Prod.mk.inj same
    have first : n ∈ l := evicted.split ▸ List.mem_append_left l' List.mem_cons_self
    have live := h.rep.live n (List.mem_append_left u first)
    have old : n ≠ s.made := fun same => Rep.made_not_mem (same ▸ live)
    have back : s₃.returned key = s.returned key := by
      refine evicted.returned (h.prepared key value).2.1 fun m hm => ?_
      rw [List.mem_singleton.mp hm, State.handle_prepared_of_ne old]
      exact other
    have full : s.capacity ≤ s₃.usage + 1 := evicted.full (List.cons_ne_nil n [])
    have size : s₃.usage + 1 = s.usage := evicted.usage
    have bound := h.capacity
    have capacity : s₅.capacity = s.capacity := keeps.capacity.trans evicted.keeps.capacity
    change s₅.usage + s.returned key = s₅.capacity
    omega
  · have refused := Except.ok.inj (run.symm.trans (h.refuses loop evicted room some))
    exact absurd (congrArg Prod.snd refused) (Bool.false_ne_true ∘ Eq.symm)

/-- Two entries fill the cache, and the second is inserted again. -/
theorem evicts_first : ∃ s s' : State ℕ, (machine ℕ).ReachableBy (fun s a => s.proper a) s ∧
    s.insert 2 21 = .ok (s', true) ∧ s.victims 2 21 = [0] ∧ (s.handle 0).key = 1 ∧
    s'.usage = 1 ∧ s'.capacity = 2 := by
  have ran : ((machine ℕ).runBy (fun s a => s.proper a) (initial garbage 2)
      [.insert 1 10, .insert 2 20]).map (fun s => (s.victims 2 21, (s.handle 0).key,
        (s.insert 2 21).toOption.map fun r => (r.1.usage, r.1.capacity, r.2))) =
          some ([0], 1, some (1, 2, true)) := by decide +kernel
  obtain ⟨s, hrun, result⟩ := Option.map_eq_some_iff.mp ran
  simp only [Prod.mk.injEq] at result
  obtain ⟨victims, key, outcome⟩ := result
  have start : (machine ℕ).init (initial garbage 2) := rfl
  have hs := Machine.runBy_reachable (.init start) hrun
  cases inserted : s.insert 2 21 with
  | error e =>
    rw [inserted] at outcome
    exact nomatch outcome
  | ok r =>
    obtain ⟨s', done⟩ := r
    rw [inserted] at outcome
    simp only [Except.toOption, Option.map_some, Option.some.injEq, Prod.mk.injEq] at outcome
    obtain ⟨usage, capacity, rfl⟩ := outcome
    exact ⟨s, s', hs, inserted, victims, key, usage, capacity⟩

theorem usage_after_eviction_replaced : ∃ s s' : State ℕ, s.insert 2 21 = .ok (s', true) ∧
    0 ∈ s.victims 2 21 ∧ (s.handle 0).key ≠ 2 ∧ s'.usage + s.returned 2 = s'.capacity := by
  obtain ⟨s, s', hs, run, victims, key, -⟩ := evicts_first
  have gone : 0 ∈ s.victims 2 21 := victims ▸ List.mem_cons_self
  have other : (s.handle 0).key ≠ 2 := key ▸ by decide
  exact ⟨s, s', run, gone, other, usage_after_eviction hs run gone other⟩

/-- The unit of the first entry was not needed. -/
theorem usage_after_eviction_short : ¬∀ (s s' : State ℕ) (key : Int) (value n : ℕ),
    (machine ℕ).ReachableBy (fun s a => s.balanced a) s → s.insert key value = .ok (s', true) →
    n ∈ s.victims key value → (s.handle n).key ≠ key → s'.usage = s'.capacity := by
  intro always
  obtain ⟨s, s', hs, run, victims, key, usage, capacity⟩ := evicts_first
  have balanced := hs.mono fun s a proper => ((Bool.and_eq_true _ _).mp proper).1
  have full := always s s' 2 21 0 balanced run (victims ▸ List.mem_cons_self) (key ▸ by decide)
  omega

/-- The last two stores of `Insert`, as they stand, go to the null that `release` leaves behind:
`Insert` does what it should exactly if it refuses. -/
theorem insert_released_iff (h : WellFormed s l u) (unmade : ∀ n, s.made ≤ n → s.pins n = 0)
    (key : Int) (value : Value) :
    (∃ s' done, s.insertVia (fun _ => none) key value = .ok (s', done) ∧
      (done = true → s'.cacheIndex.index key = some (.handle s.made) ∧
        (s'.handle s.made).value = value ∧ (s'.handle s.made).valid = true ∧
        (s'.handle s.made).ref = 1 ∧ (s'.memory .lru).prev = some (.handle s.made))) ↔
    s.usage = s.capacity ∧ (s.memory .lru).next = some .lru := by
  have h := h.inv unmade
  rw [h.lru_empty]
  constructor
  · rintro ⟨s', done, run, -⟩
    by_contra admitted
    obtain ⟨s₃, l', victims, loop, evicted, out, -⟩ := h.evicts key value
    have room := (evicted.room_iff h.capacity).mpr admitted
    obtain ⟨s₅, stores, -⟩ := h.admits loop evicted out room
    exact nomatch (stores fun _ => none).symm.trans run
  · rintro ⟨full, empty⟩
    refine ⟨_, false, h.insertVia_refused full empty fun _ => none, fun no => ?_⟩
    exact absurd no Bool.false_ne_true

/-- The very first Insert. -/
theorem insert_released_iff_first :
    (∃ s' done, (initial garbage 1).insertVia (fun _ => none) 1 10 = .ok (s', done) ∧
      (done = true → s'.cacheIndex.index 1 = some (.handle 0) ∧ (s'.handle 0).value = 10 ∧
        (s'.handle 0).valid = true ∧ (s'.handle 0).ref = 1 ∧
        (s'.memory .lru).prev = some (.handle 0))) ↔
    (initial garbage 1).usage = (initial garbage 1).capacity ∧
      ((initial garbage 1).memory .lru).next = some .lru :=
  insert_released_iff (Inv.init garbage 1).wellFormed (fun _ _ => rfl) 1 10

theorem insert_released_null : ∃ (s : State ℕ) (l u : List ℕ), WellFormed s l u ∧
    (∀ n, s.made ≤ n → s.pins n = 0) ∧
    ¬∃ s' done, s.insertVia (fun _ => none) 1 10 = .ok (s', done) ∧
      (done = true → s'.cacheIndex.index 1 = some (.handle s.made) ∧
        (s'.handle s.made).value = 10 ∧ (s'.handle s.made).valid = true ∧
        (s'.handle s.made).ref = 1 ∧ (s'.memory .lru).prev = some (.handle s.made)) := by
  refine ⟨initial garbage 1, [], [], (Inv.init garbage 1).wellFormed, fun _ _ => rfl, ?_⟩
  have fault : (initial garbage 1).insertVia (fun _ => none) 1 10 = .error .null := rfl
  rw [fault]
  rintro ⟨s', done, run, -⟩
  exact nomatch run

/-- With its last two stores going to the new handle, `Insert` sets up what it has inserted. -/
theorem insert_initialises (h : WellFormed s l u) (unmade : ∀ n, s.made ≤ n → s.pins n = 0)
    (run : s.insert key value = .ok (s', true)) :
    s'.cacheIndex.index key = some (.handle s.made) ∧ (s'.handle s.made).value = value ∧
      (s'.handle s.made).valid = true ∧ (s'.handle s.made).ref = 1 ∧
      (s'.memory .lru).prev = some (.handle s.made) := by
  obtain ⟨s₁, l', victims, done, outcome, inserted⟩ := (h.inv unmade).insert key value
  obtain ⟨rfl, rfl⟩ := Prod.mk.inj (Except.ok.inj (run.symm.trans outcome))
  obtain ⟨after, newKey, newValue⟩ := inserted.success rfl
  have last : s.made ∈ s.without key l' ++ [s.made] := by simp
  have own := after.rep.kept s.made (Option.some_ne_none _)
  obtain ⟨valid, ref⟩ := own.listed (List.mem_append_left _ last)
  rw [own.idle last] at ref
  refine ⟨(after.indexed key _).mpr ⟨s.made, List.mem_append_left _ last, rfl, newKey⟩, newValue,
    valid, ref, ?_⟩
  have ring := after.rep.linked.lru.2
  rw [List.map_append] at ring
  exact ring.split.2.2

end Codelab.LRUCache
