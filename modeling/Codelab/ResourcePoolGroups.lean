import Codelab.ResourcePool
import Codelab.Theory.Mutex

/-! The counters of the block groups. A group's `nblock` is the number of its claimed indices
plus the calls that have pushed it over the limit and have still to pull it back; such calls
exist only once the group is full. -/

namespace Codelab.ResourcePool

open Census

namespace Pc

/-- Where a thread holds `_block_groups_mutex`. -/
@[simp] def locked : Pc → Prop
  | .compare .. | .newGroup .. | .storeGroup .. | .storeNgroup .. | .unlock .. => True
  | _ => False

/-- Between the allocation of a group and the store of the new group count. -/
@[simp] def creating : Pc → ℕ
  | .storeGroup .. | .storeNgroup .. => 1
  | _ => 0

/-- Between a `fetch_add` that was refused and the `fetch_sub`. -/
@[simp] def overshoot (g : ℕ) : Pc → ℕ
  | .fetchSub _ _ g' => if g' = g then 1 else 0
  | _ => 0

/-- What a call knows of the groups; its group count may be stale, but then the group it
stands for is full. -/
@[simp] def Sound (ngroup claimed : ℕ) (blockGroups : ℕ → Option ℕ) : Pc → Prop
  | .loadGroup _ n => 1 ≤ n ∧ n ≤ ngroup
  | .fetchAdd _ n g => n = g + 1 ∧ n ≤ ngroup
  | .storeBlock _ n g k => n = g + 1 ∧ n ≤ ngroup ∧ k < groupNblock
  | .fetchSub _ n g => n = g + 1 ∧ n ≤ ngroup ∧ n * groupNblock ≤ claimed
  | .lock _ n | .compare _ n => n ≤ ngroup ∧ n * groupNblock ≤ claimed
  | .newGroup _ n => n = ngroup ∧ n < maxBlockNgroup ∧ n * groupNblock ≤ claimed
  | .storeGroup _ n g => n = ngroup ∧ n < maxBlockNgroup ∧ g = n
  | .storeNgroup _ n => n = ngroup ∧ n < maxBlockNgroup ∧ blockGroups n = some n
  | _ => True

variable {ngroup ngroup' claimed claimed' : ℕ} {blockGroups blockGroups' : ℕ → Option ℕ} {pc : Pc}

theorem Sound.more (h : pc.Sound ngroup claimed blockGroups) (more : claimed ≤ claimed') :
    pc.Sound ngroup claimed' blockGroups := by
  cases pc <;> simp at h ⊢ <;> omega

/-- A call outside the mutex may see the groups grow. -/
theorem Sound.grow (h : pc.Sound ngroup claimed blockGroups) (free : ¬ pc.locked)
    (grow : ngroup ≤ ngroup') : pc.Sound ngroup' claimed blockGroups' := by
  cases pc <;> simp at h free ⊢ <;> omega

end Pc

variable {τ : Type} [Fintype τ] {s s' : State τ} {t u : τ}

structure Groups (s : State τ) : Prop where
  guards : Mutex.Guards s.mutex fun t => (s.pc t).locked
  made : s.nextGroup = s.ngroup + census s.pc Pc.creating
  full : ∀ g < s.nextGroup, g * groupNblock ≤ s.claimed.length
  room : s.claimed.length ≤ s.ngroup * groupNblock
  few : s.ngroup ≤ maxBlockNgroup
  counter : ∀ g < s.nextGroup, s.nblock g =
    min groupNblock (s.claimed.length - g * groupNblock) + census s.pc (Pc.overshoot g)
  published : ∀ k < s.ngroup, s.blockGroups k = some k
  sound : ∀ t, (s.pc t).Sound s.ngroup s.claimed.length s.blockGroups

theorem groups_initial : Groups (initial τ) where
  guards := Mutex.guards_none fun _ => id
  made := by
    have none : census (initial τ).pc Pc.creating = 0 := census_eq_zero.mpr fun _ => rfl
    rw [none]
    rfl
  full _ none := absurd none (Nat.not_lt_zero _)
  room := Nat.zero_le _
  few := Nat.zero_le _
  counter _ none := absurd none (Nat.not_lt_zero _)
  published _ none := absurd none (Nat.not_lt_zero _)
  sound _ := trivial

/-- The mutex admits one creator at a time. -/
theorem Groups.alone (h : Groups s) (locked : (s.pc t).locked) (apart : u ≠ t) :
    ¬ (s.pc u).locked := fun too => apart (h.guards.exclusive too locked)

theorem Groups.creating_eq (h : Groups s) (locked : (s.pc t).locked) :
    census s.pc Pc.creating = (s.pc t).creating := by
  classical
  have others : census (Function.update s.pc t .idle) Pc.creating = 0 := by
    refine census_eq_zero.mpr fun u => ?_
    by_cases same : u = t
    · rw [same, Function.update_self]
      rfl
    · rw [Function.update_of_ne same]
      have free := h.alone locked same
      cases here : s.pc u <;> simp [here] at free ⊢
  have moved : census (Function.update s.pc t .idle) Pc.creating + _ = _ := census_update
  rw [others] at moved
  simpa using moved.symm

/-- Once a call has been refused, the group is full. -/
theorem Groups.full_of_overshoot (h : Groups s) {g : ℕ}
    (refused : 0 < census s.pc (Pc.overshoot g)) : (g + 1) * groupNblock ≤ s.claimed.length := by
  obtain ⟨u, excess⟩ := census_pos.mp refused
  have sound := h.sound u
  cases here : s.pc u with
  | fetchSub b n g' =>
    simp only [here, Pc.overshoot, Pc.Sound, groupNblock] at excess sound ⊢
    split_ifs at excess <;> omega
  | _ => simp [here] at excess

/-- The index that a `fetch_add` below the limit claims is the number of the indices claimed
before. -/
theorem Groups.claim_next (h : Groups s) {g : ℕ} (made : g < s.ngroup)
    (below : s.nblock g < groupNblock) : g * groupNblock + s.nblock g = s.claimed.length ∧
      s.ngroup = g + 1 := by
  have counts := h.made
  have counter := h.counter g (by omega)
  have start := h.full g (by omega)
  have room := h.room
  have excess := h.full_of_overshoot (g := g)
  have last : s.ngroup = g + 1 := by
    by_contra later
    have full := h.full (g + 1) (by omega)
    simp only [groupNblock] at below counter full
    omega
  rw [last] at room
  simp only [groupNblock] at below counter start room excess ⊢
  omega

variable [DecidableEq τ]

omit [Fintype τ] in
theorem guards_turn {mutex : Option τ} {p' : Pc}
    (h : Mutex.Guards s.mutex fun t => (s.pc t).locked) (pc : s'.pc = Function.update s.pc t p')
    (turn : Mutex.Turn s.mutex mutex t (s.pc t).locked p'.locked) :
    Mutex.Guards mutex fun t => (s'.pc t).locked := by
  rw [pc]
  refine h.turn (t := t) ?_ fun u apart => ?_
  · rw [Function.update_self]
    exact turn
  · rw [Function.update_of_ne apart]

/-- A call moves on without touching the groups, but for the counter of its own. -/
theorem Groups.move (h : Groups s) {p p' : Pc} (here : s.pc t = p)
    (pc : s'.pc = Function.update s.pc t p')
    (turn : Mutex.Turn s.mutex s'.mutex t p.locked p'.locked)
    (ngroup : s'.ngroup = s.ngroup) (nextGroup : s'.nextGroup = s.nextGroup)
    (blockGroups : s'.blockGroups = s.blockGroups) (claimed : s'.claimed = s.claimed)
    (counter : ∀ g, s'.nblock g + p.overshoot g = s.nblock g + p'.overshoot g)
    (creating : p'.creating = p.creating)
    (mine : p'.Sound s.ngroup s.claimed.length s.blockGroups) : Groups s' := by
  subst here
  refine ⟨guards_turn h.guards pc turn, ?_, ?_, ?_, ?_, fun g made => ?_, ?_, fun u => ?_⟩
  · rw [pc, census_update_same creating, nextGroup, ngroup]
    exact h.made
  · rw [nextGroup, claimed]
    exact h.full
  · rw [claimed, ngroup]
    exact h.room
  · rw [ngroup]
    exact h.few
  · have before := h.counter g (nextGroup ▸ made)
    have moved : census (Function.update s.pc t p') (Pc.overshoot g) + _ = _ := census_update
    have change := counter g
    rw [claimed, pc]
    omega
  · rw [ngroup, blockGroups]
    exact h.published
  · rw [ngroup, claimed, blockGroups, pc]
    by_cases same : u = t
    · rw [same, Function.update_self]
      exact mine
    · rw [Function.update_of_ne same]
      exact h.sound u

/-- A call outside the groups moves on: it changes blocks at most. -/
theorem Groups.quiet (h : Groups s) {p p' : Pc} (here : s.pc t = p)
    (pc : s'.pc = Function.update s.pc t p')
    (rest : s' = { s with
      pc := s'.pc, blocks := s'.blocks, nextBlock := s'.nextBlock, freed := s'.freed,
      returned := s'.returned, failed := s'.failed })
    (locked : p'.locked ↔ p.locked) (overshoot : ∀ g, p'.overshoot g = p.overshoot g)
    (creating : p'.creating = p.creating)
    (mine : p'.Sound s.ngroup s.claimed.length s.blockGroups) : Groups s' := by
  refine h.move here pc (.inl ⟨?_, locked⟩) ?_ ?_ ?_ ?_ (fun g => ?_) creating mine
  · rw [rest]
  · rw [rest]
  · rw [rest]
  · rw [rest]
  · rw [rest]
  · rw [overshoot, rest]

section

variable {n start c x e : ℕ}

/-- A full group stays full. -/
theorem used_full (full : start + n ≤ c) : min n (c + 1 - start) = min n (c - start) := by
  omega

/-- The group that the next index is claimed in. -/
theorem used_next (next : start + x = c) (below : x < n) (counter : x = min n (c - start) + e) :
    x + 1 = min n (c + 1 - start) + e := by
  omega

end

/-- A `fetch_add` below the limit. -/
theorem Groups.claim (h : Groups s) {b n g i : ℕ} (here : s.pc t = .fetchAdd b n g)
    (below : s.nblock g < groupNblock) (pc : s'.pc = Function.update s.pc t (.storeBlock b n g i))
    (index : i = s.nblock g) (mutex : s'.mutex = s.mutex) (ngroup : s'.ngroup = s.ngroup)
    (nextGroup : s'.nextGroup = s.nextGroup) (blockGroups : s'.blockGroups = s.blockGroups)
    (claimed : s'.claimed.length = s.claimed.length + 1)
    (nblock : s'.nblock = Function.update s.nblock g (s.nblock g + 1)) : Groups s' := by
  have sound := h.sound t
  rw [here] at sound
  obtain ⟨next, last⟩ := h.claim_next (by have := sound.1; have := sound.2; omega) below
  have counts := h.made
  have same (p : Pc → ℕ) (weight : p (.storeBlock b n g i) = p (.fetchAdd b n g)) :
      census s'.pc p = census s.pc p := by
    rw [pc]
    exact census_update_same (by rw [weight, here])
  refine ⟨?_, ?_, fun k made => ?_, ?_, ?_, fun k made => ?_, ?_, fun u => ?_⟩
  · refine guards_turn h.guards pc (.inl ⟨mutex, ?_⟩)
    rw [here]
    exact Iff.rfl
  · rw [same _ rfl, nextGroup, ngroup]
    exact h.made
  · rw [claimed]
    exact (h.full k (nextGroup ▸ made)).trans (Nat.le_succ _)
  · rw [claimed, ngroup, last]
    simp only [groupNblock] at below next ⊢
    omega
  · rw [ngroup]
    exact h.few
  · rw [nextGroup] at made
    have before := h.counter k made
    have start := h.full k made
    rw [same _ rfl, claimed, nblock]
    rcases lt_trichotomy k g with low | rfl | high
    · have full : (k + 1) * groupNblock ≤ g * groupNblock := Nat.mul_le_mul_right _ low
      rw [Nat.succ_mul] at full
      rw [Function.update_of_ne low.ne, used_full (full.trans (by omega))]
      exact before
    · rw [Function.update_self]
      exact used_next next below before
    · have past : (g + 1) * groupNblock ≤ k * groupNblock := Nat.mul_le_mul_right _ high
      rw [Nat.succ_mul] at past
      omega
  · rw [ngroup, blockGroups]
    exact h.published
  · rw [ngroup, blockGroups, pc]
    by_cases mine : u = t
    · rw [mine, Function.update_self]
      exact ⟨sound.1, sound.2, index ▸ below⟩
    · rw [Function.update_of_ne mine]
      exact (h.sound u).more (by omega)

/-- The steps of the thread that adds a group: nobody else knows the new group, and stale
counts stay behind. -/
theorem Groups.create (h : Groups s) {p' : Pc} (locked : (s.pc t).locked)
    (pc : s'.pc = Function.update s.pc t p') (held : p'.locked)
    (mutex : s'.mutex = s.mutex) (claimed : s'.claimed = s.claimed)
    (made : s'.nextGroup + s.ngroup + (s.pc t).creating =
      s.nextGroup + s'.ngroup + p'.creating)
    (grow : s.ngroup ≤ s'.ngroup)
    (few : s'.ngroup ≤ maxBlockNgroup)
    (fresh : ∀ g, s.nextGroup ≤ g → g < s'.nextGroup → s.claimed.length = g * groupNblock ∧
      s'.nblock g = 0)
    (kept : ∀ g < s.nextGroup, s'.nblock g = s.nblock g)
    (quiet : ∀ g, p'.overshoot g = (s.pc t).overshoot g)
    (published : ∀ k < s'.ngroup, s'.blockGroups k = some k)
    (mine : p'.Sound s'.ngroup s.claimed.length s'.blockGroups) : Groups s' := by
  have counts := h.made
  have room := h.room
  have creating := h.creating_eq locked
  have same (g : ℕ) : census s'.pc (Pc.overshoot g) = census s.pc (Pc.overshoot g) := by
    rw [pc]
    exact census_update_same (quiet g)
  refine ⟨?_, ?_, fun g made => ?_, ?_, few, fun g made => ?_, published, fun u => ?_⟩
  · rw [mutex]
    refine guards_turn h.guards pc (.inl ⟨rfl, ?_⟩)
    exact ⟨fun _ => locked, fun _ => held⟩
  · have moved : census (Function.update s.pc t p') Pc.creating + _ = _ := census_update
    rw [pc]
    omega
  · rw [claimed]
    by_cases old : g < s.nextGroup
    · exact h.full g old
    · exact (fresh g (Nat.le_of_not_lt old) made).1.ge
  · rw [claimed]
    exact room.trans (Nat.mul_le_mul_right _ grow)
  · rw [claimed, same]
    by_cases old : g < s.nextGroup
    · rw [kept g old]
      exact h.counter g old
    · obtain ⟨start, zero⟩ := fresh g (Nat.le_of_not_lt old) made
      have excess := h.full_of_overshoot (g := g)
      have positive : 0 < groupNblock := by decide
      rw [Nat.succ_mul] at excess
      rw [zero, start, Nat.sub_self]
      omega
  · rw [claimed, pc]
    by_cases here : u = t
    · rw [here, Function.update_self]
      exact mine
    · rw [Function.update_of_ne here]
      exact (h.sound u).grow (h.alone locked here) grow

theorem Groups.step (h : Groups s) {memory : Bool} (next : s.step t memory = some s') :
    Groups s' := by
  have sound := h.sound t
  have counts := h.made
  have room := h.room
  cases here : s.pc t with
  | idle => simp only [State.step, here, reduceCtorEq] at next
  | newBlock =>
    simp only [State.step, here] at next
    split_ifs at next
    · obtain rfl := Option.some.inj next
      exact h.quiet here rfl rfl Iff.rfl (fun _ => rfl) rfl trivial
    · obtain rfl := Option.some.inj next
      exact h.quiet here rfl rfl Iff.rfl (fun _ => rfl) rfl trivial
  | loadNgroup b =>
    simp only [State.step, here, Option.some.injEq] at next
    subst next
    split_ifs with some
    · exact h.quiet here rfl rfl Iff.rfl (fun _ => rfl) rfl ⟨some, le_rfl⟩
    · refine h.quiet here rfl rfl Iff.rfl (fun _ => rfl) rfl
        ⟨le_rfl, ?_⟩
      rw [show s.ngroup = 0 by omega, Nat.zero_mul]
      exact Nat.zero_le _
  | loadGroup b n =>
    rw [here] at sound
    have published := h.published (n - 1) (by have := sound.1; have := sound.2; omega)
    simp only [State.step, here, published, Option.some.injEq] at next
    subst next
    refine h.quiet here rfl rfl Iff.rfl (fun _ => rfl) rfl ⟨?_, sound.2⟩
    have positive := sound.1
    omega
  | fetchAdd b n g =>
    rw [here] at sound
    simp only [State.step, here] at next
    split_ifs at next with below
    · obtain rfl := Option.some.inj next
      refine h.claim here below rfl rfl rfl rfl rfl rfl ?_ rfl
      simp
    · obtain rfl := Option.some.inj next
      have excess := h.full_of_overshoot (g := g)
      have counter := h.counter g (by have := sound.1; have := sound.2; omega)
      refine h.move here rfl (.inl ⟨rfl, Iff.rfl⟩) rfl rfl rfl rfl (fun k => ?_) rfl
        ⟨sound.1, sound.2, ?_⟩
      · by_cases mine : k = g
        · simp [State.goto, mine]
        · simp [State.goto, mine, Ne.symm mine]
      · rw [sound.1]
        simp only [groupNblock] at below counter excess ⊢
        omega
  | storeBlock b n g k =>
    simp only [State.step, here, Option.some.injEq] at next
    subst next
    exact h.quiet here rfl rfl Iff.rfl (fun _ => rfl) rfl trivial
  | fetchSub b n g =>
    rw [here] at sound
    simp only [State.step, here, Option.some.injEq] at next
    subst next
    have counter := h.counter g (by have := sound.1; have := sound.2.1; omega)
    have mine : (s.pc t).overshoot g ≤ census s.pc (Pc.overshoot g) := le_census
    simp only [here, Pc.overshoot, if_true] at mine
    refine h.move here rfl (.inl ⟨rfl, Iff.rfl⟩) rfl rfl rfl rfl (fun k => ?_) rfl sound.2
    by_cases same : k = g
    · simp [same]
      omega
    · simp [same, Ne.symm same]
  | lock b n =>
    rw [here] at sound
    simp only [State.step, here] at next
    split_ifs at next with free
    obtain rfl := Option.some.inj next
    exact h.move here rfl (.inr (.inl ⟨free, rfl, trivial⟩)) rfl rfl rfl rfl (fun _ => rfl) rfl
      sound
  | compare b n =>
    rw [here] at sound
    simp only [State.step, here, Option.some.injEq] at next
    subst next
    split_ifs with stale small
    · exact h.quiet here rfl rfl Iff.rfl (fun _ => rfl) rfl trivial
    · rw [not_not] at stale
      exact h.quiet here rfl rfl Iff.rfl (fun _ => rfl) rfl
        ⟨stale.symm, stale ▸ small, sound.2⟩
    · exact h.quiet here rfl rfl Iff.rfl (fun _ => rfl) rfl trivial
  | newGroup b n =>
    have creating := h.creating_eq (t := t) (by rw [here]; trivial)
    rw [here] at sound creating
    simp only [State.step, here] at next
    split_ifs at next
    · obtain rfl := Option.some.inj next
      obtain ⟨rfl, small, full⟩ := sound
      have count : s.nextGroup = s.ngroup := counts.trans (by rw [creating]; rfl)
      refine h.create (t := t) (by rw [here]; trivial) rfl trivial rfl rfl ?_ le_rfl
        h.few (fun g old made => ?_) (fun g old => ?_) (fun _ => by rw [here]; rfl) h.published
        ⟨rfl, small, count⟩
      · rw [here]
        simp [State.goto]
        omega
      · obtain rfl : g = s.nextGroup := by
          have new : g < s.nextGroup + 1 := made
          omega
        refine ⟨?_, Function.update_self ..⟩
        rw [count]
        exact le_antisymm room full
      · exact Function.update_of_ne (by omega) ..
    · obtain rfl := Option.some.inj next
      exact h.quiet here rfl rfl Iff.rfl (fun _ => rfl) rfl trivial
  | storeGroup b n g =>
    rw [here] at sound
    simp only [State.step, here, Option.some.injEq] at next
    subst next
    obtain ⟨rfl, small, rfl⟩ := sound
    refine h.create (t := t) (by rw [here]; trivial) rfl trivial rfl rfl ?_ le_rfl
      h.few (fun g old made => absurd made (Nat.not_lt.mpr old)) (fun g old => rfl)
      (fun _ => by rw [here]; rfl) (fun k low => ?_) ⟨rfl, small, Function.update_self ..⟩
    · rw [here]
      rfl
    · exact (Function.update_of_ne low.ne ..).trans (h.published k low)
  | storeNgroup b n =>
    rw [here] at sound
    simp only [State.step, here, Option.some.injEq] at next
    subst next
    obtain ⟨rfl, small, stored⟩ := sound
    refine h.create (t := t) (by rw [here]; trivial) rfl trivial rfl rfl ?_ (Nat.le_succ _)
      small (fun g old made => absurd made (Nat.not_lt.mpr old)) (fun g old => rfl)
      (fun _ => by rw [here]; rfl) (fun k low => ?_) trivial
    · rw [here]
      simp [State.goto]
      omega
    · rcases Nat.lt_succ_iff_lt_or_eq.mp low with earlier | rfl
      · exact h.published k earlier
      · exact stored
  | unlock b created =>
    simp only [State.step, here, Option.some.injEq] at next
    subst next
    cases created with
    | true =>
      exact h.move here rfl (.inr (.inr ⟨trivial, rfl, id⟩)) rfl rfl rfl rfl (fun _ => rfl) rfl
        trivial
    | false =>
      exact h.move here rfl (.inr (.inr ⟨trivial, rfl, id⟩)) rfl rfl rfl rfl (fun _ => rfl) rfl
        trivial
  | deleteBlock b =>
    simp only [State.step, here, Option.some.injEq] at next
    subst next
    exact h.quiet here rfl rfl Iff.rfl (fun _ => rfl) rfl trivial
  | found index b =>
    simp only [State.step, here, Option.some.injEq] at next
    subst next
    exact h.quiet here rfl rfl Iff.rfl (fun _ => rfl) rfl trivial
  | null b =>
    simp only [State.step, here, Option.some.injEq] at next
    subst next
    exact h.quiet here rfl rfl Iff.rfl (fun _ => rfl) rfl trivial

theorem Groups.act (h : Groups s) {a : Action τ} (next : s.act a = some s') : Groups s' := by
  cases a with
  | fetchBlock t =>
    simp only [State.act] at next
    split_ifs at next with idle
    obtain rfl := Option.some.inj next
    exact h.quiet idle rfl rfl Iff.rfl (fun _ => rfl) rfl trivial
  | step t memory => exact h.step next

end Codelab.ResourcePool
