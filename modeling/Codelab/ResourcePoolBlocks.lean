import Codelab.ResourcePoolGroups

/-! Block indices. Every block is held by one call, behind one index or deleted, and every
claimed index is about to be stored, about to be returned or returned. -/

namespace Codelab.ResourcePool

open Census

namespace Pc

/-- The block of a call that has claimed no index. -/
@[simp] def holds (b : ℕ) : Pc → ℕ
  | .loadNgroup b' | .loadGroup b' _ | .fetchAdd b' _ _ | .fetchSub b' _ _ | .lock b' _
  | .compare b' _ | .newGroup b' _ | .storeGroup b' _ _ | .storeNgroup b' _ | .unlock b' _
  | .deleteBlock b' => [b'].count b
  | _ => 0

/-- An index claimed for a block and not stored yet. -/
@[simp] def storing (p : ℕ × ℕ) : Pc → ℕ
  | .storeBlock b ngroup _ blockIndex => [((ngroup - 1) * groupNblock + blockIndex, b)].count p
  | _ => 0

@[simp] def finding (p : ℕ × ℕ) : Pc → ℕ
  | .found index b => [(index, b)].count p
  | _ => 0

end Pc

variable {τ : Type} [Fintype τ] {s s' : State τ} {t u : τ}

/-- The calls that have stored their block at an index, be they about to return or back. -/
def State.stored (s : State τ) (p : ℕ × ℕ) : ℕ := census s.pc (Pc.finding p) + s.returned.count p

structure Ledger (s : State τ) : Prop where
  dense : s.claimed.map Prod.fst = List.range s.claimed.length
  stage : ∀ b, census s.pc (Pc.holds b) + (s.claimed.map Prod.snd).count b + s.freed.count b =
    if b < s.nextBlock then 1 else 0
  progress : ∀ p, s.claimed.count p = census s.pc (Pc.storing p) + s.stored p
  table : ∀ g < s.nextGroup, ∀ k < groupNblock, ∀ b,
    s.blocks g k = some b ↔ 0 < s.stored (g * groupNblock + k, b)
  failed : ∀ b ∈ s.failed, b ∈ s.freed
  null : ∀ t b, s.pc t = .null (some b) → b ∈ s.freed

theorem ledger_initial : Ledger (initial τ) where
  dense := rfl
  stage b := by
    have none : census (initial τ).pc (Pc.holds b) = 0 := census_eq_zero.mpr fun _ => rfl
    rw [none]
    rfl
  progress p := by
    have storing : census (initial τ).pc (Pc.storing p) = 0 := census_eq_zero.mpr fun _ => rfl
    have finding : census (initial τ).pc (Pc.finding p) = 0 := census_eq_zero.mpr fun _ => rfl
    rw [State.stored, storing, finding]
    rfl
  table _ none := absurd none (Nat.not_lt_zero _)
  failed _ none := absurd none List.not_mem_nil
  null := by rintro t b ⟨⟩

/-- An index has one block. -/
theorem Ledger.claimed_unique (h : Ledger s) {i b b' : ℕ} (one : (i, b) ∈ s.claimed)
    (other : (i, b') ∈ s.claimed) : b = b' := by
  have nodup : (s.claimed.map Prod.fst).Nodup := by
    rw [h.dense]
    exact List.nodup_range
  have same := List.inj_on_of_nodup_map nodup one other rfl
  exact congrArg Prod.snd same

theorem Ledger.claimed_of_stored (h : Ledger s) {p : ℕ × ℕ} (stored : 0 < s.stored p) :
    p ∈ s.claimed := by
  have progress := h.progress p
  exact List.count_pos_iff.mp (by omega)

theorem Ledger.claimed_of_returned (h : Ledger s) {p : ℕ × ℕ} (back : p ∈ s.returned) :
    p ∈ s.claimed := by
  have counted := List.count_pos_iff.mpr back
  exact h.claimed_of_stored (by rw [State.stored]; omega)

/-- A block has one index. -/
theorem Ledger.index_unique (h : Ledger s) {i i' b : ℕ} (one : (i, b) ∈ s.claimed)
    (other : (i', b) ∈ s.claimed) : i = i' := by
  have once : (s.claimed.map Prod.snd).count b ≤ 1 := by
    have stage := h.stage b
    split_ifs at stage <;> omega
  obtain ⟨before, after, parts⟩ := List.append_of_mem one
  rw [parts, List.map_append, List.map_cons, List.count_append, List.count_cons_self] at once
  rw [parts] at other
  rcases List.mem_append.mp other with early | late
  · have image : b ∈ before.map Prod.snd := List.mem_map_of_mem early
    have counted := List.count_pos_iff.mpr image
    omega
  · rcases List.mem_cons.mp late with same | late
    · exact (congrArg Prod.fst same).symm
    · have image : b ∈ after.map Prod.snd := List.mem_map_of_mem late
      have counted := List.count_pos_iff.mpr image
      omega

/-- A block about to be returned has not been returned yet. -/
theorem Ledger.not_returned (h : Ledger s) {i b : ℕ} (here : s.pc t = .found i b) (i' : ℕ) :
    (i', b) ∉ s.returned := by
  intro back
  have held : (s.pc t).finding (i, b) ≤ _ := le_census (f := s.pc)
  rw [here] at held
  simp only [Pc.finding, List.count_singleton_self] at held
  have mine := h.claimed_of_stored (p := (i, b)) (by rw [State.stored]; omega)
  have two := h.claimed_of_returned back
  have nodup : (s.claimed.map Prod.fst).Nodup := by
    rw [h.dense]
    exact List.nodup_range
  have same := h.index_unique two mine
  subst same
  have progress := h.progress (i', b)
  have single := List.nodup_iff_count_le_one.mp (List.Nodup.of_map _ nodup) (i', b)
  have counted := List.count_pos_iff.mpr back
  rw [State.stored] at progress
  omega

theorem Ledger.index_lt (h : Ledger s) {i b : ℕ} (mem : (i, b) ∈ s.claimed) :
    i < s.claimed.length := by
  have image : i ∈ s.claimed.map Prod.fst := List.mem_map_of_mem mem
  rw [h.dense] at image
  exact List.mem_range.mp image

variable [DecidableEq τ]

/-- A thread moves from `p` to `p'`. -/
theorem Ledger.move (h : Ledger s) {p p' : Pc} (here : s.pc t = p)
    (pc : s'.pc = Function.update s.pc t p')
    (dense : s'.claimed.map Prod.fst = List.range s'.claimed.length)
    (stage : ∀ b, p'.holds b + (s'.claimed.map Prod.snd).count b + s'.freed.count b +
      (if b < s.nextBlock then 1 else 0) = p.holds b + (s.claimed.map Prod.snd).count b +
      s.freed.count b + if b < s'.nextBlock then 1 else 0)
    (progress : ∀ q, s'.claimed.count q + p.storing q + s.stored q =
      s.claimed.count q + p'.storing q + s'.stored q)
    (table : ∀ g < s'.nextGroup, ∀ k < groupNblock, ∀ b,
      s'.blocks g k = some b ↔ 0 < s'.stored (g * groupNblock + k, b))
    (freed : s.freed ⊆ s'.freed) (failed : ∀ b ∈ s'.failed, b ∈ s.failed ∨ b ∈ s'.freed)
    (null : ∀ b, p' = .null (some b) → b ∈ s'.freed) : Ledger s' := by
  subst here
  refine ⟨dense, fun b => ?_, fun q => ?_, table, fun b mem => ?_, fun u b => ?_⟩
  · have before := h.stage b
    have moved : census (Function.update s.pc t p') (Pc.holds b) + _ = _ := census_update
    have change := stage b
    rw [pc]
    omega
  · have before := h.progress q
    have moved : census (Function.update s.pc t p') (Pc.storing q) + _ = _ := census_update
    have change := progress q
    rw [pc]
    omega
  · rcases failed b mem with old | new
    · exact freed (h.failed b old)
    · exact new
  · rw [pc]
    by_cases same : u = t
    · rw [same, Function.update_self]
      exact null b
    · rw [Function.update_of_ne same]
      exact fun null => freed (h.null u b null)

theorem stored_update {p' : Pc} (pc : s'.pc = Function.update s.pc t p') (q : ℕ × ℕ) :
    s'.stored q + (s.pc t).finding q + s.returned.count q =
      s.stored q + p'.finding q + s'.returned.count q := by
  have moved : census (Function.update s.pc t p') (Pc.finding q) + _ = _ := census_update
  rw [State.stored, State.stored, pc]
  omega

/-- A step that neither claims, stores nor returns an index. -/
theorem Ledger.keep (h : Ledger s) {p p' : Pc} (here : s.pc t = p)
    (pc : s'.pc = Function.update s.pc t p') (claimed : s'.claimed = s.claimed)
    (returned : s'.returned = s.returned) (nextGroup : s'.nextGroup = s.nextGroup)
    (blocks : s'.blocks = s.blocks) (storing : ∀ q, p'.storing q = p.storing q)
    (finding : ∀ q, p'.finding q = p.finding q)
    (stage : ∀ b, p'.holds b + s'.freed.count b + (if b < s.nextBlock then 1 else 0) =
      p.holds b + s.freed.count b + if b < s'.nextBlock then 1 else 0)
    (freed : s.freed ⊆ s'.freed) (failed : ∀ b ∈ s'.failed, b ∈ s.failed ∨ b ∈ s'.freed)
    (null : ∀ b, p' = .null (some b) → b ∈ s'.freed) : Ledger s' := by
  have stored (q : ℕ × ℕ) : s'.stored q = s.stored q := by
    have moved := stored_update pc q
    rw [here, finding, returned] at moved
    omega
  refine h.move here pc ?_ (fun b => ?_) (fun q => ?_) ?_ freed failed null
  · rw [claimed]
    exact h.dense
  · have change := stage b
    rw [claimed]
    omega
  · rw [claimed, storing, stored]
  · rw [nextGroup, blocks]
    intro g made k inside b
    rw [stored]
    exact h.table g made k inside b

/-- A step that changes nothing but the groups and the mutex. -/
theorem Ledger.quiet (h : Ledger s) {p p' : Pc} (here : s.pc t = p)
    (pc : s'.pc = Function.update s.pc t p')
    (rest : s' = { s with
      pc := s'.pc, mutex := s'.mutex, nblock := s'.nblock, ngroup := s'.ngroup,
      blockGroups := s'.blockGroups })
    (storing : ∀ q, p'.storing q = p.storing q) (finding : ∀ q, p'.finding q = p.finding q)
    (holds : ∀ b, p'.holds b = p.holds b) (null : ∀ b, p' ≠ .null (some b)) : Ledger s' := by
  refine h.keep here pc (by rw [rest]) (by rw [rest]) (by rw [rest]) (by rw [rest]) storing
    finding (fun b => ?_) ?_ (fun b mem => ?_) fun b no => absurd no (null b)
  · rw [holds, rest]
  · rw [rest]
    exact List.Subset.refl _
  · rw [rest] at mem
    exact .inl mem

/-- A successful `fetch_add`, whose index is the next one. -/
theorem Ledger.claim (h : Ledger s) {b n g k : ℕ} (here : s.pc t = .fetchAdd b n g)
    (pc : s'.pc = Function.update s.pc t (.storeBlock b n g k))
    (index : (n - 1) * groupNblock + k = s.claimed.length)
    (claimed : s'.claimed = s.claimed ++ [((n - 1) * groupNblock + k, b)])
    (returned : s'.returned = s.returned) (nextGroup : s'.nextGroup = s.nextGroup)
    (blocks : s'.blocks = s.blocks) (freed : s'.freed = s.freed)
    (nextBlock : s'.nextBlock = s.nextBlock) (failed : s'.failed = s.failed) : Ledger s' := by
  have stored (q : ℕ × ℕ) : s'.stored q = s.stored q := by
    have moved := stored_update pc q
    rw [here, returned] at moved
    simpa using moved
  refine h.move here pc ?_ (fun x => ?_) (fun q => ?_) ?_ ?_ ?_ (by rintro x ⟨⟩)
  · rw [claimed, List.map_append, List.map_singleton, h.dense, List.length_append,
      List.length_singleton, List.range_succ, index]
  · rw [claimed, freed, nextBlock, List.map_append, List.count_append]
    simp only [Pc.holds, List.map_singleton]
    omega
  · rw [claimed, stored, List.count_append]
    simp only [Pc.storing]
    omega
  · rw [nextGroup, blocks]
    intro g made k inside b
    rw [stored]
    exact h.table g made k inside b
  · rw [freed]
    exact List.Subset.refl _
  · rw [failed]
    exact fun b mem => .inl mem

/-- The store of a block at the index claimed for it. -/
theorem Ledger.store (h : Ledger s) {b n g k : ℕ} (here : s.pc t = .storeBlock b n g k)
    (sound : n = g + 1 ∧ k < groupNblock)
    (pc : s'.pc = Function.update s.pc t (.found ((n - 1) * groupNblock + k) b))
    (claimed : s'.claimed = s.claimed) (returned : s'.returned = s.returned)
    (nextGroup : s'.nextGroup = s.nextGroup)
    (blocks : s'.blocks = Function.update s.blocks g (Function.update (s.blocks g) k (some b)))
    (freed : s'.freed = s.freed) (nextBlock : s'.nextBlock = s.nextBlock)
    (failed : s'.failed = s.failed) : Ledger s' := by
  obtain ⟨rfl, inside⟩ := sound
  rw [Nat.add_sub_cancel] at pc
  have stored (q : ℕ × ℕ) : s'.stored q = s.stored q + [(g * groupNblock + k, b)].count q := by
    have moved := stored_update pc q
    rw [here, returned] at moved
    simp only [Pc.finding] at moved
    omega
  have mine : (g * groupNblock + k, b) ∈ s.claimed := by
    have progress := h.progress (g * groupNblock + k, b)
    have held : (s.pc t).storing (g * groupNblock + k, b) ≤ _ := le_census (f := s.pc)
    rw [here] at held
    simp only [Pc.storing, Nat.add_sub_cancel, List.count_singleton_self] at held
    exact List.count_pos_iff.mp (by omega)
  refine h.move here pc ?_ (fun x => ?_) (fun q => ?_) (fun g' made k' inside' b' => ?_) ?_ ?_
    (by rintro x ⟨⟩)
  · rw [claimed]
    exact h.dense
  · rw [claimed, freed, nextBlock]
    rfl
  · rw [claimed, stored]
    simp only [Pc.storing, Nat.add_sub_cancel]
    omega
  · have before := h.table g' (nextGroup ▸ made) k' inside' b'
    rw [blocks, stored]
    by_cases same : g' = g ∧ k' = k
    · obtain ⟨rfl, rfl⟩ := same
      rw [Function.update_self, Function.update_self, Option.some.injEq]
      refine ⟨?_, fun there => ?_⟩
      · rintro rfl
        rw [List.count_singleton_self]
        exact Nat.succ_pos _
      · by_contra other
        have absent : [(g' * groupNblock + k', b)].count (g' * groupNblock + k', b') = 0 := by
          simp [other]
        rw [absent] at there
        exact other (h.claimed_unique mine (h.claimed_of_stored there))
    · have apart : g' * groupNblock + k' ≠ g * groupNblock + k := by
        simp only [groupNblock] at inside inside' ⊢
        omega
      have absent : [(g * groupNblock + k, b)].count (g' * groupNblock + k', b') = 0 :=
        List.count_eq_zero.mpr fun same => apart (congrArg Prod.fst (List.mem_singleton.mp same))
      have kept : Function.update s.blocks g (Function.update (s.blocks g) k (some b)) g' k' =
          s.blocks g' k' := by
        by_cases group : g' = g
        · rw [group, Function.update_self,
            Function.update_of_ne fun index => same ⟨group, index⟩]
        · rw [Function.update_of_ne group]
      rw [absent, kept]
      exact before
  · rw [freed]
    exact List.Subset.refl _
  · rw [failed]
    exact fun b mem => .inl mem

/-- A new group holds no block, and none has been claimed in it. -/
theorem Ledger.group (h : Ledger s) {b n g : ℕ} (here : s.pc t = .newGroup b n)
    (empty : s.claimed.length ≤ s.nextGroup * groupNblock)
    (pc : s'.pc = Function.update s.pc t (.storeGroup b n g)) (claimed : s'.claimed = s.claimed)
    (returned : s'.returned = s.returned) (nextGroup : s'.nextGroup = s.nextGroup + 1)
    (blocks : s'.blocks = Function.update s.blocks s.nextGroup fun _ => none)
    (freed : s'.freed = s.freed) (nextBlock : s'.nextBlock = s.nextBlock)
    (failed : s'.failed = s.failed) : Ledger s' := by
  have stored (q : ℕ × ℕ) : s'.stored q = s.stored q := by
    have moved := stored_update pc q
    rw [here, returned] at moved
    simpa using moved
  refine h.move here pc ?_ (fun x => ?_) (fun q => ?_) (fun k made i inside x => ?_) ?_ ?_
    (by rintro x ⟨⟩)
  · rw [claimed]
    exact h.dense
  · rw [claimed, freed, nextBlock]
    rfl
  · rw [claimed, stored]
    rfl
  · rw [blocks, stored]
    by_cases new : k = s.nextGroup
    · rw [new, Function.update_self]
      refine ⟨by rintro ⟨⟩, fun there => ?_⟩
      have low := h.index_lt (h.claimed_of_stored there)
      omega
    · rw [Function.update_of_ne new]
      exact h.table k (by omega) i inside x
  · rw [freed]
    exact List.Subset.refl _
  · rw [failed]
    exact fun b mem => .inl mem

/-- The call returns its index. -/
theorem Ledger.ret (h : Ledger s) {i b : ℕ} (here : s.pc t = .found i b)
    (pc : s'.pc = Function.update s.pc t .idle) (claimed : s'.claimed = s.claimed)
    (returned : s'.returned = s.returned ++ [(i, b)]) (nextGroup : s'.nextGroup = s.nextGroup)
    (blocks : s'.blocks = s.blocks) (freed : s'.freed = s.freed)
    (nextBlock : s'.nextBlock = s.nextBlock) (failed : s'.failed = s.failed) : Ledger s' := by
  have stored (q : ℕ × ℕ) : s'.stored q = s.stored q := by
    have moved := stored_update pc q
    rw [here, returned, List.count_append] at moved
    simp only [Pc.finding] at moved
    omega
  refine h.move here pc ?_ (fun x => ?_) (fun q => ?_) ?_ ?_ ?_ (by rintro x ⟨⟩)
  · rw [claimed]
    exact h.dense
  · rw [claimed, freed, nextBlock]
    rfl
  · rw [claimed, stored]
    rfl
  · rw [nextGroup, blocks]
    intro g made k inside x
    rw [stored]
    exact h.table g made k inside x
  · rw [freed]
    exact List.Subset.refl _
  · rw [failed]
    exact fun b mem => .inl mem

theorem count_born (b n : ℕ) :
    [n].count b + (if b < n then 1 else 0) = if b < n + 1 then 1 else 0 := by
  by_cases same : n = b
  · simp [same]
  · have absent : [n].count b = 0 :=
      List.count_eq_zero.mpr fun mem => same (List.mem_singleton.mp mem).symm
    rw [absent]
    split_ifs <;> omega

theorem Ledger.step (h : Ledger s) (groups : Groups s) {memory : Bool}
    (next : s.step t memory = some s') : Ledger s' := by
  have sound := groups.sound t
  cases here : s.pc t with
  | idle => simp only [State.step, here, reduceCtorEq] at next
  | newBlock =>
    simp only [State.step, here] at next
    split_ifs at next
    · obtain rfl := Option.some.inj next
      refine h.keep here rfl rfl rfl rfl rfl (fun _ => rfl) (fun _ => rfl) (fun b => ?_)
        (List.Subset.refl _) (fun b mem => .inl mem) (by rintro b ⟨⟩)
      have born := count_born b s.nextBlock
      change [s.nextBlock].count b + s.freed.count b + (if b < s.nextBlock then 1 else 0) =
        0 + s.freed.count b + if b < s.nextBlock + 1 then 1 else 0
      omega
    · obtain rfl := Option.some.inj next
      exact h.quiet here rfl rfl (fun _ => rfl) (fun _ => rfl) (fun _ => rfl) (by rintro b ⟨⟩)
  | loadNgroup b =>
    simp only [State.step, here, Option.some.injEq] at next
    subst next
    split_ifs
    · exact h.quiet here rfl rfl (fun _ => rfl) (fun _ => rfl) (fun _ => rfl) (by rintro b ⟨⟩)
    · exact h.quiet here rfl rfl (fun _ => rfl) (fun _ => rfl) (fun _ => rfl) (by rintro b ⟨⟩)
  | loadGroup b n =>
    simp only [State.step, here] at next
    split at next
    · cases next
    · obtain rfl := Option.some.inj next
      exact h.quiet here rfl rfl (fun _ => rfl) (fun _ => rfl) (fun _ => rfl) (by rintro b ⟨⟩)
  | fetchAdd b n g =>
    rw [here] at sound
    obtain ⟨rfl, inside⟩ := sound
    simp only [State.step, here] at next
    split_ifs at next with below
    · obtain rfl := Option.some.inj next
      refine h.claim here rfl ?_ rfl rfl rfl rfl rfl rfl rfl
      exact (groups.claim_next inside below).1
    · obtain rfl := Option.some.inj next
      exact h.quiet here rfl rfl (fun _ => rfl) (fun _ => rfl) (fun _ => rfl) (by rintro b ⟨⟩)
  | storeBlock b n g k =>
    rw [here] at sound
    simp only [State.step, here, Option.some.injEq] at next
    subst next
    exact h.store here ⟨sound.1, sound.2.2⟩ rfl rfl rfl rfl rfl rfl rfl rfl
  | fetchSub b n g =>
    simp only [State.step, here, Option.some.injEq] at next
    subst next
    exact h.quiet here rfl rfl (fun _ => rfl) (fun _ => rfl) (fun _ => rfl) (by rintro b ⟨⟩)
  | lock b n =>
    simp only [State.step, here] at next
    split_ifs at next
    obtain rfl := Option.some.inj next
    exact h.quiet here rfl rfl (fun _ => rfl) (fun _ => rfl) (fun _ => rfl) (by rintro b ⟨⟩)
  | compare b n =>
    simp only [State.step, here, Option.some.injEq] at next
    subst next
    split_ifs
    · exact h.quiet here rfl rfl (fun _ => rfl) (fun _ => rfl) (fun _ => rfl) (by rintro b ⟨⟩)
    · exact h.quiet here rfl rfl (fun _ => rfl) (fun _ => rfl) (fun _ => rfl) (by rintro b ⟨⟩)
    · exact h.quiet here rfl rfl (fun _ => rfl) (fun _ => rfl) (fun _ => rfl) (by rintro b ⟨⟩)
  | newGroup b n =>
    simp only [State.step, here] at next
    split_ifs at next
    · obtain rfl := Option.some.inj next
      refine h.group here (groups.room.trans ?_) rfl rfl rfl rfl rfl rfl rfl rfl
      exact Nat.mul_le_mul_right _ (by have counts := groups.made; omega)
    · obtain rfl := Option.some.inj next
      exact h.quiet here rfl rfl (fun _ => rfl) (fun _ => rfl) (fun _ => rfl) (by rintro b ⟨⟩)
  | storeGroup b n g =>
    simp only [State.step, here, Option.some.injEq] at next
    subst next
    exact h.quiet here rfl rfl (fun _ => rfl) (fun _ => rfl) (fun _ => rfl) (by rintro b ⟨⟩)
  | storeNgroup b n =>
    simp only [State.step, here, Option.some.injEq] at next
    subst next
    exact h.quiet here rfl rfl (fun _ => rfl) (fun _ => rfl) (fun _ => rfl) (by rintro b ⟨⟩)
  | unlock b created =>
    simp only [State.step, here, Option.some.injEq] at next
    subst next
    cases created with
    | true =>
      exact h.quiet here rfl rfl (fun _ => rfl) (fun _ => rfl) (fun _ => rfl) (by rintro b ⟨⟩)
    | false =>
      exact h.quiet here rfl rfl (fun _ => rfl) (fun _ => rfl) (fun _ => rfl) (by rintro b ⟨⟩)
  | deleteBlock b =>
    simp only [State.step, here, Option.some.injEq] at next
    subst next
    refine h.keep here rfl rfl rfl rfl rfl (fun _ => rfl) (fun _ => rfl) (fun x => ?_)
      (List.subset_append_left _ _) (fun x mem => .inl mem) ?_
    · change 0 + (s.freed ++ [b]).count x + (if x < s.nextBlock then 1 else 0) =
        [b].count x + s.freed.count x + if x < s.nextBlock then 1 else 0
      rw [List.count_append]
      omega
    · rintro x ⟨⟩
      exact List.mem_append_right _ (List.mem_singleton_self b)
  | found i b =>
    simp only [State.step, here, Option.some.injEq] at next
    subst next
    exact h.ret here rfl rfl rfl rfl rfl rfl rfl rfl
  | null b =>
    simp only [State.step, here, Option.some.injEq] at next
    subst next
    refine h.keep here rfl rfl rfl rfl rfl (fun _ => rfl) (fun _ => rfl) (fun _ => rfl)
      (List.Subset.refl _) (fun x mem => ?_) (by rintro x ⟨⟩)
    rcases List.mem_append.mp mem with old | new
    · exact .inl old
    · rw [Option.mem_toList] at new
      exact .inr (h.null t x (by rw [here, Option.mem_def.mp new]))

theorem Ledger.act (h : Ledger s) (groups : Groups s) {a : Action τ}
    (next : s.act a = some s') : Ledger s' := by
  cases a with
  | fetchBlock t =>
    simp only [State.act] at next
    split_ifs at next with idle
    obtain rfl := Option.some.inj next
    exact h.quiet idle rfl rfl (fun _ => rfl) (fun _ => rfl) (fun _ => rfl) (by rintro b ⟨⟩)
  | step t memory => exact h.step groups next

theorem invariants (h : (machine τ).Reachable s) : Groups s ∧ Ledger s := by
  refine h.invariant (fun s => Groups s ∧ Ledger s) (fun s start => ?_)
    fun s a s' hs next => ⟨hs.1.act next, hs.2.act hs.1 next⟩
  rw [show s = initial τ from start]
  exact ⟨groups_initial, ledger_initial⟩

/-- Every group there is stands at its own number. -/
def Named (s : State τ) : Prop := ∀ k g, s.blockGroups k = some g → g = k ∧ k < s.nextGroup

theorem Named.act (h : Named s) (groups : Groups s) {a : Action τ} (next : s.act a = some s') :
    Named s' := by
  cases a with
  | fetchBlock t =>
    simp only [State.act] at next
    split_ifs at next
    exact Option.some.inj next ▸ h
  | step t memory =>
    cases here : s.pc t with
    | newGroup b n =>
      simp only [State.act, State.step, here] at next
      split_ifs at next <;> obtain rfl := Option.some.inj next
      · exact fun k g stands => ⟨(h k g stands).1, Nat.lt_succ_of_lt (h k g stands).2⟩
      · exact h
    | storeGroup b n bg =>
      have sound := groups.sound t
      have counts := groups.made
      rw [groups.creating_eq (t := t) (by rw [here]; trivial)] at counts
      rw [here] at sound counts
      obtain ⟨rfl, -, rfl⟩ := sound
      simp only [State.act, State.step, here, Option.some.injEq] at next
      subst next
      intro k g stands
      change Function.update s.blockGroups s.ngroup (some s.ngroup) k = some g at stands
      by_cases same : k = s.ngroup
      · rw [same, Function.update_self, Option.some.injEq] at stands
        change g = k ∧ k < s.nextGroup
        rw [same, counts]
        exact ⟨stands.symm, Nat.lt_succ_self _⟩
      · rw [Function.update_of_ne same] at stands
        exact h k g stands
    | _ =>
      simp only [State.act, State.step, here] at next
      (repeat' split at next) <;> cases next <;> exact h

theorem named_reachable (h : (machine τ).Reachable s) : Named s := by
  refine (h.invariant (fun s => Groups s ∧ Named s) (fun s start => ?_)
    fun s a s' hs next => ⟨hs.1.act next, hs.2.act hs.1 next⟩).2
  rw [show s = initial τ from start]
  exact ⟨groups_initial, by rintro k g ⟨⟩⟩

omit [Fintype τ] in
theorem returned_subset {a : Action τ} (next : s.act a = some s') :
    s.returned ⊆ s'.returned := by
  cases a with
  | fetchBlock t =>
    simp only [State.act] at next
    split_ifs at next
    exact Option.some.inj next ▸ List.Subset.refl _
  | step t memory =>
    cases here : s.pc t with
    | found i b =>
      simp only [State.act, State.step, here, Option.some.injEq] at next
      subst next
      exact List.subset_append_left _ _
    | _ =>
      simp only [State.act, State.step, here] at next
      (repeat' split at next) <;> cases next <;> exact List.Subset.refl _

omit [Fintype τ] in
theorem returned_subset_run {as : List (Action τ)} (ran : (machine τ).run s as = some s') :
    s.returned ⊆ s'.returned := by
  induction as generalizing s with
  | nil =>
    have same : s = s' := by simpa only [Machine.run, Option.some.injEq] using ran
    exact same ▸ List.Subset.refl _
  | cons a as ih =>
    obtain ⟨mid, next, rest⟩ := Option.bind_eq_some_iff.mp ran
    exact List.Subset.trans (returned_subset next) (ih rest)

/-- Table entry `[i >> 16][i & 65535]` holds block `b`. -/
def State.entry (s : State τ) (i b : ℕ) : Prop :=
  ∃ g, s.blockGroups (i >>> 16) = some g ∧ s.blocks g (i &&& 65535) = some b

/-- What `fetch_block` promises of its indices. -/
structure BlockIndices (s : State τ) : Prop where
  unique : (s.returned.map Prod.fst).Nodup
  claimed : ∀ p ∈ s.returned, p ∈ s.claimed
  entry : ∀ p ∈ s.returned, s.entry p.1 p.2
  dense : s.claimed.map Prod.fst = List.range s.claimed.length
  bound : s.claimed.length ≤ 2 ^ 32
  group : ∀ g < s.nextGroup, g * groupNblock ≤ s.claimed.length
  failed : ∀ b ∈ s.failed, b ∈ s.freed ∧ ∀ i, (i, b) ∉ s.claimed

omit [DecidableEq τ] in
theorem Ledger.entry (h : Ledger s) (groups : Groups s) {p : ℕ × ℕ} (back : p ∈ s.returned) :
    s.entry p.1 p.2 := by
  obtain ⟨i, b⟩ := p
  have stored : 0 < s.stored (i, b) := by
    have counted := List.count_pos_iff.mpr back
    rw [State.stored]
    omega
  have low := h.index_lt (h.claimed_of_stored stored)
  have room := groups.room
  have counts := groups.made
  have high : i / 65536 < s.ngroup := by
    simp only [groupNblock] at room
    omega
  have split : i / 65536 * groupNblock + i % 65536 = i := by
    simp only [groupNblock]
    omega
  refine ⟨i / 65536, ?_, ?_⟩
  · rw [Nat.shiftRight_eq_div_pow]
    exact groups.published _ high
  · rw [show (65535 : ℕ) = 2 ^ 16 - 1 from rfl, Nat.and_two_pow_sub_one_eq_mod]
    refine (h.table _ (by omega) _ (Nat.mod_lt _ (by decide)) b).mpr ?_
    change 0 < s.stored (i / 65536 * groupNblock + i % 65536, b)
    rwa [split]

omit [DecidableEq τ] in
theorem Ledger.indices (h : Ledger s) (groups : Groups s) : BlockIndices s where
  unique := by
    have nodup : (s.claimed.map Prod.fst).Nodup := by
      rw [h.dense]
      exact List.nodup_range
    have sub : s.returned.Subperm s.claimed := by
      refine List.subperm_ext_iff.mpr fun p _ => ?_
      have progress := h.progress p
      rw [State.stored] at progress
      omega
    obtain ⟨l, perm, inside⟩ := sub
    exact (perm.map Prod.fst).nodup_iff.mp ((inside.map Prod.fst).nodup nodup)
  claimed _ := h.claimed_of_returned
  entry _ := h.entry groups
  dense := h.dense
  bound := groups.room.trans (Nat.mul_le_mul_right groupNblock groups.few)
  group := groups.full
  failed b mem := by
    have stage := h.stage b
    have deleted := List.count_pos_iff.mpr (h.failed b mem)
    refine ⟨h.failed b mem, fun i claimed => ?_⟩
    have image : b ∈ s.claimed.map Prod.snd := List.mem_map_of_mem claimed
    have counted := List.count_pos_iff.mpr image
    split_ifs at stage <;> omega

/-- Block indices are unique and dense, and the table entry of a returned index stays what it
was, in every run and under every pattern of allocation failures. -/
theorem block_indices (h : (machine τ).Reachable s) :
    BlockIndices s ∧ ∀ as s', (machine τ).run s as = some s' →
      ∀ p ∈ s.returned, s'.entry p.1 p.2 := by
  obtain ⟨groups, ledger⟩ := invariants h
  refine ⟨ledger.indices groups, fun as s' ran p back => ?_⟩
  obtain ⟨groups', ledger'⟩ := invariants (Machine.run_reachable h ran)
  exact ledger'.entry groups' (returned_subset_run ran back)

/-- Two calls race for the first group, and the second one finds it made. -/
theorem block_indices_two : ∃ s : State (Fin 2), s.returned = [(0, 1), (1, 0)] ∧
    BlockIndices s := by
  have ran : ((machine (Fin 2)).run (initial (Fin 2))
      [.fetchBlock 0, .fetchBlock 1, .step 0 true, .step 1 true, .step 0 true, .step 1 true,
        .step 1 true, .step 1 true, .step 1 true, .step 1 true, .step 1 true, .step 1 true,
        .step 0 true, .step 0 true, .step 0 true, .step 1 true, .step 1 true, .step 0 true,
        .step 0 true, .step 1 true, .step 1 true, .step 1 true, .step 0 true, .step 0 true,
        .step 0 true]).map State.returned = some [(0, 1), (1, 0)] := by
    decide +kernel
  obtain ⟨s, run, back⟩ := Option.map_eq_some_iff.mp ran
  have start : (machine (Fin 2)).init (initial (Fin 2)) := rfl
  exact ⟨s, back, (block_indices (Machine.run_reachable (.init start) run)).1⟩

end Codelab.ResourcePool
