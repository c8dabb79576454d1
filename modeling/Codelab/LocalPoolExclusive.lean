import Codelab.LocalPoolOwnership

/-! An id is in one place at a time: with a caller that holds it, in the hands of a call, in
one local free list or in one chunk of the global list. -/

namespace Codelab.LocalPool

open Census

variable {τ : Type} [Fintype τ] {s s' : State τ} {t u : τ} {lp : ℕ}

namespace State

variable (s : State τ) (id : ℕ)

/-- How often an id is in the free lists. -/
def shelved : ℕ :=
  tally (Finset.range s.nextPool) s.pool (fun m => m.curFree.count id) +
    s.freeChunks.flatten.count id

/-- How often an id is held or in the hands of a call. -/
def carried : ℕ :=
  census s.held (fun ids => ids.count id) + census s.pc (fun pc => pc.hand.count id)

/-- How often an id is anywhere. -/
def places : ℕ := s.carried id + s.shelved id

/-- The id belongs to a block that has handed it out. -/
def born : Prop :=
  ∃ b, (id / blockNitem, b) ∈ s.blocks.returned ∧ id % blockNitem < s.nitem b

end State

omit [Fintype τ] in
theorem State.shelved_pos {id : ℕ} (made : lp < s.nextPool) (mem : id ∈ (s.pool lp).curFree) :
    0 < s.shelved id := by
  refine Nat.add_pos_left ((List.count_pos_iff.mpr mem).trans_le ?_) _
  exact Finset.single_le_sum (f := fun lp => (s.pool lp).curFree.count id)
    (fun _ _ => Nat.zero_le _) (Finset.mem_range.mpr made)

theorem count_push (x id : ℕ) (ids : List ℕ) :
    (id :: ids).count x = [id].count x + ids.count x := by
  rw [← List.singleton_append, List.count_append]

theorem count_erase {id : ℕ} {ids : List ℕ} (mem : id ∈ ids) (x : ℕ) :
    (ids.erase id).count x + [id].count x = ids.count x := by
  rw [(List.perm_cons_erase mem).count_eq x, count_push x id (ids.erase id), Nat.add_comm]

structure Spread (s : State τ) : Prop where
  once : ∀ id, s.places id ≤ 1
  born : ∀ id, 0 < s.places id → s.born id

theorem spread_initial : Spread (initial τ) := by
  have nowhere (id : ℕ) : (initial τ).places id = 0 := by
    have held : census (initial τ).held (fun ids => ids.count id) = 0 :=
      census_eq_zero.mpr fun _ => rfl
    have hand : census (initial τ).pc (fun pc => pc.hand.count id) = 0 :=
      census_eq_zero.mpr fun _ => rfl
    rw [State.places, State.carried, held, hand]
    rfl
  refine ⟨fun id => ?_, fun id some => ?_⟩
  · rw [nowhere]
    exact Nat.zero_le 1
  · rw [nowhere] at some
    cases some

theorem Spread.of_le (h : Spread s) (le : ∀ id, s'.places id ≤ s.places id)
    (born : ∀ id, s.born id → s'.born id) : Spread s' :=
  ⟨fun id => (le id).trans (h.once id), fun id some => born id (h.born id (some.trans_le (le id)))⟩

omit [Fintype τ] in
/-- Ids are born when a counter grows. -/
theorem born_mono (returned : s.blocks.returned ⊆ s'.blocks.returned)
    (nitem : ∀ b, s.nitem b ≤ s'.nitem b) (id : ℕ) (born : s.born id) : s'.born id := by
  obtain ⟨b, back, low⟩ := born
  exact ⟨b, returned back, low.trans_le (nitem b)⟩

variable [DecidableEq τ] {p' : Pc} {m' : Members} {ids : List ℕ}

theorem carried_update (pc : s'.pc = Function.update s.pc t p')
    (held : s'.held = Function.update s.held t ids) (id : ℕ) :
    s'.carried id + (s.held t).count id + (s.pc t).hand.count id =
      s.carried id + ids.count id + p'.hand.count id := by
  have callers : census (Function.update s.held t ids) (fun ids => ids.count id) + _ = _ :=
    census_update
  have hands : census (Function.update s.pc t p') (fun pc => pc.hand.count id) + _ = _ :=
    census_update
  rw [State.carried, State.carried, pc, held]
  omega

omit [Fintype τ] in
theorem shelved_update (users : Users s) (T : Turn s s' t lp p' m') (id : ℕ) :
    s'.shelved id + (s.pool lp).curFree.count id + s.freeChunks.flatten.count id =
      s.shelved id + m'.curFree.count id + s'.freeChunks.flatten.count id := by
  have made := Finset.mem_range.mpr (users.made t lp (.inl T.uses))
  have moved : tally (Finset.range s.nextPool) (Function.update s.pool lp m')
    (fun m => m.curFree.count id) + _ = _ := tally_update made
  rw [State.shelved, State.shelved, T.pool, T.nextPool]
  omega

/-- A turn that makes no id appear. -/
theorem Spread.turn (h : Spread s) (users : Users s) (T : Turn s s' t lp p' m')
    (held : s'.held = Function.update s.held t ids)
    (le : ∀ id, ids.count id + p'.hand.count id + m'.curFree.count id +
      s'.freeChunks.flatten.count id ≤ (s.held t).count id + (s.pc t).hand.count id +
      (s.pool lp).curFree.count id + s.freeChunks.flatten.count id)
    (returned : s.blocks.returned ⊆ s'.blocks.returned)
    (nitem : ∀ b, s.nitem b ≤ s'.nitem b) : Spread s' := by
  refine h.of_le (fun id => ?_) (born_mono returned nitem)
  have carried := carried_update T.pc held id
  have shelved := shelved_update users T id
  have less := le id
  rw [State.places, State.places]
  omega

structure Inv (s : State τ) : Prop where
  users : Users s
  stock : Stock s
  spread : Spread s

/-- A turn that leaves the blocks alone and makes no id appear. -/
theorem Inv.own (h : Inv s) (T : Turn s s' t lp p' m') (blocks : s'.blocks = s.blocks)
    (nitem : s'.nitem = s.nitem) (curBlock : m'.curBlock = (s.pool lp).curBlock)
    (curBlockIndex : m'.curBlockIndex = (s.pool lp).curBlockIndex)
    (free : m'.curFree.length ≤ freeChunkNitem)
    (chunks : ∀ chunk ∈ s'.freeChunks, 0 < chunk.length ∧ chunk.length ≤ freeChunkNitem)
    (ready : p'.Ready s'.pool s'.nitem) (held : s'.held = Function.update s.held t ids)
    (le : ∀ id, ids.count id + p'.hand.count id + m'.curFree.count id +
      s'.freeChunks.flatten.count id ≤ (s.held t).count id + (s.pc t).hand.count id +
      (s.pool lp).curFree.count id + s.freeChunks.flatten.count id) : Inv s' := by
  refine ⟨h.users.turn T, ?_, h.spread.turn h.users T held le ?_ fun b => ?_⟩
  · exact h.stock.own h.users T blocks nitem curBlock curBlockIndex free chunks ready
  · rw [blocks]
    exact List.Subset.refl _
  · rw [nitem]

/-- A step that puts ids elsewhere: into the pool's free list, the global list or the thread's
hands. -/
theorem Inv.refill (h : Inv s) {chunks : List (List ℕ)} (uses : (s.pc t).pool = some lp)
    (keeps : p'.pool = some lp ∨ p'.pool = none) (free : ids.length ≤ freeChunkNitem)
    (sizes : ∀ chunk ∈ chunks, 0 < chunk.length ∧ chunk.length ≤ freeChunkNitem)
    (ready : p'.Ready (Function.update s.pool lp { s.pool lp with curFree := ids }) s.nitem)
    (le : ∀ id, p'.hand.count id + ids.count id + chunks.flatten.count id ≤
      (s.pc t).hand.count id + (s.pool lp).curFree.count id + s.freeChunks.flatten.count id) :
    Inv { (s.setPool lp { s.pool lp with curFree := ids }).goto t p' with
      freeChunks := chunks } := by
  generalize target : ({ (s.setPool lp { s.pool lp with curFree := ids }).goto t p' with
    freeChunks := chunks } : State τ) = s'
  have T : Turn s s' t lp p' { s.pool lp with curFree := ids } := by
    rw [← target]
    exact ⟨uses, keeps, rfl, rfl, rfl, rfl, fun _ live => live⟩
  subst target
  refine h.own T rfl rfl rfl rfl free sizes ready
    (Function.update_eq_self t s.held).symm fun id => ?_
  have less := le id
  change (s.held t).count id + p'.hand.count id + ids.count id + chunks.flatten.count id ≤ _
  omega

/-- A step that only moves the thread on. -/
theorem Inv.quiet (h : Inv s) (uses : (s.pc t).pool = some lp)
    (keeps : p'.pool = some lp ∨ p'.pool = none) (ready : p'.Ready s.pool s.nitem)
    (hand : ∀ id, p'.hand.count id ≤ (s.pc t).hand.count id) : Inv (s.goto t p') := by
  have T : Turn s (s.goto t p') t lp p' (s.pool lp) :=
    ⟨uses, keeps, rfl, (Function.update_eq_self lp s.pool).symm, rfl, rfl, fun _ live => live⟩
  refine h.own T rfl rfl rfl rfl (h.stock.free lp) h.stock.chunks ready
    (Function.update_eq_self t s.held).symm fun id => ?_
  have less := hand id
  change (s.held t).count id + p'.hand.count id + (s.pool lp).curFree.count id +
    s.freeChunks.flatten.count id ≤ _
  omega

/-- The pool dies in its destructor. -/
theorem Inv.die (h : Inv s) {chunks : List (List ℕ)} (uses : (s.pc t).pool = some lp)
    (sizes : ∀ chunk ∈ chunks, 0 < chunk.length ∧ chunk.length ≤ freeChunkNitem)
    (le : ∀ id, chunks.flatten.count id ≤
      (s.pool lp).curFree.count id + s.freeChunks.flatten.count id) :
    Inv ((({ s with freeChunks := chunks } : State τ).die lp).goto t .idle) := by
  have T : Turn s ((({ s with freeChunks := chunks } : State τ).die lp).goto t .idle) t lp .idle
      { curFree := [], curBlock := none, curBlockIndex := 0 } := by
    refine ⟨uses, .inr rfl, rfl, rfl, rfl, rfl, fun x live => ?_⟩
    by_cases same : x = lp
    · simp [State.goto, State.die, same] at live
    · simpa [State.goto, State.die, State.setPool, same] using live
  refine ⟨h.users.turn T, ?_, ?_⟩
  · refine h.stock.turn h.users T h.stock.groups h.stock.ledger (List.Subset.refl _)
      (Nat.zero_le _) sizes (by rintro b ⟨⟩) (by rintro b ⟨⟩) h.stock.fresh (fun _ _ => rfl)
      trivial
  · refine h.spread.turn h.users T (Function.update_eq_self t s.held).symm (fun id => ?_)
      (List.Subset.refl _) fun _ => le_rfl
    have less := le id
    change (s.held t).count id + 0 + 0 + chunks.flatten.count id ≤ _
    omega

/-- A step of `fetch_block`, which may give the pool another block. -/
theorem Inv.blocks (h : Inv s) (T : Turn s s' t lp p' m') {a : ResourcePool.Action τ}
    (next : s.blocks.act a = some s'.blocks) (nitem : s'.nitem = s.nitem)
    (curFree : m'.curFree = (s.pool lp).curFree) (freeChunks : s'.freeChunks = s.freeChunks)
    (held : s'.held = s.held) (hand : p'.hand = [])
    (owned : ∀ b, m'.curBlock = some b → (m'.curBlockIndex, b) ∈ s'.blocks.returned)
    (exclusive : ∀ b, m'.curBlock = some b → ∀ x, x ≠ lp → (s.pool x).curBlock ≠ some b)
    (ready : p'.Ready s'.pool s'.nitem) : Inv s' := by
  have back := ResourcePool.returned_subset next
  refine ⟨h.users.turn T, ?_, ?_⟩
  · refine h.stock.turn h.users T (h.stock.groups.act next)
      (h.stock.ledger.act h.stock.groups next) back ?_ ?_ owned exclusive (fun b none => ?_)
      (fun b _ => by rw [nitem]) ready
    · rw [curFree]
      exact h.stock.free lp
    · rw [freeChunks]
      exact h.stock.chunks
    · rw [nitem]
      exact h.stock.fresh b fun i mem => none i (back mem)
  · refine h.spread.turn h.users T (show s'.held = Function.update s.held t (s.held t) from ?_)
      (fun id => ?_) back fun b => ?_
    · rw [held, Function.update_eq_self]
    · rw [curFree, freeChunks, hand, List.count_nil]
      omega
    · rw [nitem]

theorem Inv.fetchBlock (h : Inv s) (uses : (s.pc t).pool = some lp)
    (next : s.fetchBlock t lp = some s') : Inv s' := by
  obtain ⟨blocks, ran, rfl⟩ := Option.map_eq_some_iff.mp next
  have back := ResourcePool.returned_subset ran
  refine h.blocks (show Turn s _ t lp (.fetch lp) (s.pool lp) from
    ⟨uses, .inl rfl, rfl, (Function.update_eq_self lp s.pool).symm, rfl, rfl, fun _ live => live⟩)
    ran rfl rfl rfl rfl rfl (fun b block => back (h.stock.owned lp b block))
    (fun b block x apart other => apart (h.stock.exclusive x lp b other block)) trivial

theorem Inv.addBlock (h : Inv s) {memory : Bool} (here : s.pc t = .fetch lp)
    (next : s.addBlock t lp memory = some s') : Inv s' := by
  obtain ⟨blocks, ran, rfl⟩ := Option.map_eq_some_iff.mp next
  have uses : (s.pc t).pool = some lp := by rw [here]; rfl
  have back := ResourcePool.returned_subset ran
  have owned (b : ℕ) (block : (s.pool lp).curBlock = some b) :
      ((s.pool lp).curBlockIndex, b) ∈ blocks.returned := back (h.stock.owned lp b block)
  have exclusive (b : ℕ) (block : (s.pool lp).curBlock = some b) (x : ℕ) (apart : x ≠ lp) :
      (s.pool x).curBlock ≠ some b := fun other => apart (h.stock.exclusive x lp b other block)
  cases inner : s.blocks.pc t with
  | found index b =>
    have new := h.stock.ledger.not_returned inner
    refine h.blocks (show Turn s _ t lp (.place lp)
      { s.pool lp with curBlock := some b, curBlockIndex := index } from
      ⟨uses, .inl rfl, rfl, rfl, rfl, rfl, fun _ live => live⟩) ran rfl rfl rfl rfl rfl ?_ ?_ ?_
    · rintro _ ⟨⟩
      simp only [ResourcePool.State.act, ResourcePool.State.step, inner, Option.some.injEq] at ran
      rw [← ran]
      exact List.mem_append_right _ (List.mem_singleton_self _)
    · rintro _ ⟨⟩ x apart other
      exact new _ (h.stock.owned x b other)
    · refine ⟨b, ?_, ?_⟩
      · simp [State.goto, State.setPool]
      · change s.nitem b < blockNitem
        rw [h.stock.fresh b new]
        decide
  | null b =>
    exact h.blocks (show Turn s _ t lp (.ret none) { s.pool lp with curBlock := none } from
      ⟨uses, .inr rfl, rfl, rfl, rfl, rfl, fun _ live => live⟩) ran rfl rfl rfl rfl rfl
      (by rintro _ ⟨⟩) (by rintro _ ⟨⟩) trivial
  | _ =>
    exact h.blocks (show Turn s _ t lp (.fetch lp) (s.pool lp) from
      ⟨uses, .inl rfl, by rw [← here, Function.update_eq_self],
        (Function.update_eq_self lp s.pool).symm, rfl, rfl, fun _ live => live⟩)
      ran rfl rfl rfl rfl rfl owned exclusive trivial

omit [DecidableEq τ] in
/-- The id that the counter of a block stands at. -/
theorem Stock.grow_index (h : Stock s) {x b : ℕ} (here : s.pc t = .grow lp x)
    (block : (s.pool lp).curBlock = some b) :
    x / blockNitem = (s.pool lp).curBlockIndex ∧ x % blockNitem = s.nitem b := by
  have ready := h.ready t
  rw [here] at ready
  obtain ⟨b', block', room, value⟩ := ready
  obtain rfl := Option.some.inj (block'.symm.trans block)
  simp only [blockNitem] at room value ⊢
  omega

/-- The counter of the block moves past an id that no one has seen. -/
theorem Inv.grow (h : Inv s) {x b : ℕ} (here : s.pc t = .grow lp x)
    (block : (s.pool lp).curBlock = some b) :
    Inv { s.goto t (.ret (some x)) with
      nitem := Function.update s.nitem b (s.nitem b + 1) } := by
  obtain ⟨quotient, rest⟩ := h.stock.grow_index here block
  have back := h.stock.owned lp b block
  have unborn : s.places x = 0 := by
    by_contra some
    obtain ⟨other, owner, low⟩ := h.spread.born x (Nat.pos_of_ne_zero some)
    rw [quotient] at owner
    rw [rest] at low
    have same := h.stock.ledger.claimed_unique (h.stock.ledger.claimed_of_returned owner)
      (h.stock.ledger.claimed_of_returned back)
    rw [same] at low
    exact lt_irrefl _ low
  generalize target : ({ s.goto t (.ret (some x)) with
    nitem := Function.update s.nitem b (s.nitem b + 1) } : State τ) = s'
  have nitem : s'.nitem = Function.update s.nitem b (s.nitem b + 1) := by rw [← target]
  have blocks : s'.blocks = s.blocks := by rw [← target]; rfl
  have T : Turn s s' t lp (.ret (some x)) (s.pool lp) := by
    rw [← target]
    exact ⟨by rw [here]; rfl, .inr rfl, rfl, (Function.update_eq_self lp s.pool).symm, rfl, rfl,
      fun _ live => live⟩
  have more (id : ℕ) : s'.places id = s.places id + [x].count id := by
    have carried := carried_update T.pc (show s'.held = Function.update s.held t (s.held t) by
      rw [Function.update_eq_self, ← target]; rfl) id
    have shelved := shelved_update h.users T id
    have chunks : s'.freeChunks = s.freeChunks := by rw [← target]; rfl
    rw [chunks] at shelved
    simp only [here, Pc.hand, Option.toList_some, List.count_nil] at carried
    rw [State.places, State.places]
    omega
  refine ⟨h.users.turn T, ?_, fun id => ?_, fun id there => ?_⟩
  · refine h.stock.turn h.users T ?_ ?_ ?_ (h.stock.free lp) ?_ (fun c own => ?_)
      (fun c own y apart other => apart (h.stock.exclusive y lp c other own)) (fun c none => ?_)
      (fun c apart => ?_) trivial
    · rw [blocks]
      exact h.stock.groups
    · rw [blocks]
      exact h.stock.ledger
    · rw [blocks]
      exact List.Subset.refl _
    · rw [← target]
      exact h.stock.chunks
    · rw [blocks]
      exact h.stock.owned lp c own
    · rw [blocks] at none
      rw [nitem, Function.update_of_ne]
      · exact h.stock.fresh c none
      · rintro rfl
        exact none _ back
    · rw [nitem, Function.update_of_ne]
      rintro rfl
      exact apart block
  · have once := h.spread.once id
    rw [more]
    by_cases same : id = x
    · rw [same, unborn, List.count_singleton_self]
    · rwa [List.count_eq_zero.mpr fun mem => same (List.mem_singleton.mp mem)]
  · by_cases same : id = x
    · refine ⟨b, ?_, ?_⟩
      · rw [same, quotient, blocks]
        exact back
      · rw [same, rest, nitem, Function.update_self]
        exact Nat.lt_succ_self _
    · rw [more, List.count_eq_zero.mpr fun mem => same (List.mem_singleton.mp mem)] at there
      refine born_mono ?_ (fun c => ?_) id (h.spread.born id there)
      · rw [blocks]
        exact List.Subset.refl _
      · rw [nitem]
        by_cases own : c = b
        · rw [own, Function.update_self]
          exact Nat.le_succ _
        · rw [Function.update_of_ne own]

/-- A step that moves ids between the thread's hands and its caller. -/
theorem Inv.hands (h : Inv s) (users : Users s') (pc : s'.pc = Function.update s.pc t p')
    (held : s'.held = Function.update s.held t ids)
    (rest : s' = { s with pc := s'.pc, held := s'.held, localPool := s'.localPool })
    (ready : p'.Ready s.pool s.nitem)
    (le : ∀ id, ids.count id + p'.hand.count id ≤
      (s.held t).count id + (s.pc t).hand.count id) : Inv s' := by
  obtain ⟨groups, ledger, free, chunks, unborn, owned, exclusive, fresh, before⟩ := h.stock
  have shelved (id : ℕ) : s'.shelved id = s.shelved id := by rw [rest]; rfl
  refine ⟨users, ?_, h.spread.of_le (fun id => ?_) fun id born => ?_⟩
  · rw [rest]
    refine ⟨groups, ledger, free, chunks, unborn, owned, exclusive, fresh, fun u => ?_⟩
    change (s'.pc u).Ready s.pool s.nitem
    rw [pc]
    by_cases same : u = t
    · rw [same, Function.update_self]
      exact ready
    · rw [Function.update_of_ne same]
      exact before u
  · have carried := carried_update pc held id
    have less := le id
    rw [State.places, State.places, shelved]
    omega
  · rw [rest]
    exact born

omit [Fintype τ] in
/-- A thread moves to a place where it uses no pool but its `_local_pool`. -/
theorem Users.move (h : Users s) (pc : s'.pc = Function.update s.pc t p')
    (localPool : s'.localPool = s.localPool) (nextPool : s'.nextPool = s.nextPool)
    (alive : s'.alive = s.alive) (own : ∀ x, p'.pool = some x → s.localPool t = some x) :
    Users s' := by
  refine h.shrink (fun u x use => ?_) nextPool fun x live => alive ▸ live
  rw [State.uses, pc, localPool] at use
  rcases use with busy | kept
  · by_cases same : u = t
    · rw [same, Function.update_self] at busy
      rw [same]
      exact .inr (own x busy)
    · rw [Function.update_of_ne same] at busy
      exact .inl busy
  · exact .inr kept

theorem Inv.getOrNewLocalPool (h : Inv s) {id : Option ℕ} {held : List ℕ}
    (le : ∀ x, held.count x + id.toList.count x ≤ (s.held t).count x + (s.pc t).hand.count x) :
    Inv ((s.setHeld t held).getOrNewLocalPool t id) := by
  have local' : (s.setHeld t held).localPool = s.localPool := rfl
  cases kept : s.localPool t with
  | none =>
    rw [State.getOrNewLocalPool, local', kept]
    refine h.hands (h.users.move rfl rfl rfl rfl (by rintro x ⟨⟩)) rfl rfl rfl trivial le
  | some lp =>
    rw [State.getOrNewLocalPool, local', kept]
    cases id with
    | none =>
      exact h.hands (h.users.move rfl rfl rfl rfl (by rintro x ⟨⟩; exact kept)) rfl rfl rfl
        trivial le
    | some id =>
      exact h.hands (h.users.move rfl rfl rfl rfl (by rintro x ⟨⟩; exact kept)) rfl rfl rfl
        trivial le

theorem Inv.fail (h : Inv s) {id : Option ℕ}
    (le : ∀ x, id.toList.count x ≤ (s.pc t).hand.count x) : Inv (s.fail t id) := by
  cases id with
  | none =>
    refine h.hands (h.users.move rfl rfl rfl rfl (by rintro x ⟨⟩)) rfl
      (Function.update_eq_self t s.held).symm rfl trivial fun x => ?_
    exact Nat.add_le_add_left (Nat.zero_le _) _
  | some id =>
    refine h.hands (h.users.move rfl rfl rfl rfl (by rintro x ⟨⟩)) rfl rfl rfl trivial fun x => ?_
    have less := le x
    rw [Option.toList_some] at less
    rw [count_push]
    change [id].count x + (s.held t).count x + 0 ≤ _
    omega

/-- A new pool has no ids. -/
theorem Inv.newLocalPool (h : Inv s) {keeps : Bool} {id : Option ℕ} (here : s.pc t = .newPool id) :
    Inv (s.newLocalPool keeps t id) := by
  obtain ⟨groups, ledger, free, chunks, unborn, owned, exclusive, fresh, before⟩ := h.stock
  have same : (s.newLocalPool keeps t id).pool = s.pool := by
    change Function.update s.pool s.nextPool _ = s.pool
    rw [← unborn s.nextPool le_rfl, Function.update_eq_self]
  have pc : (s.newLocalPool keeps t id).pc = Function.update s.pc t (.enter s.nextPool id) := rfl
  have enter : (Pc.enter s.nextPool id).pool = some s.nextPool := by cases id <;> rfl
  refine ⟨?_, ?_, h.spread.of_le (fun x => ?_) fun x born => born⟩
  · have alone (u : τ) (use : s.uses u s.nextPool) : u = t :=
      absurd (h.users.made u s.nextPool use) (lt_irrefl _)
    refine h.users.add alone (Nat.lt_succ_self _) (fun u x use => ?_) (Nat.le_succ _)
      fun x live => ?_
    · by_cases mine : u = t
      · subst mine
        rcases use with busy | kept
        · rw [pc, Function.update_self, enter] at busy
          exact .inr ⟨rfl, (Option.some.inj busy).symm⟩
        · simp only [State.newLocalPool] at kept
          split_ifs at kept
          · rw [Function.update_self] at kept
            exact .inr ⟨rfl, (Option.some.inj kept).symm⟩
          · exact .inl (.inr kept)
      · rcases use with busy | kept
        · rw [pc, Function.update_of_ne mine] at busy
          exact .inl (.inl busy)
        · simp only [State.newLocalPool] at kept
          split_ifs at kept
          · rw [Function.update_of_ne mine] at kept
            exact .inl (.inr kept)
          · exact .inl (.inr kept)
    · by_cases new : x = s.nextPool
      · exact .inr new
      · simp only [State.newLocalPool, Function.update_of_ne new] at live
        exact .inl live
  · refine ⟨groups, ledger, ?_, chunks, fun lp high => ?_, ?_, ?_, fresh, fun u => ?_⟩
    · rw [same]
      exact free
    · rw [same]
      exact unborn lp ((Nat.le_succ _).trans high)
    · rw [same]
      exact owned
    · rw [same]
      exact exclusive
    · rw [same, pc]
      by_cases mine : u = t
      · rw [mine, Function.update_self]
        cases id <;> trivial
      · rw [Function.update_of_ne mine]
        exact before u
  · have carried := carried_update pc (Function.update_eq_self t s.held).symm x
    have hand : (Pc.enter s.nextPool id).hand = (s.pc t).hand := by
      rw [here]
      cases id <;> rfl
    have shelved : (s.newLocalPool keeps t id).shelved x = s.shelved x := by
      change tally (Finset.range (s.nextPool + 1)) (s.newLocalPool keeps t id).pool _ + _ = _
      rw [same, tally, Finset.sum_range_succ, unborn s.nextPool le_rfl]
      rfl
    rw [hand] at carried
    rw [State.places, State.places, shelved]
    omega

theorem Inv.step (h : Inv s) {keeps memory : Bool} (next : s.step keeps t memory = some s') :
    Inv s' := by
  have ready := h.stock.ready t
  cases here : s.pc t with
  | idle => simp only [State.step, here, reduceCtorEq] at next
  | newPool id =>
    simp only [State.step, here, Option.some.injEq] at next
    subst next
    split_ifs
    · exact h.newLocalPool here
    · refine h.fail fun x => ?_
      rw [here]
      exact le_rfl
  | get lp =>
    have uses : (s.pc t).pool = some lp := by rw [here]; rfl
    have free := h.stock.free lp
    cases ids : (s.pool lp).curFree with
    | nil =>
      simp only [State.step, here, ids, Option.some.injEq] at next
      subst next
      exact h.quiet uses (.inl rfl) trivial fun _ => Nat.zero_le _
    | cons id rest =>
      simp only [State.step, here, ids, Option.some.injEq] at next
      subst next
      rw [ids] at free
      refine h.refill uses (.inr rfl) ((Nat.le_succ _).trans free) h.stock.chunks trivial
        fun x => ?_
      rw [here, ids, count_push x id rest]
      change [id].count x + rest.count x + s.freeChunks.flatten.count x ≤
        0 + ([id].count x + rest.count x) + s.freeChunks.flatten.count x
      omega
  | peek lp =>
    have uses : (s.pc t).pool = some lp := by rw [here]; rfl
    simp only [State.step, here, Option.some.injEq] at next
    subst next
    split_ifs
    · exact h.quiet uses (.inl rfl) trivial fun _ => Nat.zero_le _
    · exact h.quiet uses (.inl rfl) trivial fun _ => Nat.zero_le _
  | pop lp =>
    have uses : (s.pc t).pool = some lp := by rw [here]; rfl
    have chunks := h.stock.chunks
    cases list : s.freeChunks with
    | nil =>
      simp only [State.step, here, list, Option.some.injEq] at next
      subst next
      exact h.quiet uses (.inl rfl) trivial fun _ => Nat.zero_le _
    | cons chunk rest =>
      simp only [State.step, here, list, Option.some.injEq] at next
      subst next
      rw [list] at chunks
      have same : s.setPool lp { s.pool lp with curFree := (s.pool lp).curFree } = s :=
        congrArg (fun pool => { s with pool := pool }) (Function.update_eq_self lp s.pool)
      have filled := h.refill uses (show (Pc.fill lp chunk).pool = some lp ∨ _ from .inl rfl)
        (h.stock.free lp) (fun c mem => chunks c (List.mem_cons_of_mem chunk mem))
        (chunks chunk List.mem_cons_self) fun x => by
          rw [here, list, List.flatten_cons, List.count_append]
          change chunk.count x + (s.pool lp).curFree.count x + rest.flatten.count x ≤
            0 + (s.pool lp).curFree.count x + (chunk.count x + rest.flatten.count x)
          omega
      rwa [same] at filled
  | fill lp chunk =>
    have uses : (s.pc t).pool = some lp := by rw [here]; rfl
    rw [here] at ready
    cases chunk with
    | nil => simp only [State.step, here, reduceCtorEq] at next
    | cons id rest =>
      simp only [State.step, here, Option.some.injEq] at next
      subst next
      refine h.refill uses (.inr rfl) ((Nat.le_succ _).trans ready.2) h.stock.chunks trivial
        fun x => ?_
      rw [here]
      change [id].count x + rest.count x + s.freeChunks.flatten.count x ≤
        (id :: rest).count x + (s.pool lp).curFree.count x + s.freeChunks.flatten.count x
      rw [count_push x id rest]
      omega
  | bump lp =>
    have uses : (s.pc t).pool = some lp := by rw [here]; rfl
    cases block : (s.pool lp).curBlock with
    | none =>
      simp only [State.step, here, block] at next
      exact h.fetchBlock uses next
    | some b =>
      simp only [State.step, here, block] at next
      split_ifs at next with room
      · obtain rfl := Option.some.inj next
        exact h.quiet uses (.inl rfl) ⟨b, block, room⟩ fun _ => Nat.zero_le _
      · exact h.fetchBlock uses next
  | fetch lp =>
    simp only [State.step, here] at next
    exact h.addBlock here next
  | place lp =>
    have uses : (s.pc t).pool = some lp := by rw [here]; rfl
    rw [here] at ready
    obtain ⟨b, block, room⟩ := ready
    simp only [State.step, here, block, Option.some.injEq] at next
    subst next
    exact h.quiet uses (.inl rfl) ⟨b, block, room, rfl⟩ fun _ => Nat.zero_le _
  | grow lp id =>
    rw [here] at ready
    obtain ⟨b, block, -⟩ := ready
    simp only [State.step, here, block, Option.some.injEq] at next
    subst next
    exact h.grow here block
  | ret id =>
    simp only [State.step, here, Option.some.injEq] at next
    subst next
    refine h.hands (h.users.move rfl rfl rfl rfl (by rintro x ⟨⟩)) rfl rfl rfl trivial fun x => ?_
    rw [here, List.count_append]
    change id.toList.count x + (s.held t).count x + 0 ≤ (s.held t).count x + id.toList.count x
    omega
  | put lp id =>
    have uses : (s.pc t).pool = some lp := by rw [here]; rfl
    simp only [State.step, here] at next
    split_ifs at next with room
    · obtain rfl := Option.some.inj next
      refine h.refill uses (.inr rfl) room h.stock.chunks trivial fun x => ?_
      rw [here]
      change 0 + (id :: (s.pool lp).curFree).count x + s.freeChunks.flatten.count x ≤
        [id].count x + (s.pool lp).curFree.count x + s.freeChunks.flatten.count x
      rw [count_push]
      omega
    · obtain rfl := Option.some.inj next
      refine h.quiet uses (.inl rfl) ?_ fun x => ?_
      · change 0 < (s.pool lp).curFree.length
        simp only [freeChunkNitem, blockNitem] at room
        omega
      · rw [here]
        exact le_rfl
  | destroy lp =>
    have uses : (s.pc t).pool = some lp := by rw [here]; rfl
    simp only [State.step, here] at next
    split_ifs at next with empty
    · obtain rfl := Option.some.inj next
      exact h.die uses h.stock.chunks fun _ => Nat.le_add_left _ _
    · obtain rfl := Option.some.inj next
      exact h.quiet uses (.inl rfl) (List.length_pos_of_ne_nil empty) fun _ => Nat.zero_le _
  | copy lp id =>
    have uses : (s.pc t).pool = some lp := by rw [here]; rfl
    rw [here] at ready
    simp only [State.step, here] at next
    split_ifs at next
    · obtain rfl := Option.some.inj next
      refine h.quiet uses (.inl rfl) ⟨rfl, ready⟩ fun x => ?_
      rw [here]
      exact le_rfl
    · cases id with
      | none =>
        obtain rfl := Option.some.inj next
        exact h.die uses h.stock.chunks fun _ => Nat.le_add_left _ _
      | some id =>
        obtain rfl := Option.some.inj next
        refine h.fail fun x => ?_
        rw [here]
        exact le_rfl
  | push lp id chunk =>
    have uses : (s.pc t).pool = some lp := by rw [here]; rfl
    have free := h.stock.free lp
    rw [here] at ready
    obtain ⟨rfl, some⟩ := ready
    have chunks : ∀ chunk ∈ (s.pool lp).curFree :: s.freeChunks,
        0 < chunk.length ∧ chunk.length ≤ freeChunkNitem := by
      intro chunk mem
      rcases List.mem_cons.mp mem with rfl | old
      · exact ⟨some, free⟩
      · exact h.stock.chunks chunk old
    cases id with
    | none =>
      simp only [State.step, here, Option.some.injEq] at next
      subst next
      refine h.die uses chunks fun x => ?_
      rw [List.flatten_cons, List.count_append]
    | some id =>
      simp only [State.step, here, Option.some.injEq] at next
      subst next
      refine h.refill uses (.inr rfl) (show 1 ≤ freeChunkNitem by decide) chunks trivial
        fun x => ?_
      rw [here]
      change 0 + [id].count x + ((s.pool lp).curFree :: s.freeChunks).flatten.count x ≤
        [id].count x + (s.pool lp).curFree.count x + s.freeChunks.flatten.count x
      rw [List.flatten_cons, List.count_append]
      omega

/-- An id changes hands between two callers. -/
theorem Inv.give (h : Inv s) {id : ℕ} (mem : id ∈ s.held t) :
    Inv ((s.setHeld t ((s.held t).erase id)).setHeld u
      (id :: (s.setHeld t ((s.held t).erase id)).held u)) := by
  obtain ⟨groups, ledger, free, chunks, unborn, owned, exclusive, fresh, ready⟩ := h.stock
  refine ⟨⟨h.users.single, h.users.made, h.users.alive⟩,
    ⟨groups, ledger, free, chunks, unborn, owned, exclusive, fresh, ready⟩,
    h.spread.of_le (fun x => ?_) fun x born => born⟩
  have erased := count_erase mem x
  have taken : census (Function.update s.held t ((s.held t).erase id)) (fun ids => ids.count x) +
    _ = _ := census_update
  have given : census (Function.update (Function.update s.held t ((s.held t).erase id)) u
    (id :: Function.update s.held t ((s.held t).erase id) u)) (fun ids => ids.count x) + _ = _ :=
    census_update
  rw [count_push x id (Function.update s.held t ((s.held t).erase id) u)] at given
  change census _ _ + census s.pc _ + s.shelved x ≤ census s.held _ + census s.pc _ + s.shelved x
  simp only [State.setHeld]
  omega

/-- A thread ends and begins to destroy a pool that no one uses. -/
theorem Inv.exit (h : Inv s) {localPool : τ → Option ℕ} (idle : s.pc t = .idle)
    (live : s.alive lp = true) (unused : ∀ u, (s.pc u).pool ≠ some lp)
    (own : ∀ u, s.localPool u = some lp → u = t)
    (kept : ∀ u x, localPool u = some x → s.localPool u = some x) :
    Inv { s.goto t (.destroy lp) with localPool := localPool } := by
  have alone (u : τ) (use : s.uses u lp) : u = t := by
    rcases use with busy | mine
    · exact absurd busy (unused u)
    · exact own u mine
  refine h.hands ?_ rfl (Function.update_eq_self t s.held).symm rfl trivial fun x => ?_
  · refine h.users.add alone (h.users.alive lp live) (fun u x use => ?_) le_rfl
      fun x live => .inl live
    rcases use with busy | mine
    · by_cases same : u = t
      · subst same
        have there : (Function.update s.pc u (.destroy lp) u).pool = some x := busy
        rw [Function.update_self] at there
        exact .inr ⟨rfl, (Option.some.inj there).symm⟩
      · have there : (Function.update s.pc t (.destroy lp) u).pool = some x := busy
        rw [Function.update_of_ne same] at there
        exact .inl (.inl there)
    · exact .inl (.inr (kept u x mine))
  · exact Nat.add_le_add_left (Nat.zero_le _) _

theorem Inv.act (h : Inv s) {keeps : Bool} {a : Action τ} (next : s.act keeps a = some s') :
    Inv s' := by
  cases a with
  | getResource t =>
    simp only [State.act] at next
    split_ifs at next with idle
    obtain rfl := Option.some.inj next
    have same : s.setHeld t (s.held t) = s := by rw [State.setHeld, Function.update_eq_self]
    rw [← same]
    refine h.getOrNewLocalPool fun x => ?_
    exact Nat.add_le_add_left (Nat.zero_le _) _
  | returnResource t id =>
    simp only [State.act] at next
    split_ifs at next with owner
    obtain rfl := Option.some.inj next
    refine h.getOrNewLocalPool fun x => ?_
    have erased := count_erase owner.2 x
    rw [Option.toList_some]
    omega
  | give t u id =>
    simp only [State.act] at next
    split_ifs at next with owner
    obtain rfl := Option.some.inj next
    exact h.give owner
  | exit t lp =>
    simp only [State.act] at next
    split_ifs at next with guard mine
    · obtain rfl := Option.some.inj next
      obtain ⟨idle, live, unused, own⟩ := guard
      refine h.exit idle live unused own fun u x kept => ?_
      by_cases same : u = t
      · rw [same, Function.update_self] at kept
        cases kept
      · rwa [Function.update_of_ne same] at kept
    · obtain rfl := Option.some.inj next
      obtain ⟨idle, live, unused, own⟩ := guard
      exact h.exit idle live unused own fun u x kept => kept
  | step t memory => exact h.step next

/-- No two holders of one resource. `shelved` counts an id in all local lists and all chunks of
the global list. -/
structure Exclusive (s : State τ) : Prop where
  handed : ∀ t id, s.pc t = .ret (some id) → ∀ u, id ∉ s.held u
  holder : ∀ t id, id ∈ s.held t → (s.held t).count id = 1 ∧ ∀ u, u ≠ t → id ∉ s.held u
  free : ∀ id, s.shelved id ≤ 1
  apart : ∀ id, 0 < s.shelved id → ∀ t, id ∉ s.held t ∧ s.pc t ≠ .ret (some id)
  unmade : ∀ lp, s.nextPool ≤ lp → (s.pool lp).curFree = []
  chunks : ∀ chunk ∈ s.freeChunks, 1 ≤ chunk.length ∧ chunk.length ≤ freeChunkNitem
  popped : ∀ t lp chunk, s.pc t = .fill lp chunk → 1 ≤ chunk.length

theorem Inv.apart (h : Inv s) : Exclusive s := by
  have held (t : τ) (id : ℕ) :
      (s.held t).count id ≤ census s.held (fun ids => ids.count id) :=
    @le_census τ (List ℕ) s.held (fun ids => ids.count id) t _
  have hand (t : τ) (id : ℕ) :
      (s.pc t).hand.count id ≤ census s.pc (fun pc => pc.hand.count id) :=
    @le_census τ Pc s.pc (fun pc => pc.hand.count id) t _
  have once (id : ℕ) : census s.held (fun ids => ids.count id) +
      census s.pc (fun pc => pc.hand.count id) + s.shelved id ≤ 1 := h.spread.once id
  have returning {t : τ} {id : ℕ} (here : s.pc t = .ret (some id)) :
      1 ≤ census s.pc (fun pc => pc.hand.count id) := by
    refine le_trans ?_ (hand t id)
    rw [here]
    exact List.count_singleton_self.ge
  refine ⟨fun t id here u mem => ?_, fun t id mem => ⟨?_, fun u apart mem' => ?_⟩, fun id => ?_,
    fun id there t => ⟨fun mem => ?_, fun here => ?_⟩, fun lp high => ?_, h.stock.chunks,
    fun t lp chunk here => ?_⟩
  · have some := List.count_pos_iff.mpr mem
    have one := returning here
    have all := once id
    have low := held u id
    omega
  · have some := List.count_pos_iff.mpr mem
    have all := once id
    have low := held t id
    omega
  · have one := List.count_pos_iff.mpr mem
    have two := List.count_pos_iff.mpr mem'
    have all := once id
    have both : (s.held u).count id + (s.held t).count id ≤
        census s.held (fun ids => ids.count id) :=
      show (fun ids : List ℕ => ids.count id) (s.held u) + _ ≤ _ from add_le_census apart
    omega
  · have all := once id
    omega
  · have some := List.count_pos_iff.mpr mem
    have all := once id
    have low := held t id
    omega
  · have one := returning here
    have all := once id
    omega
  · rw [h.stock.unborn lp high]
  · have ready := h.stock.ready t
    rw [here] at ready
    exact ready.1

omit [DecidableEq τ] in
theorem inv_initial : Inv (initial τ) := ⟨users_initial, stock_initial, spread_initial⟩

theorem inv_reachable {keeps : Bool} (h : (machine keeps τ).Reachable s) : Inv s := by
  refine h.invariant Inv (fun s start => ?_) fun s a s' hs next => hs.act next
  rw [show s = initial τ from start]
  exact inv_initial

/-- Whether or not threads keep their local pools, no resource has two holders, and no id is in
two free lists. -/
theorem one_holder {keeps : Bool} (h : (machine keeps τ).Reachable s) : Exclusive s :=
  (inv_reachable h).apart

/-- A thread returns its id and ends; another one gets the id from the chunk left behind. -/
theorem one_holder_handed_on : ∃ s : State (Fin 2), s.pc 1 = .ret (some 0) ∧ Exclusive s := by
  have ran : ((machine true (Fin 2)).run (initial (Fin 2))
      (.getResource 0 :: List.replicate 20 (.step 0 true) ++ [.returnResource 0 0, .step 0 true,
        .exit 0 0, .step 0 true, .step 0 true, .step 0 true, .getResource 1, .step 1 true,
        .step 1 true, .step 1 true, .step 1 true, .step 1 true])).map (fun s => s.pc 1) =
      some (.ret (some 0)) := by decide +kernel
  obtain ⟨s, run, handed⟩ := Option.map_eq_some_iff.mp ran
  have start : (machine true (Fin 2)).init (initial (Fin 2)) := rfl
  exact ⟨s, handed, one_holder (Machine.run_reachable (.init start) run)⟩

end Codelab.LocalPool
