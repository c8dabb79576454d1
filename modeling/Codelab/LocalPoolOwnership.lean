import Codelab.LocalPool
import Codelab.ResourcePoolBlocks

/-! Who works on which local pool and on which block, and how many ids the free lists have
room for. A pool is used by one thread at a time, and a block belongs to one pool. -/

namespace Codelab.LocalPool

variable {τ : Type} {s s' : State τ} {t u : τ} {lp lp' : ℕ}

/-- A thread is in a call on the pool, or has it as its `_local_pool`. -/
def State.uses (s : State τ) (t : τ) (lp : ℕ) : Prop :=
  (s.pc t).pool = some lp ∨ s.localPool t = some lp

structure Users (s : State τ) : Prop where
  single : ∀ t u lp, s.uses t lp → s.uses u lp → t = u
  made : ∀ t lp, s.uses t lp → lp < s.nextPool
  alive : ∀ lp, s.alive lp = true → lp < s.nextPool

theorem initial_unused : ¬ (initial τ).uses t lp := by
  simp [State.uses, initial]

theorem users_initial : Users (initial τ) where
  single _ _ _ use := absurd use initial_unused
  made _ _ use := absurd use initial_unused
  alive := by rintro lp ⟨⟩

/-- No thread uses more pools than before, but for one that nobody else uses. -/
theorem Users.add (h : Users s) (alone : ∀ u, s.uses u lp → u = t) (made : lp < s'.nextPool)
    (uses : ∀ u x, s'.uses u x → s.uses u x ∨ u = t ∧ x = lp) (grow : s.nextPool ≤ s'.nextPool)
    (alive : ∀ x, s'.alive x = true → s.alive x = true ∨ x = lp) : Users s' := by
  refine ⟨fun u v x hu hv => ?_, fun u x hu => ?_, fun x live => ?_⟩
  · rcases uses u x hu with old | ⟨rfl, rfl⟩
    · rcases uses v x hv with old' | ⟨rfl, rfl⟩
      · exact h.single u v x old old'
      · exact alone u old
    · rcases uses v x hv with old' | ⟨rfl, -⟩
      · exact (alone v old').symm
      · rfl
  · rcases uses u x hu with old | ⟨-, rfl⟩
    · exact (h.made u x old).trans_le grow
    · exact made
  · rcases alive x live with old | rfl
    · exact (h.alive x old).trans_le grow
    · exact made

theorem Users.shrink (h : Users s) (uses : ∀ u x, s'.uses u x → s.uses u x)
    (nextPool : s'.nextPool = s.nextPool)
    (alive : ∀ x, s'.alive x = true → s.alive x = true) : Users s' := by
  refine ⟨fun u v x hu hv => h.single u v x (uses u x hu) (uses v x hv), fun u x hu => ?_,
    fun x live => ?_⟩
  · rw [nextPool]
    exact h.made u x (uses u x hu)
  · rw [nextPool]
    exact h.alive x (alive x live)

namespace Pc

/-- What a thread has in its hands: an id on its way or a chunk off the global list. -/
@[simp] def hand : Pc → List ℕ
  | .newPool id | .ret id | .copy _ id | .push _ id _ => id.toList
  | .fill _ chunk => chunk
  | .put _ id => [id]
  | _ => []

/-- What a thread knows about its pool. -/
@[simp] def Ready (pool : ℕ → Members) (nitem : ℕ → ℕ) : Pc → Prop
  | .fill _ chunk => 0 < chunk.length ∧ chunk.length ≤ freeChunkNitem
  | .place lp => ∃ b, (pool lp).curBlock = some b ∧ nitem b < blockNitem
  | .grow lp id => ∃ b, (pool lp).curBlock = some b ∧ nitem b < blockNitem ∧
      id = (pool lp).curBlockIndex * blockNitem + nitem b
  | .copy lp _ => 0 < (pool lp).curFree.length
  | .push lp _ chunk => chunk = (pool lp).curFree ∧ 0 < chunk.length
  | _ => True

variable {pool pool' : ℕ → Members} {nitem nitem' : ℕ → ℕ} {pc : Pc}

/-- Only the thread's own pool and its block matter. -/
theorem Ready.congr (h : pc.Ready pool nitem)
    (same : ∀ lp, pc.pool = some lp → pool' lp = pool lp ∧
      ∀ b, (pool lp).curBlock = some b → nitem' b = nitem b) : pc.Ready pool' nitem' := by
  cases pc with
  | place lp =>
    obtain ⟨agree, count⟩ := same lp rfl
    obtain ⟨b, block, room⟩ := h
    exact ⟨b, by rw [agree, block], by rwa [count b block]⟩
  | grow lp id =>
    obtain ⟨agree, count⟩ := same lp rfl
    obtain ⟨b, block, room, value⟩ := h
    exact ⟨b, by rw [agree, block], by rwa [count b block], by rw [agree, count b block, value]⟩
  | copy lp id => simpa only [Ready, (same lp rfl).1] using h
  | push lp id chunk => simpa only [Ready, (same lp rfl).1] using h
  | _ => exact h

end Pc

variable [Fintype τ]

structure Stock (s : State τ) : Prop where
  groups : ResourcePool.Groups s.blocks
  ledger : ResourcePool.Ledger s.blocks
  free : ∀ lp, (s.pool lp).curFree.length ≤ freeChunkNitem
  chunks : ∀ chunk ∈ s.freeChunks, 0 < chunk.length ∧ chunk.length ≤ freeChunkNitem
  unborn : ∀ lp, s.nextPool ≤ lp →
    s.pool lp = { curFree := [], curBlock := none, curBlockIndex := 0 }
  owned : ∀ lp b, (s.pool lp).curBlock = some b →
    ((s.pool lp).curBlockIndex, b) ∈ s.blocks.returned
  exclusive : ∀ lp lp' b, (s.pool lp).curBlock = some b → (s.pool lp').curBlock = some b → lp = lp'
  fresh : ∀ b, (∀ i, (i, b) ∉ s.blocks.returned) → s.nitem b = 0
  ready : ∀ t, (s.pc t).Ready s.pool s.nitem

theorem stock_initial : Stock (initial τ) where
  groups := ResourcePool.groups_initial
  ledger := ResourcePool.ledger_initial
  free _ := Nat.zero_le _
  chunks _ mem := absurd mem List.not_mem_nil
  unborn _ _ := rfl
  owned := by rintro lp b ⟨⟩
  exclusive := by rintro lp lp' b ⟨⟩
  fresh _ _ := rfl
  ready _ := trivial

/-- Thread `t` moves to `p'` in a call on the pool `lp`, whose members become `m'`. -/
structure Turn [DecidableEq τ] (s s' : State τ) (t : τ) (lp : ℕ) (p' : Pc) (m' : Members) :
    Prop where
  uses : (s.pc t).pool = some lp
  keeps : p'.pool = some lp ∨ p'.pool = none
  pc : s'.pc = Function.update s.pc t p'
  pool : s'.pool = Function.update s.pool lp m'
  localPool : s'.localPool = s.localPool
  nextPool : s'.nextPool = s.nextPool
  alive : ∀ x, s'.alive x = true → s.alive x = true

variable [DecidableEq τ] {p' : Pc} {m' : Members}

omit [Fintype τ] in
theorem Users.turn (h : Users s) (T : Turn s s' t lp p' m') : Users s' := by
  refine h.shrink (fun u x use => ?_) T.nextPool T.alive
  rw [State.uses, T.pc, T.localPool] at use
  rcases use with busy | kept
  · by_cases same : u = t
    · rw [same, Function.update_self] at busy
      rw [same]
      rcases T.keeps with own | none
      · exact .inl (T.uses.trans (own.symm.trans busy))
      · rw [none] at busy
        cases busy
    · rw [Function.update_of_ne same] at busy
      exact .inl busy
  · exact .inr kept

/-- A turn keeps the stock: the members of the pool are sound, the counter of a block changes
for its own pool only. -/
theorem Stock.turn (h : Stock s) (users : Users s) (T : Turn s s' t lp p' m')
    (groups : ResourcePool.Groups s'.blocks) (ledger : ResourcePool.Ledger s'.blocks)
    (back : s.blocks.returned ⊆ s'.blocks.returned)
    (free : m'.curFree.length ≤ freeChunkNitem)
    (chunks : ∀ chunk ∈ s'.freeChunks, 0 < chunk.length ∧ chunk.length ≤ freeChunkNitem)
    (owned : ∀ b, m'.curBlock = some b → (m'.curBlockIndex, b) ∈ s'.blocks.returned)
    (exclusive : ∀ b, m'.curBlock = some b → ∀ x, x ≠ lp → (s.pool x).curBlock ≠ some b)
    (fresh : ∀ b, (∀ i, (i, b) ∉ s'.blocks.returned) → s'.nitem b = 0)
    (nitem : ∀ b, (s.pool lp).curBlock ≠ some b → s'.nitem b = s.nitem b)
    (ready : p'.Ready s'.pool s'.nitem) : Stock s' := by
  have made := users.made t lp (.inl T.uses)
  have others {x : ℕ} (apart : x ≠ lp) : s'.pool x = s.pool x := by
    rw [T.pool, Function.update_of_ne apart]
  have own : s'.pool lp = m' := by rw [T.pool, Function.update_self]
  refine ⟨groups, ledger, fun x => ?_, chunks, fun x high => ?_, fun x b block => ?_,
    fun x y b hx hy => ?_, fresh, fun u => ?_⟩
  · by_cases same : x = lp
    · rw [same, own]
      exact free
    · rw [others same]
      exact h.free x
  · rw [T.nextPool] at high
    rw [others (by omega)]
    exact h.unborn x high
  · by_cases same : x = lp
    · rw [same, own] at block ⊢
      exact owned b block
    · rw [others same] at block ⊢
      exact back (h.owned x b block)
  · by_cases sameX : x = lp
    · by_cases sameY : y = lp
      · exact sameX.trans sameY.symm
      · rw [sameX, own] at hx
        rw [others sameY] at hy
        exact absurd hy (exclusive b hx y sameY)
    · rw [others sameX] at hx
      by_cases sameY : y = lp
      · rw [sameY, own] at hy
        exact absurd hx (exclusive b hy x sameX)
      · rw [others sameY] at hy
        exact h.exclusive x y b hx hy
  · rw [T.pc]
    by_cases same : u = t
    · rw [same, Function.update_self]
      exact ready
    · rw [Function.update_of_ne same]
      refine (h.ready u).congr fun x busy => ?_
      have apart : x ≠ lp := by
        rintro rfl
        exact same (users.single u t x (.inl busy) (.inl T.uses))
      exact ⟨others apart, fun b block => nitem b fun no => apart (h.exclusive x lp b block no)⟩

/-- A turn that leaves the blocks alone. -/
theorem Stock.own (h : Stock s) (users : Users s) (T : Turn s s' t lp p' m')
    (blocks : s'.blocks = s.blocks) (nitem : s'.nitem = s.nitem)
    (curBlock : m'.curBlock = (s.pool lp).curBlock)
    (curBlockIndex : m'.curBlockIndex = (s.pool lp).curBlockIndex)
    (free : m'.curFree.length ≤ freeChunkNitem)
    (chunks : ∀ chunk ∈ s'.freeChunks, 0 < chunk.length ∧ chunk.length ≤ freeChunkNitem)
    (ready : p'.Ready s'.pool s'.nitem) : Stock s' := by
  refine h.turn users T ?_ ?_ ?_ free chunks (fun b block => ?_) (fun b block x apart other => ?_)
    (fun b none => ?_) (fun b _ => by rw [nitem]) ready
  · rw [blocks]
    exact h.groups
  · rw [blocks]
    exact h.ledger
  · rw [blocks]
    exact List.Subset.refl _
  · rw [curBlock] at block
    rw [curBlockIndex, blocks]
    exact h.owned lp b block
  · rw [curBlock] at block
    exact apart (h.exclusive x lp b other block)
  · rw [blocks] at none
    rw [nitem]
    exact h.fresh b none

end Codelab.LocalPool
