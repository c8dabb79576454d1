import Codelab.LocalPoolExclusive
import Codelab.Theory.History

/-! Ids and addresses. An id is the index of a block, itself a group and a slot in it, followed
by an offset; `unsafe_address_resource` and `address_resource` take it apart again. -/

namespace Codelab.LocalPool

/-- The pointer that the `get` of a thread is about to return, and the ids that have been
returned, each with its pointer. -/
structure Pointers (τ : Type) where
  pointer : τ → Option ℕ
  handed : List (ℕ × Option ℕ)

section

variable {τ : Type} (items : ℕ → ℕ) (size : ℕ) (s : State τ)

/-- `items b` is the address of the array in block `b`, and `size` the size of a `T`. A null
pointer on the way is a fault, here `none`. -/
def State.unsafeAddressResource (id : ℕ) : Option ℕ := do
  let blockIndex := id / blockNitem
  let g ← s.blocks.blockGroups (blockIndex >>> 16)
  let b ← s.blocks.blocks g (blockIndex &&& 65535)
  pure (items b + size * id - size * (blockIndex * blockNitem))

def State.addressResource (id : ℕ) : Option ℕ :=
  let blockIndex := id / blockNitem
  let groupIndex := blockIndex >>> 16
  if groupIndex < ResourcePool.maxBlockNgroup then do
    let bg ← s.blocks.blockGroups groupIndex
    let b ← s.blocks.blocks bg (blockIndex &&& 65535)
    let offset := id - blockIndex * blockNitem
    if offset < s.nitem b then pure (items b + size * offset) else none
  else none

/-- Blocks that exist at the same time do not overlap. -/
def State.BlocksApart : Prop := ∀ b c, b ≠ c → b < s.blocks.nextBlock → c < s.blocks.nextBlock →
  b ∉ s.blocks.freed → c ∉ s.blocks.freed →
    items b + size * blockNitem ≤ items c ∨ items c + size * blockNitem ≤ items b

end

namespace Pointers

variable {τ : Type} [DecidableEq τ]

def start (_ : State τ) : Pointers τ where
  pointer _ := none
  handed := []

def obtain (r : Pointers τ) (t : τ) (p : Option ℕ) : Pointers τ :=
  { r with pointer := Function.update r.pointer t p }

def hand (r : Pointers τ) (t : τ) (id : ℕ) : Pointers τ :=
  { r with handed := (id, r.pointer t) :: r.handed }

/-- The returns of `get` with the pointers they return. -/
def note (items : ℕ → ℕ) (size : ℕ) (s : State τ) (a : Action τ) (_ : State τ)
    (r : Pointers τ) : Pointers τ :=
  match a with
  | .step t _ =>
    match s.pc t with
    | .get lp =>
      match (s.pool lp).curFree with
      | id :: _ => r.obtain t (s.unsafeAddressResource items size id)
      | [] => r
    | .fill _ chunk =>
      match chunk with
      | id :: _ => r.obtain t (s.unsafeAddressResource items size id)
      | [] => r
    | .grow lp _ => r.obtain t ((s.pool lp).curBlock.map fun b => items b + size * s.nitem b)
    | .ret (some id) => r.hand t id
    | _ => r
  | _ => r

end Pointers

/-- The pool with the record of its pointers. -/
def addressedMachine (items : ℕ → ℕ) (size : ℕ) (keeps : Bool) (τ : Type) [Fintype τ]
    [DecidableEq τ] : Machine (State τ × Pointers τ) (Action τ) :=
  (machine keeps τ).recorded Pointers.start (Pointers.note items size)

variable {τ : Type} [Fintype τ] {s s' : State τ} {r : Pointers τ} {items : ℕ → ℕ} {size : ℕ}
  {t : τ} {id b : ℕ}

/-- Both functions find the block of a returned index. -/
theorem Stock.table (h : Stock s) (back : (id / blockNitem, b) ∈ s.blocks.returned) :
    s.unsafeAddressResource items size id = some (items b + size * (id % blockNitem)) ∧
      s.addressResource items size id = if id % blockNitem < s.nitem b then
        some (items b + size * (id % blockNitem)) else none := by
  obtain ⟨g, group, slot⟩ := h.ledger.entry h.groups back
  have index := h.ledger.index_lt (h.ledger.claimed_of_returned back)
  have room := h.groups.room
  have few := h.groups.few
  have rest : id - id / blockNitem * blockNitem = id % blockNitem := by
    simp only [blockNitem]
    omega
  have low : (id / blockNitem) >>> 16 < ResourcePool.maxBlockNgroup := by
    rw [Nat.shiftRight_eq_div_pow]
    simp only [ResourcePool.groupNblock, ResourcePool.maxBlockNgroup, blockNitem] at *
    omega
  constructor
  · have split : size * id = size * (id / blockNitem * blockNitem) + size * (id % blockNitem) := by
      rw [← Nat.mul_add, Nat.div_add_mod']
    simp only [State.unsafeAddressResource, group, slot, Option.bind_eq_bind, Option.bind_some,
      Option.pure_def, split]
    rw [← Nat.add_assoc, Nat.add_right_comm, Nat.add_sub_cancel]
  · simp only [State.addressResource, group, slot, Option.bind_eq_bind, Option.bind_some,
      Option.pure_def, if_pos low, rest]

/-- A block that has given an id has been returned. -/
theorem Stock.used (h : Stock s) (some : 0 < s.nitem b) : ∃ i, (i, b) ∈ s.blocks.returned := by
  by_contra none
  rw [h.fresh b fun i mem => none ⟨i, mem⟩] at some
  exact Nat.lt_irrefl _ some

/-- What the guarded function finds has been born. -/
theorem Stock.born_of_address (h : Stock s) (named : ResourcePool.Named s.blocks) {a : ℕ}
    (address : s.addressResource items size id = some a) : s.born id := by
  simp only [State.addressResource, Option.bind_eq_bind] at address
  split_ifs at address with low
  obtain ⟨g, group, address⟩ := Option.bind_eq_some_iff.mp address
  obtain ⟨b, slot, address⟩ := Option.bind_eq_some_iff.mp address
  split_ifs at address with inside
  obtain ⟨rfl, made⟩ := named _ g group
  rw [show (65535 : ℕ) = 2 ^ 16 - 1 from rfl, Nat.and_two_pow_sub_one_eq_mod] at slot
  have stored := (h.ledger.table _ made _ (Nat.mod_lt _ (by decide)) b).mp slot
  have claimed := h.ledger.claimed_of_stored stored
  have index : (id / blockNitem) >>> 16 * ResourcePool.groupNblock +
      id / blockNitem % ResourcePool.groupNblock = id / blockNitem := by
    rw [Nat.shiftRight_eq_div_pow]
    exact Nat.div_add_mod' _ _
  rw [index] at claimed
  have offset : id - id / blockNitem * blockNitem = id % blockNitem := by
    simp only [blockNitem]
    omega
  rw [offset] at inside
  obtain ⟨i, back⟩ := h.used (Nat.zero_lt_of_lt inside)
  have same := h.ledger.index_unique (h.ledger.claimed_of_returned back) claimed
  exact ⟨b, same ▸ back, inside⟩

/-- A returned id keeps its place in the tables. -/
theorem Stock.stable (h : Stock s) (h' : Stock s') (back : s.blocks.returned ⊆ s'.blocks.returned)
    (born : s.born id) :
    s'.unsafeAddressResource items size id = s.unsafeAddressResource items size id := by
  obtain ⟨b, mem, -⟩ := born
  rw [(h.table mem).1, (h'.table (back mem)).1]

/-- With the counters as they were, a block that has just been returned has no ids yet. -/
theorem Stock.born_back (h : Stock s) (h' : Stock s')
    (back : s.blocks.returned ⊆ s'.blocks.returned) (nitem : s'.nitem = s.nitem)
    (born : s'.born id) : s.born id := by
  obtain ⟨b, mem, low⟩ := born
  rw [nitem] at low
  obtain ⟨i, old⟩ := h.used (Nat.zero_lt_of_lt low)
  have same := h'.ledger.index_unique (h'.ledger.claimed_of_returned (back old))
    (h'.ledger.claimed_of_returned mem)
  exact ⟨b, same ▸ old, low⟩

theorem Inv.born_of_ret (h : Inv s) (here : s.pc t = .ret (some id)) : s.born id := by
  refine h.spread.born id (Nat.add_pos_left (Nat.add_pos_right _ ?_) _)
  refine Census.census_pos.mpr ⟨t, ?_⟩
  rw [here]
  exact List.count_pos_iff.mpr (List.mem_singleton_self id)

/-- Pointers are what the unguarded function says, and an id that is in use has been handed out or
is about to be. -/
structure Noted (items : ℕ → ℕ) (size : ℕ) (s : State τ) (r : Pointers τ) : Prop where
  pointer : ∀ t id, s.pc t = .ret (some id) → r.pointer t = s.unsafeAddressResource items size id
  handed : ∀ id p, (id, p) ∈ r.handed → s.born id ∧ p = s.unsafeAddressResource items size id
  born : ∀ id, s.born id → (∃ p, (id, p) ∈ r.handed) ∨ ∃ t, s.pc t = .ret (some id)

omit [Fintype τ] in
theorem noted_initial : Noted items size (initial τ) (Pointers.start (initial τ)) where
  pointer := by rintro t id ⟨⟩
  handed := by rintro id p ⟨⟩
  born := by rintro id ⟨b, mem, -⟩; cases mem

variable {r' : Pointers τ}

theorem Noted.next (h : Noted items size s r) (inv : Inv s) (inv' : Inv s')
    (back : s.blocks.returned ⊆ s'.blocks.returned) (nitem : ∀ b, s.nitem b ≤ s'.nitem b)
    (pointer : ∀ u id, s'.pc u = .ret (some id) →
      s.pc u = .ret (some id) ∧ r'.pointer u = r.pointer u ∨
        r'.pointer u = s'.unsafeAddressResource items size id)
    (handed : ∀ id p, (id, p) ∈ r'.handed →
      (id, p) ∈ r.handed ∨ ∃ u, s.pc u = .ret (some id) ∧ p = r.pointer u)
    (kept : r.handed ⊆ r'.handed)
    (gone : ∀ u id, s.pc u = .ret (some id) →
      s'.pc u = .ret (some id) ∨ ∃ p, (id, p) ∈ r'.handed)
    (born : ∀ id, s'.born id → s.born id ∨ ∃ u, s'.pc u = .ret (some id)) :
    Noted items size s' r' := by
  have stable (id : ℕ) (old : s.born id) : s'.unsafeAddressResource items size id =
    s.unsafeAddressResource items size id := inv.stock.stable inv'.stock back old
  refine ⟨fun u id here => ?_, fun id p mem => ?_, fun id new => ?_⟩
  · rcases pointer u id here with ⟨before, same⟩ | now
    · rw [same, h.pointer u id before, stable id (inv.born_of_ret before)]
    · exact now
  · rcases handed id p mem with old | ⟨u, here, rfl⟩
    · obtain ⟨known, same⟩ := h.handed id p old
      exact ⟨born_mono back nitem id known, same.trans (stable id known).symm⟩
    · have known := inv.born_of_ret here
      exact ⟨born_mono back nitem id known, (h.pointer u id here).trans (stable id known).symm⟩
  · rcases born id new with old | returning
    · rcases h.born id old with ⟨p, mem⟩ | ⟨u, here⟩
      · exact .inl ⟨p, kept mem⟩
      · rcases gone u id here with still | handed
        · exact .inr ⟨u, still⟩
        · exact .inl handed
    · exact .inr returning

variable [DecidableEq τ] {p' : Pc} {lp : ℕ}

/-- A step by which no id begins or ends being returned. -/
theorem Noted.quiet (h : Noted items size s r) (inv : Inv s) (inv' : Inv s')
    (pc : s'.pc = Function.update s.pc t p') (old : ∀ id, s.pc t ≠ .ret (some id))
    (new : ∀ id, p' ≠ .ret (some id)) (back : s.blocks.returned ⊆ s'.blocks.returned)
    (nitem : s'.nitem = s.nitem) : Noted items size s' r := by
  have same (u : τ) (id : ℕ) : s'.pc u = .ret (some id) ↔ s.pc u = .ret (some id) := by
    rw [pc]
    by_cases self : u = t
    · rw [self, Function.update_self]
      exact ⟨fun e => absurd e (new id), fun e => absurd e (old id)⟩
    · rw [Function.update_of_ne self]
  exact h.next inv inv' back (fun b => by rw [nitem])
    (fun u id here => .inl ⟨(same u id).mp here, rfl⟩) (fun id p mem => .inl mem)
    (List.Subset.refl _) (fun u id here => .inl ((same u id).mpr here))
    fun id new => .inl (inv.stock.born_back inv'.stock back nitem new)

/-- A thread has an id from a free list, or from the counter of its block. -/
theorem Noted.obtain (h : Noted items size s r) (inv : Inv s) (inv' : Inv s') {q : Option ℕ}
    (pc : s'.pc = Function.update s.pc t (.ret (some id))) (old : ∀ id, s.pc t ≠ .ret (some id))
    (blocks : s'.blocks = s.blocks) (nitem : ∀ b, s.nitem b ≤ s'.nitem b)
    (pointer : q = s'.unsafeAddressResource items size id)
    (born : ∀ x, s'.born x → s.born x ∨ x = id) : Noted items size s' (r.obtain t q) := by
  have self : s'.pc t = .ret (some id) := by rw [pc, Function.update_self]
  have other {u : τ} (apart : u ≠ t) : s'.pc u = s.pc u := by
    rw [pc, Function.update_of_ne apart]
  refine h.next inv inv' (blocks ▸ List.Subset.refl _) nitem (fun u x here => ?_)
    (fun x p mem => .inl mem) (List.Subset.refl _) (fun u x here => ?_) fun x new => ?_
  · by_cases same : u = t
    · rw [same] at here ⊢
      obtain rfl := Option.some.inj (Pc.ret.inj (self.symm.trans here))
      exact .inr ((Function.update_self ..).trans pointer)
    · exact .inl ⟨(other same).symm.trans here, Function.update_of_ne same ..⟩
  · have apart : u ≠ t := fun same => old x (same ▸ here)
    exact .inl ((other apart).trans here)
  · rcases born x new with old | rfl
    · exact .inl old
    · exact .inr ⟨t, self⟩

/-- `get_resource` returns. -/
theorem Noted.hand (h : Noted items size s r) (inv : Inv s) (inv' : Inv s')
    (here : s.pc t = .ret (some id)) (pc : s'.pc = Function.update s.pc t .idle)
    (blocks : s'.blocks = s.blocks) (nitem : s'.nitem = s.nitem) :
    Noted items size s' (r.hand t id) := by
  have back : s.blocks.returned ⊆ s'.blocks.returned := blocks ▸ List.Subset.refl _
  refine h.next inv inv' back (fun b => by rw [nitem]) (fun u x there => .inl ⟨?_, rfl⟩)
    (fun x p mem => ?_) (List.subset_cons_self ..) (fun u x there => ?_)
    fun x new => .inl (inv.stock.born_back inv'.stock back nitem new)
  · rw [pc] at there
    by_cases same : u = t
    · rw [same, Function.update_self] at there
      cases there
    · rwa [Function.update_of_ne same] at there
  · rcases List.mem_cons.mp mem with now | old
    · obtain ⟨rfl, rfl⟩ := Prod.mk.inj now
      exact .inr ⟨t, here, rfl⟩
    · exact .inl old
  · by_cases same : u = t
    · rw [same] at there
      obtain rfl := Option.some.inj (Pc.ret.inj (here.symm.trans there))
      exact .inr ⟨r.pointer t, List.mem_cons_self⟩
    · rw [pc, Function.update_of_ne same]
      exact .inl there

/-- The counter of the thread's block goes up. -/
theorem Noted.grow (h : Noted items size s r) (inv : Inv s) (here : s.pc t = .grow lp id)
    (block : (s.pool lp).curBlock = some b)
    (inv' : Inv { s.goto t (.ret (some id)) with
      nitem := Function.update s.nitem b (s.nitem b + 1) }) :
    Noted items size { s.goto t (.ret (some id)) with
      nitem := Function.update s.nitem b (s.nitem b + 1) }
      (r.obtain t (some (items b + size * s.nitem b))) := by
  obtain ⟨quotient, rest⟩ := inv.stock.grow_index here block
  have back := inv.stock.owned lp b block
  rw [← quotient] at back
  have old (x : ℕ) : s.pc t ≠ .ret (some x) := by
    rw [here]
    rintro ⟨⟩
  refine h.obtain inv inv' rfl old rfl (fun c => ?_) ?_ fun x new => ?_
  · change s.nitem c ≤ Function.update s.nitem b (s.nitem b + 1) c
    by_cases same : c = b
    · rw [same, Function.update_self]
      exact Nat.le_succ _
    · rw [Function.update_of_ne same]
  · rw [(inv'.stock.table back).1, rest]
  · obtain ⟨c, mem, low⟩ := new
    change x % blockNitem < Function.update s.nitem b (s.nitem b + 1) c at low
    by_cases same : c = b
    · rw [same, Function.update_self] at low
      rw [same] at mem
      have index := inv.stock.ledger.index_unique (inv.stock.ledger.claimed_of_returned mem)
        (inv.stock.ledger.claimed_of_returned back)
      rcases Nat.lt_succ_iff_lt_or_eq.mp low with before | last
      · exact .inl ⟨b, mem, before⟩
      · refine .inr ?_
        rw [← Nat.div_add_mod x blockNitem, ← Nat.div_add_mod id blockNitem, index, last, rest]
    · rw [Function.update_of_ne same] at low
      exact .inl ⟨c, mem, low⟩

theorem Noted.fetchBlock (h : Noted items size s r) (inv : Inv s) (inv' : Inv s')
    (old : ∀ id, s.pc t ≠ .ret (some id)) (next : s.fetchBlock t lp = some s') :
    Noted items size s' r := by
  obtain ⟨blocks, ran, rfl⟩ := Option.map_eq_some_iff.mp next
  exact h.quiet inv inv' rfl old (by rintro id ⟨⟩) (ResourcePool.returned_subset ran) rfl

theorem Noted.addBlock (h : Noted items size s r) (inv : Inv s) (inv' : Inv s') {memory : Bool}
    (here : s.pc t = .fetch lp) (next : s.addBlock t lp memory = some s') :
    Noted items size s' r := by
  obtain ⟨blocks, ran, rfl⟩ := Option.map_eq_some_iff.mp next
  have back := ResourcePool.returned_subset ran
  have old (id : ℕ) : s.pc t ≠ .ret (some id) := by
    rw [here]
    rintro ⟨⟩
  cases inner : s.blocks.pc t with
  | found index b =>
    simp only [inner] at inv' ⊢
    exact h.quiet inv inv' rfl old (by rintro id ⟨⟩) back rfl
  | null b =>
    simp only [inner] at inv' ⊢
    exact h.quiet inv inv' rfl old (by rintro id ⟨⟩) back rfl
  | _ =>
    simp only [inner] at inv' ⊢
    exact h.quiet inv inv' (show s.pc = Function.update s.pc t (s.pc t) from
      (Function.update_eq_self t s.pc).symm) old old back rfl

theorem Noted.step (h : Noted items size s r) (inv : Inv s) (inv' : Inv s') {keeps memory : Bool}
    (next : s.step keeps t memory = some s') :
    Noted items size s' (Pointers.note items size s (.step t memory) s' r) := by
  simp only [Pointers.note]
  cases here : s.pc t with
  | idle => simp only [State.step, here, reduceCtorEq] at next
  | newPool id =>
    have old (x : ℕ) : s.pc t ≠ .ret (some x) := by simp [here]
    simp only [State.step, here, Option.some.injEq] at next
    split_ifs at next
    · subst next
      refine h.quiet inv inv' (show _ = Function.update s.pc t (.enter s.nextPool id) from rfl) old
        ?_ (List.Subset.refl _) rfl
      cases id <;> simp
    · subst next
      cases id with
      | none => exact h.quiet inv inv' rfl old (by simp) (List.Subset.refl _) rfl
      | some id => exact h.quiet inv inv' rfl old (by simp) (List.Subset.refl _) rfl
  | get lp =>
    have old (x : ℕ) : s.pc t ≠ .ret (some x) := by simp [here]
    cases free : (s.pool lp).curFree with
    | nil =>
      simp only [State.step, here, free, Option.some.injEq] at next
      subst next
      simp only [free]
      exact h.quiet inv inv' rfl old (by simp) (List.Subset.refl _) rfl
    | cons id rest =>
      simp only [State.step, here, free, Option.some.injEq] at next
      subst next
      simp only [free]
      exact h.obtain inv inv' rfl old rfl (fun _ => le_rfl) rfl fun x new => .inl new
  | peek lp =>
    have old (x : ℕ) : s.pc t ≠ .ret (some x) := by simp [here]
    simp only [State.step, here, Option.some.injEq] at next
    subst next
    refine h.quiet inv inv' rfl old (fun id => ?_) (List.Subset.refl _) rfl
    split <;> simp
  | pop lp =>
    have old (x : ℕ) : s.pc t ≠ .ret (some x) := by simp [here]
    cases chunks : s.freeChunks with
    | nil =>
      simp only [State.step, here, chunks, Option.some.injEq] at next
      subst next
      exact h.quiet inv inv' rfl old (by simp) (List.Subset.refl _) rfl
    | cons chunk rest =>
      simp only [State.step, here, chunks, Option.some.injEq] at next
      subst next
      exact h.quiet inv inv' rfl old (by simp) (List.Subset.refl _) rfl
  | fill lp chunk =>
    have old (x : ℕ) : s.pc t ≠ .ret (some x) := by simp [here]
    cases chunk with
    | nil => simp only [State.step, here, reduceCtorEq] at next
    | cons id rest =>
      simp only [State.step, here, Option.some.injEq] at next
      subst next
      exact h.obtain inv inv' rfl old rfl (fun _ => le_rfl) rfl fun x new => .inl new
  | bump lp =>
    have old (x : ℕ) : s.pc t ≠ .ret (some x) := by simp [here]
    cases block : (s.pool lp).curBlock with
    | none =>
      simp only [State.step, here, block] at next
      exact h.fetchBlock inv inv' old next
    | some b =>
      simp only [State.step, here, block] at next
      split_ifs at next
      · obtain rfl := Option.some.inj next
        exact h.quiet inv inv' rfl old (by simp) (List.Subset.refl _) rfl
      · exact h.fetchBlock inv inv' old next
  | fetch lp =>
    simp only [State.step, here] at next
    exact h.addBlock inv inv' here next
  | place lp =>
    have old (x : ℕ) : s.pc t ≠ .ret (some x) := by simp [here]
    cases block : (s.pool lp).curBlock with
    | none => simp only [State.step, here, block, reduceCtorEq] at next
    | some b =>
      simp only [State.step, here, block, Option.some.injEq] at next
      subst next
      exact h.quiet inv inv' rfl old (by simp) (List.Subset.refl _) rfl
  | grow lp id =>
    cases block : (s.pool lp).curBlock with
    | none => simp only [State.step, here, block, reduceCtorEq] at next
    | some b =>
      simp only [State.step, here, block, Option.some.injEq] at next
      subst next
      simp only [block, Option.map_some]
      exact h.grow inv here block inv'
  | ret id =>
    simp only [State.step, here, Option.some.injEq] at next
    subst next
    cases id with
    | none => exact h.quiet inv inv' rfl (by simp [here]) (by simp) (List.Subset.refl _) rfl
    | some id => exact h.hand inv inv' here rfl rfl rfl
  | put lp id =>
    have old (x : ℕ) : s.pc t ≠ .ret (some x) := by simp [here]
    simp only [State.step, here] at next
    split_ifs at next <;> obtain rfl := Option.some.inj next
    · exact h.quiet inv inv' rfl old (by simp) (List.Subset.refl _) rfl
    · exact h.quiet inv inv' rfl old (by simp) (List.Subset.refl _) rfl
  | destroy lp =>
    have old (x : ℕ) : s.pc t ≠ .ret (some x) := by simp [here]
    simp only [State.step, here] at next
    split_ifs at next <;> obtain rfl := Option.some.inj next
    · exact h.quiet inv inv' rfl old (by simp) (List.Subset.refl _) rfl
    · exact h.quiet inv inv' rfl old (by simp) (List.Subset.refl _) rfl
  | copy lp id =>
    have old (x : ℕ) : s.pc t ≠ .ret (some x) := by simp [here]
    simp only [State.step, here] at next
    split_ifs at next
    · obtain rfl := Option.some.inj next
      exact h.quiet inv inv' rfl old (by simp) (List.Subset.refl _) rfl
    · cases id <;> obtain rfl := Option.some.inj next
      · exact h.quiet inv inv' rfl old (by simp) (List.Subset.refl _) rfl
      · exact h.quiet inv inv' rfl old (by simp) (List.Subset.refl _) rfl
  | push lp id chunk =>
    have old (x : ℕ) : s.pc t ≠ .ret (some x) := by simp [here]
    simp only [State.step, here] at next
    cases id <;> obtain rfl := Option.some.inj next
    · exact h.quiet inv inv' rfl old (by simp) (List.Subset.refl _) rfl
    · exact h.quiet inv inv' rfl old (by simp) (List.Subset.refl _) rfl

theorem Noted.act (h : Noted items size s r) (inv : Inv s) {keeps : Bool} {a : Action τ}
    (next : s.act keeps a = some s') :
    Noted items size s' (Pointers.note items size s a s' r) := by
  have inv' := inv.act next
  cases a with
  | getResource t =>
    simp only [State.act] at next
    split_ifs at next with idle
    obtain rfl := Option.some.inj next
    cases kept : s.localPool t with
    | none =>
      simp only [State.getOrNewLocalPool, kept] at inv' ⊢
      exact h.quiet inv inv' rfl (by simp [idle]) (by simp) (List.Subset.refl _) rfl
    | some lp =>
      simp only [State.getOrNewLocalPool, kept] at inv' ⊢
      exact h.quiet inv inv' rfl (by simp [idle]) (by simp) (List.Subset.refl _) rfl
  | returnResource t id =>
    simp only [State.act] at next
    split_ifs at next with guard
    obtain rfl := Option.some.inj next
    have idle := guard.1
    cases kept : s.localPool t with
    | none =>
      simp only [State.getOrNewLocalPool, State.setHeld, kept] at inv' ⊢
      exact h.quiet inv inv' rfl (by simp [idle]) (by simp) (List.Subset.refl _) rfl
    | some lp =>
      simp only [State.getOrNewLocalPool, State.setHeld, kept] at inv' ⊢
      exact h.quiet inv inv' rfl (by simp [idle]) (by simp) (List.Subset.refl _) rfl
  | give t u id =>
    simp only [State.act] at next
    split_ifs at next
    obtain rfl := Option.some.inj next
    exact ⟨h.pointer, h.handed, h.born⟩
  | exit t lp =>
    simp only [State.act] at next
    split_ifs at next with guard <;> obtain rfl := Option.some.inj next
    · exact h.quiet inv inv' rfl (by simp [guard.1]) (by simp) (List.Subset.refl _) rfl
    · exact h.quiet inv inv' rfl (by simp [guard.1]) (by simp) (List.Subset.refl _) rfl
  | step t memory => exact h.step inv inv' next

theorem noted_reachable {keeps : Bool} {p : State τ × Pointers τ}
    (h : (addressedMachine items size keeps τ).Reachable p) :
    Inv p.1 ∧ Noted items size p.1 p.2 := by
  refine h.recorded_invariant (fun s r => Inv s ∧ Noted items size s r) (fun s start => ?_)
    fun s a s' r before _ next => ⟨before.1.act next, before.2.act before.1 next⟩
  obtain rfl : s = initial τ := start
  exact ⟨inv_initial, noted_initial⟩

/-- The blocks of the pool come about by `fetch_block`. -/
theorem blocks_act {keeps : Bool} {a : Action τ} (next : s.act keeps a = some s') :
    s'.blocks = s.blocks ∨ ∃ a, s.blocks.act a = some s'.blocks := by
  have fetch (t : τ) (lp : ℕ) (next : s.fetchBlock t lp = some s') :
      ∃ a, s.blocks.act a = some s'.blocks := by
    obtain ⟨blocks, ran, rfl⟩ := Option.map_eq_some_iff.mp next
    exact ⟨_, ran⟩
  have add (t : τ) (lp : ℕ) (memory : Bool) (next : s.addBlock t lp memory = some s') :
      ∃ a, s.blocks.act a = some s'.blocks := by
    obtain ⟨blocks, ran, rfl⟩ := Option.map_eq_some_iff.mp next
    refine ⟨_, ran.trans (congrArg some ?_)⟩
    cases s.blocks.pc t <;> rfl
  cases a with
  | step t memory =>
    simp only [State.act] at next
    cases here : s.pc t with
    | bump lp =>
      simp only [State.step, here] at next
      (repeat' split at next)
      · cases next
        exact .inl rfl
      · exact .inr (fetch t lp next)
      · exact .inr (fetch t lp next)
    | fetch lp =>
      simp only [State.step, here] at next
      exact .inr (add t lp memory next)
    | newPool id =>
      simp only [State.step, here, Option.some.injEq] at next
      subst next
      left
      split_ifs
      · rfl
      · cases id <;> rfl
    | _ =>
      simp only [State.step, here] at next
      (repeat' split at next) <;> cases next <;> exact .inl rfl
  | getResource t =>
    simp only [State.act, State.getOrNewLocalPool] at next
    (repeat' split at next) <;> cases next <;> exact .inl rfl
  | returnResource t id =>
    simp only [State.act, State.getOrNewLocalPool] at next
    (repeat' split at next) <;> cases next <;> exact .inl rfl
  | give t u id | exit t lp =>
    simp only [State.act] at next
    (repeat' split at next) <;> cases next <;> exact .inl rfl

theorem blocks_reachable {keeps : Bool} (h : (machine keeps τ).Reachable s) :
    (ResourcePool.machine τ).Reachable s.blocks := by
  refine h.invariant (fun s => (ResourcePool.machine τ).Reachable s.blocks) (fun s start => ?_)
    fun s a s' before next => ?_
  · rw [show s = initial τ from start]
    exact .init rfl
  · rcases blocks_act next with same | ⟨b, moved⟩
    · rwa [same]
    · exact before.step moved

omit [DecidableEq τ] in
/-- Blocks that ids come from are never deleted. -/
theorem Stock.live (h : Stock s) {i : ℕ} (back : (i, b) ∈ s.blocks.returned) :
    b < s.blocks.nextBlock ∧ b ∉ s.blocks.freed := by
  have claimed := h.ledger.claimed_of_returned back
  have stage := h.ledger.stage b
  have image : b ∈ s.blocks.claimed.map Prod.snd := List.mem_map_of_mem claimed
  have counted := List.count_pos_iff.mpr image
  refine ⟨?_, fun gone => ?_⟩
  · by_contra unmade
    rw [if_neg unmade] at stage
    omega
  · have deleted := List.count_pos_iff.mpr gone
    split_ifs at stage <;> omega

/-- The pointer of a `get_resource` is always what both functions make of its id, different ids
have disjoint places, and nothing else has an address while no call is in progress. -/
theorem addresses_agree {keeps : Bool} {p : State τ × Pointers τ}
    (h : (addressedMachine items size keeps τ).Reachable p) (pos : 0 < size)
    (apart : p.1.BlocksApart items size) :
    (∀ id x, (id, x) ∈ p.2.handed → ∃ a, x = some a ∧
      p.1.unsafeAddressResource items size id = some a ∧
      p.1.addressResource items size id = some a) ∧
    (∀ v w a c, (v, some a) ∈ p.2.handed → (w, some c) ∈ p.2.handed → v ≠ w →
      a ≠ c ∧ (a + size ≤ c ∨ c + size ≤ a)) ∧
    ((∀ t, p.1.pc t = .idle) → ∀ v, (∀ x, (v, x) ∉ p.2.handed) →
      p.1.addressResource items size v = none) := by
  obtain ⟨inv, noted⟩ := noted_reachable h
  have stock := inv.stock
  have plain : (machine keeps τ).Reachable p.1 := Machine.ReachableBy.forget h
  have named := ResourcePool.named_reachable (blocks_reachable plain)
  refine ⟨fun id x mem => ?_, fun v w a c hv hw differ => ?_, fun idle v never => ?_⟩
  · obtain ⟨⟨b, back, low⟩, same⟩ := noted.handed id x mem
    exact ⟨items b + size * (id % blockNitem), same.trans (stock.table back).1,
      (stock.table back).1, (stock.table back).2.trans (if_pos low)⟩
  · obtain ⟨⟨b, back, -⟩, atv⟩ := noted.handed v _ hv
    obtain ⟨⟨b', back', -⟩, atw⟩ := noted.handed w _ hw
    rw [(stock.table back).1, Option.some.injEq] at atv
    rw [(stock.table back').1, Option.some.injEq] at atw
    have offv : v % blockNitem < blockNitem := Nat.mod_lt v (by decide)
    have offw : w % blockNitem < blockNitem := Nat.mod_lt w (by decide)
    have endv := Nat.mul_le_mul_left size offv
    have endw := Nat.mul_le_mul_left size offw
    rw [Nat.mul_succ] at endv endw
    have disjoint : a + size ≤ c ∨ c + size ≤ a := by
      by_cases same : b = b'
      · subst same
        have index := stock.ledger.index_unique (stock.ledger.claimed_of_returned back)
          (stock.ledger.claimed_of_returned back')
        have offsets : v % blockNitem ≠ w % blockNitem := by
          intro equal
          apply differ
          rw [← Nat.div_add_mod v blockNitem, ← Nat.div_add_mod w blockNitem, index, equal]
        rcases Nat.lt_or_gt_of_ne offsets with less | more
        · have gap := Nat.mul_le_mul_left size less
          rw [Nat.mul_succ] at gap
          omega
        · have gap := Nat.mul_le_mul_left size more
          rw [Nat.mul_succ] at gap
          omega
      · obtain ⟨made, kept⟩ := stock.live back
        obtain ⟨made', kept'⟩ := stock.live back'
        rcases apart b b' same made made' kept kept' with before | after
        · omega
        · omega
    exact ⟨by omega, disjoint⟩
  · by_contra found
    obtain ⟨a, address⟩ := Option.ne_none_iff_exists'.mp found
    rcases noted.born v (stock.born_of_address named address) with ⟨x, mem⟩ | ⟨t, here⟩
    · exact never x mem
    · rw [idle t] at here
      cases here

/-- Two threads in turn get the first node of the first block. -/
theorem addresses_agree_turns : ∃ p : State (Fin 2) × Pointers (Fin 2),
    p.2.handed = [(0, some 4096), (0, some 4096)] ∧
    p.1.addressResource (fun b => 4096 * (b + 1)) 8 0 = some 4096 ∧
    p.1.addressResource (fun b => 4096 * (b + 1)) 8 1 = none := by
  have ran : ((addressedMachine (fun b => 4096 * (b + 1)) 8 true (Fin 2)).run
      (initial (Fin 2), Pointers.start (initial (Fin 2)))
      (.getResource 0 :: List.replicate 20 (.step 0 true) ++ [.returnResource 0 0, .step 0 true,
        .exit 0 0, .step 0 true, .step 0 true, .step 0 true, .getResource 1, .step 1 true,
        .step 1 true, .step 1 true, .step 1 true, .step 1 true, .step 1 true])).map
      (fun p => (p.2.handed, p.1.pc 0, p.1.pc 1)) =
      some ([(0, some 4096), (0, some 4096)], .idle, .idle) := by decide +kernel
  obtain ⟨p, run, seen⟩ := Option.map_eq_some_iff.mp ran
  simp only [Prod.mk.injEq] at seen
  obtain ⟨handed, first, second⟩ := seen
  have start : (addressedMachine (fun b => 4096 * (b + 1)) 8 true (Fin 2)).init
      (initial (Fin 2), Pointers.start (initial (Fin 2))) := ⟨rfl, rfl⟩
  have reached := Machine.run_reachable (.init start) run
  have apart : p.1.BlocksApart (fun b => 4096 * (b + 1)) 8 := by
    intro b c differ _ _ _ _
    simp only [blockNitem]
    omega
  obtain ⟨agree, -, unknown⟩ := addresses_agree reached (by decide) apart
  obtain ⟨a, given, -, found⟩ := agree 0 (some 4096) (by rw [handed]; simp)
  refine ⟨p, handed, found.trans given.symm, unknown (fun t => ?_) 1 fun x => ?_⟩
  · match t with
    | 0 => exact first
    | 1 => exact second
  · rw [handed]
    simp

end Codelab.LocalPool
