import Codelab.ThreadedPool
import Mathlib.Data.List.Perm.Subperm

/-! The nodes of the pool. What a block has handed out is free or out and never both, and the
blocks in use are the ones on `blocks_`. -/

namespace Codelab.ThreadedPool

variable {count : ℕ} {grow : State → Except Fault Bool} {s s' : State} {u u' : Usage}
  {bl : List ℕ} {fl out : List Node} {b : ℕ} {node : Node} {p : Option Node}

/-- The links of the blocks. -/
def State.chain (s : State) (b : ℕ) : Option ℕ := (s.memory b).next

theorem State.setNalloc_self (s : State) (b nalloc : ℕ) :
    (s.setNalloc b nalloc).memory b = ⟨nalloc, s.chain b⟩ := Function.update_self ..

theorem State.setNalloc_of_ne (s : State) (nalloc : ℕ) {b c : ℕ} (apart : c ≠ b) :
    (s.setNalloc b nalloc).memory c = s.memory c := Function.update_of_ne apart ..

theorem State.chain_setNalloc (s : State) (b nalloc : ℕ) :
    (s.setNalloc b nalloc).chain = s.chain := by
  funext c
  by_cases same : c = b
  · rw [same, State.chain, s.setNalloc_self]
  · rw [State.chain, s.setNalloc_of_ne nalloc same, State.chain]

theorem State.newBlock_self (s : State) : s.newBlock.memory s.made = ⟨0, s.blocks⟩ :=
  Function.update_self ..

/-- `bl` are the blocks on `blocks_` and all there are. -/
structure Blocks (s : State) (bl : List ℕ) : Prop where
  path : Chain.Path s.chain s.blocks bl
  alive : ∀ b, b ∈ bl ↔ s.Alive b
  nodup : s.deleted.Nodup
  made : ∀ b ∈ s.deleted, b < s.made

/-- `fl` is the free list; it and `out` share no node and hold what has been handed out of the
blocks only. -/
structure Inv (count : ℕ) (s : State) (out : List Node) (bl : List ℕ) (fl : List Node) :
    Prop where
  blocks : Blocks s bl
  free : Chain.Path s.spaces s.freeNodes fl
  distinct : (fl ++ out).Nodup
  slots : ∀ node ∈ fl ++ out, node.block ∈ bl ∧ node.index < (s.memory node.block).nalloc
  filled : ∀ b ∈ bl, (s.memory b).nalloc ≤ count

theorem blocks_initial (memory : ℕ → Block) (spaces : Node → Option Node) :
    Blocks (initial memory spaces) [] where
  path := rfl
  alive b := ⟨fun mem => absurd mem List.not_mem_nil,
    fun alive => absurd alive.1 (Nat.not_lt_zero b)⟩
  nodup := List.nodup_nil
  made := List.forall_mem_nil _

theorem Blocks.inv_nil (h : Blocks s []) (free : s.freeNodes = none) :
    Inv count s [] [] [] where
  blocks := h
  free := free
  distinct := List.nodup_nil
  slots := List.forall_mem_nil _
  filled := List.forall_mem_nil _

theorem Inv.alive (h : Inv count s out bl fl) (mem : node ∈ fl ++ out) : s.Alive node.block :=
  (h.blocks.alive _).mp (h.slots node mem).1

/-- The first free node goes out. -/
theorem Inv.pop (h : Inv count s out bl (node :: fl)) :
    Inv count { s with freeNodes := s.spaces node } (node :: out) bl fl where
  blocks := ⟨h.blocks.path, h.blocks.alive, h.blocks.nodup, h.blocks.made⟩
  free := h.free.2
  distinct := List.perm_middle.nodup_iff.mpr h.distinct
  slots n mem := h.slots n (List.perm_middle.mem_iff.mp mem)
  filled := h.filled

/-- A node that is out becomes the first free one. -/
theorem Inv.back (h : Inv count s out bl fl) (mem : node ∈ out) :
    ∃ s', s.back (some node) = .ok s' ∧ Inv count s' (out.erase node) bl (node :: fl) := by
  have perm : (node :: fl ++ out.erase node).Perm (fl ++ out) :=
    List.perm_middle.symm.trans ((List.perm_cons_erase mem).symm.append_left fl)
  have apart : node ∉ fl := fun free =>
    List.disjoint_of_nodup_append h.distinct free mem
  have store : s.storeNext node s.freeNodes = .ok _ :=
    if_pos (h.alive (List.mem_append_right _ mem))
  refine ⟨_, congrArg (· >>= _) store, {
    blocks := ⟨h.blocks.path, h.blocks.alive, h.blocks.nodup, h.blocks.made⟩
    free := h.free.push apart (Function.update_self ..)
      fun _ other => Function.update_of_ne other ..
    distinct := perm.nodup_iff.mpr h.distinct
    slots := fun n given => h.slots n (perm.mem_iff.mp given)
    filled := h.filled }⟩

/-- The program may write what it likes into a node that is out. -/
theorem Inv.write (h : Inv count s out bl fl) (mem : node ∈ out) (next : Option Node) :
    ∃ s', s.storeNext node next = .ok s' ∧ Inv count s' out bl fl := by
  refine ⟨_, if_pos (h.alive (List.mem_append_right _ mem)),
    ⟨h.blocks.path, h.blocks.alive, h.blocks.nodup, h.blocks.made⟩, ?_, h.distinct, h.slots,
    h.filled⟩
  exact h.free.congr fun _ free => Function.update_of_ne
    (fun same => List.disjoint_of_nodup_append h.distinct (same ▸ free) mem) ..

theorem Inv.newBlock (h : Inv count s out bl fl) :
    Inv count s.newBlock out (s.made :: bl) fl := by
  have fresh : s.made ∉ bl := fun mem => absurd ((h.blocks.alive _).mp mem).1 (Nat.lt_irrefl _)
  have old (b : ℕ) (mem : b ∈ bl) : s.newBlock.memory b = s.memory b :=
    Function.update_of_ne (ne_of_mem_of_not_mem mem fresh) ..
  have new := s.newBlock_self
  refine ⟨⟨⟨rfl, ?_⟩, fun b => ?_, h.blocks.nodup, fun b gone => ?_⟩, h.free, h.distinct,
    fun n mem => ?_, fun b mem => ?_⟩
  · rw [State.chain, new]
    exact h.blocks.path.congr fun b mem => by rw [State.chain, old b mem, State.chain]
  · have undeleted : s.made ∉ s.deleted := fun gone =>
      absurd (h.blocks.made _ gone) (Nat.lt_irrefl _)
    rw [List.mem_cons, h.blocks.alive b]
    constructor
    · rintro (rfl | alive)
      · exact ⟨Nat.lt_succ_self _, undeleted⟩
      · exact ⟨Nat.lt_succ_of_lt alive.1, alive.2⟩
    · rintro ⟨made, kept⟩
      rcases Nat.lt_succ_iff_lt_or_eq.mp made with before | rfl
      · exact .inr ⟨before, kept⟩
      · exact .inl rfl
  · exact Nat.lt_succ_of_lt (h.blocks.made b gone)
  · obtain ⟨block, index⟩ := h.slots n mem
    rw [old _ block]
    exact ⟨List.mem_cons_of_mem _ block, index⟩
  · rcases List.mem_cons.mp mem with rfl | mem
    · rw [new]
      exact Nat.zero_le _
    · rw [old b mem]
      exact h.filled b mem

/-- The next node of a block with room in it goes out. -/
theorem Inv.take (h : Inv count s out bl fl) (first : s.blocks = some b)
    (room : (s.memory b).nalloc < count) :
    ∃ s', s.take = .ok (s', some ⟨b, (s.memory b).nalloc⟩) ∧
      Inv count s' (⟨b, (s.memory b).nalloc⟩ :: out) bl fl ∧ s'.made = s.made ∧
      b ∈ bl ∧ (⟨b, (s.memory b).nalloc⟩ : Node) ∉ fl ++ out := by
  have mem : b ∈ bl := by
    have path := h.blocks.path
    rw [first] at path
    obtain ⟨rest, rfl, -⟩ := path.of_some
    exact List.mem_cons_self
  have fresh : (⟨b, (s.memory b).nalloc⟩ : Node) ∉ fl ++ out := fun given =>
    absurd (h.slots _ given).2 (Nat.lt_irrefl _)
  have load : s.load (some b) = .ok (s.memory b) := if_pos ((h.blocks.alive b).mp mem)
  have here := s.setNalloc_self b ((s.memory b).nalloc + 1)
  have other (c : ℕ) (apart : c ≠ b) := s.setNalloc_of_ne ((s.memory b).nalloc + 1) apart
  refine ⟨s.setNalloc b ((s.memory b).nalloc + 1), ?_,
    ⟨⟨?_, h.blocks.alive, h.blocks.nodup, h.blocks.made⟩, h.free, ?_, fun n given => ?_,
      fun c given => ?_⟩, rfl, mem, fresh⟩
  · rw [State.take, first]
    exact congrArg (· >>= _) load
  · rw [s.chain_setNalloc]
    exact h.blocks.path
  · exact List.perm_middle.nodup_iff.mpr (List.nodup_cons.mpr ⟨fresh, h.distinct⟩)
  · rcases List.mem_cons.mp (List.perm_middle.mem_iff.mp given) with rfl | given
    · rw [here]
      exact ⟨mem, Nat.lt_succ_self _⟩
    · obtain ⟨block, index⟩ := h.slots n given
      refine ⟨block, ?_⟩
      by_cases same : n.block = b
      · rw [same] at index ⊢
        rw [here]
        exact Nat.lt_succ_of_lt index
      · rw [other _ same]
        exact index
  · by_cases same : c = b
    · rw [same, here]
      exact room
    · rw [other c same]
      exact h.filled c given

/-- With a test that sends `get` to the newest block only while that has room. -/
def Sound (count : ℕ) (grow : State → Except Fault Bool) : Prop :=
  ∀ s bl, Blocks s bl → grow s = .ok false →
    ∃ b, s.blocks = some b ∧ (s.memory b).nalloc < count

/-- A `get` that comes to its end makes a block just when the test says so and `new` succeeds. -/
theorem Inv.get (h : Inv count s out bl fl) (pos : 0 < count) (sound : Sound count grow)
    (memory : Bool) (tested : s.freeNodes = none → ∃ more, grow s = .ok more) :
    ∃ s' p bl fl, s.get grow memory = .ok (s', p) ∧ Inv count s' (p.toList ++ out) bl fl ∧
      (∀ node, p = some node → node ∉ out) ∧
      (s'.made ≠ s.made ↔ s.freeNodes = none ∧ grow s = .ok true ∧ memory = true) := by
  have path := h.free
  cases first : s.freeNodes with
  | some node =>
    rw [first] at path
    obtain ⟨rest, rfl, -⟩ := path.of_some
    have load : s.loadNext node = .ok (s.spaces node) :=
      if_pos (h.alive (List.mem_cons_self))
    refine ⟨{ s with freeNodes := s.spaces node }, some node, bl, rest, ?_, h.pop, ?_, by simp⟩
    · rw [State.get, first]
      exact congrArg (· >>= _) load
    · rintro n ⟨⟩ held
      exact List.disjoint_of_nodup_append h.distinct List.mem_cons_self held
  | none =>
    obtain ⟨more, ran⟩ := tested first
    have get : s.get grow memory =
        if more then if memory then s.newBlock.take else .ok (s, none) else s.take := by
      rw [State.get, first]
      exact congrArg (· >>= _) ran
    cases more with
    | false =>
      obtain ⟨b, newest, room⟩ := sound s bl h.blocks ran
      obtain ⟨s', take, inv, made, -, fresh⟩ := h.take newest room
      refine ⟨s', _, bl, fl, get.trans take, inv, ?_, by simp [made, ran]⟩
      rintro n ⟨⟩ held
      exact fresh (List.mem_append_right _ held)
    | true =>
      cases memory with
      | false => exact ⟨s, none, bl, fl, get, h, by simp, by simp⟩
      | true =>
        have empty : (s.newBlock.memory s.made).nalloc < count := by
          rw [s.newBlock_self]
          exact pos
        obtain ⟨s', take, inv, made, -, fresh⟩ := h.newBlock.take rfl empty
        have one : s'.made = s.made + 1 := made
        refine ⟨s', _, _, fl, get.trans take, inv, ?_, by simp [one, ran]⟩
        rintro n ⟨⟩ held
        exact fresh (List.mem_append_right _ held)

/-- A block that is not deleted yet leaves the list of deleted ones shorter than all. -/
theorem Blocks.length_lt (h : Blocks s bl) (mem : b ∈ bl) : s.deleted.length < s.made := by
  obtain ⟨made, kept⟩ := (h.alive b).mp mem
  have nodup : (b :: s.deleted).Nodup := List.nodup_cons.mpr ⟨kept, h.nodup⟩
  have all : b :: s.deleted ⊆ List.range s.made :=
    List.cons_subset.mpr ⟨List.mem_range.mpr made, fun c gone => List.mem_range.mpr (h.made c gone)⟩
  have length := (List.subperm_of_subset nodup all).length_le
  rw [List.length_range] at length
  exact length

theorem Blocks.resetRound (h : Blocks s bl) : Total.Outcome s.resetRound
    (Sum.elim
      (fun t => ((∃ bl, Blocks t bl) ∧ t.made = s.made ∧ t.freeNodes = s.freeNodes) ∧
        t.made - t.deleted.length < s.made - s.deleted.length)
      (fun t => Blocks t [] ∧ t.made = s.made ∧ t.freeNodes = s.freeNodes)) (fun _ => False) := by
  have path := h.path
  rw [State.resetRound]
  cases first : s.blocks with
  | none =>
    rw [first] at path
    obtain rfl := path.eq_nil
    exact ⟨h, rfl, rfl⟩
  | some b =>
    rw [first] at path
    obtain ⟨rest, rfl, tail⟩ := path.of_some
    have alive := (h.alive b).mp List.mem_cons_self
    have short := h.length_lt List.mem_cons_self
    have alone := (List.nodup_cons.mp path.nodup).1
    refine .bind_ok (if_pos alive) (.bind_ok (if_pos alive) ?_)
    refine ⟨⟨⟨rest, tail, fun c => ?_, List.nodup_cons.mpr ⟨alive.2, h.nodup⟩,
      List.forall_mem_cons.mpr ⟨alive.1, h.made⟩⟩, rfl, rfl⟩, ?_⟩
    · have known := h.alive c
      rw [List.mem_cons] at known
      change c ∈ rest ↔ c < s.made ∧ c ∉ b :: s.deleted
      rw [List.mem_cons, not_or]
      constructor
      · intro mem
        obtain ⟨made, kept⟩ := known.mp (.inr mem)
        exact ⟨made, ne_of_mem_of_not_mem mem alone, kept⟩
      · rintro ⟨made, apart, kept⟩
        exact (known.mpr ⟨made, kept⟩).resolve_left apart
    · change s.made - (b :: s.deleted).length < s.made - s.deleted.length
      rw [List.length_cons]
      omega

theorem Blocks.reset (h : Blocks s bl) :
    ∃ s', s.reset = .ok s' ∧ Blocks s' [] ∧ s'.made = s.made ∧ s'.freeNodes = none := by
  have start : Blocks { s with freeNodes := none } bl := ⟨h.path, h.alive, h.nodup, h.made⟩
  have returns : Total.Returns s.reset
      fun t => Blocks t [] ∧ t.made = s.made ∧ t.freeNodes = none := by
    refine Total.loop_outcome (fun t => (∃ bl, Blocks t bl) ∧ t.made = s.made ∧ t.freeNodes = none)
      (fun t => t.made - t.deleted.length) (fun t ht => ?_) ⟨⟨bl, start⟩, rfl, rfl⟩ ?_
    · obtain ⟨⟨bl, inv⟩, made, free⟩ := ht
      have round := inv.resetRound
      rw [made, free] at round
      rw [made]
      exact round
    · exact Nat.lt_succ_of_le (Nat.sub_le ..)
  exact returns.eq_ok

end Codelab.ThreadedPool
