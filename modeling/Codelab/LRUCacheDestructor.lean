import Codelab.LRUCacheInvariant

/-! The destructor of the cache. It goes along `lru_` and drops the reference of the index, without
unlinking the handles that it deletes; the handles that are in use it leaves alone. -/

namespace Codelab.LRUCache

variable {Value : Type*} {s : State Value} {l u m : List ℕ} {n : ℕ} {a : Addr}

namespace State

/-- The loop of `~LRUCache`, for at most `rounds` tests of its condition; `e` is the local
variable. -/
def destructLoop : ℕ → Option Addr → State Value → Except Fault (State Value)
  | 0, _, _ => .error .unfinished
  | rounds + 1, e, s =>
      if e ≠ some .lru then do
        let next := (← s.load e).next
        let s ← s.store e ({ · with valid := false })
        let s ← s.unref e
        destructLoop rounds next s
      else pure s

/-- `~LRUCache`. Each round of the loop frees one unit of `usage_`. -/
def destruct (s : State Value) : Except Fault (State Value) :=
  destructLoop (s.usage + 1) (s.memory .lru).next s

/-- One round, on a handle that only the index refers to. -/
def dispose (s : State Value) (n : ℕ) : State Value :=
  ((s.modify (.handle n) ({ · with valid := false })).lower n).drop n

theorem handle_dispose_of_ne {k : ℕ} (ne : k ≠ n) : (s.dispose n).handle k = s.handle k :=
  (handle_lower_of_ne ne).trans (handle_modify_of_ne ne)

theorem next_dispose : (s.dispose n).next = s.next := by
  change (lower (s.modify (.handle n) _) n).next = _
  rw [next_lower]
  exact next_modify fun _ => rfl

theorem prev_dispose : (s.dispose n).prev = s.prev := by
  change (lower (s.modify (.handle n) _) n).prev = _
  rw [prev_lower]
  exact prev_modify fun _ => rfl

theorem destructLoop_handle (live : n ∈ s.undeleted) (last : (s.handle n).ref = 1) (rounds : ℕ) :
    destructLoop (rounds + 1) (some (.handle n)) s =
      destructLoop rounds (s.next (.handle n)) (s.dispose n) := by
  let s₁ := s.modify (.handle n) ({ · with valid := false })
  have store : s.store (some (.handle n)) ({ · with valid := false }) = .ok s₁ := store_handle live
  have last₁ : (s₁.handle n).ref = 1 := by
    rw [show s₁.handle n = { s.handle n with valid := false } from handle_modify_self]
    exact last
  have disposed : s₁.unref (some (.handle n)) = .ok (s.dispose n) := unref_last live last₁
  rw [destructLoop, if_pos (by simp)]
  simp only [load_handle live, store, disposed, bind, Except.bind]
  rfl

/-- The loop on the handles `m` that are left deletes them from the front on. -/
theorem destructLoop_eq (linked : Ring.Seg s.next s.prev a (m.map .handle) .lru) (nodup : m.Nodup)
    (idle : ∀ n ∈ m, n ∈ s.undeleted ∧ (s.handle n).ref = 1) {rounds : ℕ}
    (enough : m.length < rounds) : ∃ s', destructLoop rounds (s.next a) s = .ok s' ∧
      s'.deleted = m.reverse ++ s.deleted ∧ s'.made = s.made ∧ s'.pins = s.pins ∧
        s'.usage = s.usage - m.length := by
  obtain ⟨rounds, rfl⟩ : ∃ k, rounds = k + 1 := ⟨rounds - 1, by omega⟩
  induction m generalizing s a rounds with
  | nil =>
    refine ⟨s, ?_, rfl, rfl, rfl, rfl⟩
    rw [show s.next a = some .lru from linked.1, destructLoop, if_neg (not_not_intro rfl)]
    rfl
  | cons n m ih =>
    obtain ⟨forth, -, rest⟩ := linked
    obtain ⟨new, others⟩ := List.nodup_cons.mp nodup
    obtain ⟨live, last⟩ := idle n List.mem_cons_self
    obtain ⟨rounds, rfl⟩ : ∃ k, rounds = k + 1 := by
      rw [List.length_cons] at enough
      exact ⟨rounds - 1, by omega⟩
    rw [← next_dispose (n := n), ← prev_dispose (n := n)] at rest
    have left : ∀ k ∈ m, k ∈ (s.dispose n).undeleted ∧ ((s.dispose n).handle k).ref = 1 := by
      intro k hk
      have ne : k ≠ n := fun same => new (same ▸ hk)
      obtain ⟨alive, one⟩ := idle k (List.mem_cons_of_mem n hk)
      rw [handle_dispose_of_ne ne]
      exact ⟨mem_undeleted_drop.mpr ⟨ne, alive⟩, one⟩
    obtain ⟨s', run, deleted, made, pins, usage⟩ :=
      ih rest others left rounds (Nat.lt_of_succ_lt_succ enough)
    refine ⟨s', ?_, ?_, made, pins, ?_⟩
    · rw [show s.next a = some (.handle n) from forth, destructLoop_handle live last]
      rwa [next_dispose] at run
    · rw [deleted, List.reverse_cons, List.append_assoc]
      rfl
    · rw [usage, List.length_cons]
      change s.usage - 1 - m.length = _
      omega

end State

namespace Inv

theorem length_le_usage (h : Inv s l u) : l.length ≤ s.usage := by
  have inside : l.toFinset ⊆ s.undeleted := fun n hn =>
    h.rep.live n (List.mem_append_left u (List.mem_toFinset.mp hn))
  have card := Finset.card_le_card inside
  rw [List.toFinset_card_of_nodup h.rep.linked.nodup_lru, h.rep.card_undeleted] at card
  exact card

/-- The handles without an unreleased Lookup are those on `lru_`. -/
theorem lru_iff (h : Inv s l u) (live : n ∈ s.undeleted) : n ∈ l ↔ s.pins n = 0 := by
  have own := h.rep.kept n (Option.some_ne_none n)
  refine ⟨own.idle, fun free => ?_⟩
  by_cases listed : n ∈ l ++ u
  · refine (List.mem_append.mp listed).resolve_right fun inUse => ?_
    have := own.pinned inUse
    omega
  · have := (own.loose live listed).2.2
    omega

end Inv

/-- After any run with balanced Releases, in which no handle has more unreleased Lookups than `ref`
can count, the destructor finishes without touching a deleted handle. It deletes every handle that
is not in use, and none twice; what is left are the handles whose Lookups have not all been
released. -/
theorem destructor_frees (hs : (machine Value).ReachableBy (fun s a => s.proper a) s) :
    ∃ s', s.destruct = .ok s' ∧ s.deleted <:+ s'.deleted ∧ s'.deleted.Nodup ∧
      (∀ n, n ∈ s'.undeleted ↔ n ∈ s.undeleted ∧ 0 < s.pins n) ∧
      s'.usage = s'.undeleted.card := by
  obtain ⟨l, u, inv⟩ := inv_of_reachable hs
  have live : ∀ n ∈ l, n ∈ s.undeleted := fun n hn => inv.rep.live n (List.mem_append_left u hn)
  have idle : ∀ n ∈ l, n ∈ s.undeleted ∧ (s.handle n).ref = 1 := by
    intro n hn
    have own := inv.rep.kept n (Option.some_ne_none n)
    refine ⟨live n hn, ?_⟩
    rw [(own.listed (List.mem_append_left u hn)).2, own.idle hn]
    rfl
  obtain ⟨s', run, deleted, made, pins, usage⟩ := State.destructLoop_eq inv.rep.linked.lru.2
    inv.rep.linked.nodup_lru idle (Nat.lt_succ_of_le inv.length_le_usage)
  have once : s'.deleted.Nodup := by
    rw [deleted]
    refine List.nodup_append.mpr ⟨List.nodup_reverse.mpr inv.rep.linked.nodup_lru, inv.rep.once, ?_⟩
    rintro n hn _ gone rfl
    exact (State.mem_undeleted.mp (live n (List.mem_reverse.mp hn))).2 gone
  refine ⟨s', run, ⟨l.reverse, deleted.symm⟩, once, fun n => ?_, ?_⟩
  · rw [State.mem_undeleted, State.mem_undeleted, made, deleted, List.mem_append, List.mem_reverse,
      not_or]
    constructor
    · rintro ⟨old, out, alive⟩
      refine ⟨⟨old, alive⟩, Nat.pos_of_ne_zero fun free => out ?_⟩
      exact (inv.lru_iff (State.mem_undeleted.mpr ⟨old, alive⟩)).mpr free
    · rintro ⟨⟨old, alive⟩, pinned⟩
      refine ⟨old, fun idle => ?_, alive⟩
      have := (inv.lru_iff (State.mem_undeleted.mpr ⟨old, alive⟩)).mp idle
      omega
  · have all : ∀ n ∈ s'.deleted, n < s'.made := by
      intro n hn
      rw [deleted, List.mem_append, List.mem_reverse] at hn
      rw [made]
      exact hn.elim (fun idle => (State.mem_undeleted.mp (live n idle)).1) (inv.rep.made n)
    have size := State.card_undeleted once all
    have before := inv.rep.usage
    have short := inv.length_le_usage
    rw [deleted, List.length_append, List.length_reverse, made] at size
    omega

/-- One entry is idle, one is in use, and one in use has been erased. -/
theorem destructor_frees_idle : ∃ s s' : State ℕ, s.destruct = .ok s' ∧ s.deleted = [] ∧
    ∀ n, n ∈ s'.undeleted ↔ n ∈ s.undeleted ∧ 0 < s.pins n := by
  have ran : ((machine ℕ).runBy (fun s a => s.proper a) (initial garbage 3)
      [.insert 1 10, .insert 2 20, .insert 3 30, .lookup 2, .lookup 3, .erase 3]).map
        (fun s => s.deleted) = some [] := by decide +kernel
  obtain ⟨s, hrun, fresh⟩ := Option.map_eq_some_iff.mp ran
  have start : (machine ℕ).init (initial garbage 3) := rfl
  obtain ⟨s', destructed, -, -, left, -⟩ :=
    destructor_frees (Machine.runBy_reachable (.init start) hrun)
  exact ⟨s, s', destructed, fresh, left⟩

end Codelab.LRUCache
