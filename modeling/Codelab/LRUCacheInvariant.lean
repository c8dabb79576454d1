import Codelab.LRUCacheInsert

/-! The representation invariant of the cache over whole runs. -/

namespace Codelab.LRUCache

variable {Value : Type*} {s s' : State Value} {l u l' u' : List ℕ} {n m : ℕ} {key : Int}

namespace Inv

/-- A step on handle `n` that changes neither the entries nor their keys. -/
theorem of_frame (h : Inv s l u) (rep : Rep s' l' u' none 0) (index : s'.cacheIndex = s.cacheIndex)
    (keeps : Keeps s s') (same : ∀ m, m ∈ l' ++ u' ↔ m ∈ l ++ u)
    (usage : s'.usage ≤ s.usage) : Inv s' l' u' where
  rep := rep
  indexed := h.indexed.congr index (fun m _ => keeps.key m) same
  capacity := by
    rw [keeps.capacity]
    exact usage.trans h.capacity

/-- A Lookup finds the entry of its key and pins it. -/
theorem lookup (h : Inv s l u) (key : Int) (room : s.bounded (.lookup key) = true) :
    (s.cacheIndex.index key = none ∧ s.lookup key = .ok (s, none)) ∨
    ∃ n s' u', s.cacheIndex.index key = some (.handle n) ∧ n ∈ l ++ u ∧
      s.lookup key = .ok (s', some (.handle n)) ∧ Inv (s'.pin (some (.handle n))) (l.erase n) u' ∧
      Keeps s s' ∧ s'.pins = s.pins ∧ (∀ m, m ∈ l.erase n ++ u' ↔ m ∈ l ++ u) := by
  cases found : s.cacheIndex.index key with
  | none =>
    refine .inl ⟨rfl, ?_⟩
    unfold State.lookup
    rw [show s.cacheIndex.lookup key = none from found]
    rfl
  | some e =>
    obtain ⟨n, rfl, hn, -⟩ := h.indexed.entry found
    have room : s.pins n + 2 < 2 ^ 31 := by
      simp only [State.bounded, LRUCacheIndex.lookup, found] at room
      exact of_decide_eq_true room
    obtain ⟨s', u', run, rep, same, frame, pins⟩ := h.rep.ref hn room
    refine .inr ⟨n, s', u', rfl, hn, ?_, ?_, frame.toKeeps, pins, same⟩
    · unfold State.lookup
      rw [show s.cacheIndex.lookup key = some (.handle n) from found]
      change (s.ref (some (.handle n)) >>= _) = _
      rw [run]
      rfl
    · have keeps : Keeps s (s'.pin (some (.handle n))) :=
        ⟨frame.capacity, frame.key, frame.value, frame.deleted⟩
      exact h.of_frame rep frame.cacheIndex keeps same frame.usage

theorem release (h : Inv s l u) (held : 0 < s.pins n) : ∃ s' l' u',
    s.release (some (.handle n)) = .ok s' ∧ Inv (s'.unpin n) l' u' ∧ Keeps s s' ∧
      s'.pins = s.pins ∧ (∀ m, m ∈ l' ++ u' ↔ m ∈ l ++ u) ∧
      l' = if n ∈ u ∧ s.pins n = 1 then l ++ [n] else l := by
  obtain ⟨s', l', u', run, rep, same, frame, pins, lists⟩ := h.rep.unref held
  have keeps : Keeps s (s'.unpin n) := ⟨frame.capacity, frame.key, frame.value, frame.deleted⟩
  exact ⟨s', l', u', run, h.of_frame rep frame.cacheIndex keeps same frame.usage,
    frame.toKeeps, pins,
    same, lists⟩

theorem erase (h : Inv s l u) (key : Int) : ∃ s', s.erase key = .ok s' ∧
    Inv s' (s.without key l) (s.without key u) ∧ Keeps s s' ∧ s'.pins = s.pins := by
  cases found : s.cacheIndex.index key with
  | none =>
    have other : ∀ m ∈ l ++ u, (s.handle m).key ≠ key := fun m hm same =>
      Option.some_ne_none _ (((h.indexed key _).mpr ⟨m, hm, rfl, same⟩).symm.trans found)
    have gone : (s.cacheIndex.erase key).2 = none := found
    have same : Function.update s.cacheIndex.index key none = s.cacheIndex.index := by
      rw [← found, Function.update_eq_self]
    refine ⟨{ s with cacheIndex := (s.cacheIndex.erase key).1 }, ?_, ?_, ?_, rfl⟩
    · change (State.removeFromLRU { s with cacheIndex := (s.cacheIndex.erase key).1 }
        (s.cacheIndex.erase key).2 >>= _) = _
      rw [gone]
      rfl
    · rw [State.without_eq_self fun m hm => other m (List.mem_append_left u hm),
        State.without_eq_self fun m hm => other m (List.mem_append_right l hm)]
      have index : (s.cacheIndex.erase key).1 = s.cacheIndex :=
        congrArg LRUCacheIndex.mk same
      rw [index]
      exact h
    · exact ⟨rfl, fun _ => rfl, fun _ => rfl, List.suffix_rfl⟩
  | some e =>
    obtain ⟨n, rfl, hn, rfl⟩ := h.indexed.entry found
    have same : ∀ m ∈ l ++ u, (s.handle m).key = (s.handle n).key ↔ m = n := fun m hm =>
      ⟨fun e => h.indexed.unique hn hm e, fun e => e ▸ rfl⟩
    have sameL := State.erase_eq_without h.rep.linked.nodup_lru fun m hm =>
      same m (List.mem_append_left u hm)
    have sameU := State.erase_eq_without h.rep.linked.nodup_inUse fun m hm =>
      same m (List.mem_append_right l hm)
    obtain ⟨s', run, rep, indexed, keeps, -, pins, -, freed⟩ :=
      h.rep.expel h.indexed hn (Option.some_ne_none n) (h.rep.usage_pos (h.rep.live n hn))
    rw [sameL, sameU] at rep indexed
    refine ⟨s', ?_, ⟨rep, indexed, ?_⟩, keeps, pins⟩
    · change (State.removeFromLRU { s with cacheIndex := (s.cacheIndex.erase (s.handle n).key).1 }
        (s.cacheIndex.erase (s.handle n).key).2 >>= _) = _
      rw [run]
      rfl
    · have bound := h.capacity
      rw [keeps.capacity]
      rcases freed with ⟨-, usage, -⟩ | ⟨-, usage, -⟩ <;> omega

/-- Every operation of a proper run succeeds, leaves the cache in order and keeps the keys
and values of the handles there are. -/
theorem act (h : Inv s l u) {a : Action Value} (proper : s.proper a = true) :
    ∃ s' l' u', s.act a = .ok s' ∧ Inv s' l' u' ∧ s.deleted <:+ s'.deleted ∧
      ∀ m, m ≠ s.made → (s'.handle m).key = (s.handle m).key ∧
        (s'.handle m).value = (s.handle m).value := by
  obtain ⟨balanced, bounded⟩ := (Bool.and_eq_true _ _).mp proper
  cases a with
  | insert key value =>
    obtain ⟨s', l', victims, done, run, inserted⟩ := h.insert key value
    have outcome : s.act (.insert key value) = .ok s' := by
      simp only [State.act, run, bind, Except.bind]
      rfl
    have same : ∀ m, m ≠ s.made → (s'.handle m).key = (s.handle m).key ∧
        (s'.handle m).value = (s.handle m).value := fun m old =>
      ⟨inserted.keys m old, inserted.values m old⟩
    cases done with
    | true => exact ⟨s', _, _, outcome, (inserted.success rfl).1, inserted.deleted, same⟩
    | false => exact ⟨s', _, _, outcome, (inserted.failure rfl).1, inserted.deleted, same⟩
  | lookup key =>
    rcases h.lookup key bounded with ⟨-, run⟩ | ⟨n, s', u', -, -, run, inv, keeps, -, -⟩
    · refine ⟨s, l, u, ?_, h, List.suffix_rfl, fun m _ => ⟨rfl, rfl⟩⟩
      simp only [State.act, run, bind, Except.bind]
      rfl
    · refine ⟨s'.pin (some (.handle n)), _, u', ?_, inv, keeps.deleted,
        fun m _ => ⟨keeps.key m, keeps.value m⟩⟩
      simp only [State.act, run, bind, Except.bind]
      rfl
  | release n =>
    obtain ⟨s', l', u', run, inv, keeps, -⟩ := h.release (of_decide_eq_true balanced)
    refine ⟨s'.unpin n, l', u', ?_, inv, keeps.deleted, fun m _ => ⟨keeps.key m, keeps.value m⟩⟩
    simp only [State.act, run, bind, Except.bind]
    rfl
  | erase key =>
    obtain ⟨s', run, inv, keeps, -⟩ := h.erase key
    exact ⟨s', _, _, run, inv, keeps.deleted, fun m _ => ⟨keeps.key m, keeps.value m⟩⟩

theorem init (memory : Addr → LRUHandle Value) (capacity : ℕ) :
    Inv (initial memory capacity) [] [] where
  rep :=
    { linked := ⟨Ring.circle_nil rfl rfl, Ring.circle_nil rfl rfl, List.disjoint_nil_left []⟩
      live := fun _ no => absurd no List.not_mem_nil
      kept := fun n _ =>
        { listed := fun no => absurd no List.not_mem_nil
          idle := fun _ => rfl
          pinned := fun no => absurd no List.not_mem_nil
          loose := fun no => absurd (State.mem_undeleted.mp no).1 (Nat.not_lt_zero n)
          gone := fun _ => rfl }
      once := List.nodup_nil
      made := fun _ no => absurd no List.not_mem_nil
      usage := rfl }
  indexed := by
    intro k e
    refine iff_of_false (Option.some_ne_none e).symm ?_
    rintro ⟨n, no, -⟩
    exact absurd no List.not_mem_nil
  capacity := Nat.zero_le _

end Inv

/-- The representation, in the terms of the code: the lists `lru_` with the handles `l` and
`in_use_` with the handles `u`, the index, the fields of the handles and the counters. -/
structure WellFormed (s : State Value) (l u : List ℕ) : Prop where
  lru : Ring.Circle s.next s.prev .lru (l.map .handle)
  inUse : Ring.Circle s.next s.prev .inUse (u.map .handle)
  disjoint : l.Disjoint u
  undeleted : ∀ n ∈ l ++ u, n ∈ s.undeleted
  index : ∀ key e, s.cacheIndex.index key = some e ↔
    ∃ n ∈ s.undeleted, e = .handle n ∧ (s.handle n).valid = true ∧ (s.handle n).key = key
  idle : ∀ n ∈ s.undeleted, (s.handle n).valid = true → (n ∈ l ↔ (s.handle n).ref = 1)
  pinned : ∀ n ∈ s.undeleted, (s.handle n).valid = true → (n ∈ u ↔ 2 ≤ (s.handle n).ref)
  invalid : ∀ n ∈ s.undeleted, (s.handle n).valid = false → n ∉ l ∧ n ∉ u
  ref : ∀ n ∈ s.undeleted,
    (s.handle n).ref = (if (s.handle n).valid then 1 else 0) + (s.pins n : Int)
  usage : s.usage = s.undeleted.card
  capacity : s.usage ≤ s.capacity
  once : s.deleted.Nodup
  deleted : ∀ n, n ∈ s.deleted ↔
    n < s.made ∧ (∀ key, s.cacheIndex.index key ≠ some (.handle n)) ∧ s.pins n = 0

namespace Inv

theorem valid_iff (h : Inv s l u) (live : n ∈ s.undeleted) :
    (s.handle n).valid = true ↔ n ∈ l ++ u := by
  have own := h.rep.kept n (Option.some_ne_none n)
  refine ⟨fun valid => ?_, fun listed => (own.listed listed).1⟩
  by_contra out
  exact Bool.false_ne_true ((own.loose live out).1.symm.trans valid)

theorem wellFormed (h : Inv s l u) : WellFormed s l u where
  lru := h.rep.linked.lru
  inUse := h.rep.linked.inUse
  disjoint := h.rep.linked.disjoint
  undeleted := h.rep.live
  index := by
    intro key e
    rw [h.indexed key e]
    constructor
    · rintro ⟨n, hn, rfl, hkey⟩
      have live := h.rep.live n hn
      exact ⟨n, live, rfl, (h.valid_iff live).mpr hn, hkey⟩
    · rintro ⟨n, live, rfl, valid, hkey⟩
      exact ⟨n, (h.valid_iff live).mp valid, rfl, hkey⟩
  idle := by
    intro n live valid
    have own := h.rep.kept n (Option.some_ne_none n)
    have listed := (h.valid_iff live).mp valid
    have ref := (own.listed listed).2
    refine ⟨fun idle => ?_, fun one => ?_⟩
    · rw [ref, own.idle idle]
      rfl
    · by_contra out
      have := own.pinned ((List.mem_append.mp listed).resolve_left out)
      omega
  pinned := by
    intro n live valid
    have own := h.rep.kept n (Option.some_ne_none n)
    have listed := (h.valid_iff live).mp valid
    have ref := (own.listed listed).2
    refine ⟨fun pinned => ?_, fun two => ?_⟩
    · have := own.pinned pinned
      omega
    · by_contra out
      have := own.idle ((List.mem_append.mp listed).resolve_right out)
      omega
  invalid := by
    intro n live invalid
    have out : n ∉ l ++ u := fun listed =>
      Bool.false_ne_true (invalid.symm.trans ((h.valid_iff live).mpr listed))
    exact not_or.mp (List.mem_append.not.mp out)
  ref := by
    intro n live
    have own := h.rep.kept n (Option.some_ne_none n)
    by_cases listed : n ∈ l ++ u
    · obtain ⟨valid, ref⟩ := own.listed listed
      rw [valid, ref]
      rfl
    · obtain ⟨invalid, ref, -⟩ := own.loose live listed
      rw [invalid, ref]
      exact (Int.zero_add _).symm
  usage := h.rep.card_undeleted.symm
  capacity := h.capacity
  once := h.rep.once
  deleted := by
    intro n
    have own := h.rep.kept n (Option.some_ne_none n)
    constructor
    · intro deleted
      have dead : n ∉ s.undeleted := fun live => (State.mem_undeleted.mp live).2 deleted
      refine ⟨h.rep.made n deleted, fun key found => ?_, own.gone dead⟩
      obtain ⟨m, same, hm, -⟩ := h.indexed.entry found
      obtain rfl := handle_injective same
      exact dead (h.rep.live n hm)
    · rintro ⟨made, unindexed, free⟩
      by_contra alive
      have live := State.mem_undeleted.mpr ⟨made, alive⟩
      by_cases listed : n ∈ l ++ u
      · exact unindexed _ ((h.indexed _ _).mpr ⟨n, listed, rfl, rfl⟩)
      · have := (own.loose live listed).2.2
        omega

end Inv

namespace Inv

/-- A Lookup of an entry pins it once more, as long as `ref` can count: after `k` of them what each
preserves still holds. -/
theorem lookups {P : State Value → Prop} (h : Inv s l u)
    (found : s.cacheIndex.index key = some (.handle n)) (start : P s)
    (keep : ∀ s s', P s → s.act (.lookup key) = .ok s' → P s') (k : ℕ)
    (room : s.pins n + k + 1 < 2 ^ 31) : ∃ s' l' u', P s' ∧ Inv s' l' u' ∧
      s'.cacheIndex.index key = some (.handle n) ∧ s'.pins n = s.pins n + k := by
  induction k with
  | zero => exact ⟨s, l, u, start, h, found, rfl⟩
  | succ k ih =>
    obtain ⟨s₁, l₁, u₁, before, h₁, found₁, pins₁⟩ := ih (by omega)
    have bounded : s₁.bounded (.lookup key) = true := by
      simp only [State.bounded, LRUCacheIndex.lookup, found₁]
      exact decide_eq_true (by omega)
    rcases h₁.lookup key bounded with ⟨none, -⟩ |
      ⟨m, s', u', same, listed, run, inv, keeps, pins, mem⟩
    · exact absurd (none.symm.trans found₁) (Option.some_ne_none _).symm
    · obtain rfl := handle_injective (Option.some.inj (found₁.symm.trans same))
      have step : s₁.act (.lookup key) = .ok (s'.pin (some (.handle n))) := by
        simp only [State.act, run, bind, Except.bind]
        rfl
      refine ⟨_, _, u', keep _ _ before step, inv, ?_, ?_⟩
      · refine (inv.indexed key _).mpr ⟨n, (mem n).mpr listed, rfl, (keeps.key n).trans ?_⟩
        obtain ⟨i, e, -, hkey⟩ := h₁.indexed.entry found₁
        exact handle_injective e ▸ hkey
      · refine (Function.update_self _ _ _).trans ?_
        rw [pins, pins₁, Nat.add_assoc]

theorem lookup_overflow (h : Inv s l u) (found : s.cacheIndex.index key = some (.handle n))
    (full : s.pins n + 2 = 2 ^ 31) : s.lookup key = .error .overflow := by
  obtain ⟨m, e, hm, -⟩ := h.indexed.entry found
  obtain rfl := handle_injective e
  have count := ((h.rep.kept n (Option.some_ne_none n)).listed hm).2
  have top : (s.handle n).ref = intMax := by
    rw [count, intMax]
    omega
  unfold State.lookup
  rw [show s.cacheIndex.lookup key = some (.handle n) from found]
  change (s.ref (some (.handle n)) >>= _) = _
  rw [State.ref_overflow (h.rep.live n hm) top]
  rfl

end Inv

/-- Conversely, a well-formed state is in order if no handle is pinned before it is made. -/
theorem WellFormed.inv (h : WellFormed s l u) (unmade : ∀ n, s.made ≤ n → s.pins n = 0) :
    Inv s l u := by
  have valid : ∀ n ∈ l ++ u, (s.handle n).valid = true := by
    intro n hn
    by_contra invalid
    obtain ⟨outL, outU⟩ := h.invalid n (h.undeleted n hn) (Bool.eq_false_iff.mpr invalid)
    exact (List.mem_append.mp hn).elim outL outU
  have ref : ∀ n ∈ s.undeleted, (s.handle n).valid = true → (s.handle n).ref = 1 + s.pins n := by
    intro n live valid
    rw [h.ref n live, valid]
    rfl
  have listed : ∀ n ∈ s.undeleted, (s.handle n).valid = true → n ∈ l ++ u := by
    intro n live valid
    have count := ref n live valid
    by_cases one : (s.handle n).ref = 1
    · exact List.mem_append_left u ((h.idle n live valid).mpr one)
    · exact List.mem_append_right l ((h.pinned n live valid).mpr (by omega))
  have made : ∀ n ∈ s.deleted, n < s.made := fun n deleted => ((h.deleted n).mp deleted).1
  refine ⟨⟨⟨h.lru, h.inUse, h.disjoint⟩, h.undeleted, fun n _ => ?_, h.once, made, ?_⟩, ?_,
    h.capacity⟩
  · constructor
    · exact fun hn => ⟨valid n hn, ref n (h.undeleted n hn) (valid n hn)⟩
    · intro hn
      have live := h.undeleted n (List.mem_append_left u hn)
      have fine := valid n (List.mem_append_left u hn)
      have one := (h.idle n live fine).mp hn
      have count := ref n live fine
      omega
    · intro hn
      have live := h.undeleted n (List.mem_append_right l hn)
      have fine := valid n (List.mem_append_right l hn)
      have two := (h.pinned n live fine).mp hn
      have count := ref n live fine
      omega
    · intro live out
      have invalid : (s.handle n).valid = false :=
        Bool.eq_false_iff.mpr fun valid => out (listed n live valid)
      have count := h.ref n live
      rw [invalid] at count
      refine ⟨invalid, count.trans (Int.zero_add _), Nat.pos_of_ne_zero fun free => ?_⟩
      obtain ⟨old, alive⟩ := State.mem_undeleted.mp live
      refine alive ((h.deleted n).mpr ⟨old, fun key found => ?_, free⟩)
      obtain ⟨m, -, same, valid, -⟩ := (h.index key _).mp found
      obtain rfl := handle_injective same
      exact Bool.false_ne_true (invalid.symm.trans valid)
    · intro dead
      by_cases old : n < s.made
      · have deleted : n ∈ s.deleted := by
          by_contra alive
          exact dead (State.mem_undeleted.mpr ⟨old, alive⟩)
        exact ((h.deleted n).mp deleted).2.2
      · exact unmade n (Nat.not_lt.mp old)
  · have size := State.card_undeleted h.once made
    have usage := h.usage
    omega
  · intro key e
    rw [h.index key e]
    constructor
    · rintro ⟨n, live, rfl, valid, same⟩
      exact ⟨n, listed n live valid, rfl, same⟩
    · rintro ⟨n, hn, rfl, same⟩
      exact ⟨n, h.undeleted n hn, rfl, valid n hn, same⟩

theorem inv_of_reachable (hs : (machine Value).ReachableBy (fun s a => s.proper a) s) :
    ∃ l u, Inv s l u := by
  refine hs.invariant (fun s => ∃ l u, Inv s l u) ?_ ?_
  · intro s start
    rw [show s = initial s.memory s.capacity from start]
    exact ⟨[], [], Inv.init _ _⟩
  · rintro s a s' ⟨l, u, inv⟩ proper hnext
    obtain ⟨s₁, l', u', run, inv', -⟩ := inv.act proper
    have same : s₁ = s' := by
      simpa only [machine, run, Except.toOption, Option.some.injEq] using hnext
    exact ⟨l', u', same ▸ inv'⟩

/-- After every operation of a run with balanced Releases, in which no handle has more unreleased
Lookups than `ref` can count, the cache is well formed, and every further operation of such a run
succeeds: it never touches a deleted handle and deletes none that has been deleted. -/
theorem representation (hs : (machine Value).ReachableBy (fun s a => s.proper a) s) :
    (∃ l u, WellFormed s l u) ∧ ∀ a, s.proper a = true →
      ∃ s', s.act a = .ok s' ∧ s.deleted <:+ s'.deleted := by
  obtain ⟨l, u, inv⟩ := inv_of_reachable hs
  refine ⟨⟨l, u, inv.wellFormed⟩, fun a proper => ?_⟩
  obtain ⟨s', -, -, run, -, deleted, -⟩ := inv.act proper
  exact ⟨s', run, deleted⟩

/-- Uninitialised memory for runs on fixed inputs. -/
def garbage (_ : Addr) : LRUHandle ℕ :=
  { next := none, prev := none, value := 0, key := 0, ref := 0, valid := true }

/-- Two entries, a third that evicts, an Erase and a replacement of pinned entries and
their Releases. -/
theorem representation_full_cache : ∃ s : State ℕ, s.deleted = [2, 0, 1] ∧ s.usage = 1 ∧
    (∃ l u, WellFormed s l u) ∧
    ∀ a, s.proper a = true → ∃ s', s.act a = .ok s' ∧ s.deleted <:+ s'.deleted := by
  have ran : ((machine ℕ).runBy (fun s a => s.proper a) (initial garbage 2)
      [.insert 1 10, .insert 2 20, .lookup 1, .insert 3 30, .lookup 3, .erase 1, .release 0,
        .insert 3 31, .release 2]).map (fun s => (s.deleted, s.usage)) = some ([2, 0, 1], 1) := by
    decide +kernel
  obtain ⟨s, hrun, result⟩ := Option.map_eq_some_iff.mp ran
  simp only [Prod.mk.injEq] at result
  have start : (machine ℕ).init (initial garbage 2) := rfl
  have hs := Machine.runBy_reachable (.init start) hrun
  exact ⟨s, result.1, result.2, representation hs⟩

/-- An entry is inserted and found 2^31 - 2 times: one more Lookup is one too many. What the Insert
sets up and the Lookups preserve holds up to there. -/
theorem overflow_of_lookups {P : State ℕ → Prop} (start : P (initial garbage 1))
    (keep : ∀ s s' a, P s → s.balanced a = true → s.act a = .ok s' → P s') :
    ∃ s, P s ∧ s.act (.lookup 1) = .error .overflow := by
  have first : (initial garbage 1).balanced (.insert 1 10) = true := rfl
  obtain ⟨s₁, l, u, run, inv, -⟩ := (Inv.init garbage 1).act (a := .insert 1 10) rfl
  have ready : s₁.cacheIndex.index 1 = some (.handle 0) ∧ s₁.pins 0 = 0 := by
    have ran : ((initial garbage 1).act (.insert 1 10)).toOption.map
        (fun s => (s.cacheIndex.index 1, s.pins 0)) = some (some (.handle 0), 0) := by
      decide +kernel
    rw [run] at ran
    exact Prod.mk.inj (Option.some.inj ran)
  obtain ⟨s, l', u', reached, inv', found, pins⟩ := inv.lookups ready.1 (keep _ _ _ start first run)
    (fun s s' before step => keep s s' (.lookup 1) before rfl step) (2 ^ 31 - 2) (by omega)
  refine ⟨s, reached, ?_⟩
  simp only [State.act, inv'.lookup_overflow found (by omega), bind, Except.bind]

theorem overflow_reached : ∃ s : State ℕ, (machine ℕ).ReachableBy (fun s a => s.balanced a) s ∧
    s.act (.lookup 1) = .error .overflow := by
  have start : (machine ℕ).init (initial garbage 1) := rfl
  refine overflow_of_lookups (.init start) fun s s' a before balanced step => ?_
  refine .step before balanced ?_
  simp only [machine, step]
  rfl

/-- Without the bound on the Lookups a run comes to an end. -/
theorem representation_overflow : ¬∀ s : State ℕ,
    (machine ℕ).ReachableBy (fun s a => s.balanced a) s → (∃ l u, WellFormed s l u) ∧
      ∀ a, s.balanced a = true → ∃ s', s.act a = .ok s' ∧ s.deleted <:+ s'.deleted := by
  intro always
  obtain ⟨s, reached, overflow⟩ := overflow_reached
  obtain ⟨s', run, -⟩ := (always s reached).2 (.lookup 1) rfl
  cases overflow.symm.trans run

end Codelab.LRUCache
