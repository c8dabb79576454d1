import Codelab.LRUCacheCounts

/-! The index beside the lists, the loop that evicts, and `Insert`. -/

namespace Codelab.LRUCache

variable {Value : Type*} {s s' : State Value} {l u l' u' : List ℕ} {n m a : ℕ} {new : Option ℕ}
  {extra : ℕ} {key : Int} {entries entries' : ℕ → Prop}

namespace LRUCacheIndex

theorem insert_eq (i : LRUCacheIndex) (e : Addr) :
    i.insert key e = ({ index := Function.update i.index key (some e) }, i.index key) := by
  have same : Function.update (if (i.lookup key).isSome then Function.update i.index key none
      else i.index) key (some e) = Function.update i.index key (some e) := by
    split_ifs
    · rw [Function.update_idem]
    · rfl
  exact congrArg (fun index => (LRUCacheIndex.mk index, i.lookup key)) same

end LRUCacheIndex

namespace State

/-- The new handle of an Insert has its data. -/
def prepared (s : State Value) (key : Int) (value : Value) : State Value :=
  (s.new.modify (.handle s.made) ({ · with value := value })).modify (.handle s.made)
    ({ · with key := key })

theorem usage_prepared {value : Value} : (s.prepared key value).usage = s.usage := rfl

/-- The handles that the loop of an Insert deletes, in this order. -/
def victims (s : State Value) (key : Int) (value : Value) : List ℕ :=
  match evict (s.usage + 1) (s.prepared key value) with
  | .ok s' => (s'.deleted.take (s'.deleted.length - s.deleted.length)).reverse
  | .error _ => []

theorem victims_eq {value : Value} {victims : List ℕ}
    (loop : evict (s.usage + 1) (s.prepared key value) = .ok s')
    (deleted : s'.deleted = victims.reverse ++ s.deleted) : s.victims key value = victims := by
  unfold State.victims
  rw [loop]
  change (s'.deleted.take (s'.deleted.length - s.deleted.length)).reverse = victims
  rw [deleted, List.length_append, Nat.add_sub_cancel, List.take_left, List.reverse_reverse]

theorem handle_new_of_ne (ne : m ≠ s.made) : s.new.handle m = s.handle m :=
  Function.update_of_ne (fun same => ne (handle_injective same)) _ _

theorem handle_prepared_of_ne {value : Value} (ne : m ≠ s.made) :
    (s.prepared key value).handle m = s.handle m := by
  rw [prepared, handle_modify_of_ne ne, handle_modify_of_ne ne, handle_new_of_ne ne]

theorem handle_prepared {value : Value} : (s.prepared key value).handle s.made =
    { s.new.handle s.made with value := value, key := key } := by
  rw [prepared, handle_modify_self, handle_modify_self]

theorem settle_keeps :
    Keeps s (s.modify (.handle a) ({ · with valid := true, ref := 1 })) := by
  have frame : Frame s (s.modify (.handle a) ({ · with valid := true, ref := 1 })) a :=
    modify_frame (fun _ => rfl) fun _ => rfl
  exact frame.toKeeps

/-- What the cache gets back when the entry of `key` leaves: one unit if no Lookup of it is
unreleased. -/
def returned (s : State Value) (key : Int) : ℕ :=
  match s.cacheIndex.index key with
  | some (.handle n) => if s.pins n = 0 then 1 else 0
  | _ => 0

theorem returned_none (missing : s.cacheIndex.index key = none) : s.returned key = 0 := by
  rw [returned, missing]

theorem returned_entry (found : s.cacheIndex.index key = some (.handle n)) :
    s.returned key = if s.pins n = 0 then 1 else 0 := by
  rw [returned, found]

/-- The end of `Insert` once the new handle is in the list and in the index. -/
def finish (s : State Value) (e : Option Addr) : Except Fault (State Value × Bool) := do
  let s ← s.store e ({ · with valid := true })
  let s ← s.store e ({ · with ref := 1 })
  pure (s, true)

theorem finish_handle (live : a ∈ s.undeleted) : s.finish (some (.handle a)) =
    .ok (s.modify (.handle a) ({ · with valid := true, ref := 1 }), true) := by
  have again : (s.modify (.handle a) ({ · with valid := true })).store (some (.handle a))
      ({ · with ref := 1 }) = .ok (s.modify (.handle a) ({ · with valid := true, ref := 1 })) := by
    rw [store_handle (s := s.modify _ _) live, modify_modify]
  simp only [finish, store_handle live, again, bind, Except.bind]
  rfl

/-- The handles of a list that are stored under another key. -/
def without (s : State Value) (key : Int) (l : List ℕ) : List ℕ :=
  l.filter fun n => (s.handle n).key ≠ key

theorem mem_without : m ∈ s.without key l ↔ m ∈ l ∧ (s.handle m).key ≠ key := by
  rw [without, List.mem_filter, decide_eq_true_iff]

theorem without_congr (same : ∀ m ∈ l, (s'.handle m).key = (s.handle m).key) :
    s'.without key l = s.without key l :=
  List.filter_congr fun m hm => by rw [same m hm]

theorem without_eq_self (other : ∀ m ∈ l, (s.handle m).key ≠ key) : s.without key l = l :=
  List.filter_eq_self.mpr fun m hm => decide_eq_true (other m hm)

theorem erase_eq_without (nodup : l.Nodup) (same : ∀ m ∈ l, (s.handle m).key = key ↔ m = n) :
    l.erase n = s.without key l := by
  rw [nodup.erase_eq_filter]
  refine List.filter_congr fun m hm => ?_
  rw [Bool.eq_iff_iff, bne_iff_ne, decide_eq_true_iff]
  exact not_congr (same m hm).symm

end State

/-- The index leads from the keys to the handles of `entries`. -/
def Indexed (s : State Value) (entries : ℕ → Prop) : Prop :=
  ∀ k e, s.cacheIndex.index k = some e ↔ ∃ n, entries n ∧ e = .handle n ∧ (s.handle n).key = k

namespace Indexed

theorem congr (h : Indexed s entries) (index : s'.cacheIndex = s.cacheIndex)
    (key : ∀ n, entries n → (s'.handle n).key = (s.handle n).key)
    (same : ∀ n, entries' n ↔ entries n) : Indexed s' entries' := by
  intro k e
  rw [index, h k e]
  constructor
  · rintro ⟨n, hn, rfl, rfl⟩
    exact ⟨n, (same n).mpr hn, rfl, key n hn⟩
  · rintro ⟨n, hn, rfl, rfl⟩
    exact ⟨n, (same n).mp hn, rfl, (key n ((same n).mp hn)).symm⟩

theorem entry (h : Indexed s entries) {e : Addr} (found : s.cacheIndex.index key = some e) :
    ∃ n, e = .handle n ∧ entries n ∧ (s.handle n).key = key := by
  obtain ⟨n, hn, same, hkey⟩ := (h key e).mp found
  exact ⟨n, same, hn, hkey⟩

/-- Entries of one key are the same handle. -/
theorem unique (h : Indexed s entries) (hn : entries n) (hm : entries m)
    (same : (s.handle m).key = (s.handle n).key) : m = n := by
  have left := (h _ _).mpr ⟨m, hm, rfl, same⟩
  have right := (h _ _).mpr ⟨n, hn, rfl, rfl⟩
  exact handle_injective (Option.some.inj (left.symm.trans right))

theorem erase (h : Indexed s entries) (hn : entries n) :
    Indexed { s with cacheIndex := (s.cacheIndex.erase (s.handle n).key).1 }
      fun m => entries m ∧ m ≠ n := by
  intro k e
  change Function.update s.cacheIndex.index (s.handle n).key none k = some e ↔
    ∃ m, (entries m ∧ m ≠ n) ∧ e = .handle m ∧ (s.handle m).key = k
  by_cases hk : k = (s.handle n).key
  · subst hk
    rw [Function.update_self]
    refine iff_of_false (Option.some_ne_none e).symm ?_
    rintro ⟨m, ⟨hm, ne⟩, -, same⟩
    exact ne (h.unique hn hm same)
  · rw [Function.update_of_ne hk, h k e]
    constructor
    · rintro ⟨m, hm, rfl, rfl⟩
      exact ⟨m, ⟨hm, fun same => hk (same ▸ rfl)⟩, rfl, rfl⟩
    · rintro ⟨m, ⟨hm, -⟩, rfl, rfl⟩
      exact ⟨m, hm, rfl, rfl⟩

theorem insert (h : Indexed s entries) (hkey : (s.handle a).key = key) :
    Indexed { s with cacheIndex := (s.cacheIndex.insert key (.handle a)).1 }
      fun m => m = a ∨ entries m ∧ (s.handle m).key ≠ key := by
  intro k e
  rw [LRUCacheIndex.insert_eq]
  change Function.update s.cacheIndex.index key (some (.handle a)) k = some e ↔
    ∃ m, (m = a ∨ entries m ∧ (s.handle m).key ≠ key) ∧ e = .handle m ∧ (s.handle m).key = k
  by_cases hk : k = key
  · subst hk
    rw [Function.update_self]
    constructor
    · rintro ⟨⟩
      exact ⟨a, .inl rfl, rfl, hkey⟩
    · rintro ⟨m, rfl | ⟨-, other⟩, rfl, same⟩
      · rfl
      · exact absurd same other
  · rw [Function.update_of_ne hk, h k e]
    constructor
    · rintro ⟨m, hm, rfl, rfl⟩
      exact ⟨m, .inr ⟨hm, hk⟩, rfl, rfl⟩
    · rintro ⟨m, rfl | ⟨hm, -⟩, rfl, rfl⟩
      · exact absurd hkey hk
      · exact ⟨m, hm, rfl, rfl⟩

end Indexed

namespace Rep

theorem reindex (h : Rep s l u new extra) (index : LRUCacheIndex) :
    Rep { s with cacheIndex := index } l u new extra :=
  { h with
    kept := fun n hn => (h.kept n hn).congr ⟨Iff.rfl, rfl, rfl, rfl, Iff.rfl, Iff.rfl⟩ }

/-- `RemoveFromLRU` of a handle that the index has given up. -/
theorem discard (h : Rep s l u new extra) (indexed : Indexed s fun m => m ∈ l ++ u ∧ m ≠ n)
    (hn : n ∈ l ++ u) (old : some n ≠ new) (used : 0 < s.usage) :
    ∃ s', s.removeFromLRU (some (.handle n)) = .ok (s', true) ∧
      Rep s' (l.erase n) (u.erase n) new extra ∧ Indexed s' (· ∈ l.erase n ++ u.erase n) ∧
      Frame s s' n ∧ s'.pins = s.pins ∧ Freed s s' n := by
  obtain ⟨s', run, rep, frame, pins, freed⟩ := h.removeFromLRU hn old used
  refine ⟨s', run, rep, indexed.congr frame.cacheIndex (fun m _ => frame.key m) ?_, frame, pins,
    freed⟩
  intro m
  by_cases e : m = n
  · subst e
    exact iff_of_false h.not_mem_erase fun no => no.2 rfl
  · rw [mem_append_congr (h.mem_erase e).1 (h.mem_erase e).2, and_iff_left e]

/-- A handle is taken out of the index and off its list. -/
theorem expel (h : Rep s l u new extra) (indexed : Indexed s (· ∈ l ++ u)) (hn : n ∈ l ++ u)
    (old : some n ≠ new) (used : 0 < s.usage) : ∃ s',
      State.removeFromLRU { s with cacheIndex := (s.cacheIndex.erase (s.handle n).key).1 }
        (s.cacheIndex.erase (s.handle n).key).2 = .ok (s', true) ∧
      Rep s' (l.erase n) (u.erase n) new extra ∧ Indexed s' (· ∈ l.erase n ++ u.erase n) ∧
      Keeps s s' ∧ s'.made = s.made ∧ s'.pins = s.pins ∧
      (∀ m, m ≠ n → (m ∈ s'.undeleted ↔ m ∈ s.undeleted)) ∧ Freed s s' n := by
  have found : (s.cacheIndex.erase (s.handle n).key).2 = some (.handle n) :=
    (indexed _ _).mpr ⟨n, hn, rfl, rfl⟩
  obtain ⟨s', run, rep, indexed', frame, pins, freed⟩ :=
    (h.reindex _).discard (indexed.erase hn) hn old used
  have keeps : Keeps s s' := ⟨frame.capacity, frame.key, frame.value, frame.deleted⟩
  rw [found]
  exact ⟨s', run, rep, indexed', keeps, frame.made, pins, frame.undeleted, freed⟩

end Rep

/-- What the loop of `Insert` does while handle `a` is the new one: it takes `victims` off
the front of `lru_`. -/
structure Evicted (s s' : State Value) (l l' u victims : List ℕ) (a : ℕ) : Prop where
  split : l = victims ++ l'
  rep : Rep s' l' u (some a) 1
  indexed : Indexed s' (· ∈ l' ++ u)
  keeps : Keeps s s'
  new : a ∈ s'.undeleted
  made : s'.made = s.made
  pins : s'.pins = s.pins
  deleted : s'.deleted = victims.reverse ++ s.deleted
  usage : s'.usage + victims.length = s.usage
  full : victims ≠ [] → s.capacity ≤ s'.usage + 1
  room : s'.usage < s'.capacity ∨ l' = []

namespace Evicted

variable {victims : List ℕ} (h : Evicted s s' l l' u victims a)
include h

section

variable (bound : s.usage ≤ s.capacity)
include bound

theorem victims_short : victims.length ≤ 1 := by
  have usage := h.usage
  by_cases none : victims = []
  · rw [none]
    exact Nat.zero_le 1
  · have full := h.full none
    omega

/-- The loop makes room except in a full cache that has nothing on `lru_`. -/
theorem room_iff : s'.usage < s'.capacity ↔ ¬(s.usage = s.capacity ∧ l = []) := by
  have usage := h.usage
  have same : s'.capacity = s.capacity := h.keeps.capacity
  constructor
  · rintro room ⟨full, empty⟩
    have none : victims = [] := (List.append_eq_nil_iff.mp (h.split.symm.trans empty)).1
    rw [none, List.length_nil] at usage
    omega
  · intro other
    by_contra full
    have last := h.room.resolve_left full
    have few := h.victims_short bound
    have none : victims = [] := List.eq_nil_of_length_eq_zero (by omega)
    rw [none, List.length_nil] at usage
    refine other ⟨by omega, ?_⟩
    rw [h.split, none, last]
    rfl

end

/-- Unless the entry of `key` is evicted, the loop leaves it alone. -/
theorem returned (indexed : Indexed s (· ∈ l ++ u))
    (others : ∀ n ∈ victims, (s.handle n).key ≠ key) : s'.returned key = s.returned key := by
  have index : s'.cacheIndex.index key = s.cacheIndex.index key := by
    refine Option.ext fun e => ?_
    rw [h.indexed key e, indexed key e]
    constructor
    · rintro ⟨n, hn, rfl, same⟩
      refine ⟨n, ?_, rfl, (h.keeps.key n).symm.trans same⟩
      rw [h.split, List.append_assoc]
      exact List.mem_append_right victims hn
    · rintro ⟨n, hn, rfl, same⟩
      rw [h.split, List.append_assoc] at hn
      have stays := (List.mem_append.mp hn).resolve_left fun no => others n no same
      exact ⟨n, stays, rfl, (h.keeps.key n).trans same⟩
  rw [State.returned, State.returned, index, h.pins]

end Evicted

namespace Rep

/-- The loop comes to an end, with room in the cache or no handle left on `lru_`. -/
theorem evict {rounds : ℕ} (h : Rep s l u (some a) 1) (indexed : Indexed s (· ∈ l ++ u))
    (ha : a ∈ s.undeleted) (out : a ∉ l ++ u) (enough : s.usage < rounds) :
    ∃ s' l' victims, State.evict rounds s = .ok s' ∧ Evicted s s' l l' u victims a := by
  induction rounds generalizing s l with
  | zero => exact absurd enough (Nat.not_lt_zero _)
  | succ rounds ih =>
    have first : (s.memory .lru).next = some ((l.map Addr.handle).headD .lru) :=
      h.linked.lru.next_head
    rw [State.evict]
    by_cases full : s.capacity ≤ s.usage ∧ (s.memory .lru).next ≠ some .lru
    · cases l with
      | nil => exact absurd first full.2
      | cons n l =>
        have hn : n ∈ (n :: l) ++ u := List.mem_append_left u List.mem_cons_self
        have ne : n ≠ a := fun same => out (same ▸ hn)
        have old : some n ≠ some a := fun same => ne (Option.some.inj same)
        have used : 0 < s.usage := by
          have two := Finset.one_lt_card.mpr ⟨n, h.live n hn, a, ha, ne⟩
          rw [h.card_undeleted] at two
          omega
        have free := (h.kept n old).idle List.mem_cons_self
        obtain ⟨s₁, run, rep, indexed₁, keeps, made, pins, undeleted, freed⟩ :=
          h.expel indexed hn old used
        obtain ⟨-, usage, deleted⟩ := freed.resolve_right fun no => no.1 free
        have stay : n ∉ u := h.linked.disjoint List.mem_cons_self
        rw [List.erase_cons_head, List.erase_of_not_mem stay] at rep indexed₁
        have out₁ : a ∉ l ++ u := fun no => out (List.mem_cons_of_mem n no)
        obtain ⟨s', l', victims, loop, rest⟩ :=
          ih rep indexed₁ ((undeleted a ne.symm).mpr ha) out₁ (by omega)
        have load : s.load (s.memory .lru).next = .ok (s.handle n) := by
          rw [first]
          exact State.load_handle (h.live n hn)
        refine ⟨s', l', n :: victims, ?_,
          { rest with
            split := congrArg (n :: ·) rest.split
            keeps := keeps.trans rest.keeps
            made := rest.made.trans made
            pins := rest.pins.trans pins
            deleted := ?_
            usage := ?_
            full := fun _ => ?_ }⟩
        · rw [if_pos full, load]
          change (State.removeFromLRU { s with
            cacheIndex := (s.cacheIndex.erase (s.handle n).key).1 }
              (s.cacheIndex.erase (s.handle n).key).2 >>= _) = _
          rw [run]
          exact loop
        · rw [rest.deleted, deleted, List.reverse_cons, List.append_assoc]
          rfl
        · have size := rest.usage
          rw [List.length_cons]
          omega
        · cases victims with
          | nil =>
            have size := rest.usage
            rw [List.length_nil] at size
            omega
          | cons v victims =>
            have last := rest.full (List.cons_ne_nil v victims)
            rwa [keeps.capacity] at last
    · rw [if_neg full]
      refine ⟨s, l, [], rfl,
        { split := rfl, rep := h, indexed := indexed, keeps := Keeps.refl s, new := ha, made := rfl
          pins := rfl, deleted := rfl, usage := rfl, full := fun no => absurd rfl no, room := ?_ }⟩
      rcases not_and_or.mp full with room | last
      · exact .inl (Nat.not_le.mp room)
      · rw [first] at last
        cases l with
        | nil => exact .inr rfl
        | cons n l => exact absurd (by rintro ⟨⟩) last

theorem made_not_mem : s.made ∉ s.undeleted := fun no =>
  Nat.lt_irrefl _ (State.mem_undeleted.mp no).1

theorem mem_undeleted_new (ne : m ≠ s.made) : m ∈ s.new.undeleted ↔ m ∈ s.undeleted := by
  rw [State.mem_undeleted, State.mem_undeleted]
  change m < s.made + 1 ∧ m ∉ s.deleted ↔ _
  rw [Nat.lt_succ_iff_lt_or_eq, or_iff_left ne]

theorem made_mem_new (h : Rep s l u new extra) : s.made ∈ s.new.undeleted :=
  State.mem_undeleted.mpr ⟨Nat.lt_succ_self _, fun no => Nat.lt_irrefl _ (h.made _ no)⟩

/-- `new LRUHandle` makes a handle that is on no list. -/
theorem fresh (h : Rep s l u none 0) : Rep s.new l u (some s.made) 1 where
  linked := by
    refine h.linked.congr fun e listed => ?_
    have other : e ≠ .handle s.made := fun same => made_not_mem (h.live _ (listed _ same))
    have same : s.new.memory e = s.memory e := Function.update_of_ne other _ _
    exact ⟨congrArg LRUHandle.next same, congrArg LRUHandle.prev same⟩
  live := by
    intro m hm
    have old := h.live m hm
    exact (mem_undeleted_new fun same => made_not_mem (same ▸ old)).mpr old
  kept := by
    intro m hm
    have ne : m ≠ s.made := fun same => hm (same ▸ rfl)
    have same : s.new.handle m = s.handle m := State.handle_new_of_ne ne
    refine (h.kept m (Option.some_ne_none m)).congr
      ⟨mem_undeleted_new ne, ?_, ?_, rfl, Iff.rfl, Iff.rfl⟩ <;>
      rw [same]
  once := h.once
  made := fun m hm => Nat.lt_succ_of_lt (h.made m hm)
  usage := by
    have size := h.usage
    change s.usage + 1 + s.deleted.length = s.made + 1
    omega

/-- A store to a field of the new handle that the lists and the counts do not use. -/
theorem stow {change : LRUHandle Value → LRUHandle Value} (h : Rep s l u (some a) extra)
    (next : ∀ h, (change h).next = h.next) (prev : ∀ h, (change h).prev = h.prev) :
    Rep (s.modify (.handle a) change) l u (some a) extra where
  linked := by
    rw [State.next_modify next, State.prev_modify prev]
    exact h.linked
  live := h.live
  kept := by
    intro m hm
    have ne : m ≠ a := fun same => hm (same ▸ rfl)
    refine (h.kept m hm).congr ⟨Iff.rfl, ?_, ?_, rfl, Iff.rfl, Iff.rfl⟩ <;>
      rw [State.handle_modify_of_ne ne]
  once := h.once
  made := h.made
  usage := h.usage

/-- The new handle is counted and appended to `lru_`. -/
theorem append (h : Rep s l u (some a) 1) (ha : a ∈ s.undeleted) (out : a ∉ l ++ u) :
    ∃ s', State.linkAppend { s with usage := s.usage + 1 } (some .lru) (some (.handle a)) =
        .ok s' ∧ Rep s' (l ++ [a]) u (some a) 0 ∧ Keeps s s' ∧ s'.cacheIndex = s.cacheIndex ∧
      s'.made = s.made ∧ s'.pins = s.pins ∧ s'.usage = s.usage + 1 := by
  obtain ⟨forth, back, appended, linked⟩ :=
    Linked.appendLru (s := { s with usage := s.usage + 1 }) h.live h.linked out ha
  refine ⟨_, appended, ?_, ⟨rfl, fun _ => rfl, fun _ => rfl, List.suffix_rfl⟩, rfl, rfl, rfl, rfl⟩
  have other : ∀ m, m ≠ a → (m ∈ l ++ [a] ↔ m ∈ l) := fun m ne => by
    rw [List.mem_append, List.mem_singleton, or_iff_left ne]
  exact
  { linked := linked
    live := by
      intro m hm
      by_cases e : m = a
      · exact e ▸ ha
      · exact h.live m ((mem_append_congr (other m e) Iff.rfl).mp hm)
    kept := by
      intro m hm
      have ne : m ≠ a := fun same => hm (same ▸ rfl)
      exact (h.kept m hm).congr ⟨Iff.rfl, rfl, rfl, rfl, other m ne, Iff.rfl⟩
    once := h.once
    made := h.made
    usage := by
      have size := h.usage
      change s.usage + 1 + 0 + s.deleted.length = s.made
      omega }

/-- The new handle gets its `valid` and its `ref`. -/
theorem settle (h : Rep s l u (some a) 0) (ha : a ∈ l) (free : s.pins a = 0) :
    Rep (s.modify (.handle a) ({ · with valid := true, ref := 1 })) l u none 0 := by
  have stored : Rep (s.modify (.handle a) ({ · with valid := true, ref := 1 })) l u (some a) 0 :=
    h.stow (fun _ => rfl) fun _ => rfl
  refine { stored with kept := fun m _ => ?_ }
  by_cases e : m = a
  · subst e
    exact
    { listed := fun _ => by
        rw [State.handle_modify_self]
        refine ⟨rfl, ?_⟩
        change 1 = 1 + (s.pins m : Int)
        rw [free]
        rfl
      idle := fun _ => free
      pinned := fun no => absurd no (h.linked.disjoint ha)
      loose := fun _ no => absurd (List.mem_append_left u ha) no
      gone := fun no => absurd (h.live m (List.mem_append_left u ha)) no }
  · exact stored.kept m fun same => e (Option.some.inj same)

/-- A new handle that finds no room is deleted again. -/
theorem abandon (h : Rep s l u (some a) 1) (ha : a ∈ s.undeleted) (out : a ∉ l ++ u)
    (free : s.pins a = 0) : Rep { s with deleted := a :: s.deleted } l u none 0 where
  linked := h.linked
  live := by
    intro m hm
    refine State.mem_undeleted_drop.mpr ⟨?_, h.live m hm⟩
    rintro rfl
    exact out hm
  kept := by
    intro m _
    by_cases e : m = a
    · subst e
      exact
      { listed := fun no => absurd no out
        idle := fun no => absurd (List.mem_append_left u no) out
        pinned := fun no => absurd (List.mem_append_right l no) out
        loose := fun no => absurd rfl (State.mem_undeleted_drop.mp no).1
        gone := fun _ => free }
    · exact (h.kept m fun same => e (Option.some.inj same)).congr
        ⟨State.mem_undeleted_drop.trans (and_iff_right e), rfl, rfl, rfl, Iff.rfl, Iff.rfl⟩
  once := List.nodup_cons.mpr ⟨(State.mem_undeleted.mp ha).2, h.once⟩
  made := by
    intro m hm
    rcases List.mem_cons.mp hm with rfl | hm
    · exact (State.mem_undeleted.mp ha).1
    · exact h.made m hm
  usage := by
    have size := h.usage
    change s.usage + 0 + (s.deleted.length + 1) = s.made
    omega

/-- The new handle's entry, and the handle that had the key before leaves. -/
theorem replace (h : Rep s (l ++ [a]) u (some a) 0) (out : a ∉ l ++ u)
    (indexed : Indexed s (· ∈ l ++ u)) (hkey : (s.handle a).key = key) : ∃ s' b,
      State.removeFromLRU { s with cacheIndex := (s.cacheIndex.insert key (.handle a)).1 }
        (s.cacheIndex.insert key (.handle a)).2 = .ok (s', b) ∧
      Rep s' (s.without key l ++ [a]) (s.without key u) (some a) 0 ∧
      Indexed s' (· ∈ (s.without key l ++ [a]) ++ s.without key u) ∧ Keeps s s' ∧
      s'.made = s.made ∧ s'.pins = s.pins ∧ s'.usage + s.returned key = s.usage := by
  have left : l.Nodup := (List.nodup_append.mp h.linked.nodup_lru).1
  have entries : ∀ m, m ∈ (s.without key l ++ [a]) ++ s.without key u ↔
      m = a ∨ m ∈ l ++ u ∧ (s.handle m).key ≠ key := by
    intro m
    simp only [List.mem_append, State.mem_without, List.mem_singleton]
    tauto
  have old : (s.cacheIndex.insert key (.handle a)).2 = s.cacheIndex.index key := by
    rw [LRUCacheIndex.insert_eq]
  rw [old]
  cases found : s.cacheIndex.index key with
  | none =>
    have other : ∀ m ∈ l ++ u, (s.handle m).key ≠ key := fun m hm same =>
      Option.some_ne_none _ (((indexed key _).mpr ⟨m, hm, rfl, same⟩).symm.trans found)
    have sameL := State.without_eq_self fun m hm => other m (List.mem_append_left u hm)
    have sameU := State.without_eq_self fun m hm => other m (List.mem_append_right l hm)
    refine ⟨_, false, rfl, ?_, (indexed.insert hkey).congr rfl (fun _ _ => rfl) entries,
      ⟨rfl, fun _ => rfl, fun _ => rfl, List.suffix_rfl⟩, rfl, rfl, ?_⟩
    · rw [sameL, sameU]
      exact h.reindex _
    · rw [State.returned_none found]
      rfl
  | some e =>
    obtain ⟨n, rfl, hn, nKey⟩ := indexed.entry found
    have ne : n ≠ a := fun same => out (same ▸ hn)
    have same : ∀ m ∈ l ++ u, (s.handle m).key = key ↔ m = n := fun m hm =>
      ⟨fun e => indexed.unique hn hm (e.trans nKey.symm), fun e => e ▸ nKey⟩
    have sameL := State.erase_eq_without left fun m hm => same m (List.mem_append_left u hm)
    have sameU := State.erase_eq_without h.linked.nodup_inUse fun m hm =>
      same m (List.mem_append_right l hm)
    have lists : (l ++ [a]).erase n = s.without key l ++ [a] := by
      have last : [a].erase n = [a] := List.erase_of_not_mem (by simpa using ne)
      rw [List.erase_append, last]
      split_ifs with mem
      · rw [sameL]
      · rw [← sameL, List.erase_of_not_mem mem]
    have listed : n ∈ (l ++ [a]) ++ u := by
      rcases List.mem_append.mp hn with hn | hn
      · simp [hn]
      · simp [hn]
    have rest : ∀ m, (m ∈ (l ++ [a]) ++ u ∧ m ≠ n) ↔
        m = a ∨ m ∈ l ++ u ∧ (s.handle m).key ≠ key := by
      intro m
      by_cases e : m = a
      · subst e
        exact iff_of_true ⟨by simp, ne.symm⟩ (.inl rfl)
      · have mem : m ∈ (l ++ [a]) ++ u ↔ m ∈ l ++ u := by simp [e]
        rw [or_iff_right e, mem]
        exact and_congr_right fun hm => not_congr (same m hm).symm
    have remaining := (indexed.insert hkey).congr rfl (fun _ _ => rfl) rest
    have different : some n ≠ some a := fun same => ne (Option.some.inj same)
    have used := h.usage_pos (h.live n listed)
    obtain ⟨s', run, rep, indexed', frame, pins, freed⟩ :=
      (h.reindex _).discard remaining listed different used
    rw [lists, sameU] at rep indexed'
    refine ⟨s', true, run, rep, indexed',
      ⟨frame.capacity, frame.key, frame.value, frame.deleted⟩, frame.made, pins, ?_⟩
    rw [State.returned_entry found]
    rcases freed with ⟨free, usage, -⟩ | ⟨held, usage, -⟩
    · rw [if_pos free, usage]
      exact Nat.sub_add_cancel used
    · rw [if_neg held, usage]
      rfl

end Rep

/-- What holds between the operations. -/
structure Inv (s : State Value) (l u : List ℕ) : Prop where
  rep : Rep s l u none 0
  indexed : Indexed s (· ∈ l ++ u)
  capacity : s.usage ≤ s.capacity

namespace Inv

/-- The first half of a run of `Insert`: the new handle is made and has its data. -/
theorem prepared (h : Inv s l u) (key : Int) (value : Value) :
    Rep (s.prepared key value) l u (some s.made) 1 ∧
      Indexed (s.prepared key value) (· ∈ l ++ u) ∧
      s.made ∈ (s.prepared key value).undeleted ∧ s.made ∉ l ++ u ∧
      s.pins s.made = 0 := by
  have out : s.made ∉ l ++ u := fun no => Rep.made_not_mem (h.rep.live _ no)
  have stored : Rep (s.new.modify (.handle s.made) ({ · with value := value })) l u
      (some s.made) 1 := h.rep.fresh.stow (fun _ => rfl) fun _ => rfl
  refine ⟨stored.stow (fun _ => rfl) fun _ => rfl, ?_, h.rep.made_mem_new, out,
    (h.rep.kept s.made (Option.some_ne_none _)).gone Rep.made_not_mem⟩
  refine h.indexed.congr rfl (fun m hm => ?_) fun _ => Iff.rfl
  rw [State.handle_prepared_of_ne fun same => out (same ▸ hm)]

end Inv

/-- What a run of `Insert` makes of the lists `l` and `u`: it evicts `victims`, and if it
finds room, the new handle is the last one on `lru_` and the handle that had the key
before has left. -/
structure Inserted (s s' : State Value) (l l' u victims : List ℕ) (key : Int) (value : Value)
    (done : Bool) : Prop where
  split : l = victims ++ l'
  victims : s.victims key value = victims
  pins : s'.pins = s.pins
  capacity : s'.capacity = s.capacity
  deleted : s.deleted <:+ s'.deleted
  keys : ∀ m, m ≠ s.made → (s'.handle m).key = (s.handle m).key
  values : ∀ m, m ≠ s.made → (s'.handle m).value = (s.handle m).value
  success : done = true →
    Inv s' (s.without key l' ++ [s.made]) (s.without key u) ∧
      (s'.handle s.made).key = key ∧ (s'.handle s.made).value = value
  failure : done = false → Inv s' l' u ∧ l' = []

namespace Inv

/-- The loop of an `Insert`. -/
theorem evicts (h : Inv s l u) (key : Int) (value : Value) : ∃ s' l' victims,
    State.evict (s.usage + 1) (s.prepared key value) = .ok s' ∧
      Evicted (s.prepared key value) s' l l' u victims s.made ∧ s.made ∉ l' ++ u ∧
      s'.pins s.made = 0 := by
  obtain ⟨rep, indexed, made, out, free⟩ := h.prepared key value
  obtain ⟨s', l', victims, loop, evicted⟩ := rep.evict indexed made out (Nat.lt_succ_self _)
  refine ⟨s', l', victims, loop, evicted, fun no => out ?_, by rw [evicted.pins]; exact free⟩
  rw [evicted.split, List.append_assoc]
  exact List.mem_append_right victims no

section

variable {value : Value} {victims : List ℕ} (h : Inv s l u)
  (loop : State.evict (s.usage + 1) (s.prepared key value) = .ok s')
  (evicted : Evicted (s.prepared key value) s' l l' u victims s.made)
include h loop evicted

/-- After the loop there is room for the new handle: everything up to the last two stores. -/
theorem admits (out : s.made ∉ l' ++ u) (room : s'.usage < s'.capacity) : ∃ s₅,
    (∀ after, s.insertVia after key value = s₅.finish (after (.handle s.made))) ∧
      Rep s₅ (s.without key l' ++ [s.made]) (s.without key u) (some s.made) 0 ∧
      Indexed s₅ (· ∈ (s.without key l' ++ [s.made]) ++ s.without key u) ∧ Keeps s' s₅ ∧
      s₅.pins = s'.pins ∧ s₅.usage + s'.returned key = s'.usage + 1 := by
  have store₁ : s.new.store (some (.handle s.made)) ({ · with value := value }) = .ok _ :=
    State.store_handle h.rep.made_mem_new
  have store₂ : (s.new.modify (.handle s.made) ({ · with value := value })).store
      (some (.handle s.made)) ({ · with key := key }) = .ok (s.prepared key value) :=
    State.store_handle h.rep.made_mem_new
  obtain ⟨s₄, appended, rep₄, keeps₄, index₄, -, pins₄, usage₄⟩ :=
    evicted.rep.append evicted.new out
  have indexed₄ : Indexed s₄ (· ∈ l' ++ u) :=
    evicted.indexed.congr index₄ (fun m _ => keeps₄.key m) fun _ => Iff.rfl
  have key₄ : (s₄.handle s.made).key = key :=
    (keeps₄.key _).trans ((evicted.keeps.key _).trans (by rw [State.handle_prepared]))
  have without : ∀ l₀ : List ℕ, s.made ∉ l₀ → s₄.without key l₀ = s.without key l₀ :=
    fun l₀ out => State.without_congr fun m hm =>
      (keeps₄.key m).trans ((evicted.keeps.key m).trans
        (by rw [State.handle_prepared_of_ne fun same => out (same ▸ hm)]))
  obtain ⟨s₅, b, replaced, rep₅, indexed₅, keeps₅, -, pins₅, usage₅⟩ :=
    rep₄.replace out indexed₄ key₄
  rw [without l' fun no => out (List.mem_append_left u no),
    without u fun no => out (List.mem_append_right l' no)] at rep₅ indexed₅
  have back : s₄.returned key = s'.returned key := by
    rw [State.returned, State.returned, index₄, pins₄]
  rw [back, usage₄] at usage₅
  refine ⟨s₅, fun after => ?_, rep₅, indexed₅, keeps₄.trans keeps₅, pins₅.trans pins₄, usage₅⟩
  simp only [State.insertVia, bind, Except.bind, store₁, store₂, State.usage_prepared, loop, room,
    if_true, appended, replaced]
  rfl

/-- After the loop there is no room for the new handle. -/
theorem refuses (full : ¬s'.usage < s'.capacity) (after : Addr → Option Addr) :
    s.insertVia after key value = .ok ({ s' with deleted := s.made :: s'.deleted }, false) := by
  have store₁ : s.new.store (some (.handle s.made)) ({ · with value := value }) = .ok _ :=
    State.store_handle h.rep.made_mem_new
  have store₂ : (s.new.modify (.handle s.made) ({ · with value := value })).store
      (some (.handle s.made)) ({ · with key := key }) = .ok (s.prepared key value) :=
    State.store_handle h.rep.made_mem_new
  have deleted : s'.delete (some (.handle s.made)) =
      .ok { s' with deleted := s.made :: s'.deleted } := if_pos evicted.new
  simp only [State.insertVia, bind, Except.bind, store₁, store₂, State.usage_prepared, loop, full,
    if_false, deleted]
  rfl

end

/-- `Insert` from a state that is in order. -/
theorem insert (h : Inv s l u) (key : Int) (value : Value) : ∃ s' l' victims done,
    s.insert key value = .ok (s', done) ∧ Inserted s s' l l' u victims key value done := by
  obtain ⟨s₃, l', victims, loop, evicted, out, free⟩ := h.evicts key value
  have keys : ∀ m, m ≠ s.made → (s₃.handle m).key = (s.handle m).key := fun m ne =>
    (evicted.keeps.key m).trans (by rw [State.handle_prepared_of_ne ne])
  have values : ∀ m, m ≠ s.made → (s₃.handle m).value = (s.handle m).value := fun m ne =>
    (evicted.keeps.value m).trans (by rw [State.handle_prepared_of_ne ne])
  by_cases room : s₃.usage < s₃.capacity
  · obtain ⟨s₅, run, rep, indexed, keeps₅, pins, usage⟩ := h.admits loop evicted out room
    have made := rep.live s.made (by simp)
    have keeps := keeps₅.trans (State.settle_keeps (s := s₅) (a := s.made))
    have free₅ : s₅.pins s.made = 0 := by rw [pins]; exact free
    refine ⟨s₅.modify (.handle s.made) ({ · with valid := true, ref := 1 }), l', victims, true,
      (run some).trans (State.finish_handle made),
      { split := evicted.split
        victims := State.victims_eq loop evicted.deleted
        pins := pins.trans evicted.pins
        capacity := keeps.capacity.trans evicted.keeps.capacity
        deleted := evicted.keeps.deleted.trans keeps.deleted
        keys := fun m ne => (keeps.key m).trans (keys m ne)
        values := fun m ne => (keeps.value m).trans (values m ne)
        success := fun _ => ⟨⟨rep.settle (by simp) free₅, ?_, ?_⟩, ?_, ?_⟩
        failure := fun no => absurd no.symm Bool.false_ne_true }⟩
    · exact indexed.congr rfl (fun m _ => State.settle_keeps.key m) fun _ => Iff.rfl
    · change s₅.usage ≤ s₅.capacity
      rw [keeps₅.capacity]
      omega
    · exact (keeps.key _).trans ((evicted.keeps.key _).trans (by rw [State.handle_prepared]))
    · exact (keeps.value _).trans ((evicted.keeps.value _).trans (by rw [State.handle_prepared]))
  · refine ⟨{ s₃ with deleted := s.made :: s₃.deleted }, l', victims, false,
      h.refuses loop evicted room some,
      { split := evicted.split
        victims := State.victims_eq loop evicted.deleted
        pins := evicted.pins
        capacity := evicted.keeps.capacity
        deleted := evicted.keeps.deleted.trans (List.suffix_cons _ _)
        keys := keys
        values := values
        success := fun no => absurd no Bool.false_ne_true
        failure := fun _ => ⟨⟨evicted.rep.abandon evicted.new out free, evicted.indexed, ?_⟩,
          evicted.room.resolve_left room⟩ }⟩
    have bound := h.capacity
    have same : s₃.capacity = s.capacity := evicted.keeps.capacity
    have fewer : s₃.usage + victims.length = s.usage := evicted.usage
    change s₃.usage ≤ s₃.capacity
    omega

end Inv

end Codelab.LRUCache
