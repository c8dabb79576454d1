import Codelab.LRUCacheInvariant

/-! The cache against the history of its run: what a Lookup finds is what the history says
was inserted last, and `lru_` holds the unpinned entries in the order of their last use. -/

namespace Codelab.LRUCache

/-- `released n` is the Release that leaves handle `n` unpinned. -/
inductive Event (Value : Type*)
  | inserted (key : Int) (value : Value) (n : ℕ)
  | evicted (key : Int)
  | released (n : ℕ)
  | erased (key : Int)

section

variable {Value : Type*}

/-- The events of an operation that begins in state `s`, the newest first. An Insert evicts
before it inserts, and may have to give up then. -/
def State.events (s : State Value) : Action Value → List (Event Value)
  | .insert key value =>
      (match s.insert key value with
        | .ok (_, true) => [.inserted key value s.made]
        | _ => []) ++ ((s.victims key value).map fun n => .evicted (s.handle n).key).reverse
  | .lookup _ => []
  | .release n => if s.pins n = 1 then [.released n] else []
  | .erase key => [.erased key]

/-- The value of the latest insertion of `key`, unless it was erased or evicted since. -/
def latest (key : Int) : List (Event Value) → Option Value
  | [] => none
  | .inserted k value _ :: es => if k = key then some value else latest key es
  | .evicted k :: es => if k = key then none else latest key es
  | .released _ :: es => latest key es
  | .erased k :: es => if k = key then none else latest key es

def Event.uses (n : ℕ) : Event Value → Bool
  | .inserted _ _ m => m = n
  | .released m => m = n
  | _ => false

/-- When handle `n` was inserted or became unpinned for the last time. -/
def lastUse (n : ℕ) : List (Event Value) → ℕ
  | [] => 0
  | e :: es => if e.uses n then es.length + 1 else lastUse n es

/-- The runs of the cache with their histories. -/
def traced (Value : Type*) : Machine (State Value × List (Event Value)) (Action Value) where
  init p := (machine Value).init p.1 ∧ p.2 = []
  next p a := ((machine Value).next p.1 a).map fun s => (s, p.1.events a ++ p.2)

variable {es evictions : List (Event Value)} {n : ℕ} {key : Int} {value : Value}

theorem lastUse_le : lastUse n es ≤ es.length := by
  induction es with
  | nil => exact Nat.le_refl 0
  | cons e es ih =>
    rw [lastUse, List.length_cons]
    by_cases used : e.uses n
    · rw [if_pos used]
    · rw [if_neg used]
      omega

theorem lastUse_skip {e : Event Value} (other : e.uses n = false) :
    lastUse n (e :: es) = lastUse n es := by
  rw [lastUse, other]
  rfl

theorem lastUse_inserted : lastUse n (.inserted key value n :: es) = es.length + 1 :=
  if_pos (decide_eq_true rfl)

theorem lastUse_released : lastUse n (.released n :: es) = es.length + 1 :=
  if_pos (decide_eq_true rfl)

def Event.isEviction : Event Value → Bool
  | .evicted _ => true
  | _ => false

theorem lastUse_evictions (all : ∀ e ∈ evictions, e.isEviction = true) :
    lastUse n (evictions ++ es) = lastUse n es := by
  induction evictions with
  | nil => rfl
  | cons e evictions ih =>
    have eviction := all e List.mem_cons_self
    cases e with
    | evicted k =>
      rw [List.cons_append, lastUse_skip rfl]
      exact ih fun e he => all e (List.mem_cons_of_mem _ he)
    | inserted | released | erased => cases eviction

theorem latest_not_evicted (all : ∀ e ∈ evictions, e.isEviction = true)
    (other : .evicted key ∉ evictions) : latest key (evictions ++ es) = latest key es := by
  induction evictions with
  | nil => rfl
  | cons e evictions ih =>
    have eviction := all e List.mem_cons_self
    cases e with
    | evicted k =>
      have ne : k ≠ key := fun same => other (same ▸ List.mem_cons_self)
      rw [List.cons_append, latest, if_neg ne]
      exact ih (fun e he => all e (List.mem_cons_of_mem _ he))
        fun no => other (List.mem_cons_of_mem _ no)
    | inserted | released | erased => cases eviction

theorem latest_evicted (all : ∀ e ∈ evictions, e.isEviction = true)
    (mine : .evicted key ∈ evictions) : latest key (evictions ++ es) = none := by
  induction evictions with
  | nil => cases mine
  | cons e evictions ih =>
    have eviction := all e List.mem_cons_self
    cases e with
    | evicted k =>
      rw [List.cons_append, latest]
      by_cases same : k = key
      · rw [if_pos same]
      · rw [if_neg same]
        refine ih (fun e he => all e (List.mem_cons_of_mem _ he)) ?_
        rcases List.mem_cons.mp mine with first | later
        · injection first with first
          exact absurd first.symm same
        · exact later
    | inserted | released | erased => cases eviction

end

variable {Value : Type*} {s s' : State Value} {es : List (Event Value)} {l u : List ℕ} {n m : ℕ}
  {key : Int} {value : Value}

/-- State `s` is where the history `es` leads. -/
structure Follows (s : State Value) (es : List (Event Value)) (l u : List ℕ) : Prop where
  inv : Inv s l u
  current : ∀ n ∈ l ++ u, latest (s.handle n).key es = some (s.handle n).value
  present : ∀ key value, latest key es = some value → ∃ n ∈ l ++ u, (s.handle n).key = key
  recency : l.Pairwise fun n m => lastUse n es < lastUse m es

namespace Follows

/-- The handles that an Insert evicts have been on `lru_` the longest, and there is one at
most. -/
theorem victims (h : Follows s es l u) (key : Int) (value : Value) :
    (∃ l', l = s.victims key value ++ l') ∧ (s.victims key value).length ≤ 1 := by
  obtain ⟨s', l', victims, loop, evicted, -⟩ := h.inv.evicts key value
  rw [State.victims_eq loop evicted.deleted]
  exact ⟨⟨l', evicted.split⟩, evicted.victims_short h.inv.capacity⟩

/-- The history once the handles of `victims` are evicted. -/
theorem evictions (h : Follows s es l u) {victims l' : List ℕ} {evictions : List (Event Value)}
    (split : l = victims ++ l')
    (events : evictions = (victims.map fun n => .evicted (s.handle n).key).reverse) :
    (∀ n ∈ l' ++ u, latest (s.handle n).key (evictions ++ es) = some (s.handle n).value) ∧
    (∀ key value, latest key (evictions ++ es) = some value →
      ∃ n ∈ l' ++ u, (s.handle n).key = key) ∧
    l'.Pairwise fun n m => lastUse n (evictions ++ es) < lastUse m (evictions ++ es) := by
  have all : ∀ e ∈ evictions, e.isEviction = true := by
    intro e he
    rw [events, List.mem_reverse, List.mem_map] at he
    obtain ⟨n, -, rfl⟩ := he
    rfl
  have mine : ∀ key, .evicted key ∈ evictions ↔ ∃ n ∈ victims, (s.handle n).key = key := by
    intro key
    rw [events, List.mem_reverse, List.mem_map]
    simp only [Event.evicted.injEq]
  have stay : ∀ n ∈ l' ++ u, n ∈ l ++ u ∧ n ∉ victims := by
    intro n hn
    refine ⟨by rw [split, List.append_assoc]; exact List.mem_append_right victims hn, fun no => ?_⟩
    have nodup := h.inv.rep.linked.nodup_lru
    rw [split, List.nodup_append] at nodup
    rcases List.mem_append.mp hn with kept | pinned
    · exact nodup.2.2 n no n kept rfl
    · exact h.inv.rep.linked.disjoint (split ▸ List.mem_append_left l' no) pinned
  refine ⟨fun n hn => ?_, fun key value found => ?_, ?_⟩
  · obtain ⟨entry, kept⟩ := stay n hn
    rw [latest_not_evicted all, h.current n entry]
    intro no
    obtain ⟨v, hv, same⟩ := (mine _).mp no
    have listed : v ∈ l ++ u := List.mem_append_left u (split ▸ List.mem_append_left l' hv)
    exact kept (h.inv.indexed.unique entry listed same ▸ hv)
  · by_cases gone : .evicted key ∈ evictions
    · rw [latest_evicted all gone] at found
      cases found
    · rw [latest_not_evicted all gone] at found
      obtain ⟨n, hn, same⟩ := h.present key value found
      refine ⟨n, ?_, same⟩
      rw [split, List.append_assoc] at hn
      exact (List.mem_append.mp hn).resolve_left fun no => gone ((mine key).mpr ⟨n, no, same⟩)
  · simp only [lastUse_evictions all]
    have recency := h.recency
    rw [split, List.pairwise_append] at recency
    exact recency.2.1

theorem insert (h : Follows s es l u) (key : Int) (value : Value) :
    ∃ s' l' u', s.act (.insert key value) = .ok s' ∧
      Follows s' (s.events (.insert key value) ++ es) l' u' := by
  obtain ⟨s', l', victims, done, run, inserted⟩ := h.inv.insert key value
  have outcome : s.act (.insert key value) = .ok s' := by
    simp only [State.act, run, bind, Except.bind]
    rfl
  have old : ∀ m ∈ l' ++ u, m ≠ s.made := by
    rintro m hm rfl
    refine Rep.made_not_mem (h.inv.rep.live s.made ?_)
    rw [inserted.split, List.append_assoc]
    exact List.mem_append_right victims hm
  obtain ⟨current, present, recency⟩ := h.evictions inserted.split rfl
  simp only [State.events, run, inserted.victims]
  cases done with
  | true =>
    obtain ⟨inv, newKey, newValue⟩ := inserted.success rfl
    refine ⟨s', _, _, outcome, inv, ?_, ?_, ?_⟩
    · intro m hm
      rw [List.append_assoc, List.singleton_append, latest]
      by_cases new : m = s.made
      · rw [new, newKey, newValue, if_pos rfl]
      · have listed : m ∈ l' ++ u ∧ (s.handle m).key ≠ key := by
          simp only [List.mem_append, State.mem_without, List.mem_singleton, new, or_false] at hm ⊢
          tauto
        rw [inserted.keys m new, inserted.values m new, if_neg listed.2.symm]
        exact current m listed.1
    · intro k v found
      rw [List.append_assoc, List.singleton_append, latest] at found
      by_cases same : key = k
      · exact ⟨s.made, by simp, newKey.trans same⟩
      · rw [if_neg same] at found
        obtain ⟨m, hm, rfl⟩ := present k v found
        refine ⟨m, ?_, inserted.keys m (old m hm)⟩
        have other : (s.handle m).key ≠ key := fun no => same no.symm
        simp only [List.mem_append, State.mem_without] at hm ⊢
        tauto
    · have skip : ∀ m ∈ s.without key l', (Event.inserted key value s.made).uses m = false := by
        intro m hm
        have ne := old m (List.mem_append_left u (State.mem_without.mp hm).1)
        exact decide_eq_false ne.symm
      refine List.pairwise_append.mpr ⟨?_, List.pairwise_singleton _ _, ?_⟩
      · have kept : (s.without key l').Pairwise fun n m =>
            lastUse n (_ ++ es) < lastUse m (_ ++ es) := recency.sublist List.filter_sublist
        refine kept.imp_of_mem fun {n m} hn hm less => ?_
        rw [List.append_assoc, List.singleton_append, lastUse_skip (skip n hn),
          lastUse_skip (skip m hm)]
        exact less
      · intro m hm n hn
        rw [List.mem_singleton.mp hn, List.append_assoc, List.singleton_append,
          lastUse_skip (skip m hm), lastUse_inserted]
        exact Nat.lt_succ_of_le lastUse_le
  | false =>
    obtain ⟨inv, -⟩ := inserted.failure rfl
    refine ⟨s', _, _, outcome, inv, ?_, ?_, recency⟩
    · intro m hm
      rw [inserted.keys m (old m hm), inserted.values m (old m hm)]
      exact current m hm
    · intro k v found
      obtain ⟨m, hm, same⟩ := present k v found
      exact ⟨m, hm, (inserted.keys m (old m hm)).trans same⟩

/-- A step that neither enters nor removes an entry. -/
theorem same_entries (h : Follows s es l u) {l' u' : List ℕ} {es' : List (Event Value)}
    (inv : Inv s' l' u') (keeps : Keeps s s') (same : ∀ m, m ∈ l' ++ u' ↔ m ∈ l ++ u)
    (history : ∀ key, latest key es' = latest key es)
    (recency : l'.Pairwise fun n m => lastUse n es' < lastUse m es') : Follows s' es' l' u' where
  inv := inv
  current m hm := by
    rw [history, keeps.key, keeps.value]
    exact h.current m ((same m).mp hm)
  present k v found := by
    rw [history] at found
    obtain ⟨m, hm, hkey⟩ := h.present k v found
    exact ⟨m, (same m).mpr hm, (keeps.key m).trans hkey⟩
  recency := recency

theorem lookup (h : Follows s es l u) (key : Int) (room : s.bounded (.lookup key) = true) :
    ∃ s' l' u', s.act (.lookup key) = .ok s' ∧ Follows s' (s.events (.lookup key) ++ es) l' u' := by
  rcases h.inv.lookup key room with ⟨-, run⟩ | ⟨n, s', u', -, -, run, inv, keeps, -, same⟩
  · refine ⟨s, l, u, ?_, h⟩
    simp only [State.act, run, bind, Except.bind]
    rfl
  · refine ⟨s'.pin (some (.handle n)), _, u', ?_, h.same_entries inv ?_ same (fun _ => rfl) ?_⟩
    · simp only [State.act, run, bind, Except.bind]
      rfl
    · exact ⟨keeps.capacity, keeps.key, keeps.value, keeps.deleted⟩
    · exact h.recency.sublist List.erase_sublist

theorem release (h : Follows s es l u) (held : 0 < s.pins n) :
    ∃ s' l' u', s.act (.release n) = .ok s' ∧ Follows s' (s.events (.release n) ++ es) l' u' := by
  obtain ⟨s', l', u', run, inv, keeps, -, same, lists⟩ := h.inv.release held
  have out : n ∉ l := fun idle => by
    have free := (h.inv.rep.kept n (Option.some_ne_none n)).idle idle
    omega
  refine ⟨s'.unpin n, l', u', ?_, h.same_entries inv ?_ same (fun key => ?_) ?_⟩
  · simp only [State.act, run, bind, Except.bind]
    rfl
  · exact ⟨keeps.capacity, keeps.key, keeps.value, keeps.deleted⟩
  · rw [State.events]
    split_ifs <;> rfl
  · rw [State.events]
    by_cases last : s.pins n = 1
    · have skip : ∀ m ∈ l, (Event.released n : Event Value).uses m = false := fun m hm =>
        decide_eq_false fun same => out (same ▸ hm)
      have before : l.Pairwise fun a b =>
          lastUse a (.released n :: es) < lastUse b (.released n :: es) := by
        refine h.recency.imp_of_mem fun {a b} ha hb less => ?_
        rw [lastUse_skip (skip a ha), lastUse_skip (skip b hb)]
        exact less
      rw [if_pos last, lists]
      by_cases entry : n ∈ u
      · rw [if_pos ⟨entry, last⟩]
        refine List.pairwise_append.mpr ⟨before, List.pairwise_singleton _ _, ?_⟩
        intro m hm k hk
        rw [List.mem_singleton.mp hk, List.singleton_append, lastUse_skip (skip m hm),
          lastUse_released]
        exact Nat.lt_succ_of_le lastUse_le
      · rw [if_neg fun both => entry both.1]
        exact before
    · rw [if_neg last, lists, if_neg fun both => last both.2]
      exact h.recency

theorem erase (h : Follows s es l u) (key : Int) :
    ∃ s' l' u', s.act (.erase key) = .ok s' ∧ Follows s' (s.events (.erase key) ++ es) l' u' := by
  obtain ⟨s', run, inv, keeps, -⟩ := h.inv.erase key
  refine ⟨s', _, _, run, inv, ?_, ?_, ?_⟩
  · intro m hm
    have listed : m ∈ l ++ u ∧ (s.handle m).key ≠ key := by
      simp only [List.mem_append, State.mem_without] at hm ⊢
      tauto
    rw [State.events, List.singleton_append, latest, keeps.key, keeps.value,
      if_neg listed.2.symm]
    exact h.current m listed.1
  · intro k v found
    rw [State.events, List.singleton_append, latest] at found
    by_cases same : key = k
    · rw [if_pos same] at found
      cases found
    · rw [if_neg same] at found
      obtain ⟨m, hm, rfl⟩ := h.present k v found
      refine ⟨m, ?_, keeps.key m⟩
      have other : (s.handle m).key ≠ key := fun no => same no.symm
      simp only [List.mem_append, State.mem_without] at hm ⊢
      tauto
  · rw [State.events]
    refine (h.recency.sublist List.filter_sublist).imp fun {n m} less => ?_
    rw [List.singleton_append, lastUse_skip rfl, lastUse_skip rfl]
    exact less

theorem act (h : Follows s es l u) {a : Action Value} (proper : s.proper a = true) :
    ∃ s' l' u', s.act a = .ok s' ∧ Follows s' (s.events a ++ es) l' u' := by
  obtain ⟨balanced, bounded⟩ := (Bool.and_eq_true _ _).mp proper
  cases a with
  | insert key value => exact h.insert key value
  | lookup key => exact h.lookup key bounded
  | release n => exact h.release (of_decide_eq_true balanced)
  | erase key => exact h.erase key

end Follows

theorem follows (h : (traced Value).ReachableBy (fun p a => p.1.proper a) (s, es)) :
    ∃ l u, Follows s es l u := by
  have always : ∀ p : State Value × List (Event Value),
      (traced Value).ReachableBy (fun p a => p.1.proper a) p → ∃ l u, Follows p.1 p.2 l u := by
    intro p hp
    refine hp.invariant (fun p => ∃ l u, Follows p.1 p.2 l u) ?_ ?_
    · rintro ⟨s, es⟩ ⟨start, rfl⟩
      rw [show s = initial s.memory s.capacity from start]
      refine ⟨[], [], Inv.init _ _, by rintro _ ⟨⟩, by rintro _ _ ⟨⟩, List.Pairwise.nil⟩
    · rintro ⟨s, es⟩ a p' ⟨l, u, h⟩ proper next
      obtain ⟨s', l', u', run, after⟩ := h.act proper
      obtain ⟨s₁, made, rfl⟩ := Option.map_eq_some_iff.mp next
      have same : s' = s₁ := by
        simpa only [machine, run, Except.toOption, Option.some.injEq] using made
      exact ⟨l', u', same ▸ after⟩
  exact always (s, es) h

theorem eq_singleton_of_mem (short : l.length ≤ 1) (hn : n ∈ l) : l = [n] := by
  cases l with
  | nil => cases hn
  | cons m l =>
    obtain rfl := List.eq_nil_of_length_eq_zero (Nat.le_zero.mp (Nat.le_of_succ_le_succ short))
    rw [List.mem_singleton.mp hn]

/-- A handle of which a Lookup has not been released. -/
theorem Inv.held (h : Inv s l u) (held : 0 < s.pins n) : n ∈ s.undeleted := by
  by_contra gone
  have free := (h.rep.kept n (Option.some_ne_none n)).gone gone
  omega

theorem Inv.run_held (h : Inv s l u) {as : List (Action Value)}
    (run : (machine Value).runBy (fun s a => s.proper a ∧ 0 < s.pins n) s as = some s')
    (held : 0 < s'.pins n) : n ∈ s'.undeleted ∧ (s'.handle n).key = (s.handle n).key ∧
      (s'.handle n).value = (s.handle n).value := by
  induction as generalizing s l u with
  | nil =>
    have same : s = s' := by simpa only [Machine.runBy, Option.some.injEq] using run
    subst same
    exact ⟨h.held held, rfl, rfl⟩
  | cons a as ih =>
    rw [Machine.runBy] at run
    split_ifs at run with admitted
    obtain ⟨mid, next, rest⟩ := Option.bind_eq_some_iff.mp run
    obtain ⟨proper, pinned⟩ := of_decide_eq_true admitted
    obtain ⟨s₁, l', u', step, after, -, same⟩ := h.act proper
    have equal : s₁ = mid := by
      simpa only [machine, step, Except.toOption, Option.some.injEq] using next
    subst equal
    have old : n ≠ s.made := Nat.ne_of_lt (State.mem_undeleted.mp (h.held pinned)).1
    obtain ⟨alive, key, value⟩ := ih after rest
    exact ⟨alive, key.trans (same n old).1, value.trans (same n old).2⟩

/-- Handle `n` is what the index has for its key. -/
def State.entry (s : State Value) (n : ℕ) : Prop :=
  s.cacheIndex.index (s.handle n).key = some (.handle n)

theorem Inv.entry_iff (h : Inv s l u) : s.entry n ↔ n ∈ l ++ u := by
  rw [State.entry, h.indexed]
  refine ⟨?_, fun hn => ⟨n, hn, rfl, rfl⟩⟩
  rintro ⟨m, hm, same, -⟩
  exact handle_injective same ▸ hm

theorem Inv.idle_iff (h : Inv s l u) (entry : s.entry n) : s.pins n = 0 ↔ n ∈ l := by
  have own := h.rep.kept n (Option.some_ne_none n)
  refine ⟨fun free => ?_, own.idle⟩
  refine (List.mem_append.mp (h.entry_iff.mp entry)).resolve_right fun pinned => ?_
  have := own.pinned pinned
  omega

/-- `e`, seen in state `s`, is null, or a handle that can be read and carries `value`. -/
def State.carries (s : State Value) (key : Int) (e : Option Addr) : Option Value → Prop
  | none => e = none
  | some value => ∃ n, e = some (.handle n) ∧ n ∈ s.undeleted ∧ (s.handle n).key = key ∧
      (s.handle n).value = value

/-- The policy, in the terms of the history `es`. -/
structure Policy (s : State Value) (es : List (Event Value)) : Prop where
  lookup : ∀ key, s.bounded (.lookup key) = true →
    ∃ s' e, s.lookup key = .ok (s', e) ∧ s'.carries key e (latest key es)
  victims : ∀ key value, ∀ n ∈ s.victims key value, s.entry n ∧ s.pins n = 0 ∧
    ∀ m, s.entry m → s.pins m = 0 → m ≠ n → lastUse n es < lastUse m es
  held : ∀ n, 0 < s.pins n → ∀ as s',
    (machine Value).runBy (fun s a => s.proper a ∧ 0 < s.pins n) s as = some s' →
    0 < s'.pins n → n ∈ s'.undeleted ∧ (s'.handle n).key = (s.handle n).key ∧
      (s'.handle n).value = (s.handle n).value

/-- After every run with balanced Releases, in which no handle has more unreleased Lookups than
`ref` can count: a Lookup finds the value of the latest insertion that was neither erased nor
evicted since; an Insert evicts an unpinned entry whose last use is older than that of all others;
and a handle keeps its key and value, and can be read, as long as a Lookup of it has not been
released. -/
theorem lru_policy (h : (traced Value).ReachableBy (fun p a => p.1.proper a) (s, es)) :
    Policy s es := by
  obtain ⟨l, u, h⟩ := follows h
  refine ⟨fun key room => ?_, fun key value n hn => ?_,
    fun n _ as s' run held => h.inv.run_held run held⟩
  · rcases h.inv.lookup key room with ⟨missing, run⟩ |
      ⟨n, s', u', found, hn, run, inv, keeps, -, same⟩
    · refine ⟨s, none, run, ?_⟩
      rcases known : latest key es with _ | value
      · rfl
      · obtain ⟨m, hm, hkey⟩ := h.present key value known
        exact absurd (((h.inv.indexed key _).mpr ⟨m, hm, rfl, hkey⟩).symm.trans missing)
          (Option.some_ne_none _)
    · have hkey : (s.handle n).key = key := by
        obtain ⟨m, same, hm, hkey⟩ := h.inv.indexed.entry found
        exact handle_injective same ▸ hkey
      have current := h.current n hn
      rw [hkey] at current
      refine ⟨s', some (.handle n), run, ?_⟩
      rw [current]
      exact ⟨n, rfl, inv.rep.live n ((same n).mpr hn), (keeps.key n).trans hkey, keeps.value n⟩
  · obtain ⟨⟨l', split⟩, short⟩ := h.victims key value
    have only := eq_singleton_of_mem short hn
    rw [only, List.singleton_append] at split
    have first : n ∈ l := split ▸ List.mem_cons_self
    have entry := h.inv.entry_iff.mpr (List.mem_append_left u first)
    refine ⟨entry, (h.inv.idle_iff entry).mpr first, fun m hm free other => ?_⟩
    have listed := (h.inv.idle_iff hm).mp free
    have recency := h.recency
    rw [split] at listed recency
    exact (List.pairwise_cons.mp recency).1 m ((List.mem_cons.mp listed).resolve_left other)

/-- Key 1 is pinned while key 2 is evicted, and released after key 3 was inserted. -/
theorem lru_policy_pinned : ∃ (s : State ℕ) (es : List (Event ℕ)),
    (latest 1 es = some 10 ∧ latest 2 es = none ∧ s.victims 4 40 = [2] ∧ s.pins 2 = 0) ∧
    Policy s es := by
  have ran : ((traced ℕ).runBy (fun p a => p.1.proper a) (initial garbage 2, [])
      [.insert 1 10, .insert 2 20, .lookup 1, .insert 3 30, .release 0]).map
        (fun p => (latest 1 p.2, latest 2 p.2, p.1.victims 4 40, p.1.pins 2)) =
      some (some 10, none, [2], 0) := by decide +kernel
  obtain ⟨⟨s, es⟩, hrun, result⟩ := Option.map_eq_some_iff.mp ran
  simp only [Prod.mk.injEq] at result
  have start : (traced ℕ).init (initial garbage 2, []) := ⟨rfl, rfl⟩
  exact ⟨s, es, result, lru_policy (Machine.runBy_reachable (.init start) hrun)⟩

/-- Without the bound on the Lookups there is one that returns neither the value nor null. -/
theorem lru_policy_overflow : ¬∀ (s : State ℕ) (es : List (Event ℕ)),
    (traced ℕ).ReachableBy (fun p a => p.1.balanced a) (s, es) →
    ∀ key, ∃ s' e, s.lookup key = .ok (s', e) ∧ s'.carries key e (latest key es) := by
  intro always
  have start : (traced ℕ).init (initial garbage 1, []) := ⟨rfl, rfl⟩
  obtain ⟨s, ⟨es, reached⟩, overflow⟩ := overflow_of_lookups
    (P := fun s => ∃ es, (traced ℕ).ReachableBy (fun p a => p.1.balanced a) (s, es))
    ⟨[], .init start⟩ fun s s' a before balanced step => by
      obtain ⟨es, before⟩ := before
      refine ⟨s.events a ++ es, .step before balanced ?_⟩
      simp only [traced, machine, step]
      rfl
  obtain ⟨s', e, run, -⟩ := always s es reached 1
  simp only [State.act, run, bind, Except.bind] at overflow
  cases overflow

end Codelab.LRUCache
