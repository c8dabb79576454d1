import Codelab.LRUCacheLinks

/-! What the cache's data mean between operations and in the middle of them, and what
`RemoveFromLRU`, `Ref` and `Unref` make of it. -/

namespace Codelab.LRUCache

variable {Value : Type*}

namespace State

variable {s : State Value} {a : Addr} {n m : ℕ} {change change' : LRUHandle Value → LRUHandle Value}

def handle (s : State Value) (n : ℕ) : LRUHandle Value := s.memory (.handle n)

theorem mem_undeleted : n ∈ s.undeleted ↔ n < s.made ∧ n ∉ s.deleted := by
  rw [undeleted, Finset.mem_filter, Finset.mem_range]

theorem handle_modify_self : (s.modify (.handle n) change).handle n = change (s.handle n) :=
  Function.update_self _ _ _

theorem handle_modify_of_ne (ne : m ≠ n) : (s.modify (.handle n) change).handle m = s.handle m :=
  Function.update_of_ne (fun same => ne (handle_injective same)) _ _

theorem modify_modify :
    (s.modify a change).modify a change' = s.modify a fun h => change' (change h) := by
  simp only [modify, Function.update_self, Function.update_idem]

theorem next_modify (keep : ∀ h, (change h).next = h.next) : (s.modify a change).next = s.next := by
  funext b
  by_cases e : b = a
  · subst e
    simp only [next, modify, Function.update_self, keep]
  · simp only [next, modify, Function.update_of_ne e]

theorem prev_modify (keep : ∀ h, (change h).prev = h.prev) : (s.modify a change).prev = s.prev := by
  funext b
  by_cases e : b = a
  · subst e
    simp only [prev, modify, Function.update_self, keep]
  · simp only [prev, modify, Function.update_of_ne e]

theorem card_undeleted (once : s.deleted.Nodup) (made : ∀ n ∈ s.deleted, n < s.made) :
    s.undeleted.card + s.deleted.length = s.made := by
  have split : s.undeleted = Finset.range s.made \ s.deleted.toFinset := by
    ext n
    rw [mem_undeleted, Finset.mem_sdiff, Finset.mem_range, List.mem_toFinset]
  have inside : s.deleted.toFinset ⊆ Finset.range s.made := by
    intro n hn
    exact Finset.mem_range.mpr (made n (List.mem_toFinset.mp hn))
  have most := Finset.card_le_card inside
  rw [Finset.card_range, List.toFinset_card_of_nodup once] at most
  rw [split, Finset.card_sdiff_of_subset inside, Finset.card_range,
    List.toFinset_card_of_nodup once]
  omega

/-- `e->ref--`. -/
def lower (s : State Value) (n : ℕ) : State Value :=
  s.modify (.handle n) fun h => { h with ref := h.ref - 1 }

/-- The handle's memory given back. -/
def drop (s : State Value) (n : ℕ) : State Value :=
  { s with usage := s.usage - 1, deleted := n :: s.deleted }

theorem mem_undeleted_drop : m ∈ (s.drop n).undeleted ↔ m ≠ n ∧ m ∈ s.undeleted := by
  simp only [mem_undeleted, drop, List.mem_cons, not_or]
  tauto

theorem load_handle (live : n ∈ s.undeleted) :
    s.load (some (.handle n)) = .ok (s.handle n) := load_eq (decide_eq_true live)

theorem store_handle (live : n ∈ s.undeleted) :
    s.store (some (.handle n)) change = .ok (s.modify (.handle n) change) :=
  store_eq (decide_eq_true live)

theorem handle_lower : (s.lower n).handle n = { s.handle n with ref := (s.handle n).ref - 1 } :=
  handle_modify_self

theorem handle_lower_of_ne (e : m ≠ n) : (s.lower n).handle m = s.handle m :=
  handle_modify_of_ne e

theorem next_lower : (s.lower n).next = s.next := by
  unfold lower
  exact next_modify fun _ => rfl

theorem prev_lower : (s.lower n).prev = s.prev := by
  unfold lower
  exact prev_modify fun _ => rfl

theorem unref_eq (live : n ∈ s.undeleted) : s.unref (some (.handle n)) =
    if (s.handle n).ref - 1 = 0 then .ok ((s.lower n).drop n)
    else if (s.handle n).valid ∧ (s.handle n).ref - 1 = 1 then
      (s.lower n).linkRemove (some (.handle n)) >>= fun s =>
        s.linkAppend (some .lru) (some (.handle n))
    else .ok (s.lower n) := by
  have start : s.store (some (.handle n)) (fun h => { h with ref := h.ref - 1 }) =
      .ok (s.lower n) := store_handle live
  have load : (s.lower n).load (some (.handle n)) =
      .ok { s.handle n with ref := (s.handle n).ref - 1 } := by
    rw [← handle_lower]
    exact load_handle live
  have delete : State.delete { s.lower n with usage := (s.lower n).usage - 1 }
      (some (.handle n)) = .ok ((s.lower n).drop n) := if_pos live
  simp only [unref, start, load, delete, bind, Except.bind]
  rfl

/-- The last reference: the handle is deleted. -/
theorem unref_last (live : n ∈ s.undeleted) (last : (s.handle n).ref = 1) :
    s.unref (some (.handle n)) = .ok ((s.lower n).drop n) := by
  rw [unref_eq live, last, if_pos (by decide)]

/-- Only the index refers to the handle any more: it moves to the end of `lru_`. -/
theorem unref_idle (live : n ∈ s.undeleted) (valid : (s.handle n).valid = true)
    (idle : (s.handle n).ref = 2) : s.unref (some (.handle n)) =
      ((s.lower n).linkRemove (some (.handle n)) >>= fun s =>
        s.linkAppend (some .lru) (some (.handle n))) := by
  rw [unref_eq live, idle, if_neg (by decide), if_pos ⟨valid, by decide⟩]

theorem unref_more (live : n ∈ s.undeleted) (more : (s.handle n).ref ≠ 1)
    (other : ¬ ((s.handle n).valid = true ∧ (s.handle n).ref = 2)) :
    s.unref (some (.handle n)) = .ok (s.lower n) := by
  have zero : ¬ (s.handle n).ref - 1 = 0 := by omega
  have idle : ¬ ((s.handle n).valid = true ∧ (s.handle n).ref - 1 = 1) := fun no =>
    other ⟨no.1, by omega⟩
  rw [unref_eq live, if_neg zero, if_neg idle]

end State

section

variable {s s' : State Value} {l u l' u' : List ℕ} {n m : ℕ} {new : Option ℕ} {extra : ℕ}

/-- The fields of one handle and its unreleased Lookups, against the list it is on. -/
structure Kept (s : State Value) (l u : List ℕ) (n : ℕ) : Prop where
  listed : n ∈ l ++ u → (s.handle n).valid = true ∧ (s.handle n).ref = 1 + s.pins n
  idle : n ∈ l → s.pins n = 0
  pinned : n ∈ u → 0 < s.pins n
  loose : n ∈ s.undeleted → n ∉ l ++ u →
    (s.handle n).valid = false ∧ (s.handle n).ref = s.pins n ∧ 0 < s.pins n
  gone : n ∉ s.undeleted → s.pins n = 0

/-- Two states that agree on a handle and its place. -/
structure Agree (s s' : State Value) (l u l' u' : List ℕ) (n : ℕ) : Prop where
  undeleted : n ∈ s'.undeleted ↔ n ∈ s.undeleted
  valid : (s'.handle n).valid = (s.handle n).valid
  ref : (s'.handle n).ref = (s.handle n).ref
  pins : s'.pins n = s.pins n
  lru : n ∈ l' ↔ n ∈ l
  inUse : n ∈ u' ↔ n ∈ u

theorem mem_append_congr (hl : m ∈ l' ↔ m ∈ l) (hu : m ∈ u' ↔ m ∈ u) :
    m ∈ l' ++ u' ↔ m ∈ l ++ u := by
  rw [List.mem_append, List.mem_append, hl, hu]

theorem Kept.congr (h : Kept s l u n) (agree : Agree s s' l u l' u' n) : Kept s' l' u' n := by
  have both : n ∈ l' ++ u' ↔ n ∈ l ++ u := mem_append_congr agree.lru agree.inUse
  constructor
  · rw [both, agree.valid, agree.ref, agree.pins]
    exact h.listed
  · rw [agree.lru, agree.pins]
    exact h.idle
  · rw [agree.inUse, agree.pins]
    exact h.pinned
  · rw [both, agree.undeleted, agree.valid, agree.ref, agree.pins]
    exact h.loose
  · rw [agree.undeleted, agree.pins]
    exact h.gone

/-- The lists, the fields and the counters belong together. In the middle of an Insert
the handle `new` has not got its `valid` and `ref` yet, and `extra` handles have been made
but not counted in `usage_`. -/
structure Rep (s : State Value) (l u : List ℕ) (new : Option ℕ) (extra : ℕ) : Prop where
  linked : Linked s.next s.prev l u
  live : ∀ n ∈ l ++ u, n ∈ s.undeleted
  kept : ∀ n, some n ≠ new → Kept s l u n
  once : s.deleted.Nodup
  made : ∀ n ∈ s.deleted, n < s.made
  usage : s.usage + extra + s.deleted.length = s.made

/-- What no step on a handle changes. -/
structure Keeps (s s' : State Value) : Prop where
  capacity : s'.capacity = s.capacity
  key : ∀ m, (s'.handle m).key = (s.handle m).key
  value : ∀ m, (s'.handle m).value = (s.handle m).value
  deleted : s.deleted <:+ s'.deleted

theorem Keeps.refl (s : State Value) : Keeps s s :=
  ⟨rfl, fun _ => rfl, fun _ => rfl, List.suffix_rfl⟩

theorem Keeps.trans {s'' : State Value} (h : Keeps s s') (h' : Keeps s' s'') : Keeps s s'' where
  capacity := h'.capacity.trans h.capacity
  key := fun m => (h'.key m).trans (h.key m)
  value := fun m => (h'.value m).trans (h.value m)
  deleted := h.deleted.trans h'.deleted

/-- What a step on handle `n` leaves alone. -/
structure Frame (s s' : State Value) (n : ℕ) : Prop extends Keeps s s' where
  made : s'.made = s.made
  usage : s'.usage ≤ s.usage
  cacheIndex : s'.cacheIndex = s.cacheIndex
  undeleted : ∀ m, m ≠ n → (m ∈ s'.undeleted ↔ m ∈ s.undeleted)

theorem Frame.trans {s'' : State Value} (h : Frame s s' n) (h' : Frame s' s'' n) :
    Frame s s'' n where
  toKeeps := h.toKeeps.trans h'.toKeeps
  made := h'.made.trans h.made
  usage := h'.usage.trans h.usage
  cacheIndex := h'.cacheIndex.trans h.cacheIndex
  undeleted := fun m e => (h'.undeleted m e).trans (h.undeleted m e)

theorem Frame.drop (h : Frame s s' n) : Frame s (s'.drop n) n :=
  { h with
    usage := (Nat.sub_le _ _).trans h.usage
    deleted := h.deleted.trans (List.suffix_cons n s'.deleted)
    undeleted := fun m e =>
      State.mem_undeleted_drop.trans ((and_iff_right e).trans (h.undeleted m e)) }

/-- The handle is deleted if no Lookup refers to it. -/
def Freed (s s' : State Value) (n : ℕ) : Prop :=
  (s.pins n = 0 ∧ s'.usage = s.usage - 1 ∧ s'.deleted = n :: s.deleted) ∨
    (s.pins n ≠ 0 ∧ s'.usage = s.usage ∧ s'.deleted = s.deleted)

namespace State

variable {forth back : Addr → Option Addr}

theorem relink_frame : Frame s (s.relink forth back) n :=
  ⟨⟨rfl, fun _ => rfl, fun _ => rfl, List.suffix_rfl⟩, rfl, le_rfl, rfl, fun _ _ => Iff.rfl⟩

theorem modify_frame {change : LRUHandle Value → LRUHandle Value}
    (key : ∀ h, (change h).key = h.key) (value : ∀ h, (change h).value = h.value) :
    Frame s (s.modify (.handle n) change) n := by
  refine ⟨⟨rfl, fun m => ?_, fun m => ?_, List.suffix_rfl⟩, rfl, le_rfl, rfl,
    fun _ _ => Iff.rfl⟩ <;>
  · by_cases e : m = n
    · rw [e, handle_modify_self]
      first | exact key _ | exact value _
    · rw [handle_modify_of_ne e]

theorem lower_frame : Frame s (s.lower n) n := modify_frame (fun _ => rfl) fun _ => rfl

/-- What `RemoveFromLRU` has made of a handle when it comes to the test in `Unref`. -/
def unhook (s : State Value) (forth back : Addr → Option Addr) (n : ℕ) : State Value :=
  ((s.relink forth back).modify (.handle n) ({ · with valid := false })).lower n

theorem handle_unhook : (s.unhook forth back n).handle n =
    { (s.relink forth back).handle n with valid := false, ref := (s.handle n).ref - 1 } := by
  rw [unhook, handle_lower, handle_modify_self]
  rfl

theorem handle_unhook_of_ne (e : m ≠ n) :
    (s.unhook forth back n).handle m = (s.relink forth back).handle m := by
  rw [unhook, lower, handle_modify_of_ne e, handle_modify_of_ne e]

theorem next_unhook : (s.unhook forth back n).next = forth := by
  rw [unhook, next_lower]
  exact next_modify fun _ => rfl

theorem prev_unhook : (s.unhook forth back n).prev = back := by
  rw [unhook, prev_lower]
  exact prev_modify fun _ => rfl

theorem unhook_frame : Frame s (s.unhook forth back n) n := by
  have store : Frame (s.relink forth back)
      ((s.relink forth back).modify (.handle n) ({ · with valid := false })) n :=
    modify_frame (fun _ => rfl) fun _ => rfl
  exact relink_frame.trans (store.trans lower_frame)

/-- The links changed and `e->ref++`. -/
def raise (s : State Value) (forth back : Addr → Option Addr) (n : ℕ) : State Value :=
  (s.relink forth back).modify (.handle n) fun h => { h with ref := h.ref + 1 }

theorem handle_raise : (s.raise forth back n).handle n =
    { (s.relink forth back).handle n with ref := (s.handle n).ref + 1 } := handle_modify_self

theorem handle_raise_of_ne (e : m ≠ n) :
    (s.raise forth back n).handle m = (s.relink forth back).handle m := handle_modify_of_ne e

theorem next_raise : (s.raise forth back n).next = forth := by
  unfold raise
  exact next_modify fun _ => rfl

theorem prev_raise : (s.raise forth back n).prev = back := by
  unfold raise
  exact prev_modify fun _ => rfl

theorem raise_frame : Frame s (s.raise forth back n) n :=
  relink_frame.trans (modify_frame (fun _ => rfl) fun _ => rfl)

theorem ref_more (live : n ∈ s.undeleted) (more : (s.handle n).ref ≠ 1)
    (fits : (s.handle n).ref ≠ intMax) :
    s.ref (some (.handle n)) = .ok (s.raise s.next s.prev n) := by
  have stays : ¬ ((s.handle n).ref = 1 ∧ (s.handle n).valid = true) := fun no => more no.1
  simp only [ref, load_handle live, bind, Except.bind, stays, if_false, pure, Except.pure, fits]
  exact store_handle live

/-- The count is at its largest, so it is not 1 and the handle stays where it is. -/
theorem ref_overflow (live : n ∈ s.undeleted) (full : (s.handle n).ref = intMax) :
    s.ref (some (.handle n)) = .error .overflow := by
  have stays : ¬ ((s.handle n).ref = 1 ∧ (s.handle n).valid = true) := by
    rw [full]
    exact fun no => absurd no.1 (by decide)
  simp only [ref, load_handle live, bind, Except.bind, stays, if_false, pure, Except.pure]
  exact if_pos full

theorem ref_idle {forth' back' : Addr → Option Addr} (live : n ∈ s.undeleted)
    (valid : (s.handle n).valid = true) (one : (s.handle n).ref = 1)
    (removed : s.linkRemove (some (.handle n)) = .ok (s.relink forth back))
    (appended : (s.relink forth back).linkAppend (some .inUse) (some (.handle n)) =
      .ok ((s.relink forth back).relink forth' back')) :
    s.ref (some (.handle n)) = .ok (s.raise forth' back' n) := by
  have load : ((s.relink forth back).relink forth' back').load (some (.handle n)) =
      .ok (((s.relink forth back).relink forth' back').handle n) := load_handle live
  have fits : ¬ (((s.relink forth back).relink forth' back').handle n).ref = intMax := by
    change ¬ (s.handle n).ref = intMax
    rw [one]
    decide
  simp only [ref, load_handle live, bind, Except.bind, one, valid, and_self, if_true, removed,
    appended, load, fits, if_false]
  exact store_handle live

theorem removeFromLRU_eq (live : n ∈ s.undeleted)
    (removed : s.linkRemove (some (.handle n)) = .ok (s.relink forth back)) :
    s.removeFromLRU (some (.handle n)) =
      if (s.handle n).ref = 1 then .ok ((s.unhook forth back n).drop n, true)
      else .ok (s.unhook forth back n, true) := by
  let s₁ := (s.relink forth back).modify (.handle n) ({ · with valid := false })
  have store : (s.relink forth back).store (some (.handle n)) ({ · with valid := false }) =
      .ok s₁ := store_handle live
  have mine : s₁.handle n = { (s.relink forth back).handle n with valid := false } :=
    handle_modify_self
  simp only [removeFromLRU, removed, store, bind, Except.bind]
  split_ifs with last
  · have last₁ : (s₁.handle n).ref = 1 := by rw [mine]; exact last
    rw [unref_last (s := s₁) live last₁]
    rfl
  · have more : (s₁.handle n).ref ≠ 1 := by rw [mine]; exact last
    have other : ¬ ((s₁.handle n).valid = true ∧ (s₁.handle n).ref = 2) := by
      rw [mine]
      rintro ⟨no, -⟩
      cases no
    rw [unref_more (s := s₁) live more other]
    rfl

end State

namespace Rep

variable {forth back : Addr → Option Addr}

theorem card_undeleted (h : Rep s l u new extra) : s.undeleted.card = s.usage + extra := by
  have size := h.usage
  have all := State.card_undeleted h.once h.made
  omega

theorem not_mem_erase (h : Rep s l u new extra) : n ∉ l.erase n ++ u.erase n := by
  rw [List.mem_append, h.linked.nodup_lru.mem_erase_iff, h.linked.nodup_inUse.mem_erase_iff]
  rintro (no | no) <;> exact no.1 rfl

theorem mem_erase (h : Rep s l u new extra) (ne : m ≠ n) :
    (m ∈ l.erase n ↔ m ∈ l) ∧ (m ∈ u.erase n ↔ m ∈ u) := by
  rw [h.linked.nodup_lru.mem_erase_iff, h.linked.nodup_inUse.mem_erase_iff]
  exact ⟨and_iff_right ne, and_iff_right ne⟩

theorem mem_of_mem_erase (hm : m ∈ l.erase n ++ u.erase n) : m ∈ l ++ u := by
  rcases List.mem_append.mp hm with hm | hm
  · exact List.mem_append_left u (List.mem_of_mem_erase hm)
  · exact List.mem_append_right l (List.mem_of_mem_erase hm)

section

variable (h : Rep s l u new extra) (linked : Linked forth back (l.erase n) (u.erase n))
include h

theorem unhook_agree (e : m ≠ n) :
    Agree s (s.unhook forth back n) l u (l.erase n) (u.erase n) m := by
  refine ⟨Iff.rfl, ?_, ?_, rfl, (h.mem_erase e).1, (h.mem_erase e).2⟩ <;>
    rw [State.handle_unhook_of_ne e] <;> rfl

include linked

/-- The handle off its list, with no Lookup left. -/
theorem unhook_drop (hn : n ∈ l ++ u) (free : s.pins n = 0) (used : 0 < s.usage) :
    Rep ((s.unhook forth back n).drop n) (l.erase n) (u.erase n) new extra where
  linked := by
    change Linked (s.unhook forth back n).next (s.unhook forth back n).prev _ _
    rwa [State.next_unhook, State.prev_unhook]
  live := by
    intro m hm
    refine State.mem_undeleted_drop.mpr ⟨?_, h.live m (mem_of_mem_erase hm)⟩
    rintro rfl
    exact h.not_mem_erase hm
  kept := by
    intro m hm
    by_cases e : m = n
    · subst e
      have dead : m ∉ ((s.unhook forth back m).drop m).undeleted := fun no =>
        (State.mem_undeleted_drop.mp no).1 rfl
      exact
      { listed := fun no => absurd no h.not_mem_erase
        idle := fun no => absurd (List.mem_append_left _ no) h.not_mem_erase
        pinned := fun no => absurd (List.mem_append_right _ no) h.not_mem_erase
        loose := fun no => absurd no dead
        gone := fun _ => free }
    · exact (h.kept m hm).congr
        { h.unhook_agree e with
          undeleted := State.mem_undeleted_drop.trans (and_iff_right e) }
  once := List.nodup_cons.mpr ⟨(State.mem_undeleted.mp (h.live n hn)).2, h.once⟩
  made := by
    intro m hm
    rcases List.mem_cons.mp hm with rfl | hm
    · exact (State.mem_undeleted.mp (h.live m hn)).1
    · exact h.made m hm
  usage := by
    have size := h.usage
    change s.usage - 1 + extra + (s.deleted.length + 1) = s.made
    omega

/-- The handle off its list, with Lookups left. -/
theorem unhook_keep (hn : n ∈ l ++ u) (old : some n ≠ new) (held : s.pins n ≠ 0) :
    Rep (s.unhook forth back n) (l.erase n) (u.erase n) new extra where
  linked := by rwa [State.next_unhook, State.prev_unhook]
  live := fun m hm => h.live m (mem_of_mem_erase hm)
  kept := by
    intro m hm
    by_cases e : m = n
    · subst e
      exact
      { listed := fun no => absurd no h.not_mem_erase
        idle := fun no => absurd (List.mem_append_left _ no) h.not_mem_erase
        pinned := fun no => absurd (List.mem_append_right _ no) h.not_mem_erase
        loose := fun _ _ => by
          have ref := ((h.kept m hm).listed hn).2
          rw [State.handle_unhook]
          refine ⟨rfl, ?_, Nat.pos_of_ne_zero held⟩
          change (s.handle m).ref - 1 = s.pins m
          omega
        gone := fun no => absurd (h.live m hn) no }
    · exact (h.kept m hm).congr (h.unhook_agree e)
  once := h.once
  made := h.made
  usage := h.usage

end

/-- A handle leaves its list and the index's reference is given up: it is deleted unless
a Lookup still refers to it. -/
theorem removeFromLRU (h : Rep s l u new extra) (hn : n ∈ l ++ u) (old : some n ≠ new)
    (used : 0 < s.usage) : ∃ s', s.removeFromLRU (some (.handle n)) = .ok (s', true) ∧
      Rep s' (l.erase n) (u.erase n) new extra ∧ Frame s s' n ∧ s'.pins = s.pins ∧
      Freed s s' n := by
  have nLive := h.live n hn
  obtain ⟨forth, back, removed, linked⟩ := Linked.linkRemove h.live h.linked hn
  have ref := ((h.kept n old).listed hn).2
  have run := State.removeFromLRU_eq nLive removed
  by_cases free : s.pins n = 0
  · have last : (s.handle n).ref = 1 := by rw [ref, free]; rfl
    refine ⟨(s.unhook forth back n).drop n, ?_, h.unhook_drop linked hn free used,
      State.unhook_frame.drop, rfl, .inl ⟨free, rfl, rfl⟩⟩
    rw [run, if_pos last]
  · have more : (s.handle n).ref ≠ 1 := by omega
    refine ⟨s.unhook forth back n, ?_, h.unhook_keep linked hn old free, State.unhook_frame, rfl,
      .inr ⟨free, rfl, rfl⟩⟩
    rw [run, if_neg more]

theorem usage_pos (h : Rep s l u new 0) (live : n ∈ s.undeleted) : 0 < s.usage := by
  have some := Finset.card_pos.mpr ⟨n, live⟩
  rw [h.card_undeleted] at some
  exact some

/-- A step that moves one handle and changes its count. -/
theorem touch (h : Rep s l u new extra) (made : s'.made = s.made)
    (deleted : s'.deleted = s.deleted) (usage : s'.usage = s.usage)
    (linked : Linked s'.next s'.prev l' u') (live : ∀ m ∈ l' ++ u', m ∈ s'.undeleted)
    (agree : ∀ m, m ≠ n → Agree s s' l u l' u' m) (mine : Kept s' l' u' n) :
    Rep s' l' u' new extra where
  linked := linked
  live := live
  kept := by
    intro m hm
    by_cases e : m = n
    · exact e ▸ mine
    · exact (h.kept m hm).congr (agree m e)
  once := deleted ▸ h.once
  made := by
    rw [deleted, made]
    exact h.made
  usage := by
    rw [usage, deleted, made]
    exact h.usage

/-- A Lookup takes the handle off `lru_`, if it is there. -/
theorem ref (h : Rep s l u none 0) (hn : n ∈ l ++ u) (room : s.pins n + 2 < 2 ^ 31) : ∃ s' u',
    s.ref (some (.handle n)) = .ok s' ∧ Rep (s'.pin (some (.handle n))) (l.erase n) u' none 0 ∧
      (∀ m, m ∈ l.erase n ++ u' ↔ m ∈ l ++ u) ∧ Frame s s' n ∧ s'.pins = s.pins := by
  have nLive := h.live n hn
  have own := h.kept n (Option.some_ne_none n)
  obtain ⟨valid, ref⟩ := own.listed hn
  have raised : ∃ forth back u', s.ref (some (.handle n)) = .ok (s.raise forth back n) ∧
      Linked forth back (l.erase n) u' ∧ n ∈ u' ∧ ∀ m, m ≠ n → (m ∈ u' ↔ m ∈ u) := by
    by_cases idle : n ∈ l
    · have one : (s.handle n).ref = 1 := by rw [ref, own.idle idle]; rfl
      obtain ⟨forth, back, removed, linked⟩ := Linked.linkRemove h.live h.linked hn
      obtain ⟨forth', back', appended, linked'⟩ :=
        Linked.appendInUse (s := s.relink forth back) (fun m hm => h.live m (mem_of_mem_erase hm))
          linked h.not_mem_erase nLive
      refine ⟨forth', back', u.erase n ++ [n], ?_, linked', by simp, fun m e => ?_⟩
      · exact State.ref_idle nLive valid one removed appended
      · rw [List.mem_append, List.mem_singleton, (h.mem_erase e).2]
        exact or_iff_left e
    · have inUse : n ∈ u := (List.mem_append.mp hn).resolve_left idle
      have more : (s.handle n).ref ≠ 1 := by
        have := own.pinned inUse
        omega
      have fits : (s.handle n).ref ≠ intMax := by
        rw [ref, intMax]
        omega
      refine ⟨s.next, s.prev, u, State.ref_more nLive more fits, ?_, inUse, fun m _ => Iff.rfl⟩
      rw [List.erase_of_not_mem idle]
      exact h.linked
  obtain ⟨forth, back, u', run, linked, mine, others⟩ := raised
  have mem : ∀ m, m ∈ l.erase n ++ u' ↔ m ∈ l ++ u := by
    intro m
    by_cases e : m = n
    · subst e
      exact iff_of_true (List.mem_append_right _ mine) hn
    · exact mem_append_congr (h.mem_erase e).1 (others m e)
  refine ⟨_, u', run, ?_, mem, State.raise_frame, rfl⟩
  refine h.touch (n := n) rfl rfl rfl ?_ (fun m hm => h.live m ((mem m).mp hm)) ?_ ?_
  · change Linked (s.raise forth back n).next (s.raise forth back n).prev _ _
    rwa [State.next_raise, State.prev_raise]
  · intro m e
    have valid : ((s.raise forth back n).handle m).valid = (s.handle m).valid := by
      rw [State.handle_raise_of_ne e]
      rfl
    have ref : ((s.raise forth back n).handle m).ref = (s.handle m).ref := by
      rw [State.handle_raise_of_ne e]
      rfl
    exact
    { undeleted := Iff.rfl
      valid := valid
      ref := ref
      pins := Function.update_of_ne e _ _
      lru := (h.mem_erase e).1
      inUse := others m e }
  · have count : ((s.raise forth back n).pin (some (.handle n))).pins n = s.pins n + 1 :=
      Function.update_self _ _ _
    exact
    { listed := fun _ => by
        refine ⟨(congrArg LRUHandle.valid State.handle_raise).trans valid, ?_⟩
        refine (congrArg LRUHandle.ref State.handle_raise).trans ?_
        change (s.handle n).ref + 1 =
          1 + (((s.raise forth back n).pin (some (.handle n))).pins n : Int)
        rw [count, ref]
        push_cast
        omega
      idle := fun no => absurd (List.mem_append_left _ no) h.not_mem_erase
      pinned := fun _ => by
        rw [count]
        exact Nat.succ_pos _
      loose := fun _ no => absurd (List.mem_append_right _ mine) no
      gone := fun no => absurd nLive no }

/-- The state of a Release that has not given the handle's memory back. -/
theorem unpin (h : Rep s l u none 0) (nLive : n ∈ s.undeleted) (held : 0 < s.pins n)
    (linked : Linked forth back l' u')
    (others : ∀ m, m ≠ n → (m ∈ l' ↔ m ∈ l) ∧ (m ∈ u' ↔ m ∈ u))
    (mine : n ∈ l' ++ u' ↔ n ∈ l ++ u) (idle : n ∈ l' → s.pins n = 1)
    (busy : n ∈ u' ∨ n ∉ l' ++ u' → s.pins n ≠ 1) :
    Rep (((s.lower n).relink forth back).unpin n) l' u' none 0 := by
  have mem : ∀ m, m ∈ l' ++ u' ↔ m ∈ l ++ u := by
    intro m
    by_cases e : m = n
    · exact e ▸ mine
    · exact mem_append_congr (others m e).1 (others m e).2
  have own := h.kept n (Option.some_ne_none n)
  have count : (((s.lower n).relink forth back).unpin n).pins n = s.pins n - 1 :=
    Function.update_self _ _ _
  refine h.touch (n := n) rfl rfl rfl linked (fun m hm => h.live m ((mem m).mp hm)) ?_ ?_
  · intro m e
    have valid : ((s.lower n).handle m).valid = (s.handle m).valid := by
      rw [State.handle_lower_of_ne e]
    have ref : ((s.lower n).handle m).ref = (s.handle m).ref := by
      rw [State.handle_lower_of_ne e]
    exact
    { undeleted := Iff.rfl
      valid := valid
      ref := ref
      pins := Function.update_of_ne e _ _
      lru := (others m e).1
      inUse := (others m e).2 }
  · have ref : ((((s.lower n).relink forth back).unpin n).handle n).ref = (s.handle n).ref - 1 := by
      change ((s.lower n).handle n).ref = _
      rw [State.handle_lower]
    have valid : ((((s.lower n).relink forth back).unpin n).handle n).valid =
        (s.handle n).valid := by
      change ((s.lower n).handle n).valid = _
      rw [State.handle_lower]
    exact
    { listed := fun hn => by
        have old := own.listed (mine.mp hn)
        rw [valid, ref, count]
        refine ⟨old.1, ?_⟩
        omega
      idle := fun hn => by
        rw [count, idle hn]
      pinned := fun hn => by
        have := busy (.inl hn)
        omega
      loose := fun _ no => by
        have old := own.loose nLive fun hn => no (mine.mpr hn)
        have := busy (.inr no)
        rw [valid, ref, count]
        refine ⟨old.1, ?_, ?_⟩ <;> omega
      gone := fun no => absurd nLive no }

/-- The last Lookup of a handle that is on no list is released: the handle is deleted. -/
theorem drop (h : Rep s l u none 0) (nLive : n ∈ s.undeleted) (last : s.pins n = 1)
    (out : n ∉ l ++ u) : Rep (((s.lower n).drop n).unpin n) l u none 0 where
  linked := by
    change Linked (s.lower n).next (s.lower n).prev _ _
    rw [State.next_lower, State.prev_lower]
    exact h.linked
  live := by
    intro m hm
    refine State.mem_undeleted_drop.mpr ⟨?_, h.live m hm⟩
    rintro rfl
    exact out hm
  kept := by
    intro m hm
    by_cases e : m = n
    · subst e
      have dead : m ∉ (((s.lower m).drop m).unpin m).undeleted := fun no =>
        (State.mem_undeleted_drop.mp no).1 rfl
      have count : (((s.lower m).drop m).unpin m).pins m = 0 := by
        refine (Function.update_self _ _ _).trans ?_
        change s.pins m - 1 = 0
        omega
      exact
      { listed := fun no => absurd no out
        idle := fun no => absurd (List.mem_append_left _ no) out
        pinned := fun no => absurd (List.mem_append_right _ no) out
        loose := fun no => absurd no dead
        gone := fun _ => count }
    · have same : (s.lower n).handle m = s.handle m := State.handle_lower_of_ne e
      have valid : ((s.lower n).handle m).valid = (s.handle m).valid := by rw [same]
      have ref : ((s.lower n).handle m).ref = (s.handle m).ref := by rw [same]
      exact (h.kept m hm).congr
        { undeleted := State.mem_undeleted_drop.trans (and_iff_right e)
          valid := valid
          ref := ref
          pins := Function.update_of_ne e _ _
          lru := Iff.rfl
          inUse := Iff.rfl }
  once := List.nodup_cons.mpr ⟨(State.mem_undeleted.mp nLive).2, h.once⟩
  made := by
    intro m hm
    rcases List.mem_cons.mp hm with rfl | hm
    · exact (State.mem_undeleted.mp nLive).1
    · exact h.made m hm
  usage := by
    have size := h.usage
    have used := h.usage_pos nLive
    change s.usage - 1 + 0 + (s.deleted.length + 1) = s.made
    omega

/-- A Release puts the handle back at the end of `lru_`, deletes it, or only counts. -/
theorem unref (h : Rep s l u none 0) (held : 0 < s.pins n) : ∃ s' l' u',
    s.unref (some (.handle n)) = .ok s' ∧ Rep (s'.unpin n) l' u' none 0 ∧
      (∀ m, m ∈ l' ++ u' ↔ m ∈ l ++ u) ∧ Frame s s' n ∧ s'.pins = s.pins ∧
      l' = if n ∈ u ∧ s.pins n = 1 then l ++ [n] else l := by
  have own := h.kept n (Option.some_ne_none n)
  have nLive : n ∈ s.undeleted := by
    by_contra no
    have := own.gone no
    omega
  have busy : n ∉ l := fun idle => by
    have := own.idle idle
    omega
  have lowered : Linked (s.lower n).next (s.lower n).prev l u := by
    rw [State.next_lower, State.prev_lower]
    exact h.linked
  by_cases inUse : n ∈ u
  · have hn := List.mem_append_right l inUse
    obtain ⟨valid, ref⟩ := own.listed hn
    by_cases last : s.pins n = 1
    · obtain ⟨forth, back, removed, linked⟩ :=
        Linked.linkRemove (s := s.lower n) h.live lowered hn
      obtain ⟨forth', back', appended, linked'⟩ :=
        Linked.appendLru (s := (s.lower n).relink forth back)
          (fun m hm => h.live m (mem_of_mem_erase hm)) linked h.not_mem_erase nLive
      rw [List.erase_of_not_mem busy] at linked'
      have idle : (s.handle n).ref = 2 := by rw [ref, last]; rfl
      have gone : n ∉ u.erase n := fun no => h.not_mem_erase (List.mem_append_right _ no)
      have mem : n ∈ (l ++ [n]) ++ u.erase n := by simp
      have others : ∀ m, m ≠ n → (m ∈ l ++ [n] ↔ m ∈ l) ∧ (m ∈ u.erase n ↔ m ∈ u) := by
        intro m e
        rw [List.mem_append, List.mem_singleton]
        exact ⟨or_iff_left e, (h.mem_erase e).2⟩
      refine ⟨(s.lower n).relink forth' back', l ++ [n], u.erase n, ?_, ?_, ?_,
        State.lower_frame.trans State.relink_frame, rfl, (if_pos ⟨inUse, last⟩).symm⟩
      · rw [State.unref_idle nLive valid idle, removed]
        exact appended
      · refine h.unpin nLive held linked' others (iff_of_true mem hn) (fun _ => last) ?_
        rintro (no | no)
        · exact absurd no gone
        · exact absurd mem no
      · intro m
        by_cases e : m = n
        · subst e
          exact iff_of_true mem hn
        · exact mem_append_congr (others m e).1 (others m e).2
    · refine ⟨s.lower n, l, u, ?_, ?_, fun m => Iff.rfl, State.lower_frame, rfl,
        (if_neg fun no => last no.2).symm⟩
      · refine State.unref_more nLive (by omega) ?_
        rintro ⟨-, two⟩
        omega
      · exact h.unpin nLive held lowered (fun m _ => ⟨Iff.rfl, Iff.rfl⟩) Iff.rfl
          (fun no => absurd no busy) fun _ => last
  · have out : n ∉ l ++ u := by
      rw [List.mem_append]
      rintro (no | no)
      · exact busy no
      · exact inUse no
    have same : l = if n ∈ u ∧ s.pins n = 1 then l ++ [n] else l :=
      (if_neg fun no => inUse no.1).symm
    obtain ⟨invalid, ref, -⟩ := own.loose nLive out
    by_cases last : s.pins n = 1
    · have one : (s.handle n).ref = 1 := by rw [ref, last]; rfl
      exact ⟨(s.lower n).drop n, l, u, State.unref_last nLive one, h.drop nLive last out,
        fun m => Iff.rfl, State.lower_frame.drop, rfl, same⟩
    · refine ⟨s.lower n, l, u, ?_, ?_, fun m => Iff.rfl, State.lower_frame, rfl, same⟩
      · refine State.unref_more nLive (by omega) ?_
        rw [invalid]
        rintro ⟨no, -⟩
        cases no
      · exact h.unpin nLive held lowered (fun m _ => ⟨Iff.rfl, Iff.rfl⟩) Iff.rfl
          (fun no => absurd no busy) fun _ => last

end Rep

end

end Codelab.LRUCache
