import Codelab.LRUCache

/-! The links of the two lists. `Link_Remove` and `Link_Append` change the `next` and
`prev` maps of the memory and nothing else, and turn one ring into another. -/

namespace Codelab.LRUCache

variable {Value : Type*}

namespace State

variable (s : State Value)

def next (a : Addr) : Option Addr := (s.memory a).next

def prev (a : Addr) : Option Addr := (s.memory a).prev

/-- The same state with other links. -/
def relink (next prev : Addr → Option Addr) : State Value :=
  { s with memory := fun a => { s.memory a with next := next a, prev := prev a } }

variable {s} {a e p n : Addr} {change : LRUHandle Value → LRUHandle Value}
  {q : Option Addr} {forth back : Addr → Option Addr}

theorem load_eq (live : s.alive a = true) : s.load (some a) = .ok (s.memory a) := if_pos live

theorem store_eq (live : s.alive a = true) :
    s.store (some a) change = .ok (s.modify a change) := if_pos live

theorem modify_next :
    s.modify a ({ · with next := q }) = s.relink (Function.update s.next a q) s.prev := by
  have same : Function.update s.memory a { s.memory a with next := q } = fun b =>
      { s.memory b with next := Function.update s.next a q b, prev := s.prev b } := by
    funext b
    by_cases e : b = a
    · subst e
      simp only [Function.update_self]
      rfl
    · simp only [Function.update_of_ne e]
      rfl
  rw [modify, same]
  rfl

theorem modify_prev :
    s.modify a ({ · with prev := q }) = s.relink s.next (Function.update s.prev a q) := by
  have same : Function.update s.memory a { s.memory a with prev := q } = fun b =>
      { s.memory b with next := s.next b, prev := Function.update s.prev a q b } := by
    funext b
    by_cases e : b = a
    · subst e
      simp only [Function.update_self]
      rfl
    · simp only [Function.update_of_ne e]
      rfl
  rw [modify, same]
  rfl

theorem load_relink (live : s.alive a = true) :
    (s.relink forth back).load (some a) =
      .ok { s.memory a with next := forth a, prev := back a } := load_eq live

theorem store_next (live : s.alive a = true) :
    (s.relink forth back).store (some a) ({ · with next := q }) =
      .ok (s.relink (Function.update forth a q) back) := by
  refine (store_eq (s := s.relink forth back) live).trans ?_
  rw [modify_next]
  rfl

theorem store_prev (live : s.alive a = true) :
    (s.relink forth back).store (some a) ({ · with prev := q }) =
      .ok (s.relink forth (Function.update back a q)) := by
  refine (store_eq (s := s.relink forth back) live).trans ?_
  rw [modify_prev]
  rfl

theorem linkRemove_eq (live : s.alive e = true) (hnext : s.next e = some n)
    (hprev : s.prev e = some p) (nLive : s.alive n = true) (pLive : s.alive p = true)
    (ne : n ≠ e) : s.linkRemove (some e) =
      .ok (s.relink (Function.update s.next p (some n)) (Function.update s.prev n (some p))) := by
  have start : s.load (some e) = .ok { s.memory e with next := some n, prev := some p } := by
    rw [← hnext, ← hprev]
    exact load_eq live
  have splice : s.store (some n) ({ · with prev := some p }) =
      .ok (s.relink s.next (Function.update s.prev n (some p))) := by
    rw [store_eq nLive, modify_prev]
  simp only [linkRemove, start, bind, Except.bind, splice]
  simp only [load_relink live, hnext, Function.update_of_ne ne.symm, hprev, store_next pLive]

theorem linkAppend_eq (live : s.alive e = true) (listLive : s.alive a = true)
    (hprev : s.prev a = some p) (pLive : s.alive p = true) (last : p ≠ e) :
    s.linkAppend (some a) (some e) =
      .ok (s.relink (Function.update (Function.update s.next e (some a)) p (some e))
        (Function.update (Function.update s.prev e (some p)) a (some e))) := by
  have start : s.store (some e) ({ · with next := some a }) =
      .ok (s.relink (Function.update s.next e (some a)) s.prev) := by
    rw [store_eq live, modify_next]
  simp only [linkAppend, bind, Except.bind, start]
  simp only [load_relink listLive, load_relink live, hprev, store_prev live, store_next pLive,
    store_prev listLive, Function.update_self, Function.update_of_ne last.symm]

end State

section

variable {s : State Value} {a c e : Addr} {cs : List Addr} {forth back : Addr → Option Addr}
  {l u : List ℕ} {n : ℕ}

/-- `Link_Remove` takes a node out of its ring and leaves all other nodes alone. -/
theorem State.linkRemove_circle (ring : Ring.Circle s.next s.prev c cs) (he : e ∈ cs)
    (live : ∀ a ∈ c :: cs, s.alive a = true) : ∃ forth back,
      s.linkRemove (some e) = .ok (s.relink forth back) ∧
      Ring.Circle forth back c (cs.erase e) ∧
      ∀ a ∉ c :: cs, forth a = s.next a ∧ back a = s.prev a := by
  obtain ⟨p, n, hprev, hnext, hp, hn, -, ne, removed⟩ := ring.remove he
  have eLive := live e (List.mem_cons_of_mem c he)
  refine ⟨_, _, linkRemove_eq eLive hnext hprev (live n hn) (live p hp) ne, removed, ?_⟩
  intro a ha
  refine ⟨Function.update_of_ne ?_ _ _, Function.update_of_ne ?_ _ _⟩
  · rintro rfl
    exact ha hp
  · rintro rfl
    exact ha hn

/-- `Link_Append` makes a new node the last one of a ring. -/
theorem State.linkAppend_circle (ring : Ring.Circle s.next s.prev c cs) (fresh : e ∉ c :: cs)
    (live : ∀ a ∈ c :: cs, s.alive a = true) (eLive : s.alive e = true) : ∃ forth back,
      s.linkAppend (some c) (some e) = .ok (s.relink forth back) ∧
      Ring.Circle forth back c (cs ++ [e]) ∧
      ∀ a ∉ c :: cs, a ≠ e → forth a = s.next a ∧ back a = s.prev a := by
  obtain ⟨p, hprev, hp, appended⟩ := ring.append fresh
  have last : p ≠ e := fun same => fresh (same ▸ hp)
  have head := live c List.mem_cons_self
  refine ⟨_, _, linkAppend_eq eLive head hprev (live p hp) last, appended, ?_⟩
  intro a ha ne
  have ap : a ≠ p := fun same => ha (same ▸ hp)
  have ac : a ≠ c := fun same => ha (same ▸ List.mem_cons_self)
  rw [Function.update_of_ne ap, Function.update_of_ne ne, Function.update_of_ne ac,
    Function.update_of_ne ne]
  exact ⟨rfl, rfl⟩

theorem handle_injective : Function.Injective Addr.handle := by
  intro n m h
  injection h

theorem mem_map_handle : Addr.handle n ∈ l.map Addr.handle ↔ n ∈ l :=
  List.mem_map_of_injective handle_injective

theorem alive_circle (head : s.alive c = true) (live : ∀ n ∈ l, n ∈ s.undeleted) :
    ∀ a ∈ c :: l.map .handle, s.alive a = true := by
  intro a ha
  rcases List.mem_cons.mp ha with rfl | ha
  · exact head
  · obtain ⟨n, hn, rfl⟩ := List.mem_map.mp ha
    exact decide_eq_true (live n hn)

/-- The two lists, with the handles on them in the order of `next`. -/
structure Linked (forth back : Addr → Option Addr) (l u : List ℕ) : Prop where
  lru : Ring.Circle forth back .lru (l.map .handle)
  inUse : Ring.Circle forth back .inUse (u.map .handle)
  disjoint : l.Disjoint u

namespace Linked

theorem nodup_lru (h : Linked forth back l u) : l.Nodup := List.Nodup.of_map _ h.lru.nodup

theorem nodup_inUse (h : Linked forth back l u) : u.Nodup := List.Nodup.of_map _ h.inUse.nodup

theorem not_mem_lru (hn : n ∉ l) : Addr.handle n ∉ Addr.lru :: l.map .handle := by
  rw [List.mem_cons, mem_map_handle]
  rintro (no | no)
  · cases no
  · exact hn no

theorem not_mem_inUse (hn : n ∉ u) : Addr.handle n ∉ Addr.inUse :: u.map .handle := by
  rw [List.mem_cons, mem_map_handle]
  rintro (no | no)
  · cases no
  · exact hn no

/-- The two rings have no node in common. -/
theorem apart (h : Linked forth back l u) :
    (Addr.lru :: l.map .handle).Disjoint (Addr.inUse :: u.map .handle) := by
  intro a ha hb
  cases a with
  | lru => exact absurd hb (by simp)
  | inUse => exact absurd ha (by simp)
  | handle n =>
    by_cases left : n ∈ l
    · exact not_mem_inUse (h.disjoint left) hb
    · exact not_mem_lru left ha

theorem congr {forth' back' : Addr → Option Addr} (h : Linked forth back l u)
    (agree : ∀ e, (∀ n, e = .handle n → n ∈ l ++ u) → forth' e = forth e ∧ back' e = back e) :
    Linked forth' back' l u := by
  have lru : ∀ e ∈ Addr.lru :: l.map .handle, ∀ n, e = .handle n → n ∈ l ++ u := by
    rintro e he n rfl
    by_contra out
    exact not_mem_lru (fun hn => out (List.mem_append_left u hn)) he
  have inUse : ∀ e ∈ Addr.inUse :: u.map .handle, ∀ n, e = .handle n → n ∈ l ++ u := by
    rintro e he n rfl
    by_contra out
    exact not_mem_inUse (fun hn => out (List.mem_append_right l hn)) he
  exact ⟨h.lru.congr (fun e he => (agree e (lru e he)).1) fun e he => (agree e (lru e he)).2,
    h.inUse.congr (fun e he => (agree e (inUse e he)).1) fun e he => (agree e (inUse e he)).2,
    h.disjoint⟩

variable (live : ∀ n ∈ l ++ u, n ∈ s.undeleted)
include live

theorem alive_lru : ∀ a ∈ Addr.lru :: l.map .handle, s.alive a = true :=
  alive_circle rfl fun n hn => live n (List.mem_append_left u hn)

theorem alive_inUse : ∀ a ∈ Addr.inUse :: u.map .handle, s.alive a = true :=
  alive_circle rfl fun n hn => live n (List.mem_append_right l hn)

variable (h : Linked s.next s.prev l u)
include h

theorem linkRemove (hn : n ∈ l ++ u) : ∃ forth back,
    s.linkRemove (some (.handle n)) = .ok (s.relink forth back) ∧
      Linked forth back (l.erase n) (u.erase n) := by
  have disjoint : (l.erase n).Disjoint (u.erase n) := fun m hl hu =>
    h.disjoint (List.mem_of_mem_erase hl) (List.mem_of_mem_erase hu)
  rcases List.mem_append.mp hn with hl | hu
  · obtain ⟨forth, back, removed, ring, frame⟩ :=
      State.linkRemove_circle h.lru (mem_map_handle.mpr hl) (alive_lru live)
    rw [← List.map_erase handle_injective] at ring
    rw [List.erase_of_not_mem (h.disjoint hl)] at disjoint ⊢
    have other := h.inUse.congr (fun a ha => (frame a (h.apart.symm ha)).1)
      fun a ha => (frame a (h.apart.symm ha)).2
    exact ⟨forth, back, removed, ring, other, disjoint⟩
  · obtain ⟨forth, back, removed, ring, frame⟩ :=
      State.linkRemove_circle h.inUse (mem_map_handle.mpr hu) (alive_inUse live)
    rw [← List.map_erase handle_injective] at ring
    rw [List.erase_of_not_mem (h.disjoint.symm hu)] at disjoint ⊢
    have other := h.lru.congr (fun a ha => (frame a (h.apart ha)).1)
      fun a ha => (frame a (h.apart ha)).2
    exact ⟨forth, back, removed, other, ring, disjoint⟩

variable (fresh : n ∉ l ++ u) (nLive : n ∈ s.undeleted)
include fresh nLive

theorem appendLru : ∃ forth back,
    s.linkAppend (some .lru) (some (.handle n)) = .ok (s.relink forth back) ∧
      Linked forth back (l ++ [n]) u := by
  obtain ⟨hl, hu⟩ := not_or.mp (List.mem_append.not.mp fresh)
  obtain ⟨forth, back, appended, ring, frame⟩ :=
    State.linkAppend_circle h.lru (not_mem_lru hl) (alive_lru live) (decide_eq_true nLive)
  have kept : ∀ a ∈ Addr.inUse :: u.map .handle, forth a = s.next a ∧ back a = s.prev a :=
    fun a ha => frame a (h.apart.symm ha) fun same => not_mem_inUse hu (same ▸ ha)
  refine ⟨forth, back, appended, ?_, ?_, ?_⟩
  · rw [List.map_append]
    exact ring
  · exact h.inUse.congr (fun a ha => (kept a ha).1) fun a ha => (kept a ha).2
  · exact List.disjoint_append_left.mpr ⟨h.disjoint, List.singleton_disjoint.mpr hu⟩

theorem appendInUse : ∃ forth back,
    s.linkAppend (some .inUse) (some (.handle n)) = .ok (s.relink forth back) ∧
      Linked forth back l (u ++ [n]) := by
  obtain ⟨hl, hu⟩ := not_or.mp (List.mem_append.not.mp fresh)
  obtain ⟨forth, back, appended, ring, frame⟩ :=
    State.linkAppend_circle h.inUse (not_mem_inUse hu) (alive_inUse live) (decide_eq_true nLive)
  have kept : ∀ a ∈ Addr.lru :: l.map .handle, forth a = s.next a ∧ back a = s.prev a :=
    fun a ha => frame a (h.apart ha) fun same => not_mem_lru hl (same ▸ ha)
  refine ⟨forth, back, appended, ?_, ?_, ?_⟩
  · exact h.lru.congr (fun a ha => (kept a ha).1) fun a ha => (kept a ha).2
  · rw [List.map_append]
    exact ring
  · exact List.disjoint_append_right.mpr ⟨h.disjoint, List.disjoint_singleton.mpr hl⟩

end Linked

end

end Codelab.LRUCache
