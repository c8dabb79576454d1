import Codelab.TimerThread

/-! Where each slot is: with a thread that is about to link it, in a bucket, in the
chain the timer thread has taken, in its hands, on the heap, or with the pool. The
links are followed on the `Layout` of a state, the part of it that says so. -/

namespace Codelab.TimerThread

open Chain TimerTaskId

inductive Place (τ : Type*)
  | free
  | held (t : τ)
  | queued (b : ℕ)
  | chained
  | cursor
  | heaped
  | hand

/-- Linked at some time and not yet given back. -/
def Place.out {τ : Type*} : Place τ → Bool
  | free => false
  | held _ => false
  | _ => true

/-- What the timer thread's control point says about chains and slots. -/
inductive View
  | away
  | chain (p : Option Slot)
  | cursor (p : Slot)
  | advancing (p : Slot)
  | top (p : Slot)
  | hand (p : Slot)

structure Layout (τ : Type*) where
  allocated : Slot → Bool
  next : Slot → Option Slot
  runTime : Slot → Int
  idSlot : Slot → Slot
  head : ℕ → Option Slot
  heap : List Slot
  popped : Bool
  holds : τ → Option Slot
  made : τ → Option Slot
  view : View

variable {τ : Type*}

theorem Least.congr {runTime runTime' : Slot → Int} {tasks : List Slot} (h : Least runTime tasks)
    (agree : ∀ p ∈ tasks, runTime' p = runTime p) : Least runTime' tasks := by
  cases tasks with
  | nil => trivial
  | cons p rest =>
    intro q hq
    rw [agree p List.mem_cons_self, agree q (List.mem_cons_of_mem p hq)]
    exact h q hq

theorem Least.le {runTime : Slot → Int} {p q : Slot} {rest : List Slot}
    (h : Least runTime (p :: rest)) (hq : q ∈ p :: rest) : runTime p ≤ runTime q := by
  rcases List.mem_cons.mp hq with rfl | hq
  · exact Int.le_refl _
  · exact h q hq

def Looks (L : Layout τ) (place : Slot → Place τ) (rest : List Slot) : View → Prop
  | .away => True
  | .chain p => Path L.next p rest
  | .cursor p => place p = .cursor ∧ Path L.next (L.next p) rest
  | .advancing p => (∀ t, place p ≠ .held t) ∧ Path L.next (L.next p) rest
  | .top p => ∃ tail, L.heap = p :: tail
  | .hand p => place p = .hand

/-- Each slot is in one place; the queues of the buckets, the rest of the taken chain
and the heap are made of the slots that are there. The slots in use fit in an id. -/
structure Shape (L : Layout τ) (place : Slot → Place τ) (queues : ℕ → List Slot)
    (rest : List Slot) : Prop where
  free : ∀ p, L.allocated p = false → place p = .free
  fits : ∀ p, L.allocated p = true → Fits p
  holds : ∀ t p, L.holds t = some p → place p = .held t
  made : ∀ t p, L.made t = some p → L.holds t = some p ∧ L.idSlot p = p
  ids : ∀ p, (place p).out = true → L.idSlot p = p
  queue : ∀ b, Path L.next (L.head b) (queues b)
  queued : ∀ b, ∀ p ∈ queues b, place p = .queued b
  rested : ∀ p ∈ rest, place p = .chained
  heaped : ∀ p ∈ L.heap, place p = .heaped
  nodup : L.heap.Nodup
  least : L.popped = false → Least L.runTime L.heap
  looks : Looks L place rest L.view

namespace Shape

variable {L : Layout τ} {place : Slot → Place τ} {queues : ℕ → List Slot}
  {rest : List Slot} {p q : Slot} {t : τ} {b : ℕ} {view : View}

/-- A slot that a thread is about to link is not with the pool. -/
theorem owned (sh : Shape L place queues rest) (mine : L.holds t = some p) :
    L.allocated p = true := by
  by_contra pooled
  cases (sh.holds t p mine).symm.trans (sh.free p (Bool.eq_false_iff.mpr pooled))

/-- The timer thread moves on without touching a slot. -/
theorem turn (sh : Shape L place queues rest) (looks : Looks L place rest view) :
    Shape { L with view := view } place queues rest :=
  { sh with
    looks := by
      cases view <;> exact looks }

section


theorem Looks.write {r : Option Slot} {time : Int} (h : Looks L place rest view)
    (away : ∀ q, place q = .chained ∨ place q = .cursor ∨ (∀ t, place q ≠ .held t) → q ≠ p)
    (rested : ∀ q ∈ rest, place q = .chained) :
    Looks { L with
      next := Function.update L.next p r
      runTime := Function.update L.runTime p time } place rest view := by
  have same : ∀ q ∈ rest, Function.update L.next p r q = L.next q := fun q hq =>
    Function.update_of_ne (away q (.inl (rested q hq))) ..
  cases view with
  | away => trivial
  | chain q => exact h.congr same
  | cursor q =>
    refine ⟨h.1, ?_⟩
    change Path (Function.update L.next p r) (Function.update L.next p r q) rest
    rw [Function.update_of_ne (away q (.inr (.inl h.1)))]
    exact h.2.congr same
  | advancing q =>
    refine ⟨h.1, ?_⟩
    change Path (Function.update L.next p r) (Function.update L.next p r q) rest
    rw [Function.update_of_ne (away q (.inr (.inr h.1)))]
    exact h.2.congr same
  | top q => exact h
  | hand q => exact h

/-- A thread writes to the node it holds. -/
theorem write {r : Option Slot} {time : Int} (sh : Shape L place queues rest)
    (mine : L.holds t = some p) :
    Shape { L with
      next := Function.update L.next p r
      runTime := Function.update L.runTime p time } place queues rest := by
  have held := sh.holds t p mine
  have away : ∀ q, place q = .chained ∨ place q = .cursor ∨ (∀ t, place q ≠ .held t) → q ≠ p := by
    rintro q h rfl
    rcases h with h | h | h
    · cases held.symm.trans h
    · cases held.symm.trans h
    · exact h t held
  exact
  { sh with
    queue := by
      intro b
      refine (sh.queue b).congr fun q hq => Function.update_of_ne ?_ ..
      rintro rfl
      cases held.symm.trans (sh.queued b q hq)
    least := by
      intro whole
      refine (sh.least whole).congr fun q hq => Function.update_of_ne ?_ ..
      rintro rfl
      cases held.symm.trans (sh.heaped q hq)
    looks := Looks.write sh.looks away sh.rested }

theorem place_elsewhere {here there new : Place τ} (hp : place p = here)
    (hq : place q = there) (apart : here ≠ there) : Function.update place p new q = there := by
  rw [Function.update_of_ne, hq]
  rintro rfl
  exact apart (hp.symm.trans hq)

/-- The pool hands out a slot. -/
theorem claim [DecidableEq τ] (sh : Shape L place queues rest) (available : L.allocated p = false)
    (fits : Fits p) (idle : L.holds t = none) (settled : L.view ≠ .advancing p) :
    Shape { L with
      allocated := Function.update L.allocated p true
      holds := Function.update L.holds t (some p)
      made := Function.update L.made t none }
      (Function.update place p (.held t)) queues rest := by
  have free := sh.free p available
  have keepAs : ∀ q (here : Place τ), place q = here → .free ≠ here →
      Function.update place p (.held t) q = here :=
    fun q here hq apart => place_elsewhere free hq apart
  exact
  { sh with
    free := by
      intro q hq
      by_cases e : q = p
      · rw [e] at hq
        simp only [Function.update_self] at hq
        cases hq
      · simp only [Function.update_of_ne e] at hq ⊢
        exact sh.free q hq
    fits := by
      intro q hq
      by_cases e : q = p
      · exact e ▸ fits
      · simp only [Function.update_of_ne e] at hq
        exact sh.fits q hq
    holds := by
      intro u q hu
      by_cases e : u = t
      · subst e
        simp only [Function.update_self, Option.some.injEq] at hu
        rw [hu, Function.update_self]
      · simp only [Function.update_of_ne e] at hu
        exact keepAs q _ (sh.holds u q hu) (by rintro ⟨⟩)
    made := by
      intro u q hu
      by_cases e : u = t
      · subst e
        simp only [Function.update_self] at hu
        cases hu
      · simp only [Function.update_of_ne e] at hu ⊢
        exact sh.made u q hu
    ids := by
      intro q hq
      by_cases e : q = p
      · rw [e, Function.update_self] at hq
        cases hq
      · rw [Function.update_of_ne e] at hq
        exact sh.ids q hq
    queued := fun b q hq => keepAs q _ (sh.queued b q hq) (by rintro ⟨⟩)
    rested := fun q hq => keepAs q _ (sh.rested q hq) (by rintro ⟨⟩)
    heaped := fun q hq => keepAs q _ (sh.heaped q hq) (by rintro ⟨⟩)
    looks := by
      have looks := sh.looks
      cases hv : L.view with
      | away => trivial
      | chain q => rw [hv] at looks; exact looks
      | cursor q =>
        rw [hv] at looks
        exact ⟨keepAs q _ looks.1 (by rintro ⟨⟩), looks.2⟩
      | advancing q =>
        rw [hv] at looks
        have e : q ≠ p := by
          rintro rfl
          exact settled hv
        refine ⟨fun u => ?_, looks.2⟩
        rw [Function.update_of_ne e]
        exact looks.1 u
      | top q => rw [hv] at looks; exact looks
      | hand q =>
        rw [hv] at looks
        exact keepAs q _ looks (by rintro ⟨⟩) }

/-- The id of a held slot is written. -/
theorem make [DecidableEq τ] (sh : Shape L place queues rest) (mine : L.holds t = some p) :
    Shape { L with
      idSlot := Function.update L.idSlot p p
      made := Function.update L.made t (some p) } place queues rest :=
  { sh with
    made := by
      intro u q hu
      by_cases e : u = t
      · subst e
        simp only [Function.update_self, Option.some.injEq] at hu
        subst hu
        exact ⟨mine, Function.update_self ..⟩
      · simp only [Function.update_of_ne e] at hu
        obtain ⟨holds, id_eq⟩ := sh.made u q hu
        refine ⟨holds, ?_⟩
        by_cases same : q = p
        · simp only [same, Function.update_self]
        · simpa only [Function.update_of_ne same] using id_eq
    ids := by
      intro q hq
      by_cases same : q = p
      · simp only [same, Function.update_self]
      · simpa only [Function.update_of_ne same] using sh.ids q hq
    looks := by
      have looks := sh.looks
      cases hv : L.view <;> rw [hv] at looks <;> exact looks }

/-- The node is linked into bucket `b`. -/
theorem link [DecidableEq τ] (sh : Shape L place queues rest) (mine : L.holds t = some p)
    (made : L.idSlot p = p) :
    Shape { L with
      next := Function.update L.next p (L.head b)
      head := Function.update L.head b (some p)
      holds := Function.update L.holds t none
      made := Function.update L.made t none }
      (Function.update place p (.queued b)) (Function.update queues b (p :: queues b)) rest := by
  have held := sh.holds t p mine
  have written := @Shape.write _ _ _ _ _ _ _ (L.head b) (L.runTime p) sh mine
  have keep : ∀ q (here : Place τ), place q = here → .held t ≠ here →
      Function.update place p (.queued b) q = here :=
    fun q here hq apart => place_elsewhere held hq apart
  have fresh : p ∉ queues b := fun hp => by cases held.symm.trans (sh.queued b p hp)
  exact
  { written with
    free := by
      intro q hq
      refine keep q _ (sh.free q hq) (by rintro ⟨⟩)
    holds := by
      intro u q hu
      by_cases e : u = t
      · subst e
        simp only [Function.update_self] at hu
        cases hu
      · simp only [Function.update_of_ne e] at hu
        refine keep q _ (sh.holds u q hu) ?_
        rintro ⟨⟩
        exact e rfl
    made := by
      intro u q hu
      by_cases e : u = t
      · subst e
        simp only [Function.update_self] at hu
        cases hu
      · simp only [Function.update_of_ne e] at hu ⊢
        exact sh.made u q hu
    ids := by
      intro q hq
      by_cases e : q = p
      · rw [e]
        exact made
      · rw [Function.update_of_ne e] at hq
        exact sh.ids q hq
    queue := by
      intro c
      by_cases e : c = b
      · subst e
        simp only [Function.update_self]
        exact ⟨rfl, by simpa only [Function.update_self] using written.queue c⟩
      · simp only [Function.update_of_ne e]
        exact written.queue c
    queued := by
      intro c q hq
      by_cases e : c = b
      · subst e
        rw [Function.update_self] at hq
        rcases List.mem_cons.mp hq with rfl | old
        · rw [Function.update_self]
        · exact keep q _ (sh.queued c q old) (by rintro ⟨⟩)
      · rw [Function.update_of_ne e] at hq
        exact keep q _ (sh.queued c q hq) (by rintro ⟨⟩)
    rested := fun q hq => keep q _ (sh.rested q hq) (by rintro ⟨⟩)
    heaped := fun q hq => keep q _ (sh.heaped q hq) (by rintro ⟨⟩)
    least := by
      intro whole
      exact sh.least whole
    looks := by
      have looks := written.looks
      cases hv : L.view with
      | away => trivial
      | chain q => simp only [hv] at looks; exact looks
      | cursor q =>
        simp only [hv] at looks
        exact ⟨keep q _ looks.1 (by rintro ⟨⟩), looks.2⟩
      | advancing q =>
        simp only [hv] at looks
        refine ⟨fun u => ?_, looks.2⟩
        rw [Function.update_of_ne]
        · exact looks.1 u
        · rintro rfl
          exact looks.1 t held
      | top q => simp only [hv] at looks; exact looks
      | hand q =>
        simp only [hv] at looks
        exact keep q _ looks (by rintro ⟨⟩) }

/-- The timer thread takes a bucket's chain. -/
theorem take (sh : Shape L place queues rest) :
    Shape { L with
      head := Function.update L.head b none
      view := .chain (L.head b) }
      (fun q => if q ∈ queues b then .chained else place q) (Function.update queues b [])
      (queues b) := by
  have keep : ∀ q (here : Place τ), place q = here → .queued b ≠ here →
      (if q ∈ queues b then .chained else place q) = here := by
    intro q here hq apart
    rw [if_neg, hq]
    exact fun taken => apart ((sh.queued b q taken).symm.trans hq)
  exact
  { free := fun q hq => keep q _ (sh.free q hq) (by rintro ⟨⟩)
    fits := sh.fits
    holds := fun t q hq => keep q _ (sh.holds t q hq) (by rintro ⟨⟩)
    made := sh.made
    ids := by
      intro q hq
      refine sh.ids q ?_
      split_ifs at hq with taken
      · rw [sh.queued b q taken]
        rfl
      · exact hq
    queue := by
      intro c
      by_cases e : c = b
      · subst e
        simp only [Function.update_self]
        rfl
      · simp only [Function.update_of_ne e]
        exact sh.queue c
    queued := by
      intro c q hq
      by_cases e : c = b
      · subst e
        rw [Function.update_self] at hq
        cases hq
      · rw [Function.update_of_ne e] at hq
        refine keep q _ (sh.queued c q hq) ?_
        rintro ⟨⟩
        exact e rfl
    rested := fun q hq => if_pos hq
    heaped := fun q hq => keep q _ (sh.heaped q hq) (by rintro ⟨⟩)
    nodup := sh.nodup
    least := sh.least
    looks := sh.queue b }

/-- A slot that is in no list and in no thread's hands goes to another place. -/
theorem relocate {new : Place τ} (sh : Shape L place queues rest) {allocated : Slot → Bool}
    (queued : ∀ b, place p ≠ .queued b) (chained : place p ≠ .chained) (heaped : p ∉ L.heap)
    (held : ∀ t, place p ≠ .held t) (same : ∀ q, q ≠ p → allocated q = L.allocated q)
    (less : allocated p = true → L.allocated p = true)
    (free : allocated p = false → new = .free) (id_eq : new.out = true → L.idSlot p = p)
    (looks : Looks L (Function.update place p new) rest view) :
    Shape { L with allocated := allocated, view := view } (Function.update place p new)
      queues rest :=
  { sh with
    free := by
      intro q hq
      by_cases e : q = p
      · rw [e, Function.update_self]
        exact free (e ▸ hq)
      · rw [Function.update_of_ne e]
        exact sh.free q ((same q e).symm.trans hq)
    fits := by
      intro q hq
      by_cases e : q = p
      · exact sh.fits q (e ▸ less (e ▸ hq))
      · exact sh.fits q ((same q e).symm.trans hq)
    holds := by
      intro t q hq
      rw [Function.update_of_ne]
      · exact sh.holds t q hq
      · rintro rfl
        exact held t (sh.holds t q hq)
    ids := by
      intro q hq
      by_cases e : q = p
      · rw [e, Function.update_self] at hq
        rw [e]
        exact id_eq hq
      · rw [Function.update_of_ne e] at hq
        exact sh.ids q hq
    queued := by
      intro b q hq
      rw [Function.update_of_ne]
      · exact sh.queued b q hq
      · rintro rfl
        exact queued b (sh.queued b q hq)
    rested := by
      intro q hq
      rw [Function.update_of_ne]
      · exact sh.rested q hq
      · rintro rfl
        exact chained (sh.rested q hq)
    heaped := by
      intro q hq
      rw [Function.update_of_ne]
      · exact sh.heaped q hq
      · rintro rfl
        exact heaped hq
    looks := by cases view <;> exact looks }

/-- The vector of the heap changes. -/
theorem reheap {heap : List Slot} {popped : Bool} (sh : Shape L place queues rest)
    (heaped : ∀ q ∈ heap, place q = .heaped) (nodup : heap.Nodup)
    (least : popped = false → Least L.runTime heap)
    (looks : Looks { L with heap := heap } place rest view) :
    Shape { L with heap := heap, popped := popped, view := view } place queues rest :=
  { sh with
    heaped := heaped
    nodup := nodup
    least := least
    looks := by cases view <;> exact looks }

/-- `p` is the next node of the chain. -/
theorem visit (sh : Shape L place queues rest) (hv : L.view = .chain (some p)) :
    ∃ place rest, Shape { L with view := .cursor p } place queues rest := by
  have looks := sh.looks
  rw [hv] at looks
  obtain ⟨tail, rfl, path⟩ := Path.of_some looks
  have chained := sh.rested p List.mem_cons_self
  have fresh : p ∉ tail := (List.nodup_cons.mp (Path.nodup looks)).1
  have shorter : Shape { L with view := .away } place queues tail :=
    { sh with
      rested := fun q hq => sh.rested q (List.mem_cons_of_mem p hq)
      looks := trivial }
  have rested : ∀ q ∈ tail, Function.update place p .cursor q = .chained := by
    intro q hq
    rw [Function.update_of_ne]
    · exact sh.rested q (List.mem_cons_of_mem p hq)
    · rintro rfl
      exact fresh hq
  have keep : ∀ q (here : Place τ), place q = here → .chained ≠ here →
      Function.update place p .cursor q = here :=
    fun q here hq apart => place_elsewhere chained hq apart
  refine ⟨Function.update place p .cursor, tail,
    { shorter with
      free := fun q hq => keep q _ (sh.free q hq) (by rintro ⟨⟩)
      holds := fun t q hq => keep q _ (sh.holds t q hq) (by rintro ⟨⟩)
      ids := ?_
      queued := fun b q hq => keep q _ (sh.queued b q hq) (by rintro ⟨⟩)
      rested := rested
      heaped := fun q hq => keep q _ (sh.heaped q hq) (by rintro ⟨⟩)
      looks := ⟨Function.update_self .., path⟩ }⟩
  intro q hq
  by_cases e : q = p
  · exact sh.ids q (by rw [e, chained]; rfl)
  · rw [Function.update_of_ne e] at hq
    exact sh.ids q hq

theorem not_heaped {here : Place τ} (sh : Shape L place queues rest) (hp : place p = here)
    (apart : here ≠ .heaped) : p ∉ L.heap := fun hq => apart (hp.symm.trans (sh.heaped p hq))

/-- The visited task had been removed: its slot goes back to the pool. -/
theorem giveBack (sh : Shape L place queues rest) (hv : L.view = .cursor p) :
    ∃ place, Shape { L with
      allocated := Function.update L.allocated (L.idSlot p) false
      view := .advancing p } place queues rest := by
  have looks := sh.looks
  rw [hv] at looks
  obtain ⟨cursor, path⟩ := looks
  rw [sh.ids p (by rw [cursor]; rfl)]
  refine ⟨Function.update place p .free, sh.relocate (by rw [cursor]; rintro b ⟨⟩)
    (by rw [cursor]; rintro ⟨⟩) (sh.not_heaped cursor (by rintro ⟨⟩)) (by rw [cursor]; rintro t ⟨⟩)
    (fun q e => Function.update_of_ne e ..) (by simp) (fun _ => rfl)
      (fun no => absurd no Bool.false_ne_true)
    ⟨fun t => ?_, path⟩⟩
  rw [Function.update_self]
  rintro ⟨⟩

/-- The visited task goes on the heap. -/
theorem push {heap : List Slot} (sh : Shape L place queues rest) (hv : L.view = .cursor p)
    (perm : heap.Perm (p :: L.heap)) (least : Least L.runTime heap) :
    ∃ place, Shape { L with heap := heap, popped := false, view := .advancing p }
      place queues rest := by
  have looks := sh.looks
  rw [hv] at looks
  obtain ⟨cursor, path⟩ := looks
  have fresh := sh.not_heaped cursor (by rintro ⟨⟩)
  have owned : L.allocated p = false → (.heaped : Place τ) = .free := fun no => by
    cases cursor.symm.trans (sh.free p no)
  have away : Looks L (Function.update place p (.heaped : Place τ)) rest .away := trivial
  have moved := sh.relocate (by rw [cursor]; rintro b ⟨⟩) (by rw [cursor]; rintro ⟨⟩) fresh
    (by rw [cursor]; rintro t ⟨⟩) (fun q _ => rfl) id owned
    (fun _ => sh.ids p (by rw [cursor]; rfl)) away
  refine ⟨_, moved.reheap ?_ ?_ (fun _ => least) ⟨fun t => ?_, path⟩⟩
  · intro q hq
    rcases List.mem_cons.mp (perm.mem_iff.mp hq) with rfl | old
    · exact Function.update_self ..
    · exact moved.heaped q old
  · exact perm.nodup_iff.mpr (List.nodup_cons.mpr ⟨fresh, sh.nodup⟩)
  · rw [Function.update_self]
    rintro ⟨⟩

/-- The front of the heap is set aside. -/
theorem behead {tail heap : List Slot} {popped : Bool} (sh : Shape L place queues rest)
    (front : L.heap = p :: tail) (perm : heap.Perm tail)
    (least : popped = false → Least L.runTime heap) :
    place p = .heaped ∧ p ∉ heap ∧
      Shape { L with heap := heap, popped := popped, view := .away } place queues rest := by
  have nodup := sh.nodup
  rw [front, List.nodup_cons] at nodup
  refine ⟨sh.heaped p (by rw [front]; exact List.mem_cons_self), ?_, ?_⟩
  · rw [perm.mem_iff]
    exact nodup.1
  · refine sh.reheap (fun q hq => sh.heaped q ?_) (perm.nodup_iff.mpr nodup.2) least trivial
    rw [front]
    exact List.mem_cons_of_mem p (perm.mem_iff.mp hq)

/-- The front of the heap had been removed: its slot goes back to the pool while the
task still stands at the front. -/
theorem dropTop {tail : List Slot} (sh : Shape L place queues rest) (front : L.heap = p :: tail) :
    ∃ place, Shape { L with
      allocated := Function.update L.allocated (L.idSlot p) false
      heap := tail
      popped := true
      view := .away } place queues rest := by
  obtain ⟨heaped, fresh, beheaded⟩ :=
    sh.behead front (List.Perm.refl tail) (fun no => absurd no.symm Bool.false_ne_true)
  rw [sh.ids p (by rw [heaped]; rfl)]
  exact ⟨Function.update place p .free, beheaded.relocate (by rw [heaped]; rintro b ⟨⟩)
    (by rw [heaped]; rintro ⟨⟩) fresh (by rw [heaped]; rintro t ⟨⟩)
    (fun q e => Function.update_of_ne e ..) (by simp) (fun _ => rfl)
      (fun no => absurd no Bool.false_ne_true)
    trivial⟩

/-- The front of the heap is taken off to be run. -/
theorem popRun {tail heap : List Slot} (sh : Shape L place queues rest)
    (front : L.heap = p :: tail) (perm : heap.Perm tail) (least : Least L.runTime heap) :
    ∃ place, Shape { L with heap := heap, popped := false, view := .hand p } place queues rest := by
  obtain ⟨heaped, fresh, beheaded⟩ := sh.behead front perm (fun _ => least)
  have owned : L.allocated p = false → (.hand : Place τ) = .free := fun no => by
    cases heaped.symm.trans (sh.free p no)
  exact ⟨Function.update place p .hand, beheaded.relocate (by rw [heaped]; rintro b ⟨⟩)
    (by rw [heaped]; rintro ⟨⟩) fresh (by rw [heaped]; rintro t ⟨⟩) (fun q _ => rfl) id owned
    (fun _ => sh.ids p (by rw [heaped]; rfl)) (Function.update_self ..)⟩

/-- The slot of the task that was run goes back to the pool. -/
theorem release (sh : Shape L place queues rest) (hv : L.view = .hand p) :
    ∃ place, Shape { L with
      allocated := Function.update L.allocated (L.idSlot p) false
      view := .away } place queues rest := by
  have hand := sh.looks
  rw [hv] at hand
  change place p = .hand at hand
  rw [sh.ids p (by rw [hand]; rfl)]
  exact ⟨Function.update place p .free, sh.relocate (by rw [hand]; rintro b ⟨⟩)
    (by rw [hand]; rintro ⟨⟩) (sh.not_heaped hand (by rintro ⟨⟩)) (by rw [hand]; rintro t ⟨⟩)
    (fun q e => Function.update_of_ne e ..) (by simp) (fun _ => rfl)
      (fun no => absurd no Bool.false_ne_true)
    trivial⟩

end

end Shape

/-- The slot of a call that has not linked it yet. -/
def Pc.holds : Pc → Option Slot
  | .schedWrite c => some c.slot
  | .schedAdd c => some c.slot
  | .schedLoad c => some c.slot
  | .schedMake c _ => some c.slot
  | .schedLock c _ => some c.slot
  | .schedLink c _ => some c.slot
  | _ => none

/-- The same, once its task id has been written. -/
def Pc.made : Pc → Option Slot
  | .schedLock c _ => some c.slot
  | .schedLink c _ => some c.slot
  | _ => none

def Site.view (p : Slot) : Site → View
  | .chain _ => .cursor p
  | .heap => .top p

def TimerPc.view : TimerPc → View
  | .takeReset _ p => .chain (some p)
  | .takeUnlock _ head => .chain head
  | .visit _ p => .chain p
  | .tryLoad site p _ => site.view p
  | .tryCheck site p _ => site.view p
  | .tryReturn site p => site.view p
  | .push _ p => .cursor p
  | .advance _ p => .advancing p
  | .due p => .top p
  | .popRun p => .top p
  | .runCas p _ => .hand p
  | .runCall p _ => .hand p
  | .runStore p _ => .hand p
  | .runReturn p => .hand p
  | _ => .away

theorem TimerPc.of_advancing {timer : TimerPc} {p : Slot} (h : timer.view = .advancing p) :
    ∃ i, timer = .advance i p := by
  cases timer with
  | advance i q =>
    cases h
    exact ⟨i, rfl⟩
  | tryLoad site q v => cases site <;> cases h
  | tryCheck site q v => cases site <;> cases h
  | tryReturn site q => cases site <;> cases h
  | _ => cases h

def TimerPc.popped : TimerPc → Bool
  | .popDeleted => true
  | _ => false

namespace State

/-- The tasks on the heap, without one that has just been given back. -/
def heap (s : State τ) : List Slot := if s.timer.popped then s.tasks.tail else s.tasks

def layout (s : State τ) : Layout τ where
  allocated := s.allocated
  next := Node.next ∘ s.node
  runTime := Node.runTime ∘ s.node
  idSlot := (fun n : Node => slotOfTaskId n.taskId) ∘ s.node
  head := Bucket.head ∘ s.bucket
  heap := s.heap
  popped := s.timer.popped
  holds := Pc.holds ∘ s.pc
  made := Pc.made ∘ s.pc
  view := s.timer.view

end State

/-- The slots are in order, the buckets holding `queues`. -/
def Placed (s : State τ) (queues : ℕ → List Slot) : Prop :=
  ∃ place rest, Shape s.layout place queues rest

section

variable [DecidableEq τ]

/-- The queues after a step: a task is linked in front, or the whole queue taken. -/
def queuesAfter (s : State τ) (queues : ℕ → List Slot) : Action τ → ℕ → List Slot
  | .step t =>
      match s.pc t with
      | .schedLink c _ => Function.update queues c.bucket (c.slot :: queues c.bucket)
      | _ => queues
  | .timer =>
      match s.timer with
      | .take i => Function.update queues i []
      | _ => queues
  | _ => queues

/-- The pool does not hand a slot out between the timer thread's returning it and its
reading of the node's `next`. -/
def State.settled (s : State τ) : Action τ → Bool
  | .schedule _ c =>
      match s.timer with
      | .advance _ p => p ≠ c.slot
      | _ => true
  | _ => true

/-- The pool hands out a slot that fits in an id. -/
def Action.fits : Action τ → Bool
  | .schedule _ c => Fits c.slot
  | _ => true

variable {s s' : State τ} {queues : ℕ → List Slot} {t : τ} {pc : Pc}

theorem layout_goto (s : State τ) (t : τ) (pc : Pc) : (s.goto t pc).layout =
    { s.layout with
      holds := Function.update s.layout.holds t pc.holds
      made := Function.update s.layout.made t pc.made } := by
  simp only [State.layout, State.goto, Function.comp_update]
  rfl

omit [DecidableEq τ] in
theorem layout_onNode (s : State τ) (p : Slot) (change : Node → Node) :
    (s.onNode p change).layout =
    { s.layout with
      next := Function.update s.layout.next p (change (s.node p)).next
      runTime := Function.update s.layout.runTime p (change (s.node p)).runTime
      idSlot := Function.update s.layout.idSlot p (slotOfTaskId (change (s.node p)).taskId) } := by
  simp only [State.layout, State.onNode, Function.comp_update]
  rfl

omit [DecidableEq τ] in
theorem layout_onBucket (s : State τ) (b : ℕ) (change : Bucket τ → Bucket τ) :
    (s.onBucket b change).layout =
    { s.layout with head := Function.update s.layout.head b (change (s.bucket b)).head } := by
  simp only [State.layout, State.onBucket, Function.comp_update]
  rfl

omit [DecidableEq τ] in
theorem layout_sameNode (s : State τ) (p : Slot) (change : Node → Node)
    (next : (change (s.node p)).next = (s.node p).next)
    (runTime : (change (s.node p)).runTime = (s.node p).runTime)
    (id_eq : (change (s.node p)).taskId = (s.node p).taskId) :
    (s.onNode p change).layout = s.layout := by
  rw [layout_onNode, next, runTime, id_eq]
  change ({ s.layout with
    next := Function.update s.layout.next p (s.layout.next p)
    runTime := Function.update s.layout.runTime p (s.layout.runTime p)
    idSlot := Function.update s.layout.idSlot p (s.layout.idSlot p) } : Layout τ) = s.layout
  simp only [Function.update_eq_self]

omit [DecidableEq τ] in
theorem layout_sameBucket (s : State τ) (b : ℕ) (change : Bucket τ → Bucket τ)
    (head : (change (s.bucket b)).head = (s.bucket b).head) :
    (s.onBucket b change).layout = s.layout := by
  rw [layout_onBucket, head]
  change ({ s.layout with
    head := Function.update s.layout.head b (s.layout.head b) } : Layout τ) = s.layout
  rw [Function.update_eq_self]

namespace Placed

omit [DecidableEq τ] in
theorem same (h : Placed s queues) (e : s'.layout = s.layout) : Placed s' queues := by
  obtain ⟨place, rest, sh⟩ := h
  exact ⟨place, rest, e ▸ sh⟩

/-- A thread moves on without taking or linking a slot. -/
theorem goto (h : Placed s queues) (holds : pc.holds = (s.pc t).holds)
    (made : pc.made = (s.pc t).made) : Placed (s.goto t pc) queues := by
  refine h.same ?_
  rw [layout_goto, holds, made]
  change ({ s.layout with
    holds := Function.update s.layout.holds t (s.layout.holds t)
    made := Function.update s.layout.made t (s.layout.made t) } : Layout τ) = s.layout
  rw [Function.update_eq_self, Function.update_eq_self]

omit [DecidableEq τ] in
theorem lock {a : Actor τ} (h : Placed s queues) (hlock : s.lock a = some s') :
    Placed s' queues ∧ s'.pc = s.pc ∧ s'.timer = s.timer := by
  rw [State.lock] at hlock
  split_ifs at hlock
  cases hlock
  exact ⟨h, rfl, rfl⟩

omit [DecidableEq τ] in
theorem lockBucket {a : Actor τ} {b : ℕ} (h : Placed s queues)
    (hlock : s.lockBucket b a = some s') :
    Placed s' queues ∧ s'.pc = s.pc ∧ s'.timer = s.timer := by
  rw [State.lockBucket] at hlock
  split_ifs at hlock
  cases hlock
  exact ⟨h.same (layout_sameBucket s b _ rfl), rfl, rfl⟩

omit [DecidableEq τ] in
theorem unlockBucket (h : Placed s queues) (b : ℕ) : Placed (s.unlockBucket b) queues :=
  h.same (layout_sameBucket s b _ rfl)

omit [DecidableEq τ] in
theorem wakeUp (h : Placed s queues) : Placed s.wakeUp queues ∧ s.wakeUp.pc = s.pc := by
  refine ⟨h.same ?_, ?_⟩
  · unfold State.wakeUp
    split
    · rename_i timer
      simp [State.layout, State.toTimer, State.heap, timer, TimerPc.view, TimerPc.popped]
    · rfl
  · unfold State.wakeUp
    split <;> rfl

omit [DecidableEq τ] in
theorem cancel (h : Placed s queues) (id : TaskId) :
    Placed (s.cancel id) queues ∧ (s.cancel id).pc = s.pc := by
  unfold State.cancel
  split_ifs
  · exact ⟨h.same (layout_sameNode s (slotOfTaskId id) _ rfl rfl rfl), rfl⟩
  · exact ⟨h, rfl⟩

theorem schedule {c : Call} (h : Placed s queues) (idle : s.pc t = .idle)
    (available : s.allocated c.slot = false) (fits : Fits c.slot)
    (settled : s.settled (.schedule t c) = true) :
    Placed ({ s with allocated := Function.update s.allocated c.slot true }.goto t (.schedWrite c))
      queues := by
  obtain ⟨place, rest, sh⟩ := h
  have holds : s.layout.holds t = none := congrArg Pc.holds idle
  refine ⟨Function.update place c.slot (.held t), rest, ?_⟩
  rw [layout_goto]
  refine sh.claim available fits holds fun advancing => ?_
  obtain ⟨i, timer⟩ := TimerPc.of_advancing advancing
  simp [State.settled, timer] at settled

theorem schedWrite {c : Call} (h : Placed s queues) (hpc : s.pc t = .schedWrite c) :
    Placed ((s.onNode c.slot ({ · with next := none, runTime := c.runTime })).goto t (.schedAdd c))
      queues := by
  have written :
      Placed (s.onNode c.slot ({ · with next := none, runTime := c.runTime })) queues := by
    obtain ⟨place, rest, sh⟩ := h
    have mine : s.layout.holds t = some c.slot := congrArg Pc.holds hpc
    refine ⟨place, rest, ?_⟩
    have write := @Shape.write _ _ _ _ _ _ _ none c.runTime sh mine
    rw [layout_onNode]
    change Shape { s.layout with
      next := Function.update s.layout.next c.slot none
      runTime := Function.update s.layout.runTime c.slot c.runTime
      idSlot := Function.update s.layout.idSlot c.slot (s.layout.idSlot c.slot) } place queues rest
    rw [Function.update_eq_self]
    exact write
  exact written.goto (congrArg Pc.holds hpc).symm (congrArg Pc.made hpc).symm

omit [DecidableEq τ] in
theorem fits {p : Slot} (h : Placed s queues) (mine : (s.pc t).holds = some p) : Fits p := by
  obtain ⟨place, rest, sh⟩ := h
  exact sh.fits p (sh.owned mine)

theorem schedMake {c : Call} {version : Version} (h : Placed s queues)
    (hpc : s.pc t = .schedMake c version) :
    Placed ((s.onNode c.slot ({ · with taskId := makeTaskId c.slot version })).goto t
      (.schedLock c (makeTaskId c.slot version))) queues := by
  have fits := h.fits (congrArg Pc.holds hpc)
  obtain ⟨place, rest, sh⟩ := h
  have mine : s.layout.holds t = some c.slot := congrArg Pc.holds hpc
  refine ⟨place, rest, ?_⟩
  have make := sh.make mine
  rw [layout_goto, layout_onNode]
  simp only [slotOfTaskId_makeTaskId fits]
  change Shape { s.layout with
    next := Function.update s.layout.next c.slot (s.layout.next c.slot)
    runTime := Function.update s.layout.runTime c.slot (s.layout.runTime c.slot)
    idSlot := Function.update s.layout.idSlot c.slot c.slot
    holds := Function.update s.layout.holds t (some c.slot)
    made := Function.update s.layout.made t (some c.slot) } place queues rest
  have holds : Function.update s.layout.holds t (some c.slot) = s.layout.holds := by
    rw [← mine, Function.update_eq_self]
  rw [Function.update_eq_self, Function.update_eq_self, holds]
  exact make

theorem schedLink {c : Call} {id : TaskId} (h : Placed s queues)
    (hpc : s.pc t = .schedLink c id) :
    Placed (((s.onNode c.slot ({ · with next := (s.bucket c.bucket).head })).onBucket c.bucket
      ({ · with head := some c.slot })).goto t (.schedCompare c id))
      (Function.update queues c.bucket (c.slot :: queues c.bucket)) := by
  obtain ⟨place, rest, sh⟩ := h
  have mine : s.layout.made t = some c.slot := congrArg Pc.made hpc
  obtain ⟨holds, id_eq⟩ := sh.made t c.slot mine
  refine ⟨Function.update place c.slot (.queued c.bucket), rest, ?_⟩
  have link := @Shape.link _ _ _ _ _ _ _ c.bucket _ sh holds id_eq
  rw [layout_goto, layout_onBucket, layout_onNode]
  change Shape { s.layout with
    next := Function.update s.layout.next c.slot (s.layout.head c.bucket)
    runTime := Function.update s.layout.runTime c.slot (s.layout.runTime c.slot)
    idSlot := Function.update s.layout.idSlot c.slot (s.layout.idSlot c.slot)
    head := Function.update s.layout.head c.bucket (some c.slot)
    holds := Function.update s.layout.holds t none
    made := Function.update s.layout.made t none } _ _ rest
  rw [Function.update_eq_self, Function.update_eq_self]
  exact link

theorem stepThread (h : Placed s queues) (hstep : s.stepThread t = some s') :
    Placed s' (queuesAfter s queues (.step t)) := by
  have moves : ∀ {s₁ : State τ} {pc pc' : Pc}, Placed s₁ queues → s₁.pc = s.pc →
      s.pc t = pc → pc'.holds = pc.holds → pc'.made = pc.made → Placed (s₁.goto t pc') queues := by
    intro s₁ pc pc' h₁ hpc at_pc holds made
    exact h₁.goto (by rw [hpc, at_pc, holds]) (by rw [hpc, at_pc, made])
  cases pc : s.pc t <;> simp only [State.stepThread, queuesAfter, pc] at hstep ⊢
  case idle => cases hstep
  case schedWrite => cases hstep; exact h.schedWrite pc
  case schedAdd =>
    cases hstep
    exact moves (h.same (layout_sameNode s _ _ rfl rfl rfl)) rfl pc rfl rfl
  case schedLoad => cases hstep; exact moves h rfl pc rfl rfl
  case schedMake => cases hstep; exact h.schedMake pc
  case schedLock =>
    obtain ⟨s₁, lock, rfl⟩ := Option.map_eq_some_iff.mp hstep
    obtain ⟨h₁, hpc, -⟩ := h.lockBucket lock
    exact moves h₁ hpc pc rfl rfl
  case schedLink => cases hstep; exact h.schedLink pc
  case schedCompare =>
    split_ifs at hstep <;> cases hstep
    · exact moves (h.same (layout_sameBucket s _ _ rfl)) rfl pc rfl rfl
    · exact moves h rfl pc rfl rfl
  case schedUnlock c id earlier =>
    cases hstep
    cases earlier <;> exact moves (h.unlockBucket c.bucket) rfl pc rfl rfl
  case nearLock =>
    obtain ⟨s₁, lock, rfl⟩ := Option.map_eq_some_iff.mp hstep
    obtain ⟨h₁, hpc, -⟩ := h.lock lock
    exact moves h₁ hpc pc rfl rfl
  case nearCompare =>
    split_ifs at hstep <;> cases hstep
    · exact moves (h.same rfl) rfl pc rfl rfl
    · exact moves h rfl pc rfl rfl
  case nearUnlock c id earlier =>
    cases hstep
    cases earlier <;> exact moves (h.same rfl) rfl pc rfl rfl
  case wake => cases hstep; exact moves h.wakeUp.1 h.wakeUp.2 pc rfl rfl
  case schedReturn => cases hstep; exact moves (h.same rfl) rfl pc rfl rfl
  case unschedCas => cases hstep; exact moves (h.cancel _).1 (h.cancel _).2 pc rfl rfl
  case stopSet => cases hstep; exact moves (h.same rfl) rfl pc rfl rfl
  case stopLock =>
    obtain ⟨s₁, lock, rfl⟩ := Option.map_eq_some_iff.mp hstep
    obtain ⟨h₁, hpc, -⟩ := h.lock lock
    exact moves h₁ hpc pc rfl rfl
  case stopZero => cases hstep; exact moves (h.same rfl) rfl pc rfl rfl
  case stopWake => cases hstep; exact moves (h.wakeUp.1.same rfl) h.wakeUp.2 pc rfl rfl
  case stopUnlock => cases hstep; exact moves (h.same rfl) rfl pc rfl rfl
  case stopJoin =>
    split at hstep <;> cases hstep
    exact moves h rfl pc rfl rfl

variable {timer : TimerPc} {p : Slot}

omit [DecidableEq τ] in
theorem layout_toTimer (whole : s.timer.popped = false) (whole' : timer.popped = false) :
    (s.toTimer timer).layout = { s.layout with view := timer.view } := by
  simp [State.layout, State.toTimer, State.heap, whole, whole']

omit [DecidableEq τ] in
theorem heap_whole (whole : s.timer.popped = false) : s.layout.heap = s.tasks := by
  simp [State.layout, State.heap, whole]

omit [DecidableEq τ] in
/-- The timer thread moves on without touching a slot. -/
theorem turn (h : Placed s queues) (whole : s.timer.popped = false) (whole' : timer.popped = false)
    (looks : ∀ (place : Slot → Place τ) (rest : List Slot),
      Looks s.layout place rest s.timer.view → Looks s.layout place rest timer.view) :
    Placed (s.toTimer timer) queues := by
  obtain ⟨place, rest, sh⟩ := h
  refine ⟨place, rest, ?_⟩
  rw [layout_toTimer whole whole']
  exact sh.turn (looks place rest sh.looks)

omit [DecidableEq τ] in
theorem leave (h : Placed s queues) (whole : s.timer.popped = false) (whole' : timer.popped = false)
    (away : timer.view = .away) : Placed (s.toTimer timer) queues := by
  refine h.turn whole whole' fun _ _ _ => ?_
  rw [away]
  trivial

omit [DecidableEq τ] in
theorem stay {before : TimerPc} (h : Placed s queues) (htimer : s.timer = before)
    (whole : before.popped = false) (whole' : timer.popped = false)
    (view : timer.view = before.view) : Placed (s.toTimer timer) queues := by
  refine h.turn (htimer ▸ whole) whole' fun _ _ looks => ?_
  rw [view, ← htimer]
  exact looks

omit [DecidableEq τ] in
/-- There is no chain to visit. -/
theorem empty (h : Placed s queues) (whole : s.timer.popped = false)
    (whole' : timer.popped = false) (view : timer.view = .chain none) :
    Placed (s.toTimer timer) queues := by
  obtain ⟨place, rest, sh⟩ := h
  refine ⟨place, [], ?_⟩
  rw [layout_toTimer whole whole', view]
  exact
  { sh with
    rested := fun q no => absurd no List.not_mem_nil
    looks := rfl }

omit [DecidableEq τ] in
theorem take {i : ℕ} (h : Placed s queues) (htimer : s.timer = .take i)
    (head : (s.bucket i).head = some p) :
    Placed ((s.onBucket i ({ · with head := none })).toTimer (.takeReset i p))
      (Function.update queues i []) := by
  obtain ⟨place, rest, sh⟩ := h
  have first : s.layout.head i = some p := head
  refine ⟨fun q => if q ∈ queues i then .chained else place q, queues i, ?_⟩
  have taken := Shape.take (b := i) sh
  rw [layout_toTimer (by change s.timer.popped = false; rw [htimer]; rfl) rfl, layout_onBucket]
  rw [first] at taken
  exact taken

omit [DecidableEq τ] in
theorem take_none {i : ℕ} (h : Placed s queues) (head : (s.bucket i).head = none) :
    Function.update queues i [] = queues := by
  obtain ⟨place, rest, sh⟩ := h
  have path := sh.queue i
  have first : s.layout.head i = none := head
  rw [first] at path
  rw [← path.eq_nil, Function.update_eq_self]

omit [DecidableEq τ] in
theorem visit {i : ℕ} {v : Version} (h : Placed s queues) (htimer : s.timer = .visit i (some p)) :
    Placed (s.toTimer (.tryLoad (.chain i) p v)) queues := by
  obtain ⟨place, rest, sh⟩ := h
  have view : s.layout.view = .chain (some p) := congrArg TimerPc.view htimer
  obtain ⟨place', rest', visited⟩ := sh.visit view
  refine ⟨place', rest', ?_⟩
  rw [layout_toTimer (by rw [htimer]; rfl) rfl]
  exact visited

omit [DecidableEq τ] in
theorem layout_returnResource (s : State τ) (p : Slot) : (s.returnResource p).layout =
    { s.layout with
      allocated := Function.update s.layout.allocated (s.layout.idSlot p) false } := rfl

omit [DecidableEq τ] in
theorem tryReturn {site : Site} (h : Placed s queues) (htimer : s.timer = .tryReturn site p) :
    Placed ((s.returnResource p).toTimer (State.deleted p site)) queues := by
  obtain ⟨place, rest, sh⟩ := h
  cases site with
  | chain i =>
    have view : s.layout.view = .cursor p := congrArg TimerPc.view htimer
    obtain ⟨place', given⟩ := sh.giveBack view
    refine ⟨place', rest, ?_⟩
    rw [layout_toTimer (by change s.timer.popped = false; rw [htimer]; rfl) rfl,
      layout_returnResource]
    exact given
  | heap =>
    have looks := sh.looks
    have view : s.layout.view = .top p := congrArg TimerPc.view htimer
    rw [view] at looks
    obtain ⟨tail, front⟩ := looks
    obtain ⟨place', dropped⟩ := sh.dropTop front
    refine ⟨place', rest, ?_⟩
    have tasks : s.tasks = p :: tail := (heap_whole (by rw [htimer]; rfl)).symm.trans front
    have heap : ((s.returnResource p).toTimer .popDeleted).heap = tail := congrArg List.tail tasks
    change Shape { (s.returnResource p).layout with
      heap := ((s.returnResource p).toTimer .popDeleted).heap
      popped := true
      view := .away } place' queues rest
    rw [heap]
    exact dropped

omit [DecidableEq τ] in
theorem advance {i : ℕ} (h : Placed s queues) (htimer : s.timer = .advance i p) :
    Placed (s.toTimer (.visit i (s.node p).next)) queues := by
  refine h.turn (by rw [htimer]; rfl) rfl fun place rest looks => ?_
  rw [htimer] at looks
  exact looks.2

omit [DecidableEq τ] in
theorem drain {tail : List Slot} {v : Version} (h : Placed s queues) (htimer : s.timer = .drain)
    (tasks : s.tasks = p :: tail) : Placed (s.toTimer (.tryLoad .heap p v)) queues :=
  h.turn (by rw [htimer]; rfl) rfl fun _ _ _ =>
    ⟨tail, (heap_whole (by rw [htimer]; rfl)).trans tasks⟩

omit [DecidableEq τ] in
theorem runReturn (h : Placed s queues) (htimer : s.timer = .runReturn p) :
    Placed ((s.returnResource p).toTimer .drain) queues := by
  obtain ⟨place, rest, sh⟩ := h
  have view : s.layout.view = .hand p := congrArg TimerPc.view htimer
  obtain ⟨place', released⟩ := sh.release view
  refine ⟨place', rest, ?_⟩
  rw [layout_toTimer (by change s.timer.popped = false; rw [htimer]; rfl) rfl,
    layout_returnResource]
  exact released

omit [DecidableEq τ] in
theorem stepTimer {num : ℕ} (h : Placed s queues) (hstep : s.stepTimer num = some s') :
    Placed s' (queuesAfter s queues .timer) := by
  cases pc : s.timer <;> simp only [State.stepTimer, queuesAfter, pc] at hstep ⊢
  case push | popDeleted | due | popRun | clock | exited | aborted => cases hstep
  all_goals have whole : s.timer.popped = false := by rw [pc]; rfl
  case loopHead => cases hstep; split_ifs <;> exact h.leave whole rfl rfl
  case resetLock =>
    obtain ⟨s₁, lock, rfl⟩ := Option.map_eq_some_iff.mp hstep
    obtain ⟨h₁, -, htimer⟩ := h.lock lock
    exact h₁.leave (by rw [htimer]; exact whole) rfl rfl
  case reset => cases hstep; exact (h.same rfl).leave whole rfl rfl
  case resetUnlock => cases hstep; exact (h.same rfl).leave whole rfl rfl
  case peek i =>
    cases hstep
    split_ifs
    · cases (s.bucket i).head with
      | some p => exact h.leave whole rfl rfl
      | none => exact h.empty whole rfl rfl
    · exact h.leave whole rfl rfl
  case takeLock =>
    obtain ⟨s₁, lock, rfl⟩ := Option.map_eq_some_iff.mp hstep
    obtain ⟨h₁, -, htimer⟩ := h.lockBucket lock
    exact h₁.leave (by rw [htimer]; exact whole) rfl rfl
  case take i =>
    split at hstep <;> rename_i head <;> cases hstep
    · exact h.take pc head
    · rw [h.take_none head]
      exact h.empty whole rfl rfl
  case takeReset i p =>
    cases hstep
    exact (h.same (layout_sameBucket s i _ rfl)).stay pc rfl rfl rfl
  case takeUnlock i head => cases hstep; exact (h.unlockBucket i).stay pc rfl rfl rfl
  case visit i p =>
    cases p with
    | none => cases hstep; exact h.leave whole rfl rfl
    | some p => cases hstep; exact h.visit pc
  case tryLoad site p v =>
    cases hstep
    split_ifs
    · exact h.stay pc rfl rfl rfl
    · cases site <;> exact h.stay pc rfl rfl rfl
  case tryCheck =>
    cases hstep
    split_ifs
    · exact h.stay pc rfl rfl rfl
    · exact h.leave whole rfl rfl
  case tryReturn => cases hstep; exact h.tryReturn pc
  case advance => cases hstep; exact h.advance pc
  case drain =>
    split at hstep <;> rename_i tasks <;> cases hstep
    · exact h.leave whole rfl rfl
    · exact h.drain pc tasks
  case runCas p v =>
    split_ifs at hstep <;> cases hstep
    · exact (h.same (layout_sameNode s p _ rfl rfl rfl)).stay pc rfl rfl rfl
    · exact h.stay pc rfl rfl rfl
    · exact h.leave whole rfl rfl
  case runCall => cases hstep; exact h.stay pc rfl rfl rfl
  case runStore p v =>
    cases hstep
    exact (h.same (layout_sameNode s p _ rfl rfl rfl)).stay pc rfl rfl rfl
  case runReturn => cases hstep; exact h.runReturn pc
  case nextRun => cases hstep; exact h.leave whole rfl rfl
  case waitLock | relock =>
    obtain ⟨s₁, lock, rfl⟩ := Option.map_eq_some_iff.mp hstep
    obtain ⟨h₁, -, htimer⟩ := h.lock lock
    exact h₁.leave (by rw [htimer]; exact whole) rfl rfl
  case waitCompare =>
    split_ifs at hstep <;> cases hstep
    · exact h.leave whole rfl rfl
    · exact (h.same rfl).leave whole rfl rfl
  case continueUnlock | wait | waitUnlock => cases hstep; exact (h.same rfl).leave whole rfl rfl
  case blocked deadline woken => cases woken <;> cases hstep; exact h.leave whole rfl rfl

omit [DecidableEq τ] in
theorem arrange {tasks : List Slot} (h : Placed s queues) (hstep : s.arrange tasks = some s') :
    Placed s' queues := by
  obtain ⟨place, rest, sh⟩ := h
  obtain ⟨least, ⟨i, p, pc, perm, rfl⟩ | ⟨pc, perm, rfl⟩ | ⟨p, pc, perm, rfl⟩⟩ :=
    State.arrange_cases hstep
  · have heap : s.layout.heap = s.tasks := heap_whole (by rw [pc]; rfl)
    have view : s.layout.view = .cursor p := congrArg TimerPc.view pc
    obtain ⟨place', pushed⟩ := sh.push view (heap ▸ perm) least
    exact ⟨place', rest, pushed⟩
  · have heap : s.layout.heap = s.tasks.tail := by
      simp [State.layout, State.heap, pc, TimerPc.popped]
    rw [← heap] at perm
    exact ⟨place, rest, sh.reheap (fun q hq => sh.heaped q (perm.mem_iff.mp hq))
      (perm.nodup_iff.mpr sh.nodup) (fun _ => least) trivial⟩
  · have looks := sh.looks
    have view : s.layout.view = .top p := congrArg TimerPc.view pc
    rw [view] at looks
    obtain ⟨tail, front⟩ := looks
    have heap : s.layout.heap = s.tasks := heap_whole (by rw [pc]; rfl)
    rw [← heap, front] at perm
    obtain ⟨place', run⟩ := sh.popRun front perm least
    exact ⟨place', rest, run⟩

omit [DecidableEq τ] in
theorem readClock {now : ℕ} (h : Placed s queues) (hstep : s.readClock now = some s') :
    Placed s' queues := by
  obtain ⟨p, pc, rfl⟩ | ⟨next, pc, rfl⟩ := State.readClock_cases hstep
  · split_ifs
    · exact h.leave (by rw [pc]; rfl) rfl rfl
    · exact h.stay pc rfl rfl rfl
  · exact h.leave (by rw [pc]; rfl) rfl rfl

theorem act {num : ℕ} {a : Action τ} (h : Placed s queues) (fits : a.fits = true)
    (settled : s.settled a = true) (hstep : s.act num a = some s') :
    Placed s' (queuesAfter s queues a) := by
  cases a with
  | schedule t c =>
    obtain ⟨pc, available, -, -, rfl⟩ := State.act_schedule hstep
    exact h.schedule pc available (of_decide_eq_true fits) settled
  | unschedule t id =>
    obtain ⟨pc, -, rfl⟩ := State.act_unschedule hstep
    exact h.goto (congrArg Pc.holds pc).symm (congrArg Pc.made pc).symm
  | stop t =>
    obtain ⟨pc, rfl⟩ := State.act_stop hstep
    exact h.goto (congrArg Pc.holds pc).symm (congrArg Pc.made pc).symm
  | step t => exact h.stepThread hstep
  | timer => exact h.stepTimer hstep
  | arrange tasks => exact h.arrange hstep
  | clock now => exact h.readClock hstep
  | timeout =>
    obtain ⟨deadline, woken, pc, rfl⟩ := State.act_timeout hstep
    exact h.leave (by rw [pc]; rfl) rfl rfl

omit [DecidableEq τ] in
theorem init (node : Slot → Node) : Placed (initial τ node) fun _ => [] :=
  ⟨fun _ => .free, [],
    { free := fun _ _ => rfl
      fits := fun _ no => absurd no Bool.false_ne_true
      holds := fun _ _ no => absurd no.symm (Option.some_ne_none _)
      made := fun _ _ no => absurd no.symm (Option.some_ne_none _)
      ids := fun _ no => absurd no Bool.false_ne_true
      queue := fun _ => rfl
      queued := fun _ _ no => absurd no List.not_mem_nil
      rested := fun _ no => absurd no List.not_mem_nil
      heaped := fun _ no => absurd no List.not_mem_nil
      nodup := List.nodup_nil
      least := fun _ => trivial
      looks := trivial }⟩

omit [DecidableEq τ] in
theorem mem_of_top (h : Placed s queues) (view : s.timer.view = .top p) : p ∈ s.heap := by
  obtain ⟨place, rest, sh⟩ := h
  have looks := sh.looks
  change Looks s.layout place rest s.timer.view at looks
  rw [view] at looks
  obtain ⟨tail, front⟩ := looks
  change s.heap = p :: tail at front
  rw [front]
  exact List.mem_cons_self

omit [DecidableEq τ] in
theorem id_of_hand (h : Placed s queues) (hand : s.timer.view = .hand p) :
    s.idSlot p = p := by
  obtain ⟨place, rest, sh⟩ := h
  have looks := sh.looks
  change Looks s.layout place rest s.timer.view at looks
  rw [hand] at looks
  change place p = .hand at looks
  exact sh.ids p (by rw [looks]; rfl)

omit [DecidableEq τ] in
/-- A slot the timer thread works on, or has on the heap, is not with the pool and not
with a thread that is about to link it. -/
theorem busy (h : Placed s queues)
    (busy : p ∈ s.heap ∨ s.timer.view = .cursor p ∨ s.timer.view = .hand p) :
    s.allocated p = true ∧ ∀ t, (s.pc t).holds ≠ some p := by
  obtain ⟨place, rest, sh⟩ := h
  have out : (place p).out = true := by
    have looks := sh.looks
    change Looks s.layout place rest s.timer.view at looks
    rcases busy with heaped | view | view
    · rw [sh.heaped p heaped]
      rfl
    · rw [view] at looks
      rw [looks.1]
      rfl
    · rw [view] at looks
      change place p = .hand at looks
      rw [looks]
      rfl
  refine ⟨?_, fun t held => ?_⟩
  · cases owned : s.allocated p with
    | true => rfl
    | false =>
      rw [sh.free p owned] at out
      cases out
  · rw [sh.holds t p held] at out
    cases out

omit [DecidableEq τ] in
/-- The slot of a call that has not been linked is in no queue, not on the heap and in
no other call. -/
theorem apart (h : Placed s queues) (mine : (s.pc t).holds = some p) :
    (∀ b, p ∉ queues b) ∧ p ∉ s.heap ∧ ∀ u, (s.pc u).holds = some p → u = t := by
  obtain ⟨place, rest, sh⟩ := h
  have held := sh.holds t p mine
  refine ⟨fun b hb => ?_, fun hx => ?_, fun u hu => ?_⟩
  · cases held.symm.trans (sh.queued b p hb)
  · cases held.symm.trans (sh.heaped p hx)
  · cases held.symm.trans (sh.holds u p hu)
    rfl

omit [DecidableEq τ] in
theorem least (h : Placed s queues) (whole : s.timer.popped = false) :
    Least s.runTime s.tasks := by
  obtain ⟨place, rest, sh⟩ := h
  have least := sh.least whole
  rw [heap_whole whole] at least
  exact least

omit [DecidableEq τ] in
theorem least_of_top {q : Slot} (h : Placed s queues) (view : s.timer.view = .top p)
    (hq : q ∈ s.tasks) : s.runTime p ≤ s.runTime q := by
  have whole : s.timer.popped = false := by
    cases timer : s.timer <;> rw [timer] at view <;> first | rfl | cases view
  have least := h.least whole
  obtain ⟨place, rest, sh⟩ := h
  have looks := sh.looks
  change Looks s.layout place rest s.timer.view at looks
  rw [view] at looks
  obtain ⟨tail, front⟩ := looks
  rw [heap_whole whole] at front
  rw [front] at least hq
  exact least.le hq

end Placed

end

end Codelab.TimerThread
