import Codelab.LocalPoolExclusive
import Codelab.Theory.History

/-! What becomes of a returned id. `get_or_new_local_pool` reads `_local_pool` and never
stores it, so every call works on a `LocalPool` of its own and leaves it behind. -/

namespace Codelab.LocalPool

variable {τ : Type} [DecidableEq τ]

/-- `last t` is the id of a `return_resource` of thread `t` that has succeeded, as long as the
thread has called no more since than one `get_resource`; `fetched t` says whether the latest
`get_resource` of the thread has begun `add_block`; `given` has all ids returned so far. -/
structure Past (τ : Type) where
  last : τ → Option ℕ
  fetched : τ → Bool
  given : List ℕ

namespace Past

def start (_ : State τ) : Past τ where
  last _ := none
  fetched _ := false
  given := []

def give (past : Past τ) (t : τ) (id : ℕ) : Past τ :=
  { past with last := Function.update past.last t (some id), given := id :: past.given }

def drop (past : Past τ) (t : τ) : Past τ :=
  { past with last := Function.update past.last t none }

def fetch (past : Past τ) (t : τ) (begun : Bool) : Past τ :=
  { past with fetched := Function.update past.fetched t begun }

def note (s : State τ) (a : Action τ) (s' : State τ) (past : Past τ) : Past τ :=
  match a with
  | .getResource t => past.fetch t false
  | .returnResource t _ | .exit t _ => past.drop t
  | .give _ _ _ => past
  | .step t _ =>
    match s.pc t, s'.pc t with
    | .put _ id, .idle => past.give t id
    | .push _ (some id) _, .idle => past.give t id
    | .ret _, _ => past.drop t
    | .bump _, .fetch _ => past.fetch t true
    | _, _ => past

end Past

variable [Fintype τ]

/-- The pool as it stands, with the record of what has been returned. -/
def recordedMachine (τ : Type) [Fintype τ] [DecidableEq τ] :
    Machine (State τ × Past τ) (Action τ) :=
  (machine false τ).recorded Past.start Past.note

/-- Nothing in the repository destroys a `LocalPool`. -/
def kept : Action τ → Bool
  | .exit _ _ => false
  | _ => true

omit [DecidableEq τ] [Fintype τ] in
/-- The id is in the free list of a pool that no thread has a pointer to. -/
def State.Stranded (s : State τ) (id : ℕ) : Prop :=
  ∃ lp, lp < s.nextPool ∧ id ∈ (s.pool lp).curFree ∧ ∀ t, ¬ s.uses t lp

/-- A call works on a pool in which nothing has been put, and an id that `get_resource` returns
comes from a block it has fetched. -/
@[simp] def Pc.Lone (pool : ℕ → Members) (fetched : Bool) : Pc → Prop
  | .get lp | .peek lp | .bump lp => (pool lp).curFree = [] ∧ (pool lp).curBlock = none
  | .fetch lp | .place lp | .grow lp _ => (pool lp).curFree = [] ∧ fetched = true
  | .put lp _ => (pool lp).curFree = []
  | .ret id => id ≠ none → fetched = true
  | .idle | .newPool _ => True
  | _ => False

structure Abandoned (s : State τ) (past : Past τ) : Prop where
  localPool : ∀ t, s.localPool t = none
  freeChunks : s.freeChunks = []
  calls : ∀ t, (s.pc t).Lone s.pool (past.fetched t)
  last : ∀ t id, past.last t = some id → id ∈ past.given
  stranded : ∀ id ∈ past.given, s.Stranded id

variable {s s' : State τ} {past past' : Past τ} {t : τ} {p' : Pc} {memory : Bool}

omit [DecidableEq τ] [Fintype τ] in
theorem Pc.Lone.congr {pool pool' : ℕ → Members} {fetched : Bool} {pc : Pc}
    (h : pc.Lone pool fetched) (same : ∀ lp, pc.pool = some lp → pool' lp = pool lp) :
    pc.Lone pool' fetched := by
  cases pc with
  | get lp => simpa only [Pc.Lone, same lp rfl] using h
  | peek lp => simpa only [Pc.Lone, same lp rfl] using h
  | bump lp => simpa only [Pc.Lone, same lp rfl] using h
  | fetch lp => simpa only [Pc.Lone, same lp rfl] using h
  | place lp => simpa only [Pc.Lone, same lp rfl] using h
  | grow lp id => simpa only [Pc.Lone, same lp rfl] using h
  | put lp id => simpa only [Pc.Lone, same lp rfl] using h
  | _ => exact h

omit [DecidableEq τ] [Fintype τ] in
theorem abandoned_initial : Abandoned (initial τ) (Past.start (initial τ)) where
  localPool _ := rfl
  freeChunks := rfl
  calls _ := trivial
  last := by rintro t id ⟨⟩
  stranded id mem := absurd mem List.not_mem_nil

omit [Fintype τ] in
/-- A thread moves on in a pool that no one else has a pointer to. What was stranded stays so. -/
theorem Abandoned.move (h : Abandoned s past) (users : Users s)
    (pc : s'.pc = Function.update s.pc t p') (localPool : s'.localPool = s.localPool)
    (freeChunks : s'.freeChunks = s.freeChunks) (grow : s.nextPool ≤ s'.nextPool)
    (pool : ∀ lp, s'.pool lp = s.pool lp ∨ (s.pc t).pool = some lp ∨ s.nextPool ≤ lp)
    (turn : ∀ lp, p'.pool = some lp → (s.pc t).pool = some lp ∨ s.nextPool ≤ lp)
    (lone : p'.Lone s'.pool (past'.fetched t))
    (fetched : ∀ u, u ≠ t → past'.fetched u = past.fetched u)
    (last : ∀ u id, past'.last u = some id → id ∈ past'.given)
    (given : ∀ id ∈ past'.given, id ∈ past.given ∨ s'.Stranded id) : Abandoned s' past' := by
  have uses (u : τ) (lp : ℕ) (use : s'.uses u lp) : s.uses u lp ∨ s.nextPool ≤ lp := by
    rw [State.uses, pc, localPool] at use
    rcases use with busy | own
    · by_cases same : u = t
      · rw [same, Function.update_self] at busy
        rw [same]
        exact (turn lp busy).imp .inl id
      · rw [Function.update_of_ne same] at busy
        exact .inl (.inl busy)
    · exact .inl (.inr own)
  refine ⟨fun u => ?_, freeChunks.trans h.freeChunks, fun u => ?_, last, fun id mem => ?_⟩
  · rw [localPool]
    exact h.localPool u
  · rw [pc]
    by_cases same : u = t
    · rw [same, Function.update_self]
      exact lone
    · rw [Function.update_of_ne same, fetched u same]
      refine (h.calls u).congr fun lp busy => ?_
      rcases pool lp with kept | mine | new
      · exact kept
      · exact absurd (users.single u t lp (.inl busy) (.inl mine)) same
      · exact absurd (users.made u lp (.inl busy)) (Nat.not_lt.mpr new)
  · rcases given id mem with old | new
    · obtain ⟨lp, made, shelved, unused⟩ := h.stranded id old
      refine ⟨lp, made.trans_le grow, ?_, fun u use => ?_⟩
      · rcases pool lp with kept | mine | new
        · rwa [kept]
        · exact absurd (.inl mine) (unused t)
        · exact absurd made (Nat.not_lt.mpr new)
      · rcases uses u lp use with before | new
        · exact unused u before
        · exact absurd made (Nat.not_lt.mpr new)
    · exact new

omit [Fintype τ] in
/-- A step that puts nothing into a free list. -/
theorem Abandoned.quiet (h : Abandoned s past) (users : Users s)
    (pc : s'.pc = Function.update s.pc t p') (localPool : s'.localPool = s.localPool)
    (freeChunks : s'.freeChunks = s.freeChunks) (grow : s.nextPool ≤ s'.nextPool)
    (pool : ∀ lp, s'.pool lp = s.pool lp ∨ (s.pc t).pool = some lp ∨ s.nextPool ≤ lp)
    (turn : ∀ lp, p'.pool = some lp → (s.pc t).pool = some lp ∨ s.nextPool ≤ lp)
    (lone : p'.Lone s'.pool (past.fetched t)) : Abandoned s' past :=
  h.move users pc localPool freeChunks grow pool turn lone (fun _ _ => rfl) h.last
    fun _ mem => .inl mem

omit [Fintype τ] in
/-- A thread moves on in its pool, or leaves it. -/
theorem Abandoned.goto (h : Abandoned s past) (users : Users s)
    (turn : ∀ lp, p'.pool = some lp → (s.pc t).pool = some lp)
    (lone : p'.Lone s.pool (past.fetched t)) : Abandoned (s.goto t p') past :=
  h.quiet users rfl rfl rfl le_rfl (fun _ => .inl rfl) (fun lp busy => .inl (turn lp busy)) lone

omit [DecidableEq τ] [Fintype τ] in
/-- A write to the pool the thread works on or to a new one leaves the other pools. -/
theorem State.update_pool {lp : ℕ} (m : Members)
    (mine : (s.pc t).pool = some lp ∨ s.nextPool ≤ lp) (x : ℕ) :
    Function.update s.pool lp m x = s.pool x ∨ (s.pc t).pool = some x ∨ s.nextPool ≤ x := by
  by_cases same : x = lp
  · exact .inr (same ▸ mine)
  · exact .inl (Function.update_of_ne same _ _)

omit [Fintype τ] in
/-- `return_resource` puts the id into its pool and goes, and with it the only pointer. -/
theorem Abandoned.put (h : Abandoned s past) (users : Users s) {lp id : ℕ}
    (here : s.pc t = .put lp id) :
    Abandoned ((s.setPool lp { s.pool lp with curFree := id :: (s.pool lp).curFree }).goto t .idle)
      (past.give t id) := by
  have mine : (s.pc t).pool = some lp := by rw [here]; rfl
  refine h.move users rfl rfl rfl le_rfl (State.update_pool _ (.inl mine)) (by rintro x ⟨⟩) trivial
    (fun _ _ => rfl) (fun u x last => ?_) fun x mem => ?_
  · by_cases same : u = t
    · have this : Function.update past.last t (some id) u = some x := last
      rw [same, Function.update_self] at this
      exact List.mem_cons.mpr (.inl (Option.some.inj this).symm)
    · have old : Function.update past.last t (some id) u = some x := last
      rw [Function.update_of_ne same] at old
      exact List.mem_cons_of_mem id (h.last u x old)
  · rcases List.mem_cons.mp mem with rfl | old
    · refine .inr ⟨lp, users.made t lp (.inl mine), ?_, fun u use => ?_⟩
      · change x ∈ (Function.update s.pool lp _ lp).curFree
        rw [Function.update_self]
        exact List.mem_cons_self
      · rcases use with busy | own
        · by_cases same : u = t
          · have gone : (Function.update s.pc t .idle u).pool = some lp := busy
            rw [same, Function.update_self] at gone
            cases gone
          · have busy : (Function.update s.pc t .idle u).pool = some lp := busy
            rw [Function.update_of_ne same] at busy
            exact same (users.single u t lp (.inl busy) (.inl mine))
        · have own : s.localPool u = some lp := own
          rw [h.localPool u] at own
          cases own
    · exact .inl old

omit [Fintype τ] in
theorem Abandoned.of_drop (h : Abandoned s past) (u : τ) (id : ℕ)
    (last : (past.drop t).last u = some id) : id ∈ past.given := by
  by_cases same : u = t
  · have none : Function.update past.last t none u = some id := last
    rw [same, Function.update_self] at none
    cases none
  · have old : Function.update past.last t none u = some id := last
    rw [Function.update_of_ne same] at old
    exact h.last u id old

omit [Fintype τ] in
@[simp] theorem Past.fetch_self (past : Past τ) (begun : Bool) :
    (past.fetch t begun).fetched t = begun := Function.update_self _ _ _

omit [Fintype τ] in
theorem Past.fetch_other {u : τ} (past : Past τ) (begun : Bool) (apart : u ≠ t) :
    (past.fetch t begun).fetched u = past.fetched u := Function.update_of_ne apart _ _

omit [Fintype τ] in
theorem Abandoned.fetchBlock (h : Abandoned s past) (users : Users s) {lp : ℕ}
    (here : s.pc t = .bump lp) (next : s.fetchBlock t lp = some s') :
    Abandoned s' (past.fetch t true) := by
  obtain ⟨blocks, -, rfl⟩ := Option.map_eq_some_iff.mp next
  have lone := h.calls t
  rw [here] at lone
  refine h.move users rfl rfl rfl le_rfl (fun _ => .inl rfl) (fun x busy => .inl ?_)
    ⟨lone.1, past.fetch_self true⟩ (fun u => past.fetch_other true) h.last
    fun _ mem => .inl mem
  rw [here]
  exact busy

omit [Fintype τ] in
theorem Abandoned.addBlock (h : Abandoned s past) (users : Users s) {lp : ℕ}
    (here : s.pc t = .fetch lp) (next : s.addBlock t lp memory = some s') :
    Abandoned s' past := by
  obtain ⟨blocks, -, rfl⟩ := Option.map_eq_some_iff.mp next
  have lone := h.calls t
  rw [here] at lone
  have mine : (s.pc t).pool = some lp := by rw [here]; rfl
  cases s.blocks.pc t with
  | found index b =>
    refine h.quiet users rfl rfl rfl le_rfl (State.update_pool _ (.inl mine))
      (fun x busy => .inl (mine.trans busy)) ⟨?_, lone.2⟩
    change (Function.update s.pool lp _ lp).curFree = []
    rw [Function.update_self]
    exact lone.1
  | null b =>
    exact h.quiet users rfl rfl rfl le_rfl (State.update_pool _ (.inl mine)) (by rintro x ⟨⟩)
      fun some => absurd rfl some
  | _ =>
    exact h.quiet users (show s.pc = Function.update s.pc t (.fetch lp) by
      rw [← here, Function.update_eq_self]) rfl rfl le_rfl (fun _ => .inl rfl)
      (fun x busy => .inl (mine.trans busy)) lone

omit [Fintype τ] in
theorem Abandoned.step (h : Abandoned s past) (users : Users s)
    (next : s.step false t memory = some s') :
    Abandoned s' (Past.note s (.step t memory) s' past) := by
  have lone := h.calls t
  have goto (s : State τ) (pc : Pc) : (s.goto t pc).pc t = pc := Function.update_self _ _ _
  cases here : s.pc t with
  | idle =>
    rw [State.step, here] at next
    cases next
  | newPool id =>
    simp only [State.step, here, Option.some.injEq] at next
    subst next
    have noted (s' : State τ) : Past.note s (.step t memory) s' past = past := by
      simp only [Past.note, here]
    rw [noted]
    have fresh (m : Members) : Function.update s.pool s.nextPool m s.nextPool = m :=
      Function.update_self _ _ _
    cases memory <;> cases id
    case true.none =>
      refine h.quiet users rfl rfl rfl (Nat.le_succ _) (State.update_pool _ (.inr le_rfl))
        (fun x busy => .inr ?_) ⟨?_, ?_⟩
      · exact (Option.some.inj busy).le
      · exact congrArg Members.curFree (fresh _)
      · exact congrArg Members.curBlock (fresh _)
    case true.some id =>
      refine h.quiet users rfl rfl rfl (Nat.le_succ _) (State.update_pool _ (.inr le_rfl))
        (fun x busy => .inr ?_) ?_
      · exact (Option.some.inj busy).le
      · exact congrArg Members.curFree (fresh _)
    case false.none =>
      exact h.quiet users rfl rfl rfl le_rfl (fun _ => .inl rfl) (by rintro x ⟨⟩)
        fun some => absurd rfl some
    case false.some id =>
      exact h.quiet users rfl rfl rfl le_rfl (fun _ => .inl rfl) (by rintro x ⟨⟩) trivial
  | get lp =>
    rw [here] at lone
    simp only [State.step, here, lone.1, Option.some.injEq] at next
    subst next
    simp only [Past.note, here]
    exact h.goto users (fun x busy => by rw [here]; exact busy) lone
  | peek lp =>
    rw [here] at lone
    simp only [State.step, here, h.freeChunks, if_true, Option.some.injEq] at next
    subst next
    simp only [Past.note, here]
    exact h.goto users (fun x busy => by rw [here]; exact busy) lone
  | bump lp =>
    rw [here] at lone
    simp only [State.step, here, lone.2] at next
    have moved : s'.pc t = .fetch lp := by
      obtain ⟨blocks, -, rfl⟩ := Option.map_eq_some_iff.mp next
      exact goto s (.fetch lp)
    simp only [Past.note, here, moved]
    exact h.fetchBlock users here next
  | fetch lp =>
    simp only [State.step, here] at next
    simp only [Past.note, here]
    exact h.addBlock users here next
  | place lp =>
    rw [here] at lone
    simp only [State.step, here] at next
    split at next
    · obtain rfl := Option.some.inj next
      simp only [Past.note, here]
      exact h.quiet users rfl rfl rfl le_rfl (fun _ => .inl rfl)
        (fun x busy => .inl (by rw [here]; exact busy)) lone
    · cases next
  | grow lp id =>
    rw [here] at lone
    simp only [State.step, here] at next
    split at next
    · obtain rfl := Option.some.inj next
      simp only [Past.note, here]
      exact h.quiet users rfl rfl rfl le_rfl (fun _ => .inl rfl) (by rintro x ⟨⟩)
        fun _ => lone.2
    · cases next
  | ret id =>
    simp only [State.step, here, Option.some.injEq] at next
    subst next
    simp only [Past.note, here]
    exact h.move users rfl rfl rfl le_rfl (fun _ => .inl rfl) (by rintro x ⟨⟩) trivial
      (fun _ _ => rfl) h.of_drop fun _ mem => .inl mem
  | put lp id =>
    rw [here] at lone
    have room : (s.pool lp).curFree.length < freeChunkNitem := by
      rw [show (s.pool lp).curFree = [] from lone]
      decide
    simp only [State.step, here, if_pos room, Option.some.injEq] at next
    subst next
    simp only [Past.note, here, goto]
    exact h.put users here
  | _ =>
    rw [here] at lone
    exact lone.elim

theorem Abandoned.act (h : Abandoned s past) (users : Users s) {a : Action τ}
    (stays : kept a = true)
    (next : s.act false a = some s') : Abandoned s' (Past.note s a s' past) := by
  cases a with
  | getResource t =>
    simp only [State.act] at next
    split_ifs at next
    obtain rfl := Option.some.inj next
    rw [State.getOrNewLocalPool, h.localPool t]
    exact h.move users rfl rfl rfl le_rfl (fun _ => .inl rfl) (by rintro x ⟨⟩) trivial
      (fun u => past.fetch_other false) h.last fun _ mem => .inl mem
  | returnResource t id =>
    simp only [State.act] at next
    split_ifs at next
    obtain rfl := Option.some.inj next
    rw [State.getOrNewLocalPool, show (s.setHeld t _).localPool t = none from h.localPool t]
    exact h.move users rfl rfl rfl le_rfl (fun _ => .inl rfl) (by rintro x ⟨⟩) trivial
      (fun _ _ => rfl) h.of_drop fun _ mem => .inl mem
  | give t u id =>
    simp only [State.act] at next
    split_ifs at next
    obtain rfl := Option.some.inj next
    exact ⟨h.localPool, h.freeChunks, h.calls, h.last, h.stranded⟩
  | exit t lp => cases stays
  | step t memory => exact h.step users next

/-- The run of a pool none of whose local pools is destroyed. -/
theorem abandoned_reachable {p : State τ × Past τ}
    (h : (recordedMachine τ).ReachableBy (fun _ a => kept a) p) :
    Inv p.1 ∧ Abandoned p.1 p.2 := by
  refine h.recorded_invariant (fun s past => Inv s ∧ Abandoned s past) (fun s start => ?_)
    fun s a s' past before stays next => ?_
  · obtain rfl : s = initial τ := start
    exact ⟨inv_initial, abandoned_initial⟩
  · exact ⟨before.1.act next, before.2.act before.1.users stays next⟩

/-- A `get_resource` after a successful `return_resource` of the same thread does not give the
id back, and allocates a block or fails. Whatever has been returned is in a free list that no
thread can reach. -/
theorem never_reused {p : State τ × Past τ}
    (h : (recordedMachine τ).ReachableBy (fun _ a => kept a) p) :
    (∀ t id r, p.2.last t = some id → p.1.pc t = .ret r →
      r ≠ some id ∧ (r ≠ none → p.2.fetched t = true)) ∧
    ∀ id ∈ p.2.given, p.1.Stranded id := by
  obtain ⟨inv, abandoned⟩ := abandoned_reachable h
  refine ⟨fun t id r last here => ⟨?_, fun some => ?_⟩, abandoned.stranded⟩
  · rintro rfl
    obtain ⟨lp, made, mem, -⟩ := abandoned.stranded id (abandoned.last t id last)
    exact (inv.apart.apart id (State.shelved_pos made mem) t).2 here
  · have lone := abandoned.calls t
    rw [here] at lone
    exact lone some

/-- A thread gets id 0, returns it and gets again. -/
theorem second_get : ∃ p : State (Fin 1) × Past (Fin 1),
    (recordedMachine (Fin 1)).ReachableBy (fun _ a => kept a) p ∧ p.2.last 0 = some 0 ∧
    p.1.pc 0 = .ret (some 128) ∧ 0 ∈ p.2.given := by
  have ran : ((recordedMachine (Fin 1)).runBy (fun _ a => kept a)
      (initial (Fin 1), Past.start (initial (Fin 1)))
      (.getResource 0 :: List.replicate 20 (.step 0 true) ++ .returnResource 0 0 ::
        List.replicate 2 (.step 0 true) ++ .getResource 0 :: List.replicate 12 (.step 0 true))).map
      (fun p => (p.2.last 0, p.1.pc 0, p.2.given)) = some (some 0, .ret (some 128), [0]) := by
    decide +kernel
  obtain ⟨p, run, seen⟩ := Option.map_eq_some_iff.mp ran
  have start : (recordedMachine (Fin 1)).ReachableBy (fun _ a => kept a)
      (initial (Fin 1), Past.start (initial (Fin 1))) := .init ⟨rfl, rfl⟩
  obtain ⟨last, seen⟩ := Prod.mk.inj seen
  obtain ⟨here, given⟩ := Prod.mk.inj seen
  refine ⟨p, Machine.runBy_reachable start run, last, here, ?_⟩
  rw [given]
  exact List.mem_singleton_self 0

/-- The second get has begun `add_block`, and id 0 is out of reach. -/
theorem never_reused_second : ∃ p : State (Fin 1) × Past (Fin 1), p.2.last 0 = some 0 ∧
    p.1.pc 0 = .ret (some 128) ∧ p.2.fetched 0 = true ∧ p.1.Stranded 0 := by
  obtain ⟨p, reached, last, here, given⟩ := second_get
  obtain ⟨gets, stranded⟩ := never_reused reached
  exact ⟨p, last, here, (gets 0 0 (some 128) last here).2 (by simp), stranded 0 given⟩

/-- It is not so that a get after a return gives the same id and allocates no block. -/
theorem another_returned : ¬ ∀ p : State (Fin 1) × Past (Fin 1),
    (recordedMachine (Fin 1)).ReachableBy (fun _ a => kept a) p → ∀ t id r,
      p.2.last t = some id → p.1.pc t = .ret r → r = some id ∧ p.2.fetched t = false := by
  intro reuses
  obtain ⟨p, reached, last, here, -⟩ := second_get
  cases (reuses p reached 0 0 (some 128) last here).1

end Codelab.LocalPool
