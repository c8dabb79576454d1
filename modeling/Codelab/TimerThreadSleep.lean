import Codelab.TimerThreadLocks
import Codelab.TimerThreadPlaces

/-! The timer thread does not oversleep. A bucket's `_nearest_run_time` bounds the
tasks linked in it, but for one whose call is just comparing; the timer thread's
bounds those of the buckets it has drained in this round, but for calls that have
not compared with it yet; and while it sleeps its deadline is no later than its
`_nearest_run_time`, but for a wake-up that is still to be issued. -/

namespace Codelab.TimerThread

open TimerTaskId

variable {τ : Type*}

/-- What a thread's `schedule` call still owes: `written` its node is filled in and not
linked, `comparing` it has just linked it, `earlier` it was the earliest of its bucket
and has not compared with the timer thread's time, `waking` it was the earliest of all
and has not issued its wake-up. -/
structure Stance (Slot : Type*) where
  written : Option (Call) := none
  comparing : Option (Call) := none
  earlier : Option (Call) := none
  waking : Option (Call) := none
  stopping : Bool := false

def Pc.stance : Pc → Stance Slot
  | .schedAdd c => { written := some c }
  | .schedLoad c => { written := some c }
  | .schedMake c _ => { written := some c }
  | .schedLock c _ => { written := some c }
  | .schedLink c _ => { written := some c }
  | .schedCompare c _ => { comparing := some c }
  | .schedUnlock c _ true => { earlier := some c }
  | .nearLock c _ => { earlier := some c }
  | .nearCompare c _ => { earlier := some c }
  | .nearUnlock c _ true => { waking := some c }
  | .wake c _ => { waking := some c }
  | .stopSet => { stopping := true }
  | .stopLock => { stopping := true }
  | .stopZero => { stopping := true }
  | .stopWake => { stopping := true }
  | .stopUnlock => { stopping := true }
  | .stopJoin => { stopping := true }
  | _ => {}

namespace TimerPc

/-- The bucket has been drained in this round. -/
def scanned (b : ℕ) : TimerPc → Bool
  | .peek i => b < i
  | .takeLock i => b < i
  | .take i => b < i
  | .takeReset i _ => b < i
  | .takeUnlock i _ => b ≤ i
  | .visit i _ => b ≤ i
  | .tryLoad (.chain i) _ _ => b ≤ i
  | .tryCheck (.chain i) _ _ => b ≤ i
  | .tryReturn (.chain i) _ => b ≤ i
  | .push i _ => b ≤ i
  | .advance i _ => b ≤ i
  | .loopHead => false
  | .resetLock => false
  | .reset => false
  | .resetUnlock => false
  | .continueUnlock => false
  | .relock => false
  | .waitUnlock => false
  | .exited => false
  | .aborted => false
  | _ => true

/-- The bucket whose queue has been taken and whose time has not been reset. -/
def taking : TimerPc → Option ℕ
  | .takeReset i _ => some i
  | _ => none

def deadline : TimerPc → Option Int
  | .waitLock next => some next
  | .waitCompare next => some next
  | .clock next => some next
  | .wait now dif => some (now + dif)
  | .blocked deadline _ => some deadline
  | _ => none

end TimerPc

structure SleepInv (num : ℕ) (s : State τ) (queues : ℕ → List Slot) : Prop where
  calm : ∀ t, (s.pc t).stance.stopping = false
  bound : s.nearest ≤ maxTime
  written : ∀ t c, (s.pc t).stance.written = some c → s.runTime c.slot = c.runTime
  comparing : ∀ t c, (s.pc t).stance.comparing = some c →
    c.slot ∈ queues c.bucket ∧ s.runTime c.slot = c.runTime
  minimum : ∀ b, ∀ p ∈ queues b, (s.bucket b).nearest ≤ s.runTime p ∨
    ∃ t c, (s.pc t).stance.comparing = some c ∧ c.bucket = b ∧ c.slot = p
  taking : ∀ b, s.timer.taking = some b → queues b = []
  void : ∀ b, queues b = [] → (s.bucket b).nearest = maxTime ∨ s.timer.taking = some b
  scanned : ∀ b, b < num → s.timer.scanned b = true → s.nearest ≤ (s.bucket b).nearest ∨
    ∃ t c, (s.pc t).stance.earlier = some c ∧ c.bucket = b ∧ c.runTime ≤ (s.bucket b).nearest
  committed : ∀ next, s.timer.committed = some next → next ≤ s.nearest
  asleep : ∀ deadline, s.timer.asleep = some deadline → deadline ≤ s.nearest ∨
    ∃ t c, (s.pc t).stance.waking = some c ∧ c.runTime ≤ s.nearest
  heap : ∀ deadline, s.timer.deadline = some deadline → ∀ p ∈ s.tasks, deadline ≤ s.runTime p

/-- A call that has linked its task and has not finished its comparison with the timer
thread's `_nearest_run_time`. -/
def Pc.unfinished : Pc → Option (Call)
  | .schedCompare c _ => some c
  | .schedUnlock c _ true => some c
  | .nearLock c _ => some c
  | .nearCompare c _ => some c
  | _ => none

/-- A call that has found its task to be the earliest of all and has not issued its
wake-up. -/
def Pc.unsignalled : Pc → Option (Call)
  | .nearUnlock c _ true => some c
  | .wake c _ => some c
  | _ => none

def Action.unstopped : Action τ → Bool
  | .stop _ => false
  | _ => true

/-- The task is linked in the bucket. -/
def State.Linked (s : State τ) (b : ℕ) (p : Slot) : Prop :=
  ∃ l, Chain.Path (Node.next ∘ s.node) (s.bucket b).head l ∧ p ∈ l

theorem Placed.queued_of_linked {s : State τ} {queues : ℕ → List Slot} {b : ℕ} {p : Slot}
    (h : Placed s queues) (linked : s.Linked b p) : p ∈ queues b := by
  obtain ⟨place, rest, sh⟩ := h
  obtain ⟨l, path, hp⟩ := linked
  rw [← path.unique (sh.queue b)]
  exact hp

theorem Pc.unfinished_of_comparing {pc : Pc} {c : Call}
    (h : pc.stance.comparing = some c) : pc.unfinished = some c := by
  cases pc with
  | schedUnlock c id earlier => cases earlier <;> cases h
  | nearUnlock c id earlier => cases earlier <;> cases h
  | _ => cases h <;> rfl

theorem Pc.unfinished_of_earlier {pc : Pc} {c : Call}
    (h : pc.stance.earlier = some c) : pc.unfinished = some c := by
  cases pc with
  | schedUnlock c id earlier =>
    cases earlier with
    | false => cases h
    | true =>
      cases h
      rfl
  | nearUnlock c id earlier => cases earlier <;> cases h
  | _ => cases h <;> rfl

theorem Pc.unsignalled_of_waking {pc : Pc} {c : Call}
    (h : pc.stance.waking = some c) : pc.unsignalled = some c := by
  cases pc with
  | schedUnlock c id earlier => cases earlier <;> cases h
  | nearUnlock c id earlier =>
    cases earlier with
    | false => cases h
    | true =>
      cases h
      rfl
  | _ => cases h <;> rfl

theorem TimerPc.popped_of_deadline {timer : TimerPc} {deadline : Int}
    (h : timer.deadline = some deadline) : timer.popped = false := by
  cases timer <;> first | rfl | cases h

theorem TimerPc.locks_of_taking {timer : TimerPc} {b : ℕ} (h : timer.taking = some b) :
    timer.locks.bucket = some b := by
  cases timer <;> cases h
  rfl

theorem Pc.holds_of_written {pc : Pc} {c : Call} (h : pc.stance.written = some c) :
    pc.holds = some c.slot := by
  cases pc with
  | schedUnlock c id earlier => cases earlier <;> cases h
  | nearUnlock c id earlier => cases earlier <;> cases h
  | _ => cases h <;> rfl

theorem Pc.locks_of_comparing {pc : Pc} {c : Call} (h : pc.stance.comparing = some c) :
    pc.locks.bucket = some c.bucket := by
  cases pc with
  | schedUnlock c id earlier => cases earlier <;> cases h
  | nearUnlock c id earlier => cases earlier <;> cases h
  | _ => cases h <;> rfl

namespace SleepInv

variable [DecidableEq τ] {s s' : State τ} {queues : ℕ → List Slot}
  {t : τ} {num : ℕ} {x : Slot} {pc : Pc}

omit [DecidableEq τ] in
theorem quiet (inv : SleepInv num s queues)
    (stance : ∀ u, (s'.pc u).stance = (s.pc u).stance) (nearest : s'.nearest = s.nearest)
    (bucket : ∀ b, (s'.bucket b).nearest = (s.bucket b).nearest)
    (runTime : s'.runTime = s.runTime) (tasks : s'.tasks = s.tasks) (timer : s'.timer = s.timer) :
    SleepInv num s' queues where
  calm := by simpa only [stance] using inv.calm
  bound := by simpa only [nearest] using inv.bound
  written := by simpa only [stance, runTime] using inv.written
  comparing := by simpa only [stance, runTime] using inv.comparing
  minimum := by simpa only [stance, bucket, runTime] using inv.minimum
  taking := by simpa only [timer] using inv.taking
  void := by simpa only [timer, bucket] using inv.void
  scanned := by simpa only [timer, nearest, bucket, stance] using inv.scanned
  committed := by simpa only [timer, nearest] using inv.committed
  asleep := by simpa only [timer, nearest, stance] using inv.asleep
  heap := by simpa only [timer, tasks, runTime] using inv.heap

theorem stance_same (stance : pc.stance = (s.pc t).stance) (hpc : s'.pc = Function.update s.pc t pc)
    (u : τ) : (s'.pc u).stance = (s.pc u).stance := by
  rw [hpc]
  by_cases e : u = t
  · rw [e, Function.update_self, stance]
  · rw [Function.update_of_ne e]

theorem others_exist {owes : Stance Slot → Option (Call)} {Q : Call → Prop}
    (hpc : s'.pc = Function.update s.pc t pc) (none : owes (s.pc t).stance = none)
    (h : ∃ u c, owes (s.pc u).stance = some c ∧ Q c) :
    ∃ u c, owes (s'.pc u).stance = some c ∧ Q c := by
  obtain ⟨u, c, hu, hc⟩ := h
  refine ⟨u, c, ?_, hc⟩
  have e : u ≠ t := by
    rintro rfl
    exact Option.some_ne_none c (hu.symm.trans none)
  rw [hpc, Function.update_of_ne e]
  exact hu

theorem others_all {owes : Stance Slot → Option (Call)} {Q : Call → Prop}
    (hpc : s'.pc = Function.update s.pc t pc) (new : ∀ c, owes pc.stance = some c → Q c)
    (old : ∀ u, u ≠ t → ∀ c, owes (s.pc u).stance = some c → Q c) :
    ∀ u c, owes (s'.pc u).stance = some c → Q c := by
  intro u c hu
  rw [hpc] at hu
  by_cases e : u = t
  · rw [e, Function.update_self] at hu
    exact new c hu
  · rw [Function.update_of_ne e] at hu
    exact old u e c hu

theorem still_calm (inv : SleepInv num s queues) (hpc : s'.pc = Function.update s.pc t pc)
    (calm : pc.stance.stopping = false) : ∀ u, (s'.pc u).stance.stopping = false := by
  intro u
  rw [hpc]
  by_cases e : u = t
  · rw [e, Function.update_self]
    exact calm
  · rw [Function.update_of_ne e]
    exact inv.calm u

omit [DecidableEq τ] in
theorem onBucket_nearest (s : State τ) (b : ℕ) (change : Bucket τ → Bucket τ)
    (same : (change (s.bucket b)).nearest = (s.bucket b).nearest) (c : ℕ) :
    ((s.onBucket b change).bucket c).nearest = (s.bucket c).nearest := by
  by_cases e : c = b
  · subst e
    simpa only [State.onBucket, Function.update_self] using same
  · simp only [State.onBucket, Function.update_of_ne e]

/-- The thread fills in its node. -/
theorem schedWrite {c : Call} (inv : SleepInv num s queues) (placed : Placed s queues)
    (hpc : s.pc t = .schedWrite c) (hpc' : s'.pc = Function.update s.pc t (.schedAdd c))
    (nearest : s'.nearest = s.nearest) (bucket : s'.bucket = s.bucket)
    (self : s'.runTime c.slot = c.runTime)
    (other : ∀ p, p ≠ c.slot → s'.runTime p = s.runTime p) (tasks : s'.tasks = s.tasks)
    (timer : s'.timer = s.timer) : SleepInv num s' queues := by
  obtain ⟨unqueued, unheaped, mine⟩ := placed.apart (congrArg Pc.holds hpc : _ = some c.slot)
  have queued : ∀ b, ∀ p ∈ queues b, s'.runTime p = s.runTime p := by
    intro b p hp
    refine other p ?_
    rintro rfl
    exact unqueued b hp
  have none : (s.pc t).stance = {} := by rw [hpc]; rfl
  exact
  { calm := inv.still_calm hpc' rfl
    bound := by rw [nearest]; exact inv.bound
    written := by
      refine others_all hpc' ?_ fun u e d hd => ?_
      · rintro d ⟨⟩
        exact self
      · rw [other d.slot, inv.written u d hd]
        intro same
        exact e (mine u (same ▸ Pc.holds_of_written hd))
    comparing := by
      refine others_all hpc' (fun d no => absurd no.symm (Option.some_ne_none d)) fun u _ d hd => ?_
      obtain ⟨linked, time⟩ := inv.comparing u d hd
      exact ⟨linked, (queued _ _ linked).trans time⟩
    minimum := by
      intro b p hp
      rw [bucket, queued b p hp]
      exact (inv.minimum b p hp).imp_right (others_exist hpc' (by rw [none]))
    taking := by rw [timer]; exact inv.taking
    void := by rw [timer, bucket]; exact inv.void
    scanned := by
      intro b hb drained
      rw [nearest, bucket]
      exact (inv.scanned b hb (timer ▸ drained)).imp_right (others_exist hpc' (by rw [none]))
    committed := by rw [timer, nearest]; exact inv.committed
    asleep := by
      intro deadline sleeping
      rw [nearest]
      exact (inv.asleep deadline (timer ▸ sleeping)).imp_right (others_exist hpc' (by rw [none]))
    heap := by
      intro deadline waits p hp
      rw [tasks] at hp
      rw [timer] at waits
      rw [other p]
      · exact inv.heap deadline waits p hp
      · rintro rfl
        refine unheaped ?_
        have whole : s.heap = s.tasks := Placed.heap_whole (TimerPc.popped_of_deadline waits)
        exact whole ▸ hp }

/-- The thread links its node. -/
theorem schedLink {c : Call} {id : TaskId} (inv : SleepInv num s queues)
    (locks : LockInv s) (hpc : s.pc t = .schedLink c id)
    (hpc' : s'.pc = Function.update s.pc t (.schedCompare c id)) (nearest : s'.nearest = s.nearest)
    (bucket : ∀ b, (s'.bucket b).nearest = (s.bucket b).nearest) (runTime : s'.runTime = s.runTime)
    (tasks : s'.tasks = s.tasks) (timer : s'.timer = s.timer) :
    SleepInv num s' (Function.update queues c.bucket (c.slot :: queues c.bucket)) := by
  have self : (s'.pc t).stance = { comparing := some c } := by
    rw [hpc', Function.update_self]
    rfl
  have stance : (s.pc t).stance = { written := some c } := by rw [hpc]; rfl
  have grow : ∀ b, ∀ p ∈ queues b,
      p ∈ Function.update queues c.bucket (c.slot :: queues c.bucket) b := by
    intro b p hp
    by_cases e : b = c.bucket
    · subst e
      rw [Function.update_self]
      exact List.mem_cons_of_mem _ hp
    · rw [Function.update_of_ne e]
      exact hp
  have linked : c.slot ∈ Function.update queues c.bucket (c.slot :: queues c.bucket) c.bucket := by
    rw [Function.update_self]
    exact List.mem_cons_self
  have nonempty : ∀ b, Function.update queues c.bucket (c.slot :: queues c.bucket) b = [] →
      b ≠ c.bucket ∧ queues b = [] := by
    intro b empty
    have e : b ≠ c.bucket := by
      rintro rfl
      rw [empty] at linked
      exact List.not_mem_nil linked
    rw [Function.update_of_ne e] at empty
    exact ⟨e, empty⟩
  exact
  { calm := inv.still_calm hpc' rfl
    bound := by rw [nearest]; exact inv.bound
    written := by
      rw [runTime]
      exact others_all hpc' (fun d no => absurd no.symm (Option.some_ne_none d))
        fun u _ d hd => inv.written u d hd
    comparing := by
      rw [runTime]
      refine others_all hpc' ?_ fun u _ d hd => ?_
      · rintro d ⟨⟩
        exact ⟨linked, inv.written t c (by rw [stance])⟩
      · obtain ⟨old, time⟩ := inv.comparing u d hd
        exact ⟨grow _ _ old, time⟩
    minimum := by
      intro b p hp
      rw [bucket, runTime]
      by_cases new : b = c.bucket ∧ p = c.slot
      · obtain ⟨rfl, rfl⟩ := new
        exact .inr ⟨t, c, by rw [self], rfl, rfl⟩
      · have old : p ∈ queues b := by
          by_cases e : b = c.bucket
          · subst e
            rw [Function.update_self] at hp
            exact (List.mem_cons.mp hp).resolve_left fun e => new ⟨rfl, e⟩
          · rwa [Function.update_of_ne e] at hp
        exact (inv.minimum b p old).imp_right (others_exist hpc' (by rw [stance]))
    taking := by
      intro b taking
      rw [timer] at taking
      have e : b ≠ c.bucket := by
        rintro rfl
        have mine : (s.locks (.thread t)).bucket = some c.bucket := by rw [State.locks, hpc]; rfl
        have its : (s.locks .timer).bucket = some c.bucket := TimerPc.locks_of_taking taking
        cases locks.alone_in mine its
      rw [Function.update_of_ne e]
      exact inv.taking b taking
    void := by
      intro b empty
      rw [bucket, timer]
      exact inv.void b (nonempty b empty).2
    scanned := by
      intro b hb drained
      rw [nearest, bucket]
      exact (inv.scanned b hb (timer ▸ drained)).imp_right (others_exist hpc' (by rw [stance]))
    committed := by rw [timer, nearest]; exact inv.committed
    asleep := by
      intro deadline sleeping
      rw [nearest]
      exact (inv.asleep deadline (timer ▸ sleeping)).imp_right (others_exist hpc' (by rw [stance]))
    heap := by rw [timer, tasks, runTime]; exact inv.heap }

/-- The thread compares its time with the bucket's. -/
theorem schedCompare {c : Call} {id : TaskId} {earlier : Bool}
    (inv : SleepInv num s queues) (hpc : s.pc t = .schedCompare c id)
    (hpc' : s'.pc = Function.update s.pc t (.schedUnlock c id earlier))
    (nearest : s'.nearest = s.nearest)
    (here : (s'.bucket c.bucket).nearest ≤ (s.bucket c.bucket).nearest ∧
      (s'.bucket c.bucket).nearest ≤ s.runTime c.slot)
    (result : if earlier then (s'.bucket c.bucket).nearest = s.runTime c.slot
      else (s'.bucket c.bucket).nearest = (s.bucket c.bucket).nearest)
    (elsewhere : ∀ b, b ≠ c.bucket → (s'.bucket b).nearest = (s.bucket b).nearest)
    (runTime : s'.runTime = s.runTime) (tasks : s'.tasks = s.tasks) (timer : s'.timer = s.timer) :
    SleepInv num s' queues := by
  have stance : (s.pc t).stance = { comparing := some c } := by rw [hpc]; rfl
  obtain ⟨linked, time⟩ := inv.comparing t c (by rw [stance])
  have lower : ∀ b, (s'.bucket b).nearest ≤ (s.bucket b).nearest := by
    intro b
    by_cases e : b = c.bucket
    · exact e ▸ here.1
    · exact Int.le_of_eq (elsewhere b e)
  exact
  { calm := inv.still_calm hpc' (by cases earlier <;> rfl)
    bound := by rw [nearest]; exact inv.bound
    written := by
      rw [runTime]
      refine others_all hpc' (fun d no => ?_) fun u _ d hd => inv.written u d hd
      cases earlier <;> cases no
    comparing := by
      rw [runTime]
      refine others_all hpc' (fun d no => ?_) fun u _ d hd => inv.comparing u d hd
      cases earlier <;> cases no
    minimum := by
      intro b p hp
      rw [runTime]
      by_cases mine : b = c.bucket ∧ p = c.slot
      · obtain ⟨rfl, rfl⟩ := mine
        exact .inl here.2
      · rcases inv.minimum b p hp with low | ⟨u, d, hu, rfl, rfl⟩
        · exact .inl (Int.le_trans (lower b) low)
        · have e : u ≠ t := by
            rintro rfl
            rw [stance] at hu
            cases hu
            exact mine ⟨rfl, rfl⟩
          exact .inr ⟨u, d, by rw [hpc', Function.update_of_ne e]; exact hu, rfl, rfl⟩
    taking := by rw [timer]; exact inv.taking
    void := by
      intro b empty
      have e : b ≠ c.bucket := by
        rintro rfl
        rw [empty] at linked
        exact List.not_mem_nil linked
      rw [timer, elsewhere b e]
      exact inv.void b empty
    scanned := by
      intro b hb drained
      rw [nearest]
      have before := (inv.scanned b hb (timer ▸ drained)).imp_right
        (others_exist hpc' (by rw [stance]))
      by_cases e : b = c.bucket
      · subst e
        cases earlier with
        | true =>
          refine .inr ⟨t, c, by rw [hpc', Function.update_self]; rfl, rfl, ?_⟩
          rw [← time]
          exact Int.le_of_eq result.symm
        | false =>
          rw [show (s'.bucket c.bucket).nearest = (s.bucket c.bucket).nearest from result]
          exact before
      · rw [elsewhere b e]
        exact before
    committed := by rw [timer, nearest]; exact inv.committed
    asleep := by
      intro deadline sleeping
      rw [nearest]
      exact (inv.asleep deadline (timer ▸ sleeping)).imp_right (others_exist hpc' (by rw [stance]))
    heap := by rw [timer, tasks, runTime]; exact inv.heap }

/-- The thread compares its time with the timer thread's. -/
theorem nearCompare {c : Call} {id : TaskId} {earlier : Bool}
    (inv : SleepInv num s queues) (locks : LockInv s) (hpc : s.pc t = .nearCompare c id)
    (hpc' : s'.pc = Function.update s.pc t (.nearUnlock c id earlier))
    (lower : s'.nearest ≤ s.nearest) (mine : s'.nearest ≤ c.runTime)
    (result : if earlier then s'.nearest = c.runTime else s'.nearest = s.nearest)
    (bucket : s'.bucket = s.bucket) (runTime : s'.runTime = s.runTime) (tasks : s'.tasks = s.tasks)
    (timer : s'.timer = s.timer) : SleepInv num s' queues := by
  have stance : (s.pc t).stance = { earlier := some c } := by rw [hpc]; rfl
  exact
  { calm := inv.still_calm hpc' (by cases earlier <;> rfl)
    bound := Int.le_trans lower inv.bound
    written := by
      rw [runTime]
      refine others_all hpc' (fun d no => ?_) fun u _ d hd => inv.written u d hd
      cases earlier <;> cases no
    comparing := by
      rw [runTime]
      refine others_all hpc' (fun d no => ?_) fun u _ d hd => inv.comparing u d hd
      cases earlier <;> cases no
    minimum := by
      intro b p hp
      rw [bucket, runTime]
      exact (inv.minimum b p hp).imp_right (others_exist hpc' (by rw [stance]))
    taking := by rw [timer]; exact inv.taking
    void := by rw [timer, bucket]; exact inv.void
    scanned := by
      intro b hb drained
      rw [bucket]
      rcases inv.scanned b hb (timer ▸ drained) with low | ⟨u, d, hu, rfl, time⟩
      · exact .inl (Int.le_trans lower low)
      · by_cases e : u = t
        · subst e
          rw [stance] at hu
          cases hu
          exact .inl (Int.le_trans mine time)
        · exact .inr ⟨u, d, by rw [hpc', Function.update_of_ne e]; exact hu, rfl, time⟩
    committed := by
      intro next stored
      rw [timer] at stored
      have held : (s.locks .timer).whole = true := TimerPc.locks_of_committed stored
      have here : (s.locks (.thread t)).whole = true := by rw [State.locks, hpc]; rfl
      cases locks.alone held here
    asleep := by
      intro deadline sleeping
      cases earlier with
      | true =>
        refine .inr ⟨t, c, by rw [hpc', Function.update_self]; rfl, ?_⟩
        exact Int.le_of_eq result.symm
      | false =>
        rw [show s'.nearest = s.nearest from result]
        exact (inv.asleep deadline (timer ▸ sleeping)).imp_right
          (others_exist hpc' (by rw [stance]))
    heap := by rw [timer, tasks, runTime]; exact inv.heap }

omit [DecidableEq τ] in
/-- A wake-up turns a sleeping timer thread into a woken one and changes nothing else. -/
theorem wakeUp_frame (s : State τ) : ∃ timer, s.wakeUp = s.toTimer timer ∧
    timer.asleep = none ∧ timer.taking = s.timer.taking ∧ timer.committed = s.timer.committed ∧
      timer.deadline = s.timer.deadline ∧ ∀ b, timer.scanned b = s.timer.scanned b := by
  unfold State.wakeUp
  split <;> rename_i timer
  · refine ⟨_, rfl, ?_⟩
    rw [timer]
    exact ⟨rfl, rfl, rfl, rfl, fun _ => rfl⟩
  · refine ⟨s.timer, rfl, ?_, rfl, rfl, rfl, fun _ => rfl⟩
    cases h : s.timer with
    | blocked deadline woken => exact absurd h (timer deadline woken)
    | _ => rfl

/-- The thread wakes the timer thread up. -/
theorem wake {c : Call} {id : TaskId} (inv : SleepInv num s queues)
    (hpc : s.pc t = .wake c id) : SleepInv num (s.wakeUp.goto t (.schedReturn id)) queues := by
  have stance : (s.pc t).stance = { waking := some c } := by rw [hpc]; rfl
  obtain ⟨timer, woken, asleep, taking, committed, deadline, scanned⟩ := wakeUp_frame s
  rw [woken]
  have hpc' : ((s.toTimer timer).goto t (.schedReturn id)).pc =
    Function.update s.pc t (.schedReturn id) := rfl
  exact
  { calm := inv.still_calm hpc' rfl
    bound := inv.bound
    written := others_all hpc' (fun d no => absurd no.symm (Option.some_ne_none d))
      fun u _ d hd => inv.written u d hd
    comparing := others_all hpc' (fun d no => absurd no.symm (Option.some_ne_none d))
      fun u _ d hd => inv.comparing u d hd
    minimum := fun b p hp =>
      (inv.minimum b p hp).imp_right (others_exist hpc' (by rw [stance]))
    taking := fun b h => inv.taking b (taking.symm.trans h)
    void := fun b empty => (inv.void b empty).imp_right taking.trans
    scanned := fun b hb drained =>
      (inv.scanned b hb ((scanned b).symm.trans drained)).imp_right
        (others_exist hpc' (by rw [stance]))
    committed := fun next h => inv.committed next (committed.symm.trans h)
    asleep := fun d h => absurd (h.symm.trans asleep) (Option.some_ne_none d)
    heap := fun d h => inv.heap d (deadline.symm.trans h) }

theorem stepThread (inv : SleepInv num s queues) (placed : Placed s queues) (locks : LockInv s)
    (hstep : s.stepThread t = some s') : SleepInv num s' (queuesAfter s queues (.step t)) := by
  have rest : ∀ {s₁ : State τ} {pc pc' : Pc}, s.pc t = pc → s₁.pc = s.pc →
      pc'.stance = pc.stance → s₁.nearest = s.nearest →
      (∀ b, (s₁.bucket b).nearest = (s.bucket b).nearest) → s₁.runTime = s.runTime →
      s₁.tasks = s.tasks → s₁.timer = s.timer → SleepInv num (s₁.goto t pc') queues := by
    intro s₁ pc pc' at_pc hpc stance nearest bucket runTime tasks timer
    refine inv.quiet (fun u => ?_) nearest bucket runTime tasks timer
    refine stance_same (t := t) (stance.trans (congrArg Pc.stance at_pc).symm) ?_ u
    simp only [State.goto, hpc]
  have stopping : ∀ {pc : Pc}, s.pc t = pc → pc.stance.stopping = true → False := by
    intro pc at_pc stops
    have calm := inv.calm t
    rw [at_pc, stops] at calm
    cases calm
  cases pc : s.pc t <;> simp only [State.stepThread, queuesAfter, pc] at hstep ⊢
  case idle => cases hstep
  case schedWrite c =>
    cases hstep
    refine inv.schedWrite placed pc rfl rfl rfl ?_ (fun p e => ?_) rfl rfl
    · simp only [State.runTime, State.goto, State.onNode, Function.update_self]
    · simp only [State.runTime, State.goto, State.onNode, Function.update_of_ne e]
  case schedAdd =>
    cases hstep
    exact rest pc rfl rfl rfl (fun _ => rfl) (onNode_runTime s _ _ rfl) rfl rfl
  case schedLoad => cases hstep; exact rest pc rfl rfl rfl (fun _ => rfl) rfl rfl rfl
  case schedMake =>
    cases hstep
    exact rest pc rfl rfl rfl (fun _ => rfl) (onNode_runTime s _ _ rfl) rfl rfl
  case schedLock =>
    obtain ⟨s₁, lock, rfl⟩ := Option.map_eq_some_iff.mp hstep
    obtain rfl := lockBucket_eq lock
    exact rest pc rfl rfl rfl (onBucket_nearest s _ _ rfl) rfl rfl rfl
  case schedLink c id =>
    cases hstep
    exact inv.schedLink locks pc rfl rfl
      (onBucket_nearest (s.onNode c.slot ({ · with next := (s.bucket c.bucket).head })) c.bucket
        ({ · with head := some c.slot }) rfl)
      (onNode_runTime s c.slot ({ · with next := (s.bucket c.bucket).head }) rfl) rfl rfl
  case schedCompare c id =>
    have elsewhere : ∀ {n : Int} b, b ≠ c.bucket →
        ((s.onBucket c.bucket ({ · with nearest := n })).bucket b).nearest =
          (s.bucket b).nearest := by
      intro n b e
      simp only [State.onBucket, Function.update_of_ne e]
    have here : ∀ {n : Int}, ((s.onBucket c.bucket ({ · with nearest := n })).bucket
        c.bucket).nearest = n := by
      intro n
      simp only [State.onBucket, Function.update_self]
    split_ifs at hstep with less <;> cases hstep
    · refine inv.schedCompare pc rfl rfl ⟨?_, ?_⟩ here elsewhere rfl rfl rfl
      · exact Int.le_trans (Int.le_of_eq here) (Int.le_of_lt less)
      · exact Int.le_of_eq here
    · exact inv.schedCompare pc rfl rfl ⟨Int.le_refl _, Int.not_lt.mp less⟩ rfl (fun _ _ => rfl)
        rfl rfl rfl
  case schedUnlock c id earlier =>
    cases hstep
    cases earlier <;> exact rest pc rfl rfl rfl (onBucket_nearest s _ _ rfl) rfl rfl rfl
  case nearLock =>
    obtain ⟨s₁, lock, rfl⟩ := Option.map_eq_some_iff.mp hstep
    obtain rfl := lock_eq lock
    exact rest pc rfl rfl rfl (fun _ => rfl) rfl rfl rfl
  case nearCompare =>
    split_ifs at hstep with less <;> cases hstep
    · exact inv.nearCompare locks pc rfl (Int.le_of_lt less) (Int.le_refl _) rfl rfl rfl rfl rfl
    · exact inv.nearCompare locks pc rfl (Int.le_refl _) (Int.not_lt.mp less) rfl rfl rfl rfl rfl
  case nearUnlock c id earlier =>
    cases hstep
    cases earlier <;> exact rest pc rfl rfl rfl (fun _ => rfl) rfl rfl rfl
  case wake => cases hstep; exact inv.wake pc
  case schedReturn => cases hstep; exact rest pc rfl rfl rfl (fun _ => rfl) rfl rfl rfl
  case unschedCas id =>
    cases hstep
    unfold State.cancel
    split_ifs
    · exact rest pc rfl rfl rfl (fun _ => rfl) (onNode_runTime s _ _ rfl) rfl rfl
    · exact rest pc rfl rfl rfl (fun _ => rfl) rfl rfl rfl
  all_goals exact (stopping pc rfl).elim

omit [DecidableEq τ] in
/-- A step of the timer thread that changes no time, for the facts about its control
point. -/
theorem toTimer {s₁ : State τ} {timer : TimerPc} (inv : SleepInv num s queues)
    (hpc : s₁.pc = s.pc) (nearest : s₁.nearest = s.nearest) (bound : s₁.nearest ≤ maxTime)
    (bucket : ∀ b, (s₁.bucket b).nearest = (s.bucket b).nearest) (runTime : s₁.runTime = s.runTime)
    (taking : ∀ b, timer.taking = some b → queues b = [])
    (void : ∀ b, s.timer.taking = some b → timer.taking = some b)
    (scanned : ∀ b, b < num → timer.scanned b = true →
      s.timer.scanned b = true ∨ (s.bucket b).nearest = maxTime)
    (committed : ∀ next, timer.committed = some next → next ≤ s.nearest)
    (asleep : ∀ deadline, timer.asleep = some deadline → deadline ≤ s.nearest)
    (heap : ∀ deadline, timer.deadline = some deadline → ∀ p ∈ s₁.tasks, deadline ≤ s.runTime p) :
    SleepInv num (s₁.toTimer timer) queues where
  calm := hpc ▸ inv.calm
  bound := bound
  written := by
    change ∀ t c, (s₁.pc t).stance.written = some c → s₁.runTime c.slot = c.runTime
    rw [hpc, runTime]
    exact inv.written
  comparing := by
    change ∀ t c, (s₁.pc t).stance.comparing = some c →
      c.slot ∈ queues c.bucket ∧ s₁.runTime c.slot = c.runTime
    rw [hpc, runTime]
    exact inv.comparing
  minimum := by
    intro b p hp
    change (s₁.bucket b).nearest ≤ s₁.runTime p ∨
      ∃ t c, (s₁.pc t).stance.comparing = some c ∧ c.bucket = b ∧ c.slot = p
    rw [hpc, runTime, bucket]
    exact inv.minimum b p hp
  taking := taking
  void := by
    intro b empty
    change (s₁.bucket b).nearest = maxTime ∨ _
    rw [bucket]
    exact (inv.void b empty).imp_right (void b)
  scanned := by
    intro b hb drained
    change s₁.nearest ≤ (s₁.bucket b).nearest ∨ ∃ t c, (s₁.pc t).stance.earlier = some c ∧
      c.bucket = b ∧ c.runTime ≤ (s₁.bucket b).nearest
    rw [hpc, bucket, nearest]
    rcases scanned b hb drained with before | reset
    · exact inv.scanned b hb before
    · exact .inl (by rw [reset]; exact inv.bound)
  committed := by
    change ∀ next, timer.committed = some next → next ≤ s₁.nearest
    rw [nearest]
    exact committed
  asleep := by
    intro deadline sleeping
    refine .inl ?_
    change deadline ≤ s₁.nearest
    rw [nearest]
    exact asleep deadline sleeping
  heap := by
    change ∀ deadline, timer.deadline = some deadline → ∀ p ∈ s₁.tasks, deadline ≤ s₁.runTime p
    rw [runTime]
    exact heap

omit [DecidableEq τ] in
/-- Most steps of the timer thread: it is not about to sleep, and has drained nothing
more than before but buckets without a task. -/
theorem move {s₁ : State τ} {before timer : TimerPc} (inv : SleepInv num s queues)
    (htimer : s.timer = before) (hpc : s₁.pc = s.pc) (nearest : s₁.nearest = s.nearest)
    (bucket : ∀ b, (s₁.bucket b).nearest = (s.bucket b).nearest) (runTime : s₁.runTime = s.runTime)
    (taking : timer.taking = none) (taken : before.taking = none) (deadline : timer.deadline = none)
    (scanned : ∀ b, b < num → timer.scanned b = true →
      before.scanned b = true ∨ (s.bucket b).nearest = maxTime) :
    SleepInv num (s₁.toTimer timer) queues := by
  have committed : timer.committed = none := by
    cases timer <;> first | rfl | cases deadline
  have asleep : timer.asleep = none := by
    cases timer <;> first | rfl | cases deadline
  refine inv.toTimer hpc nearest (nearest ▸ inv.bound) bucket runTime ?_ ?_ ?_ ?_ ?_ ?_
  · exact fun b h => absurd (h.symm.trans taking) (Option.some_ne_none b)
  · exact fun b h => absurd (h.symm.trans (htimer ▸ taken)) (Option.some_ne_none b)
  · exact htimer ▸ scanned
  · exact fun d h => absurd (h.symm.trans committed) (Option.some_ne_none d)
  · exact fun d h => absurd (h.symm.trans asleep) (Option.some_ne_none d)
  · exact fun d h => absurd (h.symm.trans deadline) (Option.some_ne_none d)

omit [DecidableEq τ] in
/-- A bucket without a task has no nearest time, unless its queue has just been taken. -/
theorem nearest_of_empty {b : ℕ} (inv : SleepInv num s queues) (placed : Placed s queues)
    (head : (s.bucket b).head = none) (taken : s.timer.taking = none) :
    (s.bucket b).nearest = maxTime := by
  have empty : queues b = [] := by
    obtain ⟨place, rest, sh⟩ := placed
    have path := sh.queue b
    have first : s.layout.head b = none := head
    rw [first] at path
    exact path.eq_nil
  refine (inv.void b empty).resolve_right fun taking => ?_
  exact Option.some_ne_none b (taking.symm.trans taken)

omit [DecidableEq τ] in
/-- A new round: the timer thread's time is reset before any bucket is looked at. -/
theorem reset (inv : SleepInv num s queues) (htimer : s.timer = .reset) :
    SleepInv num ({ s with nearest := maxTime }.toTimer .resetUnlock) queues where
  calm := inv.calm
  bound := Int.le_refl _
  written := inv.written
  comparing := inv.comparing
  minimum := inv.minimum
  taking := fun b no => absurd no.symm (Option.some_ne_none b)
  void := fun b empty => (inv.void b empty).imp_right fun no => by
    rw [htimer] at no
    cases no
  scanned := fun b _ no => absurd no Bool.false_ne_true
  committed := fun d no => absurd no.symm (Option.some_ne_none d)
  asleep := fun d no => absurd no.symm (Option.some_ne_none d)
  heap := fun d no => absurd no.symm (Option.some_ne_none d)

omit [DecidableEq τ] in
/-- The queue of a bucket is taken: nobody compares in it, since that needs its mutex. -/
theorem take {i : ℕ} {p : Slot} (inv : SleepInv num s queues) (locks : LockInv s)
    (htimer : s.timer = .take i) :
    SleepInv num ((s.onBucket i ({ · with head := none })).toTimer (.takeReset i p))
      (Function.update queues i []) := by
  have bucket : ∀ b, ((s.onBucket i ({ · with head := none })).bucket b).nearest =
      (s.bucket b).nearest := onBucket_nearest s i ({ · with head := none }) rfl
  exact
  { calm := inv.calm
    bound := inv.bound
    written := inv.written
    comparing := by
      intro t c hc
      have e : c.bucket ≠ i := by
        rintro rfl
        have its : (s.locks (.thread t)).bucket = some c.bucket := Pc.locks_of_comparing hc
        have mine : (s.locks .timer).bucket = some c.bucket := by rw [State.locks, htimer]; rfl
        cases locks.alone_in its mine
      rw [Function.update_of_ne e]
      exact inv.comparing t c hc
    minimum := by
      intro b p hp
      change ((s.onBucket i ({ · with head := none })).bucket b).nearest ≤ s.runTime p ∨ _
      rw [bucket]
      refine inv.minimum b p ?_
      by_cases e : b = i
      · subst e
        rw [Function.update_self] at hp
        cases hp
      · rwa [Function.update_of_ne e] at hp
    taking := by
      rintro b ⟨⟩
      exact Function.update_self ..
    void := by
      intro b empty
      by_cases e : b = i
      · exact .inr (congrArg some e.symm)
      · rw [Function.update_of_ne e] at empty
        refine .inl ((bucket b).trans ((inv.void b empty).resolve_right fun no => ?_))
        rw [htimer] at no
        cases no
    scanned := by
      intro b hb drained
      change s.nearest ≤ ((s.onBucket i ({ · with head := none })).bucket b).nearest ∨
        ∃ t c, (s.pc t).stance.earlier = some c ∧ c.bucket = b ∧
          c.runTime ≤ ((s.onBucket i ({ · with head := none })).bucket b).nearest
      rw [bucket]
      exact inv.scanned b hb (htimer ▸ drained)
    committed := fun d no => absurd no.symm (Option.some_ne_none d)
    asleep := fun d no => absurd no.symm (Option.some_ne_none d)
    heap := fun d no => absurd no.symm (Option.some_ne_none d) }

omit [DecidableEq τ] in
/-- The time of the taken bucket is reset: the bucket has been drained. -/
theorem takeReset {i : ℕ} {p : Slot} (inv : SleepInv num s queues)
    (htimer : s.timer = .takeReset i p) :
    SleepInv num ((s.onBucket i ({ · with nearest := maxTime })).toTimer (.takeUnlock i (some p)))
      queues := by
  have empty : queues i = [] := inv.taking i (by rw [htimer]; rfl)
  have self : ((s.onBucket i ({ · with nearest := maxTime })).bucket i).nearest = maxTime := by
    simp only [State.onBucket, Function.update_self]
  have other : ∀ b, b ≠ i → ((s.onBucket i ({ · with nearest := maxTime })).bucket b).nearest =
      (s.bucket b).nearest := by
    intro b e
    simp only [State.onBucket, Function.update_of_ne e]
  exact
  { calm := inv.calm
    bound := inv.bound
    written := inv.written
    comparing := inv.comparing
    minimum := by
      intro b p hp
      have e : b ≠ i := by
        rintro rfl
        rw [empty] at hp
        cases hp
      change ((s.onBucket i ({ · with nearest := maxTime })).bucket b).nearest ≤ s.runTime p ∨ _
      rw [other b e]
      exact inv.minimum b p hp
    taking := fun b no => absurd no.symm (Option.some_ne_none b)
    void := by
      intro b none
      refine .inl ?_
      by_cases e : b = i
      · exact e ▸ self
      · refine (other b e).trans ((inv.void b none).resolve_right fun no => ?_)
        rw [htimer] at no
        cases no
        exact e rfl
    scanned := by
      intro b hb drained
      change s.nearest ≤ ((s.onBucket i ({ · with nearest := maxTime })).bucket b).nearest ∨
        ∃ t c, (s.pc t).stance.earlier = some c ∧ c.bucket = b ∧
          c.runTime ≤ ((s.onBucket i ({ · with nearest := maxTime })).bucket b).nearest
      by_cases e : b = i
      · subst e
        rw [self]
        exact .inl inv.bound
      · rw [other b e]
        refine inv.scanned b hb ?_
        have le : b ≤ i := of_decide_eq_true drained
        rw [htimer]
        exact decide_eq_true (Nat.lt_of_le_of_ne le e)
    committed := fun d no => absurd no.symm (Option.some_ne_none d)
    asleep := fun d no => absurd no.symm (Option.some_ne_none d)
    heap := fun d no => absurd no.symm (Option.some_ne_none d) }

omit [DecidableEq τ] in
/-- Steps from the choice of the deadline to the wait, where no time changes. -/
theorem towards {s₁ : State τ} {before timer : TimerPc} {d : Int}
    (inv : SleepInv num s queues) (htimer : s.timer = before) (hpc : s₁.pc = s.pc)
    (nearest : s₁.nearest = s.nearest) (bucket : s₁.bucket = s.bucket)
    (runTime : s₁.runTime = s.runTime) (tasks : s₁.tasks = s.tasks) (taking : timer.taking = none)
    (taken : before.taking = none) (scanned : ∀ b, before.scanned b = true)
    (deadline : timer.deadline = some d) (heap : ∀ p ∈ s.tasks, d ≤ s.runTime p)
    (stored : (timer.committed = none ∧ timer.asleep = none) ∨ d ≤ s.nearest) :
    SleepInv num (s₁.toTimer timer) queues := by
  have due : ∀ d', timer.committed = some d' ∨ timer.asleep = some d' → d' = d := by
    rintro d' (h | h)
    · refine Option.some.inj (Eq.trans ?_ deadline)
      cases timer <;> first | exact h.symm | cases h
    · refine Option.some.inj (Eq.trans ?_ deadline)
      cases timer with
      | blocked deadline woken => cases woken <;> first | exact h.symm | cases h
      | _ => cases h
  refine inv.toTimer hpc nearest (nearest ▸ inv.bound)
    (fun b => by rw [bucket]) runTime ?_ ?_ ?_ ?_ ?_ ?_
  · exact fun b h => absurd (h.symm.trans taking) (Option.some_ne_none b)
  · exact fun b h => absurd (h.symm.trans (htimer ▸ taken)) (Option.some_ne_none b)
  · exact fun b _ _ => .inl (htimer ▸ scanned b)
  · intro d' h
    rw [due d' (.inl h)]
    exact stored.resolve_left fun no => Option.some_ne_none d' (h.symm.trans no.1)
  · intro d' h
    rw [due d' (.inr h)]
    exact stored.resolve_left fun no => Option.some_ne_none d' (h.symm.trans no.2)
  · intro d' h
    cases deadline.symm.trans h
    rw [tasks]
    exact heap

omit [DecidableEq τ] in
/-- The deadline is stored where nothing earlier is known of. -/
theorem commit {next : Int} (inv : SleepInv num s queues) (htimer : s.timer = .waitCompare next)
    (first : next ≤ s.nearest) :
    SleepInv num ({ s with nearest := next }.toTimer (.clock next)) queues where
  calm := inv.calm
  bound := Int.le_trans first inv.bound
  written := inv.written
  comparing := inv.comparing
  minimum := inv.minimum
  taking := fun b no => absurd no.symm (Option.some_ne_none b)
  void := fun b empty => (inv.void b empty).imp_right fun no => by
    rw [htimer] at no
    cases no
  scanned := fun b hb _ => (inv.scanned b hb (by rw [htimer]; rfl)).imp_left (Int.le_trans first)
  committed := by
    rintro d ⟨⟩
    exact Int.le_refl _
  asleep := fun d no => absurd no.symm (Option.some_ne_none d)
  heap := by
    rintro d ⟨⟩
    exact inv.heap next (by rw [htimer]; rfl)

theorem stepTimer (inv : SleepInv num s queues) (placed : Placed s queues) (locks : LockInv s)
    (hstep : s.stepTimer num = some s') : SleepInv num s' (queuesAfter s queues .timer) := by
  cases pc : s.timer <;> simp only [State.stepTimer, queuesAfter, pc] at hstep ⊢
  case push | popDeleted | due | popRun | clock | exited | aborted => cases hstep
  case loopHead =>
    cases hstep
    split_ifs <;> exact inv.move pc rfl rfl (fun _ => rfl) rfl rfl rfl rfl fun _ _ no => .inl no
  case resetLock | relock =>
    obtain ⟨s₁, lock, rfl⟩ := Option.map_eq_some_iff.mp hstep
    obtain rfl := lock_eq lock
    exact inv.move pc rfl rfl (fun _ => rfl) rfl rfl rfl rfl fun _ _ no => .inl no
  case reset => cases hstep; exact inv.reset pc
  case resetUnlock =>
    cases hstep
    exact inv.move pc rfl rfl (fun _ => rfl) rfl rfl rfl rfl fun b _ no =>
      absurd (of_decide_eq_true (p := b < 0) no) (Nat.not_lt_zero b)
  case peek i =>
    cases hstep
    split_ifs with inside
    · cases head : (s.bucket i).head with
      | some p => exact inv.move pc rfl rfl (fun _ => rfl) rfl rfl rfl rfl fun _ _ h => .inl h
      | none =>
        refine inv.move pc rfl rfl (fun _ => rfl) rfl rfl rfl rfl fun b _ drained => ?_
        rcases Nat.eq_or_lt_of_le (of_decide_eq_true drained : b ≤ i) with rfl | lt
        · exact .inr (inv.nearest_of_empty placed head (by rw [pc]; rfl))
        · exact .inl (decide_eq_true lt)
    · exact inv.move pc rfl rfl (fun _ => rfl) rfl rfl rfl rfl fun b hb _ =>
        .inl (decide_eq_true (Nat.lt_of_lt_of_le hb (Nat.le_of_not_lt inside)))
  case takeLock =>
    obtain ⟨s₁, lock, rfl⟩ := Option.map_eq_some_iff.mp hstep
    obtain rfl := lockBucket_eq lock
    exact inv.move pc rfl rfl (onBucket_nearest s _ _ rfl) rfl rfl rfl rfl fun _ _ h => .inl h
  case take i =>
    split at hstep <;> rename_i head <;> cases hstep
    · exact inv.take locks pc
    · rw [placed.take_none head]
      refine inv.move pc rfl rfl (fun _ => rfl) rfl rfl rfl rfl fun b _ drained => ?_
      rcases Nat.eq_or_lt_of_le (of_decide_eq_true drained : b ≤ i) with rfl | lt
      · exact .inr (inv.nearest_of_empty placed head (by rw [pc]; rfl))
      · exact .inl (decide_eq_true lt)
  case takeReset => cases hstep; exact inv.takeReset pc
  case takeUnlock =>
    cases hstep
    exact inv.move pc rfl rfl (onBucket_nearest s _ _ rfl) rfl rfl rfl rfl fun _ _ h => .inl h
  case advance | runCall =>
    cases hstep
    exact inv.move pc rfl rfl (fun _ => rfl) rfl rfl rfl rfl fun _ _ h => .inl h
  case visit i p =>
    cases p with
    | none =>
      cases hstep
      exact inv.move pc rfl rfl (fun _ => rfl) rfl rfl rfl rfl fun _ _ drained =>
        .inl (decide_eq_true (Nat.le_of_lt_succ (of_decide_eq_true drained)))
    | some p =>
      cases hstep
      exact inv.move pc rfl rfl (fun _ => rfl) rfl rfl rfl rfl fun _ _ h => .inl h
  case tryLoad site p v =>
    cases hstep
    split_ifs <;> cases site <;>
      exact inv.move pc rfl rfl (fun _ => rfl) rfl rfl rfl rfl fun _ _ h => .inl h
  case tryCheck site p v =>
    cases hstep
    split_ifs
    · cases site <;> exact inv.move pc rfl rfl (fun _ => rfl) rfl rfl rfl rfl fun _ _ h => .inl h
    · exact inv.move pc rfl rfl (fun _ => rfl) rfl rfl rfl rfl fun _ _ no =>
        absurd no Bool.false_ne_true
  case tryReturn site p =>
    cases hstep
    cases site <;> exact inv.move pc rfl rfl (fun _ => rfl) rfl rfl rfl rfl fun _ _ h => .inl h
  case drain =>
    split at hstep <;> cases hstep <;>
      exact inv.move pc rfl rfl (fun _ => rfl) rfl rfl rfl rfl fun _ _ h => .inl h
  case runCas p v =>
    split_ifs at hstep <;> cases hstep
    · exact inv.move pc rfl rfl (fun _ => rfl) (onNode_runTime s _ _ rfl) rfl rfl rfl
        fun _ _ h => .inl h
    · exact inv.move pc rfl rfl (fun _ => rfl) rfl rfl rfl rfl fun _ _ h => .inl h
    · exact inv.move pc rfl rfl (fun _ => rfl) rfl rfl rfl rfl fun _ _ h => .inl h
  case runStore =>
    cases hstep
    exact inv.move pc rfl rfl (fun _ => rfl) (onNode_runTime s _ _ rfl) rfl rfl rfl
      fun _ _ h => .inl h
  case runReturn =>
    cases hstep
    exact inv.move pc rfl rfl (fun _ => rfl) rfl rfl rfl rfl fun _ _ h => .inl h
  case nextRun =>
    cases hstep
    have least := placed.least (by rw [pc]; rfl)
    refine inv.towards pc rfl rfl rfl rfl rfl rfl rfl (fun _ => rfl) rfl ?_ (.inl ⟨rfl, rfl⟩)
    cases tasks : s.tasks with
    | nil => exact fun q no => absurd no List.not_mem_nil
    | cons p rest =>
      rw [tasks] at least
      exact fun q hq => least.le hq
  case waitLock next =>
    obtain ⟨s₁, lock, rfl⟩ := Option.map_eq_some_iff.mp hstep
    obtain rfl := lock_eq lock
    exact inv.towards pc rfl rfl rfl rfl rfl rfl rfl (fun _ => rfl) rfl
      (inv.heap next (by rw [pc]; rfl)) (.inl ⟨rfl, rfl⟩)
  case waitCompare next =>
    split_ifs at hstep with later <;> cases hstep
    · exact inv.move pc rfl rfl (fun _ => rfl) rfl rfl rfl rfl fun _ _ no =>
        absurd no Bool.false_ne_true
    · exact inv.commit pc (Int.not_lt.mp later)
  case continueUnlock | waitUnlock =>
    cases hstep
    exact inv.move pc rfl rfl (fun _ => rfl) rfl rfl rfl rfl fun _ _ no =>
      absurd no Bool.false_ne_true
  case wait now dif =>
    cases hstep
    exact inv.towards pc rfl rfl rfl rfl rfl rfl rfl (fun _ => rfl) rfl
      (inv.heap (now + dif) (by rw [pc]; rfl)) (.inr (inv.committed _ (by rw [pc]; rfl)))
  case blocked deadline woken =>
    cases woken <;> cases hstep
    exact inv.move pc rfl rfl (fun _ => rfl) rfl rfl rfl rfl fun _ _ no =>
      absurd no Bool.false_ne_true

omit [DecidableEq τ] in
theorem arrange {tasks : List Slot} (inv : SleepInv num s queues)
    (hstep : s.arrange tasks = some s') : SleepInv num s' queues := by
  obtain ⟨-, ⟨i, p, pc, -, rfl⟩ | ⟨pc, -, rfl⟩ | ⟨p, pc, -, rfl⟩⟩ := State.arrange_cases hstep
  · exact inv.move pc rfl rfl (fun _ => rfl) rfl rfl rfl rfl fun _ _ h => .inl h
  · exact inv.move pc rfl rfl (fun _ => rfl) rfl rfl rfl rfl fun _ _ h => .inl h
  · exact inv.move pc rfl rfl (fun _ => rfl) rfl rfl rfl rfl fun _ _ h => .inl h

omit [DecidableEq τ] in
theorem readClock {now : ℕ} (inv : SleepInv num s queues) (hstep : s.readClock now = some s') :
    SleepInv num s' queues := by
  obtain ⟨p, pc, rfl⟩ | ⟨next, pc, rfl⟩ := State.readClock_cases hstep
  · split_ifs <;> exact inv.move pc rfl rfl (fun _ => rfl) rfl rfl rfl rfl fun _ _ h => .inl h
  · have deadline : (TimerPc.wait now (next - now) : TimerPc).deadline = some next :=
      congrArg some (by omega)
    exact inv.towards pc rfl rfl rfl rfl rfl rfl rfl (fun _ => rfl) deadline
      (inv.heap next (by rw [pc]; rfl)) (.inr (inv.committed _ (by rw [pc]; rfl)))

theorem act {a : Action τ} (inv : SleepInv num s queues) (placed : Placed s queues)
    (locks : LockInv s) (unstopped : a.unstopped = true) (hstep : s.act num a = some s') :
    SleepInv num s' (queuesAfter s queues a) := by
  cases a with
  | schedule t c =>
    obtain ⟨pc, -, -, -, rfl⟩ := State.act_schedule hstep
    exact inv.quiet (stance_same (by rw [pc]; rfl) rfl) rfl (fun _ => rfl) rfl rfl rfl
  | unschedule t id =>
    obtain ⟨pc, -, rfl⟩ := State.act_unschedule hstep
    exact inv.quiet (stance_same (by rw [pc]; rfl) rfl) rfl (fun _ => rfl) rfl rfl rfl
  | stop t => cases unstopped
  | step t => exact inv.stepThread placed locks hstep
  | timer => exact inv.stepTimer placed locks hstep
  | arrange tasks => exact inv.arrange hstep
  | clock now => exact inv.readClock hstep
  | timeout =>
    obtain ⟨deadline, woken, pc, rfl⟩ := State.act_timeout hstep
    exact inv.move pc rfl rfl (fun _ => rfl) rfl rfl rfl rfl fun _ _ no =>
      absurd no Bool.false_ne_true

omit [DecidableEq τ] in
theorem init (node : Slot → Node) : SleepInv num (initial τ node) fun _ => [] where
  calm := fun _ => rfl
  bound := Int.le_refl _
  written := fun _ _ no => absurd no.symm (Option.some_ne_none _)
  comparing := fun _ _ no => absurd no.symm (Option.some_ne_none _)
  minimum := fun _ _ no => absurd no List.not_mem_nil
  taking := fun _ _ => rfl
  void := fun _ _ => .inl rfl
  scanned := fun _ _ no => absurd no Bool.false_ne_true
  committed := fun _ no => absurd no.symm (Option.some_ne_none _)
  asleep := fun _ no => absurd no.symm (Option.some_ne_none _)
  heap := fun _ no => absurd no.symm (Option.some_ne_none _)

end SleepInv

section

variable [DecidableEq τ] {num : ℕ} {s : State τ}

/-- The timer thread has been woken up and not yet returned from its wait, or a call of `schedule`
has found its task to be earlier than all others and is still to issue the wake-up. -/
def State.WakePending (s : State τ) : Prop :=
  (∃ deadline, s.timer = .blocked deadline true) ∨ ∃ t c, (s.pc t).unsignalled = some c

/-- A sleeping timer thread that has not been woken up sleeps no longer than to the first of its
tasks, but for what calls of `schedule` are still about to tell it. -/
theorem due_or_announced {deadline : Int}
    (hs : (machine num τ).ReachableBy (fun s a => s.settled a && a.unstopped && a.fits) s)
    (sleeping : s.timer = .blocked deadline false) :
    (∀ b, b < num → ∀ p, s.Linked b p → deadline ≤ s.runTime p ∨
      (∃ t c, (s.pc t).unfinished = some c ∧ c.bucket = b ∧ c.runTime ≤ s.runTime p) ∨
      ∃ t c, (s.pc t).unsignalled = some c ∧ c.runTime ≤ s.runTime p) ∧
    ∀ p ∈ s.tasks, deadline ≤ s.runTime p := by
  have invariant : ∃ queues, Placed s queues ∧ LockInv s ∧ SleepInv num s queues := by
    refine hs.invariant
      (fun s => ∃ queues, Placed s queues ∧ LockInv s ∧ SleepInv num s queues) ?_ ?_
    · intro s hinit
      rw [show s = initial τ s.node from hinit]
      exact ⟨_, Placed.init _, LockInv.init _, SleepInv.init _⟩
    · rintro s a s' ⟨queues, placed, locks, inv⟩ ok hnext
      obtain ⟨both, fits⟩ := (Bool.and_eq_true _ _).mp ok
      obtain ⟨settled, unstopped⟩ := (Bool.and_eq_true _ _).mp both
      exact ⟨_, placed.act fits settled hnext, locks.act hnext,
        inv.act placed locks unstopped hnext⟩
  obtain ⟨queues, placed, -, inv⟩ := invariant
  refine ⟨fun b hb p linked => ?_, inv.heap deadline (by rw [sleeping]; rfl)⟩
  have queued := placed.queued_of_linked linked
  rcases inv.minimum b p queued with low | ⟨t, c, compares, rfl, rfl⟩
  · rcases inv.scanned b hb (by rw [sleeping]; rfl) with below | ⟨t, c, earlier, rfl, time⟩
    · rcases inv.asleep deadline (by rw [sleeping]; rfl) with due | ⟨t, c, waking, time⟩
      · exact .inl (Int.le_trans due (Int.le_trans below low))
      · exact .inr (.inr ⟨t, c, Pc.unsignalled_of_waking waking,
          Int.le_trans time (Int.le_trans below low)⟩)
    · exact .inr (.inl ⟨t, c, Pc.unfinished_of_earlier earlier, rfl, Int.le_trans time low⟩)
  · obtain ⟨-, time⟩ := inv.comparing t c compares
    exact .inr (.inl ⟨t, c, Pc.unfinished_of_comparing compares, rfl, Int.le_of_eq time.symm⟩)

/-- In every run without `stop_and_join` whose slots fit in an id: while the timer thread is blocked
and no wake-up is pending, its deadline is no later than the time of any task, but for those that
an unfinished call of their own bucket accounts for. -/
theorem never_oversleeps {deadline : Int} {woken : Bool}
    (hs : (machine num τ).ReachableBy (fun s a => s.settled a && a.unstopped && a.fits) s)
    (blocked : s.timer = .blocked deadline woken) (quiet : ¬ s.WakePending) :
    (∀ b, b < num → ∀ p, s.Linked b p → deadline ≤ s.runTime p ∨
      ∃ t c, (s.pc t).unfinished = some c ∧ c.bucket = b ∧ c.runTime ≤ s.runTime p) ∧
    ∀ p ∈ s.tasks, deadline ≤ s.runTime p := by
  have sleeping : s.timer = .blocked deadline false := by
    cases woken with
    | false => exact blocked
    | true => exact absurd (.inl ⟨deadline, blocked⟩) quiet
  obtain ⟨queues, heap⟩ := due_or_announced hs sleeping
  refine ⟨fun b hb p linked => ?_, heap⟩
  rcases queues b hb p linked with due | unfinished | ⟨t, c, owed, -⟩
  · exact .inl due
  · exact .inr unfinished
  · exact absurd (.inr ⟨t, c, owed⟩) quiet

end

/-- Uninitialised nodes for runs on fixed inputs. -/
def blank (_ : Slot) : Node := { next := none, runTime := 0, taskId := 0, version := 2 }

theorem asleep_of_eq {s : State Bool} {deadline : Int} (h : s.timer.asleep = some deadline) :
    s.timer = .blocked deadline false := by
  cases timer : s.timer with
  | blocked time woken =>
    rw [timer] at h
    cases woken <;> cases h
    rfl
  | _ =>
    rw [timer] at h
    cases h

theorem quiet_of_none {s : State Bool} {deadline : Int}
    (blocked : s.timer = .blocked deadline false)
    (first : (s.pc false).unsignalled = none) (second : (s.pc true).unsignalled = none) :
    ¬ s.WakePending := by
  rintro (⟨time, woken⟩ | ⟨t, c, owed⟩)
  · cases blocked.symm.trans woken
  · cases t
    · cases first.symm.trans owed
    · cases second.symm.trans owed

/-- The timer thread has fallen asleep without a task, and a call has linked its task but not yet
compared it with anything. -/
theorem never_oversleeps_linked : ∃ s : State Bool, s.timer = .blocked maxTime false ∧
    s.Linked 0 0 ∧ (maxTime ≤ s.runTime 0 ∨
      ∃ t c, (s.pc t).unfinished = some c ∧ c.bucket = 0 ∧ c.runTime ≤ s.runTime 0) := by
  have ran : ((machine 2 Bool).runBy (fun s a => s.settled a && a.unstopped && a.fits)
      (initial Bool blank) (List.replicate 13 .timer ++
        [.clock 0, .timer, .schedule false ⟨0, 0, 5⟩] ++
        List.replicate 6 (.step false))).map (fun s => (s.timer.asleep,
          [(s.bucket 0).head, (s.node 0).next],
          [(s.pc false).unsignalled, (s.pc true).unsignalled])) =
      some (some maxTime, [some 0, none], [none, none]) := by decide +kernel
  obtain ⟨s, hrun, result⟩ := Option.map_eq_some_iff.mp ran
  simp only [Prod.mk.injEq, List.cons.injEq, and_true] at result
  obtain ⟨sleeping, ⟨head, next⟩, first, second⟩ := result
  have start : (machine 2 Bool).init (initial Bool blank) := rfl
  have linked : s.Linked 0 0 := ⟨[0], ⟨head, next⟩, List.mem_singleton_self 0⟩
  have blocked := asleep_of_eq sleeping
  have hs := Machine.runBy_reachable (.init start) hrun
  exact ⟨s, blocked, linked,
    (never_oversleeps hs blocked (quiet_of_none blocked first second)).1 0 (by decide) 0 linked⟩

/-- Slot 0 is scheduled for time 100 and slot 2^34 for time 1. The id of the second reads back slot
0 with the same version: its task is run, slot 0 given back, and the timer thread blocks until 100.
Then a call gets slot 0 for time 5. -/
def slotTakenBack : List (Action Bool) :=
  [.schedule false ⟨0, 0, 100⟩] ++ List.replicate 13 (.step false) ++
    [.schedule true ⟨0, 0x400000000, 1⟩] ++ List.replicate 13 (.step true) ++
    List.replicate 11 .timer ++ [.arrange [0x400000000]] ++
    List.replicate 3 .timer ++ [.arrange [0x400000000, 0]] ++
    List.replicate 5 .timer ++ [.clock 1, .arrange [0]] ++
    List.replicate 6 .timer ++ [.clock 1] ++ List.replicate 3 .timer ++ [.clock 1, .timer] ++
    [.schedule true ⟨0, 0, 5⟩, .step true]

/-- The task on the heap is now the one that the last call is about to schedule. -/
theorem oversleeps : ¬ ∀ s : State Bool,
    (machine 1 Bool).ReachableBy (fun s a => s.settled a && a.unstopped) s →
    ∀ deadline woken, s.timer = .blocked deadline woken → ¬ s.WakePending →
    (∀ b, b < 1 → ∀ p, s.Linked b p → deadline ≤ s.runTime p ∨
      ∃ t c, (s.pc t).unfinished = some c ∧ c.bucket = b ∧ c.runTime ≤ s.runTime p) ∧
    ∀ p ∈ s.tasks, deadline ≤ s.runTime p := by
  intro claim
  have ran : ((machine 1 Bool).runBy (fun s a => s.settled a && a.unstopped)
      (initial Bool blank) slotTakenBack).map (fun s => (s.timer.asleep, s.tasks, s.runTime 0,
        [(s.pc false).unsignalled, (s.pc true).unsignalled])) =
      some (some 100, [0], 5, [none, none]) := by decide +kernel
  obtain ⟨s, hrun, result⟩ := Option.map_eq_some_iff.mp ran
  simp only [Prod.mk.injEq, List.cons.injEq, and_true] at result
  obtain ⟨sleeping, tasks, time, first, second⟩ := result
  have start : (machine 1 Bool).init (initial Bool blank) := rfl
  have blocked := asleep_of_eq sleeping
  have due := (claim s (Machine.runBy_reachable (.init start) hrun) 100 false blocked
    (quiet_of_none blocked first second)).2 0 (by rw [tasks]; exact List.mem_singleton_self 0)
  rw [time] at due
  exact absurd due (by decide)

end Codelab.TimerThread
