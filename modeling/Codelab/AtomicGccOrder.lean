import Codelab.Theory.Machine
import Codelab.Theory.ReleaseAcquire
import Mathlib.Data.Int.Notation
import Mathlib.Order.Nat

/-! `atomic_gcc_order.cpp`: round after round, `main` starts two threads. One writes a message and
sets `ready`; the other one asserts that the message is there if it finds `ready` set. How long
their random delays are is left to the scheduler. -/

namespace Codelab.AtomicGccOrder

open ReleaseAcquire

inductive Thread
  | main
  | thread1
  | thread2
  deriving DecidableEq

/-- The plain variables. -/
inductive Var
  | i
  | message (n : ℤ)
  deriving DecidableEq

/-- Whether `thread_1` stores to `ready` with release order, and `thread_2` loads it with acquire
order. -/
structure Orders where
  release : Bool
  acquire : Bool
  deriving DecidableEq

/-- Both are relaxed in the file. -/
def Orders.source : Orders := ⟨false, false⟩

inductive MainPc
  | clearMessage
  | clearReady
  | setI
  | start1
  | start2
  | join1
  | join2

inductive Pc1
  | absent
  | readI
  | writeMessage (n : ℤ)
  | storeReady
  | done
  | joined

/-- In `failed` the assertion has failed. -/
inductive Pc2
  | absent
  | loadReady
  | readMessage
  | done
  | failed

structure State where
  memory : ReleaseAcquire Thread Unit ℤ Var ℤ
  main : MainPc
  thread1 : Pc1
  thread2 : Pc2

/-- A load tells which message it takes. -/
inductive Action
  | main
  | thread1
  | thread2 (message : ℕ)

namespace State

def stepMain (s : State) : Option State :=
  match s.main with
  | .clearMessage =>
    some { s with memory := s.memory.write .main (.message 5) 0, main := .clearReady }
  | .clearReady => some { s with memory := s.memory.store .main () 0 false, main := .setI }
  | .setI => some { s with memory := s.memory.write .main .i 56, main := .start1 }
  | .start1 =>
    some { s with memory := s.memory.inform .main .thread1, main := .start2, thread1 := .readI }
  | .start2 =>
    some { s with memory := s.memory.inform .main .thread2, main := .join1, thread2 := .loadReady }
  | .join1 =>
    match s.thread1 with
    | .done =>
      some { s with memory := s.memory.inform .thread1 .main, main := .join2, thread1 := .joined }
    | _ => none
  | .join2 =>
    match s.thread2 with
    | .done =>
      some ⟨s.memory.inform .thread2 .main, .clearMessage, .absent, .absent⟩
    | _ => none

def stepThread1 (o : Orders) (s : State) : Option State :=
  match s.thread1 with
  | .readI =>
    let (i, m) := s.memory.read .thread1 .i
    some { s with memory := m, thread1 := .writeMessage (i.tdiv 10) }
  | .writeMessage n =>
    some { s with memory := s.memory.write .thread1 (.message n) 42, thread1 := .storeReady }
  | .storeReady =>
    some { s with memory := s.memory.store .thread1 () 1 o.release, thread1 := .done }
  | .absent | .done | .joined => none

def stepThread2 (o : Orders) (s : State) (message : ℕ) : Option State :=
  match s.thread2 with
  | .loadReady =>
    (s.memory.load .thread2 () o.acquire message).map fun (ready, m) =>
      { s with memory := m, thread2 := if ready = 1 then .readMessage else .done }
  | .readMessage =>
    let (message, m) := s.memory.read .thread2 (.message 5)
    some { s with memory := m, thread2 := if message = 42 then .done else .failed }
  | .absent | .done | .failed => none

def next (o : Orders) (s : State) : Action → Option State
  | .main => s.stepMain
  | .thread1 => s.stepThread1 o
  | .thread2 message => s.stepThread2 o message

/-- Some thread is at an access of a plain variable that is not ordered with an earlier one. -/
def Races (s : State) : Prop :=
  s.main = .clearMessage ∧ ¬ s.memory.WriteOrdered .main (.message 5) ∨
  s.main = .setI ∧ ¬ s.memory.WriteOrdered .main .i ∨
  s.thread1 = .readI ∧ ¬ s.memory.ReadOrdered .thread1 .i ∨
  (∃ n, s.thread1 = .writeMessage n ∧ ¬ s.memory.WriteOrdered .thread1 (.message n)) ∨
  s.thread2 = .readMessage ∧ ¬ s.memory.ReadOrdered .thread2 (.message 5)

end State

/-- Before the first round. -/
def initial : State where
  memory := ⟨fun _ => [⟨0, .empty⟩], fun _ => ⟨0, fun _ => 0, fun _ => 0⟩, fun _ => .empty⟩
  main := .clearMessage
  thread1 := .absent
  thread2 := .absent

def machine (o : Orders) : Machine State Action where
  init s := s = initial
  next := State.next o

/-- The orders under which what `thread_1` does before its store comes before what `thread_2` does
after a load that takes it. -/
def Orders.releaseAcquire : Orders := ⟨true, true⟩

/-- Behind the store to `ready`. -/
def Pc1.posted : Pc1 → Bool
  | .done | .joined => true
  | _ => false

/-- Started, and `ready` not yet set. -/
def Pc1.working : Pc1 → Bool
  | .readI | .writeMessage _ | .storeReady => true
  | _ => false

/-- `ready` has been cleared for this round. -/
def MainPc.cleared : MainPc → Bool
  | .clearMessage | .clearReady => false
  | _ => true

/-- Which threads there are. -/
def Phase (p : Pc1) (q : Pc2) : MainPc → Prop
  | .clearMessage | .clearReady | .setI | .start1 => p = .absent ∧ q = .absent
  | .start2 => (p.working = true ∨ p = .done) ∧ q = .absent
  | .join1 => (p.working = true ∨ p = .done) ∧ q ≠ .absent
  | .join2 => p = .joined ∧ q ≠ .absent

abbrev Memory := ReleaseAcquire Thread Unit ℤ Var ℤ

/-- The messages of `ready` since `main` has cleared it are the zero of `main` and, once `thread_1`
has posted it, a one with what `thread_1` has done before. -/
structure Round (m : Memory) (p : Pc1) (q : Pc2) (old rest : List (Message Thread Unit ℤ)) :
    Prop where
  messages : m.messages () = old ++ ⟨0, .empty⟩ :: rest
  main : old.length ≤ (m.known .main).view ()
  thread2 : q ≠ .absent → old.length ≤ (m.known .thread2).view ()
  waiting : p.posted = false → rest = []
  posted : p.posted = true → ∃ k, rest = [⟨1, k⟩] ∧ m.Covers k .thread1

/-- Who knows of whose accesses, what the plain variables hold where they are read, and which
messages there are of `ready`. -/
structure Inv (s : State) : Prop where
  own : ∀ t, s.memory.Covers (s.memory.known t) t
  ended : s.thread1 = .absent ∨ s.thread1 = .joined →
    s.memory.Covers (s.memory.known .main) .thread1
  gone : s.thread2 = .absent → s.memory.Covers (s.memory.known .main) .thread2
  alone : s.thread1.working = true → s.memory.Covers (s.memory.known .thread1) .main ∧
    s.memory.Covers (s.memory.known .thread1) .thread2
  behind : s.thread2 ≠ .absent → s.memory.Covers (s.memory.known .thread2) .main
  told : s.thread2 = .readMessage → s.thread1.posted = true ∧
    s.memory.Covers (s.memory.known .thread2) .thread1
  index : s.thread1 = .readI ∨ s.main = .start1 → (s.memory.plain .i).value = 56
  place : ∀ n, s.thread1 = .writeMessage n → n = 5
  value : s.thread1 = .storeReady ∨ s.thread1.posted = true →
    (s.memory.plain (.message 5)).value = 42
  passed : s.thread2 ≠ .failed
  phase : Phase s.thread1 s.thread2 s.main
  round : s.main.cleared = true → ∃ old rest, Round s.memory s.thread1 s.thread2 old rest

variable {s s' : State} {m m' : Memory} {p p' : Pc1} {q q' : Pc2} {main : MainPc}

/-- `thread_1` goes on. -/
theorem Phase.thread1 (h : Phase p q main) (works : p.working = true)
    (on : p'.working = true ∨ p' = .done) :
    Phase p' q main ∧ main.cleared = true ∧ main ≠ .start1 := by
  have there : p ≠ .absent ∧ p ≠ .joined := by
    constructor <;> rintro rfl <;> cases works
  cases main with
  | clearMessage | clearReady | setI | start1 => exact absurd h.1 there.1
  | start2 | join1 => exact ⟨⟨on, h.2⟩, rfl, MainPc.noConfusion⟩
  | join2 => exact absurd h.1 there.2

/-- `thread_2` goes on. -/
theorem Phase.thread2 (h : Phase p q main) (there : q ≠ .absent) (on : q' ≠ .absent) :
    Phase p q' main ∧ main.cleared = true ∧ main ≠ .start1 := by
  cases main with
  | clearMessage | clearReady | setI | start1 | start2 => exact absurd h.2 there
  | join1 | join2 => exact ⟨⟨h.1, on⟩, rfl, MainPc.noConfusion⟩

/-- No thread is at an access that is not ordered with the earlier ones, and the assertion holds. -/
theorem Inv.sound (h : Inv s) : ¬ s.Races ∧ s.thread2 ≠ .failed := by
  have started1 : s.thread1 = .absent → s.thread2 = .absent →
      ∀ t, s.memory.Covers (s.memory.known .main) t := by
    intro absent1 absent2 t
    cases t with
    | main => exact h.own .main
    | thread1 => exact h.ended (.inl absent1)
    | thread2 => exact h.gone absent2
  have working : s.thread1.working = true → ∀ t, s.memory.Covers (s.memory.known .thread1) t := by
    intro works t
    cases t with
    | main => exact (h.alone works).1
    | thread1 => exact h.own .thread1
    | thread2 => exact (h.alone works).2
  have phase := h.phase
  refine ⟨?_, h.passed⟩
  rintro (⟨here, race⟩ | ⟨here, race⟩ | ⟨here, race⟩ | ⟨n, here, race⟩ | ⟨here, race⟩)
  · rw [here] at phase
    exact race fun t => started1 phase.1 phase.2 t _
  · rw [here] at phase
    exact race fun t => started1 phase.1 phase.2 t _
  · exact race fun t => (working (by rw [here]; rfl) t _).1
  · exact race fun t => working (by rw [here]; rfl) t _
  · refine race fun t => ?_
    cases t with
    | main => exact (h.behind (by rw [here]; nofun) _).1
    | thread1 => exact ((h.told here).2 _).1
    | thread2 => exact (h.own .thread2 _).1

theorem Pc1.not_posted (works : p.working = true) : p.posted = false := by
  cases p with
  | absent | done | joined => cases works
  | readI | writeMessage | storeReady => rfl

/-- `thread_2` is not behind its test before `thread_1` has passed its store. -/
theorem Inv.unread (h : Inv s) (works : s.thread1.working = true) : s.thread2 ≠ .readMessage := by
  intro there
  have posted := (h.told there).1
  rw [Pc1.not_posted works] at posted
  cases posted

/-- A step after which `ready` has the same messages. -/
theorem Round.kept {old rest : List (Message Thread Unit ℤ)} (h : Round m p q old rest)
    (messages : m'.messages () = m.messages ())
    (views : ∀ t, (m.known t).view () ≤ (m'.known t).view ()) (there : q' ≠ .absent → q ≠ .absent)
    (posts : p'.posted = p.posted)
    (covers : p'.posted = true → ∀ k, m.Covers k .thread1 → m'.Covers k .thread1) :
    Round m' p' q' old rest where
  messages := messages.trans h.messages
  main := h.main.trans (views .main)
  thread2 e := (h.thread2 (there e)).trans (views .thread2)
  waiting e := h.waiting (posts.symm.trans e)
  posted e := by
    obtain ⟨k, only, known⟩ := h.posted (posts.symm.trans e)
    exact ⟨k, only, covers e k known⟩

theorem inv_initial : Inv initial := by
  have none (t u : Thread) : initial.memory.Covers (initial.memory.known t) u :=
    fun _ => ⟨Nat.le_refl 0, Nat.le_refl 0⟩
  exact
    { own := fun t => none t t
      ended := fun _ => none _ _
      gone := fun _ => none _ _
      alone := nofun
      behind := fun there => absurd rfl there
      told := nofun
      index := nofun
      place := nofun
      value := nofun
      passed := Pc2.noConfusion
      phase := ⟨rfl, rfl⟩
      round := nofun }

namespace Inv

/-- `message[5] = 0`. -/
theorem clearMessage (h : Inv s) (here : s.main = .clearMessage) :
    Inv { s with memory := s.memory.write .main (.message 5) 0, main := .clearReady } := by
  have phase := h.phase
  rw [here] at phase
  obtain ⟨absent1, absent2⟩ := phase
  refine
    { own := covers_own_write h.own
      ended := fun e => (h.ended e).write_known Thread.noConfusion
      gone := fun e => (h.gone e).write_known Thread.noConfusion
      alone := ?alone
      behind := fun e => absurd absent2 e
      told := ?told
      index := ?index
      place := h.place
      value := ?value
      passed := h.passed
      phase := ⟨absent1, absent2⟩
      round := nofun }
  case alone =>
    rw [absent1]
    nofun
  case told =>
    rw [absent2]
    nofun
  case index =>
    rw [absent1]
    nofun
  case value =>
    rw [absent1]
    nofun

/-- `ready.store(0, memory_order_relaxed)`. -/
theorem clearReady (h : Inv s) (here : s.main = .clearReady) :
    Inv { s with memory := s.memory.store .main () 0 false, main := .setI } := by
  have phase := h.phase
  rw [here] at phase
  obtain ⟨absent1, absent2⟩ := phase
  refine
    { own := fun t => (h.own t).store_known
      ended := fun e => (h.ended e).store_known
      gone := fun e => (h.gone e).store_known
      alone := ?alone
      behind := fun e => absurd absent2 e
      told := ?told
      index := ?index
      place := h.place
      value := ?value
      passed := h.passed
      phase := ⟨absent1, absent2⟩
      round := fun _ => ⟨s.memory.messages (), [], ?round⟩ }
  case alone =>
    rw [absent1]
    nofun
  case told =>
    rw [absent2]
    nofun
  case index =>
    rw [absent1]
    nofun
  case value =>
    rw [absent1]
    nofun
  case round =>
    refine ⟨store_messages_self, ?_, fun e => absurd absent2 e, fun _ => rfl, ?_⟩
    · rw [store_known_self]
      exact (Knowledge.see_view_self ..).ge
    · rw [absent1]
      nofun

/-- `i = 56`. -/
theorem setI (h : Inv s) (here : s.main = .setI) :
    Inv { s with memory := s.memory.write .main .i 56, main := .start1 } := by
  have phase := h.phase
  rw [here] at phase
  obtain ⟨absent1, absent2⟩ := phase
  obtain ⟨old, rest, round⟩ := h.round (by rw [here]; rfl)
  refine
    { own := covers_own_write h.own
      ended := fun e => (h.ended e).write_known Thread.noConfusion
      gone := fun e => (h.gone e).write_known Thread.noConfusion
      alone := ?alone
      behind := fun e => absurd absent2 e
      told := ?told
      index := fun _ => ?index
      place := h.place
      value := ?value
      passed := h.passed
      phase := ⟨absent1, absent2⟩
      round := fun _ => ⟨old, rest, round.kept rfl write_view_le id rfl ?round⟩ }
  case alone =>
    rw [absent1]
    nofun
  case told =>
    rw [absent2]
    nofun
  case index => rw [write_plain_self]
  case value =>
    rw [absent1]
    nofun
  case round =>
    rw [absent1]
    nofun

/-- `thread a(thread_1)`. -/
theorem start1 (h : Inv s) (here : s.main = .start1) :
    Inv { s with
      memory := s.memory.inform .main .thread1
      main := .start2
      thread1 := .readI } := by
  have phase := h.phase
  rw [here] at phase
  obtain ⟨absent1, absent2⟩ := phase
  obtain ⟨old, rest, round⟩ := h.round (by rw [here]; rfl)
  have unposted : Pc1.readI.posted = s.thread1.posted := by rw [absent1]; rfl
  refine
    { own := fun t => (h.own t).inform_known
      ended := nofun
      gone := fun e => (h.gone e).inform_known
      alone := fun _ => ⟨(h.own .main).informed, (h.gone absent2).informed⟩
      behind := fun e => absurd absent2 e
      told := ?told
      index := fun _ => h.index (.inr here)
      place := nofun
      value := nofun
      passed := h.passed
      phase := ⟨.inl rfl, absent2⟩
      round := fun _ => ⟨old, rest, round.kept rfl inform_view_le id unposted nofun⟩ }
  case told =>
    rw [absent2]
    nofun

/-- `thread b(thread_2)`. -/
theorem start2 (h : Inv s) (here : s.main = .start2) :
    Inv { s with
      memory := s.memory.inform .main .thread2
      main := .join1
      thread2 := .loadReady } := by
  have phase := h.phase
  rw [here] at phase
  obtain ⟨there1, absent2⟩ := phase
  obtain ⟨old, rest, round⟩ := h.round (by rw [here]; rfl)
  refine
    { own := fun t => (h.own t).inform_known
      ended := fun e => (h.ended e).inform_known
      gone := nofun
      alone := fun e => ⟨(h.alone e).1.inform_known, (h.alone e).2.inform_known⟩
      behind := fun _ => (h.own .main).informed
      told := nofun
      index := fun e => h.index (e.imp_right MainPc.noConfusion)
      place := h.place
      value := h.value
      passed := Pc2.noConfusion
      phase := ⟨there1, Pc2.noConfusion⟩
      round := fun _ => ⟨old, rest, ?round⟩ }
  case round =>
    refine ⟨round.messages, round.main.trans (inform_view_le _), fun _ => ?_, round.waiting,
      round.posted⟩
    -- The new thread starts with the view of `main`.
    rw [inform_known_self]
    exact round.main.trans (Nat.le_max_right ..)

/-- `a.join()`. -/
theorem join1 (h : Inv s) (here : s.main = .join1) (done : s.thread1 = .done) :
    Inv { s with
      memory := s.memory.inform .thread1 .main
      main := .join2
      thread1 := .joined } := by
  have phase := h.phase
  rw [here] at phase
  obtain ⟨old, rest, round⟩ := h.round (by rw [here]; rfl)
  have posted : s.thread1.posted = true := by rw [done]; rfl
  exact
    { own := fun t => (h.own t).inform_known
      ended := fun _ => (h.own .thread1).informed
      gone := fun e => (h.gone e).inform_known
      alone := nofun
      behind := fun e => (h.behind e).inform_known
      told := fun e => ⟨rfl, (h.told e).2.inform_known⟩
      index := nofun
      place := nofun
      value := fun _ => h.value (.inr posted)
      passed := h.passed
      phase := ⟨rfl, phase.2⟩
      round := fun _ =>
        ⟨old, rest, round.kept rfl inform_view_le id posted.symm fun _ _ covers => covers⟩ }

/-- `b.join()`. -/
theorem join2 (h : Inv s) (here : s.main = .join2) :
    Inv ⟨s.memory.inform .thread2 .main, .clearMessage, .absent, .absent⟩ := by
  have phase := h.phase
  rw [here] at phase
  exact
    { own := fun t => (h.own t).inform_known
      ended := fun _ => (h.ended (.inr phase.1)).inform_known
      gone := fun _ => (h.own .thread2).informed
      alone := nofun
      behind := fun e => absurd rfl e
      told := nofun
      index := nofun
      place := nofun
      value := nofun
      passed := Pc2.noConfusion
      phase := ⟨rfl, rfl⟩
      round := nofun }

/-- `thread_1` reads `i`. -/
theorem readI (h : Inv s) (here : s.thread1 = .readI) :
    Inv { s with
      memory := (s.memory.read .thread1 .i).2
      thread1 := .writeMessage ((s.memory.plain .i).value.tdiv 10) } := by
  have works : s.thread1.working = true := by rw [here]; rfl
  obtain ⟨known, knownToo⟩ := h.alone works
  obtain ⟨phase, cleared, started⟩ :=
    h.phase.thread1 works (.inl rfl : (Pc1.writeMessage _).working = true ∨ _)
  obtain ⟨old, rest, round⟩ := h.round cleared
  refine
    { own := covers_own_read h.own
      ended := nofun
      gone := fun e => (h.gone e).read_known Thread.noConfusion
      alone := fun _ =>
        ⟨known.read_known Thread.noConfusion, knownToo.read_known Thread.noConfusion⟩
      behind := fun e => (h.behind e).read_known Thread.noConfusion
      told := fun e => absurd e (h.unread works)
      index := fun e => e.elim Pc1.noConfusion fun there => absurd there started
      place := fun n there => ?place
      value := nofun
      passed := h.passed
      phase := phase
      round := fun _ =>
        ⟨old, rest, round.kept rfl read_view_le id (Pc1.not_posted works).symm nofun⟩ }
  case place =>
    have index := h.index (.inl here)
    rw [index] at there
    cases there
    rfl

/-- `message[i/10] = 42`. -/
theorem writeMessage {n : ℤ} (h : Inv s) (here : s.thread1 = .writeMessage n) :
    Inv { s with memory := s.memory.write .thread1 (.message n) 42, thread1 := .storeReady } := by
  have works : s.thread1.working = true := by rw [here]; rfl
  obtain ⟨known, knownToo⟩ := h.alone works
  obtain ⟨phase, cleared, started⟩ :=
    h.phase.thread1 works (.inl rfl : Pc1.storeReady.working = true ∨ _)
  obtain ⟨old, rest, round⟩ := h.round cleared
  refine
    { own := covers_own_write h.own
      ended := nofun
      gone := fun e => (h.gone e).write_known Thread.noConfusion
      alone := fun _ =>
        ⟨known.write_known Thread.noConfusion, knownToo.write_known Thread.noConfusion⟩
      behind := fun e => (h.behind e).write_known Thread.noConfusion
      told := fun e => absurd e (h.unread works)
      index := fun e => e.elim Pc1.noConfusion fun there => absurd there started
      place := nofun
      value := fun _ => ?value
      passed := h.passed
      phase := phase
      round := fun _ =>
        ⟨old, rest, round.kept rfl write_view_le id (Pc1.not_posted works).symm nofun⟩ }
  case value => rw [h.place n here, write_plain_self]

/-- `ready.store(1, memory_order_release)`. -/
theorem storeReady (h : Inv s) (here : s.thread1 = .storeReady) :
    Inv { s with memory := s.memory.store .thread1 () 1 true, thread1 := .done } := by
  have works : s.thread1.working = true := by rw [here]; rfl
  obtain ⟨phase, cleared, started⟩ := h.phase.thread1 works (.inr rfl)
  obtain ⟨old, rest, round⟩ := h.round cleared
  have alone : rest = [] := round.waiting (Pc1.not_posted works)
  let k := (s.memory.known .thread1).see () (s.memory.messages ()).length
  refine
    { own := fun t => (h.own t).store_known
      ended := nofun
      gone := fun e => (h.gone e).store_known
      alone := nofun
      behind := fun e => (h.behind e).store_known
      told := fun e => absurd e (h.unread works)
      index := fun e => e.elim Pc1.noConfusion fun there => absurd there started
      place := nofun
      value := fun _ => h.value (.inl here)
      passed := h.passed
      phase := phase
      round := fun _ => ⟨old, [⟨1, k⟩], ?messages, ?main, fun e => ?thread2, nofun,
        fun _ => ⟨k, rfl, ?posted⟩⟩ }
  case messages =>
    refine store_messages_self.trans ?_
    change s.memory.messages () ++ [⟨1, k⟩] = _
    rw [round.messages, alone, List.append_assoc]
    rfl
  case main =>
    rw [store_known_of_ne Thread.noConfusion]
    exact round.main
  case thread2 =>
    rw [store_known_of_ne Thread.noConfusion]
    exact round.thread2 e
  case posted => exact (h.own .thread1).mono rfl (Nat.le_refl _)

/-- A load that finds `ready` set takes the message of this round. -/
theorem loaded_one {i : ℕ} (h : Inv s) (here : s.thread2 = .loadReady)
    (loaded : s.memory.load .thread2 () true i = some (1, m')) :
    s.thread1.posted = true ∧ m'.Covers (m'.known .thread2) .thread1 := by
  have there : s.thread2 ≠ .absent := by rw [here]; exact Pc2.noConfusion
  obtain ⟨old, rest, round⟩ := h.round (h.phase.thread2 there there).2.1
  obtain ⟨recent, message, taken, value, -⟩ := load_eq_some loaded
  have inside : old.length ≤ i := (round.thread2 there).trans recent
  rw [round.messages, List.getElem?_append_right inside] at taken
  cases posted : s.thread1.posted with
  | false =>
    -- The only message is the zero of `main`.
    rw [round.waiting posted] at taken
    have zero := List.mem_singleton.mp (List.mem_of_getElem? taken)
    rw [zero] at value
    cases value
  | true =>
    obtain ⟨k, only, covers⟩ := round.posted posted
    rw [only] at taken
    have known : message = ⟨0, .empty⟩ ∨ message = ⟨1, k⟩ := by
      rcases List.mem_cons.mp (List.mem_of_getElem? taken) with zero | one
      · exact .inl zero
      · exact .inr (List.mem_singleton.mp one)
    rcases known with rfl | rfl
    · cases value
    · have told : s.memory.Covers (Message.mk (1 : ℤ) k).knowledge .thread1 := covers
      refine ⟨rfl, told.acquired loaded ?_⟩
      rw [round.messages, only, List.getElem?_append_right inside]
      exact taken

/-- `ready.load(memory_order_acquire) == 1`. -/
theorem loadReady {i : ℕ} {ready : ℤ} (h : Inv s) (here : s.thread2 = .loadReady)
    (loaded : s.memory.load .thread2 () true i = some (ready, m')) :
    Inv { s with memory := m', thread2 := if ready = 1 then .readMessage else .done } := by
  have there : s.thread2 ≠ .absent := by rw [here]; exact Pc2.noConfusion
  have on : (if ready = 1 then Pc2.readMessage else .done) ≠ .absent := by
    split_ifs <;> exact Pc2.noConfusion
  obtain ⟨phase, cleared, -⟩ := h.phase.thread2 there on
  obtain ⟨old, rest, round⟩ := h.round cleared
  have plain := load_plain loaded
  have messages := congrFun (load_messages loaded) ()
  refine
    { own := fun t => (h.own t).load_known loaded
      ended := fun e => (h.ended e).load_known loaded
      gone := fun e => absurd e on
      alone := fun e => ⟨(h.alone e).1.load_known loaded, (h.alone e).2.load_known loaded⟩
      behind := fun _ => (h.behind there).load_known loaded
      told := fun e => ?told
      index := fun e => ?index
      place := h.place
      value := fun e => ?value
      passed := ?passed
      phase := phase
      round := fun _ => ⟨old, rest, round.kept messages (load_view_le loaded) (fun _ => there) rfl
        fun _ _ covers => covers.mono plain (Nat.le_refl _)⟩ }
  case told =>
    have set : ready = 1 := by
      by_contra unset
      rw [if_neg unset] at e
      cases e
    subst set
    exact h.loaded_one here loaded
  case index =>
    rw [plain]
    exact h.index e
  case value =>
    rw [plain]
    exact h.value e
  case passed => split_ifs <;> exact Pc2.noConfusion

/-- The assertion. -/
theorem readMessage (h : Inv s) (here : s.thread2 = .readMessage) :
    (s.memory.plain (.message 5)).value = 42 ∧
      Inv { s with memory := (s.memory.read .thread2 (.message 5)).2, thread2 := .done } := by
  have there : s.thread2 ≠ .absent := by rw [here]; exact Pc2.noConfusion
  obtain ⟨phase, cleared, -⟩ := h.phase.thread2 there (Pc2.noConfusion : Pc2.done ≠ .absent)
  obtain ⟨old, rest, round⟩ := h.round cleared
  refine ⟨h.value (.inr (h.told here).1),
    { own := covers_own_read h.own
      ended := fun e => (h.ended e).read_known Thread.noConfusion
      gone := nofun
      alone := fun e => absurd here (h.unread e)
      behind := fun _ => (h.behind there).read_known Thread.noConfusion
      told := nofun
      index := fun e => ?index
      place := h.place
      value := fun e => ?value
      passed := Pc2.noConfusion
      phase := phase
      round := fun _ => ⟨old, rest, round.kept rfl read_view_le (fun _ => there) rfl
        fun _ _ covers => covers.read Thread.noConfusion⟩ }⟩
  case index =>
    rw [read_value]
    exact h.index e
  case value =>
    rw [read_value]
    exact h.value e

theorem stepMain (h : Inv s) (step : s.stepMain = some s') : Inv s' := by
  unfold State.stepMain at step
  cases here : s.main with
  | clearMessage =>
    rw [here] at step
    cases step
    exact h.clearMessage here
  | clearReady =>
    rw [here] at step
    cases step
    exact h.clearReady here
  | setI =>
    rw [here] at step
    cases step
    exact h.setI here
  | start1 =>
    rw [here] at step
    cases step
    exact h.start1 here
  | start2 =>
    rw [here] at step
    cases step
    exact h.start2 here
  | join1 =>
    rw [here] at step
    cases done : s.thread1 with
    | done =>
      rw [done] at step
      cases step
      exact h.join1 here done
    | absent | readI | writeMessage | storeReady | joined =>
      rw [done] at step
      cases step
  | join2 =>
    rw [here] at step
    cases done : s.thread2 with
    | done =>
      rw [done] at step
      cases step
      exact h.join2 here
    | absent | loadReady | readMessage | failed =>
      rw [done] at step
      cases step

theorem stepThread1 (h : Inv s) (step : s.stepThread1 .releaseAcquire = some s') : Inv s' := by
  unfold State.stepThread1 at step
  cases here : s.thread1 with
  | readI =>
    rw [here] at step
    cases step
    exact h.readI here
  | writeMessage =>
    rw [here] at step
    cases step
    exact h.writeMessage here
  | storeReady =>
    rw [here] at step
    cases step
    exact h.storeReady here
  | absent | done | joined =>
    rw [here] at step
    cases step

theorem stepThread2 {i : ℕ} (h : Inv s) (step : s.stepThread2 .releaseAcquire i = some s') :
    Inv s' := by
  unfold State.stepThread2 at step
  cases here : s.thread2 with
  | loadReady =>
    rw [here] at step
    obtain ⟨⟨ready, memory⟩, loaded, rfl⟩ := Option.map_eq_some_iff.mp step
    exact h.loadReady here loaded
  | readMessage =>
    obtain ⟨value, kept⟩ := h.readMessage here
    rw [here] at step
    cases step
    have passes :
        (if (s.memory.plain (.message 5)).value = 42 then Pc2.done else .failed) = .done :=
      if_pos value
    rw [← passes] at kept
    exact kept
  | absent | done | failed =>
    rw [here] at step
    cases step

end Inv

theorem reachable_inv (h : (machine .releaseAcquire).Reachable s) : Inv s := by
  refine h.invariant Inv (fun s (start : s = initial) => start ▸ inv_initial) ?_
  intro s a s' h step
  cases a with
  | main => exact h.stepMain step
  | thread1 => exact h.stepThread1 step
  | thread2 => exact h.stepThread2 step

/-- One round: `main` starts both threads, `thread_1` runs to its end, and `thread_2` finds what it
has stored. -/
def posted : List Action :=
  [.main, .main, .main, .main, .main, .thread1, .thread1, .thread1, .thread2 2]

/-- Without the two orders `thread_2` learns nothing from its load. -/
theorem posted_races {o : Orders} (other : o ≠ .releaseAcquire) :
    ∃ s, (machine o).run initial posted = some s ∧ s.Races := by
  rcases o with ⟨_ | _, _ | _⟩
  · refine ⟨_, rfl, .inr (.inr (.inr (.inr ⟨rfl, fun ordered => ?_⟩)))⟩
    exact absurd (ordered .thread1) (by decide)
  · refine ⟨_, rfl, .inr (.inr (.inr (.inr ⟨rfl, fun ordered => ?_⟩)))⟩
    exact absurd (ordered .thread1) (by decide)
  · refine ⟨_, rfl, .inr (.inr (.inr (.inr ⟨rfl, fun ordered => ?_⟩)))⟩
    exact absurd (ordered .thread1) (by decide)
  · exact absurd rfl other

/-- The orders of the file. -/
example : ∃ s, (machine .source).run initial posted = some s ∧ s.Races :=
  posted_races (by decide)

/-- In every round, no access races and the assertion holds, just if `ready` is stored with release
order and loaded with acquire order. -/
theorem message_passes_iff (o : Orders) :
    (∀ s, (machine o).Reachable s → ¬ s.Races ∧ s.thread2 ≠ .failed) ↔ o = .releaseAcquire := by
  constructor
  · intro sound
    by_contra other
    obtain ⟨s, run, races⟩ := posted_races other
    exact (sound s (Machine.run_reachable (.init rfl) run)).1 races
  · rintro rfl s h
    exact (reachable_inv h).sound

end Codelab.AtomicGccOrder
