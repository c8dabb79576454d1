import Codelab.Theory.Machine
import Codelab.Theory.Census
import Mathlib.Data.Finset.Card
import Mathlib.Data.Finset.Range
import Mathlib.Data.Fintype.Basic
import Mathlib.Tactic.Linarith

/-! `SocketPool`. Any thread may call `GetSocket` and `ReturnSocket`, one at a time. A step is
one section under `mtx_`, one atomic operation on `pool_count_`, one `IsValid`, one `new`
or one `delete` of a socket. The destructor runs while no call is in progress. -/

namespace Codelab.SocketPool

open Census

/-- Where a thread stands in `GetSocket` (up to `create`) or in `ReturnSocket`; `n` is the
local `sock`. -/
inductive Pc
  | idle
  | take
  | subtract (n : ℕ)
  | check (n : ℕ)
  | discard (n : ℕ)
  | test
  | add
  | create
  | push (n : ℕ)
  | addReturned
  deriving DecidableEq

/-- Sockets are numbered in the order of their making. `pool` is `pool_`, its back first,
`held` are the sockets that a thread has got and not returned. -/
structure State (τ : Type*) where
  pool : List ℕ
  poolCount : Int
  made : ℕ
  deleted : List ℕ
  held : τ → List ℕ
  destroyed : Bool
  pc : τ → Pc

/-- `valid` is what `IsValid` answers, if the step calls it. -/
inductive Action (τ : Type*)
  | getSocket (t : τ)
  | returnSocket (t : τ) (sock : Option ℕ)
  | step (t : τ) (valid : Bool)
  | destruct

variable {τ : Type*} [DecidableEq τ]

namespace State

def goto (s : State τ) (t : τ) (pc : Pc) : State τ :=
  { s with pc := Function.update s.pc t pc }

def give (s : State τ) (t : τ) (n : ℕ) : State τ :=
  { s with held := Function.update s.held t (n :: s.held t) }

def step (size : Int) (s : State τ) (t : τ) (valid : Bool) : Option (State τ) :=
  match s.pc t with
  | .idle => none
  | .take =>
    match s.pool with
    | [] => some (s.goto t .test)
    | n :: rest => some { s.goto t (.subtract n) with pool := rest }
  | .subtract n => some { s.goto t (.check n) with poolCount := s.poolCount - 1 }
  | .check n => if valid then some ((s.give t n).goto t .idle) else some (s.goto t (.discard n))
  | .discard n => some { s.goto t .take with deleted := n :: s.deleted }
  | .test => if s.poolCount < size then some (s.goto t .add) else some (s.goto t .idle)
  | .add => some { s.goto t .create with poolCount := s.poolCount + 1 }
  | .create => some { (s.give t s.made).goto t .idle with made := s.made + 1 }
  | .push n => some { s.goto t .addReturned with pool := n :: s.pool }
  | .addReturned => some { s.goto t .idle with poolCount := s.poolCount + 1 }

/-- A thread returns only what it holds, and gives it up. -/
def act [Fintype τ] (size : Int) (s : State τ) : Action τ → Option (State τ)
  | .getSocket t =>
    if s.pc t = .idle ∧ s.destroyed = false then some (s.goto t .take) else none
  | .returnSocket t none =>
    if s.pc t = .idle ∧ s.destroyed = false then some s else none
  | .returnSocket t (some n) =>
    if s.pc t = .idle ∧ s.destroyed = false ∧ n ∈ s.held t then
      some { s.goto t (.push n) with held := Function.update s.held t ((s.held t).erase n) }
    else none
  | .step t valid => s.step size t valid
  | .destruct =>
    if (∀ t, s.pc t = .idle) ∧ s.destroyed = false then
      some { s with deleted := s.pool.reverse ++ s.deleted, pool := [], destroyed := true }
    else none

/-- The sockets that have been made and not deleted. -/
def live (s : State τ) : Finset ℕ := {n ∈ Finset.range s.made | n ∉ s.deleted}

omit [DecidableEq τ] in
theorem live_card_le (s : State τ) : s.live.card ≤ s.made := by
  have le := Finset.card_filter_le (Finset.range s.made) fun n => n ∉ s.deleted
  rwa [Finset.card_range] at le

end State

def initial (τ : Type*) : State τ where
  pool := []
  poolCount := 0
  made := 0
  deleted := []
  held := fun _ => []
  destroyed := false
  pc := fun _ => .idle

/-- A new pool with `pool_size_` equal to `size`. -/
def machine (size : Int) (τ : Type*) [DecidableEq τ] [Fintype τ] :
    Machine (State τ) (Action τ) where
  init s := s = initial τ
  next := State.act size

end Codelab.SocketPool
