import Mathlib.Data.Nat.Notation
import Mathlib.Logic.Function.Basic

/-! A memory of atomic variables with relaxed, release and acquire accesses, and of plain variables.
The stores of an atomic variable stay as messages; a load may take an old one, but none older than
one that the thread knows to be there. What a thread knows goes with a release store to the threads
whose acquire loads take the message. The accesses of each thread to plain variables are numbered,
so that two of them are ordered if the later thread knows the number of the earlier access, and race
otherwise. The stores of one atomic variable are ordered as they are made, which is all that can
happen as long as one thread makes them, or each of them knows of the earlier ones. -/

namespace ReleaseAcquire

/-- How many accesses to plain variables each thread has made, and the newest message of each
atomic variable. -/
structure Knowledge (τ A : Type*) where
  clock : τ → ℕ
  view : A → ℕ

namespace Knowledge

variable {τ A : Type*}

def empty : Knowledge τ A := ⟨fun _ => 0, fun _ => 0⟩

def join (k l : Knowledge τ A) : Knowledge τ A where
  clock t := max (k.clock t) (l.clock t)
  view a := max (k.view a) (l.view a)

def see [DecidableEq A] (k : Knowledge τ A) (a : A) (i : ℕ) : Knowledge τ A :=
  { k with view := Function.update k.view a i }

def tick [DecidableEq τ] (k : Knowledge τ A) (t : τ) : Knowledge τ A :=
  { k with clock := Function.update k.clock t (k.clock t + 1) }

theorem clock_le_tick [DecidableEq τ] (k : Knowledge τ A) (t u : τ) :
    k.clock u ≤ (k.tick t).clock u := by
  by_cases same : u = t
  · rw [same]
    have now : (k.tick t).clock t = k.clock t + 1 := Function.update_self ..
    omega
  · exact Nat.le_of_eq (Function.update_of_ne same ..).symm

theorem see_view [DecidableEq A] (k : Knowledge τ A) (a : A) : k.see a (k.view a) = k := by
  rw [see, Function.update_eq_self]

theorem see_view_self [DecidableEq A] (k : Knowledge τ A) (a : A) (i : ℕ) :
    (k.see a i).view a = i := by
  rw [see]
  exact Function.update_self ..

end Knowledge

structure Message (τ A V : Type*) where
  value : V
  knowledge : Knowledge τ A

/-- A plain variable, with the number of the last read and of the last write of each thread. -/
structure Plain (τ W : Type*) where
  value : W
  reads : τ → ℕ
  writes : τ → ℕ

end ReleaseAcquire

open ReleaseAcquire in
structure ReleaseAcquire (τ A V ι W : Type*) where
  messages : A → List (Message τ A V)
  plain : ι → Plain τ W
  known : τ → Knowledge τ A

namespace ReleaseAcquire

variable {τ A V ι W : Type*}

def learn [DecidableEq τ] (m : ReleaseAcquire τ A V ι W) (t : τ) (k : Knowledge τ A) :
    ReleaseAcquire τ A V ι W :=
  { m with known := Function.update m.known t k }

/-- The load takes message `i`. -/
def load [DecidableEq τ] [DecidableEq A] (m : ReleaseAcquire τ A V ι W) (t : τ) (a : A)
    (acquire : Bool) (i : ℕ) : Option (V × ReleaseAcquire τ A V ι W) :=
  if (m.known t).view a ≤ i then
    (m.messages a)[i]?.map fun message =>
      let k := (m.known t).see a i
      (message.value, m.learn t (if acquire then k.join message.knowledge else k))
  else none

def store [DecidableEq τ] [DecidableEq A] (m : ReleaseAcquire τ A V ι W) (t : τ) (a : A) (v : V)
    (release : Bool) : ReleaseAcquire τ A V ι W :=
  let k := (m.known t).see a (m.messages a).length
  { m.learn t k with
    messages := Function.update m.messages a
      (m.messages a ++ [⟨v, if release then k else .empty⟩]) }

def read [DecidableEq τ] [DecidableEq ι] (m : ReleaseAcquire τ A V ι W) (t : τ) (x : ι) :
    W × ReleaseAcquire τ A V ι W :=
  let k := (m.known t).tick t
  ((m.plain x).value, { m.learn t k with
    plain := Function.update m.plain x
      { m.plain x with reads := Function.update (m.plain x).reads t (k.clock t) } })

def write [DecidableEq τ] [DecidableEq ι] (m : ReleaseAcquire τ A V ι W) (t : τ) (x : ι) (w : W) :
    ReleaseAcquire τ A V ι W :=
  let k := (m.known t).tick t
  { m.learn t k with
    plain := Function.update m.plain x
      { m.plain x with value := w, writes := Function.update (m.plain x).writes t (k.clock t) } }

/-- What `t` knows goes to `u`, which `t` starts or which has waited for the end of `t`. -/
def inform [DecidableEq τ] (m : ReleaseAcquire τ A V ι W) (t u : τ) : ReleaseAcquire τ A V ι W :=
  m.learn u ((m.known u).join (m.known t))

/-- A read races with writes that the thread knows nothing of. -/
def ReadOrdered (m : ReleaseAcquire τ A V ι W) (t : τ) (x : ι) : Prop :=
  ∀ u, (m.plain x).writes u ≤ (m.known t).clock u

/-- A write races with reads, too. -/
def WriteOrdered (m : ReleaseAcquire τ A V ι W) (t : τ) (x : ι) : Prop :=
  ∀ u, (m.plain x).writes u ≤ (m.known t).clock u ∧ (m.plain x).reads u ≤ (m.known t).clock u

/-- `k` tells of all accesses that `u` has made. -/
def Covers (m : ReleaseAcquire τ A V ι W) (k : Knowledge τ A) (u : τ) : Prop :=
  ∀ x, (m.plain x).writes u ≤ k.clock u ∧ (m.plain x).reads u ≤ k.clock u

variable {m m' : ReleaseAcquire τ A V ι W} {t : τ} {a : A} {acquire release : Bool} {i : ℕ} {v : V}

/-- All that is known by threads and told by messages. -/
structure All (P : Knowledge τ A → Prop) (m : ReleaseAcquire τ A V ι W) : Prop where
  known : ∀ t, P (m.known t)
  told : ∀ a, ∀ message ∈ m.messages a, P message.knowledge

theorem All.mono {P Q : Knowledge τ A → Prop} (h : All P m) (weaker : ∀ k, P k → Q k) : All Q m :=
  ⟨fun t => weaker _ (h.known t), fun a message mem => weaker _ (h.told a message mem)⟩

variable [DecidableEq τ] {k : Knowledge τ A} {u : τ} {b : A} {x y : ι} {w : W}

theorem learn_known_self : (m.learn t k).known t = k := Function.update_self ..

theorem learn_known_of_ne (ne : u ≠ t) : (m.learn t k).known u = m.known u :=
  Function.update_of_ne ne ..

theorem inform_known_self : (m.inform t u).known u = (m.known u).join (m.known t) :=
  learn_known_self

section

variable [DecidableEq ι]

theorem read_known_self : (m.read t x).2.known t = (m.known t).tick t := Function.update_self ..

theorem read_known_of_ne (ne : u ≠ t) : (m.read t x).2.known u = m.known u :=
  Function.update_of_ne ne ..

theorem read_plain_self : (m.read t x).2.plain x =
    { m.plain x with
      reads := Function.update (m.plain x).reads t (((m.known t).tick t).clock t) } :=
  Function.update_self ..

theorem read_plain_of_ne (ne : y ≠ x) : (m.read t x).2.plain y = m.plain y :=
  Function.update_of_ne ne ..

theorem read_value : ((m.read t x).2.plain y).value = (m.plain y).value := by
  by_cases same : y = x
  · rw [same, read_plain_self]
  · rw [read_plain_of_ne same]

theorem write_known_self : (m.write t x w).known t = (m.known t).tick t := Function.update_self ..

theorem write_known_of_ne (ne : u ≠ t) : (m.write t x w).known u = m.known u :=
  Function.update_of_ne ne ..

theorem write_plain_self : (m.write t x w).plain x =
    { m.plain x with
      value := w
      writes := Function.update (m.plain x).writes t (((m.known t).tick t).clock t) } :=
  Function.update_self ..

theorem write_plain_of_ne (ne : y ≠ x) : (m.write t x w).plain y = m.plain y :=
  Function.update_of_ne ne ..

end

theorem All.learn {P : Knowledge τ A → Prop} (h : All P m) (new : P k) :
    All P (m.learn t k) := by
  refine ⟨fun u => ?_, h.told⟩
  by_cases same : u = t
  · rwa [same, learn_known_self]
  · rw [learn_known_of_ne same]
    exact h.known u

variable [DecidableEq A]

theorem load_eq_some (loaded : m.load t a acquire i = some (v, m')) :
    (m.known t).view a ≤ i ∧ ∃ message, (m.messages a)[i]? = some message ∧ v = message.value ∧
      m' = m.learn t (if acquire then ((m.known t).see a i).join message.knowledge
        else (m.known t).see a i) := by
  unfold load at loaded
  by_cases old : (m.known t).view a ≤ i
  · rw [if_pos old] at loaded
    obtain ⟨message, there, same⟩ := Option.map_eq_some_iff.mp loaded
    rw [Prod.mk.injEq] at same
    exact ⟨old, message, there, same.1.symm, same.2.symm⟩
  · rw [if_neg old] at loaded
    cases loaded

theorem load_newest {message : Message τ A V} (old : (m.known t).view a ≤ i)
    (there : (m.messages a)[i]? = some message) :
    m.load t a acquire i = some (message.value, m.learn t
      (if acquire then ((m.known t).see a i).join message.knowledge else (m.known t).see a i)) := by
  rw [load, if_pos old, there]
  rfl

theorem load_known_of_ne (loaded : m.load t a acquire i = some (v, m')) (ne : u ≠ t) :
    m'.known u = m.known u := by
  obtain ⟨-, message, -, -, rfl⟩ := load_eq_some loaded
  exact learn_known_of_ne ne

theorem load_plain (loaded : m.load t a acquire i = some (v, m')) : m'.plain = m.plain := by
  obtain ⟨-, message, -, -, rfl⟩ := load_eq_some loaded
  rfl

theorem store_known_self :
    (m.store t a v release).known t = (m.known t).see a (m.messages a).length :=
  Function.update_self ..

theorem store_known_of_ne (ne : u ≠ t) : (m.store t a v release).known u = m.known u :=
  Function.update_of_ne ne ..

theorem store_messages_self : (m.store t a v release).messages a = m.messages a ++
    [⟨v, if release then (m.known t).see a (m.messages a).length else .empty⟩] :=
  Function.update_self ..

theorem store_messages_of_ne (ne : b ≠ a) : (m.store t a v release).messages b = m.messages b :=
  Function.update_of_ne ne ..

/-- The messages of a variable that is stored to. -/
theorem store_message {message : Message τ A V}
    (there : ((m.store t a v release).messages a)[i]? = some message) :
    (m.messages a)[i]? = some message ∨ i = (m.messages a).length ∧
      message = ⟨v, if release then (m.known t).see a (m.messages a).length else .empty⟩ := by
  rw [store_messages_self] at there
  rcases Nat.lt_or_ge i (m.messages a).length with old | new
  · rw [List.getElem?_append_left old] at there
    exact .inl there
  · rw [List.getElem?_append_right new] at there
    obtain ⟨inside, same⟩ := List.getElem?_eq_some_iff.mp there
    rw [List.length_singleton] at inside
    rw [List.getElem_singleton] at same
    exact .inr ⟨by omega, same.symm⟩

theorem All.store {P : Knowledge τ A → Prop} (h : All P m)
    (own : P ((m.known t).see a (m.messages a).length)) (empty : P .empty) :
    All P (m.store t a v release) := by
  refine ⟨(h.learn own).known, fun b message mem => ?_⟩
  by_cases same : b = a
  · subst same
    rw [store_messages_self] at mem
    rcases List.mem_append.mp mem with old | new
    · exact h.told b message old
    · rw [List.mem_singleton.mp new]
      cases release with
      | false => exact empty
      | true => exact own
  · rw [store_messages_of_ne same] at mem
    exact h.told b message mem

section

omit [DecidableEq A]

omit [DecidableEq τ] in
/-- Only the accesses count, and more knowledge covers more. -/
theorem Covers.mono {l : Knowledge τ A} (h : m.Covers k u) (plain : m'.plain = m.plain)
    (more : k.clock u ≤ l.clock u) : m'.Covers l u := by
  intro x
  rw [plain]
  exact ⟨Nat.le_trans (h x).1 more, Nat.le_trans (h x).2 more⟩

theorem learn_clock_le (more : ∀ u, (m.known t).clock u ≤ k.clock u) (v u : τ) :
    (m.known v).clock u ≤ ((m.learn t k).known v).clock u := by
  by_cases same : v = t
  · rw [same, learn_known_self]
    exact more u
  · exact Nat.le_of_eq (congrArg (fun l : Knowledge τ A => l.clock u) (learn_known_of_ne same).symm)

theorem learn_view_le (more : (m.known t).view a ≤ k.view a) (v : τ) :
    (m.known v).view a ≤ ((m.learn t k).known v).view a := by
  by_cases same : v = t
  · rw [same, learn_known_self]
    exact more
  · exact Nat.le_of_eq (congrArg (fun l : Knowledge τ A => l.view a) (learn_known_of_ne same).symm)

theorem inform_view_le (v : τ) : (m.known v).view a ≤ ((m.inform t u).known v).view a :=
  learn_view_le (Nat.le_max_left ..) v

theorem Covers.inform_known {v w : τ} (h : m.Covers (m.known v) w) :
    (m.inform t u).Covers ((m.inform t u).known v) w :=
  h.mono rfl (learn_clock_le (fun _ => Nat.le_max_left ..) v w)

/-- The one informed knows what the other one does. -/
theorem Covers.informed {w : τ} (h : m.Covers (m.known t) w) :
    (m.inform t u).Covers ((m.inform t u).known u) w := by
  refine h.mono rfl ?_
  rw [inform_known_self]
  exact Nat.le_max_right ..

variable [DecidableEq ι]

theorem write_clock_le (v u : τ) : (m.known v).clock u ≤ ((m.write t x w).known v).clock u :=
  learn_clock_le (Knowledge.clock_le_tick _ t) v u

theorem read_clock_le (v u : τ) : (m.known v).clock u ≤ ((m.read t x).2.known v).clock u :=
  learn_clock_le (Knowledge.clock_le_tick _ t) v u

theorem write_view_le (v : τ) : (m.known v).view a ≤ ((m.write t x w).known v).view a :=
  have ticked : (m.known t).view a ≤ ((m.known t).tick t).view a := Nat.le_refl _
  learn_view_le ticked v

theorem read_view_le (v : τ) : (m.known v).view a ≤ ((m.read t x).2.known v).view a :=
  have ticked : (m.known t).view a ≤ ((m.known t).tick t).view a := Nat.le_refl _
  learn_view_le ticked v

/-- An access of another thread. -/
theorem Covers.write (h : m.Covers k u) (ne : u ≠ t) : (m.write t x w).Covers k u := by
  intro y
  by_cases same : y = x
  · rw [same, write_plain_self]
    dsimp only
    rw [Function.update_of_ne ne]
    exact h x
  · rw [write_plain_of_ne same]
    exact h y

theorem Covers.read (h : m.Covers k u) (ne : u ≠ t) : (m.read t x).2.Covers k u := by
  intro y
  by_cases same : y = x
  · rw [same, read_plain_self]
    dsimp only
    rw [Function.update_of_ne ne]
    exact h x
  · rw [read_plain_of_ne same]
    exact h y

theorem Covers.write_known {v : τ} (h : m.Covers (m.known v) u) (ne : u ≠ t) :
    (m.write t x w).Covers ((m.write t x w).known v) u := (h.write ne).mono rfl (write_clock_le v u)

theorem Covers.read_known {v : τ} (h : m.Covers (m.known v) u) (ne : u ≠ t) :
    (m.read t x).2.Covers ((m.read t x).2.known v) u := (h.read ne).mono rfl (read_clock_le v u)

/-- A thread knows of its own accesses. -/
theorem Covers.write_self (h : m.Covers (m.known t) t) :
    (m.write t x w).Covers ((m.write t x w).known t) t := by
  intro y
  rw [write_known_self]
  have later := (m.known t).clock_le_tick t t
  by_cases same : y = x
  · rw [same, write_plain_self]
    dsimp only
    rw [Function.update_self]
    exact ⟨Nat.le_refl _, Nat.le_trans (h x).2 later⟩
  · rw [write_plain_of_ne same]
    exact ⟨Nat.le_trans (h y).1 later, Nat.le_trans (h y).2 later⟩

theorem Covers.read_self (h : m.Covers (m.known t) t) :
    (m.read t x).2.Covers ((m.read t x).2.known t) t := by
  intro y
  rw [read_known_self]
  have later := (m.known t).clock_le_tick t t
  by_cases same : y = x
  · rw [same, read_plain_self]
    dsimp only
    rw [Function.update_self]
    exact ⟨Nat.le_trans (h x).1 later, Nat.le_refl _⟩
  · rw [read_plain_of_ne same]
    exact ⟨Nat.le_trans (h y).1 later, Nat.le_trans (h y).2 later⟩

theorem covers_own_write (h : ∀ v, m.Covers (m.known v) v) (v : τ) :
    (m.write t x w).Covers ((m.write t x w).known v) v := by
  by_cases same : v = t
  · rw [same]
    exact (h t).write_self
  · exact (h v).write_known same

theorem covers_own_read (h : ∀ v, m.Covers (m.known v) v) (v : τ) :
    (m.read t x).2.Covers ((m.read t x).2.known v) v := by
  by_cases same : v = t
  · rw [same]
    exact (h t).read_self
  · exact (h v).read_known same

end

theorem Covers.store_known {w : τ} (h : m.Covers (m.known w) u) :
    (m.store t a v release).Covers ((m.store t a v release).known w) u := by
  refine h.mono rfl ?_
  by_cases same : w = t
  · rw [same, store_known_self]
    exact Nat.le_refl _
  · exact Nat.le_of_eq (congrArg (fun l : Knowledge τ A => l.clock u) (store_known_of_ne same).symm)

theorem Covers.load_known {w : τ} (h : m.Covers (m.known w) u)
    (loaded : m.load t a acquire i = some (v, m')) : m'.Covers (m'.known w) u := by
  refine h.mono (load_plain loaded) ?_
  obtain ⟨-, message, -, -, rfl⟩ := load_eq_some loaded
  refine learn_clock_le (fun u => ?_) w u
  cases acquire with
  | false => exact Nat.le_refl _
  | true => exact Nat.le_max_left ..

/-- What has been loaded is known to be there. -/
theorem load_view (loaded : m.load t a acquire i = some (v, m')) : i ≤ (m'.known t).view a := by
  obtain ⟨-, message, -, -, rfl⟩ := load_eq_some loaded
  have seen := Nat.le_of_eq ((m.known t).see_view_self a i).symm
  rw [learn_known_self]
  cases acquire with
  | false => exact seen
  | true => exact Nat.le_trans seen (Nat.le_max_left ..)

theorem load_view_le (loaded : m.load t a acquire i = some (v, m')) (w : τ) :
    (m.known w).view a ≤ (m'.known w).view a := by
  by_cases same : w = t
  · rw [same]
    exact Nat.le_trans (load_eq_some loaded).1 (load_view loaded)
  · exact Nat.le_of_eq
      (congrArg (fun l : Knowledge τ A => l.view a) (load_known_of_ne loaded same).symm)

theorem load_messages (loaded : m.load t a acquire i = some (v, m')) :
    m'.messages = m.messages := by
  obtain ⟨-, message, -, -, rfl⟩ := load_eq_some loaded
  rfl

/-- An acquire load tells what the message tells. -/
theorem Covers.acquired {message : Message τ A V} (h : m.Covers message.knowledge u)
    (loaded : m.load t a true i = some (v, m')) (there : (m.messages a)[i]? = some message) :
    m'.Covers (m'.known t) u := by
  refine h.mono (load_plain loaded) ?_
  obtain ⟨-, taken, here, -, rfl⟩ := load_eq_some loaded
  rw [there, Option.some_inj] at here
  rw [learn_known_self, here]
  exact Nat.le_max_right ..

end ReleaseAcquire
