import Codelab.EchoServer
import Codelab.Theory.Blocks

/-! What becomes of the memory of the server: which runs fault, and which blocks are never freed. -/

namespace Codelab.EchoServer

open Blocks

variable {L : Libevent} {s s' : State L} {c d e r ev n m : ℕ} {k : Callback} {fd : Int} {ok : Bool}

namespace State

def added (s : State L) : Finset ℕ := L.added s.base

/-- What libevent calls for the event at address `e`, if there is one and it has been set. -/
def calls (s : State L) (e : ℕ) : Option Call := (s.events e).bind L.calls

end State

/-- An added event belongs to a client in use, which waits for it. -/
inductive Armed (s : State L) (e : ℕ) : Callback → ℕ → Prop
  | read {c : ℕ} {fd : Int} (event : s.calls e = some ⟨.readCb, fd, c⟩)
      (client : s.clients c = some ⟨some e, none⟩) : Armed s e .readCb c
  | write {c r : ℕ} {fd fd' : Int} (event : s.calls e = some ⟨.writeCb, fd, c⟩)
      (client : s.clients c = some ⟨some r, some e⟩)
      (revent : s.calls r = some ⟨.readCb, fd', c⟩) : Armed s e .writeCb c

def Inv (s : State L) : Prop := ∀ e ∈ s.added, ∃ k c, Armed s e k c

theorem inv_initial (lib : L.Documented) : Inv (initial L) := by
  intro e mem
  change e ∈ L.added L.init at mem
  rw [lib.init] at mem
  cases mem

namespace State

theorem exists_event {call : Call} (h : s.calls e = some call) :
    ∃ event, s.events e = some event ∧ L.calls event = some call := Option.bind_eq_some_iff.mp h

theorem calls_none (free : s.events e = none) : s.calls e = none := by
  rw [calls, free]
  rfl

/-- Client `c` starts to wait for event `e`, which `event_add` adds if `ok`. -/
def wait (s : State L) (c : ℕ) (client : Client) (e : ℕ) (call : Call) (ok : Bool) : State L :=
  let event := L.eventSet L.zeroed call.fd call.callback call.arg
  { clients := Function.update s.clients c (some client)
    events := Function.update s.events e (some event)
    base := L.eventAdd s.base e event ok }

theorem acceptRound_added : s.acceptRound fd (some c) (some ev) ok =
    .ok (s.wait c ⟨some ev, none⟩ ev ⟨.readCb, fd, c⟩ ok) := by
  simp [acceptRound, wait, callocClient, callocEvent, loadClient, storeClient, eventSet, eventAdd,
    bind, Except.bind]

theorem acceptRound_failed (client : s.clients c = none) :
    s.acceptRound fd (some c) none ok = .ok s := by
  have back : Function.update s.clients c none = s.clients := by
    rw [← client, Function.update_eq_self]
  simp [acceptRound, callocClient, freeClient, back]

/-- A client that waits to be read has one event. -/
theorem delClient_read {event : L.Event} (client : s.clients c = some ⟨some r, none⟩)
    (revent : s.events r = some event) :
    s.delClient c = .ok
      { s with
        clients := Function.update s.clients c none
        events := Function.update s.events r none } := by
  simp [delClient, loadClient, freeEvent, freeClient, client, revent, bind, Except.bind]

theorem delClient_write {event event' : L.Event} (client : s.clients c = some ⟨some r, some e⟩)
    (revent : s.events r = some event) (wevent : s.events e = some event') (ne : e ≠ r) :
    s.delClient c = .ok
      { s with
        clients := Function.update s.clients c none
        events := Function.update (Function.update s.events r none) e none } := by
  simp [delClient, loadClient, freeEvent, freeClient, client, revent, wevent, ne, bind,
    Except.bind]

theorem readCb_added {readCnt : Int} {again : Bool} (received : 0 < readCnt)
    (client : s.clients c = some ⟨some r, none⟩) :
    s.readCb fd c readCnt again (some e) ok =
      .ok (s.wait c ⟨some r, some e⟩ e ⟨.writeCb, fd, c⟩ ok) := by
  simp [readCb, wait, Int.not_le.mpr received, callocEvent, loadClient, storeClient, eventSet,
    eventAdd, client, bind, Except.bind]

theorem readCb_nothing {readCnt : Int} {again : Bool} {block : Option ℕ} (nothing : readCnt ≤ 0) :
    s.readCb fd c readCnt again block ok = if again then .ok s else s.delClient c :=
  if_pos nothing

/-- `read_cb` goes on with the client that it has deleted. -/
theorem readCb_starved {event : L.Event} {readCnt : Int} {again : Bool} (received : 0 < readCnt)
    (client : s.clients c = some ⟨some r, none⟩) (revent : s.events r = some event) :
    s.readCb fd c readCnt again none ok = .error .freed := by
  simp [readCb, Int.not_le.mpr received, loadClient, storeClient, delClient, freeEvent, freeClient,
    client, revent, bind, Except.bind]

section

variable {client : Client} {call : Call}

theorem calls_wait (lib : L.Documented) : (s.wait c client e call ok).calls e = some call := by
  have mine : (s.wait c client e call ok).events e =
      some (L.eventSet L.zeroed call.fd call.callback call.arg) := Function.update_self ..
  rw [calls, mine]
  exact lib.set ..

theorem calls_wait_of_ne (ne : d ≠ e) : (s.wait c client e call ok).calls d = s.calls d :=
  congrArg (Option.bind · L.calls) (Function.update_of_ne ne ..)

theorem added_wait (lib : L.Documented) :
    (s.wait c client e call ok).added = if ok then insert e s.added else s.added := by
  cases ok with
  | true => exact lib.add ..
  | false => exact lib.fail ..

theorem added_take (lib : L.Documented) :
    { s with base := L.take s.base e }.added = s.added.erase e := lib.take ..

end

end State

/-- Only the memory of client `c` changes. -/
structure Local (c : ℕ) (s s' : State L) : Prop where
  clients : ∀ d, d ≠ c → s'.clients d = s.clients d
  calls : ∀ e fd k d, d ≠ c → s.calls e = some ⟨k, fd, d⟩ → s'.calls e = s.calls e

theorem Armed.calls_eq (h : Armed s e k c) : ∃ fd, s.calls e = some ⟨k, fd, c⟩ := by
  cases h with
  | read event client => exact ⟨_, event⟩
  | write event client revent => exact ⟨_, event⟩

theorem Armed.keep (h : Armed s e k d) (change : Local c s s') (ne : d ≠ c) : Armed s' e k d := by
  cases h with
  | read event client =>
    exact .read ((change.calls _ _ _ _ ne event).trans event) ((change.clients d ne).trans client)
  | write event client revent =>
    exact .write ((change.calls _ _ _ _ ne event).trans event)
      ((change.clients d ne).trans client) ((change.calls _ _ _ _ ne revent).trans revent)

/-- A client waits for one event at a time. -/
theorem Armed.unique {e' : ℕ} {k' : Callback} (h : Armed s e k c) (h' : Armed s e' k' c) :
    e = e' := by
  cases h with
  | read event client =>
    cases h' with
    | read event' client' =>
      rw [client] at client'
      simpa using client'
    | write event' client' revent' =>
      rw [client] at client'
      simp at client'
  | write event client revent =>
    cases h' with
    | read event' client' =>
      rw [client] at client'
      simp at client'
    | write event' client' revent' =>
      rw [client] at client'
      simp only [Option.some.injEq, Client.mk.injEq] at client'
      exact client'.2

/-- No added event belongs to client `c`. -/
def Apart (s : State L) (c : ℕ) : Prop := ∀ e ∈ s.added, ∃ k d, d ≠ c ∧ Armed s e k d

theorem Inv.apart (h : Inv s) (client : s.clients c = none) : Apart s c := by
  intro e mem
  obtain ⟨k, d, armed⟩ := h e mem
  refine ⟨k, d, ?_, armed⟩
  rintro rfl
  cases armed with
  | read event client' => simp [client] at client'
  | write event client' revent => simp [client] at client'

/-- The turn of `e` is about one client. -/
theorem Inv.apart_take (lib : L.Documented) (h : Inv s) (mine : Armed s e k c) :
    Apart { s with base := L.take s.base e } c := by
  intro e' mem
  rw [State.added_take lib, Finset.mem_erase] at mem
  obtain ⟨ne, old⟩ := mem
  obtain ⟨k', d, armed⟩ := h e' old
  have away : d ≠ c := fun same => ne (armed.unique (same ▸ mine))
  exact ⟨k', d, away, armed.keep ⟨fun _ _ => rfl, fun _ _ _ _ _ _ => rfl⟩ away⟩

def State.writes (s : State L) (e : ℕ) : Bool := (s.calls e).any (·.callback = .writeCb)

/-- How many of the added events wait for a write. -/
def State.writers (s : State L) : ℕ := (s.added.filter (s.writes ·)).card

theorem Armed.writes_eq (h : Armed s e k c) : s.writes e = decide (k = .writeCb) := by
  obtain ⟨fd, event⟩ := h.calls_eq
  simp [State.writes, event]

/-- Of the writers when `e` comes to the events of a set. -/
theorem Armed.card_insert (h : Armed s e k c) {events : Finset ℕ} (new : e ∉ events) :
    ((insert e events).filter (s.writes ·)).card =
      (events.filter (s.writes ·)).card + if k = .writeCb then 1 else 0 := by
  rw [Finset.filter_insert, h.writes_eq]
  by_cases write : k = .writeCb
  · rw [if_pos (decide_eq_true write), if_pos write]
    exact Finset.card_insert_of_notMem fun no => new (Finset.mem_filter.mp no).1
  · rw [if_neg (by rw [decide_eq_false write]; exact Bool.false_ne_true), if_neg write]
    rfl

namespace Apart

theorem inv (h : Apart s c) : Inv s := by
  intro e mem
  obtain ⟨k, d, -, armed⟩ := h e mem
  exact ⟨k, d, armed⟩

theorem change (h : Apart s c) (change : Local c s s') (added : s'.added = s.added) :
    Apart s' c := by
  intro e mem
  obtain ⟨k, d, ne, armed⟩ := h e (added ▸ mem)
  exact ⟨k, d, ne, armed.keep change ne⟩

theorem not_mem (h : Apart s c) (free : s.events e = none) : e ∉ s.added := by
  intro mem
  obtain ⟨k, d, -, armed⟩ := h e mem
  obtain ⟨fd, event⟩ := armed.calls_eq
  cases (State.calls_none free).symm.trans event

theorem writers_eq (h : Apart s c) (change : Local c s s') (added : s'.added = s.added) :
    s'.writers = s.writers := by
  rw [State.writers, State.writers, added]
  refine congrArg Finset.card (Finset.filter_congr fun e mem => ?_)
  obtain ⟨k, d, ne, armed⟩ := h e mem
  rw [armed.writes_eq, (armed.keep change ne).writes_eq]

variable {client : Client} {call : Call}

theorem local_wait (free : s.events e = none) : Local c s (s.wait c client e call ok) := by
  refine ⟨fun d ne => Function.update_of_ne ne .., fun e' fd k d ne old => ?_⟩
  refine State.calls_wait_of_ne ?_
  rintro rfl
  cases (State.calls_none free).symm.trans old

theorem wait (lib : L.Documented) (h : Apart s c) (free : s.events e = none)
    (mine : Armed (s.wait c client e call ok) e k c) : Inv (s.wait c client e call ok) := by
  intro e' mem
  rw [State.added_wait lib] at mem
  by_cases new : e' = e
  · exact ⟨k, c, new ▸ mine⟩
  · have old : e' ∈ s.added := by
      cases ok with
      | true => exact (Finset.mem_insert.mp mem).resolve_left new
      | false => exact mem
    obtain ⟨k', d, ne, armed⟩ := h e' old
    exact ⟨k', d, armed.keep (local_wait free) ne⟩

/-- The added events after `event_add` has returned: one more, unless it has failed. -/
theorem count_wait (lib : L.Documented) (h : Apart s c) (free : s.events e = none)
    (mine : Armed (s.wait c client e call ok) e k c) :
    (s.wait c client e call ok).added.card = s.added.card + ok.toNat ∧
      (s.wait c client e call ok).writers =
        s.writers + if k = .writeCb then ok.toNat else 0 := by
  have added : (s.wait c client e call ok).added = _ := State.added_wait lib
  cases ok with
  | true =>
    rw [if_pos rfl] at added
    have new := h.not_mem free
    have same : s.added.filter ((s.wait c client e call true).writes ·) =
        s.added.filter (s.writes ·) := by
      refine Finset.filter_congr fun e' mem => ?_
      obtain ⟨k', d, ne, armed⟩ := h e' mem
      rw [armed.writes_eq, (armed.keep (local_wait free) ne).writes_eq]
    rw [State.writers, added]
    exact ⟨Finset.card_insert_of_notMem new, by rw [mine.card_insert new, same]; rfl⟩
  | false =>
    rw [if_neg Bool.false_ne_true] at added
    rw [h.writers_eq (local_wait free) added, Bool.toNat_false, ite_self]
    exact ⟨congrArg Finset.card added, rfl⟩

end Apart

/-- `n + m` clients in use wait for no event: `n` of them hold one event, and `m` hold two. -/
structure Accounts (s : State L) (n m : ℕ) : Prop where
  inv : Inv s
  clients : Holds s.clients (s.added.card + n + m)
  events : Holds s.events (s.added.card + s.writers + n + 2 * m)

theorem accounts_initial (lib : L.Documented) : Accounts (initial L) 0 0 := by
  have none : (initial L).added = ∅ := lib.init
  refine ⟨inv_initial lib, ?_, ?_⟩
  · rw [none]
    exact holds_empty
  · rw [State.writers, none]
    exact holds_empty

theorem Armed.count_take (lib : L.Documented) (h : Armed s e k c) (mem : e ∈ s.added) :
    s.added.card = { s with base := L.take s.base e }.added.card + 1 ∧
      s.writers = { s with base := L.take s.base e }.writers + if k = .writeCb then 1 else 0 := by
  have back : insert e (s.added.erase e) = s.added := Finset.insert_erase mem
  rw [State.writers, State.writers, State.added_take lib]
  refine ⟨(Finset.card_erase_add_one mem).symm, ?_⟩
  conv_lhs => rw [← back]
  exact h.card_insert (Finset.notMem_erase e _)

namespace Accounts

theorem accept (lib : L.Documented) (h : Accounts s n m) (client : s.clients c = none)
    (event : s.events ev = none) :
    Accounts (s.wait c ⟨some ev, none⟩ ev ⟨.readCb, fd, c⟩ ok) (n + (!ok).toNat) m := by
  have mine : Armed (s.wait c ⟨some ev, none⟩ ev ⟨.readCb, fd, c⟩ ok) ev .readCb c :=
    .read (State.calls_wait lib) (Function.update_self ..)
  have apart := h.inv.apart client
  have clients := h.clients.alloc client (b := ⟨some ev, none⟩)
  have events := h.events.alloc event (b := L.eventSet L.zeroed fd .readCb c)
  obtain ⟨card, writers⟩ := apart.count_wait lib event mine
  rw [if_neg (by rintro ⟨⟩)] at writers
  have either : ok.toNat + (!ok).toNat = 1 := by cases ok <;> rfl
  exact ⟨apart.wait lib event mine, clients.of_eq (by omega), events.of_eq (by omega)⟩

/-- A client that `read` told to try again is left alone. -/
theorem strand (lib : L.Documented) (h : Accounts s n m) (mem : e ∈ s.added)
    (mine : Armed s e .readCb c) : Accounts { s with base := L.take s.base e } (n + 1) m := by
  obtain ⟨card, writers⟩ := mine.count_take lib mem
  rw [if_neg (by rintro ⟨⟩)] at writers
  exact ⟨(h.inv.apart_take lib mine).inv, h.clients.of_eq (by omega), h.events.of_eq (by omega)⟩

theorem answer (lib : L.Documented) (h : Accounts s (n + 1) m) (apart : Apart s c) {fd' : Int}
    (client : s.clients c = some ⟨some r, none⟩) (revent : s.calls r = some ⟨.readCb, fd', c⟩)
    (event : s.events ev = none) :
    Accounts (s.wait c ⟨some r, some ev⟩ ev ⟨.writeCb, fd, c⟩ ok) n (m + (!ok).toNat) := by
  have ne : r ≠ ev := by
    rintro rfl
    cases (State.calls_none event).symm.trans revent
  have mine : Armed (s.wait c ⟨some r, some ev⟩ ev ⟨.writeCb, fd, c⟩ ok) ev .writeCb c :=
    .write (State.calls_wait lib) (Function.update_self ..)
      ((State.calls_wait_of_ne ne).trans revent)
  have clients := h.clients.store (a := c) (b := ⟨some r, some ev⟩) (by simp [client])
  have events := h.events.alloc event (b := L.eventSet L.zeroed fd .writeCb c)
  obtain ⟨card, writers⟩ := apart.count_wait lib event mine
  rw [if_pos rfl] at writers
  have either : ok.toNat + (!ok).toNat = 1 := by cases ok <;> rfl
  exact ⟨apart.wait lib event mine, clients.of_eq (by omega), events.of_eq (by omega)⟩

theorem close (h : Accounts s (n + 1) m) (apart : Apart s c) {client : Client}
    (taken : s.clients c = some client) (revent : s.calls r = some ⟨.readCb, fd, c⟩) :
    Accounts { s with
      clients := Function.update s.clients c none
      events := Function.update s.events r none } n m := by
  obtain ⟨event, used, -⟩ := State.exists_event revent
  have change : Local c s { s with
      clients := Function.update s.clients c none
      events := Function.update s.events r none } := by
    refine ⟨fun d ne => Function.update_of_ne ne .., fun e fd k d ne old => ?_⟩
    refine congrArg (Option.bind · L.calls) (Function.update_of_ne ?_ ..)
    rintro rfl
    exact ne (congrArg Call.arg (Option.some.inj (revent.symm.trans old))).symm
  refine ⟨(apart.change change rfl).inv, ?_, ?_⟩
  · obtain ⟨i, count, holds⟩ := h.clients.free (a := c) (by simp [taken])
    obtain rfl : s.added.card + n + m = i := by omega
    exact holds
  · obtain ⟨i, count, holds⟩ := h.events.free (a := r) (by simp [used])
    obtain rfl : s.added.card + s.writers + n + 2 * m = i := by omega
    rw [apart.writers_eq change rfl]
    exact holds

theorem finish (lib : L.Documented) (h : Accounts s n m) (mem : e ∈ s.added) {fd' : Int}
    (event : s.calls e = some ⟨.writeCb, fd, c⟩) (client : s.clients c = some ⟨some r, some e⟩)
    (revent : s.calls r = some ⟨.readCb, fd', c⟩) (ne : e ≠ r) :
    Accounts
      { clients := Function.update s.clients c none
        events := Function.update (Function.update s.events r none) e none
        base := L.take s.base e } n m := by
  have mine : Armed s e .writeCb c := .write event client revent
  obtain ⟨card, writers⟩ := mine.count_take lib mem
  rw [if_pos rfl] at writers
  have apart := h.inv.apart_take lib mine
  obtain ⟨wevent, usedW, -⟩ := State.exists_event event
  obtain ⟨rdevent, usedR, -⟩ := State.exists_event revent
  have change : Local c { s with base := L.take s.base e }
      { clients := Function.update s.clients c none
        events := Function.update (Function.update s.events r none) e none
        base := L.take s.base e } := by
    refine ⟨fun d ne => Function.update_of_ne ne .., fun e' fd k d away old => ?_⟩
    have other : ∀ {a fd k}, s.calls a = some ⟨k, fd, c⟩ → e' ≠ a := by
      rintro a fd k theirs rfl
      exact away (congrArg Call.arg (Option.some.inj (theirs.symm.trans old))).symm
    exact congrArg (Option.bind · L.calls)
      ((Function.update_of_ne (other event) ..).trans (Function.update_of_ne (other revent) ..))
  refine ⟨(apart.change change rfl).inv, ?_, ?_⟩
  · obtain ⟨i, count, holds⟩ := h.clients.free (a := c) (by simp [client])
    obtain rfl : { s with base := L.take s.base e }.added.card + n + m = i := by omega
    exact holds
  · obtain ⟨i, count, holds⟩ := h.events.free (a := r) (by simp [usedR])
    obtain ⟨j, count', holds'⟩ := holds.free (a := e) (by simp [ne, usedW])
    rw [apart.writers_eq change rfl]
    obtain rfl : { s with base := L.take s.base e }.added.card +
      { s with base := L.take s.base e }.writers + n + 2 * m = j := by omega
    exact holds'

end Accounts

/-- A message has come and `calloc` fails for the answer. -/
def Action.starved : Action → Bool
  | .fire _ (.read readCnt _ none _) => 0 < readCnt
  | _ => false

/-- A client is left with its read event, which is not added: `read` has given nothing and `errno`
is `EAGAIN` or `EWOULDBLOCK`, or `event_add` has returned -1 in `accept_cb`. -/
def Action.strands : Action → Bool
  | .accept _ (some _) (some _) ok => !ok
  | .fire _ (.read readCnt true _ _) => readCnt ≤ 0
  | _ => false

/-- A client is left with both events, none added: `event_add` has returned -1 in `read_cb`. -/
def Action.mutes : Action → Bool
  | .fire _ (.read readCnt _ (some _) ok) => 0 < readCnt && !ok
  | _ => false

/-- The turn of a read event, which counts as stranded until the callback has done something for
its client. -/
theorem Accounts.fire_read (lib : L.Documented) (stranded : Accounts s (n + 1) m)
    (apart : Apart s c) (event : s.calls e = some ⟨.readCb, fd, c⟩)
    (client : s.clients c = some ⟨some e, none⟩)
    {readCnt : Int} {again : Bool} {block : Option ℕ} (free : fresh s.events block = true)
    {out : Except Fault (State L)} (ran : s.readCb fd c readCnt again block ok = out) :
    ((Action.fire e (.read readCnt again block ok)).starved = true ∧ out = .error .freed) ∨
      ((Action.fire e (.read readCnt again block ok)).starved = false ∧ ∃ s', out = .ok s' ∧
        Accounts s' (n + (Action.fire e (.read readCnt again block ok)).strands.toNat)
          (m + (Action.fire e (.read readCnt again block ok)).mutes.toNat)) := by
  obtain ⟨revent, used, -⟩ := State.exists_event event
  rcases lt_or_ge 0 readCnt with received | nothing
  · have strands : (Action.fire e (.read readCnt again block ok)).strands = false := by
      cases again with
      | false => rfl
      | true => exact decide_eq_false (Int.not_le.mpr received)
    rw [strands]
    cases block with
    | none =>
      left
      rw [State.readCb_starved received client used] at ran
      exact ⟨decide_eq_true received, ran.symm⟩
    | some ev =>
      right
      rw [State.readCb_added received client] at ran
      have mutes : (Action.fire e (.read readCnt again (some ev) ok)).mutes = !ok := by
        simp only [Action.mutes, decide_eq_true received, Bool.true_and]
      rw [mutes]
      exact ⟨rfl, _, ran.symm,
        stranded.answer lib apart client event (by simpa [fresh] using free)⟩
  · right
    have none : (Action.fire e (.read readCnt again block ok)).starved = false ∧
        (Action.fire e (.read readCnt again block ok)).mutes = false := by
      have no : decide (0 < readCnt) = false := decide_eq_false (Int.not_lt.mpr nothing)
      cases block with
      | none => exact ⟨no, rfl⟩
      | some ev => exact ⟨rfl, by simp only [Action.mutes, no, Bool.false_and]⟩
    rw [State.readCb_nothing nothing] at ran
    refine ⟨none.1, ?_⟩
    rw [none.2]
    cases again with
    | false =>
      rw [if_neg Bool.false_ne_true, State.delClient_read client used] at ran
      exact ⟨_, ran.symm, stranded.close apart client event⟩
    | true =>
      rw [if_pos rfl] at ran
      have strands : (Action.fire e (.read readCnt true block ok)).strands = true :=
        decide_eq_true nothing
      rw [strands]
      exact ⟨_, ran.symm, stranded⟩

theorem Accounts.step (lib : L.Documented) (h : Accounts s n m) {a : Action}
    {out : Except Fault (State L)} (next : s.act a = some out) :
    (a.starved = true ∧ out = .error .freed) ∨
      (a.starved = false ∧
        ∃ s', out = .ok s' ∧ Accounts s' (n + a.strands.toNat) (m + a.mutes.toNat)) := by
  cases a with
  | accept clientFd client event ok =>
    refine .inr ⟨rfl, ?_⟩
    simp only [State.act] at next
    split_ifs at next with free
    obtain rfl := Option.some.inj next
    cases client with
    | none => exact ⟨s, rfl, h⟩
    | some c =>
      have client : s.clients c = none := by simpa [fresh] using free.1
      cases event with
      | none => exact ⟨s, State.acceptRound_failed client, h⟩
      | some ev =>
        have event : s.events ev = none := by simpa [fresh] using free.2
        exact ⟨_, State.acceptRound_added, h.accept lib client event⟩
  | fire e answer =>
    simp only [State.act] at next
    split_ifs at next with mem
    obtain ⟨k, c, armed⟩ := h.inv e mem
    have apart := h.inv.apart_take lib armed
    obtain ⟨fd, call⟩ := armed.calls_eq
    obtain ⟨event, used, calls⟩ := State.exists_event call
    simp only [State.dispatch, used] at next
    cases armed with
    | read _ client =>
      simp only [calls] at next
      cases answer with
      | write => cases next
      | read readCnt again block ok =>
        simp only at next
        split_ifs at next with free
        exact (h.strand lib mem (.read call client)).fire_read lib apart call client free
          (Option.some.inj next)
    | @write c r _ fd' _ client revent =>
      simp only [calls] at next
      cases answer with
      | read readCnt again block ok => cases next
      | write =>
        obtain ⟨rdevent, usedR, -⟩ := State.exists_event revent
        have ne : e ≠ r := by
          rintro rfl
          have same := congrArg Call.callback (Option.some.inj (call.symm.trans revent))
          cases same
        have deleted := State.delClient_write (s := { s with base := L.take s.base e })
          client usedR used ne
        exact .inr ⟨rfl, _, (Option.some.inj next).symm.trans deleted,
          h.finish lib mem call client revent ne⟩

/-- A fault is the end of a run, so it is the last action that is starved. -/
theorem Accounts.run (lib : L.Documented) (h : Accounts s n m) {as : List Action}
    {out : Except Fault (State L)} (hrun : (machine L).run (.ok s) as = some out) :
    ((∃ a ∈ as, a.starved = true) ∧ out = .error .freed) ∨
      ((∀ a ∈ as, a.starved = false) ∧ ∃ s', out = .ok s' ∧
        Accounts s' (n + as.countP Action.strands) (m + as.countP Action.mutes)) := by
  induction as generalizing s n m with
  | nil =>
    obtain rfl : .ok s = out := by simpa only [Machine.run, Option.some.injEq] using hrun
    exact .inr ⟨fun _ no => absurd no List.not_mem_nil, s, rfl, h⟩
  | cons a as ih =>
    obtain ⟨mid, hnext, hrest⟩ := Option.bind_eq_some_iff.mp hrun
    rcases h.step lib hnext with ⟨starved, rfl⟩ | ⟨fed, s', rfl, now⟩
    · left
      cases as with
      | nil =>
        obtain rfl : .error .freed = out := by
          simpa only [Machine.run, Option.some.injEq] using hrest
        exact ⟨⟨a, List.mem_cons_self, starved⟩, rfl⟩
      | cons b bs => cases hrest
    · rcases ih now hrest with ⟨⟨b, mem, starved⟩, rfl⟩ | ⟨rest, s'', rfl, later⟩
      · exact .inl ⟨⟨b, List.mem_cons_of_mem a mem, starved⟩, rfl⟩
      · refine .inr ⟨List.forall_mem_cons.mpr ⟨fed, rest⟩, s'', rfl, ?_⟩
        have count : ∀ p : Action → Bool,
            (a :: as).countP p = (p a).toNat + as.countP p := by
          intro p
          rw [List.countP_cons, Nat.add_comm]
          cases p a <;> rfl
        rw [count, count, ← Nat.add_assoc, ← Nat.add_assoc]
        exact later

variable {as : List Action}

/-- A libevent that keeps the added events in a set. -/
def Libevent.simple : Libevent where
  Event := Option Call
  Base := Finset ℕ
  zeroed := none
  init := ∅
  eventSet _ fd callback arg := some ⟨callback, fd, arg⟩
  eventAdd base e _ ok := if ok then insert e base else base
  take base e := base.erase e
  calls event := event
  added base := base

theorem Libevent.simple_documented : Libevent.simple.Documented where
  set _ _ _ _ := rfl
  init := rfl
  add _ _ _ := rfl
  fail _ _ _ := rfl
  take _ _ := rfl

/-- The clients in use are those with an added event, and one more for each time that `read` gave
nothing with `EAGAIN` or `EWOULDBLOCK` in `errno` or `event_add` failed: these are never freed. Each
client holds its read event, and the write event once it is set. -/
theorem leaked (lib : L.Documented) (hrun : (machine L).run (.ok (initial L)) as = some (.ok s)) :
    (used s.clients).encard = s.added.card + as.countP Action.strands + as.countP Action.mutes ∧
      (used s.events).encard = s.added.card + s.writers + as.countP Action.strands +
        2 * as.countP Action.mutes := by
  rcases (accounts_initial lib).run lib hrun with ⟨-, no⟩ | ⟨-, s', same, accounts⟩
  · cases no
  · obtain rfl := Except.ok.inj same
    have clients := accounts.clients
    have events := accounts.events
    rw [Nat.zero_add, Nat.zero_add] at clients events
    exact ⟨by exact_mod_cast clients, by exact_mod_cast events⟩

/-- Of three clients the first is answered, the second was read too early, and the answer to the
third could not be added. -/
theorem leaked_two : ∃ s, (machine .simple).run (.ok (initial .simple))
    [.accept 5 (some 0) (some 0) true, .accept 6 (some 1) (some 1) true,
      .accept 7 (some 2) (some 2) true, .fire 0 (.read 3 false (some 3) true),
      .fire 1 (.read (-1) true none true), .fire 3 .write,
      .fire 2 (.read 3 false (some 4) false)] = some (.ok s) ∧
    s.added = ∅ ∧ (used s.clients).encard = 2 := by
  obtain ⟨s, hrun, done⟩ : ∃ s, (machine .simple).run (.ok (initial .simple))
      [.accept 5 (some 0) (some 0) true, .accept 6 (some 1) (some 1) true,
        .accept 7 (some 2) (some 2) true, .fire 0 (.read 3 false (some 3) true),
        .fire 1 (.read (-1) true none true), .fire 3 .write,
        .fire 2 (.read 3 false (some 4) false)] = some (.ok s) ∧ s.added = ∅ :=
    ⟨_, rfl, rfl⟩
  have count := (leaked Libevent.simple_documented hrun).1
  rw [done] at count
  refine ⟨s, hrun, done, count.trans ?_⟩
  simp [Action.strands, Action.mutes]
  rfl

end Codelab.EchoServer
