import Codelab.DoublyBufferedDataCalls
import Mathlib.Data.Fintype.Defs
import Mathlib.Data.List.Infix
import Mathlib.Data.List.TakeWhile

/-! Several writers at once. Nothing orders the applications of two calls of
`Modify`, so the buffers can carry them in different orders. They agree as long as
no call is applied to a buffer ahead of a call that was applied to the other
buffer before it, and so as long as no call begins to apply its function while
another one is between its two applications. -/

namespace Codelab.DoublyBufferedData

variable {T τ : Type*} [DecidableEq τ] {initial : T} {s s' : State T τ}

/-- Every call applied to the other buffer before `c` is already applied to `b`. -/
def State.caughtUp (s : State T τ) (c : Call T) (b : Bool) : Bool :=
  ((s.log !b).takeWhile fun d => d.id != c.id).all fun d => (s.log b).any fun e => e.id == d.id

/-- The condition on one step. -/
def State.inOrder (s : State T τ) (a : Action T τ) : Bool :=
  [false, true].all fun b => (s.applying a b).all fun c => s.caughtUp c b

/-- One log is ahead of the other, and while every function accepts, a call is
logged or pending. -/
structure WritersInv (s : State T τ) : Prop where
  calls : CallInv s
  aligned : s.log false <+: s.log true ∨ s.log true <+: s.log false
  kept : (∀ c ∈ s.calls, ∀ x, (c.fn.run x).1 = true) →
    ∀ c ∈ s.calls, ∀ b, c ∈ s.log b ∨ ∃ t, (s.pc t).pending b = some c

theorem aligned_concat {l m : List (Call T)} {c : Call T} (nodup : m.Nodup) (new : c ∉ l)
    (ready : ∀ d ∈ m.takeWhile fun d => d.id != c.id, d ∈ l)
    (known : ∀ d ∈ m, d.id = c.id → d = c) (aligned : l <+: m ∨ m <+: l) :
    l ++ [c] <+: m ∨ m <+: l ++ [c] := by
  rcases aligned with ⟨rest, rfl⟩ | behind
  · cases rest with
    | nil => exact .inr (by rw [List.append_nil]; exact List.prefix_append ..)
    | cons d rest =>
      -- the call right behind `l` in `m` can only be `c`
      have fresh : d ∉ l := fun old =>
        (List.nodup_append.mp nodup).2.2 d old d (List.mem_cons_self ..) rfl
      have here : d.id = c.id := by
        by_contra e
        have early : l ++ [d] <+: (l ++ d :: rest).takeWhile fun d => d.id != c.id := by
          rw [List.takeWhile_append_of_pos, List.takeWhile_cons_of_pos]
          · exact ⟨_, by rw [List.append_assoc]; rfl⟩
          · simpa using e
          · intro x hx
            simp only [bne_iff_ne]
            intro same
            exact new (known x (List.mem_append_left _ hx) same ▸ hx)
        exact fresh (ready d (early.subset (List.mem_append_right _ (List.mem_singleton_self d))))
      obtain rfl := known d (List.mem_append_right _ (List.mem_cons_self ..)) here
      exact .inl ⟨rest, by rw [List.append_assoc]; rfl⟩
  · exact .inr (behind.trans (List.prefix_append ..))

theorem writersInv_init (h : (machine initial τ).init s) : WritersInv s := by
  have calls := callInv_init h
  obtain ⟨-, -, -, -, -, -, -, -, none, log, -⟩ := h
  refine ⟨calls, .inl ?_, ?_⟩
  · rw [log, log]
  · simp [none]

omit [DecidableEq τ] in
/-- One action applies a call to one buffer only. -/
theorem applying_one {a : Action T τ} {b : Bool} {c : Call T} (h : s.applying a b = some c) :
    s.applying a (!b) = none := by
  cases a with
  | step t fails =>
    simp only [State.applying] at h ⊢
    cases pc : s.pc t with
    | modFirst d bg | modSecond d bg =>
      simp only [pc] at h ⊢
      split_ifs at h with e
      exact if_neg (by simp [e])
    | _ => rfl
  | _ => rfl

omit [DecidableEq τ] in
theorem caughtUp_of_inOrder {a : Action T τ} {b : Bool} {c : Call T} (h : s.inOrder a = true)
    (applying : s.applying a b = some c) : s.caughtUp c b = true := by
  simp only [State.inOrder, List.all_cons, List.all_nil, Bool.and_true, Bool.and_eq_true] at h
  cases b with
  | false => simpa only [applying, Option.all_some] using h.1
  | true => simpa only [applying, Option.all_some] using h.2

omit [DecidableEq τ] in
/-- An application in order keeps the logs aligned. -/
theorem WritersInv.concat (inv : WritersInv s) {b : Bool} {c : Call T} (mine : c ∈ s.calls)
    (new : c ∉ s.log b) (ready : s.caughtUp c b = true) :
    s.log b ++ [c] <+: s.log (!b) ∨ s.log (!b) <+: s.log b ++ [c] := by
  have known : ∀ d ∈ s.log (!b), d.id = c.id → d = c := fun d hd same =>
    inv.calls.eq_of_id (inv.calls.logged _ hd) mine same
  refine aligned_concat (inv.calls.once _) new ?_ known ?_
  · intro d hd
    obtain ⟨e, he, same⟩ := List.any_eq_true.mp (List.all_eq_true.mp ready d hd)
    have inCalls := inv.calls.logged _ ((List.takeWhile_prefix _).subset hd)
    obtain rfl := inv.calls.eq_of_id (inv.calls.logged _ he) inCalls (beq_iff_eq.mp same)
    exact he
  · cases b with
    | false => exact inv.aligned
    | true => exact inv.aligned.symm

theorem WritersInv.act (inv : WritersInv s) {a : Action T τ} (inOrder : s.inOrder a = true)
    (h : s.act a = some s') : WritersInv s' := by
  have calls := inv.calls.act h
  rcases act_deals h with ⟨t, pc, hpc, sameCalls, deals⟩ | ⟨t, fn, hpc, newCall, log, idle, -⟩
  · have grown : ∀ b, s'.log b = s.log b ∨ ∃ c, s.applying a b = some c ∧
        s'.log b = s.log b ++ [c] ∧ (s.log b ++ [c] <+: s.log (!b) ∨
          s.log (!b) <+: s.log b ++ [c]) := by
      intro b
      rcases deals b with ⟨-, -, same⟩ | ⟨c, mine, -, ⟨applying, more⟩ | ⟨-, same⟩⟩
      · exact .inl same
      · exact .inr ⟨c, applying, more, inv.concat (inv.calls.mine b t c mine)
          (inv.calls.waiting b t c mine) (caughtUp_of_inOrder inOrder applying)⟩
      · exact .inl same
    refine ⟨calls, ?_, fun accepting => ?_⟩
    · rcases grown false with front | ⟨c, applying, front, ahead⟩ <;>
        rcases grown true with back | ⟨d, applying', back, ahead'⟩ <;> rw [front, back]
      · exact inv.aligned
      · exact ahead'.symm
      · exact ahead
      · exact absurd (applying'.symm.trans (applying_one applying)) (Option.some_ne_none d)
    · rw [sameCalls] at accepting ⊢
      intro c hc b
      rcases inv.kept accepting c hc b with logged | ⟨u, hu⟩
      · refine .inl ?_
        rcases grown b with same | ⟨d, -, more, -⟩
        · exact same ▸ logged
        · exact more ▸ List.mem_append_left _ logged
      · by_cases e : u = t
        · subst e
          rcases deals b with ⟨-, same, -⟩ | ⟨d, mine, -, ⟨-, more⟩ | ⟨⟨x, refused⟩, -⟩⟩
          · exact .inr ⟨u, by rw [hpc, Function.update_self, same, hu]⟩
          · obtain rfl := Option.some.inj (mine.symm.trans hu)
            exact .inl (more ▸ List.mem_append_right _ (List.mem_singleton_self d))
          · obtain rfl := Option.some.inj (mine.symm.trans hu)
            exact absurd (refused.symm.trans (accepting d hc x)) Bool.false_ne_true
        · exact .inr ⟨u, by rw [hpc, Function.update_of_ne e, hu]⟩
  · refine ⟨calls, by rw [log]; exact inv.aligned, fun accepting => ?_⟩
    rw [newCall] at accepting ⊢
    intro c hc b
    rcases List.mem_append.mp hc with old | last
    · rcases inv.kept (fun d hd => accepting d (List.mem_append_left _ hd)) c old b with
        logged | ⟨u, hu⟩
      · exact .inl (log ▸ logged)
      · have e : u ≠ t := by
          rintro rfl
          exact Option.some_ne_none c (hu.symm.trans (idle b))
        exact .inr ⟨u, by rw [hpc, Function.update_of_ne e, hu]⟩
    · obtain rfl := List.mem_singleton.mp last
      exact .inr ⟨t, by rw [hpc, Function.update_self]; rfl⟩

theorem writersInv_reachable
    (hs : (machine initial τ).ReachableBy (fun s a => s.inOrder a) s) : WritersInv s :=
  hs.invariant WritersInv (fun _ => writersInv_init) fun s a _ inv inOrder h =>
    inv.act inOrder (show s.act a = some _ from h)

omit [DecidableEq τ] in
/-- With every call returned, both buffers carry all calls in the same order. -/
theorem WritersInv.settled (inv : WritersInv s)
    (accepting : ∀ c ∈ s.calls, ∀ x, (c.fn.run x).1 = true)
    (returned : ∀ t, (s.pc t).modifying = false) (b : Bool) :
    (s.log b).Perm s.calls ∧ s.log b = s.log true := by
  have idle : ∀ b t, (s.pc t).pending b = none := by
    intro b t
    have quiet := returned t
    revert quiet
    cases s.pc t <;> simp [Pc.modifying, Pc.pending]
  have perm : ∀ b, (s.log b).Perm s.calls := fun b => by
    refine (List.perm_ext_iff_of_nodup (inv.calls.once b) inv.calls.distinct.of_map).mpr ?_
    refine fun c => ⟨fun hc => inv.calls.logged b hc, fun hc => ?_⟩
    rcases inv.kept accepting c hc b with logged | ⟨t, ht⟩
    · exact logged
    · exact absurd (ht.symm.trans (idle b t)) (Option.some_ne_none c)
  have length : (s.log false).length = (s.log true).length :=
    (perm false).length_eq.trans (perm true).length_eq.symm
  refine ⟨perm b, ?_⟩
  cases b with
  | true => rfl
  | false =>
    rcases inv.aligned with ahead | ahead
    · exact ahead.eq_of_length length
    · exact (ahead.eq_of_length length.symm).symm

/-- Once all calls have returned, both buffers hold the initial value with every
function applied once, in one order: in every run whose applications are in order. -/
theorem modify_converges (hs : (machine initial τ).ReachableBy (fun s a => s.inOrder a) s)
    (accepting : ∀ c ∈ s.calls, ∀ x, (c.fn.run x).1 = true)
    (returned : ∀ t, (s.pc t).modifying = false) :
    ∃ order, order.Perm s.calls ∧ ∀ b, s.data b = applyAll order initial := by
  have inv := writersInv_reachable hs
  have settled := inv.settled accepting returned
  refine ⟨s.log true, (settled true).1, fun b => ?_⟩
  rw [values_reachable hs.reachable b, (settled b).2]

/-- Between its two applications. -/
def Pc.halfway {T : Type*} : Pc T → Bool
  | .modStore .. | .modLock .. | .modWait .. | .modWaited .. | .modUnlock .. | .modSecond .. => true
  | _ => false

/-- A call that is applied to its first buffer. -/
def State.begins (s : State T τ) : Action T τ → Bool
  | .step t _ =>
    match s.pc t with
    | .modFirst .. => true
    | _ => false
  | _ => false

/-- No call is applied to its first buffer while another one is between its two. -/
def State.apart (s : State T τ) (a : Action T τ) : Prop :=
  s.begins a = true → ∀ t, (s.pc t).halfway = false

instance [Fintype τ] (s : State T τ) (a : Action T τ) : Decidable (s.apart a) :=
  inferInstanceAs (Decidable (_ → _))

/-- The buffers carry the same calls, up to the one between its two applications. -/
structure Level (s : State T τ) : Prop where
  same : (∀ t, (s.pc t).halfway = false) → ∀ b, s.log (!b) = s.log b
  ahead : ∀ b t c, (s.pc t).pending b = some c → (s.pc t).pending (!b) = none →
    s.log (!b) = s.log b ++ [c] ∧ ∀ u, (s.pc u).halfway = true → u = t

theorem Pc.halfway_iff {pc : Pc T} : pc.halfway = true ↔
    ∃ b c, pc.pending b = some c ∧ pc.pending (!b) = none := by
  cases pc with
  | modStore c bg => cases bg <;> simp [Pc.halfway, Pc.pending]
  | modLock c bg | modWait c bg i | modWaited c bg i w | modUnlock c bg | modSecond c bg =>
    cases bg <;> simp [Pc.halfway, Pc.pending]
  | _ => simp [Pc.halfway, Pc.pending]

theorem Pc.not_halfway {pc : Pc T} (same : ∀ b, (pc.pending b).isSome = (pc.pending !b).isSome) :
    pc.halfway = false := by
  refine Bool.eq_false_iff.mpr fun halfway => ?_
  obtain ⟨b, c, here, there⟩ := halfway_iff.mp halfway
  have both := same b
  rw [here, there] at both
  cases both

theorem Pc.pending_same {pc : Pc T} {b : Bool} {c d : Call T} (here : pc.pending b = some c)
    (there : pc.pending (!b) = some d) : c = d := by
  cases pc with
  | modLoad | modFirst =>
    exact Option.some.inj (here.symm.trans there)
  | modStore e bg | modLock e bg | modWait e bg i | modWaited e bg i w | modUnlock e bg
  | modSecond e bg => cases b <;> cases bg <;> simp [Pc.pending] at here there
  | _ => cases here

omit [DecidableEq τ] in
/-- A call that has not been applied yet begins. -/
theorem begins_of_applying {a : Action T τ} {t : τ} {fails : Bool} {b : Bool} {c d : Call T}
    (step : a = .step t fails) (applying : s.applying a b = some c)
    (there : (s.pc t).pending (!b) = some d) : s.begins a = true := by
  subst step
  simp only [State.applying] at applying
  cases pc : s.pc t with
  | modFirst e bg => simp only [State.begins, pc]
  | modSecond e bg =>
    simp only [pc] at applying
    split_ifs at applying with here
    rw [pc] at there
    cases b <;> cases bg <;> simp [Pc.pending] at here there
  | _ => simp only [pc] at applying; cases applying

omit [DecidableEq τ] in
theorem pending_of_applying {t : τ} {fails : Bool} {b : Bool} {c : Call T}
    (applying : s.applying (.step t fails) b = some c) : (s.pc t).pending b = some c := by
  simp only [State.applying] at applying
  cases pc : s.pc t with
  | modFirst d bg =>
    simp only [pc] at applying
    split_ifs at applying
    exact applying
  | modSecond d bg =>
    simp only [pc] at applying
    exact applying
  | _ => simp only [pc] at applying; cases applying

theorem level_init (h : (machine initial τ).init s) : Level s := by
  obtain ⟨-, -, -, -, -, -, -, pc, -, log, -⟩ := h
  refine ⟨fun _ b => by rw [log, log], fun b t c pending => ?_⟩
  rw [pc] at pending
  cases pending

omit [DecidableEq τ] in
/-- An application by a call that may begin, or that ends, is in order. -/
theorem Level.caughtUp (level : Level s) {a : Action T τ} {t : τ} {fails : Bool} {b : Bool}
    {c : Call T} (apart : s.apart a) (step : a = .step t fails)
    (applying : s.applying a b = some c) (pending : (s.pc t).pending b = some c) :
    s.caughtUp c b = true := by
  refine List.all_eq_true.mpr fun d early => List.any_eq_true.mpr ⟨d, ?_, beq_self_eq_true _⟩
  have logged := (List.takeWhile_prefix _).subset early
  cases there : (s.pc t).pending (!b) with
  | some e => rwa [level.same (apart (begins_of_applying step applying there)) b] at logged
  | none =>
    rw [(level.ahead b t c pending there).1] at logged
    rcases List.mem_append.mp logged with old | last
    · exact old
    · rw [List.mem_singleton.mp last] at early
      exact absurd (List.mem_takeWhile_imp early) (by simp)

omit [DecidableEq τ] in
theorem Level.inOrder (level : Level s) {a : Action T τ} (apart : s.apart a) :
    s.inOrder a = true := by
  have all : ∀ b, (s.applying a b).all (fun c => s.caughtUp c b) = true := by
    intro b
    cases applying : s.applying a b with
    | none => rfl
    | some c =>
      rw [Option.all_some]
      cases a with
      | step t fails =>
        exact level.caughtUp apart rfl applying (pending_of_applying applying)
      | _ => cases applying
  rw [State.inOrder, List.all_cons, List.all_cons, List.all_nil, all false, all true]
  rfl

/-- A step that applies nothing. -/
theorem Level.quiet (level : Level s) {t : τ} {pc : Pc T} (hpc : s'.pc = Function.update s.pc t pc)
    (log : s'.log = s.log) (pending : ∀ b, pc.pending b = (s.pc t).pending b) : Level s' := by
  have same : ∀ u b, (s'.pc u).pending b = (s.pc u).pending b := by
    intro u b
    rw [hpc, Function.update_apply]
    split_ifs with here
    · rw [here, pending]
    · rfl
  have halfway : ∀ u, (s'.pc u).halfway = (s.pc u).halfway := by
    intro u
    rw [Bool.eq_iff_iff, Pc.halfway_iff, Pc.halfway_iff]
    simp only [same]
  refine ⟨fun none b => ?_, fun b u c here there => ?_⟩
  · rw [log]
    exact level.same (fun u => (halfway u).symm.trans (none u)) b
  · rw [same] at here there
    rw [log]
    obtain ⟨ahead, only⟩ := level.ahead b u c here there
    exact ⟨ahead, fun v half => only v ((halfway v).symm.trans half)⟩

/-- A call is applied to `b`. -/
theorem Level.applied (level : Level s) {a : Action T τ} {t : τ} {fails : Bool} {b : Bool}
    {c : Call T} {pc : Pc T} (apart : s.apart a) (step : a = .step t fails)
    (hpc : s'.pc = Function.update s.pc t pc) (applying : s.applying a b = some c)
    (mine : (s.pc t).pending b = some c) (done : pc.pending b = none)
    (other : pc.pending (!b) = (s.pc t).pending !b) (more : s'.log b = s.log b ++ [c])
    (kept : s'.log (!b) = s.log !b) : Level s' := by
  have others : ∀ u, u ≠ t → s'.pc u = s.pc u := fun u ne => by
    rw [hpc, Function.update_of_ne ne]
  have here : s'.pc t = pc := by rw [hpc, Function.update_self]
  cases there : (s.pc t).pending (!b) with
  | some d =>
    -- The first application: nobody is halfway, and now `t` is.
    have none := apart (begins_of_applying step applying there)
    have even := level.same none b
    obtain rfl := Pc.pending_same mine there
    have half : ∀ u, (s'.pc u).halfway = true → u = t := by
      intro u half
      by_contra ne
      rw [others u ne, none u] at half
      cases half
    refine ⟨fun quiet => ?_, fun b' u e pending settled => ?_⟩
    · have busy := Pc.halfway_iff.mpr ⟨!b, c, other.trans there, by rw [Bool.not_not]; exact done⟩
      rw [← here, quiet t] at busy
      cases busy
    · obtain rfl := half u (Pc.halfway_iff.mpr ⟨b', e, pending, settled⟩)
      rw [here] at pending settled
      obtain rfl | rfl : b' = b ∨ b' = !b := by cases b <;> cases b' <;> simp
      · rw [done] at pending
        cases pending
      · rw [other, there] at pending
        obtain rfl := Option.some.inj pending
        rw [Bool.not_not]
        exact ⟨by rw [more, kept, even], half⟩
  | none =>
    -- The second application: only `t` was halfway.
    obtain ⟨ahead, only⟩ := level.ahead b t c mine there
    have none : ∀ u, (s'.pc u).halfway = false := by
      intro u
      by_cases same : u = t
      · rw [same, here]
        refine Pc.not_halfway fun b' => ?_
        have both : pc.pending b = Option.none ∧ pc.pending (!b) = Option.none :=
          ⟨done, other.trans there⟩
        obtain rfl | rfl : b' = b ∨ b' = !b := by cases b <;> cases b' <;> simp
        · rw [both.1, both.2]
        · rw [Bool.not_not, both.1, both.2]
      · rw [others u same]
        exact Bool.eq_false_iff.mpr fun half => same (only u half)
    have even : s'.log (!b) = s'.log b := by rw [more, kept, ahead]
    refine ⟨fun _ b' => ?_, fun b' u e pending settled => ?_⟩
    · obtain rfl | rfl : b' = b ∨ b' = !b := by cases b <;> cases b' <;> simp
      · exact even
      · rw [Bool.not_not]
        exact even.symm
    · have busy := Pc.halfway_iff.mpr ⟨b', e, pending, settled⟩
      rw [none u] at busy
      cases busy

theorem Level.act (level : Level s) (calls : CallInv s) {a : Action T τ} (apart : s.apart a)
    (accepting : ∀ c ∈ s.calls, ∀ x, (c.fn.run x).1 = true) (h : s.act a = some s') :
    Level s' := by
  rcases act_deals h with ⟨t, pc, hpc, -, deals⟩ | ⟨t, fn, hpc, -, log, idle, -⟩
  · have accepted : ∀ b, (s.applying a b = none ∧ pc.pending b = (s.pc t).pending b ∧
        s'.log b = s.log b) ∨ ∃ c, (s.pc t).pending b = some c ∧ pc.pending b = none ∧
          s.applying a b = some c ∧ s'.log b = s.log b ++ [c] := by
      intro b
      rcases deals b with quiet | ⟨c, mine, gone, applied | ⟨⟨x, refused⟩, -⟩⟩
      · exact .inl quiet
      · exact .inr ⟨c, mine, gone, applied⟩
      · exact absurd (refused.symm.trans (accepting c (calls.mine b t c mine) x)) Bool.false_ne_true
    have applied : ∀ b c, (s.pc t).pending b = some c → pc.pending b = none →
        s.applying a b = some c → s'.log b = s.log b ++ [c] → Level s' := by
      intro b c mine gone applying more
      rcases accepted (!b) with ⟨-, other, kept⟩ | ⟨d, -, -, applying', -⟩
      · cases a with
        | step u fails =>
          obtain rfl := calls.own b t u c mine (pending_of_applying applying)
          exact level.applied apart rfl hpc applying mine gone other more kept
        | _ => cases applying
      · rw [applying_one applying] at applying'
        cases applying'
    rcases accepted false with ⟨-, other, kept⟩ | ⟨c, mine, gone, applying, more⟩
    · rcases accepted true with ⟨-, other', kept'⟩ | ⟨c, mine, gone, applying, more⟩
      · refine level.quiet hpc (funext fun b => ?_) fun b => ?_
        · cases b with
          | false => exact kept
          | true => exact kept'
        · cases b with
          | false => exact other
          | true => exact other'
      · exact applied true c mine gone applying more
    · exact applied false c mine gone applying more
  · have before : (s.pc t).halfway = false := Pc.not_halfway fun b => by rw [idle, idle]
    have after : ∀ u, (s'.pc u).halfway = (s.pc u).halfway := by
      intro u
      rw [hpc, Function.update_apply]
      split_ifs with here
      · rw [here, before]
        rfl
      · rfl
    refine ⟨fun none b => ?_, fun b u c pending settled => ?_⟩
    · rw [log]
      exact level.same (fun u => (after u).symm.trans (none u)) b
    · have other : u ≠ t := by
        rintro rfl
        rw [hpc, Function.update_self] at settled
        cases settled
      rw [hpc, Function.update_of_ne other] at pending settled
      obtain ⟨ahead, only⟩ := level.ahead b u c pending settled
      rw [log]
      exact ⟨ahead, fun v half => only v ((after v).symm.trans half)⟩

/-- While every function accepts, calls that are apart are applied in order. -/
theorem inOrder_of_apart (hs : (machine initial τ).ReachableBy State.apart s)
    (accepting : ∀ c ∈ s.calls, ∀ x, (c.fn.run x).1 = true) :
    (machine initial τ).ReachableBy (fun s a => s.inOrder a) s ∧ Level s := by
  induction hs with
  | init start => exact ⟨.init start, level_init start⟩
  | step reached apart next ih =>
    rename_i s s' a
    have next : s.act a = some s' := next
    have older : ∀ c ∈ s.calls, ∀ x, (c.fn.run x).1 = true := by
      intro c mem
      refine accepting c ?_
      rcases act_deals next with ⟨t, pc, -, same, -⟩ | ⟨t, fn, -, more, -⟩
      · rwa [same]
      · rw [more]
        exact List.mem_append_left _ mem
    obtain ⟨ordered, level⟩ := ih older
    have calls := callInv_reachable reached.reachable
    exact ⟨.step ordered (level.inOrder apart) next, level.act calls apart older next⟩

/-- Once all calls have returned, both buffers hold the initial value with every function applied
once, in one order: in every run whose calls are apart. -/
theorem modify_converges_apart (hs : (machine initial τ).ReachableBy State.apart s)
    (accepting : ∀ c ∈ s.calls, ∀ x, (c.fn.run x).1 = true)
    (returned : ∀ t, (s.pc t).modifying = false) :
    ∃ order, order.Perm s.calls ∧ ∀ b, s.data b = applyAll order initial :=
  modify_converges (inOrder_of_apart hs accepting).1 accepting returned

/-- The buffers carry two calls in different orders, or are bound to. -/
def Crossed (s : State T τ) : Prop :=
  ∃ b c d, d ∈ ((s.log !b).takeWhile fun e => e.id != c.id) ∧ c ∈ s.log b ∧
    d ∉ (s.log b).takeWhile fun e => e.id != c.id

theorem mem_takeWhile_grow {l m : List (Call T)} {p : Call T → Bool} {d : Call T}
    (grow : l <+: m) (h : d ∈ l.takeWhile p) : d ∈ m.takeWhile p := by
  obtain ⟨more, rfl⟩ := grow
  rw [List.takeWhile_append]
  split_ifs
  · exact List.mem_append_left _ ((List.takeWhile_prefix _).subset h)
  · exact h

omit [DecidableEq τ] in
theorem Crossed.ne (h : Crossed s) : s.log false ≠ s.log true := by
  obtain ⟨b, c, d, first, -, notFirst⟩ := h
  intro same
  cases b with
  | false => exact notFirst (same ▸ first)
  | true => exact notFirst (same ▸ first)

omit [DecidableEq τ] in
/-- Later applications do not uncross them. -/
theorem Crossed.grow (h : Crossed s) (grow : ∀ b, s.log b <+: s'.log b) : Crossed s' := by
  obtain ⟨b, c, d, first, applied, notFirst⟩ := h
  refine ⟨b, c, d, ?_, (grow b).subset applied, ?_⟩
  · exact mem_takeWhile_grow (grow !b) first
  · obtain ⟨more, eq⟩ := grow b
    have stops : ((s.log b).takeWhile fun e => e.id != c.id).length ≠ (s.log b).length := by
      intro length
      have all := (List.takeWhile_prefix _).eq_of_length length
      rw [← all] at applied
      exact absurd (List.mem_takeWhile_imp applied) (by simp)
    rw [← eq, List.takeWhile_append, if_neg stops]
    exact notFirst

/-- Logs only grow. -/
theorem act_log_grows {a : Action T τ} (h : s.act a = some s') (b : Bool) :
    s.log b <+: s'.log b := by
  rcases act_deals h with ⟨t, pc, -, -, deals⟩ | ⟨t, fn, -, -, log, -⟩
  · rcases deals b with ⟨-, -, same⟩ | ⟨c, -, -, ⟨-, more⟩ | ⟨-, same⟩⟩
    · exact same ▸ List.prefix_rfl
    · exact more ▸ List.prefix_append ..
    · exact same ▸ List.prefix_rfl
  · exact log ▸ List.prefix_rfl

/-- For the order of the calls the condition is exact: after one application out of order, whatever
happens next, the buffers carry the calls in different orders. Their values can still agree. -/
theorem logs_diverge {s'' : State T τ} {a : Action T τ} {as : List (Action T τ)}
    (hs : (machine initial τ).Reachable s)
    (accepting : ∀ c ∈ s.calls, ∀ x, (c.fn.run x).1 = true) (late : s.inOrder a = false)
    (h : s.act a = some s') (hrun : (machine initial τ).run s' as = some s'') :
    s''.log false ≠ s''.log true := by
  have inv := callInv_reachable hs
  have crossed : Crossed s' := by
    obtain ⟨b, -, notAll⟩ := List.all_eq_false.mp late
    obtain ⟨c, applying, behind⟩ : ∃ c, s.applying a b = some c ∧ s.caughtUp c b = false := by
      cases applying : s.applying a b with
      | none => simp [applying] at notAll
      | some c => exact ⟨c, rfl, by simpa [applying] using notAll⟩
    obtain ⟨d, first, missing⟩ := List.all_eq_false.mp behind
    have absent : d ∉ s.log b := by
      intro present
      exact missing (List.any_eq_true.mpr ⟨d, present, beq_self_eq_true _⟩)
    rcases act_deals h with ⟨t, pc, -, -, deals⟩ | ⟨t, fn, -, -, -, -, none⟩
    · rcases deals b with ⟨none, -⟩ | ⟨e, mine, -, ⟨applied, more⟩ | ⟨⟨x, refused⟩, -⟩⟩
      · exact absurd (applying.symm.trans none) (Option.some_ne_none c)
      · obtain rfl := Option.some.inj (applied.symm.trans applying)
        refine ⟨b, e, d, mem_takeWhile_grow (act_log_grows h _) first, ?_, ?_⟩
        · exact more ▸ List.mem_append_right _ (List.mem_singleton_self e)
        · rw [more]
          intro early
          rcases List.mem_append.mp ((List.takeWhile_prefix _).subset early) with old | last
          · exact absent old
          · obtain rfl := List.mem_singleton.mp last
            exact absurd (List.mem_takeWhile_imp early) (by simp)
      · exact absurd (refused.symm.trans (accepting e (inv.mine b t e mine) x)) Bool.false_ne_true
    · exact absurd (applying.symm.trans (none b)) (Option.some_ne_none c)
  clear h
  induction as generalizing s' with
  | nil =>
    obtain rfl := Option.some.inj hrun
    exact crossed.ne
  | cons a' as ih =>
    obtain ⟨mid, hnext, hrest⟩ := Option.bind_eq_some_iff.mp hrun
    exact ih hrest (crossed.grow (act_log_grows hnext))

/-- Two threads and two updates of a number. -/
def pair : State ℕ Bool :=
  ⟨fun _ => 1, false, fun _ => none, none, [], fun _ => none, 0, fun _ => .idle, [], fun _ => [],
    [], [], fun _ => [], fun _ => []⟩

def increment : Update ℕ := ⟨fun n => (true, n + 1), by rintro _ ⟨⟩⟩

def double : Update ℕ := ⟨fun n => (true, 2 * n), by rintro _ ⟨⟩⟩

theorem pair_init : (machine 1 Bool).init pair :=
  ⟨fun _ => rfl, rfl, fun _ => rfl, rfl, rfl, fun _ => rfl, rfl, fun _ => rfl, rfl,
    fun _ => rfl, rfl, rfl, fun _ => rfl, fun _ => rfl⟩

theorem pair_accepting {s : State ℕ Bool} (calls : s.calls = [⟨0, increment⟩, ⟨1, double⟩]) :
    ∀ c ∈ s.calls, ∀ x, (c.fn.run x).1 = true := by
  rw [calls]
  rintro c (_ | ⟨_, _ | ⟨_, ⟨⟩⟩⟩) x <;> rfl

/-- The first call has chosen its back buffer when the second one begins and runs to its end. -/
theorem modify_converges_apart_pair : ∃ s : State ℕ Bool,
    (machine 1 Bool).ReachableBy State.apart s ∧
      ∃ order, order.Perm s.calls ∧ ∀ b, s.data b = applyAll order 1 := by
  have ran : ((machine 1 Bool).runBy (fun s a => decide (s.apart a)) pair
      ([.modify false increment, .step false false] ++
        .modify true double :: List.replicate 7 (.step true false) ++
        List.replicate 6 (.step false false))).map
      (fun s => (s.calls, (s.pc false).modifying, (s.pc true).modifying)) =
      some ([⟨0, increment⟩, ⟨1, double⟩], false, false) := rfl
  obtain ⟨s, hrun, result⟩ := Option.map_eq_some_iff.mp ran
  simp only [Prod.mk.injEq] at result
  obtain ⟨calls, first, second⟩ := result
  have hs := (Machine.runBy_reachable (.init pair_init) hrun).mono
    fun s a apart => of_decide_eq_true apart
  exact ⟨s, hs, modify_converges_apart hs (pair_accepting calls) (Bool.rec first second)⟩

/-- Both calls choose the same back buffer; their second applications come in the
other order than their first. -/
theorem modify_diverges : ¬ ∀ s : State ℕ Bool, (machine 1 Bool).Reachable s →
    (∀ c ∈ s.calls, ∀ x, (c.fn.run x).1 = true) → (∀ t, (s.pc t).modifying = false) →
    ∃ order, order.Perm s.calls ∧ ∀ b, s.data b = applyAll order 1 := by
  intro converges
  have ran : ((machine 1 Bool).run pair
      ([.modify false increment, .modify true double, .step false false, .step true false,
        .step false false, .step true false] ++ List.replicate 5 (.step true false) ++
        List.replicate 5 (.step false false))).map
      (fun s => (s.calls, (s.pc false).modifying, (s.pc true).modifying, s.data false,
        s.data true)) = some ([⟨0, increment⟩, ⟨1, double⟩], false, false, 3, 4) := rfl
  obtain ⟨s, hrun, result⟩ := Option.map_eq_some_iff.mp ran
  simp only [Prod.mk.injEq] at result
  obtain ⟨calls, first, second, back, front⟩ := result
  have hs := Machine.run_reachable (Machine.Reachable.init pair_init) hrun
  obtain ⟨order, -, same⟩ := converges s hs (pair_accepting calls) (Bool.rec first second)
  have agree := (same false).trans (same true).symm
  rw [back, front] at agree
  cases agree

end Codelab.DoublyBufferedData
