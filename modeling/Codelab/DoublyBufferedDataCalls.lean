import Codelab.DoublyBufferedData
import Mathlib.Data.List.Nodup

/-! The calls of `Modify` in every run, whoever writes: each buffer is the initial
value transformed by its log, and each call is applied to a buffer at most once. -/

namespace Codelab.DoublyBufferedData

variable {T τ : Type*} [DecidableEq τ] {initial : T} {s s' : State T τ} {t : τ}

theorem applyAll_append (cs : List (Call T)) (c : Call T) (x : T) :
    applyAll (cs ++ [c]) x = (c.fn.run (applyAll cs x)).2 := by
  simp [applyAll]

/-- Each buffer is the initial value transformed by its log. -/
def Values (initial : T) (s : State T τ) : Prop := ∀ b, s.data b = applyAll (s.log b) initial

omit [DecidableEq τ] in
theorem Values.applyTo (values : Values initial s) (c : Call T) (b : Bool) :
    Values initial (s.applyTo c b) := by
  intro b'
  unfold State.applyTo
  by_cases accepted : (c.fn.run (s.data b)).1
  · simp only [accepted, if_true, Function.update_apply]
    split_ifs with e
    · rw [applyAll_append, ← values b]
    · exact values b'
  · have same := c.fn.keep _ (Bool.eq_false_iff.mpr accepted)
    simp only [accepted, same, Function.update_eq_self]
    exact values b'

theorem Values.act (values : Values initial s) {a : Action T τ} (h : s.act a = some s') :
    Values initial s' := by
  have keep : ∀ u : State T τ, u.data = s.data → u.log = s.log → Values initial u := by
    intro u hd hl b
    rw [hd, hl]
    exact values b
  cases a with
  | step t fails =>
    cases pc : s.pc t <;> simp only [State.act, State.step, pc] at h
    case modFirst | modSecond =>
      split_ifs at h <;> obtain rfl := Option.some.inj h <;> exact values.applyTo _ _
    all_goals
      (repeat' split at h) <;> first
      | (obtain rfl := Option.some.inj h; exact keep _ rfl rfl)
      | cases h
  | read t | modify t fn | endRead t =>
    simp only [State.act] at h
    split at h <;> first
      | (obtain rfl := Option.some.inj h; exact keep _ rfl rfl)
      | cases h

/-- The call that has yet to be applied to buffer `b`. -/
def Pc.pending {T : Type*} (b : Bool) : Pc T → Option (Call T)
  | .modLoad c | .modFirst c _ => some c
  | .modStore c bg => if b = bg then none else some c
  | .modLock c bg | .modWait c bg _ | .modWaited c bg _ _ | .modUnlock c bg | .modSecond c bg =>
    if b = bg then some c else none
  | _ => none

/-- The call that `a` applies to buffer `b`. -/
def State.applying (s : State T τ) (a : Action T τ) (b : Bool) : Option (Call T) :=
  match a with
  | .step t _ =>
    match s.pc t with
    | .modFirst c bg | .modSecond c bg => if b = bg then some c else none
    | _ => none
  | _ => none

/-- What `a`, a step of `t` to `pc`, does to buffer `b`: nothing, or it deals with
the pending call, which is applied or dropped because its function refused. -/
def Deals (s s' : State T τ) (a : Action T τ) (t : τ) (pc : Pc T) (b : Bool) : Prop :=
  s.applying a b = none ∧ pc.pending b = (s.pc t).pending b ∧ s'.log b = s.log b ∨
  ∃ c, (s.pc t).pending b = some c ∧ pc.pending b = none ∧
    (s.applying a b = some c ∧ s'.log b = s.log b ++ [c] ∨
      (∃ x, (c.fn.run x).1 = false) ∧ s'.log b = s.log b)

omit [DecidableEq τ] in
/-- An application changes at most the log of its buffer. -/
theorem State.applyTo_log (s : State T τ) (c : Call T) (b : Bool) :
    (s.applyTo c b).log = (if (c.fn.run (s.data b)).1 then
      Function.update s.log b (s.log b ++ [c]) else s.log) := rfl

theorem step_deals {fails : Bool} (h : s.step t fails = some s') :
    ∃ pc, s'.pc = Function.update s.pc t pc ∧ s'.calls = s.calls ∧
      ∀ b, Deals s s' (.step t fails) t pc b := by
  have quiet : ∀ {pc : Pc T}, s'.pc = Function.update s.pc t pc → s'.calls = s.calls →
      s'.log = s.log →
      (∀ b, s.applying (.step t fails) b = none ∧ pc.pending b = (s.pc t).pending b) →
      ∃ pc, s'.pc = Function.update s.pc t pc ∧ s'.calls = s.calls ∧
        ∀ b, Deals s s' (.step t fails) t pc b :=
    fun hpc calls log same =>
      ⟨_, hpc, calls, fun b => .inl ⟨(same b).1, (same b).2, by rw [log]⟩⟩
  cases pc : s.pc t with
  | modFirst c bg =>
    simp only [State.step, pc] at h
    split_ifs at h with accepted <;> obtain rfl := Option.some.inj h
    · refine ⟨_, rfl, rfl, fun b => ?_⟩
      by_cases e : b = bg
      · subst e
        refine .inr ⟨c, by rw [pc]; rfl, if_pos rfl, .inl ⟨?_, ?_⟩⟩
        · simp [State.applying, pc]
        · change (s.applyTo c b).log b = _
          rw [State.applyTo_log, if_pos accepted, Function.update_self]
      · refine .inl ⟨by simp [State.applying, pc, e], by rw [pc]; exact if_neg e, ?_⟩
        change (s.applyTo c bg).log b = _
        rw [State.applyTo_log, if_pos accepted, Function.update_of_ne e]
    · refine ⟨_, rfl, rfl, fun b => .inr ⟨c, by rw [pc]; rfl, rfl, .inr ⟨⟨s.data bg, ?_⟩, ?_⟩⟩⟩
      · exact Bool.eq_false_iff.mpr accepted
      · change (s.applyTo c bg).log b = _
        rw [State.applyTo_log, if_neg accepted]
  | modSecond c bg =>
    simp only [State.step, pc] at h
    obtain rfl := Option.some.inj h
    refine ⟨_, rfl, rfl, fun b => ?_⟩
    by_cases e : b = bg
    · subst e
      refine .inr ⟨c, by rw [pc]; exact if_pos rfl, rfl, ?_⟩
      by_cases accepted : (c.fn.run (s.data b)).1
      · refine .inl ⟨by simp [State.applying, pc], ?_⟩
        change (s.applyTo c b).log b = _
        rw [State.applyTo_log, if_pos accepted, Function.update_self]
      · refine .inr ⟨⟨s.data b, Bool.eq_false_iff.mpr accepted⟩, ?_⟩
        change (s.applyTo c b).log b = _
        rw [State.applyTo_log, if_neg accepted]
    · refine .inl ⟨by simp [State.applying, pc, e], by rw [pc]; exact (if_neg e).symm, ?_⟩
      change (s.applyTo c bg).log b = _
      rw [State.applyTo_log]
      split_ifs
      · exact Function.update_of_ne e ..
      · rfl
  | modStore c bg =>
    simp only [State.step, pc] at h
    obtain rfl := Option.some.inj h
    refine quiet rfl rfl rfl fun b => ⟨by simp [State.applying, pc], ?_⟩
    rw [pc]
    cases b <;> cases bg <;> rfl
  | modWait c bg i =>
    simp only [State.step, pc] at h
    split at h
    · obtain rfl := Option.some.inj h
      exact quiet rfl rfl rfl fun b => ⟨by simp [State.applying, pc], by rw [pc]; rfl⟩
    · split_ifs at h
      obtain rfl := Option.some.inj h
      exact quiet rfl rfl rfl fun b => ⟨by simp [State.applying, pc], by rw [pc]; rfl⟩
  | modLock c bg =>
    simp only [State.step, pc] at h
    split_ifs at h
    obtain rfl := Option.some.inj h
    exact quiet rfl rfl rfl fun b => ⟨by simp [State.applying, pc], by rw [pc]; rfl⟩
  | modLoad c | modWaited c bg i w | modUnlock c bg =>
    simp only [State.step, pc] at h
    obtain rfl := Option.some.inj h
    exact quiet rfl rfl rfl fun b => ⟨by simp [State.applying, pc], by rw [pc]; rfl⟩
  | getKey | newWrapper | addLock w | addPush w | addUnlock w | setKey w | beginRead w
  | loadIndex w =>
    simp only [State.step, pc] at h
    (try split at h) <;> first
      | (obtain rfl := Option.some.inj h
         exact quiet rfl rfl rfl fun b => ⟨by simp [State.applying, pc], by rw [pc]; rfl⟩)
      | cases h
  | idle | holding w i | readFailed | modDone r =>
    simp only [State.step, pc] at h
    cases h

/-- Every action but `modify` deals with the pending calls of one thread. -/
theorem act_deals {a : Action T τ} (h : s.act a = some s') :
    (∃ t pc, s'.pc = Function.update s.pc t pc ∧ s'.calls = s.calls ∧
      ∀ b, Deals s s' a t pc b) ∨
    ∃ t fn, s'.pc = Function.update s.pc t (.modLoad ⟨s.calls.length, fn⟩) ∧
      s'.calls = s.calls ++ [⟨s.calls.length, fn⟩] ∧ s'.log = s.log ∧
      (∀ b, (s.pc t).pending b = none) ∧ ∀ b, s.applying a b = none := by
  have rest : ∀ {pc : Pc T}, pc.resting = true → ∀ b, pc.pending b = none := by
    intro pc resting b
    cases pc <;> first | rfl | cases resting
  cases a with
  | step t fails => exact .inl ⟨t, step_deals h⟩
  | read t =>
    simp only [State.act] at h
    split_ifs at h with resting
    obtain rfl := Option.some.inj h
    exact .inl ⟨t, _, rfl, rfl, fun b => .inl ⟨rfl, (rest resting b).symm, rfl⟩⟩
  | endRead t =>
    simp only [State.act] at h
    split at h
    · rename_i pc
      obtain rfl := Option.some.inj h
      exact .inl ⟨t, _, rfl, rfl, fun b => .inl ⟨rfl, by rw [pc]; rfl, rfl⟩⟩
    · cases h
  | modify t fn =>
    simp only [State.act] at h
    split_ifs at h with resting
    obtain rfl := Option.some.inj h
    exact .inr ⟨t, fn, rfl, rfl, rfl, rest resting, fun _ => rfl⟩

/-- A call lies before the application that is still to come, and is no one else's. -/
structure CallInv (s : State T τ) : Prop where
  below : ∀ c ∈ s.calls, c.id < s.calls.length
  distinct : (s.calls.map Call.id).Nodup
  mine : ∀ b t c, (s.pc t).pending b = some c → c ∈ s.calls
  own : ∀ b t u c, (s.pc t).pending b = some c → (s.pc u).pending b = some c → t = u
  logged : ∀ b, s.log b ⊆ s.calls
  once : ∀ b, (s.log b).Nodup
  waiting : ∀ b t c, (s.pc t).pending b = some c → c ∉ s.log b

omit [DecidableEq τ] in
theorem CallInv.eq_of_id (inv : CallInv s) {c d : Call T} (hc : c ∈ s.calls) (hd : d ∈ s.calls)
    (same : c.id = d.id) : c = d :=
  List.inj_on_of_nodup_map inv.distinct hc hd same

theorem callInv_init (h : (machine initial τ).init s) : CallInv s := by
  obtain ⟨-, -, -, -, -, -, -, pc, calls, log, -⟩ := h
  have idle : ∀ b t, (s.pc t).pending b = none := fun b t => by rw [pc]; rfl
  refine ⟨?_, ?_, ?_, ?_, ?_, ?_, ?_⟩
  · simp [calls]
  · simp [calls]
  · simp [idle]
  · simp [idle]
  · simp [log]
  · simp [log]
  · simp [idle]

theorem CallInv.deals (inv : CallInv s) {a : Action T τ} {pc : Pc T}
    (hpc : s'.pc = Function.update s.pc t pc) (calls : s'.calls = s.calls)
    (deals : ∀ b, Deals s s' a t pc b) : CallInv s' := by
  have before : ∀ {b u c}, (s'.pc u).pending b = some c → (s.pc u).pending b = some c := by
    intro b u c hu
    rw [hpc, Function.update_apply] at hu
    split_ifs at hu with e
    · rcases deals b with ⟨-, same, -⟩ | ⟨d, -, gone, -⟩
      · rw [e, ← same, hu]
      · rw [gone] at hu
        cases hu
    · exact hu
  have log : ∀ b, s'.log b = s.log b ∨ ∃ c, (s.pc t).pending b = some c ∧
      pc.pending b = none ∧ s'.log b = s.log b ++ [c] := by
    intro b
    rcases deals b with ⟨-, -, same⟩ | ⟨c, mine, gone, ⟨-, more⟩ | ⟨-, same⟩⟩
    · exact .inl same
    · exact .inr ⟨c, mine, gone, more⟩
    · exact .inl same
  refine ⟨?_, ?_, ?_, ?_, ?_, ?_, ?_⟩
  · rw [calls]
    exact inv.below
  · rw [calls]
    exact inv.distinct
  · intro b u c hu
    rw [calls]
    exact inv.mine b u c (before hu)
  · exact fun b u v c hu hv => inv.own b u v c (before hu) (before hv)
  · intro b
    rw [calls]
    rcases log b with same | ⟨c, hc, -, more⟩
    · exact same ▸ inv.logged b
    · rw [more]
      refine List.append_subset.mpr ⟨inv.logged b, ?_⟩
      exact List.cons_subset.mpr ⟨inv.mine b t c hc, List.nil_subset _⟩
  · intro b
    rcases log b with same | ⟨c, hc, -, more⟩
    · exact same ▸ inv.once b
    · rw [more, ← List.concat_eq_append]
      exact List.Nodup.concat (inv.waiting b t c hc) (inv.once b)
  · intro b u d hu
    rcases log b with same | ⟨c, hc, gone, more⟩
    · exact same ▸ inv.waiting b u d (before hu)
    · have e : u ≠ t := by
        rintro rfl
        rw [hpc, Function.update_self, gone] at hu
        cases hu
      rw [more, List.mem_append, List.mem_singleton, not_or]
      refine ⟨inv.waiting b u d (before hu), ?_⟩
      rintro rfl
      exact e (inv.own b u t d (before hu) hc)

theorem CallInv.modify (inv : CallInv s) {fn : Update T}
    (hpc : s'.pc = Function.update s.pc t (.modLoad ⟨s.calls.length, fn⟩))
    (calls : s'.calls = s.calls ++ [⟨s.calls.length, fn⟩]) (log : s'.log = s.log) :
    CallInv s' := by
  have new : (⟨s.calls.length, fn⟩ : Call T) ∉ s.calls :=
    fun old => absurd (inv.below _ old) (Nat.lt_irrefl _)
  have now : ∀ {b u c}, (s'.pc u).pending b = some c →
      u = t ∧ c = ⟨s.calls.length, fn⟩ ∨ u ≠ t ∧ (s.pc u).pending b = some c := by
    intro b u c hu
    rw [hpc, Function.update_apply] at hu
    split_ifs at hu with e
    · exact .inl ⟨e, (Option.some.inj hu).symm⟩
    · exact .inr ⟨e, hu⟩
  refine ⟨?_, ?_, ?_, ?_, ?_, by rw [log]; exact inv.once, ?_⟩
  · intro c hc
    rw [calls] at hc ⊢
    rw [List.length_append, List.length_singleton]
    rcases List.mem_append.mp hc with old | last
    · exact Nat.lt_succ_of_lt (inv.below c old)
    · rw [List.mem_singleton.mp last]
      exact Nat.lt_succ_self _
  · rw [calls, List.map_append, List.map_singleton, ← List.concat_eq_append]
    refine List.Nodup.concat ?_ inv.distinct
    intro used
    obtain ⟨c, hc, same⟩ := List.mem_map.mp used
    exact absurd (same ▸ inv.below c hc) (Nat.lt_irrefl _)
  · intro b u c hu
    rw [calls]
    rcases now hu with ⟨-, rfl⟩ | ⟨-, old⟩
    · exact List.mem_append_right _ (List.mem_singleton_self _)
    · exact List.mem_append_left _ (inv.mine b u c old)
  · intro b u v c hu hv
    rcases now hu with ⟨atU, newU⟩ | ⟨-, oldU⟩ <;> rcases now hv with ⟨atV, newV⟩ | ⟨-, oldV⟩
    · rw [atU, atV]
    · exact absurd (newU ▸ inv.mine b v _ oldV) new
    · exact absurd (newV ▸ inv.mine b u _ oldU) new
    · exact inv.own b u v c oldU oldV
  · intro b
    rw [log, calls]
    exact List.Subset.trans (inv.logged b) (List.subset_append_left _ _)
  · intro b u c hu
    rw [log]
    rcases now hu with ⟨-, rfl⟩ | ⟨-, old⟩
    · exact fun logged => new (inv.logged b logged)
    · exact inv.waiting b u c old

theorem CallInv.act (inv : CallInv s) {a : Action T τ} (h : s.act a = some s') : CallInv s' := by
  rcases act_deals h with ⟨t, pc, hpc, calls, deals⟩ | ⟨t, fn, hpc, calls, log, -⟩
  · exact inv.deals hpc calls deals
  · exact inv.modify hpc calls log

theorem callInv_reachable (hs : (machine initial τ).Reachable s) : CallInv s :=
  hs.invariant CallInv (fun _ => callInv_init) fun s a _ inv h =>
    inv.act (show s.act a = some _ from h)

theorem values_init (h : (machine initial τ).init s) : Values initial s := fun b => by
  obtain ⟨data, -, -, -, -, -, -, -, -, log, -⟩ := h
  rw [data, log]
  rfl

theorem values_reachable (hs : (machine initial τ).Reachable s) : Values initial s :=
  hs.invariant (Values initial) (fun _ => values_init) fun s a _ values h =>
    values.act (show s.act a = some _ from h)

end Codelab.DoublyBufferedData
