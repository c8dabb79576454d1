import Codelab.Theory.Progress
import Mathlib.Data.List.Forall2
import Mathlib.Data.List.Perm.Subperm
import Mathlib.Data.List.Perm.Basic

/-! `fetchall.go`: a goroutine for each URL sends one line over the channel, which has no buffer,
and `main` takes as many lines as there are URLs. Which line comes first is up to the scheduler and
to the answers of the servers. -/

namespace Codelab.FetchAll

variable {υ ε : Type*}

/-- The texts that `fetch` sends; `secs` is in hundredths, as they are printed. -/
inductive Line (υ ε : Type*) where
  | getFailed (err : ε)
  | copyFailed (url : υ) (err : ε)
  | fetched (secs : ℕ) (nbytes : ℤ) (url : υ)

/-- The lines that `fetch` may send for a URL. -/
def LineFor (url : υ) : Line υ ε → Prop
  | .getFailed _ => True
  | .copyFailed u _ | .fetched _ _ u => u = url

/-- What `main` prints. -/
inductive Printed (υ ε : Type*) where
  | line (line : Line υ ε)
  | url (url : υ)
  | elapsed (secs : ℕ)

/-- The loop of `main` that starts the goroutines, the two statements of the one that receives, and
the end. -/
inductive Main where
  | start (i : ℕ)
  | receive (i : ℕ)
  | println (i : ℕ)
  | exited
  deriving DecidableEq

/-- A goroutine; `copy` has a response whose body it reads, `send` waits for `main`. -/
inductive Fetch (υ ε : Type*) where
  | unborn
  | get (url : υ)
  | copy (url : υ)
  | send (line : Line υ ε)
  | returned

structure State (υ ε : Type*) where
  main : Main
  fetch : ℕ → Fetch υ ε
  printed : List (Printed υ ε)

/-- A step of `main` alone, the return of `http.Get` or `io.Copy`, with its error or not, a line
that goes from a goroutine to `main`, and the last line of `main`. -/
inductive Action (ε : Type*) where
  | main
  | get (i : ℕ) (err : Option ε)
  | copy (i : ℕ) (secs : ℕ) (nbytes : ℤ) (err : Option ε)
  | receive (i : ℕ)
  | elapsed (secs : ℕ)

namespace State

def goto (s : State υ ε) (i : ℕ) (f : Fetch υ ε) : State υ ε :=
  { s with fetch := Function.update s.fetch i f }

def step (urls : List υ) (s : State υ ε) : Action ε → Option (State υ ε)
  | .main =>
    match s.main with
    | .start i =>
      match urls[i]? with
      | some url => some { s.goto i (.get url) with main := .start (i + 1) }
      | none => some { s with main := .receive 0 }
    | .println i => urls[i]?.map fun url =>
      { s with main := .receive (i + 1), printed := s.printed ++ [.url url] }
    | _ => none
  | .get i err =>
    match s.fetch i with
    | .get url =>
      match err with
      | some err => some (s.goto i (.send (.getFailed err)))
      | none => some (s.goto i (.copy url))
    | _ => none
  | .copy i secs nbytes err =>
    match s.fetch i with
    | .copy url =>
      match err with
      | some err => some (s.goto i (.send (.copyFailed url err)))
      | none => some (s.goto i (.send (.fetched secs nbytes url)))
    | _ => none
  | .receive i =>
    match s.main, s.fetch i with
    | .receive k, .send line =>
      if k < urls.length then
        some { s.goto i .returned with main := .println k, printed := s.printed ++ [.line line] }
      else none
    | _, _ => none
  | .elapsed secs =>
    match s.main with
    | .receive k =>
      if k < urls.length then none
      else some { s with main := .exited, printed := s.printed ++ [.elapsed secs] }
    | _ => none

/-- When `main` returns the program ends. -/
def act (urls : List υ) (s : State υ ε) (a : Action ε) : Option (State υ ε) :=
  if s.main = .exited then none else s.step urls a

end State

def initial (υ ε : Type*) : State υ ε := ⟨.start 0, fun _ => .unborn, []⟩

/-- The program with `os.Args[1:]`. -/
def machine (urls : List υ) (ε : Type*) : Machine (State υ ε) (Action ε) where
  init s := s = initial υ ε
  next := State.act urls

/-- A line and a URL in turn. -/
def transcript (lines : List (Line υ ε)) (urls : List υ) : List (Printed υ ε) :=
  (lines.zip urls).flatMap fun p => [.line p.1, .url p.2]

theorem transcript_concat {lines : List (Line υ ε)} {line : Line υ ε} {us : List υ} {url : υ}
    (same : lines.length = us.length) : transcript (lines ++ [line]) (us ++ [url]) =
      transcript lines us ++ [.line line, .url url] := by
  rw [transcript, transcript, List.zip_append same, List.flatMap_append]
  rfl

/-- The goroutines that `main` has started. -/
def Main.started (n : ℕ) : Main → ℕ
  | .start i => i
  | _ => n

/-- What a goroutine does belongs to its URL. -/
def Stands (urls : List υ) (i : ℕ) : Fetch υ ε → Prop
  | .get url | .copy url => urls[i]? = some url
  | .send line => ∃ url, urls[i]? = some url ∧ LineFor url line
  | _ => True

/-- What has been printed when `lines` have been received. -/
def Shows (urls : List υ) (lines : List (Line υ ε)) (printed : List (Printed υ ε)) : Main → Prop
  | .start i => i ≤ urls.length ∧ lines = [] ∧ printed = []
  | .receive k => k ≤ urls.length ∧ lines.length = k ∧ printed = transcript lines (urls.take k)
  | .println k => lines.length = k + 1 ∧ ∃ url, urls[k]? = some url ∧
    printed ++ [.url url] = transcript lines (urls.take (k + 1))
  | .exited => lines.length = urls.length ∧
    ∃ secs, printed = transcript lines urls ++ [.elapsed secs]

/-- Goroutine `i` among those that `main` has started and those whose lines it has. -/
structure Place (urls : List υ) (main : Main) (order : List (υ × ℕ)) (i : ℕ) (f : Fetch υ ε) :
    Prop where
  born : f = .unborn ↔ main.started urls.length ≤ i
  stands : Stands urls i f
  returned : f = .returned ↔ i ∈ order.map Prod.snd

/-- `order` are the URLs, with their places, whose lines `main` has received, and `lines` these
lines. -/
structure Inv (urls : List υ) (s : State υ ε) (order : List (υ × ℕ)) (lines : List (Line υ ε)) :
    Prop where
  places : ∀ i, Place urls s.main order i (s.fetch i)
  listed : ∀ p ∈ order, urls[p.2]? = some p.1
  distinct : (order.map Prod.snd).Nodup
  sent : List.Forall₂ (fun p line => LineFor p.1 line) order lines
  shows : Shows urls lines s.printed s.main

variable {urls : List υ} {s s' : State υ ε} {order : List (υ × ℕ)} {lines : List (Line υ ε)} {i : ℕ}
  {f : Fetch υ ε} {a : Action ε}

theorem inv_initial : Inv urls (initial υ ε) [] [] := by
  refine ⟨fun i => ⟨?_, trivial, ?_⟩, nofun, List.nodup_nil, .nil, ?_⟩
  · exact iff_of_true rfl (Nat.zero_le i)
  · exact iff_of_false nofun List.not_mem_nil
  · exact ⟨Nat.zero_le _, rfl, rfl⟩

theorem places_update {fetch : ℕ → Fetch υ ε} {main : Main} (own : Place urls main order i f)
    (others : ∀ j, j ≠ i → Place urls main order j (fetch j)) (j : ℕ) :
    Place urls main order j (Function.update fetch i f j) := by
  by_cases e : j = i
  · rw [e, Function.update_self]
    exact own
  · rw [Function.update_of_ne e]
    exact others j e

namespace Inv

/-- A goroutine goes on by itself. -/
theorem move (h : Inv urls s order lines) (begun : s.fetch i ≠ .unborn)
    (busy : s.fetch i ≠ .returned) (born : f ≠ .unborn) (stays : f ≠ .returned)
    (stands : Stands urls i f) : Inv urls (s.goto i f) order lines := by
  obtain ⟨early, -, done⟩ := h.places i
  refine ⟨places_update ⟨?_, stands, ?_⟩ fun j _ => h.places j, h.listed, h.distinct,
    h.sent, h.shows⟩
  · exact iff_of_false born fun late => begun (early.mpr late)
  · exact iff_of_false stays fun mem => busy (done.mpr mem)

/-- `go fetch(url, ch)`. -/
theorem start (h : Inv urls s order lines) {url : υ} (here : s.main = .start i)
    (arg : urls[i]? = some url) :
    Inv urls { s.goto i (.get url) with main := .start (i + 1) } order lines := by
  have shows := h.shows
  rw [here] at shows
  obtain ⟨inside, -⟩ := List.getElem?_eq_some_iff.mp arg
  have unborn : s.fetch i = .unborn := (h.places i).born.mpr (by rw [here]; exact le_rfl)
  refine ⟨places_update ⟨?_, arg, ?_⟩ fun j e => ?_, h.listed, h.distinct, h.sent, inside, shows.2⟩
  · exact iff_of_false nofun (Nat.not_succ_le_self i)
  · refine iff_of_false nofun fun mem => ?_
    rw [(h.places i).returned.mpr mem] at unborn
    cases unborn
  · obtain ⟨born, stands, returned⟩ := h.places j
    refine ⟨born.trans ?_, stands, returned⟩
    rw [here]
    simp only [Main.started]
    omega

/-- `fmt.Println(<-ch)`. -/
theorem receive (h : Inv urls s order lines) {k : ℕ} {line : Line υ ε} (here : s.main = .receive k)
    (sends : s.fetch i = .send line) (more : k < urls.length) :
    ∃ url, Inv urls { s.goto i .returned with
      main := .println k, printed := s.printed ++ [.line line] } (order ++ [(url, i)])
        (lines ++ [line]) := by
  obtain ⟨born, stands, returned⟩ := h.places i
  rw [sends] at born stands returned
  obtain ⟨url, arg, own⟩ := stands
  have new : i ∉ order.map Prod.snd := fun mem => nomatch returned.mpr mem
  have shows := h.shows
  rw [here] at shows born
  obtain ⟨-, count, printed⟩ := shows
  have grown : (order ++ [(url, i)]).map Prod.snd = order.map Prod.snd ++ [i] := List.map_append
  refine ⟨url, places_update ⟨?_, trivial, ?_⟩ fun j e => ?_, fun p mem => ?_, ?_, ?_, ?_⟩
  · exact iff_of_false nofun fun late => nomatch born.mpr late
  · rw [grown]
    exact iff_of_true rfl (by simp)
  · obtain ⟨born, stands, returned⟩ := h.places j
    rw [here] at born
    refine ⟨born, stands, returned.trans ?_⟩
    rw [grown, List.mem_append, List.mem_singleton, or_iff_left e]
  · rcases List.mem_append.mp mem with old | last
    · exact h.listed p old
    · rw [List.mem_singleton.mp last]
      exact arg
  · rw [grown]
    exact h.distinct.append (List.nodup_singleton i) (by simpa using new)
  · exact List.rel_append h.sent (.cons own .nil)
  · refine ⟨by rw [List.length_append, count]; rfl, urls[k], List.getElem?_eq_getElem more, ?_⟩
    rw [List.take_add_one, List.getElem?_eq_getElem more, Option.toList_some, transcript_concat,
      printed, List.append_assoc]
    · rfl
    · rw [count, List.length_take]
      omega

/-- `main` goes on by itself behind the loop that starts the goroutines. -/
theorem pass (h : Inv urls s order lines) {main : Main} {printed : List (Printed υ ε)}
    (started : main.started urls.length = s.main.started urls.length)
    (shows : Shows urls lines printed main) :
    Inv urls { s with main := main, printed := printed } order lines := by
  refine ⟨fun j => ⟨?_, (h.places j).stands, (h.places j).returned⟩, h.listed, h.distinct, h.sent,
    shows⟩
  rw [started]
  exact (h.places j).born

theorem act (h : Inv urls s order lines) (next : s.act urls a = some s') :
    ∃ order' lines', Inv urls s' order' lines' := by
  have shows := h.shows
  unfold State.act at next
  split_ifs at next
  cases a with
  | main =>
    cases here : s.main with
    | start i =>
      rw [here] at shows
      cases arg : urls[i]? with
      | some url =>
        simp only [State.step, here, arg] at next
        obtain rfl := Option.some.inj next
        exact ⟨order, lines, h.start here arg⟩
      | none =>
        simp only [State.step, here, arg] at next
        obtain rfl := Option.some.inj next
        obtain ⟨le, none, empty⟩ := shows
        have all : i = urls.length := le.antisymm (List.getElem?_eq_none_iff.mp arg)
        refine ⟨order, lines, h.pass (by rw [here]; exact all.symm) ?_⟩
        exact ⟨Nat.zero_le _, by rw [none]; rfl, by rw [none]; exact empty⟩
    | println k =>
      rw [here] at shows
      obtain ⟨count, url, arg, printed⟩ := shows
      simp only [State.step, here, arg, Option.map_some] at next
      obtain rfl := Option.some.inj next
      obtain ⟨inside, -⟩ := List.getElem?_eq_some_iff.mp arg
      exact ⟨order, lines, h.pass (by rw [here]; rfl) ⟨inside, count, printed⟩⟩
    | receive k | exited =>
      simp only [State.step, here] at next
      cases next
  | get i err =>
    have stands := (h.places i).stands
    cases here : s.fetch i with
    | get url =>
      rw [here] at stands
      simp only [State.step, here] at next
      cases err with
      | some err =>
        obtain rfl := Option.some.inj next
        exact ⟨order, lines, h.move (by rw [here]; nofun) (by rw [here]; nofun) nofun nofun
          ⟨url, stands, trivial⟩⟩
      | none =>
        obtain rfl := Option.some.inj next
        exact ⟨order, lines, h.move (by rw [here]; nofun) (by rw [here]; nofun) nofun nofun stands⟩
    | _ =>
      simp only [State.step, here] at next
      cases next
  | copy i secs nbytes err =>
    have stands := (h.places i).stands
    cases here : s.fetch i with
    | copy url =>
      rw [here] at stands
      simp only [State.step, here] at next
      cases err <;> obtain rfl := Option.some.inj next <;>
        exact ⟨order, lines, h.move (by rw [here]; nofun) (by rw [here]; nofun) nofun nofun
          ⟨url, stands, rfl⟩⟩
    | _ =>
      simp only [State.step, here] at next
      cases next
  | receive i =>
    simp only [State.step] at next
    split at next
    · rename_i k line here sends
      split_ifs at next with more
      obtain rfl := Option.some.inj next
      obtain ⟨url, received⟩ := h.receive here sends more
      exact ⟨_, _, received⟩
    · cases next
  | elapsed secs =>
    cases here : s.main with
    | receive k =>
      rw [here] at shows
      obtain ⟨le, count, printed⟩ := shows
      simp only [State.step, here] at next
      split_ifs at next with more
      obtain rfl := Option.some.inj next
      have all : k = urls.length := le.antisymm (Nat.le_of_not_lt more)
      refine ⟨order, lines, h.pass (by rw [here]; rfl) ⟨count.trans all, secs, ?_⟩⟩
      rw [printed, all, List.take_length]
    | _ =>
      simp only [State.step, here] at next
      cases next

/-- A goroutine that has its URL comes to send a line unless it has done so. -/
theorem unfinished (h : Inv urls s order lines) {k : ℕ} (here : s.main = .receive k)
    (more : k < urls.length) : ∃ a : Action ε, ∃ s', s.act urls a = some s' := by
  have shows := h.shows
  rw [here] at shows
  have count : (order.map Prod.snd).length = k := by
    rw [List.length_map, h.sent.length_eq, shows.2.1]
  obtain ⟨i, inside, missing⟩ : ∃ i ∈ List.range urls.length, i ∉ order.map Prod.snd := by
    by_contra all
    have sub := List.subperm_of_subset List.nodup_range fun i mem =>
      by_contra fun missing => all ⟨i, mem, missing⟩
    have short := sub.length_le
    rw [List.length_range, count] at short
    omega
  obtain ⟨born, -, returned⟩ := h.places i
  have on : s.main ≠ .exited := by
    rw [here]
    nofun
  cases there : s.fetch i with
  | unborn =>
    have late := born.mp there
    rw [here] at late
    exact absurd (List.mem_range.mp inside) (Nat.not_lt_of_le late)
  | get url =>
    exact ⟨.get i none, s.goto i (.copy url), by rw [State.act, if_neg on, State.step, there]⟩
  | copy url =>
    exact ⟨.copy i 0 0 none, s.goto i (.send (.fetched 0 0 url)), by
      rw [State.act, if_neg on, State.step, there]⟩
  | send line =>
    refine ⟨.receive i, { s.goto i .returned with
      main := .println k, printed := s.printed ++ [.line line] }, ?_⟩
    rw [State.act, if_neg on, State.step]
    simp only [here, there]
    exact if_pos more
  | returned => exact absurd (returned.mp there) missing

/-- When there are as many lines as URLs, each goroutine has sent one. -/
theorem complete (h : Inv urls s order lines) (all : lines.length = urls.length) :
    order.Perm urls.zipIdx := by
  have sub : order ⊆ urls.zipIdx := fun p mem => List.mem_zipIdx_iff_getElem?.mpr (h.listed p mem)
  have distinct : order.Nodup := h.distinct.of_map
  refine (List.subperm_of_subset distinct sub).perm_of_length_le ?_
  rw [List.length_zipIdx, h.sent.length_eq, all]

theorem all_returned (h : Inv urls s order lines) (here : s.main = .exited)
    (inside : i < urls.length) :
    s.fetch i = .returned := by
  have shows := h.shows
  rw [here] at shows
  have listed : (urls[i], i) ∈ order := (h.complete shows.1).mem_iff.mpr
    (List.mem_zipIdx_iff_getElem?.mpr (List.getElem?_eq_getElem inside))
  exact (h.places i).returned.mpr (List.mem_map_of_mem listed)

end Inv

/-- The steps of `main` that do not belong to a goroutine. -/
def Main.left : Main → ℕ
  | .start _ | .println _ => 2
  | .receive _ => 1
  | .exited => 0

/-- The steps of a goroutine, with those of `main` that start it and print its line and a URL. -/
def Fetch.left : Fetch υ ε → ℕ
  | .unborn => 5
  | .get _ => 4
  | .copy _ => 3
  | .send _ => 2
  | .returned => 0

open Census in
def State.left (urls : List υ) (s : State υ ε) : ℕ :=
  s.main.left + tally (Finset.range urls.length) s.fetch Fetch.left

theorem State.left_lt (inside : i < urls.length) (fetch : s'.fetch = Function.update s.fetch i f)
    (less : s'.main.left + f.left < s.main.left + (s.fetch i).left) :
    s'.left urls < s.left urls := by
  have moved : Census.tally (Finset.range urls.length) (Function.update s.fetch i f) Fetch.left +
      (s.fetch i).left = _ := Census.tally_update (Finset.mem_range.mpr inside)
  rw [State.left, State.left, fetch]
  omega

theorem Inv.inside (h : Inv urls s order lines) (born : s.fetch i ≠ .unborn)
    (busy : s.fetch i ≠ .returned) : i < urls.length := by
  obtain ⟨-, stands, -⟩ := h.places i
  cases here : s.fetch i with
  | unborn => exact absurd here born
  | get url | copy url =>
    rw [here] at stands
    exact (List.getElem?_eq_some_iff.mp stands).1
  | send line =>
    rw [here] at stands
    obtain ⟨url, arg, -⟩ := stands
    exact (List.getElem?_eq_some_iff.mp arg).1
  | returned => exact absurd here busy

theorem Inv.left_lt (h : Inv urls s order lines) (next : s.act urls a = some s') :
    s'.left urls < s.left urls := by
  unfold State.act at next
  split_ifs at next
  cases a with
  | main =>
    cases here : s.main with
    | start i =>
      cases arg : urls[i]? with
      | some url =>
        simp only [State.step, here, arg] at next
        obtain rfl := Option.some.inj next
        have unborn : s.fetch i = .unborn := (h.places i).born.mpr (by rw [here]; exact le_rfl)
        refine State.left_lt (List.getElem?_eq_some_iff.mp arg).1 rfl ?_
        rw [here, unborn]
        exact show 2 + 4 < 2 + 5 by decide
      | none =>
        simp only [State.step, here, arg] at next
        obtain rfl := Option.some.inj next
        rw [State.left, State.left, here]
        exact Nat.add_lt_add_right (show 1 < 2 by decide) _
    | println k =>
      simp only [State.step, here] at next
      obtain ⟨url, -, rfl⟩ := Option.map_eq_some_iff.mp next
      rw [State.left, State.left, here]
      exact Nat.add_lt_add_right (show 1 < 2 by decide) _
    | receive k | exited =>
      simp only [State.step, here] at next
      cases next
  | get i err =>
    cases here : s.fetch i with
    | get url =>
      have inside := h.inside (i := i) (by rw [here]; nofun) (by rw [here]; nofun)
      simp only [State.step, here] at next
      cases err <;> obtain rfl := Option.some.inj next <;> refine State.left_lt inside rfl ?_ <;>
        rw [here] <;> exact Nat.add_lt_add_left (by simp [Fetch.left]) _
    | _ =>
      simp only [State.step, here] at next
      cases next
  | copy i secs nbytes err =>
    cases here : s.fetch i with
    | copy url =>
      have inside := h.inside (i := i) (by rw [here]; nofun) (by rw [here]; nofun)
      simp only [State.step, here] at next
      cases err <;> obtain rfl := Option.some.inj next <;> refine State.left_lt inside rfl ?_ <;>
        rw [here] <;> exact Nat.add_lt_add_left (by simp [Fetch.left]) _
    | _ =>
      simp only [State.step, here] at next
      cases next
  | receive i =>
    simp only [State.step] at next
    split at next
    · rename_i k line here sends
      split_ifs at next
      obtain rfl := Option.some.inj next
      have inside := h.inside (i := i) (by rw [sends]; nofun) (by rw [sends]; nofun)
      refine State.left_lt inside rfl ?_
      rw [here, sends]
      exact show 2 + 0 < 1 + 2 by decide
    · cases next
  | elapsed secs =>
    cases here : s.main with
    | receive k =>
      simp only [State.step, here] at next
      split_ifs at next
      obtain rfl := Option.some.inj next
      rw [State.left, State.left, here]
      exact Nat.add_lt_add_right (show 0 < 1 by decide) _
    | _ =>
      simp only [State.step, here] at next
      cases next

theorem finishes (urls : List υ) :
    (machine urls ε).Finishes (fun _ _ => true) (fun s => ∃ order lines, Inv urls s order lines)
      (fun s => s.main = .exited) (State.left urls) where
  down s a s' h _ next := by
    obtain ⟨order, lines, inv⟩ := h
    exact ⟨inv.act next, inv.left_lt next⟩
  moves s h on := by
    obtain ⟨order, lines, inv⟩ := h
    have shows := inv.shows
    suffices ∃ a : Action ε, ∃ s', s.act urls a = some s' from
      this.imp fun a next => ⟨rfl, next⟩
    cases here : s.main with
    | start i =>
      refine ⟨.main, Option.ne_none_iff_exists'.mp fun stuck => ?_⟩
      rw [State.act, if_neg on, State.step, here] at stuck
      dsimp only at stuck
      split at stuck <;> cases stuck
    | receive k =>
      by_cases more : k < urls.length
      · exact inv.unfinished here more
      · refine ⟨.elapsed 0, { s with main := .exited, printed := s.printed ++ [.elapsed 0] }, ?_⟩
        rw [State.act, if_neg on, State.step, here]
        exact if_neg more
    | println k =>
      rw [here] at shows
      obtain ⟨-, url, arg, -⟩ := shows
      refine ⟨.main, { s with main := .receive (k + 1), printed := s.printed ++ [.url url] }, ?_⟩
      simp only [State.act, State.step, here, arg, Option.map_some]
      exact if_neg nofun
    | exited => exact absurd here on

theorem inv_reachable (h : (machine urls ε).Reachable s) :
    ∃ order lines, Inv urls s order lines := by
  refine h.invariant (fun s => ∃ order lines, Inv urls s order lines) (fun s start => ?_)
    fun s a s' before next => ?_
  · rw [show s = initial υ ε from start]
    exact ⟨[], [], inv_initial⟩
  · obtain ⟨order, lines, inv⟩ := before
    exact inv.act next

/-- Whatever the servers answer and in whatever order the goroutines run, `main` returns after at
most five steps for each URL and two more, and no goroutine is left waiting to send its line. -/
theorem fetchall_ends {as : List (Action ε)}
    (run : (machine urls ε).run (initial υ ε) as = some s) :
    as.length ≤ 5 * urls.length + 2 ∧ ((∀ a, s.act urls a = none) →
      s.main = .exited ∧ ∀ i < urls.length, s.fetch i = .returned) := by
  have start : ∃ order lines, Inv urls (initial υ ε) order lines := ⟨[], [], inv_initial⟩
  rw [Machine.run_eq_runBy] at run
  obtain ⟨⟨order, lines, inv⟩, paid⟩ := (finishes urls).length_le start run
  refine ⟨?_, fun stuck => ?_⟩
  · have each : ∀ i ∈ Finset.range urls.length, ((initial υ ε).fetch i).left = 5 := fun _ _ => rfl
    have begin : (initial υ ε).left urls = 2 + urls.length * 5 := by
      rw [State.left, Census.tally, Finset.sum_const_nat each, Finset.card_range]
      rfl
    omega
  · have exited := (finishes urls).goal_of_stuck start run fun a _ => stuck a
    exact ⟨exited, fun i inside => inv.all_returned exited inside⟩

/-- Two URLs, of which the second answers first and the first not at all. -/
theorem fetchall_ends_two : ∃ s : State ℕ ℕ, (machine [7, 8] ℕ).run (initial ℕ ℕ)
    [.main, .main, .main, .get 1 none, .copy 1 25 100 none, .receive 1, .main, .get 0 (some 404),
      .receive 0, .main, .elapsed 30] = some s ∧ s.fetch 0 = .returned ∧
      s.printed = [.line (.fetched 25 100 8), .url 7, .line (.getFailed 404), .url 8,
        .elapsed 30] := by
  obtain ⟨s, run, printed⟩ : ∃ s : State ℕ ℕ, (machine [7, 8] ℕ).run (initial ℕ ℕ)
      [.main, .main, .main, .get 1 none, .copy 1 25 100 none, .receive 1, .main, .get 0 (some 404),
        .receive 0, .main, .elapsed 30] = some s ∧ s.main = .exited ∧
      s.printed = [.line (.fetched 25 100 8), .url 7, .line (.getFailed 404), .url 8,
        .elapsed 30] :=
    ⟨_, rfl, rfl, rfl⟩
  have stuck (a : Action ℕ) : s.act [7, 8] a = none := if_pos printed.1
  exact ⟨s, run, ((fetchall_ends run).2 stuck).2 0 (by decide), printed.2⟩

/-- `main` can start all goroutines before the first of them gets an answer. -/
theorem all_started : ∃ s : State υ ε, (machine urls ε).Reachable s ∧ s.main = .receive 0 ∧
    s.printed = [] ∧ ∀ i url, urls[i]? = some url → s.fetch i = .get url := by
  suffices loop : ∀ k ≤ urls.length, ∃ s : State υ ε, (machine urls ε).Reachable s ∧
      s.main = .start k ∧ s.printed = [] ∧ ∀ i < k, ∀ url, urls[i]? = some url →
        s.fetch i = .get url by
    obtain ⟨s, reached, here, empty, gets⟩ := loop urls.length le_rfl
    have next : (machine urls ε).next s .main = some { s with main := .receive 0 } := by
      simp only [machine, State.act, State.step, here, List.getElem?_length]
      exact if_neg nofun
    exact ⟨_, reached.step next, rfl, empty, fun i url arg =>
      gets i (List.getElem?_eq_some_iff.mp arg).1 url arg⟩
  intro k
  induction k with
  | zero => exact fun _ => ⟨initial υ ε, .init rfl, rfl, rfl, nofun⟩
  | succ k ih =>
    intro inside
    obtain ⟨s, reached, here, empty, gets⟩ := ih (Nat.le_of_lt inside)
    have arg := List.getElem?_eq_getElem inside
    have next : (machine urls ε).next s .main =
        some { s.goto k (.get urls[k]) with main := .start (k + 1) } := by
      simp only [machine, State.act, State.step, here, arg]
      exact if_neg nofun
    refine ⟨_, reached.step next, rfl, empty, fun i early url there => ?_⟩
    rcases Nat.lt_succ_iff_lt_or_eq.mp early with old | rfl
    · exact (Function.update_of_ne (Nat.ne_of_lt old) ..).trans (gets i old url there)
    · rw [Option.some.inj (there.symm.trans arg)]
      exact Function.update_self ..

/-- A goroutine can send any line for its URL. -/
theorem send_reachable (h : (machine urls ε).Reachable s) (on : s.main ≠ .exited) {url : υ}
    (here : s.fetch i = .get url) {line : Line υ ε} (own : LineFor url line) :
    (machine urls ε).Reachable (s.goto i (.send line)) := by
  have copies : (machine urls ε).next s (.get i none) = some (s.goto i (.copy url)) := by
    simp only [machine, State.act, State.step, here]
    exact if_neg on
  have there : (s.goto i (.copy url)).fetch i = .copy url := Function.update_self ..
  have direct (line : Line υ ε) :
      (s.goto i (.copy url)).goto i (.send line) = s.goto i (.send line) := by
    simp only [State.goto, Function.update_idem]
  cases line with
  | getFailed err =>
    refine h.step (a := .get i (some err)) ?_
    simp only [machine, State.act, State.step, here]
    exact if_neg on
  | copyFailed u err =>
    obtain rfl := own
    refine (h.step copies).step (a := .copy i 0 0 (some err)) ?_
    simp only [machine, State.act, State.step, there, direct]
    exact if_neg on
  | fetched secs nbytes u =>
    obtain rfl := own
    refine (h.step copies).step (a := .copy i secs nbytes none) ?_
    simp only [machine, State.act, State.step, there, direct]
    exact if_neg on

/-- `main` can take the line of any goroutine next. -/
theorem serve_reachable (h : (machine urls ε).Reachable s) {k : ℕ} (here : s.main = .receive k)
    {u url : υ} (arg : urls[k]? = some u) (gets : s.fetch i = .get url) {line : Line υ ε}
    (own : LineFor url line) :
    (machine urls ε).Reachable { s.goto i .returned with
      main := .receive (k + 1), printed := s.printed ++ [.line line, .url u] } := by
  have sent := send_reachable h (by rw [here]; nofun) gets own
  have there : (s.goto i (.send line)).fetch i = .send line := Function.update_self ..
  have inside : k < urls.length := (List.getElem?_eq_some_iff.mp arg).1
  have taken : (machine urls ε).next (s.goto i (.send line)) (.receive i) = some
      { s.goto i .returned with main := .println k, printed := s.printed ++ [.line line] } := by
    have main : (s.goto i (.send line)).main = .receive k := here
    simp only [machine, State.act, State.step, main, there, if_pos inside]
    simp only [State.goto, Function.update_idem]
    exact if_neg nofun
  refine (sent.step taken).step (a := .main) ?_
  simp only [machine, State.act, State.step, arg, Option.map_some, List.append_assoc]
  exact if_neg nofun

theorem all_served (sent : List.Forall₂ (fun p line => LineFor p.1 line) order lines) {k : ℕ}
    (h : (machine urls ε).Reachable s) (here : s.main = .receive k)
    (gets : ∀ p ∈ order, s.fetch p.2 = .get p.1) (distinct : (order.map Prod.snd).Nodup)
    (count : order.length + k = urls.length) : ∃ s', (machine urls ε).Reachable s' ∧
      s'.main = .receive urls.length ∧
      s'.printed = s.printed ++ transcript lines (urls.drop k) := by
  induction sent generalizing k s with
  | nil =>
    rw [List.length_nil, Nat.zero_add] at count
    exact ⟨s, h, count ▸ here, (List.append_nil s.printed).symm⟩
  | @cons p line order lines own sent ih =>
    rw [List.length_cons] at count
    have inside : k < urls.length := by omega
    obtain ⟨first, others⟩ := List.forall_mem_cons.mp gets
    obtain ⟨apart, distinct⟩ := List.nodup_cons.mp distinct
    have served := serve_reachable h here (List.getElem?_eq_getElem inside) first own
    have later : ∀ q ∈ order, (s.goto p.2 .returned).fetch q.2 = .get q.1 := fun q mem => by
      have ne : q.2 ≠ p.2 := fun same => apart (same ▸ List.mem_map_of_mem mem)
      exact (Function.update_of_ne ne ..).trans (others q mem)
    obtain ⟨s', reached, main, printed⟩ := ih served rfl later distinct (by omega)
    refine ⟨s', reached, main, ?_⟩
    rw [printed, List.drop_eq_getElem_cons inside, List.append_assoc]
    rfl

/-- What `main` prints: for each URL the line of some URL, each one's line once and in any order,
and the URL, these in the order of the arguments. All such outputs occur. -/
theorem prints_iff {printed : List (Printed υ ε)} :
    (∃ s, (machine urls ε).Reachable s ∧ s.main = .exited ∧ s.printed = printed) ↔
      ∃ us lines secs, us.Perm urls ∧ List.Forall₂ LineFor us lines ∧
        printed = transcript lines urls ++ [.elapsed secs] := by
  constructor
  · rintro ⟨s, reached, here, rfl⟩
    obtain ⟨order, lines, inv⟩ := inv_reachable reached
    have shows := inv.shows
    rw [here] at shows
    obtain ⟨all, secs, printed⟩ := shows
    refine ⟨order.map Prod.fst, lines, secs, ?_, List.forall₂_map_left_iff.mpr inv.sent, printed⟩
    have perm := (inv.complete all).map Prod.fst
    rwa [List.zipIdx_map_fst] at perm
  · rintro ⟨us, lines, secs, perm, sent, rfl⟩
    obtain ⟨order, listed, rfl⟩ : ∃ order : List (υ × ℕ), order.Perm urls.zipIdx ∧
        us = order.map Prod.fst := by
      have comp : Relation.Comp (fun l m => l = List.map Prod.fst m) List.Perm us urls.zipIdx := by
        rw [List.eq_map_comp_perm]
        dsimp only
        rwa [List.zipIdx_map_fst]
      obtain ⟨order, same, listed⟩ := comp
      exact ⟨order, listed, same⟩
    obtain ⟨s, reached, here, empty, gets⟩ : ∃ s : State υ ε, (machine urls ε).Reachable s ∧
      s.main = .receive 0 ∧ s.printed = [] ∧ ∀ i url, urls[i]? = some url → s.fetch i = .get url :=
        all_started
    have distinct : (order.map Prod.snd).Nodup := by
      rw [(listed.map Prod.snd).nodup_iff, List.zipIdx_map_snd]
      exact List.nodup_range'
    obtain ⟨s', reached', here', printed⟩ :=
      all_served (List.forall₂_map_left_iff.mp sent) reached here
        (fun p mem => gets p.2 p.1 (List.mem_zipIdx_iff_getElem?.mp (listed.mem_iff.mp mem)))
        distinct (by rw [listed.length_eq, List.length_zipIdx, Nat.add_zero])
    have ended : (machine urls ε).next s' (.elapsed secs) =
        some { s' with main := .exited, printed := s'.printed ++ [.elapsed secs] } := by
      simp only [machine, State.act, State.step, here', if_neg (Nat.lt_irrefl urls.length)]
      exact if_neg nofun
    refine ⟨_, reached'.step ended, rfl, ?_⟩
    dsimp only
    rw [printed, empty, List.nil_append, List.drop_zero]

end Codelab.FetchAll
