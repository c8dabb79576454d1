import Codelab.PersonWire

/-! `MergePartialFromCodedStream`. The stream may keep `ExpectTag` and `ExpectAtEnd` from saying yes
where they could, so that the jumps between the cases of the parser are taken or not; what is
read and whether it is accepted depend on the bytes alone. -/

namespace Codelab

/-- The functions of the protocol buffer library that the parser calls, most of them on a stream.
`rest` are the bytes that are still to be read. `readString` returns what is in the string then,
`skipField` what has been added to the unknown fields. -/
structure CodedInputStream (σ υ : Type*) where
  getTagFieldNumber : BitVec 32 → BitVec 32
  getTagWireType : BitVec 32 → BitVec 32
  wiretypeEndGroup : BitVec 32
  rest : σ → List UInt8
  readTagWithCutoff : BitVec 32 → σ → (BitVec 32 × Bool) × σ
  expectTag : BitVec 32 → σ → Bool × σ
  expectAtEnd : σ → Bool × σ
  readString : σ → (Bool × List UInt8) × σ
  readInt32 : σ → Option (BitVec 32) × σ
  skipField : BitVec 32 → σ → (Bool × List υ) × σ
  consumedEntireMessage : σ → Bool

/-- What the library promises of these functions: they read the codes of `W`. A tag of zero stands
for the end of the input and for what is not a tag. -/
structure CodedInputStream.Follows {σ υ : Type*} (I : CodedInputStream σ υ) (W : WireFormat υ) :
    Prop where
  fieldNumber : ∀ tag, I.getTagFieldNumber tag = tag >>> 3
  wireType : ∀ tag, I.getTagWireType tag = tag &&& 7
  endGroup : I.wiretypeEndGroup = 4
  readTag : ∀ cutoff s tag left, W.tag.decode (I.rest s) = some (tag, left) →
    (I.readTagWithCutoff cutoff s).1.1 = tag ∧ I.rest (I.readTagWithCutoff cutoff s).2 = left
  readTag_none : ∀ cutoff s, W.tag.decode (I.rest s) = none →
    (I.readTagWithCutoff cutoff s).1.1 = 0
  readTag_consumed : ∀ cutoff s,
    I.consumedEntireMessage (I.readTagWithCutoff cutoff s).2 = true ↔ I.rest s = []
  cutoff : ∀ cutoff s, (I.readTagWithCutoff cutoff s).1.2 = true →
    (I.readTagWithCutoff cutoff s).1.1 ≤ cutoff
  beyond : ∀ cutoff s, (I.readTagWithCutoff cutoff s).1.2 = false →
    (I.readTagWithCutoff cutoff s).1.1 = 0 ∨ cutoff < (I.readTagWithCutoff cutoff s).1.1
  expectTag : ∀ tag s, (I.expectTag tag s).1 = true →
    W.tag.decode (I.rest s) = some (tag, I.rest (I.expectTag tag s).2)
  expectTag_not : ∀ tag s, (I.expectTag tag s).1 = false →
    I.rest (I.expectTag tag s).2 = I.rest s
  expectAtEnd : ∀ s, (I.expectAtEnd s).1 = true →
    I.rest s = [] ∧ I.consumedEntireMessage (I.expectAtEnd s).2 = true
  expectAtEnd_not : ∀ s, (I.expectAtEnd s).1 = false → I.rest (I.expectAtEnd s).2 = I.rest s
  readString : ∀ s value left, W.string.decode (I.rest s) = some (value, left) →
    (I.readString s).1 = (true, value) ∧ I.rest (I.readString s).2 = left
  readString_none : ∀ s, W.string.decode (I.rest s) = none → (I.readString s).1.1 = false
  readInt32 : ∀ s value left, W.int32.decode (I.rest s) = some (value, left) →
    (I.readInt32 s).1 = some value ∧ I.rest (I.readInt32 s).2 = left
  readInt32_none : ∀ s, W.int32.decode (I.rest s) = none → (I.readInt32 s).1 = none
  skipField : ∀ tag s f left, (W.field tag).decode (I.rest s) = some (f, left) →
    (I.skipField tag s).1 = (true, [f]) ∧ I.rest (I.skipField tag s).2 = left
  skipField_none : ∀ tag s, ¬ WireFormat.Ends tag → (W.field tag).decode (I.rest s) = none →
    (I.skipField tag s).1.1 = false

namespace Person

/-- How one round of the loop ends: with the label `success` or `failure`, or with a `break` out
of the `switch`. -/
inductive Round (σ υ : Type*)
  | ended (success : Bool) (p : Person υ) (s : σ)
  | again (p : Person υ) (s : σ)

section parse

variable {σ υ : Type*} (I : CodedInputStream σ υ) (p : Person υ) (s : σ)

/-- `handle_unusual`. -/
def handleUnusual (tag : BitVec 32) : Round σ υ :=
  if tag = 0 ∨ I.getTagWireType tag = I.wiretypeEndGroup then .ended true p s
  else
    let skipped := I.skipField tag s
    let p := { p with unknownFields := p.unknownFields ++ skipped.1.2 }
    if skipped.1.1 then .again p skipped.2 else .ended false p skipped.2

/-- From the label `parse_email`. -/
def parseEmail : Round σ υ :=
  let read := I.readString s
  let p := p.mutableEmail fun _ => read.1.2
  if read.1.1 then
    let atEnd := I.expectAtEnd read.2
    if atEnd.1 then .ended true p atEnd.2 else .again p atEnd.2
  else .ended false p read.2

/-- From the label `parse_id`. -/
def parseId : Round σ υ :=
  let read := I.readInt32 s
  match read.1 with
  | none => .ended false p read.2
  | some value =>
    let p := p.setId value
    let expected := I.expectTag 26 read.2
    if expected.1 then p.parseEmail I expected.2 else .again p expected.2

/-- `case 1`, behind the test of the tag. -/
def parseName : Round σ υ :=
  let read := I.readString s
  let p := p.mutableName fun _ => read.1.2
  if read.1.1 then
    let expected := I.expectTag 16 read.2
    if expected.1 then p.parseId I expected.2 else .again p expected.2
  else .ended false p read.2

def parseRound : Round σ υ :=
  let read := I.readTagWithCutoff 127 s
  let tag := read.1.1
  if read.1.2 = false then p.handleUnusual I read.2 tag
  else if I.getTagFieldNumber tag = 1 then
    if tag = 10 then p.parseName I read.2 else p.handleUnusual I read.2 tag
  else if I.getTagFieldNumber tag = 2 then
    if tag = 16 then p.parseId I read.2 else p.handleUnusual I read.2 tag
  else if I.getTagFieldNumber tag = 3 then
    if tag = 26 then p.parseEmail I read.2 else p.handleUnusual I read.2 tag
  else p.handleUnusual I read.2 tag

end parse

/-- For at most the given number of rounds. -/
def mergePartialFromCodedStream {σ υ : Type*} (I : CodedInputStream σ υ) :
    ℕ → Person υ → σ → Option (Bool × Person υ × σ)
  | 0, _, _ => none
  | rounds + 1, p, s =>
    match p.parseRound I s with
    | .ended success p s => some (success, p, s)
    | .again p s => mergePartialFromCodedStream I rounds p s

section meets

variable {σ υ : Type*} {I : CodedInputStream σ υ} {W : WireFormat υ} {p p' : Person υ} {s s' : σ}
  {bytes mid : List UInt8} {item : Item υ} {items : List (Item υ)} {r : Round σ υ}

/-- A message that has been read to its end, as the caller of the parser finds out. -/
def Accepted (I : CodedInputStream σ υ) (success : Bool) (s : σ) : Prop :=
  success = true ∧ I.consumedEntireMessage s = true

/-- What a round that begins with `bytes` unread has to do: read some fields and go on behind them,
or end, accepting just what can be read to the end. -/
def Round.Meets (I : CodedInputStream σ υ) (W : WireFormat υ) (bytes : List UInt8)
    (p : Person υ) : Round σ υ → Prop
  | .again p' s' => ∃ items, items ≠ [] ∧ W.items.Reads bytes items (I.rest s') ∧
    p' = items.foldl put p
  | .ended success p' s' =>
    (Accepted I success s' → ∃ items, W.items.Reads bytes items [] ∧ p' = items.foldl put p) ∧
      ∀ items, W.items.Reads bytes items [] → Accepted I success s'

/-- What follows fields that have been read. -/
theorem Round.Meets.behind (h : r.Meets I W mid (items.foldl put p))
    (read : W.items.Reads bytes items mid) : r.Meets I W bytes p := by
  cases r with
  | again p' s' =>
    obtain ⟨more, some, further, rfl⟩ := h
    exact ⟨items ++ more, List.append_ne_nil_of_right_ne_nil _ some, read.trans further,
      (List.foldl_append ..).symm⟩
  | ended success p' s' =>
    obtain ⟨sound, complete⟩ := h
    constructor
    · intro accepted
      obtain ⟨more, further, rfl⟩ := sound accepted
      exact ⟨items ++ more, read.trans further, (List.foldl_append ..).symm⟩
    · intro all whole
      obtain ⟨more, -, further⟩ := read.split whole
      exact complete more further

theorem meets_again (read : W.items.decode bytes = some (item, I.rest s')) :
    (Round.again (p.put item) s').Meets I W bytes p :=
  ⟨[item], List.cons_ne_nil _ _, Codec.reads_one read, rfl⟩

theorem meets_ended (read : W.items.decode bytes = some (item, []))
    (consumed : I.consumedEntireMessage s' = true) :
    (Round.ended true (p.put item) s').Meets I W bytes p :=
  ⟨fun _ => ⟨[item], Codec.reads_one read, rfl⟩, fun _ _ => ⟨rfl, consumed⟩⟩

/-- Bytes that do not begin with a field are not accepted. -/
theorem meets_rejected {success : Bool} (some : bytes ≠ []) (bad : W.items.decode bytes = none)
    (rejected : ¬ Accepted I success s') : (Round.ended success p' s').Meets I W bytes p := by
  refine ⟨fun accepted => absurd accepted rejected, fun items whole => ?_⟩
  cases whole with
  | nil => exact absurd rfl some
  | cons read _ =>
    rw [bad] at read
    cases read

theorem failure_rejected : ¬ Accepted I false s' := fun accepted => Bool.false_ne_true accepted.1

theorem ne_nil_of_tag {tag : BitVec 32} (read : W.tag.decode bytes = some (tag, mid)) :
    bytes ≠ [] := by
  rintro rfl
  rw [Codec.decode_nil] at read
  cases read

theorem decode_item {tag : BitVec 32} (read : W.tag.decode bytes = some (tag, mid)) :
    W.items.decode bytes = W.readItem tag mid := by
  change (W.tag.decode bytes).bind _ = _
  rw [read]
  rfl

theorem ends_iff (follows : I.Follows W) {tag : BitVec 32} :
    tag = 0 ∨ I.getTagWireType tag = I.wiretypeEndGroup ↔ WireFormat.Ends tag := by
  rw [follows.wireType, follows.endGroup]
  rfl

theorem handleUnusual_of_ends (follows : I.Follows W) {tag : BitVec 32}
    (ends : WireFormat.Ends tag) :
    p.handleUnusual I s tag = .ended true p s := if_pos ((ends_iff follows).mpr ends)

theorem handleUnusual_of_going (follows : I.Follows W) {tag : BitVec 32}
    (going : ¬ WireFormat.Ends tag) :
    p.handleUnusual I s tag =
      if (I.skipField tag s).1.1 then
        .again { p with unknownFields := p.unknownFields ++ (I.skipField tag s).1.2 }
          (I.skipField tag s).2
      else
        .ended false { p with unknownFields := p.unknownFields ++ (I.skipField tag s).1.2 }
          (I.skipField tag s).2 := if_neg (going ∘ (ends_iff follows).mp)

variable (follows : I.Follows W)
include follows

theorem parseEmail_meets (tag : W.tag.decode bytes = some (26, I.rest s)) :
    (p.parseEmail I s).Meets I W bytes p := by
  have item := decode_item tag
  rw [W.readItem_email] at item
  cases read : W.string.decode (I.rest s) with
  | none =>
    rw [read] at item
    rw [parseEmail, if_neg (Bool.eq_false_iff.mp (follows.readString_none s read))]
    exact meets_rejected (ne_nil_of_tag tag) item failure_rejected
  | some found =>
    obtain ⟨value, left⟩ := found
    obtain ⟨result, rest⟩ := follows.readString s value left read
    rw [read] at item
    simp only [parseEmail, result, if_true]
    cases atEnd : (I.expectAtEnd (I.readString s).2).1 with
    | true =>
      obtain ⟨empty, consumed⟩ := follows.expectAtEnd _ atEnd
      rw [← rest, empty] at item
      exact meets_ended item consumed
    | false =>
      rw [← rest, ← follows.expectAtEnd_not _ atEnd] at item
      exact meets_again item

theorem parseId_meets (tag : W.tag.decode bytes = some (16, I.rest s)) :
    (p.parseId I s).Meets I W bytes p := by
  have item := decode_item tag
  rw [W.readItem_id] at item
  cases read : W.int32.decode (I.rest s) with
  | none =>
    rw [read] at item
    simp only [parseId, follows.readInt32_none s read]
    exact meets_rejected (ne_nil_of_tag tag) item failure_rejected
  | some found =>
    obtain ⟨value, left⟩ := found
    obtain ⟨result, rest⟩ := follows.readInt32 s value left read
    rw [read] at item
    simp only [parseId, result]
    cases expected : (I.expectTag 26 (I.readInt32 s).2).1 with
    | true =>
      have next := follows.expectTag _ _ expected
      rw [rest] at next
      exact (parseEmail_meets follows next).behind (Codec.reads_one item)
    | false =>
      rw [← rest, ← follows.expectTag_not _ _ expected] at item
      exact meets_again item

theorem parseName_meets (tag : W.tag.decode bytes = some (10, I.rest s)) :
    (p.parseName I s).Meets I W bytes p := by
  have item := decode_item tag
  rw [W.readItem_name] at item
  cases read : W.string.decode (I.rest s) with
  | none =>
    rw [read] at item
    rw [parseName, if_neg (Bool.eq_false_iff.mp (follows.readString_none s read))]
    exact meets_rejected (ne_nil_of_tag tag) item failure_rejected
  | some found =>
    obtain ⟨value, left⟩ := found
    obtain ⟨result, rest⟩ := follows.readString s value left read
    rw [read] at item
    simp only [parseName, result, if_true]
    cases expected : (I.expectTag 16 (I.readString s).2).1 with
    | true =>
      have next := follows.expectTag _ _ expected
      rw [rest] at next
      exact (parseId_meets follows next).behind (Codec.reads_one item)
    | false =>
      rw [← rest, ← follows.expectTag_not _ _ expected] at item
      exact meets_again item

/-- The tag at which the unusual fields are handled has been read from `bytes`. -/
theorem handleUnusual_meets {tag : BitVec 32} (read : W.tag.decode bytes = some (tag, I.rest s))
    (name : tag ≠ 10) (id : tag ≠ 16) (email : tag ≠ 26)
    (unfinished : I.consumedEntireMessage s = false) :
    (p.handleUnusual I s tag).Meets I W bytes p := by
  have item := decode_item read
  by_cases ends : WireFormat.Ends tag
  · rw [WireFormat.readItem, if_pos ends] at item
    rw [handleUnusual_of_ends follows ends]
    refine meets_rejected (ne_nil_of_tag read) item fun accepted => ?_
    rw [accepted.2] at unfinished
    cases unfinished
  · rw [W.readItem_unknown ⟨ends, name, id, email⟩] at item
    rw [handleUnusual_of_going follows ends]
    cases found : (W.field tag).decode (I.rest s) with
    | none =>
      rw [found] at item
      simp only [follows.skipField_none tag s ends found]
      exact meets_rejected (ne_nil_of_tag read) item failure_rejected
    | some found' =>
      obtain ⟨f, left⟩ := found'
      obtain ⟨result, rest⟩ := follows.skipField tag s f left found
      rw [found] at item
      simp only [result, if_true]
      rw [← rest] at item
      exact meets_again item

/-- A tag that has been read leads to the case of its field, or to the unusual ones. -/
theorem parseRound_of_tag {tag : BitVec 32} {left : List UInt8}
    (read : W.tag.decode (I.rest s) = some (tag, left)) :
    p.parseRound I s =
      if tag = 10 then p.parseName I (I.readTagWithCutoff 127 s).2
      else if tag = 16 then p.parseId I (I.readTagWithCutoff 127 s).2
      else if tag = 26 then p.parseEmail I (I.readTagWithCutoff 127 s).2
      else p.handleUnusual I (I.readTagWithCutoff 127 s).2 tag := by
  obtain ⟨same, -⟩ := follows.readTag 127 s tag left read
  have beyond := follows.beyond 127 s
  rw [same] at beyond
  have known {t : BitVec 32} (here : tag = t) (low : ¬ (t = 0 ∨ 127 < t)) :
      ¬ (I.readTagWithCutoff 127 s).1.2 = false := fun no => low (here ▸ beyond no)
  rw [parseRound]
  simp only [same, follows.fieldNumber]
  by_cases name : tag = 10
  · rw [if_neg (known name (by decide)), if_pos name, name]
    rfl
  by_cases id : tag = 16
  · rw [if_neg (known id (by decide)), if_neg name, if_pos id, id]
    rfl
  by_cases email : tag = 26
  · rw [if_neg (known email (by decide)), if_neg name, if_neg id, if_pos email, email]
    rfl
  · simp only [name, id, email, if_false, ite_self]

theorem parseRound_meets : (p.parseRound I s).Meets I W (I.rest s) p := by
  have consumed := follows.readTag_consumed 127 s
  cases read : W.tag.decode (I.rest s) with
  | none =>
    have zero := follows.readTag_none 127 s read
    have ended : p.parseRound I s = .ended true p (I.readTagWithCutoff 127 s).2 := by
      rw [parseRound]
      simp only [zero, follows.fieldNumber,
        handleUnusual_of_ends follows (.inl rfl : WireFormat.Ends 0)]
      rw [if_neg (by decide : ¬ (0 : BitVec 32) >>> 3 = 1),
        if_neg (by decide : ¬ (0 : BitVec 32) >>> 3 = 2),
        if_neg (by decide : ¬ (0 : BitVec 32) >>> 3 = 3), ite_self]
    rw [ended]
    by_cases empty : I.rest s = []
    · rw [empty]
      exact ⟨fun _ => ⟨[], .nil, rfl⟩, fun _ _ => ⟨rfl, consumed.mpr empty⟩⟩
    · refine meets_rejected empty ?_ fun accepted => empty (consumed.mp accepted.2)
      change (W.tag.decode (I.rest s)).bind _ = none
      rw [read]
      rfl
  | some found =>
    obtain ⟨tag, left⟩ := found
    obtain ⟨-, rest⟩ := follows.readTag 127 s tag left read
    have unfinished : I.consumedEntireMessage (I.readTagWithCutoff 127 s).2 = false :=
      Bool.eq_false_iff.mpr fun done => ne_nil_of_tag read (consumed.mp done)
    rw [parseRound_of_tag follows read]
    rw [← rest] at read
    split_ifs with name id email
    · exact parseName_meets follows (name ▸ read)
    · exact parseId_meets follows (id ▸ read)
    · exact parseEmail_meets follows (email ▸ read)
    · exact handleUnusual_meets follows read name id email unfinished

/-- More rounds than bytes are enough. By induction on the rounds: each of them reads a field. -/
theorem mergePartial_meets {rounds : ℕ} (enough : (I.rest s).length < rounds) :
    ∃ success p' s', mergePartialFromCodedStream I rounds p s = some (success, p', s') ∧
      (Round.ended success p' s').Meets I W (I.rest s) p := by
  induction rounds generalizing p s with
  | zero => exact absurd enough (Nat.not_lt_zero _)
  | succ rounds ih =>
    have round := parseRound_meets follows (p := p) (s := s)
    rw [mergePartialFromCodedStream]
    cases here : p.parseRound I s with
    | ended success p' s' =>
      rw [here] at round
      exact ⟨success, p', s', rfl, round⟩
    | again p₁ s₁ =>
      rw [here] at round
      obtain ⟨items, some, read, rfl⟩ := round
      have less := read.shorter some
      obtain ⟨success, p', s', result, meets⟩ := ih (p := items.foldl put p) (s := s₁) (by omega)
      exact ⟨success, p', s', result, meets.behind read⟩

end meets

end Person

namespace CodedInputStream

variable {υ : Type*}

/-- A stream over bytes in memory, with the note whether the last tag was looked for at the end.
`eager` says whether `ExpectTag` and `ExpectAtEnd` say yes where they can. -/
def ofBytes (W : WireFormat υ) (eager : Bool) : CodedInputStream (List UInt8 × Bool) υ where
  getTagFieldNumber tag := tag >>> 3
  getTagWireType tag := tag &&& 7
  wiretypeEndGroup := 4
  rest s := s.1
  readTagWithCutoff cutoff s :=
    match W.tag.decode s.1 with
    | some (tag, left) => ((tag, decide (tag ≤ cutoff)), (left, s.1.isEmpty))
    | none => ((0, false), (s.1, s.1.isEmpty))
  expectTag tag s :=
    match W.tag.decode s.1 with
    | some (found, left) => if eager ∧ found = tag then (true, (left, s.2)) else (false, s)
    | none => (false, s)
  expectAtEnd s := if eager ∧ s.1.isEmpty then (true, ([], true)) else (false, s)
  readString s :=
    match W.string.decode s.1 with
    | some (value, left) => ((true, value), (left, s.2))
    | none => ((false, []), s)
  readInt32 s :=
    match W.int32.decode s.1 with
    | some (value, left) => (some value, (left, s.2))
    | none => (none, s)
  skipField tag s :=
    match (W.field tag).decode s.1 with
    | some (f, left) => ((true, [f]), (left, s.2))
    | none => ((false, []), s)
  consumedEntireMessage s := s.2

theorem ofBytes_follows (W : WireFormat υ) (eager : Bool) : (ofBytes W eager).Follows W where
  fieldNumber _ := rfl
  wireType _ := rfl
  endGroup := rfl
  readTag cutoff s tag left read := by
    simp only [ofBytes] at read ⊢
    rw [read]
    exact ⟨rfl, rfl⟩
  readTag_none cutoff s read := by
    simp only [ofBytes] at read ⊢
    rw [read]
  readTag_consumed cutoff s := by
    simp only [ofBytes]
    cases W.tag.decode s.1 <;> exact List.isEmpty_iff
  cutoff cutoff s low := by
    simp only [ofBytes] at low ⊢
    cases read : W.tag.decode s.1 with
    | none => exact Nat.zero_le _
    | some found =>
      rw [read] at low
      exact of_decide_eq_true low
  beyond cutoff s high := by
    simp only [ofBytes] at high ⊢
    cases read : W.tag.decode s.1 with
    | none => exact .inl rfl
    | some found =>
      rw [read] at high
      exact .inr (BitVec.not_le.mp (of_decide_eq_false high))
  expectTag tag s yes := by
    simp only [ofBytes] at yes ⊢
    cases read : W.tag.decode s.1 with
    | none =>
      rw [read] at yes
      cases yes
    | some found =>
      rw [read] at yes
      dsimp only at yes ⊢
      split_ifs at yes ⊢ with jump
      rw [← jump.2]
  expectTag_not tag s no := by
    simp only [ofBytes] at no ⊢
    cases read : W.tag.decode s.1 with
    | none => rfl
    | some found =>
      rw [read] at no
      dsimp only at no ⊢
      split_ifs at no ⊢ with jump
      rfl
  expectAtEnd s yes := by
    simp only [ofBytes] at yes ⊢
    split_ifs at yes ⊢ with empty
    exact ⟨List.isEmpty_iff.mp empty.2, rfl⟩
  expectAtEnd_not s no := by
    simp only [ofBytes] at no ⊢
    split_ifs at no ⊢ with empty
    rfl
  readString s value left read := by
    simp only [ofBytes] at read ⊢
    rw [read]
    exact ⟨rfl, rfl⟩
  readString_none s read := by
    simp only [ofBytes] at read ⊢
    rw [read]
  readInt32 s value left read := by
    simp only [ofBytes] at read ⊢
    rw [read]
    exact ⟨rfl, rfl⟩
  readInt32_none s read := by
    simp only [ofBytes] at read ⊢
    rw [read]
  skipField tag s f left read := by
    simp only [ofBytes] at read ⊢
    rw [read]
    exact ⟨rfl, rfl⟩
  skipField_none tag s _ read := by
    simp only [ofBytes] at read ⊢
    rw [read]

end CodedInputStream

end Codelab
