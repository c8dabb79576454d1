import Codelab.PersonParse
import Mathlib.Tactic.Tauto

/-! What the parser makes of its input: it accepts the sequences of fields, joined inputs are
parsed one after the other, and what has been written is read back. -/

namespace Codelab.Person

/-- The parser accepts the input and makes `p'` of the message `p`, for all large numbers of
rounds. -/
def ParsesTo {σ υ : Type*} (I : CodedInputStream σ υ) (p : Person υ) (s : σ) (p' : Person υ) :
    Prop :=
  ∀ rounds, (I.rest s).length < rounds → ∃ s',
    mergePartialFromCodedStream I rounds p s = some (true, p', s') ∧
      I.consumedEntireMessage s' = true

/-- A stream that jumps where it can, and one that never does. -/
abbrev eager : CodedInputStream (List UInt8 × Bool) (BitVec 32 × BitVec 64) :=
  .ofBytes .base128 true

abbrev plain : CodedInputStream (List UInt8 × Bool) (BitVec 32 × BitVec 64) :=
  .ofBytes .base128 false

theorem eager_follows : eager.Follows .base128 := CodedInputStream.ofBytes_follows _ _

theorem plain_follows : plain.Follows .base128 := CodedInputStream.ofBytes_follows _ _

/-- Number and address, and behind them a field with the number of `name` that is no string. -/
def sample : List UInt8 := [16, 12, 26, 1, 97, 8, 5]

def sampleItems : List (Item (BitVec 32 × BitVec 64)) := [.id 12, .email [97], .unknown (8, 5)]

theorem sample_reads : WireFormat.base128.items.Reads sample sampleItems [] :=
  .cons rfl (.cons rfl (.cons rfl .nil))

section results

variable {σ σ₁ σ₂ υ : Type*} {I : CodedInputStream σ υ} {I₁ : CodedInputStream σ₁ υ}
  {I₂ : CodedInputStream σ₂ υ} {W : WireFormat υ} {p p' p₁ p₂ q : Person υ} {s : σ} {s₁ : σ₁}
  {s₂ : σ₂}

/-- Just the sequences of fields are accepted, and each field is put into the message in turn,
however far the stream lets the parser jump. -/
theorem parsesTo_iff (follows : I.Follows W) :
    ParsesTo I p s p' ↔ ∃ items, W.items.Reads (I.rest s) items [] ∧ p' = items.foldl put p := by
  constructor
  · intro parses
    obtain ⟨s', result, consumed⟩ := parses _ (Nat.lt_succ_self _)
    obtain ⟨success, q, t, same, sound, -⟩ :=
      mergePartial_meets follows (p := p) (Nat.lt_succ_self (I.rest s).length)
    rw [result] at same
    simp only [Option.some.injEq, Prod.mk.injEq] at same
    obtain ⟨rfl, rfl, rfl⟩ := same
    exact sound ⟨rfl, consumed⟩
  · rintro ⟨items, whole, rfl⟩ rounds enough
    obtain ⟨success, q, t, result, sound, complete⟩ := mergePartial_meets follows (p := p) enough
    obtain ⟨rfl, consumed⟩ := complete items whole
    obtain ⟨items', whole', rfl⟩ := sound ⟨rfl, consumed⟩
    rw [whole'.unique whole] at result
    exact ⟨t, result, consumed⟩

theorem parsesTo_iff_sample : ParsesTo eager .new (sample, false) (sampleItems.foldl put .new) :=
  (parsesTo_iff eager_follows).mpr ⟨_, sample_reads, rfl⟩

/-- Parsing two inputs one after the other into one message is parsing them joined together. -/
theorem parses_joined (follows₁ : I₁.Follows W) (follows₂ : I₂.Follows W) (follows : I.Follows W)
    (joined : I.rest s = I₁.rest s₁ ++ I₂.rest s₂) (first : ParsesTo I₁ p s₁ p₁) :
    ParsesTo I p s p₂ ↔ ParsesTo I₂ p₁ s₂ p₂ := by
  rw [parsesTo_iff follows, parsesTo_iff follows₂, joined]
  obtain ⟨items, read, rfl⟩ := (parsesTo_iff follows₁).mp first
  have read := read.append (I₂.rest s₂)
  constructor
  · rintro ⟨all, whole, rfl⟩
    obtain ⟨more, rfl, further⟩ := read.split whole
    exact ⟨more, further, List.foldl_append ..⟩
  · rintro ⟨more, further, rfl⟩
    exact ⟨items ++ more, read.trans further, (List.foldl_append ..).symm⟩

/-- The sample and behind it a name. -/
theorem parses_joined_sample :
    ParsesTo plain .new (sample ++ [10, 1, 98], false)
    ((sampleItems.foldl put .new).setName [98]) :=
  (parses_joined eager_follows plain_follows plain_follows
    (rfl : plain.rest _ = eager.rest (sample, false) ++ plain.rest ([10, 1, 98], false))
    ((parsesTo_iff eager_follows).mpr ⟨_, sample_reads, rfl⟩)).mpr
    ((parsesTo_iff plain_follows).mpr ⟨[.name [98]], .cons rfl .nil, rfl⟩)

/-- Parsing what has been written is merging the message that was written, and `ByteSize` tells how
many bytes that are, modulo the width of `int`. -/
theorem parses_serialized (follows : I.Follows W) (sound : q.Sound)
    (writable : ∀ item ∈ p.fields.items, W.Writable item) (written : I.rest s = p.serialize W) :
    (p.byteSize W).1 = BitVec.ofNat 32 (I.rest s).length ∧
      ∃ q', ParsesTo I q s q' ∧ q'.Sound ∧ q'.fields = (q.mergeFrom p).fields := by
  refine ⟨by rw [byteSize_eq, written], ?_⟩
  have read := Codec.reads_encode (c := W.items) writable []
  rw [List.append_nil, ← serialize_eq, ← written] at read
  obtain ⟨sound', fields⟩ := foldl_put_fields sound p.fields.items
  refine ⟨_, (parsesTo_iff follows).mpr ⟨_, read, rfl⟩, sound', ?_⟩
  rw [fields, Fields.foldl_put_items, (mergeFrom_merges sound p).2]

/-- A name and a negative number over an empty message. -/
theorem parses_serialized_named :
    ∃ q', ParsesTo eager .new (((new.setName [97]).setId (-1)).serialize .base128, false) q' ∧
      q'.Sound ∧ q'.fields = (new.mergeFrom ((new.setName [97]).setId (-1))).fields := by
  refine (parses_serialized eager_follows sound_new (fun item mem => ?_) rfl).2
  rw [fields_setId, fields_setName sound_new, fields_new] at mem
  have either : item = .name [97] ∨ item = .id (-1) := by
    simpa [Fields.items, Fields.empty] using mem
  rcases either with rfl | rfl
  · exact (by decide : 1 < 2 ^ 31)
  · trivial

theorem mem_items_put {f : Fields υ} {item new : Item υ} (mem : item ∈ (f.put new).items) :
    item = new ∨ item ∈ f.items := by
  cases new with
  | name value | id value | email value =>
    simp only [Fields.put, Fields.items, Option.toList_some, List.map_cons, List.map_nil,
      List.mem_append, List.mem_singleton] at mem ⊢
    tauto
  | unknown u =>
    simp only [Fields.put, Fields.items, List.map_append, List.map_cons, List.map_nil,
      List.mem_append, List.mem_singleton] at mem ⊢
    tauto

theorem mem_items_foldl {f : Fields υ} {items : List (Item υ)} {item : Item υ}
    (mem : item ∈ (items.foldl Fields.put f).items) : item ∈ items ∨ item ∈ f.items := by
  induction items generalizing f with
  | nil => exact .inr mem
  | cons new items ih =>
    rcases ih mem with later | now
    · exact .inl (List.mem_cons_of_mem _ later)
    · rcases mem_items_put now with rfl | before
      · exact .inl (List.mem_cons_self ..)
      · exact .inr before

/-- A message that has been parsed is written so that parsing gives the same fields again. -/
theorem reparsed (follows₁ : I₁.Follows W) (follows : I.Follows W)
    (parsed : ParsesTo I₁ .new s₁ p) (written : I.rest s = p.serialize W) :
    ∃ p', ParsesTo I .new s p' ∧ p'.Sound ∧ p'.fields = p.fields := by
  obtain ⟨items, read, rfl⟩ := (parsesTo_iff follows₁).mp parsed
  obtain ⟨-, fields⟩ := foldl_put_fields (sound_new (υ := υ)) items
  have writable : ∀ item ∈ (items.foldl put new).fields.items, W.Writable item := by
    intro item mem
    rw [fields] at mem
    rcases mem_items_foldl mem with found | absent
    · exact read.ok item found
    · rw [fields_new] at absent
      exact absurd absent List.not_mem_nil
  obtain ⟨-, p', parses, sound, merged⟩ :=
    parses_serialized follows sound_new writable written
  refine ⟨p', parses, sound, ?_⟩
  rw [merged, (mergeFrom_merges sound_new _).2, fields_new, Fields.empty_merge]

theorem reparsed_sample :
    ∃ p', ParsesTo plain .new ((sampleItems.foldl put .new).serialize .base128, false) p' ∧
      p'.Sound ∧ p'.fields = (sampleItems.foldl put .new).fields :=
  have parsed : ParsesTo eager .new (sample, false) (sampleItems.foldl put .new) :=
    (parsesTo_iff eager_follows).mpr ⟨_, sample_reads, rfl⟩
  reparsed eager_follows plain_follows parsed rfl

end results

end Codelab.Person
