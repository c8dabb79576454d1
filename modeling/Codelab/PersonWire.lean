import Codelab.Person
import Codelab.Theory.Codec

/-! `Person` on the wire: what `SerializeWithCachedSizes` writes, and the size that `ByteSize`
computes for it. Of the protocol buffer library there are the codes of tags, strings, `int32`
values and unknown fields. -/

namespace Codelab

/-- The codes of the protocol buffer library, its functions that write fields and tell their sizes,
and what is known of them. `field t` is what stands behind the tag `t` of an unknown field;
`writeString` and `writeInt32` are for the field with the given tag. -/
structure WireFormat (υ : Type*) where
  tag : Codec (BitVec 32)
  string : Codec (List UInt8)
  int32 : Codec (BitVec 32)
  field : BitVec 32 → Codec υ
  fieldTag : υ → BitVec 32
  writeString : BitVec 32 → List UInt8 → List UInt8
  writeInt32 : BitVec 32 → BitVec 32 → List UInt8
  serializeUnknownFields : List υ → List UInt8
  stringSize : List UInt8 → BitVec 32
  int32Size : BitVec 32 → BitVec 32
  computeUnknownFieldsSize : List υ → BitVec 32
  writeString_eq : ∀ t value, writeString t value = tag.encode t ++ string.encode value
  writeInt32_eq : ∀ t value, writeInt32 t value = tag.encode t ++ int32.encode value
  serializeUnknownFields_eq : ∀ fields, serializeUnknownFields fields =
    fields.flatMap fun f => tag.encode (fieldTag f) ++ (field (fieldTag f)).encode f
  stringSize_eq : ∀ value, stringSize value = BitVec.ofNat 32 (string.encode value).length
  int32Size_eq : ∀ value, int32Size value = BitVec.ofNat 32 (int32.encode value).length
  computeUnknownFieldsSize_eq : ∀ fields, computeUnknownFieldsSize fields =
    BitVec.ofNat 32 (serializeUnknownFields fields).length
  tag_ok : ∀ t, tag.ok t
  tag_small : ∀ t, t.toNat < 128 → (tag.encode t).length = 1
  int32_ok : ∀ value, int32.ok value
  fieldTag_of_decode : ∀ t bytes f rest, (field t).decode bytes = some (f, rest) → fieldTag f = t

namespace Person

variable {υ : Type*} (W : WireFormat υ) (p : Person υ)

/-- `SerializeWithCachedSizes`, and `SerializeWithCachedSizesToArray` with the same calls for an
array. The tags are those of fields 1, 2 and 3 with their wire types. -/
def serialize : List UInt8 :=
  (if p.hasName then W.writeString 10 p.getName else []) ++
    ((if p.hasId then W.writeInt32 16 p.getId else []) ++
      ((if p.hasEmail then W.writeString 26 p.getEmail else []) ++
        (if p.unknownFields ≠ [] then W.serializeUnknownFields p.unknownFields else [])))

/-- The size and the message with `_cached_size_` set to it. -/
def byteSize : BitVec 32 × Person υ :=
  let total := 0
  let total :=
    if p.hasBits &&& 0xff ≠ 0 then
      let total := if p.hasName then total + (1 + W.stringSize p.getName) else total
      let total := if p.hasId then total + (1 + W.int32Size p.getId) else total
      if p.hasEmail then total + (1 + W.stringSize p.getEmail) else total
    else total
  let total :=
    if p.unknownFields ≠ [] then total + W.computeUnknownFieldsSize p.unknownFields else total
  (total, { p with cachedSize := total })

variable {W p}

theorem length_writeString (tag : BitVec 32) (small : tag.toNat < 128) (value : List UInt8) :
    BitVec.ofNat 32 (W.writeString tag value).length = 1 + W.stringSize value := by
  rw [W.writeString_eq, List.length_append, W.tag_small tag small, BitVec.ofNat_add,
    W.stringSize_eq]
  rfl

theorem length_writeInt32 (tag : BitVec 32) (small : tag.toNat < 128) (value : BitVec 32) :
    BitVec.ofNat 32 (W.writeInt32 tag value).length = 1 + W.int32Size value := by
  rw [W.writeInt32_eq, List.length_append, W.tag_small tag small, BitVec.ofNat_add, W.int32Size_eq]
  rfl

/-- One `if` of `ByteSize` against one `if` of the serializer. -/
theorem add_length (c : Prop) [Decidable c] (total : BitVec 32) {bytes : List UInt8}
    {size : BitVec 32} (same : BitVec.ofNat 32 bytes.length = size) :
    (if c then total + size else total) =
      total + BitVec.ofNat 32 (if c then bytes else []).length := by
  split_ifs with has
  · rw [same]
  · exact (BitVec.add_zero total).symm

/-- `ByteSize` counts what is written, modulo the width of `int`. -/
theorem byteSize_eq : (p.byteSize W).1 = BitVec.ofNat 32 (p.serialize W).length := by
  have name := length_writeString (W := W) 10 (by decide) p.getName
  have id := length_writeInt32 (W := W) 16 (by decide) p.getId
  have email := length_writeString (W := W) 26 (by decide) p.getEmail
  have unknown : BitVec.ofNat 32 (W.serializeUnknownFields p.unknownFields).length =
      W.computeUnknownFieldsSize p.unknownFields := (W.computeUnknownFieldsSize_eq _).symm
  rw [serialize, List.length_append, List.length_append, List.length_append, BitVec.ofNat_add,
    BitVec.ofNat_add, BitVec.ofNat_add]
  by_cases quiet : p.hasBits &&& 0xff = 0
  · have name : p.hasName = false := StringSlot.has_of_wider (s := p.nameSlot) quiet (by decide)
    have email : p.hasEmail = false :=
      StringSlot.has_of_wider (s := p.emailSlot) quiet (by decide)
    have id : p.hasId = false := StringSlot.has_of_wider (s := p.nameSlot) quiet (by decide)
    rw [byteSize, if_neg (not_not_intro quiet)]
    dsimp only
    rw [add_length _ _ unknown, name, id, email]
    simp
  · rw [byteSize, if_pos quiet]
    dsimp only
    rw [add_length _ _ unknown, add_length _ _ email, add_length _ _ id, add_length _ _ name,
      BitVec.add_assoc, BitVec.add_assoc, BitVec.add_assoc]
    exact BitVec.zero_add _

end Person

/-- One field on the wire. -/
inductive Item (υ : Type*)
  | name (value : List UInt8)
  | id (value : BitVec 32)
  | email (value : List UInt8)
  | unknown (f : υ)

namespace WireFormat

variable {υ : Type*} (W : WireFormat υ) {bytes rest : List UInt8} {item : Item υ}

/-- A tag at which a message ends: zero, or one with the wire type of an end of a group. -/
def Ends (tag : BitVec 32) : Prop := tag = 0 ∨ tag &&& 7 = 4

instance (tag : BitVec 32) : Decidable (Ends tag) := inferInstanceAs (Decidable (_ ∨ _))

/-- The tags of unknown fields. -/
def Foreign (tag : BitVec 32) : Prop := ¬ Ends tag ∧ tag ≠ 10 ∧ tag ≠ 16 ∧ tag ≠ 26

/-- What stands behind a tag. -/
def readItem (tag : BitVec 32) (bytes : List UInt8) : Option (Item υ × List UInt8) :=
  if Ends tag then none
  else if tag = 10 then (W.string.decode bytes).map (Prod.map .name id)
  else if tag = 16 then (W.int32.decode bytes).map (Prod.map .id id)
  else if tag = 26 then (W.string.decode bytes).map (Prod.map .email id)
  else ((W.field tag).decode bytes).map (Prod.map .unknown id)

def Writable : Item υ → Prop
  | .name value => W.string.ok value
  | .id _ => True
  | .email value => W.string.ok value
  | .unknown f => Foreign (W.fieldTag f) ∧ (W.field (W.fieldTag f)).ok f

def writeItem : Item υ → List UInt8
  | .name value => W.writeString 10 value
  | .id value => W.writeInt32 16 value
  | .email value => W.writeString 26 value
  | .unknown f => W.tag.encode (W.fieldTag f) ++ (W.field (W.fieldTag f)).encode f

theorem readItem_name :
    W.readItem 10 bytes = (W.string.decode bytes).map (Prod.map Item.name id) := rfl

theorem readItem_id :
    W.readItem 16 bytes = (W.int32.decode bytes).map (Prod.map Item.id id) := rfl

theorem readItem_email :
    W.readItem 26 bytes = (W.string.decode bytes).map (Prod.map Item.email id) := rfl

theorem readItem_unknown {tag : BitVec 32} (foreign : Foreign tag) :
    W.readItem tag bytes = ((W.field tag).decode bytes).map (Prod.map .unknown id) := by
  obtain ⟨going, name, id, email⟩ := foreign
  rw [readItem, if_neg going, if_neg name, if_neg id, if_neg email]

variable {W}

/-- What `readItem` finds: one of the four kinds of field. -/
theorem readItem_cases {tag : BitVec 32} (read : W.readItem tag bytes = some (item, rest)) :
    (∃ value, tag = 10 ∧ item = .name value ∧ W.string.decode bytes = some (value, rest)) ∨
    (∃ value, tag = 16 ∧ item = .id value ∧ W.int32.decode bytes = some (value, rest)) ∨
    (∃ value, tag = 26 ∧ item = .email value ∧ W.string.decode bytes = some (value, rest)) ∨
    ∃ f, Foreign tag ∧ item = .unknown f ∧ (W.field tag).decode bytes = some (f, rest) := by
  rw [readItem] at read
  split_ifs at read with ends name id email
  · obtain ⟨⟨value, left⟩, found, eq⟩ := Option.map_eq_some_iff.mp read
    obtain ⟨rfl, rfl⟩ := Prod.mk.inj eq
    exact .inl ⟨value, name, rfl, found⟩
  · obtain ⟨⟨value, left⟩, found, eq⟩ := Option.map_eq_some_iff.mp read
    obtain ⟨rfl, rfl⟩ := Prod.mk.inj eq
    exact .inr (.inl ⟨value, id, rfl, found⟩)
  · obtain ⟨⟨value, left⟩, found, eq⟩ := Option.map_eq_some_iff.mp read
    obtain ⟨rfl, rfl⟩ := Prod.mk.inj eq
    exact .inr (.inr (.inl ⟨value, email, rfl, found⟩))
  · obtain ⟨⟨f, left⟩, found, eq⟩ := Option.map_eq_some_iff.mp read
    obtain ⟨rfl, rfl⟩ := Prod.mk.inj eq
    exact .inr (.inr (.inr ⟨f, ⟨ends, name, id, email⟩, rfl, found⟩))

theorem tag_decode_encode (tag : BitVec 32) (rest : List UInt8) :
    W.tag.decode (W.tag.encode tag ++ rest) = some (tag, rest) :=
  W.tag.decode_encode tag rest (W.tag_ok tag)

/-- The value of one kind of field is read back. -/
theorem readItem_append {tag : BitVec 32} (more : List UInt8)
    (read : W.readItem tag bytes = some (item, rest)) :
    W.readItem tag (bytes ++ more) = some (item, rest ++ more) := by
  rcases readItem_cases read with ⟨value, rfl, rfl, found⟩ | ⟨value, rfl, rfl, found⟩ |
    ⟨value, rfl, rfl, found⟩ | ⟨f, foreign, rfl, found⟩
  · rw [W.readItem_name, W.string.decode_append _ _ _ more found]
    rfl
  · rw [W.readItem_id, W.int32.decode_append _ _ _ more found]
    rfl
  · rw [W.readItem_email, W.string.decode_append _ _ _ more found]
    rfl
  · rw [W.readItem_unknown foreign, (W.field tag).decode_append _ _ _ more found]
    rfl

theorem readItem_shorter {tag : BitVec 32} (read : W.readItem tag bytes = some (item, rest)) :
    rest.length < bytes.length := by
  rcases readItem_cases read with ⟨value, -, -, found⟩ | ⟨value, -, -, found⟩ |
    ⟨value, -, -, found⟩ | ⟨f, -, -, found⟩
  · exact W.string.shorter _ _ _ found
  · exact W.int32.shorter _ _ _ found
  · exact W.string.shorter _ _ _ found
  · exact (W.field tag).shorter _ _ _ found

theorem writable_of_readItem {tag : BitVec 32} (read : W.readItem tag bytes = some (item, rest)) :
    W.Writable item := by
  rcases readItem_cases read with ⟨value, -, rfl, found⟩ | ⟨value, -, rfl, found⟩ |
    ⟨value, -, rfl, found⟩ | ⟨f, foreign, rfl, found⟩
  · exact W.string.ok_of_decode _ _ _ found
  · trivial
  · exact W.string.ok_of_decode _ _ _ found
  · obtain rfl := W.fieldTag_of_decode _ _ _ _ found
    exact ⟨foreign, (W.field _).ok_of_decode _ _ _ found⟩

variable (W) in
/-- A message is a sequence of these. -/
def items : Codec (Item υ) where
  ok := W.Writable
  encode := W.writeItem
  decode bytes := (W.tag.decode bytes).bind fun read => W.readItem read.1 read.2
  decode_encode item rest fits := by
    cases item with
    | name value =>
      rw [writeItem, W.writeString_eq, List.append_assoc, tag_decode_encode, Option.bind_some,
        W.readItem_name, W.string.decode_encode _ _ fits]
      rfl
    | id value =>
      rw [writeItem, W.writeInt32_eq, List.append_assoc, tag_decode_encode, Option.bind_some,
        W.readItem_id, W.int32.decode_encode _ _ (W.int32_ok value)]
      rfl
    | email value =>
      rw [writeItem, W.writeString_eq, List.append_assoc, tag_decode_encode, Option.bind_some,
        W.readItem_email, W.string.decode_encode _ _ fits]
      rfl
    | unknown f =>
      rw [writeItem, List.append_assoc, tag_decode_encode, Option.bind_some,
        W.readItem_unknown fits.1, (W.field _).decode_encode _ _ fits.2]
      rfl
  ok_of_decode bytes item rest read := by
    obtain ⟨⟨tag, mid⟩, -, found⟩ := Option.bind_eq_some_iff.mp read
    exact writable_of_readItem found
  decode_append bytes item rest more read := by
    obtain ⟨⟨tag, mid⟩, first, found⟩ := Option.bind_eq_some_iff.mp read
    rw [W.tag.decode_append _ _ _ more first]
    exact readItem_append more found
  shorter bytes item rest read := by
    obtain ⟨⟨tag, mid⟩, first, found⟩ := Option.bind_eq_some_iff.mp read
    exact Nat.lt_trans (readItem_shorter found) (W.tag.shorter _ _ _ first)

end WireFormat

def Fields.items {υ : Type*} (f : Fields υ) : List (Item υ) :=
  f.name.toList.map .name ++
    (f.id.toList.map .id ++ (f.email.toList.map .email ++ f.unknown.map .unknown))

/-- A field that is read goes over the one there is, or to the unknown ones. -/
def Fields.put {υ : Type*} (f : Fields υ) : Item υ → Fields υ
  | .name value => { f with name := some value }
  | .id value => { f with id := some value }
  | .email value => { f with email := some value }
  | .unknown u => { f with unknown := f.unknown ++ [u] }

namespace Person

variable {υ : Type*} {W : WireFormat υ} {p : Person υ}

/-- The same by the accessors. -/
def put (p : Person υ) : Item υ → Person υ
  | .name value => p.setName value
  | .id value => p.setId value
  | .email value => p.setEmail value
  | .unknown u => { p with unknownFields := p.unknownFields ++ [u] }

theorem put_fields (h : p.Sound) (item : Item υ) :
    (p.put item).Sound ∧ (p.put item).fields = p.fields.put item := by
  cases item with
  | name value => exact ⟨sound_setName h value, fields_setName h value⟩
  | id value => exact ⟨sound_setId h value, fields_setId value⟩
  | email value => exact ⟨sound_setEmail h value, fields_setEmail h value⟩
  | unknown u => exact ⟨⟨h.name, h.id, h.email⟩, fields_append p [u]⟩

theorem foldl_put_fields (h : p.Sound) (items : List (Item υ)) :
    (items.foldl put p).Sound ∧ (items.foldl put p).fields = items.foldl Fields.put p.fields := by
  induction items generalizing p with
  | nil => exact ⟨h, rfl⟩
  | cons item items ih =>
    obtain ⟨sound, fields⟩ := put_fields h item
    rw [List.foldl_cons, List.foldl_cons, ← fields]
    exact ih sound

/-- Writing goes by the fields. -/
theorem serialize_eq : p.serialize W = p.fields.items.flatMap W.items.encode := by
  have name : (if p.hasName then W.writeString 10 p.getName else []) =
      (p.fields.name.toList.map Item.name).flatMap W.items.encode := by
    cases set : p.hasName with
    | true =>
      have value : p.fields.name = some p.getName := StringSlot.value_eq_some set
      rw [value]
      exact (List.append_nil _).symm
    | false =>
      have value : p.fields.name = none := StringSlot.value_eq_none set
      rw [value]
      rfl
  have id : (if p.hasId then W.writeInt32 16 p.getId else []) =
      (p.fields.id.toList.map Item.id).flatMap W.items.encode := by
    rw [fields]
    cases set : p.hasId with
    | true => exact (List.append_nil _).symm
    | false => rfl
  have email : (if p.hasEmail then W.writeString 26 p.getEmail else []) =
      (p.fields.email.toList.map Item.email).flatMap W.items.encode := by
    cases set : p.hasEmail with
    | true =>
      have value : p.fields.email = some p.getEmail := StringSlot.value_eq_some set
      rw [value]
      exact (List.append_nil _).symm
    | false =>
      have value : p.fields.email = none := StringSlot.value_eq_none set
      rw [value]
      rfl
  have unknown : (if p.unknownFields ≠ [] then W.serializeUnknownFields p.unknownFields else []) =
      (p.unknownFields.map Item.unknown).flatMap W.items.encode := by
    rw [List.flatMap_map]
    split_ifs with none
    · exact W.serializeUnknownFields_eq _
    · rw [not_not.mp none]
      rfl
  rw [serialize, name, id, email, unknown, Fields.items, List.flatMap_append, List.flatMap_append,
    List.flatMap_append]
  rfl

end Person

theorem Fields.foldl_put_items {υ : Type*} (f g : Fields υ) :
    g.items.foldl Fields.put f = f.merge g := by
  have unknown (f : Fields υ) (more : List υ) : (more.map Item.unknown).foldl Fields.put f =
      { f with unknown := f.unknown ++ more } := by
    induction more generalizing f with
    | nil => rw [List.append_nil]; rfl
    | cons u more ih => rw [List.map_cons, List.foldl_cons, ih]; simp [Fields.put]
  rw [Fields.items, List.foldl_append, List.foldl_append, List.foldl_append, unknown]
  rcases g with ⟨_ | name, _ | id, _ | email, more⟩ <;> rfl

theorem ofNat_signExtend (v : BitVec 32) : BitVec.ofNat 32 (v.signExtend 64).toNat = v := by
  rw [BitVec.ofNat_toNat]
  ext i hi
  simp [BitVec.getElem_setWidth, BitVec.getLsbD_signExtend, hi]
  omega

namespace WireFormat

/-- Tags and lengths are varints of which the low 32 bits count. -/
def wordCode : Codec (BitVec 32) := Codec.word 32 (by decide)

def stringCode : Codec (List UInt8) :=
  Codec.counted wordCode (2 ^ 31) (by decide) fun _ => trivial

/-- Negative values are extended to 64 bits first. -/
def int32Code : Codec (BitVec 32) :=
  Codec.ofVarint 9 (fun v => (v.signExtend 64).toNat) (BitVec.ofNat 32) ofNat_signExtend
    fun v => Nat.lt_trans (v.signExtend 64).isLt (by decide)

def numberCode (tag : BitVec 32) : Codec (BitVec 32 × BitVec 64) :=
  if tag &&& 7 = 0 then (Codec.word 64 (by decide)).under tag else .never

end WireFormat

open WireFormat in
/-- The codes of the library for messages whose unknown fields are numbers. Strings have less than
`2 ^ 31` bytes. -/
def WireFormat.base128 : WireFormat (BitVec 32 × BitVec 64) where
  tag := wordCode
  string := stringCode
  int32 := int32Code
  field := numberCode
  fieldTag := Prod.fst
  writeString tag value := wordCode.encode tag ++ stringCode.encode value
  writeInt32 tag value := wordCode.encode tag ++ int32Code.encode value
  serializeUnknownFields fields :=
    fields.flatMap fun f => wordCode.encode f.1 ++ (numberCode f.1).encode f
  stringSize value := BitVec.ofNat 32 (stringCode.encode value).length
  int32Size value := BitVec.ofNat 32 (int32Code.encode value).length
  computeUnknownFieldsSize fields :=
    BitVec.ofNat 32
      (fields.flatMap fun f => wordCode.encode f.1 ++ (numberCode f.1).encode f).length
  writeString_eq _ _ := rfl
  writeInt32_eq _ _ := rfl
  serializeUnknownFields_eq _ := rfl
  stringSize_eq _ := rfl
  int32Size_eq _ := rfl
  computeUnknownFieldsSize_eq _ := rfl
  tag_ok _ := trivial
  tag_small t small := by
    change (varint 10 t.toNat).length = 1
    rw [varint_of_lt small]
    rfl
  int32_ok _ := trivial
  fieldTag_of_decode t bytes f rest read := by
    rw [numberCode] at read
    split_ifs at read
    · obtain ⟨found, -, eq⟩ := Option.map_eq_some_iff.mp read
      rw [← (Prod.mk.inj eq).1]
    · cases read

end Codelab
