import Codelab.Theory.Refinement
import Mathlib.Tactic.SplitIfs

/-! The generated class `Person`: the accessors, `Clear`, `MergeFrom`, `CopyFrom` and `Swap` on any
number of messages, and that they do to the fields what the same operations do to a record of
optional values. -/

namespace Codelab

/-- `_has_bits_[0]` and one of the two string pointers, which is `none` while it points to the
shared empty string. -/
structure StringSlot where
  hasBits : BitVec 32
  ptr : Option (List UInt8)

namespace StringSlot

variable (mask : BitVec 32) (s : StringSlot)

def has : Bool := s.hasBits &&& mask != 0

def get : List UInt8 := s.ptr.getD []

def setHas : StringSlot := { s with hasBits := s.hasBits ||| mask }

def clearHas : StringSlot := { s with hasBits := s.hasBits &&& ~~~mask }

/-- A string of its own is emptied, the shared one is left alone. -/
def empty : StringSlot := { s with ptr := s.ptr.map fun _ => [] }

def clear : StringSlot := s.empty.clearHas mask

/-- `edit` is what the caller does to the string through the pointer it gets. -/
def mutable (edit : List UInt8 → List UInt8) : StringSlot :=
  { s.setHas mask with ptr := some (edit s.get) }

def set (value : List UInt8) : StringSlot := s.mutable mask fun _ => value

/-- The string that the caller gets, and what is left. -/
def release : Option (List UInt8) × StringSlot := (s.ptr, { s.clearHas mask with ptr := none })

def setAllocated : Option (List UInt8) → StringSlot
  | some value => { s.setHas mask with ptr := some value }
  | none => { s.clearHas mask with ptr := none }

end StringSlot

/-- `υ` are the unknown fields. -/
structure Person (υ : Type*) where
  unknownFields : List υ
  hasBits : BitVec 32
  cachedSize : BitVec 32
  name : Option (List UInt8)
  email : Option (List UInt8)
  id : BitVec 32

namespace Person

variable {υ : Type*} (p : Person υ)

def nameBit : BitVec 32 := 0x00000001

def idBit : BitVec 32 := 0x00000002

def emailBit : BitVec 32 := 0x00000004

/-- `SharedCtor`. -/
def new : Person υ := ⟨[], 0, 0, none, none, 0⟩

def nameSlot : StringSlot := ⟨p.hasBits, p.name⟩

def emailSlot : StringSlot := ⟨p.hasBits, p.email⟩

def withName (s : StringSlot) : Person υ := { p with hasBits := s.hasBits, name := s.ptr }

def withEmail (s : StringSlot) : Person υ := { p with hasBits := s.hasBits, email := s.ptr }

def hasName : Bool := p.nameSlot.has nameBit

def getName : List UInt8 := p.nameSlot.get

def clearName : Person υ := p.withName (p.nameSlot.clear nameBit)

def setName (value : List UInt8) : Person υ := p.withName (p.nameSlot.set nameBit value)

def mutableName (edit : List UInt8 → List UInt8) : Person υ :=
  p.withName (p.nameSlot.mutable nameBit edit)

def releaseName : Option (List UInt8) × Person υ :=
  ((p.nameSlot.release nameBit).1, p.withName (p.nameSlot.release nameBit).2)

def setAllocatedName (name : Option (List UInt8)) : Person υ :=
  p.withName (p.nameSlot.setAllocated nameBit name)

def hasId : Bool := p.hasBits &&& idBit != 0

def getId : BitVec 32 := p.id

def clearId : Person υ := { p with id := 0, hasBits := p.hasBits &&& ~~~idBit }

def setId (value : BitVec 32) : Person υ := { p with hasBits := p.hasBits ||| idBit, id := value }

def hasEmail : Bool := p.emailSlot.has emailBit

def getEmail : List UInt8 := p.emailSlot.get

def clearEmail : Person υ := p.withEmail (p.emailSlot.clear emailBit)

def setEmail (value : List UInt8) : Person υ := p.withEmail (p.emailSlot.set emailBit value)

def mutableEmail (edit : List UInt8 → List UInt8) : Person υ :=
  p.withEmail (p.emailSlot.mutable emailBit edit)

def releaseEmail : Option (List UInt8) × Person υ :=
  ((p.emailSlot.release emailBit).1, p.withEmail (p.emailSlot.release emailBit).2)

def setAllocatedEmail (email : Option (List UInt8)) : Person υ :=
  p.withEmail (p.emailSlot.setAllocated emailBit email)

/-- The branches of `Clear`. -/
def emptyName : Person υ := if p.hasName then p.withName p.nameSlot.empty else p

def emptyEmail : Person υ := if p.hasEmail then p.withEmail p.emailSlot.empty else p

def clear : Person υ :=
  let p := if p.hasBits &&& 7 ≠ 0 then { p.emptyName with id := 0 }.emptyEmail else p
  { p with hasBits := 0, unknownFields := [] }

def mergeFrom (source : Person υ) : Person υ :=
  let p :=
    if source.hasBits &&& 0xff ≠ 0 then
      let p := if source.hasName then p.setName source.getName else p
      let p := if source.hasId then p.setId source.getId else p
      if source.hasEmail then p.setEmail source.getEmail else p
    else p
  { p with unknownFields := p.unknownFields ++ source.unknownFields }

/-- Between two messages; a message copied to itself is left alone. -/
def copyFrom (source : Person υ) : Person υ := p.clear.mergeFrom source

def isInitialized : Bool := p.hasBits &&& 0x00000003 == 0x00000003

end Person

/-- What the caller does to one string field. -/
inductive StringOp
  | clear
  | set (value : List UInt8)
  | mutable (edit : List UInt8 → List UInt8)
  | release
  | setAllocated (value : Option (List UInt8))

namespace StringOp

def run (mask : BitVec 32) (s : StringSlot) : StringOp → StringSlot
  | clear => s.clear mask
  | set value => s.set mask value
  | mutable edit => s.mutable mask edit
  | release => (s.release mask).2
  | setAllocated value => s.setAllocated mask value

/-- The same on an optional string. -/
def act (value : Option (List UInt8)) : StringOp → Option (List UInt8)
  | clear => none
  | set new => some new
  | mutable edit => some (edit (value.getD []))
  | release => none
  | setAllocated new => new

end StringOp

namespace StringSlot

variable {mask other bits : BitVec 32} {s : StringSlot} {op : StringOp}

/-- The field as an optional string. -/
def value (mask : BitVec 32) (s : StringSlot) : Option (List UInt8) :=
  if s.has mask then some s.get else none

/-- A field that is not set reads as the empty string. -/
def Sound (mask : BitVec 32) (s : StringSlot) : Prop := s.has mask = false → s.get = []

theorem or_apart (apart : mask &&& other = 0) : (bits ||| mask) &&& other = bits &&& other := by
  rw [BitVec.and_or_distrib_right, apart]
  exact BitVec.or_zero

theorem clear_apart (apart : mask &&& other = 0) :
    (bits &&& ~~~mask) &&& other = bits &&& other := by
  ext i hi
  have bit : (mask &&& other)[i] = (0 : BitVec 32)[i] := by rw [apart]
  simp only [BitVec.getElem_and, BitVec.getElem_not, BitVec.ofNat_eq_ofNat,
    BitVec.getElem_zero] at bit ⊢
  grind

theorem or_self (mask bits : BitVec 32) : (bits ||| mask) &&& mask = mask := by
  ext i hi
  simp only [BitVec.getElem_and, BitVec.getElem_or]
  grind

theorem clear_self (mask bits : BitVec 32) : (bits &&& ~~~mask) &&& mask = 0 := by
  ext i hi
  simp

theorem has_setHas (bit : mask ≠ 0) (ptr : Option (List UInt8)) :
    { s.setHas mask with ptr := ptr }.has mask = true := by
  rw [has, setHas, or_self]
  simpa using bit

theorem has_zero (ptr : Option (List UInt8)) : (⟨0, ptr⟩ : StringSlot).has mask = false := by
  simp [has]

/-- A has bit is not set if none under a wider mask is. -/
theorem has_of_wider {wide : BitVec 32} (unset : s.hasBits &&& wide = 0)
    (within : wide &&& mask = mask) : s.has mask = false := by
  rw [has, ← within, ← BitVec.and_assoc, unset, BitVec.ofNat_eq_ofNat, BitVec.zero_and]
  rfl

theorem has_clearHas (ptr : Option (List UInt8)) :
    { s.clearHas mask with ptr := ptr }.has mask = false := by
  rw [has, clearHas, clear_self]
  rfl

theorem value_eq_some (set : s.has mask = true) : s.value mask = some s.get := if_pos set

theorem value_eq_none (unset : s.has mask = false) : s.value mask = none :=
  if_neg (by rw [unset]; decide)

theorem isSome_value (s : StringSlot) : (s.value mask).isSome = s.has mask := by
  rw [value]
  cases s.has mask <;> rfl

theorem Sound.value_getD (h : s.Sound mask) : (s.value mask).getD [] = s.get := by
  cases has : s.has mask with
  | true => rw [value_eq_some has, Option.getD_some]
  | false => rw [value_eq_none has, h has, Option.getD_none]

/-- An operation on one field has no influence on the has bits of the others. -/
theorem hasBits_run (apart : mask &&& other = 0) :
    (op.run mask s).hasBits &&& other = s.hasBits &&& other := by
  cases op with
  | clear | release => exact clear_apart apart
  | set _ | mutable _ => exact or_apart apart
  | setAllocated value =>
    cases value with
    | none => exact clear_apart apart
    | some value => exact or_apart apart

theorem has_congr {s' : StringSlot} (bits : s'.hasBits &&& mask = s.hasBits &&& mask) :
    s'.has mask = s.has mask := by
  rw [has, has, bits]

theorem value_congr {s' : StringSlot} (bits : s'.hasBits &&& mask = s.hasBits &&& mask)
    (ptr : s'.ptr = s.ptr) : s'.value mask = s.value mask := by
  rw [value, value, has_congr bits, get, get, ptr]

theorem Sound.congr {s' : StringSlot} (h : s.Sound mask)
    (bits : s'.hasBits &&& mask = s.hasBits &&& mask) (ptr : s'.ptr = s.ptr) :
    s'.Sound mask := by
  intro unset
  rw [get, ptr]
  exact h (has_congr bits ▸ unset)

theorem sound_run (bit : mask ≠ 0) : (op.run mask s).Sound mask := by
  intro unset
  cases op with
  | clear =>
    change ((s.ptr.map fun _ => []).getD []) = []
    cases s.ptr <;> rfl
  | release => rfl
  | set value => exact absurd (has_setHas bit _) (Bool.not_eq_true _ ▸ unset)
  | mutable edit => exact absurd (has_setHas bit _) (Bool.not_eq_true _ ▸ unset)
  | setAllocated value =>
    cases value with
    | none => rfl
    | some value => exact absurd (has_setHas bit _) (Bool.not_eq_true _ ▸ unset)

theorem value_run (bit : mask ≠ 0) (sound : s.Sound mask) :
    (op.run mask s).value mask = op.act (s.value mask) := by
  cases op with
  | clear | release => exact value_eq_none (has_clearHas _)
  | set value => exact value_eq_some (has_setHas bit _)
  | mutable edit =>
    rw [StringOp.act, sound.value_getD]
    exact value_eq_some (has_setHas bit _)
  | setAllocated value =>
    cases value with
    | none => exact value_eq_none (has_clearHas _)
    | some value => exact value_eq_some (has_setHas bit _)

end StringSlot

/-- A message as a record of optional values. -/
structure Fields (υ : Type*) where
  name : Option (List UInt8)
  id : Option (BitVec 32)
  email : Option (List UInt8)
  unknown : List υ

namespace Fields

variable {υ : Type*}

def empty : Fields υ := ⟨none, none, none, []⟩

/-- The fields of `g` go over those of `f`. -/
def merge (f g : Fields υ) : Fields υ where
  name := g.name.or f.name
  id := g.id.or f.id
  email := g.email.or f.email
  unknown := f.unknown ++ g.unknown

theorem empty_merge (f : Fields υ) : empty.merge f = f := by
  simp [merge, empty]

end Fields

namespace Person

variable {υ : Type*} {p : Person υ} {op : StringOp}

def editName (p : Person υ) : StringOp → Person υ
  | .clear => p.clearName
  | .set value => p.setName value
  | .mutable edit => p.mutableName edit
  | .release => p.releaseName.2
  | .setAllocated name => p.setAllocatedName name

def editEmail (p : Person υ) : StringOp → Person υ
  | .clear => p.clearEmail
  | .set value => p.setEmail value
  | .mutable edit => p.mutableEmail edit
  | .release => p.releaseEmail.2
  | .setAllocated email => p.setAllocatedEmail email

theorem editName_eq : p.editName op = p.withName (op.run nameBit p.nameSlot) := by
  cases op <;> rfl

theorem editEmail_eq : p.editEmail op = p.withEmail (op.run emailBit p.emailSlot) := by
  cases op <;> rfl

def fields (p : Person υ) : Fields υ where
  name := p.nameSlot.value nameBit
  id := if p.hasId then some p.id else none
  email := p.emailSlot.value emailBit
  unknown := p.unknownFields

/-- Fields that are not set have their defaults. -/
structure Sound (p : Person υ) : Prop where
  name : p.nameSlot.Sound nameBit
  id : p.hasId = false → p.id = 0
  email : p.emailSlot.Sound emailBit

theorem sound_new : (new : Person υ).Sound := ⟨fun _ => rfl, fun _ => rfl, fun _ => rfl⟩

theorem fields_new : (new : Person υ).fields = Fields.empty := by
  rw [fields, Fields.empty, Fields.mk.injEq]
  exact ⟨StringSlot.value_eq_none (StringSlot.has_zero _), if_neg (by simp [hasId, new]),
    StringSlot.value_eq_none (StringSlot.has_zero _), rfl⟩

theorem hasId_congr {p' : Person υ} (bits : p'.hasBits &&& idBit = p.hasBits &&& idBit) :
    p'.hasId = p.hasId := by
  rw [hasId, hasId, bits]

theorem sound_editName (h : p.Sound) (op : StringOp) : (p.editName op).Sound := by
  rw [editName_eq]
  have id : (op.run nameBit p.nameSlot).hasBits &&& idBit = p.hasBits &&& idBit :=
    StringSlot.hasBits_run (by decide)
  refine ⟨StringSlot.sound_run (by decide), fun unset => h.id ?_,
    h.email.congr (StringSlot.hasBits_run (by decide)) rfl⟩
  exact (hasId_congr id).symm.trans unset

theorem fields_editName (h : p.Sound) (op : StringOp) :
    (p.editName op).fields = { p.fields with name := op.act p.fields.name } := by
  rw [editName_eq]
  have id : (op.run nameBit p.nameSlot).hasBits &&& idBit = p.hasBits &&& idBit :=
    StringSlot.hasBits_run (by decide)
  rw [fields, Fields.mk.injEq, hasId_congr id]
  exact ⟨StringSlot.value_run (by decide) h.name, rfl,
    StringSlot.value_congr (StringSlot.hasBits_run (by decide)) rfl, rfl⟩

theorem sound_editEmail (h : p.Sound) (op : StringOp) : (p.editEmail op).Sound := by
  rw [editEmail_eq]
  have id : (op.run emailBit p.emailSlot).hasBits &&& idBit = p.hasBits &&& idBit :=
    StringSlot.hasBits_run (by decide)
  refine ⟨h.name.congr (StringSlot.hasBits_run (by decide)) rfl, fun unset => h.id ?_,
    StringSlot.sound_run (by decide)⟩
  exact (hasId_congr id).symm.trans unset

theorem fields_editEmail (h : p.Sound) (op : StringOp) :
    (p.editEmail op).fields = { p.fields with email := op.act p.fields.email } := by
  rw [editEmail_eq]
  have id : (op.run emailBit p.emailSlot).hasBits &&& idBit = p.hasBits &&& idBit :=
    StringSlot.hasBits_run (by decide)
  rw [fields, Fields.mk.injEq, hasId_congr id]
  exact ⟨StringSlot.value_congr (StringSlot.hasBits_run (by decide)) rfl, rfl,
    StringSlot.value_run (by decide) h.email, rfl⟩

theorem hasId_setId (value : BitVec 32) : (p.setId value).hasId = true := by
  rw [hasId, setId, StringSlot.or_self]
  rfl

theorem hasId_clearId : p.clearId.hasId = false := by
  rw [hasId, clearId, StringSlot.clear_self]
  rfl

theorem sound_setId (h : p.Sound) (value : BitVec 32) : (p.setId value).Sound := by
  refine ⟨h.name.congr (StringSlot.or_apart (by decide)) rfl, fun unset => ?_,
    h.email.congr (StringSlot.or_apart (by decide)) rfl⟩
  rw [hasId_setId] at unset
  cases unset

theorem fields_setId (value : BitVec 32) :
    (p.setId value).fields = { p.fields with id := some value } := by
  rw [fields, Fields.mk.injEq]
  exact ⟨StringSlot.value_congr (StringSlot.or_apart (by decide)) rfl,
    if_pos (hasId_setId value), StringSlot.value_congr (StringSlot.or_apart (by decide)) rfl, rfl⟩

theorem sound_clearId (h : p.Sound) : p.clearId.Sound :=
  ⟨h.name.congr (StringSlot.clear_apart (by decide)) rfl, fun _ => rfl,
    h.email.congr (StringSlot.clear_apart (by decide)) rfl⟩

theorem fields_clearId : p.clearId.fields = { p.fields with id := none } := by
  rw [fields, Fields.mk.injEq]
  refine ⟨StringSlot.value_congr (StringSlot.clear_apart (by decide)) rfl, if_neg ?_,
    StringSlot.value_congr (StringSlot.clear_apart (by decide)) rfl, rfl⟩
  rw [hasId_clearId]
  decide

theorem fields_clear : p.clear.fields = Fields.empty := by
  rw [fields, Fields.empty, Fields.mk.injEq]
  exact ⟨StringSlot.value_eq_none (StringSlot.has_zero _), if_neg (by simp [hasId, clear]),
    StringSlot.value_eq_none (StringSlot.has_zero _), rfl⟩

theorem empty_get (s : StringSlot) : s.empty.get = [] := by
  change (s.ptr.map fun _ => []).getD [] = []
  cases s.ptr <;> rfl

theorem getName_emptyName (h : p.Sound) : p.emptyName.getName = [] := by
  rw [emptyName]
  split_ifs with set
  · exact empty_get _
  · exact h.name (Bool.eq_false_iff.mpr set)

theorem getEmail_emptyEmail (unset : p.hasEmail = false → p.getEmail = []) :
    p.emptyEmail.getEmail = [] := by
  rw [emptyEmail]
  split_ifs with set
  · exact empty_get _
  · exact unset (Bool.eq_false_iff.mpr set)

theorem emptyName_frame : p.emptyName.hasBits = p.hasBits ∧ p.emptyName.email = p.email := by
  rw [emptyName]
  split_ifs <;> exact ⟨rfl, rfl⟩

theorem emptyEmail_frame : p.emptyEmail.name = p.name ∧ p.emptyEmail.id = p.id := by
  rw [emptyEmail]
  split_ifs <;> exact ⟨rfl, rfl⟩

/-- `Clear` empties a string only if its has bit is set, which is enough. -/
theorem sound_clear (h : p.Sound) : p.clear.Sound := by
  by_cases quiet : p.hasBits &&& 7 = 0
  · have name : p.hasName = false := StringSlot.has_of_wider (s := p.nameSlot) quiet (by decide)
    have email : p.hasEmail = false :=
      StringSlot.has_of_wider (s := p.emailSlot) quiet (by decide)
    have id : p.hasId = false := StringSlot.has_of_wider (s := p.nameSlot) quiet (by decide)
    rw [clear, if_neg (not_not_intro quiet)]
    exact ⟨fun _ => h.name name, fun _ => h.id id, fun _ => h.email email⟩
  · obtain ⟨bits, email⟩ := p.emptyName_frame
    obtain ⟨name, id⟩ := { p.emptyName with id := 0 }.emptyEmail_frame
    rw [clear, if_pos quiet]
    refine ⟨fun _ => ?_, fun _ => id, fun _ => getEmail_emptyEmail fun unset => ?_⟩
    · change Option.getD _ [] = []
      rw [name]
      exact getName_emptyName h
    · have same : { p.emptyName with id := 0 }.emailSlot = p.emailSlot :=
        congrArg₂ StringSlot.mk bits email
      rw [hasEmail, same] at unset
      rw [getEmail, same]
      exact h.email unset

theorem sound_setName (h : p.Sound) (value : List UInt8) : (p.setName value).Sound :=
  sound_editName h (.set value)

theorem fields_setName (h : p.Sound) (value : List UInt8) :
    (p.setName value).fields = { p.fields with name := some value } :=
  fields_editName h (.set value)

theorem sound_setEmail (h : p.Sound) (value : List UInt8) : (p.setEmail value).Sound :=
  sound_editEmail h (.set value)

theorem fields_setEmail (h : p.Sound) (value : List UInt8) :
    (p.setEmail value).fields = { p.fields with email := some value } :=
  fields_editEmail h (.set value)

/-- The three assignments of `MergeFrom`. -/
theorem merge_name (h : p.Sound) (has : Bool) (value : List UInt8) :
    (if has then p.setName value else p).Sound ∧
      (if has then p.setName value else p).fields =
        { p.fields with name := (if has then some value else none).or p.fields.name } := by
  cases has with
  | true => exact ⟨sound_setName h value, fields_setName h value⟩
  | false => exact ⟨h, rfl⟩

theorem merge_id (h : p.Sound) (has : Bool) (value : BitVec 32) :
    (if has then p.setId value else p).Sound ∧
      (if has then p.setId value else p).fields =
        { p.fields with id := (if has then some value else none).or p.fields.id } := by
  cases has with
  | true => exact ⟨sound_setId h value, fields_setId value⟩
  | false => exact ⟨h, rfl⟩

theorem merge_email (h : p.Sound) (has : Bool) (value : List UInt8) :
    (if has then p.setEmail value else p).Sound ∧
      (if has then p.setEmail value else p).fields =
        { p.fields with email := (if has then some value else none).or p.fields.email } := by
  cases has with
  | true => exact ⟨sound_setEmail h value, fields_setEmail h value⟩
  | false => exact ⟨h, rfl⟩

theorem fields_append (p : Person υ) (more : List υ) :
    { p with unknownFields := p.unknownFields ++ more }.fields =
      { p.fields with unknown := p.fields.unknown ++ more } := rfl

/-- Without the test of `_has_bits_` the three assignments would do the same. -/
theorem mergeFrom_merges (h : p.Sound) (source : Person υ) :
    (p.mergeFrom source).Sound ∧ (p.mergeFrom source).fields = p.fields.merge source.fields := by
  by_cases quiet : source.hasBits &&& 0xff = 0
  · have name : source.fields.name = none := StringSlot.value_eq_none
      (StringSlot.has_of_wider (s := source.nameSlot) quiet (by decide))
    have email : source.fields.email = none := StringSlot.value_eq_none
      (StringSlot.has_of_wider (s := source.emailSlot) quiet (by decide))
    have unset : source.hasId = false :=
      StringSlot.has_of_wider (s := source.nameSlot) quiet (by decide)
    have id : source.fields.id = none := if_neg (by rw [unset]; decide)
    rw [mergeFrom, if_neg (not_not_intro quiet), Fields.merge, name, email, id]
    exact ⟨⟨h.name, h.id, h.email⟩, rfl⟩
  · rw [mergeFrom, if_pos quiet]
    obtain ⟨sound, name⟩ := merge_name h source.hasName source.getName
    obtain ⟨sound, id⟩ := merge_id sound source.hasId source.getId
    obtain ⟨sound, email⟩ := merge_email sound source.hasEmail source.getEmail
    refine ⟨⟨sound.name, sound.id, sound.email⟩, ?_⟩
    rw [id, name] at email
    refine (fields_append _ source.unknownFields).trans ?_
    rw [email]
    rfl

theorem copyFrom_copies (h : p.Sound) (source : Person υ) :
    (p.copyFrom source).Sound ∧ (p.copyFrom source).fields = source.fields := by
  obtain ⟨sound, fields⟩ := mergeFrom_merges (sound_clear h) source
  exact ⟨sound, by rw [copyFrom, fields, fields_clear, Fields.empty_merge]⟩

theorem Sound.getName_eq (h : p.Sound) : p.getName = p.fields.name.getD [] := h.name.value_getD.symm

theorem Sound.getEmail_eq (h : p.Sound) : p.getEmail = p.fields.email.getD [] :=
  h.email.value_getD.symm

theorem Sound.getId_eq (h : p.Sound) : p.getId = p.fields.id.getD 0 := by
  cases set : p.hasId with
  | true => rw [fields, set, if_pos rfl, Option.getD_some, getId]
  | false => rw [fields, set, if_neg Bool.false_ne_true, Option.getD_none, getId, h.id set]

theorem isSome_name : p.fields.name.isSome = p.hasName := p.nameSlot.isSome_value

theorem isSome_email : p.fields.email.isSome = p.hasEmail := p.emailSlot.isSome_value

theorem isSome_id : p.fields.id.isSome = p.hasId := by
  rw [fields]
  cases p.hasId <;> rfl

/-- Both required fields are set. -/
theorem isInitialized_eq : p.isInitialized = (p.fields.name.isSome && p.fields.id.isSome) := by
  have both : p.hasBits &&& 3 = (p.hasBits &&& 1) ||| (p.hasBits &&& 2) :=
    BitVec.and_or_distrib_left (x := p.hasBits) (y := 1) (z := 2)
  have name : p.hasBits &&& 1 = if p.hasBits.getLsbD 0 then 1 else 0 := BitVec.and_twoPow _ 0
  have id : p.hasBits &&& 2 = if p.hasBits.getLsbD 1 then 2 else 0 := BitVec.and_twoPow _ 1
  rw [isSome_name, isSome_id]
  change (p.hasBits &&& 3 == 3) = ((p.hasBits &&& 1 != 0) && (p.hasBits &&& 2 != 0))
  rw [both, name, id]
  cases p.hasBits.getLsbD 0 <;> cases p.hasBits.getLsbD 1 <;> rfl

end Person

/-- Calls on messages `i`. The caller may do anything to the unknown fields. -/
inductive PersonOp (ι υ : Type*)
  | name (i : ι) (op : StringOp)
  | email (i : ι) (op : StringOp)
  | setId (i : ι) (value : BitVec 32)
  | clearId (i : ι)
  | unknown (i : ι) (edit : List υ → List υ)
  | clear (i : ι)
  | mergeFrom (i source : ι)
  | copyFrom (i source : ι)
  | construct (i source : ι)
  | swap (i other : ι)

namespace PersonOp

variable {ι υ : Type*} [DecidableEq ι]

/-- `MergeFrom` checks that source and target differ, and `CopyFrom` and `Swap` do nothing if
they do not. -/
def next (s : ι → Person υ) : PersonOp ι υ → Option (ι → Person υ)
  | name i op => some (Function.update s i ((s i).editName op))
  | email i op => some (Function.update s i ((s i).editEmail op))
  | setId i value => some (Function.update s i ((s i).setId value))
  | clearId i => some (Function.update s i (s i).clearId)
  | unknown i edit =>
    some (Function.update s i { s i with unknownFields := edit (s i).unknownFields })
  | clear i => some (Function.update s i (s i).clear)
  | mergeFrom i source =>
    if source = i then none else some (Function.update s i ((s i).mergeFrom (s source)))
  | copyFrom i source =>
    if source = i then some s else some (Function.update s i ((s i).copyFrom (s source)))
  | construct i source =>
    if source = i then none else some (Function.update s i (Person.new.mergeFrom (s source)))
  | swap i other =>
    if other = i then some s
    else some (Function.update (Function.update s i (s other)) other (s i))

/-- The same calls on records. -/
def onFields (s : ι → Fields υ) : PersonOp ι υ → Option (ι → Fields υ)
  | name i op => some (Function.update s i { s i with name := op.act (s i).name })
  | email i op => some (Function.update s i { s i with email := op.act (s i).email })
  | setId i value => some (Function.update s i { s i with id := some value })
  | clearId i => some (Function.update s i { s i with id := none })
  | unknown i edit => some (Function.update s i { s i with unknown := edit (s i).unknown })
  | clear i => some (Function.update s i .empty)
  | mergeFrom i source =>
    if source = i then none else some (Function.update s i ((s i).merge (s source)))
  | copyFrom i source => some (Function.update s i (s source))
  | construct i source => if source = i then none else some (Function.update s i (s source))
  | swap i other => some (Function.update (Function.update s i (s other)) other (s i))

end PersonOp

/-- Any number of messages, all of them new. -/
def Person.machine (ι υ : Type*) [DecidableEq ι] : Machine (ι → Person υ) (PersonOp ι υ) where
  init s := s = fun _ => .new
  next := PersonOp.next

def Fields.machine (ι υ : Type*) [DecidableEq ι] : Machine (ι → Fields υ) (PersonOp ι υ) where
  init s := s = fun _ => .empty
  next := PersonOp.onFields

namespace Person

variable {ι υ : Type*} [DecidableEq ι] {s s' : ι → Person υ} {i : ι} {q : Person υ}

/-- A call that changes one message. -/
theorem update_refines (h : ∀ i, (s i).Sound) {f : Fields υ} (h' : q.Sound ∧ q.fields = f) :
    (∀ j, (Function.update s i q j).Sound) ∧
      Function.update (fun j => (s j).fields) i f = fun j => (Function.update s i q j).fields := by
  obtain ⟨sound, rfl⟩ := h'
  constructor
  · intro j
    by_cases same : j = i
    · rw [same, Function.update_self]
      exact sound
    · rw [Function.update_of_ne same]
      exact h j
  · funext j
    by_cases same : j = i
    · rw [same, Function.update_self, Function.update_self]
    · rw [Function.update_of_ne same, Function.update_of_ne same]

/-- The step lemma: one case for each call. -/
theorem next_refines {op : PersonOp ι υ} (h : ∀ i, (s i).Sound) (next : op.next s = some s') :
    (∀ i, (s' i).Sound) ∧
      op.onFields (fun i => (s i).fields) = some fun i => (s' i).fields := by
  cases op with
  | name i op =>
    obtain rfl := Option.some.inj next
    obtain ⟨sound, fields⟩ := update_refines h ⟨sound_editName (h i) op, fields_editName (h i) op⟩
    exact ⟨sound, congrArg some fields⟩
  | email i op =>
    obtain rfl := Option.some.inj next
    obtain ⟨sound, fields⟩ := update_refines h ⟨sound_editEmail (h i) op, fields_editEmail (h i) op⟩
    exact ⟨sound, congrArg some fields⟩
  | setId i value =>
    obtain rfl := Option.some.inj next
    obtain ⟨sound, fields⟩ := update_refines h ⟨sound_setId (h i) value, fields_setId value⟩
    exact ⟨sound, congrArg some fields⟩
  | clearId i =>
    obtain rfl := Option.some.inj next
    obtain ⟨sound, fields⟩ := update_refines h ⟨sound_clearId (h i), fields_clearId⟩
    exact ⟨sound, congrArg some fields⟩
  | unknown i edit =>
    obtain rfl := Option.some.inj next
    have kept : { s i with unknownFields := edit (s i).unknownFields }.Sound :=
      ⟨(h i).name, (h i).id, (h i).email⟩
    obtain ⟨sound, fields⟩ := update_refines h ⟨kept, rfl⟩
    exact ⟨sound, congrArg some fields⟩
  | clear i =>
    obtain rfl := Option.some.inj next
    obtain ⟨sound, fields⟩ := update_refines h ⟨sound_clear (h i), fields_clear⟩
    exact ⟨sound, congrArg some fields⟩
  | mergeFrom i source =>
    simp only [PersonOp.next, PersonOp.onFields] at next ⊢
    split_ifs at next ⊢ with same
    obtain rfl := Option.some.inj next
    obtain ⟨sound, fields⟩ := update_refines h (mergeFrom_merges (h i) (s source))
    exact ⟨sound, congrArg some fields⟩
  | copyFrom i source =>
    simp only [PersonOp.next, PersonOp.onFields] at next ⊢
    split_ifs at next with same
    · obtain rfl := Option.some.inj next
      rw [same, Function.update_eq_self]
      exact ⟨h, rfl⟩
    · obtain rfl := Option.some.inj next
      obtain ⟨sound, fields⟩ := update_refines h (copyFrom_copies (h i) (s source))
      exact ⟨sound, congrArg some fields⟩
  | construct i source =>
    simp only [PersonOp.next, PersonOp.onFields] at next ⊢
    split_ifs at next ⊢ with same
    obtain rfl := Option.some.inj next
    have copied := mergeFrom_merges (sound_new (υ := υ)) (s source)
    rw [fields_new, Fields.empty_merge] at copied
    obtain ⟨sound, fields⟩ := update_refines h copied
    exact ⟨sound, congrArg some fields⟩
  | swap i other =>
    simp only [PersonOp.next, PersonOp.onFields] at next ⊢
    split_ifs at next with same
    · obtain rfl := Option.some.inj next
      rw [same, Function.update_eq_self, Function.update_eq_self]
      exact ⟨h, rfl⟩
    · obtain rfl := Option.some.inj next
      obtain ⟨half, there⟩ := update_refines (i := i) h ⟨h other, rfl⟩
      obtain ⟨sound, back⟩ := update_refines (i := other) half ⟨h i, rfl⟩
      rw [there]
      exact ⟨sound, congrArg some back⟩

/-- Any sequence of calls does to the messages what it does to records of optional values, and the
getters and `IsInitialized` read the record. -/
theorem calls_as_records {calls : List (PersonOp ι υ)}
    (ran : (machine ι υ).run (fun _ => .new) calls = some s) :
    (Fields.machine ι υ).run (fun _ => .empty) calls = some (fun i => (s i).fields) ∧
      ∀ i, (s i).hasName = (s i).fields.name.isSome ∧ (s i).hasId = (s i).fields.id.isSome ∧
        (s i).hasEmail = (s i).fields.email.isSome ∧
        (s i).getName = (s i).fields.name.getD [] ∧ (s i).getId = (s i).fields.id.getD 0 ∧
        (s i).getEmail = (s i).fields.email.getD [] ∧
        ((s i).isInitialized = true ↔
          (s i).fields.name.isSome = true ∧ (s i).fields.id.isSome = true) := by
  obtain ⟨sound, records⟩ := Machine.run_refines (N := Fields.machine ι υ)
    (fun s => ∀ i, (s i).Sound) (fun s i => (s i).fields)
    (fun s a s' h next => next_refines h next) (fun _ => sound_new) ran
  refine ⟨?_, fun i => ⟨isSome_name.symm, isSome_id.symm, isSome_email.symm,
    (sound i).getName_eq, (sound i).getId_eq, (sound i).getEmail_eq, ?_⟩⟩
  · rw [← records]
    exact congrArg (fun f => (Fields.machine ι υ).run f calls) (funext fun _ => fields_new.symm)
  · rw [isInitialized_eq, Bool.and_eq_true]

/-- A message is filled, merged into another one and cleared. -/
theorem calls_as_records_merged : ∃ s : Fin 2 → Person ℕ, (s 0).fields.name.isSome = false ∧
    (s 1).fields.name.isSome = true ∧ (s 1).fields.id.getD 0 = 12 := by
  have ran : ((machine (Fin 2) ℕ).run (fun _ => .new) [.name 0 (.set [1, 2]), .setId 0 12,
      .email 1 (.set [3]), .mergeFrom 1 0, .email 1 .release, .clear 0]).map
      (fun s => ((s 0).hasName, (s 1).hasName, (s 1).getId)) = some (false, true, 12) := by decide
  obtain ⟨s, run, seen⟩ := Option.map_eq_some_iff.mp ran
  simp only [Prod.mk.injEq] at seen
  obtain ⟨cleared, named, twelve⟩ := seen
  obtain ⟨zero, -⟩ := (calls_as_records run).2 0
  obtain ⟨one, -, -, -, id, -⟩ := (calls_as_records run).2 1
  exact ⟨s, zero.symm.trans cleared, one.symm.trans named, id.symm.trans twelve⟩

end Person

end Codelab
