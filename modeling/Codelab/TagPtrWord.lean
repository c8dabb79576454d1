import Codelab.TagPtr
import Mathlib.Data.Nat.ModEq
import Mathlib.Logic.Function.Iterate

/-! The word behind `TagPtr`: the pointer in the low 48 bits, the tag in the uppermost of the
four 16-bit lanes that `CastUnit` lays over the word on a little-endian machine. Constructor and
`SetTag` go by lanes, `GetPtr` by a mask. -/

namespace Codelab

/-- The union of `uint64 value` and `uint16 tag[4]`. -/
structure CastUnit where
  value : BitVec 64

namespace CastUnit

def tag (cu : CastUnit) (i : Fin 4) : BitVec 16 := cu.value.extractLsb' (16 * i) 16

def ofTags (tag : Fin 4 → BitVec 16) : CastUnit := ⟨tag 3 ++ tag 2 ++ tag 1 ++ tag 0⟩

/-- `tag[i] = x`. -/
def setTag (cu : CastUnit) (i : Fin 4) (x : BitVec 16) : CastUnit :=
  ofTags (Function.update cu.tag i x)

theorem toNat_tag (cu : CastUnit) (i : Fin 4) :
    (cu.tag i).toNat = cu.value.toNat / 2 ^ (16 * i.val) % 2 ^ 16 := by
  rw [tag, BitVec.extractLsb'_toNat, Nat.shiftRight_eq_div_pow]

theorem toNat_lane {w : ℕ} (high : BitVec w) (low : BitVec 16) :
    (high ++ low).toNat = high.toNat * 2 ^ 16 + low.toNat := by
  rw [BitVec.toNat_append, ← Nat.shiftLeft_add_eq_or_of_lt low.isLt, Nat.shiftLeft_eq]

theorem toNat_ofTags (tag : Fin 4 → BitVec 16) :
    (ofTags tag).value.toNat =
      (((tag 3).toNat * 2 ^ 16 + (tag 2).toNat) * 2 ^ 16 + (tag 1).toNat) * 2 ^ 16 +
        (tag 0).toNat := by
  rw [ofTags, toNat_lane, toNat_lane, toNat_lane]

/-- The uppermost lane is written, and the 48 bits below it stay. -/
theorem toNat_setTag_three (cu : CastUnit) (x : BitVec 16) :
    (cu.setTag 3 x).value.toNat = x.toNat * 2 ^ 48 + cu.value.toNat % 2 ^ 48 := by
  have zero := cu.toNat_tag 0
  have one := cu.toNat_tag 1
  have two := cu.toNat_tag 2
  rw [setTag, toNat_ofTags, Function.update_self, Function.update_of_ne (by decide),
    Function.update_of_ne (by decide), Function.update_of_ne (by decide), zero, one, two]
  simp only [Fin.val_zero, Fin.val_one, Fin.val_two]
  omega

end CastUnit

/-- `TagPtr` with its only member. -/
structure TagWord where
  compressPtr : BitVec 64
  deriving DecidableEq

namespace TagWord

def tagIndex : Fin 4 := 3

def ptrMask : BitVec 64 := 0xffffffffffff

/-- The largest `uint16`, as an `int`. -/
def uint16Max : BitVec 32 := 0xffff

def packPtr (ptr : BitVec 64) (version : BitVec 32) : BitVec 64 :=
  ((CastUnit.mk ptr).setTag tagIndex (version.setWidth 16)).value

def extractTag (compressPtr : BitVec 64) : BitVec 32 :=
  ((CastUnit.mk compressPtr).tag tagIndex).setWidth 32

/-- The constructor. -/
def ofPtr (ptr : BitVec 64) (version : BitVec 32) : TagWord := ⟨packPtr ptr version⟩

def getPtr (p : TagWord) : BitVec 64 := p.compressPtr &&& ptrMask

def getTag (p : TagWord) : BitVec 32 := extractTag p.compressPtr

def getNextTag (p : TagWord) : BitVec 32 := (p.getTag + 1) &&& uint16Max

def setTag (p : TagWord) (version : BitVec 32) : TagWord :=
  ⟨((CastUnit.mk p.compressPtr).setTag tagIndex (version.setWidth 16)).value⟩

variable (p q : TagWord) (ptr : BitVec 64) (version : BitVec 32)

@[simp] theorem toNat_ofPtr :
    (ofPtr ptr version).compressPtr.toNat =
      version.toNat % 2 ^ 16 * 2 ^ 48 + ptr.toNat % 2 ^ 48 := by
  rw [ofPtr, packPtr, tagIndex, CastUnit.toNat_setTag_three, BitVec.toNat_setWidth]

/-- `SetTag` is the constructor at the word itself, whose tag it overwrites. -/
theorem setTag_eq : p.setTag version = ofPtr p.compressPtr version := rfl

@[simp] theorem toNat_getPtr : p.getPtr.toNat = p.compressPtr.toNat % 2 ^ 48 := by
  rw [getPtr, BitVec.toNat_and]
  exact Nat.and_two_pow_sub_one_eq_mod p.compressPtr.toNat 48

@[simp] theorem toNat_getTag : p.getTag.toNat = p.compressPtr.toNat / 2 ^ 48 := by
  have bound := p.compressPtr.isLt
  rw [getTag, extractTag, BitVec.toNat_setWidth, tagIndex, CastUnit.toNat_tag]
  simp only [show (3 : Fin 4).val = 3 from rfl]
  omega

theorem toNat_getNextTag : p.getNextTag.toNat = (p.getTag.toNat + 1) % 2 ^ 16 := by
  have bound := p.compressPtr.isLt
  have tag := p.toNat_getTag
  have sum : (p.getTag + 1).toNat = p.getTag.toNat + 1 := by bv_omega
  rw [getNextTag, BitVec.toNat_and, sum]
  exact Nat.and_two_pow_sub_one_eq_mod _ 16

/-- A word is its pointer and its tag. -/
theorem eq_iff : p = q ↔ p.getPtr = q.getPtr ∧ p.getTag = q.getTag := by
  refine ⟨fun same => same ▸ ⟨rfl, rfl⟩, fun ⟨ptr, tag⟩ => ?_⟩
  have low := congrArg BitVec.toNat ptr
  have high := congrArg BitVec.toNat tag
  rw [toNat_getPtr, toNat_getPtr] at low
  rw [toNat_getTag, toNat_getTag] at high
  obtain ⟨p⟩ := p
  obtain ⟨q⟩ := q
  refine congrArg TagWord.mk (BitVec.eq_of_toNat_eq ?_)
  simp only at low high
  omega

theorem getPtr_ofPtr {ptr : BitVec 64} (low : ptr.toNat < 2 ^ 48) :
    (ofPtr ptr version).getPtr = ptr := by
  apply BitVec.eq_of_toNat_eq
  rw [toNat_getPtr, toNat_ofPtr]
  omega

theorem toNat_getTag_ofPtr : (ofPtr ptr version).getTag.toNat = version.toNat % 2 ^ 16 := by
  rw [toNat_getTag, toNat_ofPtr]
  omega

/-- A tag is never negative, whatever the version was. -/
theorem toInt_getTag_ofPtr : (ofPtr ptr version).getTag.toInt = version.toInt % 2 ^ 16 := by
  have tag := toNat_getTag_ofPtr ptr version
  have signed := BitVec.toInt_eq_toNat_bmod version
  rw [BitVec.toInt_eq_toNat_of_lt (by omega), tag, signed, Int.bmod_def]
  split <;> omega

theorem getPtr_setTag : (p.setTag version).getPtr = p.getPtr := by
  apply BitVec.eq_of_toNat_eq
  rw [toNat_getPtr, toNat_getPtr, setTag_eq, toNat_ofPtr]
  omega

/-- What a compare-and-swap puts in place of a word with the same pointer. -/
def rebuild (p : TagWord) : TagWord := ofPtr p.getPtr p.getNextTag

theorem getPtr_rebuild : p.rebuild.getPtr = p.getPtr := by
  refine getPtr_ofPtr _ ?_
  rw [toNat_getPtr]
  exact Nat.mod_lt _ (by decide)

theorem toNat_getTag_rebuild : p.rebuild.getTag.toNat = (p.getTag.toNat + 1) % 2 ^ 16 := by
  rw [rebuild, toNat_getTag_ofPtr, toNat_getNextTag, Nat.mod_mod]

theorem getPtr_iterate (n : ℕ) : (rebuild^[n] p).getPtr = p.getPtr := by
  induction n with
  | zero => rfl
  | succ n ih => rw [Function.iterate_succ_apply', getPtr_rebuild, ih]

theorem toNat_getTag_iterate (n : ℕ) :
    (rebuild^[n] p).getTag.toNat = (p.getTag.toNat + n) % 65536 := by
  induction n with
  | zero =>
    have bound := p.compressPtr.isLt
    have tag := p.toNat_getTag
    rw [Function.iterate_zero_apply]
    omega
  | succ n ih =>
    rw [Function.iterate_succ_apply', toNat_getTag_rebuild, ih]
    omega

/-- The word recurs after 65536 rounds and not before. -/
theorem iterate_eq_iff (n : ℕ) : rebuild^[n] p = p ↔ 65536 ∣ n := by
  have bound := p.compressPtr.isLt
  have tag := p.toNat_getTag
  have round := p.toNat_getTag_iterate n
  rw [eq_iff, getPtr_iterate, ← BitVec.toNat_inj (x := (rebuild^[n] p).getTag), round]
  constructor
  · rintro ⟨-, same⟩
    omega
  · intro turns
    exact ⟨rfl, by omega⟩

/-- Pointer and tag come back as they went in, on the whole word and whatever the version. -/
theorem packs_faithfully :
    (∀ (ptr : BitVec 64) (version : BitVec 32), ptr.toNat < 2 ^ 48 →
      (ofPtr ptr version).getPtr = ptr ∧
        (ofPtr ptr version).getTag.toInt = version.toInt % 2 ^ 16) ∧
    (∀ p q : TagWord, p = q ↔ p.getPtr = q.getPtr ∧ p.getTag = q.getTag) ∧
    (∀ (p : TagWord) (version : BitVec 32), (p.setTag version).getPtr = p.getPtr ∧
      (p.setTag version).getTag.toInt = version.toInt % 2 ^ 16) ∧
    ∀ (p : TagWord) (n : ℕ), (rebuild^[n] p).getPtr = p.getPtr ∧
      (rebuild^[n] p).getTag.toInt = (p.getTag.toInt + n) % 65536 ∧
      (rebuild^[n] p = p ↔ 65536 ∣ n) := by
  refine ⟨fun ptr version low => ⟨getPtr_ofPtr version low, toInt_getTag_ofPtr ptr version⟩, eq_iff,
    fun p version => ⟨p.getPtr_setTag version, ?_⟩,
    fun p n => ⟨p.getPtr_iterate n, ?_, p.iterate_eq_iff n⟩⟩
  · rw [setTag_eq, toInt_getTag_ofPtr]
  · have bound := p.compressPtr.isLt
    have tag := p.toNat_getTag
    have round := p.toNat_getTag_iterate n
    rw [BitVec.toInt_eq_toNat_of_lt (by omega), BitVec.toInt_eq_toNat_of_lt (by omega), round]
    push_cast
    rfl

/-- A negative version. -/
theorem packs_faithfully_negative : (ofPtr 4096 (-1)).getPtr = 4096 ∧
    (ofPtr 4096 (-1)).getTag.toInt = 65535 :=
  packs_faithfully.1 4096 (-1) (by decide)

section encode

variable {α : Type*} (addr : Option α → BitVec 64)

/-- The word of a pointer and a tag, with the addresses of the nodes. -/
def encode (p : TagPtr α) : TagWord := ofPtr (addr p.ptr) (p.tag.setWidth 32)

theorem getTag_encode (p : TagPtr α) : (encode addr p).getTag = p.tag.setWidth 32 := by
  have bound := p.tag.isLt
  apply BitVec.eq_of_toNat_eq
  rw [encode, toNat_getTag_ofPtr, BitVec.toNat_setWidth]
  omega

/-- The next tag of the pair is that of the word. -/
theorem encode_nextTag (p : TagPtr α) (node : Option α) :
    encode addr ⟨node, p.nextTag⟩ = ofPtr (addr node) (encode addr p).getNextTag := by
  have bound := p.tag.isLt
  have next := (encode addr p).toNat_getNextTag
  have tag : (encode addr p).getTag.toNat = p.tag.toNat := by
    rw [getTag_encode, BitVec.toNat_setWidth]
    omega
  have increment : p.nextTag.toNat = (p.tag.toNat + 1) % 2 ^ 16 := BitVec.toNat_add p.tag 1
  rw [encode]
  refine congrArg (ofPtr (addr node)) (BitVec.eq_of_toNat_eq ?_)
  rw [BitVec.toNat_setWidth, next, tag]
  simp only [increment]
  omega

/-- Compare-and-swap on words is compare-and-swap on pairs. -/
theorem encode_inj {addr : Option α → BitVec 64} (low : ∀ node, (addr node).toNat < 2 ^ 48)
    (apart : Function.Injective addr) {p q : TagPtr α} :
    encode addr p = encode addr q ↔ p = q := by
  refine ⟨fun same => ?_, fun same => same ▸ rfl⟩
  obtain ⟨ptr, tag⟩ := (eq_iff _ _).mp same
  rw [encode, encode, getPtr_ofPtr _ (low _), getPtr_ofPtr _ (low _)] at ptr
  rw [getTag_encode, getTag_encode] at tag
  have tags := congrArg BitVec.toNat tag
  have boundP := p.tag.isLt
  have boundQ := q.tag.isLt
  rw [BitVec.toNat_setWidth, BitVec.toNat_setWidth] at tags
  obtain ⟨p, t⟩ := p
  obtain ⟨q, u⟩ := q
  simp only at ptr tags boundP boundQ
  rw [apart ptr, BitVec.eq_of_toNat_eq (x := t) (y := u) (by omega)]

end encode

end TagWord
end Codelab
