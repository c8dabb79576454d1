import Mathlib.Data.BitVec
import Codelab.Theory.Window

/-! `TagPtr` of `tag_ptr.h` and `stack-atomic-version.hpp`, seen as the pointer
and the 16-bit tag that its word holds. Compare-and-swap compares the whole word,
that is both parts. -/

namespace Codelab

structure TagPtr (α : Type*) where
  ptr : Option α
  tag : BitVec 16
  deriving DecidableEq

/-- `GetNextTag`, truncated to the tag's width by the constructor that receives it. -/
def TagPtr.nextTag {α : Type*} (p : TagPtr α) : BitVec 16 := p.tag + 1

end Codelab
