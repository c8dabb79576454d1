import Mathlib.Algebra.Ring.Nat
import Mathlib.Tactic.SplitIfs

/-! Codes of values in front of further bytes. A reader takes one code off its input and leaves
the rest; what follows the code has no influence on it. Base-128 varints and byte strings with
their length in front are such codes. -/

/-- `ok` are the values that can be written, and every value that is read is one of them. There may
be several codes of one value; `encode` writes one of them. -/
structure Codec (α : Type*) where
  ok : α → Prop
  encode : α → List UInt8
  decode : List UInt8 → Option (α × List UInt8)
  decode_encode : ∀ a rest, ok a → decode (encode a ++ rest) = some (a, rest)
  ok_of_decode : ∀ bytes a rest, decode bytes = some (a, rest) → ok a
  decode_append : ∀ bytes a rest more, decode bytes = some (a, rest) →
    decode (bytes ++ more) = some (a, rest ++ more)
  shorter : ∀ bytes a rest, decode bytes = some (a, rest) → rest.length < bytes.length

/-- The low seven bits first, at most `places` bytes, with the top bit set in all but the last. -/
def varint : ℕ → ℕ → List UInt8
  | 0, _ => []
  | places + 1, n =>
    if n < 128 then [UInt8.ofNat n]
    else UInt8.ofNat (n % 128 + 128) :: varint places (n / 128)

/-- `none` if the input or the places are used up before the last byte. -/
def unvarint : ℕ → List UInt8 → Option (ℕ × List UInt8)
  | 0, _ => none
  | _ + 1, [] => none
  | places + 1, b :: bytes =>
    if b.toNat < 128 then some (b.toNat, bytes)
    else (unvarint places bytes).map fun read => (b.toNat % 128 + 128 * read.1, read.2)

variable {places n m : ℕ} {bytes rest : List UInt8} {b : UInt8}

theorem varint_of_lt (small : n < 128) : varint (places + 1) n = [UInt8.ofNat n] := if_pos small

theorem unvarint_varint (fits : n < 128 ^ (places + 1)) (rest : List UInt8) :
    unvarint (places + 1) (varint (places + 1) n ++ rest) = some (n, rest) := by
  induction places generalizing n with
  | zero =>
    have small : n < 128 := fits
    have byte : (UInt8.ofNat n).toNat = n := Nat.mod_eq_of_lt (by omega)
    rw [varint_of_lt small, List.singleton_append, unvarint, byte, if_pos small]
  | succ places ih =>
    by_cases small : n < 128
    · have byte : (UInt8.ofNat n).toNat = n := Nat.mod_eq_of_lt (by omega)
      rw [varint_of_lt small, List.singleton_append, unvarint, byte, if_pos small]
    · have byte : (UInt8.ofNat (n % 128 + 128)).toNat = n % 128 + 128 :=
        Nat.mod_eq_of_lt (by omega)
      have less : n / 128 < 128 ^ (places + 1) := by
        rw [Nat.div_lt_iff_lt_mul (by decide)]
        rwa [Nat.pow_succ] at fits
      rw [varint, if_neg small, List.cons_append, unvarint, byte, if_neg (by omega), ih less,
        Option.map_some, Option.some.injEq, Prod.mk.injEq]
      exact ⟨by omega, rfl⟩

theorem unvarint_append (read : unvarint places bytes = some (n, rest)) (more : List UInt8) :
    unvarint places (bytes ++ more) = some (n, rest ++ more) := by
  induction places generalizing n bytes with
  | zero => cases read
  | succ places ih =>
    cases bytes with
    | nil => cases read
    | cons b bytes =>
      rw [unvarint] at read
      rw [List.cons_append, unvarint]
      split_ifs at read ⊢ with last
      · obtain ⟨rfl, rfl⟩ := Prod.mk.inj (Option.some.inj read)
        rfl
      · obtain ⟨⟨m, left⟩, further, eq⟩ := Option.map_eq_some_iff.mp read
        obtain ⟨rfl, rfl⟩ := Prod.mk.inj eq
        rw [ih further]
        rfl

theorem unvarint_shorter (read : unvarint places bytes = some (n, rest)) :
    rest.length < bytes.length := by
  induction places generalizing n bytes with
  | zero => cases read
  | succ places ih =>
    cases bytes with
    | nil => cases read
    | cons b bytes =>
      rw [unvarint] at read
      split_ifs at read with last
      · obtain ⟨-, rfl⟩ := Prod.mk.inj (Option.some.inj read)
        exact Nat.lt_succ_self _
      · obtain ⟨⟨m, left⟩, further, eq⟩ := Option.map_eq_some_iff.mp read
        obtain ⟨-, rfl⟩ := Prod.mk.inj eq
        exact Nat.lt_succ_of_lt (ih further)

namespace Codec

variable {α : Type*}

/-- Numbers as varints of at most `places + 1` bytes. A reader may go on to narrow what it has read,
so that it can read more than is ever written. -/
def ofVarint (places : ℕ) (toNat : α → ℕ) (ofNat : ℕ → α) (narrow : ∀ a, ofNat (toNat a) = a)
    (fits : ∀ a, toNat a < 128 ^ (places + 1)) : Codec α where
  ok _ := True
  encode a := varint (places + 1) (toNat a)
  decode bytes := (unvarint (places + 1) bytes).map (Prod.map ofNat id)
  decode_encode a rest _ := by rw [unvarint_varint (fits a), Option.map_some, Prod.map, narrow, id]
  ok_of_decode _ _ _ _ := trivial
  decode_append bytes a rest more read := by
    obtain ⟨⟨n, left⟩, number, eq⟩ := Option.map_eq_some_iff.mp read
    obtain ⟨rfl, rfl⟩ := Prod.mk.inj eq
    rw [unvarint_append number, Option.map_some]
    rfl
  shorter bytes a rest read := by
    obtain ⟨⟨n, left⟩, number, eq⟩ := Option.map_eq_some_iff.mp read
    obtain ⟨-, rfl⟩ := Prod.mk.inj eq
    exact unvarint_shorter number

/-- Words of up to 64 bits. -/
def word (w : ℕ) (narrow : w ≤ 64) : Codec (BitVec w) :=
  ofVarint 9 BitVec.toNat (BitVec.ofNat w) (fun a => by rw [BitVec.ofNat_toNat, BitVec.setWidth_eq])
    fun a => Nat.lt_of_lt_of_le a.isLt (Nat.le_trans (Nat.pow_le_pow_right (by decide) narrow)
      (by decide))

/-- A string of less than `limit` bytes behind its length, which is a word of `w` bits. -/
def counted {w : ℕ} (count : Codec (BitVec w)) (limit : ℕ) (narrow : limit ≤ 2 ^ w)
    (writable : ∀ n, count.ok n) : Codec (List UInt8) where
  ok bytes := bytes.length < limit
  encode bytes := count.encode (BitVec.ofNat w bytes.length) ++ bytes
  decode bytes := (count.decode bytes).bind fun read =>
    if read.1.toNat < limit ∧ read.1.toNat ≤ read.2.length then
      some (read.2.take read.1.toNat, read.2.drop read.1.toNat)
    else none
  decode_encode a rest fits := by
    have length : (BitVec.ofNat w a.length).toNat = a.length :=
      Nat.mod_eq_of_lt (Nat.lt_of_lt_of_le fits narrow)
    rw [List.append_assoc, count.decode_encode _ _ (writable _), Option.bind_some, length,
      if_pos ⟨fits, by simp⟩, List.take_left, List.drop_left]
  ok_of_decode bytes a rest read := by
    obtain ⟨⟨n, left⟩, -, taken⟩ := Option.bind_eq_some_iff.mp read
    dsimp only at taken
    split_ifs at taken with fits
    obtain ⟨rfl, -⟩ := Prod.mk.inj (Option.some.inj taken)
    rw [List.length_take]
    omega
  decode_append bytes a rest more read := by
    obtain ⟨⟨n, left⟩, number, taken⟩ := Option.bind_eq_some_iff.mp read
    dsimp only at taken
    split_ifs at taken with fits
    obtain ⟨rfl, rfl⟩ := Prod.mk.inj (Option.some.inj taken)
    have longer : n.toNat ≤ (left ++ more).length :=
      Nat.le_trans fits.2 (by rw [List.length_append]; exact Nat.le_add_right _ _)
    rw [count.decode_append _ _ _ more number, Option.bind_some, if_pos ⟨fits.1, longer⟩,
      List.take_append_of_le_length fits.2, List.drop_append_of_le_length fits.2]
  shorter bytes a rest read := by
    obtain ⟨⟨n, left⟩, number, taken⟩ := Option.bind_eq_some_iff.mp read
    dsimp only at taken
    split_ifs at taken with fits
    obtain ⟨-, rfl⟩ := Prod.mk.inj (Option.some.inj taken)
    have less := count.shorter _ _ _ number
    rw [List.length_drop]
    omega

/-- Nothing can be read or written. -/
def never : Codec α where
  ok _ := False
  encode _ := []
  decode _ := none
  decode_encode _ _ no := no.elim
  ok_of_decode _ _ _ read := (Option.some_ne_none _ read.symm).elim
  decode_append _ _ _ _ read := (Option.some_ne_none _ read.symm).elim
  shorter _ _ _ read := (Option.some_ne_none _ read.symm).elim

/-- Values with a label that is known from elsewhere. -/
def under {τ : Type*} (c : Codec α) (t : τ) : Codec (τ × α) where
  ok a := a.1 = t ∧ c.ok a.2
  encode a := c.encode a.2
  decode bytes := (c.decode bytes).map (Prod.map (Prod.mk t) id)
  decode_encode a rest fits := by
    obtain ⟨rfl, fits⟩ := fits
    rw [c.decode_encode _ _ fits, Option.map_some]
    rfl
  ok_of_decode bytes a rest read := by
    obtain ⟨⟨b, left⟩, found, eq⟩ := Option.map_eq_some_iff.mp read
    obtain ⟨rfl, -⟩ := Prod.mk.inj eq
    exact ⟨rfl, c.ok_of_decode _ _ _ found⟩
  decode_append bytes a rest more read := by
    obtain ⟨⟨b, left⟩, found, eq⟩ := Option.map_eq_some_iff.mp read
    obtain ⟨rfl, rfl⟩ := Prod.mk.inj eq
    rw [c.decode_append _ _ _ more found, Option.map_some]
    rfl
  shorter bytes a rest read := by
    obtain ⟨⟨b, left⟩, found, eq⟩ := Option.map_eq_some_iff.mp read
    obtain ⟨-, rfl⟩ := Prod.mk.inj eq
    exact c.shorter _ _ _ found

variable (c : Codec α) {a : α} {as bs : List α} {bytes mid rest : List UInt8}

/-- The values `as` are read off `bytes` one after the other, and `rest` is left. -/
inductive Reads : List UInt8 → List α → List UInt8 → Prop
  | nil {rest : List UInt8} : Reads rest [] rest
  | cons {bytes mid rest : List UInt8} {a : α} {as : List α} :
    c.decode bytes = some (a, mid) → Reads mid as rest → Reads bytes (a :: as) rest

variable {c}

theorem decode_nil : c.decode [] = none := by
  cases read : c.decode [] with
  | none => rfl
  | some found => exact absurd (c.shorter _ _ _ read) (Nat.not_lt_zero _)

theorem reads_one (read : c.decode bytes = some (a, rest)) : c.Reads bytes [a] rest :=
  .cons read .nil

theorem Reads.trans (h : c.Reads bytes as mid) (h' : c.Reads mid bs rest) :
    c.Reads bytes (as ++ bs) rest := by
  induction h with
  | nil => exact h'
  | cons read _ ih => exact .cons read (ih h')

/-- What stands behind the input does not change how it is read. -/
theorem Reads.append (h : c.Reads bytes as rest) (more : List UInt8) :
    c.Reads (bytes ++ more) as (rest ++ more) := by
  induction h with
  | nil => exact .nil
  | cons read _ ih => exact .cons (c.decode_append _ _ _ more read) ih

theorem reads_encode (fits : ∀ a ∈ as, c.ok a) (rest : List UInt8) :
    c.Reads (as.flatMap c.encode ++ rest) as rest := by
  induction as with
  | nil => exact .nil
  | cons a as ih =>
    obtain ⟨first, others⟩ := List.forall_mem_cons.mp fits
    rw [List.flatMap_cons, List.append_assoc]
    exact .cons (c.decode_encode _ _ first) (ih others)

theorem Reads.ok (h : c.Reads bytes as rest) : ∀ a ∈ as, c.ok a := by
  induction h with
  | nil => exact fun _ mem => absurd mem List.not_mem_nil
  | cons read _ ih => exact List.forall_mem_cons.mpr ⟨c.ok_of_decode _ _ _ read, ih⟩

theorem Reads.shorter (h : c.Reads bytes as rest) (some : as ≠ []) :
    rest.length < bytes.length := by
  induction h with
  | nil => exact absurd rfl some
  | @cons bytes mid rest a as read others ih =>
    have less := c.shorter _ _ _ read
    cases as with
    | nil =>
      cases others
      exact less
    | cons b as => exact Nat.lt_trans (ih (List.cons_ne_nil b as)) less

/-- An input that can be read to its end goes on after its first values as they leave it. -/
theorem Reads.split (h : c.Reads bytes as mid) {all : List α} (whole : c.Reads bytes all []) :
    ∃ bs, all = as ++ bs ∧ c.Reads mid bs [] := by
  induction h generalizing all with
  | nil => exact ⟨all, rfl, whole⟩
  | cons read _ ih =>
    cases whole with
    | nil =>
      rw [decode_nil] at read
      cases read
    | cons read' others =>
      obtain ⟨rfl, rfl⟩ := Prod.mk.inj (Option.some.inj (read.symm.trans read'))
      obtain ⟨bs, rfl, further⟩ := ih others
      exact ⟨bs, rfl, further⟩

theorem reads_nil (h : c.Reads [] as rest) : as = [] := by
  cases h with
  | nil => rfl
  | cons read _ =>
    rw [decode_nil] at read
    cases read

/-- There is only one way to read an input to its end. -/
theorem Reads.unique (h : c.Reads bytes as []) (h' : c.Reads bytes bs []) : as = bs := by
  obtain ⟨more, rfl, further⟩ := h.split h'
  rw [reads_nil further, List.append_nil]

end Codec
