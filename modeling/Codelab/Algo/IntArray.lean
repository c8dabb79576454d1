import Mathlib
import Codelab.Theory.Outcome
import Codelab.Theory.Contents

/-! The `int` of the C functions and the arrays they work on. An operation whose value is no
`int` is a fault, and so is an access outside the part of an array that a function may touch. -/

namespace Codelab.Algo

open Total Contents

def intMin : Int := -2 ^ 31

def intMax : Int := 2 ^ 31 - 1

inductive Fault
  | outOfBounds
  | overflow
  | unfinished
  deriving DecidableEq

/-- The value of an expression of type `int`. -/
def int (x : Int) : Except Fault Int :=
  if intMin ≤ x ∧ x ≤ intMax then .ok x else .error .overflow

theorem intMin_neg : intMin < 0 := by decide

theorem int_ok {x : Int} (low : intMin ≤ x) (high : x ≤ intMax) : int x = .ok x :=
  if_pos ⟨low, high⟩

theorem int_error {x : Int} (out : x < intMin ∨ intMax < x) : int x = .error .overflow :=
  if_neg (by omega)

/-- `l + (u - l)/2`. -/
def middle (l u : Int) : Except Fault Int := do
  int (l + (← int (u - l)).tdiv 2)

theorem middle_returns {l u : Int} (low : 0 ≤ l) (range : l ≤ u) (high : u ≤ intMax) :
    Returns (middle l u) fun mid => l ≤ mid ∧ mid ≤ u ∧ (l < u → mid < u) := by
  have negative := intMin_neg
  refine .bind_ok (int_ok (by omega) (by omega)) ?_
  rw [Int.tdiv_eq_ediv_of_nonneg (by omega)]
  exact returns_of_eq (int_ok (by omega) (by omega)) ⟨by omega, by omega, by omega⟩

/-- Where an `int *` points to: the elements `first` to `last` may be accessed. -/
structure IntArray (first last : Int) where
  cell : Int → Int

namespace IntArray

variable {first last i j v : Int} (arr : IntArray first last)

def read (i : Int) : Except Fault Int :=
  if first ≤ i ∧ i ≤ last then .ok (arr.cell i) else .error .outOfBounds

def write (i v : Int) : Except Fault (IntArray first last) :=
  if first ≤ i ∧ i ≤ last then .ok { cell := Function.update arr.cell i v }
  else .error .outOfBounds

/-- `swap` is the same in all files. -/
def swap (i j : Int) : Except Fault (IntArray first last) := do
  let tmp ← arr.read i
  let arr ← arr.write i (← arr.read j)
  arr.write j tmp

variable {arr}

theorem read_ok (low : first ≤ i) (high : i ≤ last) : arr.read i = .ok (arr.cell i) :=
  if_pos ⟨low, high⟩

theorem read_error (out : i < first ∨ last < i) : arr.read i = .error .outOfBounds :=
  if_neg (by omega)

theorem write_ok (low : first ≤ i) (high : i ≤ last) :
    arr.write i v = .ok { cell := Function.update arr.cell i v } := if_pos ⟨low, high⟩

theorem swap_ok (lowI : first ≤ i) (highI : i ≤ last) (lowJ : first ≤ j) (highJ : j ≤ last) :
    arr.swap i j = .ok { cell := arr.cell ∘ Equiv.swap i j } := by
  rw [Equiv.swap_comm, Equiv.comp_swap_eq_update]
  simp only [swap, read_ok lowI highI, read_ok lowJ highJ, write_ok lowI highI, bind, Except.bind]
  exact write_ok lowJ highJ

end IntArray

/-- `cell` is `a` with the elements `l` to `u` sorted. -/
structure Sorted (a cell : Int → Int) (l u : Int) : Prop
    extends Rearranged a cell (Finset.Icc l u) where
  monotone : MonotoneOn cell (Set.Icc l u)

theorem Sorted.short {a : Int → Int} {l u : Int} (range : u ≤ l) : Sorted a a l u := by
  refine ⟨.refl, fun x hx y hy _ => ?_⟩
  rw [show x = y by have := hx.1; have := hx.2; have := hy.1; have := hy.2; omega]

end Codelab.Algo
