import Mathlib.Data.Int.Basic
import Mathlib.Tactic.NormNum

/-! C++ undefined behaviour, exceptions and the fixed-width integers of an LP64 target. -/
namespace Cxx

/-- The kinds of undefined behaviour a step can run into. -/
inductive UB
  | intOverflow
  | staleIterator
  | decrementBegin
  | incrementEnd
  | dereferenceEnd
  | eraseEnd
  | unreachableLast
  | emptyContainer
  | nullPointer
  deriving DecidableEq, Repr

/-- What can be thrown: by the allocator, or by a callback of the application. -/
inductive Exn
  | badAlloc
  | user (what : ℕ)
  deriving DecidableEq, Repr

def intMin : ℤ := -2147483648
def intMax : ℤ := 2147483647

/-- `ULONG_MAX` -/
def sizeTMax : ℕ := 18446744073709551615

def FitsInt (x : ℤ) : Prop := intMin ≤ x ∧ x ≤ intMax

instance (x : ℤ) : Decidable (FitsInt x) := inferInstanceAs (Decidable (_ ∧ _))

/-- The result of `int` arithmetic whose exact value is `x`. -/
def intResult (x : ℤ) : Except UB ℤ := if FitsInt x then .ok x else .error .intOverflow

/-- `(int) x` -/
def toInt (x : ℤ) : ℤ := x.bmod 4294967296

/-- `(size_type) x` -/
def toSizeType (x : ℤ) : ℕ := (x % 18446744073709551616).toNat

theorem intResult_of_fits {x : ℤ} (h : FitsInt x) : intResult x = .ok x := by
  simp [intResult, h]

/-- Signed arithmetic is defined exactly for results in range. -/
theorem intResult_eq_ok {x y : ℤ} : intResult x = .ok y ↔ FitsInt x ∧ x = y := by
  by_cases h : FitsInt x <;> simp [intResult, h]

theorem toInt_of_fits {x : ℤ} (h : FitsInt x) : toInt x = x := by
  obtain ⟨hlo, hhi⟩ := h
  simp only [intMin, intMax] at hlo hhi
  exact Int.bmod_eq_of_le_mul_two (by omega) (by omega)

/-- Narrowing a non-negative value never increases it. -/
theorem toInt_le {x : ℤ} (h : 0 ≤ x) : toInt x ≤ x := by
  rw [toInt, Int.bmod_eq_emod]
  split <;> omega

/-- Narrowing drops a multiple of `2^32`. -/
theorem toInt_eq_sub (x : ℤ) : ∃ k, toInt x = x - 4294967296 * k := by
  rw [toInt, Int.bmod_eq_emod]
  split
  · exact ⟨x / 4294967296 + 1, by omega⟩
  · exact ⟨x / 4294967296, by omega⟩

/-- A conversion to `int` wraps around and stays in range. -/
theorem toInt_fits (x : ℤ) : FitsInt (toInt x) := by
  have hlo := Int.le_bmod (x := x) (m := 4294967296) (by decide)
  have hhi := Int.bmod_lt (x := x) (m := 4294967296) (by decide)
  constructor <;> simp only [intMin, intMax, toInt] <;> omega

theorem toSizeType_of_fits {x : ℤ} (h : FitsInt x) (hx : 0 ≤ x) : toSizeType x = x.toNat := by
  obtain ⟨-, hhi⟩ := h
  simp only [intMax] at hhi
  simp only [toSizeType]
  omega

end Cxx
