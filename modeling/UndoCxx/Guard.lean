import UndoCxx.Run

/-!
The `int` arithmetic in front of batch undo and redo, for every position and delta. That it
is theirs is `Verbose.batch_eq`.
-/
namespace UndoCxx

open Cxx

variable {p s : ℕ} {d : ℤ}

/-- Nothing overflows, and the guard decides what it means. -/
def UndoExact (p s : ℕ) (d : ℤ) : Prop :=
  undoArith p s d = .ok (decide (0 < (p : ℤ) - d ∧ (p : ℤ) - d ≤ s))

def RedoExact (p s : ℕ) (d : ℤ) : Prop :=
  redoArith p s d = .ok (decide (0 < (p : ℤ) + d ∧ (p : ℤ) + d ≤ s))

theorem undoArith_eq_ok {b : Bool} : undoArith p s d = .ok b ↔ FitsInt (toInt p - d) ∧
    (b = true ↔ 0 < toInt p - d ∧ toInt p - d ≤ s) ∧ (b = true → FitsInt (-d)) := by
  by_cases hfit : FitsInt (toInt p - d)
  · have hg := History.inBounds_of_fits (n := s) hfit
    rw [undoArith, intResult_of_fits hfit, Machine.ok_bind, ← hg]
    by_cases hin : UndoableCmdSystem.inBounds (toInt p - d) s = true
    · by_cases hneg : FitsInt (-d) <;> cases b <;> simp [hin, hfit, hneg, intResult]
    · cases b <;> simp [hin, hfit]
  · simp [undoArith, intResult, hfit]

theorem redoArith_eq_ok {b : Bool} : redoArith p s d = .ok b ↔ FitsInt (toInt p + d) ∧
    (b = true ↔ 0 < toInt p + d ∧ toInt p + d ≤ s) := by
  by_cases hfit : FitsInt (toInt p + d)
  · have hg := History.inBounds_of_fits (n := s) hfit
    rw [redoArith, intResult_of_fits hfit, Machine.ok_bind, ← hg]
    cases b <;> simp [hfit]
  · simp [redoArith, intResult, hfit]

/-- A position in the range of `int` is narrowed exactly, any other one to something smaller. -/
theorem toInt_position (p : ℕ) : (p : ℤ) ≤ intMax ∧ toInt p = p ∨ intMax < p ∧ toInt p < p := by
  by_cases hp : (p : ℤ) ≤ intMax
  · have hfit : FitsInt p := by
      constructor
      · simp only [intMin]
        omega
      · exact hp
    exact Or.inl ⟨hp, toInt_of_fits hfit⟩
  · have hfit := toInt_fits p
    right
    obtain ⟨-, hhi⟩ := hfit
    omega

/-- Up to `INT_MAX` the difference must not exceed it either. Beyond it the narrowed position
decides, rightly only if the delta lies between it and `pos - size`. -/
def UndoFits (p s : ℕ) (d : ℤ) : Prop :=
  (p : ℤ) ≤ intMax ∧ (p : ℤ) - d ≤ intMax ∨
    intMax < (p : ℤ) ∧ FitsInt (toInt p - d) ∧
      ((p : ℤ) - s ≤ d ∧ d < toInt p ∧ d ≠ intMin ∨ toInt p ≤ d ∧ d < (p : ℤ) - s)

def RedoFits (p s : ℕ) (d : ℤ) : Prop :=
  (p : ℤ) ≤ intMax ∧ (p : ℤ) + d ≤ intMax ∨
    intMax < (p : ℤ) ∧ FitsInt (toInt p + d) ∧
      (-toInt p < d ∧ d ≤ (s : ℤ) - p ∨ (s : ℤ) - p < d ∧ d ≤ -toInt p)

theorem undoExact_iff (hps : p ≤ s) (hd : FitsInt d) : UndoExact p s d ↔ UndoFits p s d := by
  have hfit := toInt_fits p
  rw [UndoExact, undoArith_eq_ok, decide_eq_true_iff, UndoFits]
  rcases toInt_position p with ⟨hp, hn⟩ | ⟨hp, hn⟩
  · rw [hn]
    simp only [FitsInt, intMin, intMax] at *
    constructor
    · rintro ⟨⟨-, hhi⟩, -⟩
      exact Or.inl ⟨hp, hhi⟩
    · rintro (⟨-, hhi⟩ | ⟨hbig, -⟩)
      · refine ⟨⟨by omega, hhi⟩, trivial, ?_⟩
        omega
      · omega
  · simp only [FitsInt, intMin, intMax] at *
    constructor
    · rintro ⟨hres, hguard, hneg⟩
      right
      refine ⟨hp, hres, ?_⟩
      omega
    · rintro (⟨hsmall, -⟩ | ⟨-, hres, hbetween⟩)
      · omega
      · refine ⟨hres, ?_, ?_⟩ <;> omega

theorem redoExact_iff (hps : p ≤ s) (hd : FitsInt d) : RedoExact p s d ↔ RedoFits p s d := by
  have hfit := toInt_fits p
  obtain ⟨k, hk⟩ := toInt_eq_sub p
  rw [RedoExact, redoArith_eq_ok, decide_eq_true_iff, RedoFits]
  rcases toInt_position p with ⟨hp, hn⟩ | ⟨hp, hn⟩
  · rw [hn]
    simp only [FitsInt, intMin, intMax] at *
    constructor
    · rintro ⟨⟨-, hhi⟩, -⟩
      exact Or.inl ⟨hp, hhi⟩
    · rintro (⟨-, hhi⟩ | ⟨hbig, -⟩)
      · exact ⟨⟨by omega, hhi⟩, trivial⟩
      · omega
  · simp only [FitsInt, intMin, intMax] at *
    constructor
    · rintro ⟨hres, hguard⟩
      right
      refine ⟨hp, hres, ?_⟩
      omega
    · rintro (⟨hsmall, -⟩ | ⟨-, hres, hbetween⟩)
      · omega
      · refine ⟨hres, ?_⟩
        omega

/-- For every position in a history of any size and every delta of type `int`, the mixed arithmetic
of the batch operations is exact just within the bounds above. -/
theorem guards_exact_iff (hps : p ≤ s) (hd : FitsInt d) :
    (UndoExact p s d ↔ UndoFits p s d) ∧ (RedoExact p s d ↔ RedoFits p s d) :=
  ⟨undoExact_iff hps hd, redoExact_iff hps hd⟩

/-- Two steps of three: the undo is exact, and so is the redo. -/
theorem guards_exact_three : UndoExact 3 3 2 ∧ RedoExact 1 3 2 := by
  have hundo := (guards_exact_iff (p := 3) (s := 3) (d := 2) (by decide) (by decide)).1
  have hredo := (guards_exact_iff (p := 1) (s := 3) (d := 2) (by decide) (by decide)).2
  exact ⟨hundo.mpr (Or.inl (by decide)), hredo.mpr (Or.inl (by decide))⟩

/-- Asking to redo everything with `INT_MAX`, or to undo by `INT_MIN`, overflows in a history of
one memento. -/
theorem redo_all_overflows :
    Machine.run (step .standard counterHeap) (.start 0) [.invoke 2, .redoBy 0 2147483647] =
        .error .intOverflow ∧
      Machine.run (step .standard counterHeap) (.start 0) [.invoke 2, .undoBy 0 (-2147483648)] =
        .error .intOverflow ∧
      ¬ RedoExact 1 1 2147483647 ∧ ¬ UndoExact 1 1 (-2147483648) := by
  refine ⟨rfl, rfl, ?_, ?_⟩
  · rw [redoExact_iff (by decide) (by decide), RedoFits]
    decide
  · rw [undoExact_iff (by decide) (by decide), UndoFits]
    decide

end UndoCxx
