import UndoCxx.Run

/-! `erase(n)` for every argument: where it steps, and when its loop ends. -/
namespace UndoCxx

open Cxx

variable {A μ : Type} {sem : Sentinel} {heap : Heap A μ} {a : A} {w : World A μ} {n : ℤ}
  {i p : ℕ} {s t : UndoableCmdSystem μ}

/-- On a plain `std::list` no iteration steps or erases past an end of it. -/
def ErasesInside (s : UndoableCmdSystem μ) (n : ℤ) : Prop :=
  ∀ e ∈ [UB.decrementBegin, .incrementEnd, .eraseEnd], s.erase .standard n ≠ .error e

/-- The loop of `erase(n)`, started in `s`, ends in `t` after `i` iterations, and no `n--` of it
goes below `INT_MIN`. -/
inductive EraseEnds (sem : Sentinel) : ℕ → ℤ → UndoableCmdSystem μ → UndoableCmdSystem μ → Prop
  | stop {n : ℤ} {s : UndoableCmdSystem μ} (hlo : intMin < n) (hstop : n = 0 ∨ s.empty) :
      EraseEnds sem 0 n s s
  | next {i : ℕ} {n : ℤ} {s t u : UndoableCmdSystem μ} (hlo : intMin < n)
      (hgo : ¬ (n = 0 ∨ s.empty)) (hone : s.eraseOne sem = .ok t)
      (hrest : EraseEnds sem i (n - 1) t u) : EraseEnds sem (i + 1) n s u

/-- The loop ends after at most `max(n, 0)` iterations, which remove
`min(max(n, 0), size() - position())` mementos. -/
def ErasesExactly (sem : Sentinel) (s : UndoableCmdSystem μ) (p : ℕ) (n : ℤ) : Prop :=
  ∃ i t, EraseEnds sem i n s t ∧ i ≤ (max n 0).toNat ∧
    t.size + min (max n 0).toNat (s.size - p) = s.size

/-- The relation is the loop. -/
theorem eraseLoop_eq_ok {fuel : ℕ} (hf : (fuel : ℤ) = max (n - intMin) 0) :
    s.eraseLoop sem fuel n = .ok t ↔ ∃ i, EraseEnds sem i n s t := by
  induction fuel generalizing n s with
  | zero =>
    constructor
    · intro h
      cases h
    · rintro ⟨i, h⟩
      cases h <;> omega
  | succ fuel ih =>
    have hlo : intMin < n := by omega
    have hrest : (fuel : ℤ) = max (n - 1 - intMin) 0 := by omega
    rw [UndoableCmdSystem.eraseLoop]
    by_cases hstop : n = 0 ∨ s.empty
    · rw [if_pos hstop]
      constructor
      · intro h
        cases h
        exact ⟨0, .stop hlo hstop⟩
      · rintro ⟨i, h⟩
        cases h with
        | stop => rfl
        | next _ hgo => exact absurd hstop hgo
    · rw [if_neg hstop, Machine.bind_eq_ok]
      constructor
      · rintro ⟨u, hu, h⟩
        obtain ⟨i, hi⟩ := (ih hrest).mp h
        exact ⟨i + 1, .next hlo hstop hu hi⟩
      · rintro ⟨i, h⟩
        cases h with
        | stop _ hs => exact absurd hs hstop
        | next _ _ hone h => exact ⟨_, hone, (ih hrest).mpr ⟨_, h⟩⟩

theorem erase_eq_ok : s.erase sem n = .ok t ↔ ∃ i, EraseEnds sem i n s t := by
  apply eraseLoop_eq_ok
  omega

theorem EraseEnds.intMin_lt (h : EraseEnds sem i n s t) : intMin < n := by
  cases h <;> assumption

/-- A count that is not negative bounds the iterations. -/
theorem EraseEnds.le (h : EraseEnds sem i n s t) (hn : 0 ≤ n) : i ≤ (max n 0).toNat := by
  induction h with
  | stop => exact Nat.zero_le _
  | @next i n s t u hlo hgo hone hrest ih =>
    have hne : n ≠ 0 := by
      intro hz
      exact hgo (Or.inl hz)
    have hle := ih (by omega)
    omega

namespace History

variable {h : History μ}

theorem canErase_iff : h.CanErase sem ↔ sem = .cyclic ∨ 1 ≤ h.pos ∨ h.toMgr.empty = true := by
  rw [CanErase, empty_iff, size_eq, pos, ← List.length_pos_iff, ← List.length_eq_zero_iff]
  constructor
  · rintro (hs | hp | hf)
    · exact Or.inl hs
    · exact Or.inr (Or.inl hp)
    · omega
  · rintro (hs | hp | he)
    · exact Or.inl hs
    · exact Or.inr (Or.inl hp)
    · right
      right
      omega

/-- Where `erase` is undefined for a count that is not negative. -/
theorem erase_cases (sem : Sentinel) (h : History μ) (hn : 0 ≤ n) :
    (n = 0 ∨ h.CanErase sem) ∧ h.toMgr.erase sem n = .ok (h.drop n.toNat).toMgr ∨
      ¬ (n = 0 ∨ h.CanErase sem) ∧ h.toMgr.erase sem n = .error .decrementBegin := by
  rw [erase_toMgr]
  by_cases hc : h.CanErase sem
  · left
    rw [erase_of_nonneg hn hc]
    exact ⟨Or.inr hc, rfl⟩
  by_cases hz : n = 0
  · left
    subst n
    refine ⟨Or.inl rfl, ?_⟩
    have hstop : h.erase sem 0 = .ok h := rfl
    rw [hstop, Int.toNat_zero, drop_zero]
    rfl
  · right
    rw [erase_error (by omega) hc]
    exact ⟨not_or.mpr ⟨hz, hc⟩, rfl⟩

theorem size_drop_add (h : History μ) (n : ℤ) :
    (h.drop n.toNat).toMgr.size + min (max n 0).toNat (h.toMgr.size - h.pos) = h.toMgr.size := by
  have hpos : (h.drop n.toNat).pos = h.pos := rfl
  have hfuture : (h.drop n.toNat).stack.future = h.stack.future.drop n.toNat := rfl
  rw [size_toMgr, size_toMgr, size_eq, size_eq, hpos, hfuture, List.length_drop]
  omega

end History

/-- `erase` stays inside the list except at the start of a history that is not empty, where its
step back over the predecessor goes before `begin()`. -/
theorem erase_inside_iff (hw : Reachable sem heap a w) (hp : w.mgr.position = .ok p)
    (hn : 0 ≤ n) : ErasesInside w.mgr n ↔ n = 0 ∨ 1 ≤ p ∨ w.mgr.empty = true := by
  obtain ⟨x, rfl⟩ := hw.session
  obtain rfl : x.history.pos = p := History.pos_of_position hp
  have hcan : x.history.CanErase .standard ↔ 1 ≤ x.history.pos ∨ x.history.toMgr.empty = true := by
    rw [History.canErase_iff]
    simp
  rcases x.history.erase_cases .standard hn with ⟨hc, he⟩ | ⟨hc, he⟩
  · rw [hcan] at hc
    refine iff_of_true ?_ hc
    intro e _ herr
    rw [Session.toWorld, he] at herr
    cases herr
  · rw [hcan] at hc
    refine iff_of_false ?_ hc
    intro hall
    exact hall .decrementBegin (by simp) he

/-- Two commands undone by two single steps, where an erasure of nothing is all that is safe. -/
theorem erase_inside_counter :
    ∃ w, Machine.run (step .standard counterHeap) (.start 0)
        [.invoke 2, .invoke 3, .undo 0, .undo 0] = .ok w ∧ ErasesInside w.mgr 0 := by
  obtain ⟨w, hw⟩ : ∃ w, Machine.run (step .standard counterHeap) (.start 0)
      [.invoke 2, .invoke 3, .undo 0, .undo 0] = .ok w := ⟨_, rfl⟩
  have hp : w.mgr.position = .ok 0 := by
    cases hw
    rfl
  exact ⟨w, hw, (erase_inside_iff ⟨_, hw⟩ hp (Int.le_refl 0)).mpr (Or.inl rfl)⟩

/-- One command, undone by the single step, is erased through a step before `begin()`. -/
theorem erase_before_begin :
    ∃ w, Machine.run (step .standard counterHeap) (.start 0) [.invoke 2, .undo 0] = .ok w ∧
      w.mgr.erase .standard 1 = .error .decrementBegin ∧ ¬ ErasesInside w.mgr 1 := by
  obtain ⟨w, hw⟩ : ∃ w, Machine.run (step .standard counterHeap) (.start 0)
      [.invoke 2, .undo 0] = .ok w := ⟨_, rfl⟩
  have he : w.mgr.erase .standard 1 = .error .decrementBegin := by
    cases hw
    rfl
  refine ⟨w, hw, he, ?_⟩
  intro hall
  exact hall .decrementBegin (by simp) he

/-- The loop of `erase(n)` does what is asked for when `n` is not negative and its steps stay
inside the list. For a negative `n` only an empty list stops it in time. -/
theorem erase_terminates_iff (hw : Reachable sem heap a w) (hp : w.mgr.position = .ok p) (n : ℤ) :
    ErasesExactly sem w.mgr p n ↔
      0 ≤ n ∧ (sem = .cyclic ∨ n = 0 ∨ 1 ≤ p) ∨ intMin < n ∧ w.mgr.empty = true := by
  obtain ⟨x, rfl⟩ := hw.session
  obtain rfl : x.history.pos = p := History.pos_of_position hp
  constructor
  · rintro ⟨i, t, h, hi, -⟩
    by_cases hn : 0 ≤ n
    · rcases x.history.erase_cases sem hn with ⟨hc, -⟩ | ⟨-, he⟩
      · rw [History.canErase_iff] at hc
        rcases hc with hz | hs | hpos | hempty
        · exact Or.inl ⟨hn, Or.inr (Or.inl hz)⟩
        · exact Or.inl ⟨hn, Or.inl hs⟩
        · exact Or.inl ⟨hn, Or.inr (Or.inr hpos)⟩
        · exact Or.inr ⟨h.intMin_lt, hempty⟩
      · have hok := erase_eq_ok.mpr ⟨i, h⟩
        rw [Session.toWorld, he] at hok
        cases hok
    · right
      obtain rfl : i = 0 := by omega
      cases h with
      | stop hlo hstop =>
        refine ⟨hlo, ?_⟩
        rcases hstop with hz | hempty
        · omega
        · exact hempty
  · rintro (⟨hn, hc⟩ | ⟨hlo, hempty⟩)
    · rcases x.history.erase_cases sem hn with ⟨-, he⟩ | ⟨hno, -⟩
      · obtain ⟨i, hi⟩ := erase_eq_ok.mp he
        exact ⟨i, _, hi, hi.le hn, x.history.size_drop_add n⟩
      · rw [History.canErase_iff] at hno
        tauto
    · have hsize : x.history.toMgr.size = 0 := by
        rw [History.size_toMgr]
        exact (History.empty_iff _).mp hempty
      refine ⟨0, x.toWorld.mgr, .stop hlo (Or.inr hempty), Nat.zero_le _, ?_⟩
      change x.history.toMgr.size + min _ (x.history.toMgr.size - _) = x.history.toMgr.size
      omega

/-- Five erasures are asked for where one memento is left to redo. -/
theorem erase_terminates_counter :
    ∃ w, Machine.run (step .standard counterHeap) (.start 0) [.invoke 2, .invoke 3, .undo 0] =
      .ok w ∧ ErasesExactly .standard w.mgr 1 5 := by
  obtain ⟨w, hw⟩ : ∃ w, Machine.run (step .standard counterHeap) (.start 0)
      [.invoke 2, .invoke 3, .undo 0] = .ok w := ⟨_, rfl⟩
  have hp : w.mgr.position = .ok 1 := by
    cases hw
    rfl
  have hiff := erase_terminates_iff ⟨_, hw⟩ hp 5
  exact ⟨w, hw, hiff.mpr (Or.inl ⟨by decide, Or.inr (Or.inr (Nat.le_refl 1))⟩)⟩

/-- With one command recorded, `erase(-1)` removes nothing and counts down to the overflow. -/
theorem erase_overflows :
    ∃ w, Machine.run (step .cyclic counterHeap) (.start 0) [.invoke 2] = .ok w ∧
      w.mgr.erase .cyclic (-1) = .error .intOverflow ∧
      ¬ ErasesExactly .cyclic w.mgr 1 (-1) := by
  obtain ⟨w, hw⟩ : ∃ w, Machine.run (step .cyclic counterHeap) (.start 0) [.invoke 2] = .ok w :=
    ⟨_, rfl⟩
  have he : w.mgr.erase .cyclic (-1) = .error .intOverflow := by
    have hp : w.mgr.position = .ok 1 := by
      cases hw
      rfl
    obtain ⟨x, rfl⟩ := Reachable.session ⟨_, hw⟩
    have hpos : x.history.pos = 1 := History.pos_of_position hp
    have hneg : x.history.erase .cyclic (-1) = .error .intOverflow := by
      simp [History.erase, eraseSteps, hpos, intMin]
    rw [Session.toWorld, History.erase_toMgr, hneg]
    rfl
  refine ⟨w, hw, he, ?_⟩
  rintro ⟨i, t, h, -⟩
  rw [erase_eq_ok.mpr ⟨i, h⟩] at he
  cases he

end UndoCxx
