import UndoCxx.Journal

/-! What every public call asks of the manager that prints, and nothing more. -/
namespace UndoCxx

open Cxx

variable {A μ τ : Type} {print : μ → Except UB τ} {sem : Sentinel} {heap : Heap A μ}

section Steps

variable {p s limit : ℕ} {d n : ℤ}

end Steps

namespace Zipper

variable {z : Zipper (Printed print)}

end Zipper

namespace Reading

variable {v : Reading A print} {out : List (Line τ)}

end Reading

/-- One call of the manager that prints, by a client that survives an exception. -/
def Verbose.step (print : μ → Except UB τ) (sem : Sentinel) (heap : Heap A μ)
    (p : World A μ × List (Line τ)) (k : Call) : Except UB (World A μ × List (Line τ)) := do
  let (_, p) ← (Client.ofCall heap k).run (printing print sem) p
  return p

/-- Every memento of the manager has been streamed. -/
def Readable (print : μ → Except UB τ) (p : World A μ × List (Line τ)) : Prop :=
  ∃ v : Reading A print, Reading.Reads p.1 v

theorem Readable.step {p q : World A μ × List (Line τ)} {k : Call} (hp : Readable print p)
    (h : Verbose.step print sem heap p k = .ok q) : Readable print q := by
  obtain ⟨v, hv⟩ := hp
  obtain ⟨⟨r, q'⟩, hq, he⟩ := Machine.bind_eq_ok.mp h
  cases he
  have hagree := (printing_related print sem).run (Client.ofCall heap k) p (v, p.2) ⟨hv, rfl⟩
  rw [hq] at hagree
  generalize (Client.ofCall heap k).run (Reading.model print sem) (v, p.2) = o at hagree
  cases hagree with
  | ended r h => exact ⟨_, h.1⟩

end UndoCxx
