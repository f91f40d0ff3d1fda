import UndoCxx.View

/-! The lines that the calls print, and the mementos that they are about. -/
namespace UndoCxx

open Cxx

variable {μ τ : Type}

namespace Verbose

def apply (print : μ → Except UB τ) (sem : Sentinel) (s : UndoableCmdSystem μ) :
    Direct → Except UB (UndoableCmdSystem μ × List (Line τ))
  | .undo c => undo print sem c s
  | .redo c => redo print sem c s
  | .undoBy c delta => undoBy print sem c delta s
  | .redoBy c delta => redoBy print sem c delta s
  | .erase n => do return (← s.erase sem n, [])
  | .clear => .ok (s.clear, [])
  | .maxSize n => .ok (s.setMaxSize n, [])

end Verbose

namespace History

variable {h : History μ} {print : μ → Except UB τ} {sem : Sentinel}

/-- What a call prints, if the mementos it steps over can be streamed. -/
def printed (print : μ → Except UB τ) (h : History μ) : Direct → Except UB (List (Line τ))
  | .undo _ => h.line print .back
  | .redo _ => h.line print .forth
  | .undoBy _ d => h.lines print .back (batchCount .back h.pos h.size d)
  | .redoBy _ d => h.lines print .forth (batchCount .forth h.pos h.size d)
  | .erase _ | .clear | .maxSize _ => .ok []

/-- A batch prints one line for every step that it takes, and none when it is refused. -/
theorem batch_verbose (c : CmdId) (dir : Direction) (h : History μ) (d : ℤ) :
    Verbose.batch print sem c d dir h.toMgr = h.batch dir sem d >>= fun g =>
      (h.lines print dir (batchCount dir h.pos h.size d)).map fun ls => (g.toMgr, ls) := by
  rw [batch_toMgr, batch]
  cases hn : batchSteps dir sem h.pos h.size d with
  | error e => rfl
  | ok n =>
    rw [Machine.ok_bind, Machine.map_ok, Machine.ok_bind, batchSteps_eq_ok hn]

/-- A call that prints does what it does in silence, as far as its mementos can be streamed. -/
theorem apply_verbose (d : Direct) (h : History μ) : Verbose.apply print sem h.toMgr d =
    h.handle sem d.request >>= fun g => (h.printed print d).map fun ls => (g.toMgr, ls) := by
  cases d with
  | undo c => exact single_toMgr (c := c) .back h
  | redo c => exact single_toMgr (c := c) .forth h
  | undoBy c d => exact batch_verbose c .back h d
  | redoBy c d => exact batch_verbose c .forth h d
  | erase n =>
    rw [Verbose.apply, erase_toMgr, Direct.request, handle]
    cases h.erase sem n <;> rfl
  | clear | maxSize => rfl

end History

/-- A memento with the text that it is streamed as. -/
structure Printed (print : μ → Except UB τ) where
  memento : μ
  text : τ
  prints : print memento = .ok text

namespace Zipper

variable {print : μ → Except UB τ}

/-- The line of a single step, if there is one to make. -/
def line (z : Zipper (Printed print)) : Direction → List (Line τ)
  | .back =>
    match z.stack.past with
    | [] => []
    | p :: past => [⟨.restore, past.length, p.text, z.size⟩]
  | .forth =>
    match z.stack.future with
    | [] => []
    | p :: _ => [⟨.replay, z.pos, p.text, z.size⟩]

/-- The lines of `n` steps. -/
def repeatLines (dir : Direction) : ℕ → Zipper (Printed print) → List (Line τ)
  | 0, _ => []
  | n + 1, z => z.line dir ++ repeatLines dir n (z.move dir)

/-- What a call prints. -/
def lines (z : Zipper (Printed print)) : Direct → List (Line τ)
  | .undo _ => z.line .back
  | .redo _ => z.line .forth
  | .undoBy _ d => repeatLines .back (batchCount .back z.pos z.size d) z
  | .redoBy _ d => repeatLines .forth (batchCount .forth z.pos z.size d) z
  | .erase _ | .clear | .maxSize _ => []

end Zipper

namespace History

variable {h : History μ} {print : μ → Except UB τ} {z : Zipper (Printed print)}

/-- The history holds the mementos of `z`. -/
def Labelled (h : History μ) (z : Zipper (Printed print)) : Prop :=
  h.forget = z.map Printed.memento

theorem Labelled.past (hz : h.Labelled z) :
    h.stack.past.map Node.val = z.stack.past.map Printed.memento :=
  congrArg (fun z => z.stack.past) hz

theorem Labelled.future (hz : h.Labelled z) :
    h.stack.future.map Node.val = z.stack.future.map Printed.memento :=
  congrArg (fun z => z.stack.future) hz

theorem Labelled.pos (hz : h.Labelled z) : h.pos = z.pos := by
  rw [← pos_forget, hz, Zipper.pos_map]

theorem Labelled.size (hz : h.Labelled z) : h.size = z.size := by
  rw [← size_forget, hz, Zipper.size_map]

/-- A text goes with its memento. -/
theorem Labelled.move (hz : h.Labelled z) (dir : Direction) :
    (h.move dir).Labelled (z.move dir) := by
  have hforget : (h.move dir).forget = h.forget.move dir := h.forget_iterate dir 1
  have hmap : (z.move dir).map _ = (z.map _).move dir :=
    Zipper.map_edit (TwoStack.map_iterate_move Printed.memento dir 1) z
  rw [Labelled, hforget, hz, hmap]

/-- Each memento is streamed as the text that it is labelled with. -/
theorem Labelled.line (hz : h.Labelled z) (dir : Direction) :
    h.line print dir = .ok (z.line dir) := by
  cases dir with
  | back =>
    have hmap := hz.past
    rw [History.line, Zipper.line, hz.size]
    cases hp : z.stack.past with
    | nil =>
      rw [hp] at hmap
      rw [List.map_eq_nil_iff.mp hmap]
    | cons p past =>
      rw [hp, List.map_cons] at hmap
      obtain ⟨n, ns, hn, hval, hrest⟩ := List.map_eq_cons_iff.mp hmap
      have hlen : ns.length = past.length := by
        rw [← List.length_map (f := Node.val), hrest, List.length_map]
      simp only [hn, hval, hlen, p.prints, Machine.map_ok]
  | forth =>
    have hmap := hz.future
    rw [History.line, Zipper.line, hz.size, hz.pos]
    cases hf : z.stack.future with
    | nil =>
      rw [hf] at hmap
      rw [List.map_eq_nil_iff.mp hmap]
    | cons p future =>
      rw [hf, List.map_cons] at hmap
      obtain ⟨n, ns, hn, hval, -⟩ := List.map_eq_cons_iff.mp hmap
      simp only [hn, hval, p.prints, Machine.map_ok]

/-- The texts kept are those that a batch streams. -/
theorem Labelled.lines (hz : h.Labelled z) (dir : Direction) (n : ℕ) :
    h.lines print dir n = .ok (z.repeatLines dir n) := by
  induction n generalizing h z with
  | zero => rfl
  | succ n ih =>
    rw [History.lines, hz.line dir, Machine.ok_bind, ih (hz.move dir)]
    rfl

theorem Labelled.printed (hz : h.Labelled z) (d : Direct) :
    h.printed print d = .ok (z.lines d) := by
  cases d with
  | undo c => exact hz.line .back
  | redo c => exact hz.line .forth
  | undoBy c d =>
    rw [History.printed, Zipper.lines, ← hz.pos, ← hz.size]
    exact hz.lines .back _
  | redoBy c d =>
    rw [History.printed, Zipper.lines, ← hz.pos, ← hz.size]
    exact hz.lines .forth _
  | erase | clear | maxSize => rfl

/-- A direct call prints from the texts kept, with nothing left to stream. -/
theorem Labelled.apply {sem : Sentinel} (hz : h.Labelled z) (d : Direct) :
    Verbose.apply print sem h.toMgr d =
      (h.handle sem d.request).map fun g => (g.toMgr, z.lines d) := by
  rw [apply_verbose, hz.printed]
  cases h.handle sem d.request <;> rfl

end History

end UndoCxx
