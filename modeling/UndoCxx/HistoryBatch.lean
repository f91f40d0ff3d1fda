import UndoCxx.History

/-! The operations with a count: batch undo and redo, and `erase`. -/
namespace UndoCxx

open Cxx

/-! The arithmetic in front of a batch -/

/-- The arithmetic of `undo(CmdSP &, int)`: its guard, and the `-delta` behind it. -/
def undoArith (position size : ℕ) (delta : ℤ) : Except UB Bool := do
  let posNew ← intResult (toInt position - delta)
  if UndoableCmdSystem.inBounds posNew size then
    let _ ← intResult (-delta)
    return true
  return false

/-- The arithmetic of `redo(CmdSP, int)`. -/
def redoArith (position size : ℕ) (delta : ℤ) : Except UB Bool := do
  let posNew ← intResult (toInt position + delta)
  return UndoableCmdSystem.inBounds posNew size

def arith : Direction → ℕ → ℕ → ℤ → Except UB Bool
  | .back => undoArith
  | .forth => redoArith

/-- How far a batch of `delta` is to move the cursor. -/
def shift : Direction → ℤ → ℤ
  | .back, delta => -delta
  | .forth, delta => delta

theorem add_shift_back (p d : ℤ) : p + shift .back d = p - d := (sub_eq_add_neg p d).symm

theorem add_shift_forth (p d : ℤ) : p + shift .forth d = p + d := rfl

/-- The single steps of a batch. Without a circular list the copy of the cursor must not be
advanced over the end. -/
def batchSteps (dir : Direction) (sem : Sentinel) (position size : ℕ) (delta : ℤ) :
    Except UB ℕ := do
  if ← arith dir position size delta then
    if sem = .cyclic ∨ position + shift dir delta ≤ size then .ok delta.toNat
    else .error .incrementEnd
  else .ok 0

/-- The single steps of a batch that is defined. -/
def batchCount (dir : Direction) (position size : ℕ) (delta : ℤ) : ℕ :=
  if UndoableCmdSystem.inBounds (toInt position + shift dir delta) size then delta.toNat else 0

/-- The iterations of `erase(n)` that remove something, or would with more to remove. A negative
count runs until the counter overflows, unless the list is empty before that. -/
def eraseSteps (sem : Sentinel) (position size : ℕ) (n : ℤ) : Except UB ℕ :=
  if n ≤ intMin then .error .intOverflow
  else if n = 0 ∨ size = 0 then .ok 0
  else if position = 0 ∧ sem = .standard then .error .decrementBegin
  else if 0 ≤ n then .ok n.toNat
  else if position = 0 ∧ size < n - intMin then .ok size
  else .error .intOverflow

/-- A batch that is let pass was so by its guard. -/
theorem arith_eq_ok {dir : Direction} {p s : ℕ} {d : ℤ} {b : Bool} (h : arith dir p s d = .ok b) :
    b = UndoableCmdSystem.inBounds (toInt p + shift dir d) s := by
  cases dir with
  | back =>
    obtain ⟨posNew, hn, h⟩ := Machine.bind_eq_ok.mp h
    obtain ⟨-, rfl⟩ := intResult_eq_ok.mp hn
    rw [add_shift_back]
    by_cases hg : UndoableCmdSystem.inBounds (toInt p - d) s = true
    · rw [if_pos hg] at h
      obtain ⟨-, -, h⟩ := Machine.bind_eq_ok.mp h
      cases h
      exact hg.symm
    · rw [if_neg hg] at h
      cases h
      exact (Bool.eq_false_of_not_eq_true hg).symm
  | forth =>
    obtain ⟨posNew, hn, h⟩ := Machine.bind_eq_ok.mp h
    obtain ⟨-, rfl⟩ := intResult_eq_ok.mp hn
    rw [add_shift_forth]
    exact (Except.ok.inj h).symm

/-- Whenever a batch is defined, it takes the same number of steps by either reading. -/
theorem batchSteps_eq_ok {dir : Direction} {sem : Sentinel} {p s n : ℕ} {d : ℤ}
    (h : batchSteps dir sem p s d = .ok n) : n = batchCount dir p s d := by
  obtain ⟨b, ha, hn⟩ := Machine.bind_eq_ok.mp h
  rw [batchCount, ← arith_eq_ok ha]
  cases b with
  | false => exact (Except.ok.inj hn).symm
  | true =>
    rw [if_pos rfl] at hn
    split at hn
    · exact (Except.ok.inj hn).symm
    · cases hn

namespace Verbose

variable {μ τ : Type} {print : μ → Except UB τ} {sem : Sentinel} {c : CmdId} {d : ℤ}

/-- `undo(CmdSP &, int)` and `redo(CmdSP, int)` -/
def batch (print : μ → Except UB τ) (sem : Sentinel) (c : CmdId) (delta : ℤ) :
    Direction → UndoableCmdSystem μ → Except UB (UndoableCmdSystem μ × List (Line τ))
  | .back => undoBy print sem c delta
  | .forth => redoBy print sem c delta

/-- A batch is its arithmetic, followed by the steps if that lets them pass. -/
theorem batch_eq (dir : Direction) (s : UndoableCmdSystem μ) : batch print sem c d dir s = do
    let pos ← s.position
    if ← arith dir pos s.size d then
      let _ ← s._savedStates.advance sem s._position (shift dir d)
      loop (single print sem c dir) d.toNat s
    else return (s, []) := by
  cases dir with
  | back =>
    rw [batch, undoBy, dif_neg not_hasUndo]
    cases s.position with
    | error e => simp only [Machine.error_bind]
    | ok pos =>
      simp only [Machine.ok_bind, arith, undoArith]
      cases hn : intResult (toInt pos - d) with
      | error e => simp only [Machine.error_bind]
      | ok posNew =>
        simp only [Machine.ok_bind]
        by_cases hg : UndoableCmdSystem.inBounds posNew s.size = true
        · rw [if_pos hg, if_pos hg]
          cases hk : intResult (-d) with
          | error e => simp only [Machine.error_bind]
          | ok k =>
            obtain ⟨-, rfl⟩ := intResult_eq_ok.mp hk
            simp only [Machine.ok_bind, Machine.pure_eq_ok, if_true]
            rfl
        · rw [if_neg hg, if_neg hg]
          simp only [Machine.ok_bind, Machine.pure_eq_ok, Bool.false_eq_true, if_false]
  | forth =>
    rw [batch, redoBy, dif_neg not_hasRedo]
    cases s.position with
    | error e => simp only [Machine.error_bind]
    | ok pos =>
      simp only [Machine.ok_bind, arith, redoArith]
      cases hn : intResult (toInt pos + d) with
      | error e => simp only [Machine.error_bind]
      | ok posNew =>
        simp only [Machine.ok_bind, Machine.pure_eq_ok]
        rfl

end Verbose

namespace History

variable {μ τ : Type} {h : History μ} {n d : ℤ} {k : ℕ} {sem : Sentinel} {c : CmdId}
  {dir : Direction} {print : μ → Except UB τ}

def batch (dir : Direction) (sem : Sentinel) (delta : ℤ) (h : History μ) :
    Except UB (History μ) :=
  (batchSteps dir sem h.pos h.size delta).map fun n => (move dir)^[n] h

def erase (sem : Sentinel) (n : ℤ) (h : History μ) : Except UB (History μ) :=
  (eraseSteps sem h.pos h.size n).map fun k => h.drop k

/-- The lines of `n` single steps. -/
def lines (print : μ → Except UB τ) (dir : Direction) :
    ℕ → History μ → Except UB (List (Line τ))
  | 0, _ => .ok []
  | n + 1, h => do
    let first ← h.line print dir
    let rest ← lines print dir n (h.move dir)
    return first ++ rest

/-! A batch takes single steps: what one of them keeps, the batch keeps. -/

theorem serial_iterate_move (dir : Direction) (k : ℕ) (h : History μ) :
    ((move dir)^[k] h).serial = h.serial :=
  congrFun (Function.iterate_invariant (g := serial) (by cases dir <;> rfl) k) h

theorem limit_iterate_move (dir : Direction) (k : ℕ) (h : History μ) :
    ((move dir)^[k] h).limit = h.limit :=
  congrFun (Function.iterate_invariant (g := limit) (by cases dir <;> rfl) k) h

/-- The nodes move as the entries of the two stacks do. -/
theorem stack_iterate_move (dir : Direction) (k : ℕ) (h : History μ) :
    ((move dir)^[k] h).stack = (TwoStack.move dir)^[k] h.stack :=
  Function.Semiconj.iterate_right (f := stack) (by cases dir <;> exact fun _ => rfl) k h

/-- The same nodes stay in the list, in the same order. -/
theorem entries_iterate_move (dir : Direction) (k : ℕ) (h : History μ) :
    ((move dir)^[k] h).stack.entries = h.stack.entries := by
  rw [stack_iterate_move, TwoStack.entries_iterate_move]

/-- A batch keeps every node. -/
theorem size_iterate_move (dir : Direction) (k : ℕ) (h : History μ) :
    ((move dir)^[k] h).size = h.size :=
  congrArg List.length (entries_iterate_move dir k h)

@[simp] theorem serial_iterate_undo (k : ℕ) (h : History μ) : (undo^[k] h).serial = h.serial :=
  serial_iterate_move .back k h

@[simp] theorem limit_iterate_undo (k : ℕ) (h : History μ) : (undo^[k] h).limit = h.limit :=
  limit_iterate_move .back k h

@[simp] theorem stack_iterate_undo (k : ℕ) (h : History μ) :
    (undo^[k] h).stack = TwoStack.undo^[k] h.stack :=
  stack_iterate_move .back k h

@[simp] theorem serial_iterate_redo (k : ℕ) (h : History μ) : (redo^[k] h).serial = h.serial :=
  serial_iterate_move .forth k h

@[simp] theorem limit_iterate_redo (k : ℕ) (h : History μ) : (redo^[k] h).limit = h.limit :=
  limit_iterate_move .forth k h

@[simp] theorem stack_iterate_redo (k : ℕ) (h : History μ) :
    (redo^[k] h).stack = TwoStack.redo^[k] h.stack :=
  stack_iterate_move .forth k h

@[simp] theorem size_iterate_undo (k : ℕ) (h : History μ) : (undo^[k] h).size = h.size :=
  size_iterate_move .back k h

@[simp] theorem size_iterate_redo (k : ℕ) (h : History μ) : (redo^[k] h).size = h.size :=
  size_iterate_move .forth k h

@[simp] theorem pos_iterate_undo (k : ℕ) (h : History μ) : (undo^[k] h).pos = h.pos - k := by
  rw [pos, stack_iterate_undo, TwoStack.iterate_undo, List.length_drop, pos]

/-- Redo moves the cursor as far as there is something to redo. -/
theorem pos_iterate_redo (k : ℕ) (h : History μ) :
    (redo^[k] h).pos = min (h.pos + k) h.size := by
  rw [pos, stack_iterate_redo, TwoStack.iterate_redo, size_eq]
  simp only [List.length_append, List.length_reverse, List.length_take, pos]
  omega

/-! Batch undo and redo -/

/-- A copy of the cursor is advanced inside the list, or round a circular one. -/
theorem advance_toMgr (h : History μ) {k : ℤ} (h0 : 0 ≤ h.pos + k)
    (hc : sem = .cyclic ∨ h.pos + k ≤ h.size) :
    ∃ it, h.toMgr._savedStates.advance sem h.toMgr._position k = .ok it := by
  by_cases hin : h.pos + k ≤ h.size
  · exact StdList.advance_inside (locate_toMgr h) h0 hin
  · rcases hc with rfl | hc
    · exact StdList.advance_cyclic (live_toMgr h) k
    · exact absurd hc hin

/-- By the standard a trial cursor beyond `end()` is undefined. -/
theorem advance_error (h : History μ) {k : ℤ} (hc : ¬ (sem = .cyclic ∨ h.pos + k ≤ h.size)) :
    h.toMgr._savedStates.advance sem h.toMgr._position k = .error .incrementEnd := by
  obtain ⟨hsem, hout⟩ := not_or.mp hc
  cases sem with
  | standard => exact StdList.advance_beyond (locate_toMgr h) (not_le.mp hout)
  | cyclic => exact absurd rfl hsem

/-- The guard of a batch refuses the position 0. -/
theorem pos_of_inBounds {x : ℤ} {n : ℕ} (hg : UndoableCmdSystem.inBounds x n = true) : 0 < x := by
  rw [UndoableCmdSystem.inBounds, Bool.and_eq_true, decide_eq_true_iff] at hg
  exact hg.1

/-- In the range of `int` the mixed comparison is the comparison of integers. -/
theorem inBounds_of_fits {x : ℤ} {n : ℕ} (hx : FitsInt x) :
    UndoableCmdSystem.inBounds x n = true ↔ 0 < x ∧ x ≤ n := by
  rw [UndoableCmdSystem.inBounds, Bool.and_eq_true, decide_eq_true_iff, decide_eq_true_iff]
  constructor
  · rintro ⟨hpos, hle⟩
    rw [toSizeType_of_fits hx hpos.le] at hle
    omega
  · rintro ⟨hpos, hle⟩
    rw [toSizeType_of_fits hx hpos.le]
    omega

theorem lines_mute (dir : Direction) (n : ℕ) (h : History μ) :
    ∃ ls, h.lines UndoableCmdSystem.mute dir n = .ok ls := by
  induction n generalizing h with
  | zero => exact ⟨_, rfl⟩
  | succ n ih =>
    obtain ⟨first, hfirst⟩ := line_mute dir h
    obtain ⟨rest, hrest⟩ := ih (h.move dir)
    exact ⟨first ++ rest, by rw [lines, hfirst, Machine.ok_bind, hrest]; rfl⟩

/-- The loop of a batch moves one node a time and prints one line a node. -/
theorem loop_toMgr (dir : Direction) (n : ℕ) (h : History μ) :
    Verbose.loop (Verbose.single print sem c dir) n h.toMgr =
      (h.lines print dir n).map fun ls => (((move dir)^[n] h).toMgr, ls) := by
  induction n generalizing h with
  | zero => rfl
  | succ n ih =>
    rw [Verbose.loop, single_toMgr, lines]
    cases h.line print dir with
    | error e => rfl
    | ok first =>
      simp only [Machine.map_ok, Machine.ok_bind, ih]
      cases (h.move dir).lines print dir n <;> rfl

/-- A batch is undefined, or takes its single steps and prints their lines. -/
theorem batch_toMgr (dir : Direction) (h : History μ) (d : ℤ) :
    Verbose.batch print sem c d dir h.toMgr = batchSteps dir sem h.pos h.size d >>= fun n =>
      (h.lines print dir n).map fun ls => (((move dir)^[n] h).toMgr, ls) := by
  have hle := toInt_le (Int.natCast_nonneg h.pos)
  rw [Verbose.batch_eq, position_toMgr, Machine.ok_bind, size_toMgr, batchSteps]
  cases ha : arith dir h.pos h.size d with
  | error e => simp only [Machine.error_bind]
  | ok b =>
    have hg := arith_eq_ok ha
    simp only [Machine.ok_bind]
    cases b with
    | false =>
      simp only [Bool.false_eq_true, if_false]
      rfl
    | true =>
      have hpos := pos_of_inBounds hg.symm
      simp only [if_true]
      by_cases hc : sem = .cyclic ∨ h.pos + shift dir d ≤ h.size
      · obtain ⟨it, hit⟩ := advance_toMgr h (by omega) hc
        rw [hit, Machine.ok_bind, loop_toMgr, if_pos hc, Machine.ok_bind]
      · rw [advance_error h hc, if_neg hc, Machine.error_bind, Machine.error_bind]

theorem batch_mute (dir : Direction) (h : History μ) (d : ℤ) :
    (Verbose.batch UndoableCmdSystem.mute sem c d dir h.toMgr).map Prod.fst =
      (h.batch dir sem d).map toMgr := by
  rw [batch_toMgr, batch]
  cases batchSteps dir sem h.pos h.size d with
  | error e => rfl
  | ok n =>
    obtain ⟨ls, hls⟩ := lines_mute dir n h
    rw [Machine.ok_bind, hls]
    rfl

theorem undoBy_toMgr (h : History μ) (d : ℤ) :
    h.toMgr.undoBy sem c d = (h.batch .back sem d).map toMgr := batch_mute .back h d

theorem redoBy_toMgr (h : History μ) (d : ℤ) :
    h.toMgr.redoBy sem c d = (h.batch .forth sem d).map toMgr := batch_mute .forth h d

/-- Where the narrowing of `position()` and the sum are exact, so is the guard. -/
theorem batchSteps_exact {p s : ℕ} (hp : FitsInt p) (hd : FitsInt (p + shift dir d)) :
    batchSteps dir sem p s d =
      .ok (if 0 < p + shift dir d ∧ p + shift dir d ≤ s then d.toNat else 0) := by
  have hneg : 0 < (p : ℤ) - d → FitsInt (p - d) → FitsInt (-d) := by
    intro hpos hfit
    obtain ⟨-, hhi⟩ := hfit
    obtain ⟨-, hhi'⟩ := hp
    constructor <;> simp only [intMin, intMax] at * <;> omega
  have harith : arith dir p s d = .ok (decide (0 < p + shift dir d ∧ p + shift dir d ≤ s)) := by
    have hg := inBounds_of_fits (n := s) hd
    cases dir with
    | back =>
      rw [add_shift_back] at hd hg ⊢
      rw [arith, undoArith, toInt_of_fits hp, intResult_of_fits hd, Machine.ok_bind]
      by_cases hin : UndoableCmdSystem.inBounds (p - d) s = true
      · have hpos := hg.mp hin
        rw [if_pos hin, intResult_of_fits (hneg hpos.1 hd), decide_eq_true hpos]
        rfl
      · rw [if_neg hin, decide_eq_false (hg.not.mp hin)]
        rfl
    | forth =>
      rw [add_shift_forth] at hd hg ⊢
      rw [arith, redoArith, toInt_of_fits hp, intResult_of_fits hd, Machine.ok_bind]
      exact congrArg Except.ok (Bool.eq_iff_iff.mpr (hg.trans decide_eq_true_iff.symm))
  rw [batchSteps, harith, Machine.ok_bind]
  by_cases hin : 0 < p + shift dir d ∧ p + shift dir d ≤ s
  · rw [decide_eq_true hin, if_pos rfl, if_pos (Or.inr hin.2), if_pos hin]
  · rw [decide_eq_false hin, if_neg Bool.false_ne_true, if_neg hin]

/-- With no overflow a batch undo stops short of position 0, or does nothing. -/
theorem undoBy_exact (hp : FitsInt h.pos) (hd : FitsInt (h.pos - d)) :
    h.batch .back sem d = .ok (if d < h.pos then undo^[d.toNat] h else h) := by
  have hle := h.pos_le_size
  rw [← add_shift_back] at hd
  rw [batch, batchSteps_exact hp hd, Machine.map_ok, add_shift_back]
  by_cases hlt : d < h.pos
  · rw [if_pos hlt]
    split
    · rfl
    · have hzero : d.toNat = 0 := by omega
      rw [hzero]
      rfl
  · rw [if_neg hlt, if_neg (by omega)]
    rfl

/-- With no overflow a batch redo goes as far as `end()`, or does nothing. -/
theorem redoBy_exact (hp : FitsInt h.pos) (hd : FitsInt (h.pos + d)) :
    h.batch .forth sem d = .ok (if h.pos + d ≤ h.size then redo^[d.toNat] h else h) := by
  rw [← add_shift_forth] at hd
  rw [batch, batchSteps_exact hp hd, Machine.map_ok, add_shift_forth]
  by_cases hin : h.pos + d ≤ h.size
  · rw [if_pos hin]
    split
    · rfl
    · have hzero : d.toNat = 0 := by omega
      rw [hzero]
      rfl
  · rw [if_neg hin, if_neg (by omega)]
    rfl

/-! `erase` -/

@[simp] theorem drop_zero (h : History μ) : h.drop 0 = h := ext rfl rfl rfl

theorem drop_of_future_nil (k : ℕ) (hf : h.stack.future = []) : h.drop k = h := by
  refine ext ?_ rfl rfl
  obtain ⟨⟨_, _⟩, _, _, _, _⟩ := h
  cases hf
  simp [drop, withStacks, TwoStack.erase]

@[simp] theorem drop_drop (j k : ℕ) (h : History μ) : (h.drop j).drop k = h.drop (j + k) := by
  refine ext ?_ rfl rfl
  simp [drop, withStacks, TwoStack.erase]

/-- Erasing leaves the cursor where a further erasure is as safe. -/
theorem CanErase.drop (hc : h.CanErase sem) (k : ℕ) : (h.drop k).CanErase sem := by
  rcases hc with hc | hc | hc
  · exact Or.inl hc
  · exact Or.inr (Or.inl hc)
  · rw [drop_of_future_nil k hc]
    exact Or.inr (Or.inr hc)

theorem eraseOne_eq {s : UndoableCmdSystem μ} {l : StdList μ} {pred it : Iter}
    (he : s._savedStates.eq s._position .pastEnd = .ok false)
    (hp : s._savedStates.prev sem s._position = .ok pred)
    (hl : s._savedStates.erase s._position = .ok l) (hn : l.next sem pred = .ok it) :
    s.eraseOne sem = .ok { s with _savedStates := l, _position := it } := by
  simp [UndoableCmdSystem.eraseOne, he, hp, hl, hn]

theorem nodes_drop_one {n : Node μ} {future : List (Node μ)} (hf : h.stack.future = n :: future) :
    (h.drop 1).toList.nodes = h.stack.past.reverse ++ future := by
  simp [toList, drop, withStacks, TwoStack.erase, TwoStack.entries, hf]

/-- Back over the predecessor, and forward again in the list without the erased node. -/
theorem back_and_forward {n : Node μ} {future : List (Node μ)} (hf : h.stack.future = n :: future)
    (hc : h.CanErase sem) : ∃ pred, h.toMgr._savedStates.prev sem (.node n.id) = .ok pred ∧
      (h.drop 1).toList.next sem pred = .ok (.toHead future) := by
  have hlist := nodes_drop_one hf
  cases hp : h.stack.past with
  | nil =>
    -- `--begin()` is the end of a circular list, and `++end()` its new first node
    obtain rfl : sem = .cyclic := by
      rcases hc with hc | hc | hc
      · exact hc
      · exact absurd hp hc
      · simp [hf] at hc
    have hsplit : h.toMgr._savedStates.nodes = n :: future := by simp [nodes_toMgr, hp, hf]
    refine ⟨.pastEnd, StdList.prev_begin hsplit, ?_⟩
    rw [StdList.next_pastEnd, hlist, hp]
    rfl
  | cons a past =>
    have hsplit : h.toMgr._savedStates.nodes = past.reverse ++ a :: n :: future := by
      simp [nodes_toMgr, hp, hf]
    refine ⟨.node a.id, StdList.prev_split hsplit, ?_⟩
    apply StdList.next_split
    simpa [hp] using hlist

theorem eraseOne_toMgr (h : History μ) (hc : h.CanErase sem) :
    h.toMgr.eraseOne sem = .ok (h.drop 1).toMgr := by
  cases hf : h.stack.future with
  | nil =>
    rw [drop_of_future_nil 1 hf, UndoableCmdSystem.eraseOne, eq_pastEnd_toMgr, hf]
    rfl
  | cons n future =>
    have hpos : h.toMgr._position = .node n.id := by simp [position_eq, hf, Iter.toHead]
    have hn : h.toMgr._savedStates.nodes = h.stack.past.reverse ++ n :: future := by
      simp [nodes_toMgr, hf]
    have he : h.toMgr._savedStates.eq h.toMgr._position .pastEnd = .ok false := by
      rw [eq_pastEnd_toMgr, hf]
      rfl
    have herase : h.toMgr._savedStates.erase h.toMgr._position = .ok (h.drop 1).toList := by
      rw [hpos, StdList.erase_split hn]
      exact congrArg _ (StdList.ext (by rw [nodes_drop_one hf]; rfl) rfl)
    have hdrop : (h.drop 1).toMgr = ⟨(h.drop 1).toList, .toHead future, h.limit⟩ := by
      simp [toMgr, drop, withStacks, TwoStack.erase, hf]
    obtain ⟨pred, hprev, hnext⟩ := back_and_forward hf hc
    rw [hdrop]
    exact eraseOne_eq he (hpos ▸ hprev) herase hnext

/-- With nothing before the cursor, the step back passes `begin()`. -/
theorem eraseOne_error (h : History μ) (hc : ¬ h.CanErase sem) :
    h.toMgr.eraseOne sem = .error .decrementBegin := by
  obtain ⟨hsem, hp, hf⟩ : sem ≠ .cyclic ∧ h.stack.past = [] ∧ h.stack.future ≠ [] := by
    simpa [CanErase] using hc
  obtain rfl : sem = .standard := by
    cases sem with
    | standard => rfl
    | cyclic => exact absurd rfl hsem
  have hn : h.toMgr._savedStates.nodes = h.stack.future := by simp [nodes_toMgr, hp]
  have hprev : h.toMgr._savedStates.prev .standard h.toMgr._position = .error .decrementBegin :=
    StdList.prev_begin hn
  have he : h.toMgr._savedStates.eq h.toMgr._position .pastEnd = .ok false := by
    rw [eq_pastEnd_toMgr]
    simpa using hf
  rw [UndoableCmdSystem.eraseOne]
  simp [he, hprev]

/-- The loop with enough counts left: it erases as many as it was asked for. -/
theorem eraseLoop_of_lt (fuel : ℕ) (hk : k < fuel) (hc : h.CanErase sem) :
    h.toMgr.eraseLoop sem fuel k = .ok (h.drop k).toMgr := by
  have he := empty_iff h
  induction k generalizing fuel h with
  | zero =>
    obtain ⟨fuel, rfl⟩ : ∃ m, fuel = m + 1 := ⟨fuel - 1, by omega⟩
    rw [UndoableCmdSystem.eraseLoop, if_pos (Or.inl Nat.cast_zero), drop_zero]
  | succ k ih =>
    obtain ⟨fuel, rfl⟩ : ∃ m, fuel = m + 1 := ⟨fuel - 1, by omega⟩
    rw [UndoableCmdSystem.eraseLoop]
    by_cases hsize : h.size = 0
    · have hf : h.stack.future = [] := by
        rw [size_eq] at hsize
        exact List.length_eq_zero_iff.mp (by omega)
      rw [if_pos (Or.inr (he.mpr hsize)), drop_of_future_nil _ hf]
    · have hne : ((k + 1 : ℕ) : ℤ) ≠ 0 := by omega
      have hpred : ((k + 1 : ℕ) : ℤ) - 1 = k := by omega
      rw [if_neg (not_or.mpr ⟨hne, he.not.mpr hsize⟩), eraseOne_toMgr h hc, Machine.ok_bind, hpred,
        ih fuel (by omega) (hc.drop 1) (empty_iff _), drop_drop, Nat.add_comm]

/-- With something before the cursor a negative count runs down to the overflow. -/
theorem eraseLoop_neg (fuel : ℕ) (hn : n < 0) (hp : h.pos ≠ 0) :
    h.toMgr.eraseLoop sem fuel n = .error .intOverflow := by
  induction fuel generalizing n h with
  | zero => rfl
  | succ fuel ih =>
    have hsize : h.size ≠ 0 := by
      rw [size_eq]
      omega
    have hc : h.CanErase sem := Or.inr (Or.inl fun hnil => hp (by rw [pos, hnil]; rfl))
    rw [UndoableCmdSystem.eraseLoop, if_neg (not_or.mpr ⟨hn.ne, (empty_iff h).not.mpr hsize⟩),
      eraseOne_toMgr h hc, Machine.ok_bind]
    exact ih (by omega) hp

/-- With nothing before the cursor, a negative count drains the list if it can. -/
theorem eraseLoop_drain (fuel : ℕ) (hn : n < 0) (hp : h.pos = 0) :
    h.toMgr.eraseLoop .cyclic fuel n =
      if h.size < fuel then .ok (h.drop h.size).toMgr else .error .intOverflow := by
  induction fuel generalizing n h with
  | zero => rfl
  | succ fuel ih =>
    have hcan : h.CanErase .cyclic := Or.inl rfl
    have hpos : (h.drop 1).pos = 0 := hp
    rw [UndoableCmdSystem.eraseLoop]
    by_cases h0 : h.size = 0
    · rw [if_pos (Or.inr ((empty_iff h).mpr h0)), if_pos (by omega), h0, drop_zero]
    · have hdrop : (h.drop 1).size = h.size - 1 := by
        have hfuture : (h.drop 1).stack.future = h.stack.future.drop 1 := rfl
        rw [size_eq, size_eq, hpos, hp, hfuture, List.length_drop]
        omega
      rw [if_neg (not_or.mpr ⟨hn.ne, (empty_iff h).not.mpr h0⟩), eraseOne_toMgr h hcan,
        Machine.ok_bind, ih (by omega) hpos, hdrop, drop_drop]
      by_cases hf : h.size - 1 < fuel
      · rw [if_pos hf, if_pos (by omega), Nat.add_sub_cancel' (by omega)]
      · rw [if_neg hf, if_neg (by omega)]

/-- In a list that is not empty, only the step back at `begin()` can fail. -/
theorem canErase_of_ne (sem : Sentinel) (h0 : h.size ≠ 0) :
    h.CanErase sem ↔ ¬ (h.pos = 0 ∧ sem = .standard) := by
  have hnil : h.stack.past = [] ↔ h.pos = 0 := List.length_eq_zero_iff.symm
  have hboth : ¬ (h.pos = 0 ∧ h.stack.future = []) := by
    rintro ⟨hp, hf⟩
    rw [size_eq, hp, hf] at h0
    exact h0 rfl
  rw [CanErase, Ne, hnil]
  cases sem with
  | standard =>
    simp only [reduceCtorEq, false_or, and_true]
    tauto
  | cyclic => simp

/-- The loop of `erase(n)`; a negative `n` counts down until the list or `int` is exhausted. -/
theorem erase_toMgr (n : ℤ) (h : History μ) :
    h.toMgr.erase sem n = (h.erase sem n).map toMgr := by
  rw [UndoableCmdSystem.erase, erase, eraseSteps]
  by_cases hmin : n ≤ intMin
  · have hfuel : (n - intMin).toNat = 0 := by omega
    rw [if_pos hmin, hfuel]
    rfl
  obtain ⟨fuel, hf⟩ := Nat.exists_eq_succ_of_ne_zero (n := (n - intMin).toNat) (by omega)
  rw [if_neg hmin]
  by_cases hstop : n = 0 ∨ h.size = 0
  · rw [if_pos hstop, hf, UndoableCmdSystem.eraseLoop,
      if_pos (hstop.imp_right (empty_iff h).mpr), Machine.map_ok, Machine.map_ok, drop_zero]
  have hcan := canErase_of_ne sem (not_or.mp hstop).2
  rw [if_neg hstop]
  by_cases hbegin : h.pos = 0 ∧ sem = .standard
  · have hno : ¬ h.CanErase sem := hcan.not.mpr (not_not.mpr hbegin)
    rw [if_pos hbegin, hf, UndoableCmdSystem.eraseLoop,
      if_neg (fun hs => hstop (hs.imp_right (empty_iff h).mp)), eraseOne_error h hno]
    rfl
  rw [if_neg hbegin]
  by_cases h0 : 0 ≤ n
  · obtain ⟨k, rfl⟩ : ∃ k : ℕ, n = k := ⟨n.toNat, by omega⟩
    rw [if_pos h0, eraseLoop_of_lt _ (by simp only [intMin]; omega) (hcan.mpr hbegin)]
    rfl
  rw [if_neg h0]
  by_cases hp : h.pos = 0
  · obtain rfl : sem = .cyclic := by
      cases sem with
      | standard => exact absurd ⟨hp, rfl⟩ hbegin
      | cyclic => rfl
    rw [eraseLoop_drain _ (not_le.mp h0) hp]
    by_cases hlt : h.size < n - intMin
    · rw [if_pos (by omega), if_pos ⟨hp, hlt⟩]
      rfl
    · rw [if_neg (by omega), if_neg (fun hc => hlt hc.2)]
      rfl
  · rw [eraseLoop_neg _ (not_le.mp h0) hp, if_neg (fun hc => hp hc.1)]
    rfl

/-- For a count that is not negative the loop stops, whatever there is to erase. -/
theorem erase_of_nonneg (hn : 0 ≤ n) (hc : h.CanErase sem) :
    h.erase sem n = .ok (h.drop n.toNat) := by
  have hlo : ¬ n ≤ intMin := by simp only [intMin]; omega
  rw [erase, eraseSteps, if_neg hlo]
  by_cases hstop : n = 0 ∨ h.size = 0
  · rw [if_pos hstop, Machine.map_ok, drop_zero]
    rcases hstop with rfl | hs
    · rw [Int.toNat_zero, drop_zero]
    · rw [size_eq] at hs
      rw [drop_of_future_nil _ (List.length_eq_zero_iff.mp (by omega))]
  · have hbegin := (canErase_of_ne sem (not_or.mp hstop).2).mp hc
    rw [if_neg hstop, if_neg hbegin, if_pos hn, Machine.map_ok]

theorem erase_error (hn : 0 < n) (hc : ¬ h.CanErase sem) :
    h.erase sem n = .error .decrementBegin := by
  have hlo : ¬ n ≤ intMin := by simp only [intMin]; omega
  have hsize : h.size ≠ 0 := by
    intro hs
    apply hc
    rw [size_eq] at hs
    exact Or.inr (Or.inr (List.length_eq_zero_iff.mp (by omega)))
  have hbegin := not_not.mp ((canErase_of_ne sem hsize).not.mp hc)
  rw [erase, eraseSteps, if_neg hlo, if_neg (not_or.mpr ⟨hn.ne', hsize⟩), if_pos hbegin,
    Machine.map_error]

end History

end UndoCxx
