import UndoCxx.Run

/-! Batch undo against single undo steps, and batches around an erasure. -/
namespace UndoCxx

open Cxx

variable {A μ : Type} {sem : Sentinel} {heap : Heap A μ} {a : A} {w : World A μ} {d : ℤ}
  {p n : ℕ} {c : CmdId} {k : Call}

/-- The manager that a few calls leave. -/
def mgrAfter (sem : Sentinel) (heap : Heap A μ) (w : World A μ) (ks : List Call) :
    Except UB (UndoableCmdSystem μ) :=
  (Machine.run (step sem heap) w ks).map World.mgr

/-- A batch undo of `d` does what `d` single undo steps do, or nothing when there are fewer. -/
def BatchUndoLaw (sem : Sentinel) (heap : Heap A μ) (w : World A μ) (p : ℕ) (d : ℤ) : Prop :=
  ∀ k c, AsksUndo heap d k → mgrAfter sem heap w [k] =
    if d ≤ p then mgrAfter sem heap w (List.replicate d.toNat (.undo c)) else .ok w.mgr

/-- A batch undo of one is the single undo step. -/
def SingleUndoLaw (sem : Sentinel) (heap : Heap A μ) (w : World A μ) : Prop :=
  ∀ k c, AsksUndo heap 1 k → mgrAfter sem heap w [k] = mgrAfter sem heap w [.undo c]

/-- `can_undo()` tells whether an undo command of delta 1 moves the cursor. -/
def CanUndoLaw (sem : Sentinel) (heap : Heap A μ) (w : World A μ) : Prop :=
  ∀ k, AsksUndo heap 1 k → (w.mgr.canUndo = .ok true ↔ Moves sem heap w k)

namespace Session

variable {x : Session A μ}

/-- Repeating a call that only changes the history iterates the change. -/
theorem run_replicate {f : History μ → History μ}
    (hk : ∀ x : Session A μ, x.step sem heap k = .ok { x with history := f x.history })
    (n : ℕ) (x : Session A μ) :
    Machine.run (step sem heap) x (List.replicate n k) =
      .ok { x with history := f^[n] x.history } := by
  induction n generalizing x with
  | zero => rfl
  | succ n ih =>
    rw [List.replicate_succ, Machine.run_cons, hk, Machine.ok_bind, ih]
    rfl

theorem mgrAfter_replicate {f : History μ → History μ}
    (hk : ∀ x : Session A μ, x.step sem heap k = .ok { x with history := f x.history })
    (n : ℕ) (x : Session A μ) :
    mgrAfter sem heap x.toWorld (List.replicate n k) = .ok (f^[n] x.history).toMgr := by
  rw [mgrAfter, run_toWorld, run_replicate hk]
  rfl

/-- `n` single undos. -/
theorem mgrAfter_undo (n : ℕ) (x : Session A μ) (c : CmdId) :
    mgrAfter sem heap x.toWorld (List.replicate n (.undo c)) =
      .ok (History.undo^[n] x.history).toMgr :=
  mgrAfter_replicate (fun x => step_undo x c) n x

theorem mgrAfter_redo (n : ℕ) (x : Session A μ) (c : CmdId) :
    mgrAfter sem heap x.toWorld (List.replicate n (.redo c)) =
      .ok (History.redo^[n] x.history).toMgr :=
  mgrAfter_replicate (fun x => step_redo x c) n x

theorem fits_pos {h : History μ} (hs : h.size ≤ intMax) : FitsInt h.pos := by
  have hle := h.pos_le_size
  simp only [intMax] at hs
  constructor <;> simp only [intMin, intMax] <;> omega

theorem mgrAfter_undoBy (hk : AsksUndo heap d k) (hs : x.history.size ≤ intMax) (h0 : 0 ≤ d)
    (hd : d ≤ intMax) : mgrAfter sem heap x.toWorld [k] =
      .ok (if d < x.history.pos then History.undo^[d.toNat] x.history else x.history).toMgr := by
  have hp : FitsInt x.history.pos := fits_pos hs
  have hfit : FitsInt (x.history.pos - d) := by
    obtain ⟨-, hhi⟩ := hp
    simp only [intMax] at hd hhi
    constructor <;> simp only [intMin, intMax] <;> omega
  rw [mgrAfter, run_toWorld, Machine.run_singleton, step, hk.request, History.handle,
    History.undoBy_exact hp hfit]
  rfl

theorem pos_eq_of_toMgr {h h' : History μ} (he : h.toMgr = h'.toMgr) : h.pos = h'.pos := by
  apply History.pos_of_position
  rw [he]
  exact History.position_toMgr h'

/-- The batch guard refuses exactly the undo that would empty the past. -/
theorem batch_iff {h : History μ} (hd : 0 ≤ d) :
    (if d < h.pos then History.undo^[d.toNat] h else h).toMgr =
        (if d ≤ h.pos then History.undo^[d.toNat] h else h).toMgr ↔ d = 0 ∨ d ≠ h.pos := by
  constructor
  · intro he
    by_cases hp : d = h.pos
    · have hpos := pos_eq_of_toMgr he
      rw [if_neg (by omega), if_pos (by omega), History.pos_iterate_undo] at hpos
      left
      omega
    · exact Or.inr hp
  · rintro (rfl | hp)
    · split <;> split <;> rfl
    · rcases lt_or_gt_of_ne hp with hlt | hgt
      · rw [if_pos hlt, if_pos hlt.le]
      · rw [if_neg (by omega), if_neg (by omega)]

/-- The law fails at one delta only: the one that would empty the past. -/
theorem batchUndoLaw_iff (hs : x.history.size ≤ intMax) (h0 : 0 ≤ d) (hd : d ≤ intMax) :
    BatchUndoLaw sem heap x.toWorld x.history.pos d ↔ d = 0 ∨ d ≠ x.history.pos := by
  have hright : ∀ c, (if d ≤ x.history.pos then
        mgrAfter sem heap x.toWorld (List.replicate d.toNat (.undo c)) else .ok x.toWorld.mgr) =
      .ok (if d ≤ x.history.pos then History.undo^[d.toNat] x.history else x.history).toMgr := by
    intro c
    split
    · exact mgrAfter_undo _ x c
    · rfl
  rw [← batch_iff h0]
  constructor
  · intro hlaw
    have hone := hlaw (.undoBy 0 d) 0 (.direct 0)
    rw [hright, mgrAfter_undoBy (k := .undoBy 0 d) (.direct 0) hs h0 hd] at hone
    exact Except.ok.inj hone
  · intro he k c hk
    rw [hright, mgrAfter_undoBy hk hs h0 hd, he]

theorem singleUndoLaw_iff (hs : x.history.size ≤ intMax) :
    SingleUndoLaw sem heap x.toWorld ↔ x.history.pos ≠ 1 := by
  have hone : (1 : ℤ) ≤ intMax := by simp [intMax]
  have hsingle : ∀ c, mgrAfter sem heap x.toWorld [.undo c] = .ok x.history.undo.toMgr :=
    mgrAfter_undo 1 x
  constructor
  · intro hlaw hp
    have he := hlaw (.undoBy 0 1) 0 (.direct 0)
    rw [hsingle, mgrAfter_undoBy (k := .undoBy 0 1) (.direct 0) hs Int.one_nonneg hone, hp,
      if_neg (by omega)] at he
    have hpos := pos_eq_of_toMgr (Except.ok.inj he)
    have hu : x.history.undo.pos = x.history.pos - 1 := History.pos_iterate_undo 1 _
    omega
  · intro hp k c hk
    rw [hsingle, mgrAfter_undoBy hk hs Int.one_nonneg hone]
    split
    · rfl
    · next hlt =>
      have hnil : x.history.stack.past = [] := by
        rw [History.pos] at hp hlt
        exact List.length_eq_zero_iff.mp (by omega)
      rw [History.undo_of_past_nil hnil]

theorem moves_iff (hk : AsksUndo heap 1 k) (hs : x.history.size ≤ intMax) :
    Moves sem heap x.toWorld k ↔ 1 < x.history.pos := by
  have hone : (1 : ℤ) ≤ intMax := by simp [intMax]
  have hafter : mgrAfter sem heap x.toWorld [k] = _ := mgrAfter_undoBy hk hs Int.one_nonneg hone
  rw [mgrAfter, Machine.run_singleton, Machine.map_eq_ok] at hafter
  obtain ⟨v, hv, hm⟩ := hafter
  have hp : x.toWorld.mgr.position = .ok x.history.pos := History.position_toMgr _
  constructor
  · rintro ⟨v', hv', hne⟩
    rw [hv] at hv'
    cases hv'
    rw [hm, hp, History.position_toMgr] at hne
    by_contra hle
    rw [if_neg (by omega)] at hne
    exact hne rfl
  · intro hlt
    refine ⟨v, hv, ?_⟩
    rw [hm, hp, if_pos (by omega), History.position_toMgr, History.pos_iterate_undo]
    intro he
    have := Except.ok.inj he
    omega

/-- `can_undo()` promises one undo more than a batch of one makes. -/
theorem canUndoLaw_iff (hs : x.history.size ≤ intMax) :
    CanUndoLaw sem heap x.toWorld ↔ x.history.pos ≠ 1 := by
  have hcan : x.toWorld.mgr.canUndo = .ok true ↔ x.history.pos ≠ 0 := by
    rw [toWorld, History.canUndo_toMgr, History.pos]
    cases x.history.stack.past <;> simp
  constructor
  · intro hlaw hp
    have := (hlaw (.undoBy 0 1) (.direct 0)).mp (hcan.mpr (by omega))
    rw [moves_iff (k := .undoBy 0 1) (.direct 0) hs] at this
    omega
  · intro hp k hk
    rw [hcan, moves_iff hk hs]
    omega

end Session

/-- Batch undo, the single step and `can_undo()` agree except that the strict guard of the batch
refuses to go back to the very start of the history. -/
theorem batch_undo_agrees_iff (hw : Reachable sem heap a w) (hp : w.mgr.position = .ok p)
    (hs : w.mgr.size ≤ intMax) :
    (∀ d, 0 ≤ d → d ≤ intMax → (BatchUndoLaw sem heap w p d ↔ d = 0 ∨ d ≠ p)) ∧
      (SingleUndoLaw sem heap w ↔ p ≠ 1) ∧ (CanUndoLaw sem heap w ↔ p ≠ 1) := by
  obtain ⟨x, rfl⟩ := hw.session
  obtain rfl : x.history.pos = p := History.pos_of_position hp
  refine ⟨?_, Session.singleUndoLaw_iff hs, Session.canUndoLaw_iff hs⟩
  intro d h0 hd
  exact Session.batchUndoLaw_iff hs h0 hd

/-- Three recorded commands, where a batch undo of all three is refused. -/
theorem batch_undo_agrees_counter :
    ∃ w, Machine.run (step .standard counterHeap) (.start 0) [.invoke 2, .invoke 3, .invoke 2] =
        .ok w ∧ BatchUndoLaw .standard counterHeap w 3 2 ∧
      ¬ BatchUndoLaw .standard counterHeap w 3 3 := by
  obtain ⟨w, hw⟩ : ∃ w, Machine.run (step .standard counterHeap) (.start 0)
      [.invoke 2, .invoke 3, .invoke 2] = .ok w := ⟨_, rfl⟩
  have hp : w.mgr.position = .ok 3 := by cases hw; rfl
  have hs : w.mgr.size ≤ intMax := by cases hw; decide
  have hlaw := (batch_undo_agrees_iff ⟨_, hw⟩ hp hs).1
  refine ⟨w, hw, (hlaw 2 (by decide) (by decide)).mpr (Or.inr (by decide)), ?_⟩
  rw [hlaw 3 (by decide) (by decide)]
  decide

/-- With one recorded command `can_undo()` holds and the single step goes back, while an undo
command of delta 1 does nothing. -/
theorem batch_undo_refuses_last :
    ∃ w, Machine.run (step .standard counterHeap) (.start 0) [.invoke 2] = .ok w ∧
      w.mgr.canUndo = .ok true ∧
      mgrAfter .standard counterHeap w [.invoke 0] = .ok w.mgr ∧
      mgrAfter .standard counterHeap w [.undo 0] ≠ .ok w.mgr ∧
      ¬ BatchUndoLaw .standard counterHeap w 1 1 := by
  obtain ⟨w, hw⟩ : ∃ w, Machine.run (step .standard counterHeap) (.start 0) [.invoke 2] = .ok w :=
    ⟨_, rfl⟩
  have hbatch : mgrAfter .standard counterHeap w [.invoke 0] = .ok w.mgr := by cases hw; rfl
  have hsingle : mgrAfter .standard counterHeap w [.undo 0] ≠ .ok w.mgr := by
    cases hw
    intro h
    have hpos := congrArg UndoableCmdSystem._position (Except.ok.inj h)
    revert hpos
    decide
  refine ⟨w, hw, by cases hw; rfl, hbatch, hsingle, ?_⟩
  intro hlaw
  apply hsingle
  have hone := hlaw (.invoke 0) 0 (.command 0 rfl)
  rw [hbatch] at hone
  exact hone.symm

/-! Undo a batch, erase what comes next, redo the rest -/

namespace History

variable {h : History μ} {k m : ℕ}

/-- The three operations one after the other. -/
def cutOut (h : History μ) (k m : ℕ) : History μ :=
  History.redo^[k - m] ((History.undo^[k] h).drop m)

/-- What is undone can be redone. -/
theorem length_future_undo (hk : k ≤ h.pos) :
    (History.undo^[k] h).stack.future.length = k + h.stack.future.length := by
  have hpos := pos_iterate_undo k h
  have hsize := size_iterate_undo k h
  rw [size_eq, size_eq] at hsize
  omega

theorem size_drop (h : History μ) (m : ℕ) :
    (h.drop m).size = h.pos + (h.stack.future.length - m) := by
  rw [size_eq]
  simp [drop, withStacks, TwoStack.erase, pos]

/-- Exactly the `m` entries after the first `pos - k` are gone. -/
theorem nodes_cutOut (h : History μ) (k m : ℕ) :
    (h.cutOut k m).toMgr._savedStates.nodes =
      h.toMgr._savedStates.nodes.take (h.pos - k) ++
        h.toMgr._savedStates.nodes.drop (h.pos - k + m) := by
  have hu : h.stack.entries = (History.undo^[k] h).stack.entries := by
    rw [stack_iterate_undo, TwoStack.entries_iterate_undo]
  have hlen : (History.undo^[k] h).stack.past.reverse.length = h.pos - k := by
    rw [List.length_reverse, ← pos_iterate_undo]
    rfl
  have hcut : (h.cutOut k m).stack.entries = ((History.undo^[k] h).drop m).stack.entries := by
    rw [cutOut, stack_iterate_redo, TwoStack.entries_iterate_redo]
  change (h.cutOut k m).stack.entries =
    h.stack.entries.take (h.pos - k) ++ h.stack.entries.drop (h.pos - k + m)
  rw [hcut, hu, TwoStack.entries, TwoStack.entries, ← hlen, List.take_left, ← List.drop_drop,
    List.drop_left]
  rfl

theorem pos_cutOut (hm : m ≤ k) (hk : k < h.pos) : (h.cutOut k m).pos = h.pos - m := by
  have hfuture := length_future_undo hk.le
  have hpos := pos_iterate_undo k h
  have hd : ((History.undo^[k] h).drop m).pos = (History.undo^[k] h).pos := rfl
  rw [cutOut, pos_iterate_redo, size_drop, hd, hpos, hfuture]
  omega

/-- On a long enough past none of the three guards refuses. -/
theorem cutOut_steps (sem : Sentinel) (hm : m ≤ k) (hk : k < h.pos) (hs : h.size ≤ intMax) :
    h.batch .back sem k = .ok (History.undo^[k] h) ∧
      (History.undo^[k] h).erase sem m = .ok ((History.undo^[k] h).drop m) ∧
      ((History.undo^[k] h).drop m).batch .forth sem (k - m) = .ok (h.cutOut k m) := by
  have hle := h.pos_le_size
  have hfuture := length_future_undo hk.le
  have hpos := pos_iterate_undo k h
  have hd : ((History.undo^[k] h).drop m).pos = (History.undo^[k] h).pos := rfl
  simp only [intMax] at hs
  refine ⟨?_, ?_, ?_⟩
  · have hfit : FitsInt h.pos ∧ FitsInt (h.pos - k) := by
      constructor <;> constructor <;> simp only [intMin, intMax] <;> omega
    rw [undoBy_exact hfit.1 hfit.2, if_pos (by omega), Int.toNat_natCast]
  · have hne : (History.undo^[k] h).stack.past ≠ [] := by
      intro hnil
      rw [pos, hnil, List.length_nil] at hpos
      omega
    rw [erase_of_nonneg (Int.natCast_nonneg m) (Or.inr (Or.inl hne)), Int.toNat_natCast]
  · have hfit : FitsInt ((History.undo^[k] h).drop m).pos ∧
        FitsInt (((History.undo^[k] h).drop m).pos + ((k : ℤ) - m)) := by
      rw [hd, hpos]
      constructor <;> constructor <;> simp only [intMin, intMax] <;> omega
    have hcount : ((k : ℤ) - m).toNat = k - m := by omega
    rw [redoBy_exact hfit.1 hfit.2, size_drop, hd, hpos, hfuture, if_pos (by omega), hcount]
    rfl

end History

/-- The three calls undo, erase and redo are one cut. -/
theorem Session.run_cutOut {x : Session A μ} {k m : ℕ} (hm : m ≤ k) (hk : k < x.history.pos)
    (hs : x.history.size ≤ intMax) (c : CmdId) :
    Machine.run (Session.step sem heap) x [.undoBy c k, .erase m, .redoBy c (k - m)] =
      .ok { x with history := x.history.cutOut k m } := by
  obtain ⟨hu, he, hr⟩ := History.cutOut_steps sem hm hk hs
  have h1 : x.step sem heap (.undoBy c k) = .ok { x with history := _ } :=
    Session.step_direct rfl rfl hu
  have h2 : Session.step sem heap { x with history := History.undo^[k] x.history } (.erase m) =
      .ok { x with history := _ } := Session.step_direct rfl rfl he
  have h3 : Session.step sem heap { x with history := (History.undo^[k] x.history).drop m }
      (.redoBy c (k - m)) = .ok { x with history := _ } := Session.step_direct rfl rfl hr
  rw [Machine.run_cons, h1, Machine.ok_bind, Machine.run_cons, h2, Machine.ok_bind,
    Machine.run_singleton, h3]

/-- The restricted non-linear undo of the feature list removes just the chosen commands. -/
theorem undo_erase_redo (hw : Reachable sem heap a w) (hp : w.mgr.position = .ok p)
    (hs : w.mgr.size ≤ intMax) {k m : ℕ} (hm : m ≤ k) (hk : k < p) (c : CmdId) :
    ∃ v, Machine.run (step sem heap) w [.undoBy c k, .erase m, .redoBy c (k - m)] = .ok v ∧
      v.mgr._savedStates.nodes =
        w.mgr._savedStates.nodes.take (p - k) ++ w.mgr._savedStates.nodes.drop (p - k + m) ∧
      v.mgr.position = .ok (p - m) ∧ v.mgr.maxSize = w.mgr.maxSize := by
  obtain ⟨x, rfl⟩ := hw.session
  obtain rfl : x.history.pos = p := History.pos_of_position hp
  refine ⟨Session.toWorld { x with history := x.history.cutOut k m }, ?_, ?_, ?_, ?_⟩
  · rw [Session.run_toWorld, Session.run_cutOut hm hk hs]
    rfl
  · exact History.nodes_cutOut _ k m
  · rw [← History.pos_cutOut hm hk]
    exact History.position_toMgr _
  · have hlimit : (x.history.cutOut k m).limit = x.history.limit := by
      rw [History.cutOut, History.limit_iterate_redo]
      exact History.limit_iterate_undo k x.history
    exact hlimit

/-- Of four commands, the last undone one of three is taken out and the other two are redone. -/
theorem undo_erase_redo_counter :
    ∃ u v, Machine.run (step .standard counterHeap) (.start 0)
        [.invoke 2, .invoke 3, .invoke 4, .invoke 5] = .ok u ∧
      Machine.run (step .standard counterHeap) u [.undoBy 0 3, .erase 1, .redoBy 0 2] = .ok v ∧
      v.mgr._savedStates.nodes =
        u.mgr._savedStates.nodes.take 1 ++ u.mgr._savedStates.nodes.drop 2 := by
  obtain ⟨u, hu⟩ : ∃ u, Machine.run (step .standard counterHeap) (.start 0)
      [.invoke 2, .invoke 3, .invoke 4, .invoke 5] = .ok u := ⟨_, rfl⟩
  have hp : u.mgr.position = .ok 4 := by cases hu; rfl
  have hs : u.mgr.size ≤ intMax := by cases hu; decide
  obtain ⟨v, hv, hn, -⟩ := undo_erase_redo (k := 3) (m := 1) ⟨_, hu⟩ hp hs (by decide) (by decide) 0
  exact ⟨u, v, hu, hv, hn⟩

end UndoCxx
