import UndoCxx.Batch

/-! Batch undo and redo as shifts of the cursor along a list that stays. -/
namespace UndoCxx

open Cxx

variable {A μ : Type} {sem : Sentinel} {heap : Heap A μ} {a : A} {w : World A μ} {ks : List Call}
  {k : Call} {p : ℕ} {d : ℤ}

/-- A batch undo or redo of a count that is not negative. -/
def Call.Shifts (heap : Heap A μ) (k : Call) : Prop :=
  ∃ d, 0 ≤ d ∧ (AsksUndo heap d k ∨ AsksRedo heap d k)

/-- Only the position changes, and it changes by `d`. -/
def MovesBy (s t : UndoableCmdSystem μ) (d : ℤ) : Prop :=
  t._savedStates = s._savedStates ∧ t._maxSize = s._maxSize ∧
    ∃ p q : ℕ, s.position = .ok p ∧ t.position = .ok q ∧ (q : ℤ) = p + d

/-- All or nothing, a batch redo as that many single steps, and the two as inverses. -/
structure ShiftLaw (sem : Sentinel) (heap : Heap A μ) (u : World A μ) (k : Call) (v : World A μ) :
    Prop where
  undo : ∀ d, AsksUndo heap d k → MovesBy u.mgr v.mgr (-d) ∨ v.mgr = u.mgr
  redo : ∀ d, AsksRedo heap d k → ∀ p : ℕ, u.mgr.position = .ok p →
    if p + d ≤ u.mgr.size then
      MovesBy u.mgr v.mgr d ∧
        ∀ c, mgrAfter sem heap u (List.replicate d.toNat (.redo c)) = .ok v.mgr
    else v.mgr = u.mgr
  undoRedo : ∀ d k', AsksUndo heap d k → AsksRedo heap d k' → MovesBy u.mgr v.mgr (-d) →
    mgrAfter sem heap v [k'] = .ok u.mgr
  redoUndo : ∀ d k', AsksRedo heap d k → AsksUndo heap d k' → MovesBy u.mgr v.mgr d →
    mgrAfter sem heap v [k'] = .ok u.mgr

namespace History

variable {h : History μ} {n : ℕ} {dir : Direction}

/-- How far a batch can go. -/
def room (h : History μ) : Direction → ℕ
  | .back => h.pos - 1
  | .forth => h.size - h.pos

theorem toList_iterate_move (dir : Direction) (n : ℕ) (h : History μ) :
    ((move dir)^[n] h).toList = h.toList :=
  StdList.ext (entries_iterate_move dir n h) (serial_iterate_move dir n h)

theorem pos_iterate_move (h0 : 0 ≤ d) (hd : d ≤ h.room dir) :
    (((move dir)^[d.toNat] h).pos : ℤ) = h.pos + shift dir d := by
  have hle := h.pos_le_size
  cases dir with
  | back =>
    rw [room] at hd
    rw [add_shift_back]
    have hpos : ((move .back)^[d.toNat] h).pos = h.pos - d.toNat := pos_iterate_undo _ h
    omega
  | forth =>
    rw [room] at hd
    rw [add_shift_forth]
    have hpos : ((move .forth)^[d.toNat] h).pos = min (h.pos + d.toNat) h.size :=
      pos_iterate_redo _ h
    omega

/-- Behind the first entry, the two guards let pass what there is room for. -/
theorem after_batch (h1 : 1 ≤ h.pos) : h.after (.batch dir d) =
    if d ≤ h.room dir then (move dir)^[d.toNat] h else h := by
  have hle := h.pos_le_size
  cases dir with
  | back => exact if_congr (by rw [room]; omega) rfl rfl
  | forth => exact if_congr (by rw [room]; omega) rfl rfl

/-- As many steps the other way lead back. -/
theorem flip_iterate_move (hn : n ≤ h.room dir) :
    (move dir.flip)^[n] ((move dir)^[n] h) = h := by
  have hle := h.pos_le_size
  cases dir with
  | back =>
    rw [room, pos] at hn
    apply ext
    · change (redo^[n] (undo^[n] h)).stack = h.stack
      rw [stack_iterate_redo, stack_iterate_undo, TwoStack.redo_iterate_undo (by omega)]
    · exact (serial_iterate_redo n _).trans (serial_iterate_undo n h)
    · exact (limit_iterate_redo n _).trans (limit_iterate_undo n h)
  | forth =>
    rw [room, size_eq] at hn
    apply ext
    · change (undo^[n] (redo^[n] h)).stack = h.stack
      rw [stack_iterate_undo, stack_iterate_redo, TwoStack.undo_iterate_redo (by omega)]
    · exact (serial_iterate_undo n _).trans (serial_iterate_redo n h)
    · exact (limit_iterate_undo n _).trans (limit_iterate_redo n h)

/-- And there is room for them, with some entry still in front of the cursor. -/
theorem room_flip (h0 : 0 ≤ d) (hd : d ≤ h.room dir) (h1 : 1 ≤ h.pos) :
    1 ≤ ((move dir)^[d.toNat] h).pos ∧ d ≤ ((move dir)^[d.toNat] h).room dir.flip := by
  have hle := h.pos_le_size
  have hsize := size_iterate_move dir d.toNat h
  have hpos := pos_iterate_move h0 hd
  cases dir with
  | back =>
    rw [add_shift_back] at hpos
    rw [room] at hd
    rw [Direction.flip, room, hsize]
    omega
  | forth =>
    rw [add_shift_forth] at hpos
    rw [Direction.flip, room]
    omega

theorem movesBy_move (h0 : 0 ≤ d) (hd : d ≤ h.room dir) :
    MovesBy h.toMgr ((move dir)^[d.toNat] h).toMgr (shift dir d) :=
  ⟨toList_iterate_move dir _ h, limit_iterate_move dir _ h, _, _, position_toMgr _,
    position_toMgr _, pos_iterate_move h0 hd⟩

theorem pos_of_movesBy {g : History μ} (hm : MovesBy h.toMgr g.toMgr d) :
    (g.pos : ℤ) = h.pos + d := by
  obtain ⟨-, -, p, q, hp, hq, he⟩ := hm
  rwa [← pos_of_position hp, ← pos_of_position hq] at he

end History

namespace Session

variable {x y : Session A μ} {dir : Direction}

/-- A batch call whose arithmetic is exact cannot fail. -/
theorem step_asks (hk : Asks heap dir d k) (hp : FitsInt x.history.pos)
    (hd : FitsInt (x.history.pos + shift dir d)) :
    x.step sem heap k = .ok (x.next heap k (x.history.after (.batch dir d))) := by
  rw [step, hk.request, History.handle, History.batch_exact hp hd]
  rfl

theorem mgrAfter_of_step (h : x.step sem heap k = .ok y) :
    mgrAfter sem heap x.toWorld [k] = .ok y.history.toMgr := by
  rw [mgrAfter, run_toWorld, Machine.run_singleton, h]
  rfl

/-- A batch the other way takes back the batch before it. -/
theorem flip_takes_back (hk : Asks heap dir.flip d k) (hs : x.history.size ≤ intMax)
    (h1 : 1 ≤ x.history.pos) (h0 : 0 ≤ d) (hd : d ≤ x.history.room dir)
    (hy : y.history = (History.move dir)^[d.toNat] x.history) :
    mgrAfter sem heap y.toWorld [k] = .ok x.history.toMgr := by
  obtain ⟨hpos, hroom⟩ := History.room_flip h0 hd h1
  have hsize := History.size_iterate_move dir d.toNat x.history
  rw [← hy] at hpos hroom hsize
  have hback : (History.move dir.flip)^[d.toNat] y.history = x.history := by
    rw [hy, History.flip_iterate_move (by omega)]
  have hmoved := History.pos_iterate_move h0 hroom
  rw [hback] at hmoved
  rw [mgrAfter_of_step (step_asks hk (fits_pos (hsize ▸ hs)) (hmoved ▸ fits_pos hs)), next,
    History.after_batch hpos, if_pos hroom, hback]

/-- The list and the limit of the start, at some entry that is not the first. -/
def Within (x y : Session A μ) : Prop :=
  y.history.toList = x.history.toList ∧ y.history.limit = x.history.limit ∧ 1 ≤ y.history.pos

theorem Within.size (h : Within x y) : y.history.size = x.history.size :=
  congrArg (fun l => l.nodes.length) h.1

/-- All or nothing. -/
theorem movesBy_or_same (h0 : 0 ≤ d) (h1 : 1 ≤ x.history.pos)
    (hy : y.history = x.history.after (.batch dir d)) :
    MovesBy x.history.toMgr y.history.toMgr (shift dir d) ∨ y.history.toMgr = x.history.toMgr := by
  rw [hy, History.after_batch h1]
  split
  · next hd => exact Or.inl (History.movesBy_move h0 hd)
  · exact Or.inr rfl

/-- A batch that has moved is taken back by one the other way. -/
theorem takes_back_of_movesBy (dir : Direction) {k' : Call} (hk' : Asks heap dir.flip d k')
    (hs : x.history.size ≤ intMax) (h1 : 1 ≤ x.history.pos) (h0 : 0 ≤ d)
    (hy : y.history = x.history.after (.batch dir d))
    (hm : MovesBy x.history.toMgr y.history.toMgr (shift dir d)) :
    mgrAfter sem heap y.toWorld [k'] = .ok x.history.toMgr := by
  have hpos := History.pos_of_movesBy hm
  rw [History.after_batch h1] at hy
  by_cases hd : d ≤ x.history.room dir
  · rw [if_pos hd] at hy
    exact flip_takes_back hk' hs h1 h0 hd hy
  · -- when the guard refused the batch, it moved by nothing only
    rw [if_neg hd] at hy
    rw [hy] at hpos
    obtain rfl : d = 0 := by
      cases dir with
      | back =>
        rw [add_shift_back] at hpos
        omega
      | forth =>
        rw [add_shift_forth] at hpos
        omega
    exact absurd (Int.natCast_nonneg _) hd

theorem shiftLaw_of_asks (ha : Asks heap dir d k) (h0 : 0 ≤ d) (h1 : 1 ≤ x.history.pos)
    (hs : x.history.size ≤ intMax) (hy : y.history = x.history.after (.batch dir d)) :
    ShiftLaw sem heap x.toWorld k y.toWorld where
  undo := by
    intro e he
    obtain ⟨rfl, rfl⟩ := ha.unique he x.app
    exact movesBy_or_same h0 h1 hy
  redo := by
    intro e he p hp
    obtain ⟨rfl, rfl⟩ := ha.unique he x.app
    obtain rfl : x.history.pos = p := History.pos_of_position hp
    have hle := x.history.pos_le_size
    have hroom : x.history.pos + e ≤ x.history.size ↔ e ≤ x.history.room .forth := by
      rw [History.room]
      omega
    rw [History.after_batch h1] at hy
    simp only [toWorld, History.size_toMgr, hy, hroom]
    split
    · next hd => exact ⟨History.movesBy_move h0 hd, mgrAfter_redo _ x⟩
    · rfl
  undoRedo := by
    intro e k' he hk' hm
    obtain ⟨rfl, rfl⟩ := ha.unique he x.app
    exact takes_back_of_movesBy .back hk' hs h1 h0 hy hm
  redoUndo := by
    intro e k' he hk' hm
    obtain ⟨rfl, rfl⟩ := ha.unique he x.app
    exact takes_back_of_movesBy .forth hk' hs h1 h0 hy hm

theorem within_batch (h0 : 0 ≤ d) (h1 : 1 ≤ x.history.pos)
    (hy : y.history = x.history.after (.batch dir d)) : Within x y := by
  rw [Within, hy, History.after_batch h1]
  split
  · next hd =>
    exact ⟨History.toList_iterate_move dir _ _, History.limit_iterate_move dir _ _,
      (History.room_flip h0 hd h1).1⟩
  · exact ⟨rfl, rfl, h1⟩

/-- One batch call: it cannot fail, it stays on the list, and it is a shift. -/
theorem step_shift (hk : k.Shifts heap) (hl : k.Legal heap x.history.toMgr)
    (h1 : 1 ≤ x.history.pos) (hs : x.history.size ≤ intMax) :
    ∃ y, x.step sem heap k = .ok y ∧ Within x y ∧ ShiftLaw sem heap x.toWorld k y.toWorld := by
  obtain ⟨dir, d, h0, ha⟩ : ∃ dir d, 0 ≤ d ∧ Asks heap dir d k := by
    obtain ⟨d, h0, ha | ha⟩ := hk
    · exact ⟨.back, d, h0, ha⟩
    · exact ⟨.forth, d, h0, ha⟩
  obtain ⟨hp, hd⟩ := fits_of_delta (hl.asks ha)
  exact ⟨_, step_asks ha hp hd, within_batch h0 h1 rfl, shiftLaw_of_asks ha h0 h1 hs rfl⟩

/-- A run of batch calls stays on the list it started with. -/
theorem run_shifts (h1 : 1 ≤ x.history.pos) (hs : x.history.size ≤ intMax)
    (hks : ∀ k ∈ ks, k.Shifts heap)
    (hlegal : ∀ y k, Machine.Attempts (step sem heap) x ks y k → k.Legal heap y.history.toMgr) :
    (∃ z, Machine.run (step sem heap) x ks = .ok z) ∧
      (∀ y, Machine.Visits (step sem heap) x ks y → Within x y) ∧
      ∀ y k z, Machine.Occurs (step sem heap) x ks y k z →
        ShiftLaw sem heap y.toWorld k z.toWorld := by
  have hstep : ∀ y k, Machine.Attempts (step sem heap) x ks y k → Within x y →
      ∃ z, y.step sem heap k = .ok z ∧ Within x z ∧ ShiftLaw sem heap y.toWorld k z.toWorld := by
    intro y k ho hin
    have hsize := hin.size
    obtain ⟨z, hz, ⟨hlist, hlimit, hpos⟩, hlaw⟩ :
        ∃ z, y.step sem heap k = .ok z ∧ Within y z ∧ ShiftLaw sem heap y.toWorld k z.toWorld :=
      step_shift (hks k ho.mem) (hlegal y k ho) hin.2.2 (hsize ▸ hs)
    exact ⟨z, hz, ⟨hlist.trans hin.1, hlimit.trans hin.2.1, hpos⟩, hlaw⟩
  have hkeep : ∀ y k z, Machine.Occurs (step sem heap) x ks y k z → Within x y → Within x z := by
    intro y k z ho hin
    obtain ⟨z', hz, hin', -⟩ := hstep y k ho.attempts hin
    cases hz.symm.trans ho.taken
    exact hin'
  have hvisits : ∀ y, Machine.Visits (step sem heap) x ks y → Within x y := by
    intro y hy
    exact Machine.visits_preserves hkeep ⟨rfl, rfl, h1⟩ hy
  refine ⟨?_, hvisits, ?_⟩
  · obtain ⟨z, hz, -⟩ := Machine.run_total (I := Within x) (fun y k ho hin => by
      obtain ⟨z, hz, hin', -⟩ := hstep y k ho hin
      exact ⟨z, hz, hin'⟩) ⟨rfl, rfl, h1⟩
    exact ⟨z, hz⟩
  · intro y k z ho
    obtain ⟨z', hz, -, hlaw⟩ := hstep y k ho.attempts (hvisits y ho.visits)
    cases hz.symm.trans ho.taken
    exact hlaw

end Session

/-- Along any sequence of batch calls the list and the limit stay, each call moves the cursor by
its whole count or not at all, and undo and redo of one count take each other back. -/
theorem batches_shift (hw : Reachable sem heap a w) (hp : w.mgr.position = .ok p) (h1 : 1 ≤ p)
    (hs : w.mgr.size ≤ intMax) (hks : ∀ k ∈ ks, k.Shifts heap)
    (hlegal : ∀ u k, Machine.Attempts (step sem heap) w ks u k → k.Legal heap u.mgr) :
    (∃ v, Machine.run (step sem heap) w ks = .ok v) ∧
      (∀ u, Machine.Visits (step sem heap) w ks u →
        u.mgr._savedStates = w.mgr._savedStates ∧ u.mgr._maxSize = w.mgr._maxSize) ∧
      ∀ u k v, Machine.Occurs (step sem heap) w ks u k v → ShiftLaw sem heap u k v := by
  obtain ⟨x, rfl⟩ := hw.session
  obtain rfl : x.history.pos = p := History.pos_of_position hp
  obtain ⟨⟨z, hz⟩, hvisits, hoccurs⟩ := Session.run_shifts h1 hs hks (Session.legal_attempts hlegal)
  refine ⟨⟨z.toWorld, Session.run_eq_ok.mpr ⟨z, hz, rfl⟩⟩, ?_, ?_⟩
  · intro u hu
    obtain ⟨y, rfl, hy⟩ := Session.visits_toWorld hu
    obtain ⟨hlist, hlimit, -⟩ := hvisits y hy
    exact ⟨hlist, hlimit⟩
  · intro u k v ho
    obtain ⟨y, z, rfl, rfl, hyz⟩ := Session.occurs_toWorld ho
    exact hoccurs y k z hyz

/-- Three commands, a batch undo of two, a redo of one more than is left, and a redo command. -/
theorem batches_shift_counter :
    ∃ w v, Machine.run (step .standard counterHeap) (.start 0)
        [.invoke 2, .invoke 3, .invoke 2] = .ok w ∧
      Machine.run (step .standard counterHeap) w [.undoBy 0 2, .redoBy 0 3, .invoke 1] = .ok v := by
  obtain ⟨w, hw⟩ : ∃ w, Machine.run (step .standard counterHeap) (.start 0)
      [.invoke 2, .invoke 3, .invoke 2] = .ok w := ⟨_, rfl⟩
  have hp : w.mgr.position = .ok 3 := by cases hw; rfl
  have hs : w.mgr.size ≤ intMax := by cases hw; decide
  have hks : ∀ k ∈ [Call.undoBy 0 2, .redoBy 0 3, .invoke 1], k.Shifts counterHeap := by
    intro k hk
    simp only [List.mem_cons, List.not_mem_nil, or_false] at hk
    rcases hk with rfl | rfl | rfl
    · exact ⟨2, by decide, Or.inl (.direct 0)⟩
    · exact ⟨3, by decide, Or.inr (.direct 0)⟩
    · exact ⟨1, by decide, Or.inr (.command 1 rfl)⟩
  have hlegal : ∀ u k, Machine.Attempts (step .standard counterHeap) w
      [.undoBy 0 2, .redoBy 0 3, .invoke 1] u k → k.Legal counterHeap u.mgr := by
    cases hw
    refine Machine.forall_attempts_cons (deltaFits_of_position (p := 3) rfl (by decide)) rfl ?_
    refine Machine.forall_attempts_cons (deltaFits_of_position (p := 1) rfl (by decide)) rfl ?_
    refine Machine.forall_attempts_cons (deltaFits_of_position (p := 1) rfl (by decide)) rfl ?_
    exact Machine.forall_attempts_nil
  obtain ⟨⟨v, hv⟩, -, -⟩ := batches_shift ⟨_, hw⟩ hp (by decide) hs hks hlegal
  exact ⟨w, v, hw, hv⟩

end UndoCxx
