import UndoCxx.Run

/-! Undo and redo against the application state. -/
namespace UndoCxx

open Cxx

variable {A σ : Type} {sem : Sentinel} {heap : Heap A (Memento σ)} {a : A} {ks : List Call}

/-- The callbacks of a recordable command never throw, its undo inverts its execution and its redo
does it again, each given the memento that was saved. -/
structure Lawful (i : Impl A (Memento σ)) (c : CmdId) : Prop where
  executes : ∀ a, ∃ b, i.doExecute c a = (.ok (), b)
  saves : ∀ b, ∃ m, i.saveStateImpl c b = (.ok m, b) ∧ m.command = .ok (some c)
  undoes : ∀ a b m, i.doExecute c a = (.ok (), b) → i.saveStateImpl c b = (.ok m, b) →
    ∃ m', i.undoImpl c m b = (.ok m', a)
  redoes : ∀ a b m, i.doExecute c a = (.ok (), b) → i.saveStateImpl c b = (.ok m, b) →
    ∃ m', i.redoImpl c m a = (.ok m', b)

/-- Execute the commands of some mementos, in order. -/
def replay (heap : Heap A (Memento σ)) (a : A) (ms : List (Memento σ)) : A :=
  ms.foldl (fun a m =>
    match m.command with
    | .ok (some c) => ((heap c).impl.doExecute c a).2
    | _ => a) a

/-- The application is as if just the commands before the cursor had been executed. -/
def Restored (heap : Heap A (Memento σ)) (a : A) (w : World A (Memento σ)) : Prop :=
  ∀ p, w.mgr.position = .ok p → w.app = replay heap a (w.mgr._savedStates.values.take p)

def Callback.isStep {μ : Type} : Callback μ → Bool
  | .undo _ _ => true
  | .redo _ _ => true
  | _ => false

/-- The calls of `cmd_t::undo` and `cmd_t::redo` among the callbacks. -/
def stepCalls {μ : Type} (w : World A μ) : List (Callback μ) := w.callbacks.filter Callback.isStep

def UndoneBy (m : Memento σ) (k : Callback (Memento σ)) : Prop :=
  ∃ c, m.command = .ok (some c) ∧ k = .undo c m

def RedoneBy (m : Memento σ) (k : Callback (Memento σ)) : Prop :=
  ∃ c, m.command = .ok (some c) ∧ k = .redo c m

/-- A step back from `p` to `q` undoes the mementos in between, newest first, and a step forward
redoes them, oldest first; each once. -/
def CallsBack (heap : Heap A (Memento σ)) (u : World A (Memento σ)) (k : Call)
    (v : World A (Memento σ)) : Prop :=
  ∀ p q, u.mgr.position = .ok p → v.mgr.position = .ok q →
    (Undoes heap k → ∃ calls, stepCalls v = stepCalls u ++ calls ∧
      List.Forall₂ UndoneBy ((u.mgr._savedStates.values.drop q).take (p - q)).reverse calls) ∧
    (Redoes heap k → ∃ calls, stepCalls v = stepCalls u ++ calls ∧
      List.Forall₂ RedoneBy ((u.mgr._savedStates.values.drop p).take (q - p)) calls)

/-- Every state of the run is restored, and every step of it calls back. -/
def RestoresState (sem : Sentinel) (heap : Heap A (Memento σ)) (a : A) (ks : List Call) : Prop :=
  (∀ u, Machine.Visits (step sem heap) (.start a) ks u → Restored heap a u) ∧
    ∀ u k v, Machine.Occurs (step sem heap) (.start a) ks u k v → CallsBack heap u k v

/-- The call steps back over at least one memento: there is one for a single undo, and the guard
of a batch lets it pass. -/
def EffectiveUndo {μ : Type} (heap : Heap A μ) (s : UndoableCmdSystem μ) (k : Call) : Prop :=
  (∃ c, k = .undo c) ∧ s.canUndo = .ok true ∨
    ∃ d p, AsksUndo heap d k ∧ 0 < d ∧ s.position = .ok p ∧
      UndoableCmdSystem.inBounds (toInt p - d) s.size = true

/-- Recording, and steps back and forward. -/
def Call.Editing : Call → Prop
  | .erase _ => False
  | .clear => False
  | .maxSize _ => False
  | _ => True

namespace Session

variable {μ : Type} {x y : Session A μ} {k : Call} {g : Heap A μ}

/-- No call of the manager ever reaches `cmd_t::undo` or `cmd_t::redo`. -/
theorem filter_called (g : Heap A μ) (a : A) (k : Call) :
    (called g a k).filter Callback.isStep = [] := by
  cases k with
  | invoke c =>
    rw [called]
    split
    · rw [Impl.called]
      split <;> rfl
    · rfl
  | undo | redo | undoBy | redoBy | erase | clear | maxSize => rfl

theorem stepCalls_step (h : x.step sem g k = .ok y) :
    stepCalls y.toWorld = stepCalls x.toWorld := by
  obtain ⟨h', -, rfl⟩ := step_eq_ok.mp h
  simp only [stepCalls, toWorld, next, List.filter_append, filter_called, List.append_nil]

/-- An effective undo moves the cursor back. -/
theorem pos_lt_of_effective (he : EffectiveUndo g x.history.toMgr k) (h : x.step sem g k = .ok y) :
    Undoes g k ∧ y.history.pos < x.history.pos := by
  rcases he with ⟨⟨c, rfl⟩, hcan⟩ | ⟨d, p, ha, hd, hp, hg⟩
  · rw [step_undo] at h
    cases h
    have hpos : x.history.pos ≠ 0 := by
      intro h0
      rw [History.canUndo_toMgr, List.length_eq_zero_iff.mp h0] at hcan
      cases hcan
    have hback : x.history.undo.pos = x.history.pos - 1 := History.pos_iterate_undo 1 _
    exact ⟨Or.inl ⟨c, rfl⟩, by simp only; omega⟩
  · obtain rfl : x.history.pos = p := History.pos_of_position hp
    have hnew := History.pos_of_inBounds hg
    have hle := toInt_le (Int.natCast_nonneg x.history.pos)
    have hback : y.history = History.undo^[d.toNat] x.history := by
      rw [← add_shift_back, History.size_toMgr] at hg
      rw [history_asks ha h, batchCount, if_pos hg]
      rfl
    refine ⟨Or.inr ⟨d, ha⟩, ?_⟩
    rw [hback, History.pos_iterate_undo]
    omega

theorem length_values (h : History μ) : h.toMgr._savedStates.values.length = h.size := by
  rw [StdList.values, List.length_map]
  rfl

end Session

section

variable {x y : Session A (Memento σ)} {k : Call}

/-- The callbacks due for an effective undo are never made. -/
theorem not_callsBack_of_effective (he : EffectiveUndo heap x.history.toMgr k)
    (h : x.step sem heap k = .ok y) : ¬ CallsBack heap x.toWorld k y.toWorld := by
  intro hcalls
  obtain ⟨hk, hlt⟩ := Session.pos_lt_of_effective he h
  obtain ⟨calls, hc, hall⟩ :=
    (hcalls _ _ (History.position_toMgr _) (History.position_toMgr _)).1 hk
  have hnil : calls = [] := by
    rw [Session.stepCalls_step h] at hc
    exact List.self_eq_append_right.mp hc
  have hvalues : x.toWorld.mgr._savedStates.values.length = x.history.size :=
    Session.length_values x.history
  have hle := x.history.pos_le_size
  have hlen := hall.length_eq
  rw [hnil, List.length_reverse, List.length_take, List.length_drop, hvalues,
    List.length_nil] at hlen
  omega

/-- Nothing was ever undone: the cursor is at the end, and all commands are in effect. -/
structure Settled (heap : Heap A (Memento σ)) (a : A) (x : Session A (Memento σ)) : Prop where
  future : x.history.stack.future = []
  app : x.app = replay heap a x.history.toMgr._savedStates.values

theorem Settled.restored (hx : Settled heap a x) : Restored heap a x.toWorld := by
  intro p hp
  obtain rfl : x.history.pos = p := History.pos_of_position hp
  have hlen : x.toWorld.mgr._savedStates.values.length = x.history.pos := by
    have hsize : x.history.size = x.history.pos := by
      rw [History.size_eq, hx.future]
      rfl
    rw [← hsize]
    exact Session.length_values x.history
  rw [← hlen, List.take_length]
  exact hx.app

theorem editing_cases (heap : Heap A (Memento σ)) (hk : k.Editing) :
    (∃ c, k = .invoke c ∧ (heap c).kind = .recordable) ∨ Undoes heap k ∨ Redoes heap k := by
  cases k with
  | invoke c =>
    cases hc : (heap c).kind with
    | recordable => exact Or.inl ⟨c, rfl, hc⟩
    | undo d => exact Or.inr (Or.inl (Or.inr ⟨d, .command c hc⟩))
    | redo d => exact Or.inr (Or.inr (Or.inr ⟨d, .command c hc⟩))
  | undo c => exact Or.inr (Or.inl (Or.inl ⟨c, rfl⟩))
  | redo c => exact Or.inr (Or.inr (Or.inl ⟨c, rfl⟩))
  | undoBy c d => exact Or.inr (Or.inl (Or.inr ⟨d, .direct c⟩))
  | redoBy c d => exact Or.inr (Or.inr (Or.inr ⟨d, .direct c⟩))
  | erase | clear | maxSize => exact hk.elim

/-- With the cursor at the end and no effective undo, no request moves it. -/
theorem stays_of_ineffective (hf : x.history.stack.future = [])
    (hne : ¬ EffectiveUndo heap x.history.toMgr k) (hk : Undoes heap k ∨ Redoes heap k)
    (h : x.step sem heap k = .ok y) : y.history = x.history ∧ y.app = x.app := by
  rcases hk with (⟨c, rfl⟩ | ⟨d, ha⟩) | (⟨c, rfl⟩ | ⟨d, ha⟩)
  · rw [Session.step_undo] at h
    cases h
    refine ⟨History.undo_of_past_nil ?_, rfl⟩
    by_contra hp
    apply hne
    refine Or.inl ⟨⟨c, rfl⟩, ?_⟩
    rw [History.canUndo_toMgr]
    simpa using hp
  · have hcount : batchCount .back x.history.pos x.history.size d = 0 := by
      rw [batchCount, add_shift_back]
      split
      · next hg =>
        have hd : ¬ 0 < d := by
          intro hd
          apply hne
          exact Or.inr ⟨d, x.history.pos, ha, hd, History.position_toMgr _, hg⟩
        omega
      · rfl
    refine ⟨?_, (Session.app_step h).trans (ha.appAfter _)⟩
    rw [Session.history_asks ha h, hcount]
    rfl
  · rw [Session.step_redo] at h
    cases h
    exact ⟨History.redo_of_future_nil hf, rfl⟩
  · refine ⟨?_, (Session.app_step h).trans (ha.appAfter _)⟩
    rw [Session.history_asks ha h]
    exact Function.iterate_fixed (History.redo_of_future_nil hf) _

theorem replay_concat {m : Memento σ} {c : CmdId} (hm : m.command = .ok (some c)) (a : A)
    (ms : List (Memento σ)) :
    replay heap a (ms ++ [m]) = ((heap c).impl.doExecute c (replay heap a ms)).2 := by
  rw [replay, List.foldl_append, List.foldl_cons, List.foldl_nil, hm]
  rfl

theorem values_record {h : History (Memento σ)} (hf : h.stack.future = [])
    (hroom : h.size < h.limit) (m : Memento σ) :
    (h.record m).toMgr._savedStates.values = h.toMgr._savedStates.values ++ [m] := by
  have hpos : ¬ h.limit ≤ h.stack.past.length := by
    have hle := h.pos_le_size
    rw [History.pos] at hle
    omega
  rw [StdList.values, StdList.values, History.nodes_toMgr, History.nodes_toMgr, hf]
  simp only [History.record, TwoStack.record, if_neg hpos]
  simp

/-- Recording a lawful command keeps the commands of the list in step with the application. -/
theorem Settled.record {c : CmdId} (hx : Settled heap a x) (hc : (heap c).kind = .recordable)
    (hlaw : Lawful (heap c).impl c) (hroom : x.history.size < x.history.limit)
    (h : x.step sem heap (.invoke c) = .ok y) : Settled heap a y := by
  obtain ⟨b, hb⟩ := hlaw.executes x.app
  obtain ⟨m, hm, hcmd⟩ := hlaw.saves b
  have ho : (heap c).impl.outcome c x.app = (.ok m, b) := (App.bind_ok hb).trans hm
  have hr : request heap x.app (.invoke c) = .record m := by simp only [request, hc, ho]
  have happ : y.app = b := by
    rw [Session.app_step h]
    simp only [appAfter, hc, ho]
  obtain ⟨-, hy⟩ := Session.history_record hr h
  constructor
  · rw [hy]
    rfl
  · rw [hy, values_record hx.future hroom, replay_concat hcmd, ← hx.app, happ, hb]

theorem Settled.step (hx : Settled heap a x) (hk : k.Editing)
    (hlaw : ∀ c, (heap c).kind = .recordable → Lawful (heap c).impl c)
    (hroom : x.history.size < x.history.limit) (hne : ¬ EffectiveUndo heap x.history.toMgr k)
    (h : x.step sem heap k = .ok y) : Settled heap a y := by
  rcases editing_cases heap hk with ⟨c, rfl, hc⟩ | hk
  · exact hx.record hc (hlaw c hc) hroom h
  · obtain ⟨hh, happ⟩ := stays_of_ineffective hx.future hne hk h
    exact ⟨by rw [hh]; exact hx.future, by rw [hh, happ]; exact hx.app⟩

theorem Settled.callsBack (hx : Settled heap a x) (hne : ¬ EffectiveUndo heap x.history.toMgr k)
    (h : x.step sem heap k = .ok y) : CallsBack heap x.toWorld k y.toWorld := by
  intro p q hp hq
  obtain rfl : x.history.pos = p := History.pos_of_position hp
  obtain rfl : y.history.pos = q := History.pos_of_position hq
  have hcalls : stepCalls y.toWorld = stepCalls x.toWorld ++ [] := by
    rw [List.append_nil]
    exact Session.stepCalls_step h
  constructor
  · intro hk
    obtain ⟨hh, -⟩ := stays_of_ineffective hx.future hne (Or.inl hk) h
    refine ⟨[], hcalls, ?_⟩
    rw [hh, Nat.sub_self]
    exact .nil
  · intro hk
    obtain ⟨hh, -⟩ := stays_of_ineffective hx.future hne (Or.inr hk) h
    refine ⟨[], hcalls, ?_⟩
    rw [hh, Nat.sub_self]
    exact .nil

end

/-- Undo and redo of lawful commands restore the application, with the right callbacks, in exactly
those runs that never actually undo anything. -/
theorem restores_state_iff (hlaw : ∀ c, (heap c).kind = .recordable → Lawful (heap c).impl c)
    (hks : ∀ k ∈ ks, k.Editing)
    (hroom : ∀ u, Machine.Visits (step sem heap) (.start a) ks u → u.mgr.size < u.mgr.maxSize) :
    RestoresState sem heap a ks ↔
      ∀ u k v, Machine.Occurs (step sem heap) (.start a) ks u k v →
        ¬ EffectiveUndo heap u.mgr k := by
  rw [Session.start_toWorld] at hroom
  constructor
  · intro hall u k v ho he
    have hcalls := hall.2 u k v ho
    rw [Session.start_toWorld] at ho
    obtain ⟨x, y, rfl, rfl, hxy⟩ := Session.occurs_toWorld ho
    exact not_callsBack_of_effective he hxy.taken hcalls
  · intro hne
    rw [Session.start_toWorld] at hne
    have hsettled : ∀ x, Machine.Visits (Session.step sem heap) (.start a) ks x →
        Settled heap a x := by
      intro x hv
      refine Machine.visits_preserves (I := Settled heap a) ?_ ⟨rfl, rfl⟩ hv
      intro u k v ho hu
      exact hu.step (hks k ho.attempts.mem) hlaw (hroom _ (ho.visits.map Session.step_toWorld))
        (hne _ k _ (ho.map Session.step_toWorld)) ho.taken
    constructor
    · intro u hu
      rw [Session.start_toWorld] at hu
      obtain ⟨x, rfl, hx⟩ := Session.visits_toWorld hu
      exact (hsettled x hx).restored
    · intro u k v ho
      rw [Session.start_toWorld] at ho
      have he := hne u k v ho
      obtain ⟨x, y, rfl, rfl, hxy⟩ := Session.occurs_toWorld ho
      exact (hsettled x hxy.visits).callsBack he hxy.taken

theorem counter_lawful (c : CmdId) : Lawful counter c where
  executes a := ⟨a + 1, rfl⟩
  saves b := ⟨.ofState (some c) b, rfl, rfl⟩
  undoes := by
    intro a b m hb hm
    cases hb
    have he : counter.undoImpl c m (a + 1) = (.ok m, a + 1 - 1) := rfl
    exact ⟨m, he.trans (by rw [add_sub_cancel_right])⟩
  redoes := by
    intro a b m hb hm
    cases hb
    exact ⟨m, rfl⟩

theorem counterHeap_lawful (c : CmdId) : Lawful (counterHeap c).impl c := by
  have himpl : (counterHeap c).impl = counter := by
    rcases c with _ | _ | c <;> rfl
  rw [himpl]
  exact counter_lawful c

/-- A batch that its guard refuses undoes nothing. -/
theorem not_effective_of_refused {s : UndoableCmdSystem (Memento σ)} {c : CmdId} {d : ℤ} {p : ℕ}
    (a : A) (hp : s.position = .ok p)
    (hg : UndoableCmdSystem.inBounds (toInt p - d) s.size = false) :
    ¬ EffectiveUndo heap s (.undoBy c d) := by
  rintro (⟨⟨c', hc⟩, -⟩ | ⟨e, q, he, -, hq, hpass⟩)
  · cases hc
  · cases hp.symm.trans hq
    have hd : (Request.undoBy e : Request (Memento σ)) = .undoBy d :=
      (he.request a).symm
    cases hd
    rw [hg] at hpass
    cases hpass

/-- A batch undo of the only command is refused, so that nothing is undone here, and the redo has
nothing to redo. -/
theorem restores_state_counter :
    RestoresState .standard counterHeap 0 [.invoke 2, .undoBy 0 1, .redo 0] := by
  have hne : ∀ u k, Machine.Attempts (step .standard counterHeap) (.start 0)
      [.invoke 2, .undoBy 0 1, .redo 0] u k → ¬ EffectiveUndo counterHeap u.mgr k := by
    refine Machine.forall_attempts_cons ?_ rfl ?_
    · rintro (⟨⟨c, hc⟩, -⟩ | ⟨d, p, hd, -⟩)
      · cases hc
      · cases hd with
        | command c hc => cases hc
    refine Machine.forall_attempts_cons (not_effective_of_refused (p := 1) 0 rfl rfl) rfl ?_
    refine Machine.forall_attempts_cons ?_ rfl Machine.forall_attempts_nil
    rintro (⟨⟨c, hc⟩, -⟩ | ⟨d, p, hd, -⟩)
    · cases hc
    · cases (hd.request (μ := Memento ℤ) 0)
  refine (restores_state_iff (fun c _ => counterHeap_lawful c) ?_ ?_).mpr
    fun u k v ho => hne u k ho.attempts
  · simp [Call.Editing]
  · intro u hu
    rcases Machine.visits_cons hu with rfl | ⟨t, ht, hu⟩
    · decide
    cases ht
    rcases Machine.visits_cons hu with rfl | ⟨t, ht, hu⟩
    · decide
    cases ht
    rcases Machine.visits_cons hu with rfl | ⟨t, ht, hu⟩
    · decide
    cases ht
    obtain rfl := Machine.visits_nil hu
    decide

/-- One undo takes the cursor back to the start and leaves the counter where it was. -/
theorem undo_restores_nothing :
    (∀ c, Lawful counter c) ∧ ¬ RestoresState .standard counterHeap 0 [.invoke 2, .undo 0] := by
  refine ⟨counter_lawful, ?_⟩
  intro hall
  obtain ⟨w, hw⟩ : ∃ w, Machine.run (step .standard counterHeap) (.start 0)
      [.invoke 2, .undo 0] = .ok w := ⟨_, rfl⟩
  have hrestored := hall.1 w ⟨_, [], (List.append_nil _).symm, hw⟩ 0
  cases hw
  have happ := hrestored rfl
  revert happ
  decide

end UndoCxx
