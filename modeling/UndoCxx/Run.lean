import UndoCxx.Command
import UndoCxx.Memento
import UndoCxx.Request

/-!
Runs of a client of the manager. The manager never calls back into a command on
undo or redo, so the application and the history evolve side by side: a
`Session` keeps the two apart, and every run of the client is a run of it.
-/
namespace UndoCxx

open Cxx

inductive Kind
  | recordable
  | undo (delta : ℤ)
  | redo (delta : ℤ)
  deriving DecidableEq, Repr

/-- A command object: what it derives from, and its own callbacks. -/
structure Obj (A μ : Type) where
  kind : Kind
  impl : Impl A μ

abbrev Heap (A μ : Type) := CmdId → Obj A μ

variable {A μ : Type}

def Obj.toCmd (sem : Sentinel) (o : Obj A μ) : Cmd A μ :=
  match o.kind with
  | .recordable => o.impl.toCmd
  | .undo delta => baseUndoCmd sem delta o.impl.toCmd
  | .redo delta => baseRedoCmd sem delta o.impl.toCmd

/-- The public calls that change a manager. -/
inductive Call
  | invoke (c : CmdId)
  | undo (c : CmdId)
  | redo (c : CmdId)
  | undoBy (c : CmdId) (delta : ℤ)
  | redoBy (c : CmdId) (delta : ℤ)
  | erase (n : ℤ)
  | clear
  | maxSize (n : ℕ)
  deriving DecidableEq, Repr

def Call.exec (sem : Sentinel) (heap : Heap A μ) : Call → M A μ Unit
  | .invoke c => UndoCxx.invoke c ((heap c).toCmd sem)
  | .undo c => onMgr (·.undo sem c)
  | .redo c => onMgr (·.redo sem c)
  | .undoBy c delta => onMgr (·.undoBy sem c delta)
  | .redoBy c delta => onMgr (·.redoBy sem c delta)
  | .erase n => onMgr (·.erase sem n)
  | .clear => onMgr fun s => .ok s.clear
  | .maxSize n => onMgr fun s => .ok (s.setMaxSize n)

/-- One call, by a client that survives an exception. -/
def step (sem : Sentinel) (heap : Heap A μ) (w : World A μ) (k : Call) :
    Except UB (World A μ) := do
  let (_, w) ← k.exec sem heap w
  return w

/-- A fresh manager in an application that never runs out of memory. -/
def World.start (a : A) : World A μ := ⟨a, .fresh, [], false⟩

structure Session (A μ : Type) where
  app : A
  history : History μ
  callbacks : List (Callback μ)

def request (heap : Heap A μ) (a : A) : Call → Request μ
  | .invoke c =>
    match (heap c).kind with
    | .recordable =>
      match ((heap c).impl.outcome c a).1 with
      | .ok m => .record m
      | .error _ => .nothing
    | .undo delta => .undoBy delta
    | .redo delta => .redoBy delta
  | .undo _ => .undo
  | .redo _ => .redo
  | .undoBy _ delta => .undoBy delta
  | .redoBy _ delta => .redoBy delta
  | .erase n => .erase n
  | .clear => .clear
  | .maxSize n => .limit n

/-- The application after a call, whatever the history holds. -/
def appAfter (heap : Heap A μ) (a : A) : Call → A
  | .invoke c =>
    match (heap c).kind with
    | .recordable => ((heap c).impl.outcome c a).2
    | _ => a
  | _ => a

/-- The callbacks made by a call, whatever the history holds. -/
def called (heap : Heap A μ) (a : A) : Call → List (Callback μ)
  | .invoke c =>
    match (heap c).kind with
    | .recordable => (heap c).impl.called c a
    | _ => [.execute c]
  | _ => []

namespace Session

variable {sem : Sentinel} {heap : Heap A μ} {x y : Session A μ} {k : Call} {ks : List Call}
  {u v w : World A μ}

def start (a : A) : Session A μ := ⟨a, .fresh, []⟩

def toWorld (x : Session A μ) : World A μ := ⟨x.app, x.history.toMgr, x.callbacks, false⟩

def next (heap : Heap A μ) (x : Session A μ) (k : Call) (h : History μ) : Session A μ :=
  ⟨appAfter heap x.app k, h, x.callbacks ++ called heap x.app k⟩

def step (sem : Sentinel) (heap : Heap A μ) (x : Session A μ) (k : Call) :
    Except UB (Session A μ) :=
  (x.history.handle sem (request heap x.app k)).map (x.next heap k)

/-- A call is one request to the history, with its callbacks beside it. -/
theorem step_eq_ok : x.step sem heap k = .ok y ↔
    ∃ h, x.history.handle sem (request heap x.app k) = .ok h ∧ x.next heap k h = y :=
  Machine.map_eq_ok

/-- A call that is one operation of the manager. -/
theorem step_of_onMgr {f : UndoableCmdSystem μ → Except UB (UndoableCmdSystem μ)}
    {r : Except UB (History μ)} {l : List (Callback μ)}
    (hf : f x.history.toMgr = r.map History.toMgr)
    (hk : k.exec sem heap x.toWorld = onMgr f { x.toWorld with callbacks := l })
    (ha : appAfter heap x.app k = x.app) (hc : x.callbacks ++ called heap x.app k = l) :
    UndoCxx.step sem heap x.toWorld k = (r.map (x.next heap k)).map toWorld := by
  rw [UndoCxx.step, hk, onMgr, toWorld, hf]
  cases r with
  | error e => rfl
  | ok h => simp [next, ha, hc, toWorld]

/-- Invoking an undo command is a batch undo by its delta. -/
theorem exec_undoCmd {c : CmdId} {delta : ℤ} (hk : (heap c).kind = .undo delta) :
    (Call.invoke c).exec sem heap w =
      onMgr (·.undoBy sem c delta) { w with callbacks := w.callbacks ++ [.execute c] } := by
  have hcmd : (heap c).toCmd sem = baseUndoCmd sem delta (heap c).impl.toCmd := by
    simp only [Obj.toCmd, hk]
  rw [Call.exec, hcmd, invoke_of_not_memento rfl]
  exact M.bind_ok rfl

theorem exec_redoCmd {c : CmdId} {delta : ℤ} (hk : (heap c).kind = .redo delta) :
    (Call.invoke c).exec sem heap w =
      onMgr (·.redoBy sem c delta) { w with callbacks := w.callbacks ++ [.execute c] } := by
  have hcmd : (heap c).toCmd sem = baseRedoCmd sem delta (heap c).impl.toCmd := by
    simp only [Obj.toCmd, hk]
  rw [Call.exec, hcmd, invoke_of_not_memento rfl]
  exact M.bind_ok rfl

/-- `push` at the end of an invoke, when the allocator serves it. -/
theorem push_toWorld {h : History μ} {a : A} {l : List (Callback μ)} (m : μ) :
    push m (toWorld ⟨a, h, l⟩) =
      if h.CanRecord then .ok (.ok (), toWorld ⟨a, h.record m, l⟩) else .error .emptyContainer := by
  by_cases hc : h.CanRecord
  · rw [if_pos hc, push, toWorld, h.push_toMgr m hc]
    rfl
  · rw [if_neg hc, push, toWorld, h.push_error _ m hc]
    rfl

theorem step_recordable {c : CmdId} (hk : (heap c).kind = .recordable) :
    UndoCxx.step sem heap x.toWorld (.invoke c) = (x.step sem heap (.invoke c)).map toWorld := by
  have hcmd : (heap c).toCmd sem = (heap c).impl.toCmd := by simp only [Obj.toCmd, hk]
  rw [UndoCxx.step, Call.exec, hcmd]
  rcases ho : (heap c).impl.outcome c x.app with ⟨e | m, a⟩
  · have hr : request heap x.app (.invoke c) = .nothing := by simp only [request, hk, ho]
    rw [Impl.invoke_of_throw ho, step, hr]
    simp [History.handle, next, appAfter, called, hk, ho, toWorld]
  · have hr : request heap x.app (.invoke c) = .record m := by simp only [request, hk, ho]
    rw [Impl.invoke_of_ok ho, step, hr, History.handle]
    have hp := push_toWorld (h := x.history) (a := a)
      (l := x.callbacks ++ (heap c).impl.called c x.app) m
    simp only [toWorld] at hp ⊢
    rw [hp]
    by_cases hc : x.history.CanRecord
    · rw [if_pos hc, if_pos hc]
      simp [next, appAfter, called, hk, ho, toWorld]
    · rw [if_neg hc, if_neg hc]
      rfl

/-- The client's every step is the session's. -/
theorem step_toWorld (x : Session A μ) (k : Call) :
    UndoCxx.step sem heap x.toWorld k = (x.step sem heap k).map toWorld := by
  cases k with
  | invoke c =>
    cases hk : (heap c).kind with
    | recordable => exact step_recordable hk
    | undo delta =>
      have hr : request heap x.app (.invoke c) = .undoBy delta := by simp only [request, hk]
      rw [step, hr]
      exact step_of_onMgr (History.undoBy_toMgr _ delta) (exec_undoCmd hk)
        (by simp only [appAfter, hk]) (by simp only [called, hk]; rfl)
    | redo delta =>
      have hr : request heap x.app (.invoke c) = .redoBy delta := by simp only [request, hk]
      rw [step, hr]
      exact step_of_onMgr (History.redoBy_toMgr _ delta) (exec_redoCmd hk)
        (by simp only [appAfter, hk]) (by simp only [called, hk]; rfl)
  | undo c => exact step_of_onMgr (r := .ok _) (History.undo_toMgr _) rfl rfl (List.append_nil _)
  | redo c => exact step_of_onMgr (r := .ok _) (History.redo_toMgr _) rfl rfl (List.append_nil _)
  | undoBy c delta =>
    exact step_of_onMgr (History.undoBy_toMgr _ delta) rfl rfl (List.append_nil _)
  | redoBy c delta =>
    exact step_of_onMgr (History.redoBy_toMgr _ delta) rfl rfl (List.append_nil _)
  | erase n => exact step_of_onMgr (History.erase_toMgr n _) rfl rfl (List.append_nil _)
  | clear =>
    have hc := congrArg (Except.ok (ε := UB)) x.history.clear_toMgr
    exact step_of_onMgr (f := fun s => .ok s.clear) (r := .ok _) hc rfl rfl (List.append_nil _)
  | maxSize n =>
    have hm := congrArg (Except.ok (ε := UB)) (x.history.setMaxSize_toMgr n)
    exact step_of_onMgr (f := fun s => .ok (s.setMaxSize n)) (r := .ok _) hm rfl rfl
      (List.append_nil _)

/-- A call that makes no callback changes the history only. -/
theorem step_direct {g : History μ} (ha : appAfter heap x.app k = x.app)
    (hc : called heap x.app k = [])
    (hh : x.history.handle sem (request heap x.app k) = .ok g) :
    x.step sem heap k = .ok { x with history := g } := by
  rw [step, hh, Machine.map_ok, next, ha, hc, List.append_nil]

theorem start_toWorld (a : A) : World.start (μ := μ) a = (start a).toWorld := rfl

/-- A run of the manager is a run of its history. -/
theorem run_toWorld (x : Session A μ) (ks : List Call) :
    Machine.run (UndoCxx.step sem heap) x.toWorld ks =
      (Machine.run (step sem heap) x ks).map toWorld :=
  Machine.run_map step_toWorld x ks

theorem run_eq_ok : Machine.run (UndoCxx.step sem heap) x.toWorld ks = .ok w ↔
    ∃ y, Machine.run (step sem heap) x ks = .ok y ∧ y.toWorld = w := by
  rw [run_toWorld]
  exact Machine.map_eq_ok

/-- Every state of a run is the state of a history. -/
theorem visits_toWorld (h : Machine.Visits (UndoCxx.step sem heap) x.toWorld ks w) :
    ∃ y, w = toWorld y ∧ Machine.Visits (step sem heap) x ks y :=
  Machine.visits_map step_toWorld h

/-- Every call of a run is attempted on a history. -/
theorem attempts_toWorld (h : Machine.Attempts (UndoCxx.step sem heap) x.toWorld ks w k) :
    ∃ y, w = toWorld y ∧ Machine.Attempts (step sem heap) x ks y k :=
  Machine.attempts_map step_toWorld h

theorem occurs_toWorld (h : Machine.Occurs (UndoCxx.step sem heap) x.toWorld ks u k v) :
    ∃ y z, u = toWorld y ∧ v = toWorld z ∧ Machine.Occurs (step sem heap) x ks y k z :=
  Machine.occurs_map step_toWorld h

/-- What a call does to the application does not depend on the history. -/
theorem app_step (h : x.step sem heap k = .ok y) : y.app = appAfter heap x.app k := by
  obtain ⟨g, -, rfl⟩ := step_eq_ok.mp h
  rfl

/-- What one step of a session does to its history. -/
theorem change_step (h : x.step sem heap k = .ok y) :
    x.history.Change (request heap x.app k) y.history := by
  obtain ⟨g, hg, rfl⟩ := step_eq_ok.mp h
  exact History.change_of_handle hg

end Session

/-- The call returns with the cursor somewhere else. -/
def Moves (sem : Sentinel) (heap : Heap A μ) (w : World A μ) (k : Call) : Prop :=
  ∃ v, step sem heap w k = .ok v ∧ v.mgr.position ≠ w.mgr.position

/-- Some run from a fresh manager ends here. -/
def Reachable (sem : Sentinel) (heap : Heap A μ) (a : A) (w : World A μ) : Prop :=
  ∃ ks, Machine.run (step sem heap) (World.start a) ks = .ok w

/-- Whatever a run reaches is a history, so its cursor is live. -/
theorem Reachable.session {sem : Sentinel} {heap : Heap A μ} {a : A} {w : World A μ}
    (h : Reachable sem heap a w) : ∃ x : Session A μ, w = x.toWorld := by
  obtain ⟨ks, h⟩ := h
  rw [Session.start_toWorld, Session.run_eq_ok] at h
  obtain ⟨x, -, rfl⟩ := h
  exact ⟨x, rfl⟩

/-- `undo(CmdSP &, int)` or `redo(CmdSP, int)` -/
def Call.batch : Direction → CmdId → ℤ → Call
  | .back, c, delta => .undoBy c delta
  | .forth, c, delta => .redoBy c delta

def Kind.batch : Direction → ℤ → Kind
  | .back, delta => .undo delta
  | .forth, delta => .redo delta

/-- The calls that ask for a batch of `d`, directly or through an undo or redo command. -/
inductive Asks (heap : Heap A μ) (dir : Direction) (d : ℤ) : Call → Prop
  | direct (c : CmdId) : Asks heap dir d (.batch dir c d)
  | command (c : CmdId) (hk : (heap c).kind = .batch dir d) : Asks heap dir d (.invoke c)

abbrev AsksUndo (heap : Heap A μ) (d : ℤ) : Call → Prop := Asks heap .back d

abbrev AsksRedo (heap : Heap A μ) (d : ℤ) : Call → Prop := Asks heap .forth d

/-- A request to step back, single or batch. -/
def Undoes (heap : Heap A μ) (k : Call) : Prop := (∃ c, k = .undo c) ∨ ∃ d, AsksUndo heap d k

/-- A request to step forward again. -/
def Redoes (heap : Heap A μ) (k : Call) : Prop := (∃ c, k = .redo c) ∨ ∃ d, AsksRedo heap d k

/-- What invoking a command can ask for, by the kind of the command. -/
theorem request_invoke (heap : Heap A μ) (a : A) (c : CmdId) :
    request heap a (.invoke c) = .nothing ∨ (∃ m, request heap a (.invoke c) = .record m) ∨
      ∃ dir d, request heap a (.invoke c) = .batch dir d ∧ Asks heap dir d (.invoke c) := by
  cases hc : (heap c).kind with
  | recordable =>
    cases ho : ((heap c).impl.outcome c a).1 with
    | error e => exact Or.inl (by simp only [request, hc, ho])
    | ok m => exact Or.inr (Or.inl ⟨m, by simp only [request, hc, ho]⟩)
  | undo d => exact Or.inr (Or.inr ⟨.back, d, by simp only [request, hc], .command c hc⟩)
  | redo d => exact Or.inr (Or.inr ⟨.forth, d, by simp only [request, hc], .command c hc⟩)

section Asks

variable {heap : Heap A μ} {dir dir' : Direction} {d e : ℤ} {k : Call}

/-- The three ways of asking for a batch are one request. -/
theorem Asks.request (hk : Asks heap dir d k) (a : A) : request heap a k = .batch dir d := by
  cases hk with
  | direct c => cases dir <;> rfl
  | command c hk => cases dir <;> simp only [UndoCxx.request, hk, Kind.batch]

/-- A batch request leaves the application alone. -/
theorem Asks.appAfter (hk : Asks heap dir d k) (a : A) : appAfter heap a k = a := by
  cases hk with
  | direct c => cases dir <;> rfl
  | command c hk => cases dir <;> simp only [UndoCxx.appAfter, hk, Kind.batch]

/-- A call asks for one batch at most. -/
theorem Asks.unique (h : Asks heap dir d k) (h' : Asks heap dir' e k) (a : A) :
    dir' = dir ∧ e = d := by
  cases (h'.request a).symm.trans (h.request a)
  exact ⟨rfl, rfl⟩

end Asks

theorem undoes_of_request {heap : Heap A μ} {a : A} {k : Call}
    (h : request heap a k = .undo ∨ ∃ d, request heap a k = .undoBy d) :
    Undoes heap k := by
  cases k with
  | invoke c =>
    rcases request_invoke heap a c with hr | ⟨m, hr⟩ | ⟨dir, d, hr, ha⟩
    · simp [hr] at h
    · simp [hr] at h
    · obtain rfl : dir = .back := by simpa [hr] using h
      exact Or.inr ⟨d, ha⟩
  | undo c => exact Or.inl ⟨c, rfl⟩
  | undoBy c d => exact Or.inr ⟨d, .direct c⟩
  | redo | redoBy | erase | clear | maxSize => simp [request] at h

namespace Session

variable {sem : Sentinel} {heap : Heap A μ} {x y : Session A μ} {k : Call} {d : ℤ} {m : μ}
  {dir : Direction}

theorem step_undo (x : Session A μ) (c : CmdId) :
    x.step sem heap (.undo c) = .ok { x with history := x.history.undo } :=
  step_direct rfl rfl rfl

theorem step_redo (x : Session A μ) (c : CmdId) :
    x.step sem heap (.redo c) = .ok { x with history := x.history.redo } :=
  step_direct rfl rfl rfl

/-- A batch call that is defined takes the steps that its guard lets it take. -/
theorem history_asks (ha : Asks heap dir d k) (h : x.step sem heap k = .ok y) :
    y.history =
      (History.move dir)^[batchCount dir x.history.pos x.history.size d] x.history := by
  have hchange := change_step h
  rw [ha.request] at hchange
  exact hchange.batch_eq

/-- A recording that succeeds had something to evict, or room. -/
theorem history_record (hr : request heap x.app k = .record m) (h : x.step sem heap k = .ok y) :
    x.history.CanRecord ∧ y.history = x.history.record m := by
  have hchange := change_step h
  rw [hr] at hchange
  exact hchange.record_eq

end Session

/-! A small application: commands that count how often they were executed. -/

def counter : Impl ℤ (Memento ℤ) where
  doExecute _ := modify (· + 1)
  saveStateImpl c := return .ofState (some c) (← get)
  undoImpl _ m := do modify (· - 1); return m
  redoImpl _ m := do modify (· + 1); return m

/-- Command 0 undoes and command 1 redoes one step; every other one counts. -/
def counterHeap : Heap ℤ (Memento ℤ)
  | 0 => ⟨.undo 1, counter⟩
  | 1 => ⟨.redo 1, counter⟩
  | _ => ⟨.recordable, counter⟩

/-! Calls within the documented bounds -/

/-- The position, and the position moved by `k`, are exact in `int`. -/
def DeltaFits (s : UndoableCmdSystem μ) (k : ℤ) : Prop :=
  ∀ p : ℕ, s.position = .ok p → FitsInt p ∧ FitsInt (p + k)

/-- The position of a defined state is what the bounds of a batch are about. -/
theorem deltaFits_of_position {s : UndoableCmdSystem μ} {p : ℕ} {d : ℤ} (hp : s.position = .ok p)
    (hfit : FitsInt p ∧ FitsInt (p + d)) : DeltaFits s d := by
  intro q hq
  cases hp.symm.trans hq
  exact hfit

def Call.Legal (heap : Heap A μ) (s : UndoableCmdSystem μ) : Call → Prop
  | .invoke c =>
    match (heap c).kind with
    | .recordable => True
    | .undo delta => DeltaFits s (-delta)
    | .redo delta => DeltaFits s delta
  | .undoBy _ delta => DeltaFits s (-delta)
  | .redoBy _ delta => DeltaFits s delta
  | .erase n => 0 ≤ n
  | .maxSize n => 1 ≤ n
  | _ => True

theorem Call.Legal.asks {heap : Heap A μ} {s : UndoableCmdSystem μ} {k : Call} {dir : Direction}
    {d : ℤ} (hk : k.Legal heap s) (ha : Asks heap dir d k) : DeltaFits s (shift dir d) := by
  cases ha with
  | direct c => cases dir <;> exact hk
  | command c hc => cases dir <;> simpa only [Call.Legal, hc, Kind.batch, shift] using hk

namespace Session

variable {sem : Sentinel} {heap : Heap A μ} {x y : Session A μ} {k : Call} {d : ℤ}

theorem fits_of_delta {h : History μ} (hd : DeltaFits h.toMgr d) :
    FitsInt h.pos ∧ FitsInt (h.pos + d) :=
  hd h.pos (History.position_toMgr h)

/-- What is legal for the manager is legal for its history. -/
theorem legal_attempts {ks : List Call}
    (hlegal : ∀ w k, Machine.Attempts (UndoCxx.step sem heap) x.toWorld ks w k →
      k.Legal heap w.mgr) :
    ∀ y k, Machine.Attempts (step sem heap) x ks y k → k.Legal heap y.history.toMgr := by
  intro y k ho
  apply hlegal y.toWorld
  exact ho.map step_toWorld

theorem legal_request (hk : k.Legal heap x.history.toMgr) :
    x.history.Legal (request heap x.app k) := by
  cases k with
  | invoke c =>
    rcases request_invoke heap x.app c with hr | ⟨m, hr⟩ | ⟨dir, d, hr, ha⟩
    · rw [hr]
      trivial
    · rw [hr]
      trivial
    · rw [hr]
      exact fits_of_delta (hk.asks ha)
  | undoBy c delta => exact fits_of_delta hk
  | redoBy c delta => exact fits_of_delta hk
  | erase n => exact hk
  | maxSize n => exact hk
  | undo c => trivial
  | redo c => trivial
  | clear => trivial

/-- The session after a legal call. -/
def after (heap : Heap A μ) (x : Session A μ) (k : Call) : Session A μ :=
  x.next heap k (x.history.after (request heap x.app k))

theorem erase_of_request {n : ℤ} {a : A} (h : request heap a k = .erase n) : k = .erase n := by
  cases k with
  | invoke c =>
    rcases request_invoke heap a c with hr | ⟨m, hr⟩ | ⟨dir, d, hr, -⟩ <;>
      simp [hr] at h
  | erase n => cases h; rfl
  | undo | redo | undoBy | redoBy | clear | maxSize => cases h

/-- A legal call is defined, once the limit is positive and the cursor may erase. -/
theorem step_legal (hk : k.Legal heap x.history.toMgr) (hl : 0 < x.history.limit)
    (hc : ∀ n, k = .erase n → x.history.CanErase sem) :
    x.step sem heap k = .ok (x.after heap k) := by
  have hh := History.handle_legal (legal_request hk) hl fun n hn => hc n (erase_of_request hn)
  rw [step, hh]
  rfl

theorem eq_after (hk : k.Legal heap x.history.toMgr) (hl : 0 < x.history.limit)
    (h : x.step sem heap k = .ok y) : y = x.after heap k := by
  obtain ⟨g, hg, rfl⟩ := step_eq_ok.mp h
  rw [after, History.eq_after (legal_request hk) hl hg]

/-- Legal calls keep the limit positive. -/
theorem limit_after (hk : k.Legal heap x.history.toMgr) (hl : 0 < x.history.limit) :
    0 < (x.after heap k).history.limit :=
  History.limit_pos_after (legal_request hk) hl

/-- On a circular list no legal run is undefined. -/
theorem legal_run_total {ks : List Call} (hl : 0 < x.history.limit)
    (hlegal : ∀ u k, Machine.Attempts (step .cyclic heap) x ks u k →
      k.Legal heap u.history.toMgr) :
    ∃ y, Machine.run (step .cyclic heap) x ks = .ok y := by
  have hstep : ∀ u k, Machine.Attempts (step .cyclic heap) x ks u k → 0 < u.history.limit →
      ∃ v, u.step .cyclic heap k = .ok v ∧ 0 < v.history.limit := by
    intro u k ho hu
    have hk := hlegal u k ho
    exact ⟨_, step_legal hk hu fun _ _ => Or.inl rfl, limit_after hk hu⟩
  obtain ⟨y, hy, -⟩ := Machine.run_total hstep hl
  exact ⟨y, hy⟩

end Session

end UndoCxx
