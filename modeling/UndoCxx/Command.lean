import UndoCxx.Manager

/-!
Commands and the manager's entry points that call them. A callback runs in the
whole world: the application, the manager it may call back into, and a record of
the virtual calls made so far.
-/
namespace UndoCxx

open Cxx

/-- A call of one of the four virtual functions, on the command it is made on. -/
inductive Callback (μ : Type)
  | execute (c : CmdId)
  | saveState (c : CmdId)
  | undo (c : CmdId) (memento : μ)
  | redo (c : CmdId) (memento : μ)
  deriving DecidableEq, Repr

structure World (A μ : Type) where
  app : A
  mgr : UndoableCmdSystem μ
  callbacks : List (Callback μ)
  /-- The allocator refuses the next list node. -/
  oom : Bool

/-- Code that can throw, with undefined behaviour outside of it all. -/
abbrev M (A μ : Type) := ExceptT Exn (StateT (World A μ) (Except UB))

/-- Code that can throw and sees nothing but the application. -/
abbrev App (A : Type) := ExceptT Exn (StateM A)

/-- The overridable part of `cmd_t`; each function is given its `sender`, and the last two
return the memento that they are handed by reference. -/
structure Cmd (A μ : Type) where
  canBeMemento : Bool
  doExecute : CmdId → M A μ Unit
  saveStateImpl : CmdId → M A μ μ
  undoImpl : CmdId → μ → M A μ μ
  redoImpl : CmdId → μ → M A μ μ

variable {A μ α β : Type}

def App.lift (x : App A α) : M A μ α := fun w =>
  let (r, a) := x w.app
  .ok (r, { w with app := a })

theorem App.bind_ok {x : App A α} {f : α → App A β} {a b : A} {v : α} (h : x a = (.ok v, b)) :
    (x >>= f) a = f v b := by
  change (let (r, b) := x a; ExceptT.bindCont (m := StateM A) f r b) = f v b
  rw [h]
  rfl

theorem App.bind_error {x : App A α} {f : α → App A β} {a b : A} {e : Exn}
    (h : x a = (.error e, b)) : (x >>= f) a = (.error e, b) := by
  change (let (r, b) := x a; ExceptT.bindCont (m := StateM A) f r b) = (.error e, b)
  rw [h]
  rfl

theorem App.lift_apply {x : App A α} {w : World A μ} {r : Except Exn α} {a : A}
    (h : x w.app = (r, a)) : x.lift w = .ok (r, { w with app := a }) := by
  simp only [lift, h]

theorem M.bind_ok {x : M A μ α} {f : α → M A μ β} {w w' : World A μ} {v : α}
    (h : x w = .ok (.ok v, w')) : (x >>= f) w = f v w' := by
  change (x w >>= fun p => ExceptT.bindCont (m := StateT (World A μ) (Except UB)) f p.1 p.2) = _
  rw [h]
  rfl

theorem M.bind_throw {x : M A μ α} {f : α → M A μ β} {w w' : World A μ} {e : Exn}
    (h : x w = .ok (.error e, w')) : (x >>= f) w = .ok (.error e, w') := by
  change (x w >>= fun p => ExceptT.bindCont (m := StateT (World A μ) (Except UB)) f p.1 p.2) = _
  rw [h]
  rfl

/-- Call a member function of the manager that does not throw. -/
def onMgr (f : UndoableCmdSystem μ → Except UB (UndoableCmdSystem μ)) : M A μ Unit := fun w => do
  let s ← f w.mgr
  return (.ok (), { w with mgr := s })

def log (k : Callback μ) : M A μ Unit := modify fun w =>
  { w with callbacks := w.callbacks ++ [k] }

namespace Cmd

def execute (cmd : Cmd A μ) (sender : CmdId) : M A μ Unit := do
  log (.execute sender)
  cmd.doExecute sender

def saveState (cmd : Cmd A μ) (sender : CmdId) : M A μ μ := do
  log (.saveState sender)
  cmd.saveStateImpl sender

def undo (cmd : Cmd A μ) (sender : CmdId) (memento : μ) : M A μ μ := do
  log (.undo sender memento)
  cmd.undoImpl sender memento

def redo (cmd : Cmd A μ) (sender : CmdId) (memento : μ) : M A μ μ := do
  log (.redo sender memento)
  cmd.redoImpl sender memento

end Cmd

def push (m : μ) : M A μ Unit := fun w => do
  let (r, s) ← w.mgr.push w.oom m
  return (r, { w with mgr := s })

def save (c : CmdId) (cmd : Cmd A μ) : M A μ Unit := do
  let m ← cmd.saveState c
  push m

def invoke (c : CmdId) (cmd : Cmd A μ) : M A μ Unit := do
  cmd.execute c
  if cmd.canBeMemento then save c cmd

/-- A command that is no memento is executed and not recorded. -/
theorem invoke_of_not_memento {c : CmdId} {cmd : Cmd A μ} (h : cmd.canBeMemento = false) :
    invoke c cmd = cmd.execute c := by
  simp [invoke, h]

/-- An `invoke` with its callbacks spelled out. -/
theorem invoke_eq (c : CmdId) (cmd : Cmd A μ) :
    invoke c cmd = (do
      log (.execute c)
      cmd.doExecute c
      if cmd.canBeMemento then
        log (.saveState c)
        let m ← cmd.saveStateImpl c
        push m) := by
  simp only [invoke, Cmd.execute, save, Cmd.saveState, bind_assoc]

/-- `base_undo_cmd_t`; what it leaves pure virtual is up to `derived`. -/
def baseUndoCmd (sem : Sentinel) (delta : ℤ) (derived : Cmd A μ) : Cmd A μ :=
  { derived with
    canBeMemento := false
    doExecute := fun sender => onMgr (·.undoBy sem sender delta) }

/-- `base_redo_cmd_t` -/
def baseRedoCmd (sem : Sentinel) (delta : ℤ) (derived : Cmd A μ) : Cmd A μ :=
  { derived with
    canBeMemento := false
    doExecute := fun sender => onMgr (·.redoBy sem sender delta) }

/-- A recordable command whose callbacks stay within the application. -/
structure Impl (A μ : Type) where
  doExecute : CmdId → App A Unit
  saveStateImpl : CmdId → App A μ
  undoImpl : CmdId → μ → App A μ
  redoImpl : CmdId → μ → App A μ

namespace Impl

variable {i : Impl A μ} {c : CmdId} {a b : A} {e : Exn} {m : μ} {w : World A μ}
  {r : Except Exn Unit} {v : Except Exn μ}

def toCmd (i : Impl A μ) : Cmd A μ where
  canBeMemento := true
  doExecute c := (i.doExecute c).lift
  saveStateImpl c := (i.saveStateImpl c).lift
  undoImpl c m := (i.undoImpl c m).lift
  redoImpl c m := (i.redoImpl c m).lift

/-- What an `invoke` does to the application before it pushes the memento. -/
def outcome (i : Impl A μ) (c : CmdId) : App A μ := do
  i.doExecute c
  i.saveStateImpl c

/-- The callbacks of an `invoke`: the state is not saved when `do_execute` throws. -/
def called (i : Impl A μ) (c : CmdId) (a : A) : List (Callback μ) :=
  match (i.doExecute c a).1 with
  | .ok () => [.execute c, .saveState c]
  | .error _ => [.execute c]

/-- An execution changes the document and is logged, and leaves the manager alone. -/
theorem execute_toCmd (h : i.doExecute c w.app = (r, b)) : i.toCmd.execute c w =
    .ok (r, { w with app := b, callbacks := w.callbacks ++ [.execute c] }) := by
  have hlift : (i.doExecute c).lift { w with callbacks := w.callbacks ++ [.execute c] } = _ :=
    App.lift_apply h
  exact (M.bind_ok rfl).trans hlift

theorem saveState_toCmd (h : i.saveStateImpl c w.app = (v, b)) : i.toCmd.saveState c w =
    .ok (v, { w with app := b, callbacks := w.callbacks ++ [.saveState c] }) := by
  have hlift : (i.saveStateImpl c).lift { w with callbacks := w.callbacks ++ [.saveState c] } = _ :=
    App.lift_apply h
  exact (M.bind_ok rfl).trans hlift

/-- An `invoke` is its callbacks followed, if they return, by one `push`. -/
theorem invoke_of_throw (h : i.outcome c w.app = (.error e, a)) : invoke c i.toCmd w =
    .ok (.error e, { w with app := a, callbacks := w.callbacks ++ i.called c w.app }) := by
  have hbind : invoke c i.toCmd = i.toCmd.execute c >>= fun _ => save c i.toCmd := rfl
  rw [hbind]
  rcases hx : i.doExecute c w.app with ⟨e' | _, b⟩
  · have ho : i.outcome c w.app = (.error e', b) := App.bind_error hx
    have hk : i.called c w.app = [.execute c] := by simp only [called, hx]
    rw [ho] at h
    cases h
    rw [M.bind_throw (execute_toCmd hx), hk]
  · have ho : i.outcome c w.app = i.saveStateImpl c b := App.bind_ok hx
    have hk : i.called c w.app = [.execute c, .saveState c] := by simp only [called, hx]
    rw [ho] at h
    have hsave := saveState_toCmd (w := ⟨b, w.mgr, w.callbacks ++ [.execute c], w.oom⟩) h
    rw [M.bind_ok (execute_toCmd hx), save, M.bind_throw hsave, hk, List.append_assoc]
    rfl

/-- A command that returns its memento has it pushed after its last callback. -/
theorem invoke_of_ok (h : i.outcome c w.app = (.ok m, a)) : invoke c i.toCmd w =
    push m { w with app := a, callbacks := w.callbacks ++ i.called c w.app } := by
  have hbind : invoke c i.toCmd = i.toCmd.execute c >>= fun _ => save c i.toCmd := rfl
  rw [hbind]
  rcases hx : i.doExecute c w.app with ⟨_ | _, b⟩
  · have ho : i.outcome c w.app = (.error _, b) := App.bind_error hx
    rw [ho] at h
    cases h
  · have ho : i.outcome c w.app = i.saveStateImpl c b := App.bind_ok hx
    have hk : i.called c w.app = [.execute c, .saveState c] := by simp only [called, hx]
    rw [ho] at h
    have hsave := saveState_toCmd (w := ⟨b, w.mgr, w.callbacks ++ [.execute c], w.oom⟩) h
    rw [M.bind_ok (execute_toCmd hx), save, M.bind_ok hsave, hk, List.append_assoc]
    rfl

end Impl

end UndoCxx
