import UndoCxx.Effect
import UndoCxx.Run

/-!
The code around a manager, as a syntax tree: it works on the application, calls
the manager, throws and catches, and hands over commands whose callbacks are code
of the same kind. So calls of the manager nest to any depth.
-/
namespace UndoCxx

open Cxx

variable {A μ α σ τ : Type}

/-- The member functions that tell about the manager. -/
inductive Query (μ : Type) : Type → Type
  | size : Query μ ℕ
  | empty : Query μ Bool
  | maxSize : Query μ ℕ
  | position : Query μ ℕ
  | canRestore : Query μ Bool
  | canReplay : Query μ Bool
  | canUndo : Query μ Bool
  | canRedo : Query μ Bool
  | focusedItem : Query μ μ
  | newestItem : Query μ μ

/-- The member functions that change the manager and call no command. -/
inductive Direct
  | undo (c : CmdId)
  | redo (c : CmdId)
  | undoBy (c : CmdId) (delta : ℤ)
  | redoBy (c : CmdId) (delta : ℤ)
  | erase (n : ℤ)
  | clear
  | maxSize (n : ℕ)
  deriving DecidableEq, Repr

inductive Client (A μ : Type) : Type → Type 1
  | pure {α : Type} (a : α) : Client A μ α
  | bind {α β : Type} (x : Client A μ α) (f : α → Client A μ β) : Client A μ β
  | throw {α : Type} (e : Exn) : Client A μ α
  | tryCatch {α : Type} (x : Client A μ α) (handler : Exn → Client A μ α) : Client A μ α
  | app {α : Type} (x : App A α) : Client A μ α
  | query {α : Type} (q : Query μ α) : Client A μ α
  | direct (d : Direct) : Client A μ Unit
  /-- Call a virtual function of a command that is at hand. -/
  | callback {α : Type} (k : Callback μ) (body : Client A μ α) : Client A μ α
  /-- `invoke` of a command with these callbacks. -/
  | invoke (c : CmdId) (canBeMemento : Bool) (doExecute : Client A μ Unit)
      (saveStateImpl : Client A μ μ) (undoImpl redoImpl : μ → Client A μ μ) : Client A μ Unit

namespace Query

def ask (sem : Sentinel) (s : UndoableCmdSystem μ) : Query μ α → Except UB α
  | .size => .ok s.size
  | .empty => .ok s.empty
  | .maxSize => .ok s.maxSize
  | .position => s.position
  | .canRestore => s.canRestore
  | .canReplay => s.canReplay
  | .canUndo => s.canUndo
  | .canRedo => s.canRedo
  | .focusedItem => s.focusedItem
  | .newestItem => s.newestItem sem

end Query

namespace Direct

def apply (sem : Sentinel) (s : UndoableCmdSystem μ) : Direct → Except UB (UndoableCmdSystem μ)
  | .undo c => s.undo sem c
  | .redo c => s.redo sem c
  | .undoBy c delta => s.undoBy sem c delta
  | .redoBy c delta => s.redoBy sem c delta
  | .erase n => s.erase sem n
  | .clear => .ok s.clear
  | .maxSize n => .ok (s.setMaxSize n)

def request : Direct → Request μ
  | .undo _ => .undo
  | .redo _ => .redo
  | .undoBy _ delta => .undoBy delta
  | .redoBy _ delta => .redoBy delta
  | .erase n => .erase n
  | .clear => .clear
  | .maxSize n => .limit n

/-- A direct call is one request to the history. -/
theorem apply_toMgr (sem : Sentinel) (h : History μ) (d : Direct) :
    d.apply sem h.toMgr = (h.handle sem d.request).map History.toMgr := by
  cases d with
  | undo c => exact History.undo_toMgr (c := c) h
  | redo c => exact History.redo_toMgr (c := c) h
  | undoBy c delta => exact History.undoBy_toMgr (c := c) h delta
  | redoBy c delta => exact History.redoBy_toMgr (c := c) h delta
  | erase n => exact History.erase_toMgr n h
  | clear => rfl
  | maxSize n => rfl

end Direct

/-- Read from the manager. -/
def askMgr (f : UndoableCmdSystem μ → Except UB α) : M A μ α := fun w => do
  let a ← f w.mgr
  return (.ok a, w)

def Client.exec (sem : Sentinel) {α : Type} : Client A μ α → M A μ α
  | .pure a => Pure.pure a
  | .bind x f => x.exec sem >>= fun a => (f a).exec sem
  | .throw e => MonadExcept.throw e
  | .tryCatch x handler => MonadExcept.tryCatch (x.exec sem) fun e => (handler e).exec sem
  | .app x => x.lift
  | .query q => askMgr fun s => q.ask sem s
  | .direct d => onMgr fun s => d.apply sem s
  | .callback k body => do
    log k
    body.exec sem
  | .invoke c canBeMemento doExecute saveStateImpl undoImpl redoImpl =>
    UndoCxx.invoke c
      { canBeMemento
        doExecute := fun _ => doExecute.exec sem
        saveStateImpl := fun _ => saveStateImpl.exec sem
        undoImpl := fun _ m => (undoImpl m).exec sem
        redoImpl := fun _ m => (redoImpl m).exec sem }

/-! The calls of a client without nesting are such code. -/

namespace Client

def ofCall (heap : Heap A μ) : Call → Client A μ Unit
  | .invoke c =>
    let i := (heap c).impl
    let saveStateImpl : Client A μ μ := .app (i.saveStateImpl c)
    let undoImpl (m : μ) : Client A μ μ := .app (i.undoImpl c m)
    let redoImpl (m : μ) : Client A μ μ := .app (i.redoImpl c m)
    match (heap c).kind with
    | .recordable => .invoke c true (.app (i.doExecute c)) saveStateImpl undoImpl redoImpl
    | .undo delta => .invoke c false (.direct (.undoBy c delta)) saveStateImpl undoImpl redoImpl
    | .redo delta => .invoke c false (.direct (.redoBy c delta)) saveStateImpl undoImpl redoImpl
  | .undo c => .direct (.undo c)
  | .redo c => .direct (.redo c)
  | .undoBy c delta => .direct (.undoBy c delta)
  | .redoBy c delta => .direct (.redoBy c delta)
  | .erase n => .direct (.erase n)
  | .clear => .direct .clear
  | .maxSize n => .direct (.maxSize n)

/-- One call after the other, whatever they throw. -/
def ofCalls (heap : Heap A μ) : List Call → Client A μ Unit
  | [] => .pure ()
  | k :: ks => .bind (.tryCatch (ofCall heap k) fun _ => .pure ()) fun _ => ofCalls heap ks

variable {sem : Sentinel} {heap : Heap A μ} {k : Call} {w u : World A μ} {ks : List Call}

theorem exec_bind {β : Type} {x : Client A μ α} {a : α} (h : x.exec sem w = .ok (.ok a, u))
    (f : α → Client A μ β) : (Client.bind x f).exec sem w = (f a).exec sem u := by
  refine Effect.bind_apply.trans ?_
  rw [h]

/-- `invoke` sees of a command three of its members and no more. -/
theorem invoke_congr {c : CmdId} {cmd cmd' : Cmd A μ} (hm : cmd.canBeMemento = cmd'.canBeMemento)
    (hx : cmd.doExecute c = cmd'.doExecute c) (hs : cmd.saveStateImpl c = cmd'.saveStateImpl c) :
    UndoCxx.invoke c cmd = UndoCxx.invoke c cmd' := by
  simp only [UndoCxx.invoke, Cmd.execute, save, Cmd.saveState, hm, hx, hs]

/-- A call of a flat run is a client of one call. -/
theorem exec_ofCall (sem : Sentinel) (heap : Heap A μ) (k : Call) :
    (ofCall heap k).exec sem = k.exec sem heap := by
  cases k with
  | invoke c =>
    rw [ofCall, Call.exec, Obj.toCmd]
    cases (heap c).kind with
    | recordable | undo | redo => exact invoke_congr rfl rfl rfl
  | undo | redo | undoBy | redoBy | erase | clear | maxSize => rfl

/-- A flat run is a client that never catches. -/
theorem exec_ofCalls (h : Machine.run (step sem heap) w ks = .ok u) :
    (ofCalls heap ks).exec sem w = .ok (.ok (), u) := by
  induction ks generalizing w with
  | nil => cases h; rfl
  | cons k ks ih =>
    obtain ⟨v, hv, h⟩ := Machine.run_cons_ok h
    obtain ⟨⟨r, _⟩, hk, he⟩ := Machine.bind_eq_ok.mp hv
    cases he
    let caught : M A μ Unit := MonadExcept.tryCatch (k.exec sem heap) fun _ => Pure.pure ()
    have hcatch : caught w = .ok (.ok (), v) := by
      refine Effect.tryCatch_apply.trans ?_
      rw [hk]
      cases r with
      | error e => rfl
      | ok => rfl
    have hexec : (ofCalls heap (k :: ks)).exec sem =
        caught >>= fun _ => (ofCalls heap ks).exec sem := by
      rw [ofCalls, exec, exec, exec_ofCall]
      rfl
    rw [hexec, Effect.bind_apply, hcatch]
    exact ih h

end Client

/-! What a client is run on -/

/-- An implementation of all that a client can ask for. -/
structure Backend (A μ σ : Type) where
  app {α : Type} : App A α → Effect.Prog σ Exn UB α
  query {α : Type} : Query μ α → Effect.Prog σ Exn UB α
  direct : Direct → Effect.Prog σ Exn UB Unit
  log : Callback μ → Effect.Prog σ Exn UB Unit
  push : μ → Effect.Prog σ Exn UB Unit

def Client.run (b : Backend A μ σ) {α : Type} : Client A μ α → Effect.Prog σ Exn UB α
  | .pure a => Pure.pure a
  | .bind x f => x.run b >>= fun a => (f a).run b
  | .throw e => MonadExcept.throw e
  | .tryCatch x handler => MonadExcept.tryCatch (x.run b) fun e => (handler e).run b
  | .app x => b.app x
  | .query q => b.query q
  | .direct d => b.direct d
  | .callback k body => do
    b.log k
    body.run b
  | .invoke c canBeMemento doExecute saveStateImpl _ _ => do
    b.log (.execute c)
    doExecute.run b
    if canBeMemento then
      b.log (.saveState c)
      let m ← saveStateImpl.run b
      b.push m

/-- The manager itself. -/
def manager (sem : Sentinel) : Backend A μ (World A μ) where
  app x := x.lift
  query q := askMgr fun s => q.ask sem s
  direct d := onMgr fun s => d.apply sem s
  log k := UndoCxx.log k
  push m := UndoCxx.push m

/-- With the manager for its backend, a client runs as it does on its own. -/
theorem Client.exec_eq_run (sem : Sentinel) (x : Client A μ α) :
    x.exec sem = x.run (manager sem) := by
  induction x with
  | pure | throw | app | query | direct => rfl
  | bind x f ihx ihf => simp only [exec, run, ihx, ihf]
  | tryCatch x handler ihx ihh => simp only [exec, run, ihx, ihh]
  | callback k body ih =>
    rw [exec, run, ih]
    rfl
  | invoke c canBeMemento doExecute saveStateImpl undoImpl redoImpl ihx ihs =>
    rw [exec, run, ihx, ihs, invoke_eq]
    rfl

namespace Backend

/-- The two implementations do the same, as far as `R` tells. -/
structure Related (R : σ → τ → Prop) (b : Backend A μ σ) (b' : Backend A μ τ) : Prop where
  app {α : Type} (x : App A α) : Effect.Simulates R (b.app x) (b'.app x)
  query {α : Type} (q : Query μ α) : Effect.Simulates R (b.query q) (b'.query q)
  direct (d : Direct) : Effect.Simulates R (b.direct d) (b'.direct d)
  log (k : Callback μ) : Effect.Simulates R (b.log k) (b'.log k)
  push (m : μ) : Effect.Simulates R (b.push m) (b'.push m)

/-- Related implementations cannot be told apart by a client. -/
theorem Related.run {R : σ → τ → Prop} {b : Backend A μ σ} {b' : Backend A μ τ}
    (h : b.Related R b') (x : Client A μ α) : Effect.Simulates R (x.run b) (x.run b') := by
  induction x with
  | pure a => exact .pure a
  | throw e => exact .throw e
  | bind x f ihx ihf => exact ihx.bind ihf
  | tryCatch x handler ihx ihh => exact ihx.tryCatch ihh
  | app x => exact h.app x
  | query q => exact h.query q
  | direct d => exact h.direct d
  | callback k body ih => exact (h.log k).bind fun _ => ih
  | invoke c canBeMemento doExecute saveStateImpl undoImpl redoImpl ihx ihs =>
    refine (h.log _).bind fun _ => ihx.bind fun _ => ?_
    cases canBeMemento with
    | false => exact .pure ()
    | true => exact (h.log _).bind fun _ => ihs.bind h.push

/-- Every service moves the state along a preorder. -/
structure Moves (R : σ → σ → Prop) (b : Backend A μ σ) : Prop where
  refl : ∀ s, R s s
  trans : ∀ s t u, R s t → R t u → R s u
  app {α : Type} (x : App A α) : Effect.Within R (b.app x)
  query {α : Type} (q : Query μ α) : Effect.Within R (b.query q)
  direct (d : Direct) : Effect.Within R (b.direct d)
  log (k : Callback μ) : Effect.Within R (b.log k)
  push (m : μ) : Effect.Within R (b.push m)

/-- A relation that every primitive moves along, every client does. -/
theorem Moves.run {R : σ → σ → Prop} {b : Backend A μ σ} (h : b.Moves R) (x : Client A μ α) :
    Effect.Within R (x.run b) := by
  induction x with
  | pure a => exact .pure h.refl a
  | throw e => exact .throw h.refl e
  | bind x f ihx ihf => exact ihx.bind h.trans ihf
  | tryCatch x handler ihx ihh => exact ihx.tryCatch h.trans ihh
  | app x => exact h.app x
  | query q => exact h.query q
  | direct d => exact h.direct d
  | callback k body ih => exact (h.log k).bind h.trans fun _ => ih
  | invoke c canBeMemento doExecute saveStateImpl undoImpl redoImpl ihx ihs =>
    refine (h.log _).bind h.trans fun _ => ihx.bind h.trans fun _ => ?_
    cases canBeMemento with
    | false => exact .pure h.refl ()
    | true => exact (h.log _).bind h.trans fun _ => ihs.bind h.trans h.push

end Backend

end UndoCxx
