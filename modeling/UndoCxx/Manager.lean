import UndoCxx.Cxx.List

/-!
The undo manager `undoable_cmd_system_t`, for its default command class `cmd_t`
and its container `std::list<MementoPtr>`. `sem` says how the list treats steps
over its sentinel; functions that never step an iterator do not take it.
-/
namespace UndoCxx

open Cxx

/-- The identity of a command object, as a `CmdSP` designates it. -/
abbrev CmdId := ℕ

/-! What the detection idiom can see of `cmd_t`: each member function with its
number of parameters. -/

inductive Member
  | id
  | execute
  | saveState
  | undo
  | redo
  | canBeMemento
  deriving DecidableEq

def cmdMembers : List (Member × ℕ) :=
  [(.id, 0), (.execute, 2), (.saveState, 2), (.undo, 3), (.redo, 3), (.canBeMemento, 0)]

/-- `decltype(void(std::declval<T &>().m()))` is well-formed: `m` can be called
without arguments. -/
def detected (members : List (Member × ℕ)) (m : Member) : Bool := members.contains (m, 0)

/-- `has_undo<CmdT>::value` -/
def hasUndo : Bool := detected cmdMembers .undo

/-- `has_redo<CmdT>::value` -/
def hasRedo : Bool := detected cmdMembers .redo

/-- Neither member of `cmd_t` can be called without arguments. -/
theorem not_hasUndo : ¬ hasUndo = true := by decide

theorem not_hasRedo : ¬ hasRedo = true := by decide

structure UndoableCmdSystem (μ : Type) where
  _savedStates : StdList μ
  _position : Iter
  _maxSize : ℕ
  deriving DecidableEq

namespace UndoableCmdSystem

variable {μ : Type}

def fresh : UndoableCmdSystem μ := ⟨.nil, .pastEnd, sizeTMax⟩

def size (s : UndoableCmdSystem μ) : ℕ := s._savedStates.size

def empty (s : UndoableCmdSystem μ) : Bool := s._savedStates.empty

def maxSize (s : UndoableCmdSystem μ) : ℕ := s._maxSize

def setMaxSize (n : ℕ) (s : UndoableCmdSystem μ) : UndoableCmdSystem μ := { s with _maxSize := n }

def position (s : UndoableCmdSystem μ) : Except UB ℕ :=
  s._savedStates.distance s._savedStates.begin s._position

def focusedItem (s : UndoableCmdSystem μ) : Except UB μ := s._savedStates.deref s._position

def newestItem (sem : Sentinel) (s : UndoableCmdSystem μ) : Except UB μ := do
  s._savedStates.deref (← s._savedStates.prev sem s._position)

def canRestore (s : UndoableCmdSystem μ) : Except UB Bool := do
  if s.empty then return false
  return !(← s._savedStates.eq s._position s._savedStates.begin)

def canReplay (s : UndoableCmdSystem μ) : Except UB Bool := do
  if s.empty then return false
  return !(← s._savedStates.eq s._position .pastEnd)

def canUndo (s : UndoableCmdSystem μ) : Except UB Bool := s.canRestore

def canRedo (s : UndoableCmdSystem μ) : Except UB Bool := s.canReplay

/-- What `push` leaves of the list when it has erased `[_position..)`. -/
def eraseTail (s : UndoableCmdSystem μ) : Except UB (StdList μ) := do
  if s.empty then return s._savedStates
  if ← s._savedStates.eq s._position .pastEnd then return s._savedStates
  s._savedStates.eraseRange s._position .pastEnd

/-- The `pop_front` of `push`. -/
def evict (s : UndoableCmdSystem μ) (l : StdList μ) : Except UB (StdList μ) :=
  if l.size ≥ s._maxSize then l.popFront else .ok l

/-- `pos_new > 0 && (size_type) pos_new <= size()` -/
def inBounds (posNew : ℤ) (size : ℕ) : Bool := 0 < posNew && toSizeType posNew ≤ size

/-- The body of the loop in `erase`. -/
def eraseOne (sem : Sentinel) (s : UndoableCmdSystem μ) : Except UB (UndoableCmdSystem μ) := do
  let it := s._position
  if ← s._savedStates.eq it .pastEnd then return s
  let pred ← s._savedStates.prev sem it
  let l ← s._savedStates.erase it
  return { s with _savedStates := l, _position := ← l.next sem pred }

/-- `while (n-- && !empty())`, where `fuel` is how often `n` can still be
decremented before it overflows. -/
def eraseLoop (sem : Sentinel) : ℕ → ℤ → UndoableCmdSystem μ → Except UB (UndoableCmdSystem μ)
  | 0, _, _ => .error .intOverflow
  | fuel + 1, n, s =>
    if n = 0 ∨ s.empty then .ok s else do eraseLoop sem fuel (n - 1) (← s.eraseOne sem)

def erase (sem : Sentinel) (n : ℤ) (s : UndoableCmdSystem μ) : Except UB (UndoableCmdSystem μ) :=
  s.eraseLoop sem (n - intMin).toNat n

def clear (s : UndoableCmdSystem μ) : UndoableCmdSystem μ :=
  { s with _savedStates := s._savedStates.clear, _position := .pastEnd }

end UndoableCmdSystem

/-! The member functions that print. `dbg_print` is compiled in, so that every memento is streamed
when it is recorded and again at each step over it. -/

/-- Which `dbg_print` a line comes from. -/
inductive Event
  | save
  | restore
  | replay
  deriving DecidableEq, Repr

structure Line (τ : Type) where
  event : Event
  position : ℕ
  text : τ
  size : ℕ
  deriving DecidableEq, Repr

namespace Verbose

variable {μ τ : Type}

/-- A `dbg_print`. `print` is `to_string` of what a `MementoPtr` points to, and undefined where
that cannot be streamed. -/
def dbgPrint (print : μ → Except UB τ) (event : Event) (s : UndoableCmdSystem μ)
    (memento : Except UB μ) : Except UB (Line τ) := do
  let position ← s.position
  let text ← print (← memento)
  return ⟨event, position, text, s.size⟩

/-- `push`, with `oom` when the allocator refuses the new node. For `std::list`
only the `pop_front` and `emplace_back` branches are compiled. -/
def push (print : μ → Except UB τ) (oom : Bool) (m : μ) (s : UndoableCmdSystem μ) :
    Except UB (Except Exn Unit × UndoableCmdSystem μ × List (Line τ)) := do
  let l ← s.eraseTail
  let l ← s.evict l
  match l.emplaceBack oom m with
  | .error e => return (.error e, { s with _savedStates := l }, [])
  | .ok l =>
    let s := { s with _savedStates := l, _position := .pastEnd }
    let line ← dbgPrint print .save s l.back
    return (.ok (), s, [line])

def pop (print : μ → Except UB τ) (sem : Sentinel) (s : UndoableCmdSystem μ) :
    Except UB (Bool × UndoableCmdSystem μ × List (Line τ)) := do
  if s.empty then return (false, s, [])
  if ← s._savedStates.eq s._position s._savedStates.begin then return (false, s, [])
  let it ← s._savedStates.prev sem s._position
  let s := { s with _position := it }
  let line ← dbgPrint print .restore s (s._savedStates.deref s._position)
  return (true, s, [line])

def replayOneImpl (print : μ → Except UB τ) (sem : Sentinel) (s : UndoableCmdSystem μ) :
    Except UB (Bool × UndoableCmdSystem μ × List (Line τ)) := do
  if s.empty then return (false, s, [])
  if ← s._savedStates.eq s._position .pastEnd then return (false, s, [])
  let line ← dbgPrint print .replay s (s._savedStates.deref s._position)
  if !(← s._savedStates.eq s._position .pastEnd) then
    return (true, { s with _position := ← s._savedStates.next sem s._position }, [line])
  return (true, s, [line])

def undoOne (print : μ → Except UB τ) (sem : Sentinel) (s : UndoableCmdSystem μ) :=
  pop print sem s

def redoOne (print : μ → Except UB τ) (sem : Sentinel) (s : UndoableCmdSystem μ) :=
  replayOneImpl print sem s

/-- `undo(CmdSP &)` -/
def undo (print : μ → Except UB τ) (sem : Sentinel) (_undoCmd : CmdId)
    (s : UndoableCmdSystem μ) : Except UB (UndoableCmdSystem μ × List (Line τ)) :=
  -- the only branch that calls the command; the compiler drops it
  if h : hasUndo then absurd h not_hasUndo else do
    let (_, r) ← undoOne print sem s
    return r

/-- `redo(CmdSP &)` -/
def redo (print : μ → Except UB τ) (sem : Sentinel) (_redoCmd : CmdId)
    (s : UndoableCmdSystem μ) : Except UB (UndoableCmdSystem μ × List (Line τ)) :=
  if h : hasRedo then absurd h not_hasRedo else do
    let (_, r) ← redoOne print sem s
    return r

/-- The body of a `for` loop, `n` times. -/
def loop (f : UndoableCmdSystem μ → Except UB (UndoableCmdSystem μ × List (Line τ))) :
    ℕ → UndoableCmdSystem μ → Except UB (UndoableCmdSystem μ × List (Line τ))
  | 0, s => .ok (s, [])
  | n + 1, s => do
    let (s, lines) ← f s
    let (s, more) ← loop f n s
    return (s, lines ++ more)

/-- `undo(CmdSP &, int)` -/
def undoBy (print : μ → Except UB τ) (sem : Sentinel) (undoCmd : CmdId) (delta : ℤ)
    (s : UndoableCmdSystem μ) : Except UB (UndoableCmdSystem μ × List (Line τ)) :=
  if h : hasUndo then absurd h not_hasUndo else do
    let pos ← s.position
    let posNew ← intResult (toInt pos - delta)
    if UndoableCmdSystem.inBounds posNew s.size then
      -- the advanced copy of `_position` is never read
      let _it ← s._savedStates.advance sem s._position (← intResult (-delta))
      loop (undo print sem undoCmd) delta.toNat s
    else return (s, [])

/-- `redo(CmdSP, int)` -/
def redoBy (print : μ → Except UB τ) (sem : Sentinel) (redoCmd : CmdId) (delta : ℤ)
    (s : UndoableCmdSystem μ) : Except UB (UndoableCmdSystem μ × List (Line τ)) :=
  if h : hasRedo then absurd h not_hasRedo else do
    let pos ← s.position
    let posNew ← intResult (toInt pos + delta)
    if UndoableCmdSystem.inBounds posNew s.size then
      let _it ← s._savedStates.advance sem s._position delta
      loop (redo print sem redoCmd) delta.toNat s
    else return (s, [])

end Verbose

/-! What is left of them without the output, where every memento can be streamed -/

namespace UndoableCmdSystem

variable {μ : Type}

/-- A printer for mementos that are all streamed as the same. -/
def mute (_ : μ) : Except UB Unit := .ok ()

def push (oom : Bool) (m : μ) (s : UndoableCmdSystem μ) :
    Except UB (Except Exn Unit × UndoableCmdSystem μ) :=
  (Verbose.push mute oom m s).map fun (r, s, _) => (r, s)

def undo (sem : Sentinel) (undoCmd : CmdId) (s : UndoableCmdSystem μ) :
    Except UB (UndoableCmdSystem μ) :=
  (Verbose.undo mute sem undoCmd s).map Prod.fst

def redo (sem : Sentinel) (redoCmd : CmdId) (s : UndoableCmdSystem μ) :
    Except UB (UndoableCmdSystem μ) :=
  (Verbose.redo mute sem redoCmd s).map Prod.fst

def undoBy (sem : Sentinel) (undoCmd : CmdId) (delta : ℤ) (s : UndoableCmdSystem μ) :
    Except UB (UndoableCmdSystem μ) :=
  (Verbose.undoBy mute sem undoCmd delta s).map Prod.fst

def redoBy (sem : Sentinel) (redoCmd : CmdId) (delta : ℤ) (s : UndoableCmdSystem μ) :
    Except UB (UndoableCmdSystem μ) :=
  (Verbose.redoBy mute sem redoCmd delta s).map Prod.fst

end UndoableCmdSystem

end UndoCxx
