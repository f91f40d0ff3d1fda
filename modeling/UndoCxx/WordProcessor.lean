import UndoCxx.Timeline
import UndoCxx.TypeName

/-!
The word processor of the examples. Its controller makes a command by the name of
the command's class and hands it to the manager.
-/
namespace UndoCxx.WordProcessor

open Cxx

abbrev State := List Char

/-- The lines on `std::cout`. -/
abbrev Screen := List (List Char)

/-- `"<<" << info << ">>"` -/
def line (info : State) : List Char := "<<".toList ++ info ++ ">>".toList

def showInfo (info : State) : App Screen Unit := modify (· ++ [line info])

/-- `memento = info; memento.command(sender)` -/
def assignTo (info : State) (sender : CmdId) (memento : Memento State) :
    App Screen (Memento State) :=
  return (memento.assign info).setCommand (some sender)

def fontStyleCmd (info : State) : Impl Screen (Memento State) where
  doExecute _ := showInfo info
  saveStateImpl sender := return .ofState (some sender) info
  undoImpl := assignTo info
  redoImpl := assignTo info

/-- A class that shows its text and then does what its base does. -/
def showing (info undone redone : State)
    (base : Cmd Screen (Memento State) → Cmd Screen (Memento State)) :
    Cmd Screen (Memento State) :=
  let derived : Impl Screen (Memento State) :=
    { fontStyleCmd info with undoImpl := assignTo undone, redoImpl := assignTo redone }
  let cmd := base derived.toCmd
  { cmd with
    doExecute := fun sender => do
      (showInfo info).lift
      cmd.doExecute sender }

def undoCmd (sem : Sentinel) (info : State) : Cmd Screen (Memento State) :=
  showing info "do 'undo'".toList "do 'un-undo' again".toList (baseUndoCmd sem 1)

def redoCmd (sem : Sentinel) (info : State) : Cmd Screen (Memento State) :=
  showing info "do 'redo'".toList "do 'un-redo' again".toList (baseRedoCmd sem 1)

/-- The products of the controller's factory. -/
inductive Action
  | undo
  | redo
  | fontStyle
  deriving DecidableEq, Repr

namespace Action

/-- In the order in which the factory lists them. -/
def all : List Action := [.undo, .redo, .fontStyle]

def bareName : Action → List Char
  | .undo => "word_processor::UndoCmd".toList
  | .redo => "word_processor::RedoCmd".toList
  | .fontStyle => "word_processor::FontStyleCmd".toList

def toCmd (sem : Sentinel) (info : State) : Action → Cmd Screen (Memento State)
  | .undo => undoCmd sem info
  | .redo => redoCmd sem info
  | .fontStyle => (fontStyleCmd info).toCmd

end Action

/-- How the compiler writes class templates over strings. -/
structure Compiler where
  signature : Signature
  keyword : List Char
  args : List Char
  keyword_mem : keyword ∈ [] :: keywords
  args_enclosed : ['<'] <+: args ∧ ['>'] <:+ args
  args_unmarked : ¬ marker <:+: args
  prober_absent : ¬ proberName <:+: signature.before
  fits : ∀ k : Action, (k.bareName ++ args).length ≤ sizeTMax

namespace Compiler

def className (t : Compiler) (k : Action) : ClassName where
  keyword := t.keyword
  scope := []
  bare := k.bareName
  args := t.args
  keyword_mem := t.keyword_mem
  scope_ends := .inl rfl
  bare_ne_nil := by cases k <;> decide
  bare_plain := by cases k <;> decide
  bare_unmarked := by cases k <;> decide
  args_enclosed := .inr t.args_enclosed
  no_keyword := by
    have hhead : k.bareName.head? = some 'w' := by cases k <;> rfl
    refine not_keyword_of_head (a := 'w') ?_ (by decide)
    rw [List.nil_append, List.head?_append, hhead, Option.some_or]
  fits := by
    rw [List.nil_append]
    exact t.fits k

/-- `type_name<T>()` of the class. -/
def typeName (t : Compiler) (k : Action) : List Char := t.signature.typeName (t.className k).written

/-- `Factory::make_shared`, which returns null under an id of no product. -/
def makeShared (t : Compiler) (id : List Char) (info : State) : Option (Action × State) := do
  let product ← (Factory.create (Action.all.map t.typeName) id info).result
  let k ← Action.all.find? fun k => t.typeName k = product.type
  return (k, product.args)

end Compiler

/-- The two ways to ask the controller for a command. -/
inductive Order
  | byType (k : Action) (info : State)
  | byName (id : List Char) (info : State)

namespace Order

def id (t : Compiler) : Order → List Char
  | .byType k _ => idName (t.typeName k)
  | .byName id _ => id

def info : Order → State
  | .byType _ info => info
  | .byName _ info => info

end Order

/-- `actions_controller` -/
structure Controller where
  system : World Screen (Memento State)
  /-- The identity of the next command object. -/
  allocated : ℕ

namespace Controller

def start : Controller := ⟨.start [], 0⟩

/-- `invoke(cmd)`, which dereferences the pointer. -/
def invokeCmd (sem : Sentinel) (s : Controller) : Option (Action × State) → Except UB Controller
  | none => .error .nullPointer
  | some (k, info) => do
    let (_, w) ← UndoCxx.invoke s.allocated (k.toCmd sem info) s.system
    return ⟨w, s.allocated + 1⟩

/-- `invoke<Cmd>(info)` and `invoke(cmd_id_name, info)` -/
def invoke (sem : Sentinel) (t : Compiler) (s : Controller) (o : Order) : Except UB Controller :=
  s.invokeCmd sem (t.makeShared (o.id t) o.info)

end Controller

/-! What the user sees of it -/

/-- The command and its text that an order means, whatever the compiler writes. -/
def Order.meant : Order → Option (Action × State)
  | .byType k info => some (k, info)
  | .byName id info => (Action.all.find? fun k => k.bareName = id).map fun k => (k, info)

structure Desk where
  screen : Screen
  timeline : Timeline (Memento State)
  allocated : ℕ

def Action.request (c : CmdId) (info : State) : Action → Request (Memento State)
  | .undo => .undoBy 1
  | .redo => .redoBy 1
  | .fontStyle => .record (.ofState (some c) info)

namespace Desk

def start : Desk := ⟨[], .fresh, 0⟩

def after (d : Desk) (p : Action × State) : Desk :=
  ⟨d.screen ++ [line p.2], d.timeline.apply (p.1.request d.allocated p.2), d.allocated + 1⟩

end Desk

variable {t : Compiler} {id : List Char} {info : State}

/-! Names -/

theorem typeName_eq (t : Compiler) (k : Action) : t.typeName k = k.bareName ++ t.args :=
  ClassName.typeName_written t.prober_absent (t.className k)

theorem found (t : Compiler) (k : Action) : (t.className k).Found :=
  .inl (.inl ⟨rfl, t.args_unmarked⟩)

/-- Cutting a listed class name gives the name that the controller asks for. -/
theorem idName_typeName (t : Compiler) (k : Action) : idName (t.typeName k) = k.bareName := by
  rw [typeName_eq]
  exact (t.className k).idName_full_iff.mpr (found t k)

theorem bareName_injective : Function.Injective Action.bareName := by
  intro k k' h
  -- the names differ in the letter after the namespace
  have hletter : k.bareName[16]? = k'.bareName[16]? := by rw [h]
  cases k <;> cases k' <;> first | rfl | exact absurd hletter (by decide)

/-- No two of the registered classes have one name. -/
theorem typeName_injective (t : Compiler) : Function.Injective t.typeName := by
  intro k k' h
  apply bareName_injective
  rw [← idName_typeName t, h, idName_typeName]

theorem mem_all (k : Action) : k ∈ Action.all := by cases k <;> decide

/-- A table with no key twice is searched by key. -/
theorem find?_all {β : Type} [DecidableEq β] {f : Action → β} (hf : Function.Injective f)
    (k : Action) : (Action.all.find? fun k' => f k' = f k) = some k := by
  simp only [hf.eq_iff]
  cases k <;> rfl

/-- A name that the controller asks for is in the table once. -/
theorem named_eq (t : Compiler) (k : Action) :
    Factory.named (Action.all.map t.typeName) k.bareName = [t.typeName k] := by
  have hall : Action.all.Nodup := by decide
  rw [← idName_typeName t, Factory.named_eq_singleton (hall.map (typeName_injective t))
    (List.mem_map_of_mem (mem_all k))]
  intro U hU he
  obtain ⟨k', -, rfl⟩ := List.mem_map.mp hU
  rw [idName_typeName, idName_typeName] at he
  rw [bareName_injective he]

theorem meant_byName : (Order.byName id info).meant =
    (Action.all.find? fun k => k.bareName = id).map fun k => (k, info) := rfl

/-- The factory makes the command that goes by the name, whatever the compiler writes. -/
theorem makeShared_eq (t : Compiler) (id : List Char) (info : State) :
    t.makeShared id info = (Order.byName id info).meant := by
  rw [Compiler.makeShared, Factory.create_eq]
  by_cases h : ∃ k, Action.bareName k = id
  · obtain ⟨k, rfl⟩ := h
    rw [named_eq, meant_byName, find?_all bareName_injective]
    simp only [List.getLast?_singleton, Option.map_some, Option.bind_eq_bind, Option.bind_some,
      find?_all (typeName_injective t), Option.pure_def]
  · have hno : ∀ T ∈ Action.all.map t.typeName, idName T ≠ id := by
      intro T hT he
      obtain ⟨k, -, rfl⟩ := List.mem_map.mp hT
      exact h ⟨k, (idName_typeName t k).symm.trans he⟩
    have hnone : (Action.all.find? fun k => k.bareName = id) = none := by
      rw [List.find?_eq_none]
      intro k _ hk
      exact h ⟨k, by simpa using hk⟩
    rw [Factory.named_eq_nil hno, meant_byName, hnone]
    rfl

/-- The factory builds what the order means, and nothing for a name it does not know. -/
theorem makeShared_order (t : Compiler) (o : Order) : t.makeShared (o.id t) o.info = o.meant := by
  cases o with
  | byName id info => exact makeShared_eq t id info
  | byType k info =>
    rw [Order.id, idName_typeName, makeShared_eq, meant_byName, find?_all bareName_injective]
    rfl

/-! Runs -/

variable {sem : Sentinel} {c : CmdId} {undone redone : State}
  {x : Session Screen (Memento State)} {g : History (Memento State)}

/-- A font style command writes its line and is recorded. -/
theorem invoke_fontStyle (x : Session Screen (Memento State)) (hl : 0 < x.history.limit) :
    ∃ l, UndoCxx.invoke c (fontStyleCmd info).toCmd x.toWorld =
      .ok (.ok (), Session.toWorld
        ⟨x.app ++ [line info], x.history.record (.ofState (some c) info), l⟩) := by
  have ho : (fontStyleCmd info).outcome c x.toWorld.app =
      (.ok (.ofState (some c) info), x.app ++ [line info]) := rfl
  have hp := Session.push_toWorld (h := x.history) (a := x.app ++ [line info])
    (l := x.callbacks ++ (fontStyleCmd info).called c x.app) (.ofState (some c) info)
  rw [if_pos (.inl hl)] at hp
  exact ⟨_, (Impl.invoke_of_ok ho).trans hp⟩

/-- An undo or redo command shows its line on top of what the base class does. -/
theorem invoke_showing {base : Cmd Screen (Memento State) → Cmd Screen (Memento State)}
    {f : UndoableCmdSystem (Memento State) → Except UB (UndoableCmdSystem (Memento State))}
    (hbase : ∀ cmd, (base cmd).canBeMemento = false ∧ (base cmd).doExecute c = onMgr f)
    (hf : f x.history.toMgr = .ok g.toMgr) :
    ∃ l, UndoCxx.invoke c (showing info undone redone base) x.toWorld =
      .ok (.ok (), Session.toWorld ⟨x.app ++ [line info], g, l⟩) := by
  have hmgr : onMgr f (Session.toWorld ⟨x.app ++ [line info], x.history,
      x.callbacks ++ [.execute c]⟩) = .ok (.ok (), Session.toWorld ⟨x.app ++ [line info], g,
      x.callbacks ++ [.execute c]⟩) := by
    rw [onMgr, Session.toWorld, hf]
    rfl
  refine ⟨x.callbacks ++ [.execute c], ?_⟩
  have hmemento : (showing info undone redone base).canBeMemento = false := (hbase _).1
  rw [invoke_of_not_memento hmemento]
  refine (M.bind_ok rfl).trans ?_
  change ((showInfo info).lift >>= fun _ => (base _).doExecute c) _ = _
  rw [(hbase _).2]
  exact (M.bind_ok rfl).trans hmgr

/-- One command shows its text, and the history takes its request. -/
theorem invoke_action (k : Action) (hl : 0 < x.history.limit)
    (hg : x.history.handle sem (k.request c info) = .ok g) :
    ∃ l, UndoCxx.invoke c (k.toCmd sem info) x.toWorld =
      .ok (.ok (), Session.toWorld ⟨x.app ++ [line info], g, l⟩) := by
  cases k with
  | fontStyle =>
    have he : g = x.history.record (.ofState (some c) info) := by
      rw [Action.request, History.handle, if_pos (.inl hl)] at hg
      exact (Except.ok.inj hg).symm
    rw [he]
    exact invoke_fontStyle x hl
  | undo =>
    have hundo : x.history.toMgr.undoBy sem c 1 = .ok g.toMgr :=
      (History.undoBy_toMgr _ 1).trans (congrArg _ hg)
    exact invoke_showing (fun _ => ⟨rfl, rfl⟩) hundo
  | redo =>
    have hredo : x.history.toMgr.redoBy sem c 1 = .ok g.toMgr :=
      (History.redoBy_toMgr _ 1).trans (congrArg _ hg)
    exact invoke_showing (fun _ => ⟨rfl, rfl⟩) hredo

/-- The controller's manager is where the desk says, after as many commands. -/
structure Controller.Sits (s : Controller) (d : Desk) : Prop where
  allocated : s.allocated = d.allocated
  session : ∃ h l, s.system = Session.toWorld ⟨d.screen, h, l⟩ ∧ d.timeline.Follows h ∧
    0 < h.limit ∧ h.serial ≤ d.allocated

/-- The deltas of the menu are 1. -/
theorem request_legal {h : History (Memento State)} (k : Action) (hfit : (h.serial : ℤ) < intMax) :
    h.Legal (k.request c info) := by
  have hpos := h.pos_le_size
  have hsize := h.size_le_serial
  have hmin : intMin ≤ -1 := by decide
  have hback : shift .back 1 = -1 := rfl
  have hforth : shift .forth 1 = 1 := rfl
  cases k with
  | fontStyle => trivial
  | undo => exact ⟨⟨by omega, by omega⟩, by omega, by omega⟩
  | redo => exact ⟨⟨by omega, by omega⟩, by omega, by omega⟩

/-- An order that means something is carried out on both sides. -/
theorem Controller.Sits.invoke (sem : Sentinel) (t : Compiler) {s : Controller} {d : Desk}
    {o : Order} {p : Action × State} (hs : s.Sits d) (ho : o.meant = some p)
    (hfit : (d.allocated : ℤ) < intMax) :
    ∃ s', s.invoke sem t o = .ok s' ∧ s'.Sits (d.after p) := by
  obtain ⟨halloc, h, l, hsys, hf, hl, hserial⟩ := hs
  obtain ⟨k, info⟩ := p
  have hlegal : h.Legal (k.request s.allocated info) := request_legal k (by omega)
  have hg : h.handle sem (k.request s.allocated info) =
      .ok (h.after (k.request s.allocated info)) :=
    History.handle_legal hlegal hl fun n he => by cases k <;> cases he
  have hrec : (k.request s.allocated info).recordings ≤ 1 := by
    cases k with
    | undo | redo => exact Nat.zero_le 1
    | fontStyle => exact Nat.le_refl 1
  obtain ⟨l', hl'⟩ := invoke_action (x := ⟨d.screen, h, l⟩) k hl hg
  let w := Session.toWorld
    ⟨d.screen ++ [line info], h.after (k.request s.allocated info), l'⟩
  refine ⟨⟨w, s.allocated + 1⟩, ?_, ?_⟩
  · rw [Controller.invoke, makeShared_order, ho, Controller.invokeCmd, hsys, hl']
    rfl
  · refine ⟨congrArg (· + 1) halloc, _, l', rfl, ?_, History.limit_pos_after hlegal hl, ?_⟩
    · rw [halloc]
      exact hf.after fun he => by cases k <;> cases he
    · have hafter := h.serial_after (k.request s.allocated info)
      exact hafter.trans_le (Nat.add_le_add hserial hrec)

/-- The controller dereferences what the factory returns without a look. -/
theorem invoke_of_unknown {s : Controller} {o : Order} (ho : o.meant = none) :
    s.invoke sem t o = .error .nullPointer := by
  rw [Controller.invoke, makeShared_order, ho, Controller.invokeCmd]

/-- From any desk: the orders are carried out, or the first one without a meaning is reached. -/
theorem run_orders (sem : Sentinel) (t : Compiler) {s : Controller} {d : Desk}
    {os : List Order} (hs : s.Sits d) (hfit : (d.allocated : ℤ) + os.length ≤ intMax) :
    (∀ ps, os.mapM Order.meant = some ps →
      ∃ s', Machine.run (Controller.invoke sem t) s os = .ok s' ∧ s'.Sits (ps.foldl Desk.after d)) ∧
    (os.mapM Order.meant = none → Machine.run (Controller.invoke sem t) s os =
      .error .nullPointer) := by
  induction os generalizing s d with
  | nil =>
    refine ⟨?_, nofun⟩
    rintro ps ⟨rfl⟩
    exact ⟨s, rfl, hs⟩
  | cons o os ih =>
    rw [List.length_cons] at hfit
    cases ho : o.meant with
    | none =>
      have hnone : (o :: os).mapM Order.meant = none := by
        rw [List.mapM_cons, ho]
        rfl
      rw [hnone, Machine.run_cons, invoke_of_unknown ho]
      exact ⟨nofun, fun _ => rfl⟩
    | some p =>
      obtain ⟨s', hstep, hs'⟩ := hs.invoke sem t ho (by omega)
      have hroom : ((d.after p).allocated : ℤ) + os.length ≤ intMax := by
        have hnext : (d.after p).allocated = d.allocated + 1 := rfl
        omega
      obtain ⟨hgood, hbad⟩ := ih hs' hroom
      have hsplit : (o :: os).mapM Order.meant = (os.mapM Order.meant).map (p :: ·) := by
        rw [List.mapM_cons, ho]
        cases os.mapM Order.meant <;> rfl
      rw [hsplit, Machine.run_cons, hstep, Machine.ok_bind]
      constructor
      · intro ps hps
        obtain ⟨qs, hqs, rfl⟩ := Option.map_eq_some_iff.mp hps
        exact hgood qs hqs
      · intro hnone
        exact hbad (Option.map_eq_none_iff.mp hnone)

theorem sits_start : Controller.start.Sits .start :=
  ⟨rfl, .fresh, [], rfl, rfl, limit_start ([] : Screen), Nat.le_refl 0⟩

/-- The screen shows one line an order. -/
theorem screen_foldl (d : Desk) (ps : List (Action × State)) :
    (ps.foldl Desk.after d).screen = d.screen ++ ps.map fun p => line p.2 := by
  induction ps generalizing d with
  | nil => exact (List.append_nil _).symm
  | cons p ps ih =>
    rw [List.foldl_cons, ih, Desk.after, List.append_assoc]
    rfl

/-- Orders by type and by name, in a program of any compiler: if each one means a command, the
texts of the commands are shown in order and the manager is the timeline of what they ask for. An
order without a meaning dereferences a null pointer. -/
theorem run_controller (sem : Sentinel) (t : Compiler) {os : List Order}
    (hlen : (os.length : ℤ) ≤ intMax) :
    (∀ ps, os.mapM Order.meant = some ps →
      ∃ s, Machine.run (Controller.invoke sem t) .start os = .ok s ∧
        s.system.app = ps.map (fun p => line p.2) ∧
        (ps.foldl Desk.after .start).timeline.Shows sem s.system.mgr) ∧
    (os.mapM Order.meant = none → Machine.run (Controller.invoke sem t) .start os =
      .error .nullPointer) := by
  have hfit : (Desk.start.allocated : ℤ) + os.length ≤ intMax := by
    have hzero : Desk.start.allocated = 0 := rfl
    omega
  obtain ⟨hgood, hbad⟩ := run_orders sem t sits_start hfit
  refine ⟨?_, hbad⟩
  intro ps hps
  obtain ⟨s, hs, -, h, l, hsys, hf, -⟩ := hgood ps hps
  refine ⟨s, hs, ?_, ?_⟩
  · rw [hsys]
    exact (screen_foldl .start ps).trans (List.nil_append _)
  · rw [hsys]
    exact hf.shows

/-- A compiler that writes no keyword. -/
def plainCompiler : Compiler where
  signature := ⟨"wrapped_type_name() [T = ".toList, "]".toList⟩
  keyword := []
  args := "<std::string>".toList
  keyword_mem := by decide
  args_enclosed := by decide
  args_unmarked := by decide
  prober_absent := by decide
  fits k := by cases k <;> decide

/-- A style, undone in vain as the only memento, and a name without its namespace. -/
theorem run_controller_plain :
    (∃ s, Machine.run (Controller.invoke .standard plainCompiler) .start
        [.byType .fontStyle "bold".toList, .byName "word_processor::UndoCmd".toList "undo".toList] =
          .ok s ∧ s.system.app = ["<<bold>>".toList, "<<undo>>".toList] ∧
        s.system.mgr.newestItem .standard = .ok (.ofState (some 0) "bold".toList)) ∧
      Machine.run (Controller.invoke .standard plainCompiler) .start
        [.byName "UndoCmd".toList "undo".toList] = .error .nullPointer := by
  let known : List Order :=
    [.byType .fontStyle "bold".toList, .byName "word_processor::UndoCmd".toList "undo".toList]
  let unknown : List Order := [.byName "UndoCmd".toList "undo".toList]
  have hknown : (known.length : ℤ) ≤ intMax := by decide
  have hunknown : (unknown.length : ℤ) ≤ intMax := by decide
  obtain ⟨hgood, -⟩ := run_controller .standard plainCompiler hknown
  obtain ⟨-, hbad⟩ := run_controller .standard plainCompiler hunknown
  obtain ⟨s, hs, happ, hshows⟩ := hgood [(.fontStyle, "bold".toList), (.undo, "undo".toList)]
    (by decide)
  exact ⟨⟨s, hs, happ, hshows.newest _ rfl⟩, hbad (by decide)⟩

end UndoCxx.WordProcessor
