import Mathlib.Data.Stream.Defs
import UndoCxx.View

/-!
An allocator that may refuse any list node. A recording that has truncated the
list before it fails leaves the cursor on a node that is gone, and the client
goes on with that.
-/
namespace UndoCxx

open Cxx

variable {A μ α : Type}

/-- Nothing recorded, with the next node to be `serial`. -/
def History.restart (serial limit : ℕ) : History μ :=
  ⟨.empty, serial, limit, List.nodup_nil, fun _ hn => absurd hn List.not_mem_nil⟩

namespace UndoableCmdSystem

variable {s : UndoableCmdSystem μ} {sem : Sentinel} {c : CmdId} {m : μ}

/-- The cursor designates a node that has left the list. -/
def Stale (s : UndoableCmdSystem μ) : Prop :=
  s._savedStates.locate s._position = .error .staleIterator

/-- A stale cursor cannot be compared. -/
theorem Stale.eq (hs : s.Stale) (it : Iter) :
    s._savedStates.eq s._position it = .error .staleIterator := by
  rw [StdList.eq, hs, Machine.error_bind]

/-- Nor can the distance to it be counted. -/
theorem Stale.distance (hs : s.Stale) : s.position = .error .staleIterator := by
  rw [position, StdList.distance, StdList.locate_begin, hs]
  rfl

/-- A query that compares the cursor is answered for an empty list only. -/
theorem Stale.canRestore (hs : s.Stale) :
    s.canRestore = if s.empty then .ok false else .error .staleIterator := by
  rw [UndoableCmdSystem.canRestore, hs.eq]
  cases s.empty <;> rfl

theorem Stale.canReplay (hs : s.Stale) :
    s.canReplay = if s.empty then .ok false else .error .staleIterator := by
  rw [UndoableCmdSystem.canReplay, hs.eq]
  cases s.empty <;> rfl

theorem Stale.focusedItem (hs : s.Stale) : s.focusedItem = .error .staleIterator := by
  rw [UndoableCmdSystem.focusedItem, StdList.deref, hs, Machine.error_bind]

/-- There is no predecessor of a node that is gone. -/
theorem Stale.newestItem (hs : s.Stale) : s.newestItem sem = .error .staleIterator := by
  have hprev : s._savedStates.prev sem s._position = .error .staleIterator := by
    rw [StdList.prev.eq_def, hs, Machine.error_bind]
  rw [UndoableCmdSystem.newestItem, hprev, Machine.error_bind]

/-- A single step asks for emptiness before it looks at the cursor. -/
theorem Stale.undo (hs : s.Stale) :
    s.undo sem c = if s.empty then .ok s else .error .staleIterator := by
  rw [UndoableCmdSystem.undo, Verbose.undo, dif_neg not_hasUndo, Verbose.undoOne, Verbose.pop,
    hs.eq]
  cases s.empty <;> rfl

theorem Stale.redo (hs : s.Stale) :
    s.redo sem c = if s.empty then .ok s else .error .staleIterator := by
  rw [UndoableCmdSystem.redo, Verbose.redo, dif_neg not_hasRedo, Verbose.redoOne,
    Verbose.replayOneImpl, hs.eq]
  cases s.empty <;> rfl

/-- A batch counts its position first, in an empty list as well. -/
theorem Stale.undoBy (hs : s.Stale) (d : ℤ) : s.undoBy sem c d = .error .staleIterator := by
  rw [UndoableCmdSystem.undoBy, Verbose.undoBy, dif_neg not_hasUndo, hs.distance,
    Machine.error_bind, Machine.map_error]

theorem Stale.redoBy (hs : s.Stale) (d : ℤ) : s.redoBy sem c d = .error .staleIterator := by
  rw [UndoableCmdSystem.redoBy, Verbose.redoBy, dif_neg not_hasRedo, hs.distance,
    Machine.error_bind, Machine.map_error]

theorem Stale.eraseOne (hs : s.Stale) : s.eraseOne sem = .error .staleIterator := by
  rw [UndoableCmdSystem.eraseOne, hs.eq, Machine.error_bind]

/-- To erase nothing, or from an empty list, does not look at the cursor. -/
theorem Stale.erase (hs : s.Stale) (n : ℤ) : s.erase sem n =
    if n ≤ intMin then .error .intOverflow
    else if n = 0 ∨ s.empty then .ok s
    else .error .staleIterator := by
  rw [UndoableCmdSystem.erase]
  by_cases hn : n ≤ intMin
  · rw [if_pos hn, Int.toNat_of_nonpos (by omega), eraseLoop]
  · obtain ⟨fuel, hf⟩ := Nat.exists_eq_succ_of_ne_zero (n := (n - intMin).toNat) (by omega)
    rw [if_neg hn, hf, eraseLoop, hs.eraseOne, Machine.error_bind]

/-- What is left of each call: only `clear` and a limit mean the same as ever. -/
theorem Stale.apply (hs : s.Stale) (d : Direct) : d.apply sem s =
    match d with
    | .undo _ | .redo _ => if s.empty then .ok s else .error .staleIterator
    | .undoBy _ _ | .redoBy _ _ => .error .staleIterator
    | .erase n =>
      if n ≤ intMin then .error .intOverflow
      else if n = 0 ∨ s.empty then .ok s
      else .error .staleIterator
    | .clear => .ok s.clear
    | .maxSize n => .ok (s.setMaxSize n) := by
  cases d with
  | undo c => exact hs.undo
  | redo c => exact hs.redo
  | undoBy c delta => exact hs.undoBy delta
  | redoBy c delta => exact hs.redoBy delta
  | erase n => exact hs.erase n
  | clear | maxSize => rfl

/-- `clear()` sets the cursor anew, whatever it was. -/
theorem clear_eq (s : UndoableCmdSystem μ) :
    s.clear = (History.restart s._savedStates.fresh s._maxSize).toMgr := rfl

/-- A push into an empty list never looks at the cursor. -/
theorem Stale.push (hs : s.Stale) (oom : Bool) (m : μ) : s.push oom m =
    if s.empty then
      if s._maxSize = 0 then .error .emptyContainer
      else if oom then .ok (.error .badAlloc, s)
      else .ok (.ok (), ((History.restart s._savedStates.fresh s._maxSize).record m).toMgr)
    else .error .staleIterator := by
  rw [UndoableCmdSystem.push, Verbose.push, eraseTail]
  cases he : s.empty with
  | false =>
    rw [if_neg Bool.false_ne_true, hs.eq]
    rfl
  | true =>
    have hnil : s._savedStates.nodes = [] := List.isEmpty_iff.mp he
    have hsize : s._savedStates.size = 0 := congrArg List.length hnil
    have hpop : s._savedStates.popFront = .error .emptyContainer := if_pos he
    have hevict : s.evict s._savedStates =
        if s._maxSize = 0 then .error .emptyContainer else .ok s._savedStates := by
      rw [evict, hsize, hpop]
      by_cases hl : s._maxSize = 0 <;> simp [hl]
    simp only [if_true, Machine.pure_eq_ok, Machine.ok_bind, hevict]
    by_cases hl : s._maxSize = 0
    · rw [if_pos hl, if_pos hl]
      rfl
    rw [if_neg hl, if_neg hl, Machine.ok_bind]
    cases oom with
    | true => rfl
    | false =>
      have hclear : s.clear.push false m = _ :=
        (History.restart s._savedStates.fresh s._maxSize).push_toMgr m
          (Or.inl (Nat.pos_of_ne_zero hl))
      have hsame : s._savedStates = s.clear._savedStates := StdList.ext hnil rfl
      have hevict' : s.clear.evict s.clear._savedStates = .ok s.clear._savedStates := by
        rw [← hsame]
        exact hevict.trans (if_neg hl)
      have htail : s.clear.eraseTail = .ok s.clear._savedStates := rfl
      rw [if_neg Bool.false_ne_true, ← hclear, UndoableCmdSystem.push, Verbose.push, htail,
        Machine.ok_bind, hevict', hsame]
      rfl

end UndoableCmdSystem

/-- A manager as its client finds it: sound, or with its cursor lost. -/
inductive Store (μ : Type)
  | sound (z : Zipper μ)
  | dangling (values : List μ) (limit : ℕ)

namespace Store

def ask (sem : Sentinel) (q : Query μ α) : Store μ → Except UB α
  | .sound z => z.ask sem q
  | .dangling values limit =>
    match q with
    | .size => .ok values.length
    | .empty => .ok values.isEmpty
    | .maxSize => .ok limit
    | .canRestore | .canReplay | .canUndo | .canRedo =>
      if values.isEmpty then .ok false else .error .staleIterator
    | .position | .focusedItem | .newestItem => .error .staleIterator

def direct (sem : Sentinel) (d : Direct) : Store μ → Except UB (Store μ)
  | .sound z => (z.handle sem d.request).map sound
  | .dangling values limit =>
    match d with
    | .undo _ | .redo _ =>
      if values.isEmpty then .ok (.dangling values limit) else .error .staleIterator
    | .undoBy _ _ | .redoBy _ _ => .error .staleIterator
    | .erase n =>
      if n ≤ intMin then .error .intOverflow
      else if n = 0 ∨ values.isEmpty then .ok (.dangling values limit)
      else .error .staleIterator
    | .clear => .ok (.sound ⟨.empty, limit⟩)
    | .maxSize n => .ok (.dangling values n)

/-- A recording, which loses the cursor when its node is refused after a truncation. -/
def record (refused : Bool) (m : μ) : Store μ → Except UB (Except Exn Unit × Store μ)
  | .sound z =>
    if 0 < z.limit ∨ z.stack.past ≠ [] then
      if refused then
        if z.stack.future = [] then .ok (.error .badAlloc, .sound (z.edit (·.evict z.limit)))
        else .ok (.error .badAlloc, .dangling (z.stack.evict z.limit).entries z.limit)
      else .ok (.ok (), .sound (z.edit (·.record z.limit m)))
    else .error .emptyContainer
  | .dangling values limit =>
    if values.isEmpty then
      if limit = 0 then .error .emptyContainer
      else if refused then .ok (.error .badAlloc, .dangling values limit)
      else .ok (.ok (), .sound ⟨⟨[m], []⟩, limit⟩)
    else .error .staleIterator

/-- The manager has nodes for what the store holds. -/
def Describes (s : UndoableCmdSystem μ) : Store μ → Prop
  | .sound z => ∃ h : History μ, s = h.toMgr ∧ z = h.forget
  | .dangling values limit =>
    s.Stale ∧ s._savedStates.values = values ∧ s._maxSize = limit

end Store

namespace History

variable {h : History μ}

theorem forget_restart_record {serial limit : ℕ} (m : μ) :
    ((restart serial limit).record m).forget = ⟨⟨[m], []⟩, limit⟩ := by
  rw [forget_record]
  exact congrArg (Zipper.mk · limit) (TwoStack.record_empty limit m)

/-- The history after a refused recording that had nothing to redo. -/
def evict (h : History μ) : History μ :=
  h.withStacks (h.stack.evict h.limit) (by
    rw [TwoStack.entries, TwoStack.entries]
    exact (h.stack.past_evict_sublist _).reverse.append (List.nil_sublist _))

/-- The destructive steps of `push` are an eviction and the loss of the redo tail. -/
theorem keptList_eq (h : History μ) : h.keptList = h.evict.toList :=
  StdList.ext (List.append_nil _).symm rfl

theorem forget_evict (h : History μ) : h.evict.forget = h.forget.edit (·.evict h.limit) :=
  forget_eq (TwoStack.map_evict _) rfl

/-- With nothing to redo, a refused recording leaves the cursor at `end()`, where it was. -/
theorem evict_toMgr (hf : h.stack.future = []) :
    { h.toMgr with _savedStates := h.keptList } = h.evict.toMgr := by
  rw [keptList_eq, toMgr, hf]
  rfl

theorem values_keptList (h : History μ) :
    h.keptList.values = (h.forget.stack.evict h.limit).entries := by
  have hforget : h.evict.forget.stack = h.forget.stack.evict h.limit :=
    congrArg Zipper.stack h.forget_evict
  rw [keptList_eq, ← hforget]
  exact (TwoStack.entries_map _ _).symm

/-- The node at the cursor is not among those that were kept. -/
theorem stale_keptList (hf : h.stack.future ≠ []) :
    ({ h.toMgr with _savedStates := h.keptList } : UndoableCmdSystem μ).Stale := by
  obtain ⟨n, future, hf⟩ := List.exists_cons_of_ne_nil hf
  have hsplit : h.toList.nodes = h.stack.past.reverse ++ n :: future := by
    rw [← hf]
    rfl
  have habsent : ∀ k ∈ h.keptList.nodes, k.id ≠ n.id := by
    intro k hk
    have hpast : k ∈ h.stack.past :=
      (h.stack.past_evict_sublist h.limit).subset (List.mem_reverse.mp hk)
    exact StdList.id_ne_of_split hsplit (List.mem_reverse.mpr hpast)
  rw [UndoableCmdSystem.Stale, toMgr, hf]
  exact StdList.locate_absent habsent

end History

namespace Store

variable {s : UndoableCmdSystem μ} {st : Store μ} {sem : Sentinel}

/-- Queries that a stale cursor leaves undefined are undefined in both. -/
theorem Describes.ask (hs : st.Describes s) (q : Query μ α) : q.ask sem s = st.ask sem q := by
  cases st with
  | sound z =>
    obtain ⟨h, rfl, rfl⟩ := hs
    exact h.ask_toMgr sem q
  | dangling values limit =>
    obtain ⟨hstale, rfl, rfl⟩ := hs
    have hempty : s._savedStates.values.isEmpty = s.empty := List.isEmpty_map
    cases q with
    | size => exact congrArg Except.ok (List.length_map _).symm
    | empty => exact congrArg Except.ok hempty.symm
    | maxSize => rfl
    | position => exact hstale.distance
    | canRestore | canUndo => exact hstale.canRestore.trans (by rw [Store.ask, hempty])
    | canReplay | canRedo => exact hstale.canReplay.trans (by rw [Store.ask, hempty])
    | focusedItem => exact hstale.focusedItem
    | newestItem => exact hstale.newestItem

/-- What a call does to the manager it does to the store. -/
theorem Describes.direct (hs : st.Describes s) (d : Direct) :
    Effect.Agree (fun s st => st.Describes s) (Effect.update (ε := Exn) (d.apply sem ·) s)
      (Effect.update (·.direct sem d) st) := by
  simp only [Effect.update]
  cases st with
  | sound z =>
    obtain ⟨h, rfl, rfl⟩ := hs
    rw [Store.direct, d.apply_toMgr, ← h.forget_handle]
    cases h.handle sem d.request with
    | error e => exact .failed e
    | ok g => exact .ended _ ⟨g, rfl, rfl⟩
  | dangling values limit =>
    obtain ⟨hstale, rfl, rfl⟩ := hs
    have hempty : s._savedStates.values.isEmpty = s.empty := List.isEmpty_map
    have hsame : (dangling s._savedStates.values s._maxSize).Describes s := ⟨hstale, rfl, rfl⟩
    rw [hstale.apply]
    cases d with
    | undo c | redo c =>
      simp only [Store.direct, hempty]
      cases s.empty with
      | false => exact .failed _
      | true => exact .ended _ hsame
    | undoBy c delta | redoBy c delta => exact .failed _
    | erase n =>
      simp only [Store.direct, hempty]
      by_cases hmin : n ≤ intMin
      · rw [if_pos hmin, if_pos hmin]
        exact .failed _
      rw [if_neg hmin, if_neg hmin]
      by_cases hstop : n = 0 ∨ s.empty = true
      · rw [if_pos hstop, if_pos hstop]
        exact .ended _ hsame
      · rw [if_neg hstop, if_neg hstop]
        exact .failed _
    | clear => exact .ended _ ⟨.restart s._savedStates.fresh s._maxSize, s.clear_eq, rfl⟩
    | maxSize n => exact .ended _ ⟨hstale, rfl, rfl⟩

/-- A recording does to the manager what it does to the store. -/
theorem Describes.record (hs : st.Describes s) (oom : Bool) (m : μ) :
    Effect.Agree (fun s st => st.Describes s) (s.push oom m) (st.record oom m) := by
  cases st with
  | sound z =>
    obtain ⟨h, rfl, rfl⟩ := hs
    have hcan : (0 < h.forget.limit ∨ h.forget.stack.past ≠ []) ↔ h.CanRecord :=
      or_congr_right h.past_forget.not
    rw [Store.record, if_congr hcan rfl rfl]
    by_cases hc : h.CanRecord
    · rw [if_pos hc]
      cases oom with
      | false =>
        rw [h.push_toMgr m hc]
        exact .ended _ ⟨h.record m, rfl, (h.forget_record m).symm⟩
      | true =>
        have hfuture : h.forget.stack.future = [] ↔ h.stack.future = [] := List.map_eq_nil_iff
        rw [h.push_oom_toMgr m hc, if_congr hfuture rfl rfl]
        by_cases hf : h.stack.future = []
        · rw [if_pos hf, h.evict_toMgr hf]
          exact .ended _ ⟨h.evict, rfl, h.forget_evict.symm⟩
        · rw [if_neg hf]
          exact .ended _ ⟨h.stale_keptList hf, h.values_keptList, rfl⟩
    · rw [if_neg hc, h.push_error oom m hc]
      exact .failed _
  | dangling values limit =>
    obtain ⟨hstale, rfl, rfl⟩ := hs
    have hempty : s._savedStates.values.isEmpty = s.empty := List.isEmpty_map
    rw [Store.record, hstale.push, hempty]
    cases s.empty with
    | false => exact .failed _
    | true =>
      simp only [if_true]
      by_cases hl : s._maxSize = 0
      · rw [if_pos hl, if_pos hl]
        exact .failed _
      rw [if_neg hl, if_neg hl]
      cases oom with
      | true => exact .ended _ ⟨hstale, rfl, rfl⟩
      | false => exact .ended _ ⟨_, rfl, (History.forget_restart_record m).symm⟩

/-- All that the member functions tell about a store. -/
def Shown (sem : Sentinel) (s : UndoableCmdSystem μ) : Store μ → Prop
  | .sound z => Lockstep sem s z.stack ∧ s.maxSize = z.limit
  | .dangling values limit =>
    s._savedStates.values = values ∧ s.position = .error .staleIterator ∧ s.maxSize = limit

theorem Describes.shown (hs : st.Describes s) : st.Shown sem s := by
  cases st with
  | sound z =>
    obtain ⟨h, rfl, rfl⟩ := hs
    exact ⟨lockstep_toMgr h, rfl⟩
  | dangling values limit =>
    obtain ⟨hstale, hv, hl⟩ := hs
    exact ⟨hv, hstale.distance, hl⟩

end Store

/-- What a client sees of a world whose allocator may fail. -/
structure Scene (A μ : Type) where
  app : A
  store : Store μ
  callbacks : List (Callback μ)

/-- The manager, with an allocator that refuses the nodes at which the stream says so. -/
def flaky (sem : Sentinel) : Backend A μ (World A μ × Stream' Bool) where
  app x := Effect.onFst ((manager sem).app x)
  query q := Effect.onFst ((manager sem).query q)
  direct d := Effect.onFst ((manager sem).direct d)
  log k := Effect.onFst ((manager sem).log k)
  push m := fun (w, refusals) => do
    let (r, s) ← w.mgr.push refusals.head m
    return (r, ({ w with mgr := s }, refusals.tail))

namespace Scene

def start (a : A) : Scene A μ := ⟨a, .sound .fresh, []⟩

def onApp (x : App A α) : Effect.Prog (Scene A μ) Exn UB α := fun v =>
  let (r, a) := x v.app
  .ok (r, { v with app := a })

def onStore : Effect.Prog (Store μ) Exn UB α → Effect.Prog (Scene A μ) Exn UB α :=
  Effect.zoom store fun v st => { v with store := st }

def model (sem : Sentinel) : Backend A μ (Scene A μ × Stream' Bool) where
  app x := Effect.onFst (onApp x)
  query q := Effect.onFst (onStore fun st => do
    let a ← st.ask sem q
    return (.ok a, st))
  direct d := Effect.onFst (onStore (Effect.update (·.direct sem d)))
  log k := Effect.onFst (modify fun v => { v with callbacks := v.callbacks ++ [k] })
  push m := fun (v, refusals) => do
    let (r, st) ← v.store.record refusals.head m
    return (r, ({ v with store := st }, refusals.tail))

end Scene

/-- The same application and callbacks, and a store that is as `R` says. -/
structure Staged (R : UndoableCmdSystem μ → Store μ → Prop) (w : World A μ) (v : Scene A μ) :
    Prop where
  app : w.app = v.app
  callbacks : w.callbacks = v.callbacks
  store : R w.mgr v.store

theorem onMgr_eq_zoom (f : UndoableCmdSystem μ → Except UB (UndoableCmdSystem μ)) :
    (onMgr f : M A μ Unit) = Effect.zoom World.mgr (fun w s => { w with mgr := s })
      (Effect.update f) := by
  funext w
  rw [onMgr, Effect.zoom, Effect.update]
  cases f w.mgr <;> rfl

/-- Each primitive on the refusing allocator is one of the two-mode store. -/
theorem flaky_related (sem : Sentinel) : (flaky sem : Backend A μ _).Related
    (fun p q => Staged (fun s st => st.Describes s) p.1 q.1 ∧ p.2 = q.2) (Scene.model sem) where
  app x := by
    apply Effect.Simulates.onFst (R := Staged fun s st => st.Describes s)
    rintro ⟨a, s, l, oom⟩ ⟨_, st, _⟩ ⟨rfl, rfl, hs⟩
    exact .ended (x a).1 ⟨rfl, rfl, hs⟩
  query q := by
    apply Effect.Simulates.onFst (R := Staged fun s st => st.Describes s)
    rintro ⟨a, s, l, oom⟩ ⟨_, st, _⟩ ⟨rfl, rfl, hs⟩
    simp only [manager, askMgr, Scene.onStore, Effect.zoom, hs.ask]
    cases st.ask sem q with
    | error e => exact .failed e
    | ok r => exact .ended _ ⟨rfl, rfl, hs⟩
  direct d := by
    apply Effect.Simulates.onFst (R := Staged fun s st => st.Describes s)
    have hdirect : Effect.Simulates (fun s st => Store.Describes s st)
        (Effect.update (ε := Exn) (d.apply (μ := μ) sem ·)) (Effect.update (·.direct sem d)) :=
      fun _ _ hs => hs.direct d
    have hmgr : (manager sem : Backend A μ _).direct d = _ := onMgr_eq_zoom (d.apply sem ·)
    rw [hmgr]
    exact hdirect.zoom (fun _ _ h => h.store) fun _ _ _ _ h hs => ⟨h.app, h.callbacks, hs⟩
  log k := by
    apply Effect.Simulates.onFst (R := Staged fun s st => st.Describes s)
    rintro ⟨a, s, l, oom⟩ ⟨_, st, _⟩ ⟨rfl, rfl, hs⟩
    exact .ended _ ⟨rfl, rfl, hs⟩
  push m := by
    rintro ⟨⟨a, s, l, oom⟩, refusals⟩ ⟨⟨_, st, _⟩, _⟩ ⟨⟨rfl, rfl, hs⟩, rfl⟩
    have hrecord := hs.record refusals.head m
    simp only [flaky, Scene.model]
    generalize s.push refusals.head m = o at hrecord
    generalize st.record refusals.head m = o' at hrecord
    cases hrecord with
    | failed e => exact .failed e
    | ended r h => exact .ended r ⟨⟨rfl, rfl, h⟩, rfl⟩

theorem staged_fresh (a : A) (limit : ℕ) (l : List (Callback μ)) (serial : ℕ) :
    Staged (fun s st => st.Describes s) ⟨a, (History.restart serial limit).toMgr, l, false⟩
      ⟨a, .sound ⟨.empty, limit⟩, l⟩ :=
  ⟨rfl, rfl, .restart serial limit, rfl, rfl⟩

/-- Whichever nodes the allocator refuses, any code does to the manager what it does to a store
that is sound or has lost its cursor. -/
theorem outage_refines (sem : Sentinel) (a : A) (refusals : Stream' Bool) (x : Client A μ α) :
    Effect.Agree (fun p q => Staged (fun s st => st.Shown sem s) p.1 q.1 ∧ p.2 = q.2)
      (x.run (flaky sem) (.start a, refusals)) (x.run (Scene.model sem) (.start a, refusals)) := by
  have hstart : Staged (fun s st => st.Describes s) (.start a : World A μ) (.start a) :=
    staged_fresh a sizeTMax [] 0
  refine ((flaky_related sem).run x _ _ ⟨hstart, rfl⟩).mono ?_
  rintro p q ⟨h, hrest⟩
  exact ⟨⟨h.app, h.callbacks, h.store.shown⟩, hrest⟩

/-- Scenes that differ at most in the callbacks before some point. -/
def Scene.Alike (l l' : List (Callback μ)) (v v' : Scene A μ) : Prop :=
  v.app = v'.app ∧ v.store = v'.store ∧ ∃ new, v.callbacks = l ++ new ∧ v'.callbacks = l' ++ new

/-- The store asks nothing of the callbacks logged. -/
theorem scene_related (sem : Sentinel) (l l' : List (Callback μ)) :
    (Scene.model sem : Backend A μ _).Related (fun p q => p.1.Alike l l' q.1 ∧ p.2 = q.2)
      (Scene.model sem) where
  app x := by
    apply Effect.Simulates.onFst (R := Scene.Alike l l')
    rintro ⟨a, st, _⟩ ⟨_, _, _⟩ ⟨rfl, rfl, hl⟩
    exact .ended (x a).1 ⟨rfl, rfl, hl⟩
  query q := by
    apply Effect.Simulates.onFst (R := Scene.Alike l l')
    rintro ⟨a, st, _⟩ ⟨_, _, _⟩ ⟨rfl, rfl, hl⟩
    simp only [Scene.onStore, Effect.zoom]
    cases st.ask sem q with
    | error e => exact .failed e
    | ok r => exact .ended _ ⟨rfl, rfl, hl⟩
  direct d := by
    apply Effect.Simulates.onFst (R := Scene.Alike l l')
    rintro ⟨a, st, _⟩ ⟨_, _, _⟩ ⟨rfl, rfl, hl⟩
    simp only [Scene.onStore, Effect.zoom, Effect.update]
    cases st.direct sem d with
    | error e => exact .failed e
    | ok st => exact .ended _ ⟨rfl, rfl, hl⟩
  log k := by
    apply Effect.Simulates.onFst (R := Scene.Alike l l')
    rintro ⟨a, st, _⟩ ⟨_, _, _⟩ ⟨rfl, rfl, new, rfl, rfl⟩
    exact .ended _ ⟨rfl, rfl, new ++ [k], by simp, by simp⟩
  push m := by
    rintro ⟨⟨a, st, _⟩, refusals⟩ ⟨⟨_, _, _⟩, _⟩ ⟨⟨rfl, rfl, hl⟩, rfl⟩
    simp only [Scene.model]
    cases st.record refusals.head m with
    | error e => exact .failed e
    | ok p => exact .ended p.1 ⟨⟨rfl, rfl, hl⟩, rfl⟩

/-- A store says all that can be told about its manager. -/
theorem Store.Describes.alike {s s' : UndoableCmdSystem μ} {st : Store μ} (h : st.Describes s)
    (h' : st.Describes s') : s._savedStates.values = s'._savedStates.values ∧
      s.position = s'.position ∧ s.maxSize = s'.maxSize := by
  have hs : st.Shown .standard s := h.shown
  have hs' : st.Shown .standard s' := h'.shown
  cases st with
  | sound z =>
    obtain ⟨hlock, hl⟩ := hs
    obtain ⟨hlock', hl'⟩ := hs'
    exact ⟨hlock.values.trans hlock'.values.symm, hlock.position.trans hlock'.position.symm,
      hl.trans hl'.symm⟩
  | dangling values limit =>
    obtain ⟨hv, hp, hl⟩ := hs
    obtain ⟨hv', hp', hl'⟩ := hs'
    exact ⟨hv.trans hv'.symm, hp.trans hp'.symm, hl.trans hl'.symm⟩

/-- After `clear` a manager cannot be told from a fresh one with its limit, in whatever state it
was, also with its cursor lost. -/
theorem clear_recovers (sem : Sentinel) (w : World A μ) (refusals : Stream' Bool)
    (x : Client A μ α) :
    Effect.Agree (fun p q => Alike w.callbacks [] p.1 q.1 ∧ p.2 = q.2)
      ((Client.bind (.direct .clear) fun _ => x).run (flaky sem) (w, refusals))
      ((Client.bind (.direct (.maxSize w.mgr.maxSize)) fun _ => x).run (flaky sem)
        (.start w.app, refusals)) := by
  have hclear : (Client.bind (.direct .clear) fun _ => x).run (flaky sem) (w, refusals) =
      x.run (flaky sem) ({ w with mgr := w.mgr.clear }, refusals) := Effect.bind_apply
  have hfresh : (Client.bind (.direct (.maxSize w.mgr.maxSize)) fun _ => x).run (flaky sem)
      (.start w.app, refusals) =
      x.run (flaky sem) (⟨w.app, (History.restart 0 w.mgr.maxSize).toMgr, [], false⟩, refusals) :=
    Effect.bind_apply
  rw [hclear, hfresh]
  let v : Scene A μ := ⟨w.app, .sound ⟨.empty, w.mgr.maxSize⟩, w.callbacks⟩
  let v' : Scene A μ := ⟨w.app, .sound ⟨.empty, w.mgr.maxSize⟩, []⟩
  have hv : Staged (fun s st => st.Describes s) { w with mgr := w.mgr.clear } v :=
    ⟨rfl, rfl, .restart w.mgr._savedStates.fresh w.mgr.maxSize, w.mgr.clear_eq, rfl⟩
  have hv' : Staged (fun s st => st.Describes s)
      ⟨w.app, (History.restart 0 w.mgr.maxSize).toMgr, [], false⟩ v' := staged_fresh _ _ _ _
  have hsame : v.Alike w.callbacks [] v' := ⟨rfl, rfl, [], (List.append_nil _).symm, rfl⟩
  have hleft := (flaky_related sem).run x (_, refusals) (v, refusals) ⟨hv, rfl⟩
  have hright := ((flaky_related sem).run x (_, refusals) (v', refusals) ⟨hv', rfl⟩).symm
  have hmodel :=
    (scene_related sem w.callbacks []).run x (v, refusals) (v', refusals) ⟨hsame, rfl⟩
  refine ((hleft.trans hmodel).trans hright).mono ?_
  rintro p p' ⟨q', ⟨q, ⟨hq, hrest⟩, ⟨happ, hst, new, hc, hc'⟩, hrest'⟩, hq', hrest''⟩
  have hstore := hq.store
  rw [hst] at hstore
  obtain ⟨hvalues, hposition, hlimit⟩ := hstore.alike hq'.store
  refine ⟨⟨?_, hvalues, hposition, hlimit, new, ?_, ?_⟩, ?_⟩
  · exact hq.app.trans (happ.trans hq'.app.symm)
  · exact hq.callbacks.trans hc
  · exact hq'.callbacks.trans hc'
  · exact hrest.trans (hrest'.trans hrest''.symm)

end UndoCxx
