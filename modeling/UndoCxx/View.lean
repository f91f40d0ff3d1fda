import UndoCxx.Client
import UndoCxx.Lockstep
import UndoCxx.Zipper

/-!
The code around a manager, run beside a history that has no nodes: it comes to the
same, so that nothing but the mementos, the position and the limit can be seen.
-/
namespace UndoCxx

open Cxx

variable {A μ α : Type}

namespace Zipper

def ask (sem : Sentinel) (z : Zipper μ) : Query μ α → Except UB α
  | .size => .ok z.size
  | .empty => .ok z.stack.entries.isEmpty
  | .maxSize => .ok z.limit
  | .position => .ok z.pos
  | .canRestore => .ok (!z.stack.past.isEmpty)
  | .canReplay => .ok (!z.stack.future.isEmpty)
  | .canUndo => .ok (!z.stack.past.isEmpty)
  | .canRedo => .ok (!z.stack.future.isEmpty)
  | .focusedItem =>
    match z.stack.future with
    | m :: _ => .ok m
    | [] => .error .dereferenceEnd
  | .newestItem =>
    match z.stack.past with
    | m :: _ => .ok m
    | [] =>
      match sem with
      | .standard => .error .decrementBegin
      | .cyclic => .error .dereferenceEnd

end Zipper

namespace History

variable {h : History μ} {sem : Sentinel}

theorem focusedItem_error (hf : h.stack.future = []) :
    h.toMgr.focusedItem = .error .dereferenceEnd := by
  rw [UndoableCmdSystem.focusedItem, position_eq, hf, Iter.toHead, StdList.deref]
  simp [StdList.size]

theorem newestItem_error (hp : h.stack.past = []) : h.toMgr.newestItem sem =
    match sem with
    | .standard => .error .decrementBegin
    | .cyclic => .error .dereferenceEnd := by
  have hn : h.toMgr._savedStates.nodes = h.stack.future := by
    rw [nodes_toMgr, hp]
    rfl
  rw [UndoableCmdSystem.newestItem, position_eq, StdList.prev_begin hn]
  cases sem with
  | standard => rfl
  | cyclic => simp [StdList.deref, StdList.size]

/-- Every query is answered from the mementos, the cursor and the limit alone. -/
theorem ask_toMgr (sem : Sentinel) (h : History μ) (q : Query μ α) :
    q.ask sem h.toMgr = h.forget.ask sem q := by
  obtain ⟨⟨past, future⟩, serial, limit, nodup, below⟩ := h
  cases q with
  | size => exact congrArg Except.ok (size_forget _).symm
  | empty =>
    refine congrArg Except.ok (Bool.eq_iff_iff.mpr ?_)
    rw [empty_iff, List.isEmpty_iff_length_eq_zero, ← size_forget]
    rfl
  | maxSize => rfl
  | position =>
    refine (position_toMgr _).trans (congrArg Except.ok (pos_forget _).symm)
  | canRestore | canUndo =>
    refine (canUndo_toMgr _).trans ?_
    cases past <;> rfl
  | canReplay | canRedo =>
    refine (canRedo_toMgr _).trans ?_
    cases future <;> rfl
  | focusedItem =>
    cases future with
    | nil => exact focusedItem_error rfl
    | cons n future => exact focusedItem_toMgr rfl
  | newestItem =>
    cases past with
    | nil => exact newestItem_error rfl
    | cons n past => exact newestItem_toMgr rfl

end History

/-- What a client can see of a world. -/
structure View (A μ : Type) where
  app : A
  zipper : Zipper μ
  callbacks : List (Callback μ)

namespace View

def start (a : A) : View A μ := ⟨a, .fresh, []⟩

/-- Change the history, or run into undefined behaviour. -/
def change (f : Zipper μ → Except UB (Zipper μ)) : Effect.Prog (View A μ) Exn UB Unit := fun v => do
  let z ← f v.zipper
  return (.ok (), { v with zipper := z })

def model (sem : Sentinel) : Backend A μ (View A μ) where
  app x := fun v =>
    let (r, a) := x v.app
    .ok (r, { v with app := a })
  query q := fun v => do
    let a ← v.zipper.ask sem q
    return (.ok a, v)
  direct d := change fun z => z.handle sem d.request
  log k := modify fun v => { v with callbacks := v.callbacks ++ [k] }
  push m := change fun z => z.record m

end View

open Session

/-- The world has nodes for what the view holds. -/
def Realizes (w : World A μ) (v : View A μ) : Prop :=
  ∃ h : History μ, w = toWorld ⟨v.app, h, v.callbacks⟩ ∧ v.zipper = h.forget

/-- Both begin empty, with no limit set. -/
theorem realizes_start (a : A) : Realizes (.start a : World A μ) (.start a) := ⟨.fresh, rfl, rfl⟩

/-- A change of the manager that is mirrored on the history is the same change of the view. -/
theorem simulates_change {f : UndoableCmdSystem μ → Except UB (UndoableCmdSystem μ)}
    (g : Zipper μ → Except UB (Zipper μ)) (hh : History μ → Except UB (History μ))
    (hf : ∀ h, f h.toMgr = (hh h).map History.toMgr)
    (hg : ∀ h, g h.forget = (hh h).map History.forget) :
    Effect.Simulates (Realizes (A := A)) (onMgr f) (View.change g) := by
  rintro w ⟨a, z, l⟩ ⟨h, rfl, rfl⟩
  rw [onMgr, View.change, toWorld, hf, hg]
  cases hh h with
  | error e => exact .failed e
  | ok h' => exact .ended _ ⟨h', rfl, rfl⟩

theorem push_eq_onMgr {h : History μ} {a : A} {l : List (Callback μ)} (m : μ) :
    push m (toWorld ⟨a, h, l⟩) =
      ((h.handle .standard (.record m)).map fun h => (.ok (), toWorld ⟨a, h, l⟩)) := by
  rw [push_toWorld, History.handle]
  split <;> rfl

/-- Each primitive of the manager is one of the model, failures included. -/
theorem manager_related (sem : Sentinel) :
    (manager sem : Backend A μ _).Related Realizes (View.model sem) where
  app x := by
    rintro w ⟨a, z, l⟩ ⟨h, rfl, rfl⟩
    exact .ended (x a).1 ⟨h, rfl, rfl⟩
  query q := by
    rintro w ⟨a, z, l⟩ ⟨h, rfl, rfl⟩
    simp only [manager, View.model, askMgr, toWorld, History.ask_toMgr]
    cases h.forget.ask sem q with
    | error e => exact .failed e
    | ok r => exact .ended _ ⟨h, rfl, rfl⟩
  direct d := by
    have hd : Effect.Simulates (Realizes (A := A) (μ := μ)) (onMgr fun s => d.apply sem s)
        (View.change fun z => z.handle sem d.request) :=
      simulates_change _ _ (fun h => d.apply_toMgr sem h) fun h => (h.forget_handle _).symm
    exact hd
  log k := by
    rintro w ⟨a, z, l⟩ ⟨h, rfl, rfl⟩
    exact .ended _ ⟨h, rfl, rfl⟩
  push m := by
    rintro w ⟨a, z, l⟩ ⟨h, rfl, rfl⟩
    have hz : (h.handle .standard (.record m)).map _ = h.forget.handle .standard (.record m) :=
      h.forget_handle (.record m)
    change Effect.Agree _ (push m _) _
    simp only [View.model, View.change]
    have hrecord : h.forget.handle .standard (.record m) = h.forget.record m := rfl
    rw [push_eq_onMgr, ← hrecord, ← hz]
    cases h.handle .standard (.record m) with
    | error e => exact .failed e
    | ok h' => exact .ended _ ⟨h', rfl, rfl⟩

/-- All that the member functions tell about a world is in the view. -/
structure Seen (sem : Sentinel) (w : World A μ) (v : View A μ) : Prop where
  app : w.app = v.app
  callbacks : w.callbacks = v.callbacks
  history : Lockstep sem w.mgr v.zipper.stack
  limit : w.mgr.maxSize = v.zipper.limit

/-- A client sees of the manager what the model shows. -/
theorem Realizes.seen {sem : Sentinel} {w : World A μ} {v : View A μ} (h : Realizes w v) :
    Seen sem w v := by
  obtain ⟨a, z, l⟩ := v
  obtain ⟨h, rfl, rfl⟩ := h
  exact ⟨rfl, rfl, lockstep_toMgr h, rfl⟩

/-- A client cannot tell the manager from the model. -/
theorem Client.simulates_model (sem : Sentinel) (x : Client A μ α) :
    Effect.Simulates Realizes (x.exec sem) (x.run (View.model sem)) := by
  rw [exec_eq_run]
  exact (manager_related sem).run x

/-- Whatever code is run on a fresh manager, and however its commands call back into the manager,
throw or catch, it does what the same code does on two stacks of mementos: undefined behaviour of
the same kind, or the same result in an application and a history that are the same. -/
theorem client_refines (sem : Sentinel) (a : A) (x : Client A μ α) :
    Effect.Agree (Seen sem) (x.exec sem (.start a)) (x.run (View.model sem) (.start a)) :=
  (x.simulates_model sem _ _ (realizes_start a)).mono fun _ _ h => h.seen

/-! Worlds that look alike -/

/-- Some code leads from a fresh manager to this world. -/
def Arises (sem : Sentinel) (a : A) (w : World A μ) : Prop :=
  ∃ (β : Type) (x : Client A μ β) (r : Except Exn β), x.exec sem (.start a) = .ok (r, w)

/-- The states of flat runs are among those that clients bring about. -/
theorem Reachable.arises {sem : Sentinel} {heap : Heap A μ} {a : A} {w : World A μ}
    (h : Reachable sem heap a w) : Arises sem a w := by
  obtain ⟨ks, h⟩ := h
  exact ⟨Unit, .ofCalls heap ks, _, Client.exec_ofCalls h⟩

theorem Arises.exec {sem : Sentinel} {a : A} {w v : World A μ} {r : Except Exn α}
    (hw : Arises sem a w) {x : Client A μ α} (h : x.exec sem w = .ok (r, v)) : Arises sem a v := by
  obtain ⟨β, y, q, hy⟩ := hw
  let before : Client A μ Unit := .tryCatch (.bind y fun _ => .pure ()) fun _ => .pure ()
  have hbind : (Client.bind y fun _ => .pure ()).exec sem (.start a) =
      .ok (q.map fun _ => (), w) := by
    refine Effect.bind_apply.trans ?_
    rw [hy]
    cases q with
    | error e => rfl
    | ok b => rfl
  have hbefore : before.exec sem (.start a) = .ok (.ok (), w) := by
    refine Effect.tryCatch_apply.trans ?_
    rw [hbind]
    cases q with
    | error e => rfl
    | ok b => rfl
  exact ⟨α, .bind before fun _ => x, r, (Client.exec_bind hbefore _).trans h⟩

/-- The same application, mementos, position and limit, and the same callbacks since `l`, `l'`. -/
structure Alike (l l' : List (Callback μ)) (w w' : World A μ) : Prop where
  app : w.app = w'.app
  values : w.mgr._savedStates.values = w'.mgr._savedStates.values
  position : w.mgr.position = w'.mgr.position
  limit : w.mgr.maxSize = w'.mgr.maxSize
  callbacks : ∃ new, w.callbacks = l ++ new ∧ w'.callbacks = l' ++ new

/-- Views that differ at most in the callbacks before some point. -/
def View.Alike (l l' : List (Callback μ)) (v v' : View A μ) : Prop :=
  v.app = v'.app ∧ v.zipper = v'.zipper ∧ ∃ new, v.callbacks = l ++ new ∧ v'.callbacks = l' ++ new

theorem model_related (sem : Sentinel) (l l' : List (Callback μ)) :
    (View.model sem : Backend A μ _).Related (View.Alike l l') (View.model sem) where
  app x := by
    rintro ⟨a, z, _⟩ ⟨a', z', _⟩ ⟨rfl, rfl, hl⟩
    exact .ended (x a).1 ⟨rfl, rfl, hl⟩
  query q := by
    rintro ⟨a, z, _⟩ ⟨a', z', _⟩ ⟨rfl, rfl, hl⟩
    simp only [View.model]
    cases z.ask sem q with
    | error e => exact .failed e
    | ok r => exact .ended _ ⟨rfl, rfl, hl⟩
  direct d := by
    rintro ⟨a, z, _⟩ ⟨a', z', _⟩ ⟨rfl, rfl, hl⟩
    simp only [View.model, View.change]
    cases z.handle sem d.request with
    | error e => exact .failed e
    | ok z => exact .ended _ ⟨rfl, rfl, hl⟩
  log k := by
    rintro ⟨a, z, _⟩ ⟨a', z', _⟩ ⟨rfl, rfl, new, rfl, rfl⟩
    exact .ended _ ⟨rfl, rfl, new ++ [k], by simp, by simp⟩
  push m := by
    rintro ⟨a, z, _⟩ ⟨a', z', _⟩ ⟨rfl, rfl, hl⟩
    simp only [View.model, View.change]
    cases z.record m with
    | error e => exact .failed e
    | ok z => exact .ended _ ⟨rfl, rfl, hl⟩

theorem Arises.realizes {sem : Sentinel} {a : A} {w : World A μ} (h : Arises sem a w) :
    ∃ v, Realizes w v := by
  obtain ⟨β, x, r, hx⟩ := h
  have hagree := x.simulates_model sem _ _ (realizes_start a)
  rw [hx] at hagree
  generalize x.run (View.model sem) (.start a) = o at hagree
  cases hagree with
  | ended r h => exact ⟨_, h⟩

/-- What is visible fixes the state of the model. -/
theorem Realizes.zipper_eq {w w' : World A μ} {v v' : View A μ} (h : Realizes w v)
    (h' : Realizes w' v') (hv : w.mgr._savedStates.values = w'.mgr._savedStates.values)
    (hp : w.mgr.position = w'.mgr.position) (hl : w.mgr.maxSize = w'.mgr.maxSize) :
    v.zipper = v'.zipper := by
  have hs : Seen .standard w v := h.seen
  have hs' : Seen .standard w' v' := h'.seen
  have hstack : v.zipper.stack = v'.zipper.stack := by
    apply TwoStack.eq_of_entries
    · exact hs.history.values.symm.trans (hv.trans hs'.history.values)
    · exact Except.ok.inj (hs.history.position.symm.trans (hp.trans hs'.history.position))
  have hlimit : v.zipper.limit = v'.zipper.limit := hs.limit.symm.trans (hl.trans hs'.limit)
  generalize v.zipper = z at *
  generalize v'.zipper = z' at *
  cases z
  cases z'
  cases hstack
  cases hlimit
  rfl

/-- Managers with one model look alike. -/
theorem alike_of_realizes {l l' : List (Callback μ)} {w w' : World A μ} {v v' : View A μ}
    (h : Realizes w v) (h' : Realizes w' v') (hv : v.Alike l l' v') : Alike l l' w w' := by
  obtain ⟨happ, hz, new, hc, hc'⟩ := hv
  have hs : Seen .standard w v := h.seen
  have hs' : Seen .standard w' v' := h'.seen
  refine ⟨?_, ?_, ?_, ?_, new, ?_, ?_⟩
  · rw [hs.app, hs'.app, happ]
  · rw [hs.history.values, hs'.history.values, hz]
  · rw [hs.history.position, hs'.history.position, hz]
  · rw [hs.limit, hs'.limit, hz]
  · rw [hs.callbacks, hc]
  · rw [hs'.callbacks, hc']

/-- Two managers with the same mementos, position and limit cannot be told apart by any code,
whatever was done to either of them before. -/
theorem client_cannot_tell {sem : Sentinel} {a a' : A} {w w' : World A μ} (hw : Arises sem a w)
    (hw' : Arises sem a' w') (happ : w.app = w'.app)
    (hv : w.mgr._savedStates.values = w'.mgr._savedStates.values)
    (hp : w.mgr.position = w'.mgr.position) (hl : w.mgr.maxSize = w'.mgr.maxSize)
    (x : Client A μ α) :
    Effect.Agree (Alike w.callbacks w'.callbacks) (x.exec sem w) (x.exec sem w') := by
  obtain ⟨v, hr⟩ := hw.realizes
  obtain ⟨v', hr'⟩ := hw'.realizes
  have hs : Seen sem w v := hr.seen
  have hs' : Seen sem w' v' := hr'.seen
  have hlook : v.Alike w.callbacks w'.callbacks v' := by
    refine ⟨hs.app.symm.trans (happ.trans hs'.app), hr.zipper_eq hr' hv hp hl, [], ?_, ?_⟩
    · rw [hs.callbacks, List.append_nil]
    · rw [hs'.callbacks, List.append_nil]
  have hleft := x.simulates_model sem w v hr
  have hright := (x.simulates_model sem w' v' hr').symm
  have hmodel := (model_related sem w.callbacks w'.callbacks).run x v v' hlook
  refine ((hleft.trans hmodel).trans hright).mono ?_
  rintro u u' ⟨y', ⟨y, hy, hyy⟩, hy'⟩
  exact alike_of_realizes hy hy' hyy

/-- Count, take it back in the application too, and count again: the memento is the same as after
counting once, its node is not. -/
def countAgain : Client ℤ (Memento ℤ) Unit :=
  .bind (.ofCalls counterHeap [.invoke 2, .undo 2]) fun _ =>
    .bind (.app (modify (· - 1))) fun _ => .ofCalls counterHeap [.invoke 2]

theorem client_cannot_tell_counter :
    ∃ w w', Arises .standard 0 w ∧ Arises .standard 0 w' ∧
      w.mgr._savedStates.nodes ≠ w'.mgr._savedStates.nodes ∧
      ∀ (α : Type) (x : Client ℤ (Memento ℤ) α),
        Effect.Agree (Alike w.callbacks w'.callbacks) (x.exec .standard w)
          (x.exec .standard w') := by
  obtain ⟨w, hw⟩ : ∃ w, Machine.run (step .standard counterHeap) (.start 0) [.invoke 2] = .ok w :=
    ⟨_, rfl⟩
  obtain ⟨u, hu⟩ : ∃ u, Machine.run (step .standard counterHeap) (.start 0)
      [.invoke 2, .undo 2] = .ok u := ⟨_, rfl⟩
  obtain ⟨w', hw'⟩ : ∃ w', Machine.run (step .standard counterHeap) { u with app := u.app - 1 }
      [.invoke 2] = .ok w' := by
    cases hu
    exact ⟨_, rfl⟩
  have hagain : countAgain.exec .standard (.start 0) = .ok (.ok (), w') := by
    refine (Client.exec_bind (Client.exec_ofCalls hu) _).trans ?_
    exact (Client.exec_bind (u := { u with app := u.app - 1 }) rfl _).trans
      (Client.exec_ofCalls hw')
  have harises : Arises .standard 0 w := Reachable.arises ⟨_, hw⟩
  have harises' : Arises .standard 0 w' := ⟨_, _, _, hagain⟩
  have hnodes : w.mgr._savedStates.nodes ≠ w'.mgr._savedStates.nodes := by
    cases hw
    cases hu
    cases hw'
    decide
  refine ⟨w, w', harises, harises', hnodes, fun α x => ?_⟩
  apply client_cannot_tell harises harises'
  all_goals
    cases hw
    cases hu
    cases hw'
    rfl

end UndoCxx
