import UndoCxx.Cursor
import UndoCxx.Focus
import UndoCxx.Lockstep
import UndoCxx.Zipper

/-!
What a manager is to a client that never undoes its first memento singly: a list
with a current item, or nothing.
-/
namespace UndoCxx

open Cxx

variable {A μ : Type} {sem : Sentinel} {heap : Heap A μ} {a : A} {ks : List Call}

structure Timeline (μ : Type) where
  limit : ℕ
  current : Option (Focus μ)

namespace Timeline

variable {t : Timeline μ} {h : History μ} {r : Request μ} {s : UndoableCmdSystem μ}

def fresh : Timeline μ := ⟨sizeTMax, none⟩

/-- Make a move if it can be made. -/
def go (move : Focus μ → Option (Focus μ)) (t : Timeline μ) : Timeline μ :=
  { t with current := t.current.map fun f => (move f).getD f }

def record (m : μ) (t : Timeline μ) : Timeline μ :=
  { t with current := some (t.current.elim (.only m) (·.record t.limit m)) }

def apply (t : Timeline μ) : Request μ → Timeline μ
  | .nothing => t
  | .record m => t.record m
  | .undo => t.go (·.back 1)
  | .redo => t.go (·.forth 1)
  | .undoBy d => t.go (·.back d.toNat)
  | .redoBy d => t.go (·.forth d.toNat)
  | .erase n => { t with current := t.current.map (·.erase n.toNat) }
  | .clear => { t with current := none }
  | .limit n => { t with limit := n }

/-- The application and its timeline after one more call. -/
def after (heap : Heap A μ) (p : A × Timeline μ) (k : Call) : A × Timeline μ :=
  (appAfter heap p.1 k, p.2.apply (request heap p.1 k))

def toStack (t : Timeline μ) : TwoStack μ := t.current.elim .empty Focus.toStack

/-- The history holds what the timeline says, and its cursor is behind the current item. -/
def Follows (t : Timeline μ) (h : History μ) : Prop := h.forget = ⟨t.toStack, t.limit⟩

/-- The current item is the newest memento before the cursor. -/
theorem Follows.stack (hf : t.Follows h) : h.stack.map Node.val = t.toStack :=
  congrArg Zipper.stack hf

theorem Follows.limit (hf : t.Follows h) : h.limit = t.limit := congrArg Zipper.limit hf

theorem Follows.pos (hf : t.Follows h) : h.pos = t.toStack.past.length := by
  rw [← hf.stack]
  exact (List.length_map _).symm

theorem Follows.size (hf : t.Follows h) : h.size = t.toStack.entries.length := by
  rw [← h.size_forget, hf]
  rfl

theorem toStack_back (n : ℕ) (t : Timeline μ) : (t.go (·.back n)).toStack =
    if n < t.toStack.past.length then TwoStack.undo^[n] t.toStack else t.toStack := by
  obtain ⟨limit, _ | f⟩ := t
  · rfl
  have hback := f.toStack_back n
  have hlen : n < f.toStack.past.length ↔ n ≤ f.before.length := Nat.lt_succ_iff
  change ((f.back n).getD f).toStack = if n < f.toStack.past.length then _ else f.toStack
  rw [if_congr hlen rfl rfl]
  by_cases hn : n ≤ f.before.length
  · rw [if_pos hn] at hback ⊢
    obtain ⟨g, hg, hstack⟩ := Option.map_eq_some_iff.mp hback
    rw [hg]
    exact hstack
  · rw [if_neg hn] at hback ⊢
    rw [Option.map_eq_none_iff.mp hback]
    rfl

theorem toStack_forth (n : ℕ) (t : Timeline μ) : (t.go (·.forth n)).toStack =
    if n ≤ t.toStack.future.length then TwoStack.redo^[n] t.toStack else t.toStack := by
  obtain ⟨limit, _ | f⟩ := t
  · change TwoStack.empty = if n ≤ 0 then TwoStack.redo^[n] .empty else .empty
    split
    · next hn =>
      rw [Nat.le_zero.mp hn]
      rfl
    · rfl
  have hforth := f.toStack_forth n
  change ((f.forth n).getD f).toStack = if n ≤ f.after.length then _ else f.toStack
  by_cases hn : n ≤ f.after.length
  · rw [if_pos hn] at hforth ⊢
    obtain ⟨g, hg, hstack⟩ := Option.map_eq_some_iff.mp hforth
    rw [hg]
    exact hstack
  · rw [if_neg hn] at hforth ⊢
    rw [Option.map_eq_none_iff.mp hforth]
    rfl

/-- An edit made on both sides keeps them together. -/
theorem Follows.of_stack {t' : Timeline μ} {g : History μ} {f : TwoStack μ → TwoStack μ}
    (hf : t.Follows h) (hg : g.forget = h.forget.edit f) (ht : t'.toStack = f t.toStack)
    (hl : t'.limit = t.limit) : t'.Follows g := by
  rw [Follows, hg, hf, ht, hl]
  rfl

theorem Follows.undoBy (hf : t.Follows h) (d : ℤ) :
    (t.apply (.undoBy d)).Follows (h.after (.undoBy d)) := by
  have hpos := hf.pos
  rw [apply, History.after]
  by_cases hd : d.toNat < t.toStack.past.length
  · rw [if_pos (by omega)]
    refine hf.of_stack (h.forget_iterate .back d.toNat) ?_ rfl
    rw [toStack_back, if_pos hd]
    rfl
  · have hsame : (t.go (·.back d.toNat)).Follows h := by
      refine hf.of_stack (f := id) rfl ?_ rfl
      rw [toStack_back, if_neg hd]
      rfl
    split
    · next hlt =>
      have h0 : d.toNat = 0 := by omega
      rw [h0] at hsame ⊢
      exact hsame
    · exact hsame

theorem Follows.redoBy (hf : t.Follows h) (d : ℤ) :
    (t.apply (.redoBy d)).Follows (h.after (.redoBy d)) := by
  have hpos := hf.pos
  have hsize := hf.size
  rw [TwoStack.length_entries] at hsize
  rw [apply, History.after]
  by_cases hd : d.toNat ≤ t.toStack.future.length
  · rw [if_pos (by omega)]
    refine hf.of_stack (h.forget_iterate .forth d.toNat) ?_ rfl
    rw [toStack_forth, if_pos hd]
    rfl
  · rw [if_neg (by omega)]
    refine hf.of_stack (f := id) rfl ?_ rfl
    rw [toStack_forth, if_neg hd]
    rfl

/-- A single undo is a move back, except for the first memento, which it would take away. -/
theorem Follows.undo (hf : t.Follows h) (h1 : h.pos ≠ 1) : (t.apply .undo).Follows h.undo := by
  have hpos := hf.pos
  by_cases hlt : 1 < t.toStack.past.length
  · refine hf.of_stack (h.forget_iterate .back 1) ?_ rfl
    rw [apply, toStack_back, if_pos hlt]
    rfl
  · have hnil : h.stack.past = [] := List.length_eq_zero_iff.mp (by rw [History.pos] at *; omega)
    rw [History.undo_of_past_nil hnil]
    refine hf.of_stack (f := id) rfl ?_ rfl
    rw [apply, toStack_back, if_neg hlt]
    rfl

/-- A single redo is a move forth, or refused by both. -/
theorem Follows.redo (hf : t.Follows h) : (t.apply .redo).Follows h.redo := by
  by_cases hle : 1 ≤ t.toStack.future.length
  · refine hf.of_stack (h.forget_iterate .forth 1) ?_ rfl
    rw [apply, toStack_forth, if_pos hle]
    rfl
  · have hlen : h.stack.future.length = t.toStack.future.length := by
      rw [← hf.stack]
      exact (List.length_map _).symm
    have hnil : h.stack.future = [] := List.length_eq_zero_iff.mp (by omega)
    rw [History.redo_of_future_nil hnil]
    refine hf.of_stack (f := id) rfl ?_ rfl
    rw [apply, toStack_forth, if_neg hle]
    rfl

/-- A recording makes the new memento the current item. -/
theorem Follows.record (hf : t.Follows h) (m : μ) :
    (t.apply (.record m)).Follows (h.record m) := by
  refine hf.of_stack (h.forget_record m) ?_ rfl
  rw [hf.limit]
  obtain ⟨limit, _ | f⟩ := t
  · exact (TwoStack.record_empty limit m).symm
  · exact Focus.toStack_record

/-- What a request does to the history, but for a single undo of the first memento, it does to the
timeline. -/
theorem Follows.after (hf : t.Follows h) (hu : r = .undo → h.pos ≠ 1) :
    (t.apply r).Follows (h.after r) := by
  cases r with
  | nothing => exact hf
  | record m => exact hf.record m
  | move dir =>
    cases dir with
    | back => exact hf.undo (hu rfl)
    | forth => exact hf.redo
  | batch dir d =>
    cases dir with
    | back => exact hf.undoBy d
    | forth => exact hf.redoBy d
  | erase n =>
    refine hf.of_stack (h.forget_drop n.toNat) ?_ rfl
    obtain ⟨limit, _ | f⟩ := t
    · exact congrArg (TwoStack.mk []) List.drop_nil.symm
    · exact Focus.toStack_erase
  | clear => exact hf.of_stack (f := fun _ => .empty) rfl rfl rfl
  | limit n =>
    have hstack := hf.stack
    rw [Follows, History.after, History.forget]
    exact congrArg (Zipper.mk · n) hstack

/-- There is always a current item, so the cursor is never alone at `begin()`. -/
theorem Follows.anchored (hf : t.Follows h) : h.Anchored := by
  intro hp
  have hpast : t.toStack.past = [] := by
    rw [← hf.stack, TwoStack.map, hp]
    rfl
  obtain ⟨limit, _ | f⟩ := t
  · exact List.map_eq_nil_iff.mp (congrArg TwoStack.future hf.stack)
  · cases hpast

def items (t : Timeline μ) : List μ := t.current.elim [] Focus.items

/-- The place of the current item, counted from one. -/
def position (t : Timeline μ) : ℕ := t.current.elim 0 fun f => f.before.length + 1

/-- What the timeline tells about its manager. -/
structure Shows (sem : Sentinel) (s : UndoableCmdSystem μ) (t : Timeline μ) : Prop where
  values : s._savedStates.values = t.items
  position : s.position = .ok t.position
  newest : ∀ f, t.current = some f → s.newestItem sem = .ok f.item
  focused : ∀ f b after, t.current = some f → f.after = b :: after → s.focusedItem = .ok b
  canUndo : s.canUndo = .ok t.current.isSome
  canRedo : s.canRedo = .ok (t.current.any fun f => !f.after.isEmpty)
  limit : s.maxSize = t.limit

/-- The queries of the manager read the list and its current item. -/
theorem Follows.shows (hf : t.Follows h) : Shows sem h.toMgr t := by
  have hlock : Lockstep sem h.toMgr t.toStack := hf.stack ▸ lockstep_toMgr h
  obtain ⟨limit, _ | f⟩ := t
  · exact ⟨hlock.values, hlock.position, nofun, nofun, hlock.canUndo, hlock.canRedo, hf.limit⟩
  · refine ⟨?_, hlock.position, ?_, ?_, hlock.canUndo, hlock.canRedo, hf.limit⟩
    · exact hlock.values.trans f.entries_toStack
    · rintro _ ⟨rfl⟩
      exact hlock.newest f.item f.before rfl
    · rintro _ b after ⟨rfl⟩ hafter
      exact hlock.focused b after hafter

end Timeline

theorem undo_of_request {k : Call} (h : request heap a k = .undo) : ∃ c, k = .undo c := by
  cases k with
  | invoke c =>
    rcases request_invoke heap a c with hr | ⟨m, hr⟩ | ⟨dir, d, hr, -⟩ <;> simp [hr] at h
  | undo c => exact ⟨c, rfl⟩
  | redo | undoBy | redoBy | erase | clear | maxSize => cases h

/-- The session is where the timeline says. -/
structure Session.Walks (x : Session A μ) (p : A × Timeline μ) : Prop where
  app : x.app = p.1
  history : p.2.Follows x.history
  limit_pos : 0 < x.history.limit

/-- One legal call: it is defined, and the list goes along. -/
theorem Session.Walks.step {x : Session A μ} {p : A × Timeline μ} {k : Call} (hx : x.Walks p)
    (hk : k.Legal heap x.history.toMgr) (hu : ∀ c, k = .undo c → x.history.pos ≠ 1) :
    x.step sem heap k = .ok (x.after heap k) ∧
      (x.after heap k).Walks (Timeline.after heap p k) := by
  obtain ⟨happ, hf, hl⟩ := hx
  have hundo : request heap x.app k = .undo → x.history.pos ≠ 1 := by
    intro hr
    obtain ⟨c, rfl⟩ := undo_of_request hr
    exact hu c rfl
  refine ⟨Session.step_legal hk hl fun _ _ => hf.anchored.canErase sem, ?_, ?_, ?_⟩
  · exact congrArg (appAfter heap · k) happ
  · rw [Timeline.after, ← happ]
    exact hf.after hundo
  · exact Session.limit_after hk hl

/-- A run that never undoes its first memento singly is defined, and the manager is what a list
with a current item makes of the same calls: each batch is made as a whole or not at all, and the
current item is there to be asked for. -/
theorem run_timeline (hlegal : ∀ u k, Machine.Attempts (step sem heap) (.start a) ks u k →
      k.Legal heap u.mgr ∧ ∀ c, k = .undo c → u.mgr.position ≠ .ok 1) :
    ∃ w, Machine.run (step sem heap) (.start a) ks = .ok w ∧
      w.app = (ks.foldl (Timeline.after heap) (a, .fresh)).1 ∧
      (ks.foldl (Timeline.after heap) (a, .fresh)).2.Shows sem w.mgr := by
  have hstep : ∀ x k, Machine.Attempts (Session.step sem heap) (.start a) ks x k →
      ∀ p : A × Timeline μ, x.Walks p →
        ∃ y, x.step sem heap k = .ok y ∧ y.Walks (Timeline.after heap p k) := by
    intro x k ho p hx
    obtain ⟨hk, hu⟩ := hlegal x.toWorld k (ho.map Session.step_toWorld)
    have hpos : ∀ c, k = .undo c → x.history.pos ≠ 1 := by
      intro c hc h1
      exact hu c hc (x.history.position_toMgr.trans (congrArg Except.ok h1))
    obtain ⟨hstep, hwalks⟩ := hx.step hk hpos
    exact ⟨_, hstep, hwalks⟩
  have hstart : (Session.start a).Walks ((a, .fresh) : A × Timeline μ) :=
    ⟨rfl, rfl, limit_start a⟩
  obtain ⟨y, hy, happ, hf, -⟩ := Machine.run_follows_attempts hstep hstart
  rw [Session.start_toWorld]
  exact ⟨y.toWorld, Session.run_eq_ok.mpr ⟨y, hy, rfl⟩, happ, hf.shows⟩

/-- One step back singly, one by a command that stays at the first memento, and one forth. -/
theorem run_timeline_counter : ∃ w, Machine.run (step .standard counterHeap) (.start 0)
      [.invoke 2, .invoke 3, .undo 0, .invoke 0, .invoke 1] = .ok w ∧ w.app = 2 ∧
    w.mgr.newestItem .standard = .ok (.ofState (some 3) 2) := by
  have hlegal : ∀ u k, Machine.Attempts (step .standard counterHeap) (.start 0)
      [.invoke 2, .invoke 3, .undo 0, .invoke 0, .invoke 1] u k →
        k.Legal counterHeap u.mgr ∧ ∀ c, k = .undo c → u.mgr.position ≠ .ok 1 := by
    have hfits : ∀ d : ℤ, d = -1 ∨ d = 1 → FitsInt (1 : ℕ) ∧ FitsInt ((1 : ℕ) + d) := by
      rintro d (rfl | rfl) <;> decide
    refine Machine.forall_attempts_cons ⟨trivial, nofun⟩ rfl ?_
    refine Machine.forall_attempts_cons ⟨trivial, nofun⟩ rfl ?_
    refine Machine.forall_attempts_cons ⟨trivial, fun _ _ => by decide⟩ rfl ?_
    refine Machine.forall_attempts_cons
      ⟨deltaFits_of_position rfl (hfits _ (.inl rfl)), nofun⟩ rfl ?_
    refine Machine.forall_attempts_cons
      ⟨deltaFits_of_position rfl (hfits _ (.inr rfl)), nofun⟩ rfl ?_
    exact Machine.forall_attempts_nil
  obtain ⟨w, hw, happ, hshows⟩ := run_timeline hlegal
  exact ⟨w, hw, happ, hshows.newest _ rfl⟩

end UndoCxx
