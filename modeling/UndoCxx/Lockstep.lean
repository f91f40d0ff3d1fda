import UndoCxx.Run

/-! The manager refines the two-stack model. -/
namespace UndoCxx

open Cxx

variable {A μ : Type} {sem : Sentinel} {heap : Heap A μ} {a : A} {k : Call} {ks : List Call}

/-- What the client can see of a manager is what the two stacks hold. -/
structure Lockstep (sem : Sentinel) (s : UndoableCmdSystem μ) (t : TwoStack μ) : Prop where
  values : s._savedStates.values = t.past.reverse ++ t.future
  position : s.position = .ok t.past.length
  size : s.size = t.past.length + t.future.length
  canUndo : s.canUndo = .ok (!t.past.isEmpty)
  canRedo : s.canRedo = .ok (!t.future.isEmpty)
  newest : ∀ m past, t.past = m :: past → s.newestItem sem = .ok m
  focused : ∀ m future, t.future = m :: future → s.focusedItem = .ok m

/-- The single-step interface: no batch requests, and a limit that stays. -/
def Call.Basic (heap : Heap A μ) : Call → Prop
  | .invoke c => (heap c).kind = .recordable
  | .undo _ => True
  | .redo _ => True
  | .erase n => 0 ≤ n
  | .clear => True
  | _ => False

def Request.edits : Request μ → List (Edit μ)
  | .record m => [.record m]
  | .undo => [.undo]
  | .redo => [.redo]
  | .erase n => [.erase n.toNat]
  | .clear => [.clear]
  | _ => []

/-- The edits that a client asks for; a command that throws records nothing. -/
def edits (heap : Heap A μ) : A → List Call → List (Edit μ)
  | _, [] => []
  | a, k :: ks => (request heap a k).edits ++ edits heap (appAfter heap a k) ks

/-- Set the limit before the first command, or leave it. -/
def setup : Option ℕ → List Call
  | none => []
  | some n => [.maxSize n]

theorem lockstep_toMgr (h : History μ) : Lockstep sem h.toMgr (h.stack.map Node.val) where
  values := by simp [StdList.values, History.nodes_toMgr, TwoStack.map]
  position := by simp [TwoStack.map, History.pos]
  size := by simp [TwoStack.map, History.pos]
  canUndo := by simp [History.canUndo_toMgr, TwoStack.map]
  canRedo := by simp [History.canRedo_toMgr, TwoStack.map]
  newest := by
    intro m past hp
    obtain ⟨n, rest, hn, rfl, -⟩ := List.map_eq_cons_iff.mp hp
    exact History.newestItem_toMgr hn
  focused := by
    intro m future hf
    obtain ⟨n, rest, hn, rfl, -⟩ := List.map_eq_cons_iff.mp hf
    exact History.focusedItem_toMgr hn

theorem Call.Basic.legal (hk : k.Basic heap) (s : UndoableCmdSystem μ) : k.Legal heap s := by
  cases k with
  | invoke c =>
    have hc : (heap c).kind = .recordable := hk
    simp only [Call.Legal, hc]
  | erase n => exact hk
  | undo c => trivial
  | redo c => trivial
  | clear => trivial
  | undoBy c delta => exact hk.elim
  | redoBy c delta => exact hk.elim
  | maxSize n => exact hk.elim

/-- A basic request does to the two stacks what its edits do. -/
theorem stack_after (h : History μ) (hk : k.Basic heap) :
    (h.after (request heap a k)).stack.map Node.val =
        (request heap a k).edits.foldl (TwoStack.apply h.limit) (h.stack.map Node.val) ∧
      (h.after (request heap a k)).limit = h.limit := by
  cases k with
  | invoke c =>
    have hc : (heap c).kind = .recordable := hk
    simp only [request, hc]
    split
    · next m hm => exact ⟨TwoStack.map_record Node.val, rfl⟩
    · exact ⟨rfl, rfl⟩
  | undo c => exact ⟨TwoStack.map_undo _ _, rfl⟩
  | redo c => exact ⟨TwoStack.map_redo _ _, rfl⟩
  | erase n => exact ⟨TwoStack.map_erase _, rfl⟩
  | clear => exact ⟨rfl, rfl⟩
  | undoBy c delta => exact hk.elim
  | redoBy c delta => exact hk.elim
  | maxSize n => exact hk.elim

/-- A run of basic calls folds their edits, from any session. -/
theorem stack_run {x y : Session A μ} (hks : ∀ k ∈ ks, k.Basic heap) (hl : 0 < x.history.limit)
    (h : Machine.run (Session.step sem heap) x ks = .ok y) :
    y.history.stack.map Node.val =
        (edits heap x.app ks).foldl (TwoStack.apply x.history.limit)
          (x.history.stack.map Node.val) ∧
      y.history.limit = x.history.limit := by
  induction ks generalizing x with
  | nil => cases h; exact ⟨rfl, rfl⟩
  | cons k ks ih =>
    obtain ⟨z, hz, h⟩ := Machine.run_cons_ok h
    have hk : k.Basic heap := hks k List.mem_cons_self
    have he := Session.eq_after (hk.legal _) hl hz
    obtain ⟨hstack, hlimit⟩ := stack_after (a := x.app) x.history hk
    have hzl : z.history.limit = x.history.limit := by rw [he]; exact hlimit
    have hzs : z.history.stack = (x.history.after (request heap x.app k)).stack := by rw [he]; rfl
    obtain ⟨hs, hy⟩ := ih (fun k hk => hks k (List.mem_cons_of_mem _ hk)) (hzl ▸ hl) h
    rw [hs, hy, hzl, hzs, hstack, Session.app_step hz, edits, List.foldl_append]
    exact ⟨rfl, rfl⟩

theorem run_setup (limit : Option ℕ) :
    Machine.run (Session.step sem heap) (.start a) (setup limit) =
      .ok ⟨a, History.fresh.setLimit (limit.getD sizeTMax), []⟩ := by
  cases limit with
  | none => rfl
  | some n => rfl

theorem run_from_setup {limit : Option ℕ} {w : World A μ}
    (h : Machine.run (step sem heap) (.start a) (setup limit ++ ks) = .ok w) :
    ∃ y, Machine.run (Session.step sem heap)
        ⟨a, History.fresh.setLimit (limit.getD sizeTMax), []⟩ ks = .ok y ∧ y.toWorld = w := by
  rw [Session.start_toWorld, Session.run_eq_ok] at h
  obtain ⟨y, hy, hw⟩ := h
  rw [Machine.run_append, run_setup, Machine.ok_bind] at hy
  exact ⟨y, hy, hw⟩

/-- Under a fixed limit, any mixture of recorded commands, single undo and redo steps, erasures
and clears keeps the manager in lock step with the two stacks; a plain `std::list` leaves some
of these runs undefined, a circular one none. -/
theorem lockstep_run (limit : Option ℕ) (hlimit : ∀ n ∈ limit, 1 ≤ n) (a : A) (ks : List Call)
    (hks : ∀ k ∈ ks, k.Basic heap) :
    (∃ w, Machine.run (step .cyclic heap) (.start a) (setup limit ++ ks) = .ok w) ∧
      ∀ sem w, Machine.run (step sem heap) (.start a) (setup limit ++ ks) = .ok w →
        Lockstep sem w.mgr (TwoStack.run (limit.getD sizeTMax) (edits heap a ks)) ∧
          w.mgr.maxSize = limit.getD sizeTMax := by
  have hl : 0 < limit.getD sizeTMax := by
    cases limit with
    | none => simp [sizeTMax]
    | some n => exact hlimit n rfl
  constructor
  · obtain ⟨y, hy⟩ := Session.legal_run_total
      (x := ⟨a, History.fresh.setLimit (limit.getD sizeTMax), []⟩) hl
      fun _ k ho => (hks k ho.mem).legal _
    refine ⟨y.toWorld, ?_⟩
    rw [Session.start_toWorld, Session.run_eq_ok]
    exact ⟨y, by rw [Machine.run_append, run_setup, Machine.ok_bind, hy], rfl⟩
  · intro sem w hw
    obtain ⟨y, hy, rfl⟩ := run_from_setup hw
    obtain ⟨hs, hlim⟩ := stack_run hks hl hy
    have hlock : Lockstep sem y.history.toMgr (y.history.stack.map Node.val) := lockstep_toMgr _
    rw [hs] at hlock
    exact ⟨hlock, hlim⟩

/-- Branching after an undo, under a limit of two. -/
theorem lockstep_run_counter :
    ∃ w, Machine.run (step .cyclic counterHeap) (.start 0)
        [.maxSize 2, .invoke 2, .invoke 3, .invoke 2, .undo 2, .invoke 3] = .ok w ∧
      Lockstep .cyclic w.mgr ⟨[.ofState (some 3) 4, .ofState (some 3) 2], []⟩ := by
  have hbasic : ∀ k ∈ [Call.invoke 2, .invoke 3, .invoke 2, .undo 2, .invoke 3],
      k.Basic counterHeap := by
    simp [Call.Basic, counterHeap]
  obtain ⟨⟨w, hw⟩, hlock⟩ := lockstep_run (some 2) (by simp) 0 _ hbasic
  exact ⟨w, hw, (hlock .cyclic w hw).1⟩

end UndoCxx
