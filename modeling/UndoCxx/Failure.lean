import UndoCxx.Run

/-! What an `invoke` that throws leaves of the history. -/
namespace UndoCxx

open Cxx

variable {A μ : Type} {sem : Sentinel} {heap : Heap A μ} {a : A} {w v : World A μ} {c : CmdId}
  {i : Impl A μ} {e : Exn} {oom : Bool} {p : ℕ}

/-- One of the two callbacks throws, before anything is pushed. -/
def CallbackThrows (i : Impl A μ) (c : CmdId) (a : A) : Prop :=
  ∃ e, (i.outcome c a).1 = .error e

namespace History

variable {h : History μ}

theorem length_kept (h : History μ) :
    h.kept.length = if h.limit ≤ h.pos then h.pos - 1 else h.pos := by
  rw [kept, List.length_reverse]
  split
  · exact List.length_dropLast
  · rfl

/-- The destructive part of `push` spares a history with its cursor at the end and room left. -/
theorem keptList_eq_iff (hl : 0 < h.limit) :
    h.keptList = h.toList ↔ h.pos = h.size ∧ h.size < h.limit := by
  constructor
  · intro he
    have hlen : h.kept.length = h.size := congrArg (fun l => l.nodes.length) he
    have hle := h.pos_le_size
    rw [length_kept] at hlen
    split at hlen <;> omega
  · rintro ⟨hp, hlt⟩
    have hf : h.stack.future = [] := by
      rw [size_eq] at hp
      exact List.length_eq_zero_iff.mp (by omega)
    have hroom : ¬ h.limit ≤ h.pos := by omega
    refine StdList.ext ?_ rfl
    change h.kept = h.stack.past.reverse ++ h.stack.future
    rw [kept, if_neg hroom, hf, List.append_nil]

end History

/-- Only a full allocator can make `push` throw. -/
theorem push_throws {h : History μ} {b : A} {l : List (Callback μ)} {m : μ} (hc : h.CanRecord)
    (hfail : push m ⟨b, h.toMgr, l, oom⟩ = .ok (.error e, v)) :
    v.mgr = { h.toMgr with _savedStates := h.keptList } := by
  cases oom with
  | false =>
    rw [push, h.push_toMgr m hc] at hfail
    cases hfail
  | true =>
    rw [push, h.push_oom_toMgr m hc] at hfail
    cases hfail
    rfl

/-- A failing `invoke` leaves the history alone if a callback throws, or if `push` has nothing to
truncate and nothing to evict; a failed allocation after either leaves less. -/
theorem invoke_atomic_iff (hw : Reachable sem heap a w) (hl : 1 ≤ w.mgr.maxSize)
    (hp : w.mgr.position = .ok p)
    (hfail : invoke c i.toCmd { w with oom := oom } = .ok (.error e, v)) :
    v.mgr = w.mgr ↔
      CallbackThrows i c w.app ∨ p = w.mgr.size ∧ w.mgr.size < w.mgr.maxSize := by
  obtain ⟨x, rfl⟩ := hw.session
  obtain rfl : x.history.pos = p := History.pos_of_position hp
  rcases ho : i.outcome c x.app with ⟨e' | m, b⟩
  · rw [Impl.invoke_of_throw ho] at hfail
    cases hfail
    exact iff_of_true rfl (Or.inl ⟨_, by rw [Session.toWorld, ho]⟩)
  · rw [Impl.invoke_of_ok ho] at hfail
    have hv := push_throws (Or.inl hl) hfail
    have hno : ¬ CallbackThrows i c x.app := by
      rintro ⟨e', he⟩
      rw [ho] at he
      cases he
    have hsame : v.mgr = x.toWorld.mgr ↔ x.history.keptList = x.history.toList := by
      rw [hv]
      constructor
      · intro he
        exact congrArg UndoableCmdSystem._savedStates he
      · intro he
        rw [he]
        rfl
    rw [hsame, History.keptList_eq_iff hl]
    exact (or_iff_right hno).symm

/-- With its cursor at the end and room left, a history survives a failed allocation. -/
theorem invoke_atomic_counter :
    ∃ w v, Machine.run (step .standard counterHeap) (.start 0) [.invoke 2, .invoke 3] = .ok w ∧
      invoke 2 counter.toCmd { w with oom := true } = .ok (.error .badAlloc, v) ∧
      v.mgr = w.mgr := by
  obtain ⟨w, hw⟩ : ∃ w, Machine.run (step .standard counterHeap) (.start 0)
      [.invoke 2, .invoke 3] = .ok w := ⟨_, rfl⟩
  obtain ⟨v, hv⟩ : ∃ v, invoke 2 counter.toCmd { w with oom := true } =
      .ok (.error .badAlloc, v) := by
    cases hw
    exact ⟨_, rfl⟩
  have hl : 1 ≤ w.mgr.maxSize := by
    cases hw
    decide
  have hp : w.mgr.position = .ok 2 := by
    cases hw
    rfl
  have hroom : 2 = w.mgr.size ∧ w.mgr.size < w.mgr.maxSize := by
    cases hw
    decide
  exact ⟨w, v, hw, hv, (invoke_atomic_iff ⟨_, hw⟩ hl hp hv).mpr (Or.inr hroom)⟩

/-- After an undo the redo tail is gone when the allocation fails, and the cursor still designates
a node of it. -/
theorem invoke_leaves_dangling :
    ∃ w v, Machine.run (step .standard counterHeap) (.start 0) [.invoke 2, .invoke 3, .undo 0] =
        .ok w ∧
      invoke 2 counter.toCmd { w with oom := true } = .ok (.error .badAlloc, v) ∧
      v.mgr ≠ w.mgr ∧ v.mgr.position = .error .staleIterator := by
  obtain ⟨w, hw⟩ : ∃ w, Machine.run (step .standard counterHeap) (.start 0)
      [.invoke 2, .invoke 3, .undo 0] = .ok w := ⟨_, rfl⟩
  obtain ⟨v, hv⟩ : ∃ v, invoke 2 counter.toCmd { w with oom := true } =
      .ok (.error .badAlloc, v) := by
    cases hw
    exact ⟨_, rfl⟩
  have hstale : v.mgr.position = .error .staleIterator := by
    cases hw
    cases hv
    rfl
  have hlive : w.mgr.position = .ok 1 := by
    cases hw
    rfl
  refine ⟨w, v, hw, hv, ?_, hstale⟩
  intro he
  rw [he, hlive] at hstale
  cases hstale

end UndoCxx
