import UndoCxx.Run

/-! Serial numbers: mementos stay in recording order and never come back. -/
namespace UndoCxx

open Cxx

variable {A μ : Type} {sem : Sentinel} {heap : Heap A μ} {a : A} {ks : List Call}

/-- The serial numbers of the mementos in the list, oldest first. -/
def ids (s : UndoableCmdSystem μ) : List ℕ := s._savedStates.nodes.map Node.id

/-- How many mementos the calls record. -/
def recordings (heap : Heap A μ) : A → List Call → ℕ
  | _, [] => 0
  | a, k :: ks => (request heap a k).recordings + recordings heap (appAfter heap a k) ks

namespace History

variable {h h' : History μ} {r : Request μ} {i : ℕ}

def ids (h : History μ) : List ℕ := h.stack.entries.map Node.id

/-- Mementos are stamped one after the other. -/
def Increasing (h : History μ) : Prop := h.ids.Pairwise (· < ·)

/-- A recording appends one node, and may drop some. -/
theorem entries_record (m : μ) (h : History μ) : ∃ kept, kept.Sublist h.stack.entries ∧
    (h.record m).stack.entries = kept ++ [⟨h.serial, m⟩] := by
  refine ⟨h.kept, h.kept_sublist, ?_⟩
  simp only [record, TwoStack.record, TwoStack.entries, List.reverse_cons, List.append_nil]
  rfl

/-- A request stamps at most one memento, and keeps the others in order. -/
theorem Change.entries (hc : Change h r h') :
    (∃ m kept, r = .record m ∧ kept.Sublist h.stack.entries ∧
        h'.stack.entries = kept ++ [⟨h.serial, m⟩] ∧ h'.serial = h.serial + 1) ∨
      (r.recordings = 0 ∧ h'.stack.entries.Sublist h.stack.entries ∧ h'.serial = h.serial) := by
  cases hc with
  | record m hc =>
    obtain ⟨kept, hk, he⟩ := entries_record m h
    exact Or.inl ⟨m, kept, rfl, hk, he, rfl⟩
  | nothing => exact Or.inr ⟨rfl, List.Sublist.refl _, rfl⟩
  | move dir =>
    have he : (h.move dir).stack.entries = h.stack.entries := by
      cases dir with
      | back => exact TwoStack.entries_undo _
      | forth => exact TwoStack.entries_redo _
    exact Or.inr ⟨rfl, he ▸ List.Sublist.refl _, by cases dir <;> rfl⟩
  | batch dir d =>
    refine Or.inr ⟨rfl, ?_, serial_iterate_move dir _ h⟩
    rw [entries_iterate_move]
  | erase n k => exact Or.inr ⟨rfl, h.stack.entries_erase_sublist k, rfl⟩
  | clear => exact Or.inr ⟨rfl, List.nil_sublist _, rfl⟩
  | limit n => exact Or.inr ⟨rfl, List.Sublist.refl _, rfl⟩

/-- Only a recording takes an identity. -/
theorem Change.serial (hc : Change h r h') : h'.serial = h.serial + r.recordings := by
  rcases hc.entries with ⟨m, kept, rfl, -, -, hs⟩ | ⟨h0, -, hs⟩
  · exact hs
  · rw [hs, h0]
    rfl

theorem lt_serial (hi : i ∈ h.ids) : i < h.serial := by
  obtain ⟨n, hn, rfl⟩ := List.mem_map.mp hi
  exact h.below n hn

/-- Identities are given in order and never moved. -/
theorem Change.increasing (hc : Change h r h') (hs : h.Increasing) : h'.Increasing := by
  rcases hc.entries with ⟨m, kept, rfl, hk, he, -⟩ | ⟨-, hk, -⟩
  · have hkept : (kept.map Node.id).Sublist h.ids := hk.map _
    rw [Increasing, ids, he, List.map_append, List.pairwise_append]
    refine ⟨hs.sublist hkept, List.pairwise_singleton _ _, ?_⟩
    intro i hi j hj
    obtain rfl : j = h.serial := by simpa using hj
    exact lt_serial (hkept.subset hi)
  · exact hs.sublist (hk.map _)

/-- A memento that is gone: its stamp was given, and is not in the list. -/
def Gone (i : ℕ) (h : History μ) : Prop := i < h.serial ∧ i ∉ h.ids

/-- What has left the list is not brought back. -/
theorem Change.gone (hc : Change h r h') (hg : Gone i h) : Gone i h' := by
  obtain ⟨hi, hn⟩ := hg
  rcases hc.entries with ⟨m, kept, rfl, hk, he, hs⟩ | ⟨-, hk, hs⟩
  · refine ⟨by omega, ?_⟩
    rw [ids, he, List.map_append, List.mem_append]
    rintro (hmem | hmem)
    · exact hn ((hk.map Node.id).subset hmem)
    · have : i = h.serial := by simpa using hmem
      omega
  · refine ⟨by omega, ?_⟩
    intro hmem
    exact hn ((hk.map Node.id).subset hmem)

/-- Only a node of the list is ever designated. -/
theorem not_live_of_gone (hg : Gone i h) : ¬ h.toMgr._savedStates.Live (.node i) := by
  rintro ⟨j, hj⟩
  apply hg.2
  simp only [StdList.locate] at hj
  split at hj
  · next k hk =>
    obtain ⟨hlt, hid, -⟩ := List.findIdx?_eq_some_iff_getElem.mp hk
    exact List.mem_map.mpr ⟨_, List.getElem_mem hlt, by simpa using hid⟩
  · cases hj

end History

namespace Session

variable {x y : Session A μ}

/-- What every step preserves, every run does. -/
theorem history_run {I : History μ → Prop}
    (hI : ∀ (h h' : History μ) r, h.Change r h' → I h → I h') (hx : I x.history)
    (h : Machine.run (step sem heap) x ks = .ok y) : I y.history := by
  refine Machine.run_preserves (I := fun z => I z.history) ?_ hx h
  intro u k v ho hu
  exact hI _ _ _ (change_step ho.taken) hu

/-- The identities count the recordings of a run. -/
theorem serial_run (h : Machine.run (step sem heap) x ks = .ok y) :
    y.history.serial = x.history.serial + recordings heap x.app ks := by
  induction ks generalizing x with
  | nil => cases h; rfl
  | cons k ks ih =>
    obtain ⟨z, hz, h⟩ := Machine.run_cons_ok h
    rw [ih h, (change_step hz).serial, app_step hz, recordings, Nat.add_assoc]

/-- Undo and redo commands move the cursor and nothing else. -/
theorem entries_batch {c : CmdId} (hc : (heap c).kind ≠ .recordable)
    (h : x.step sem heap (.invoke c) = .ok y) :
    y.history.stack.entries = x.history.stack.entries := by
  cases hk : (heap c).kind with
  | recordable => exact absurd hk hc
  | undo d =>
    have ha : Asks heap .back d (.invoke c) := .command c hk
    rw [history_asks ha h, History.entries_iterate_move]
  | redo d =>
    have ha : Asks heap .forth d (.invoke c) := .command c hk
    rw [history_asks ha h, History.entries_iterate_move]

theorem appends_of_record {k : Call} {m : μ} (hr : request heap x.app k = .record m)
    (h : x.step sem heap k = .ok y) : ∃ kept, kept.Sublist x.history.stack.entries ∧
      y.history.stack.entries = kept ++ [⟨x.history.serial, m⟩] := by
  obtain ⟨-, hy⟩ := history_record hr h
  rw [hy]
  exact History.entries_record m x.history

theorem sublist_of_not_record {k : Call} (hr : ∀ m, request heap x.app k ≠ .record m)
    (h : x.step sem heap k = .ok y) :
    y.history.stack.entries.Sublist x.history.stack.entries := by
  rcases (change_step h).entries with ⟨m, kept, hm, -, -, -⟩ | ⟨-, hk, -⟩
  · exact absurd hm (hr m)
  · exact hk

/-- What was in the list before a run and is not after it stays away. -/
theorem gone_of_left {i : ℕ} (h : Machine.run (step sem heap) x ks = .ok y)
    (hi : i ∈ x.history.ids) (hn : i ∉ y.history.ids) : y.history.Gone i := by
  refine ⟨?_, hn⟩
  rw [serial_run h]
  exact Nat.lt_add_right _ (History.lt_serial hi)

end Session

/-- Each recorded memento is stamped with the number of mementos recorded before it. The list
stays in the order of the stamps, only recordable commands add to it, and what has left it is
never designated again. -/
theorem serials_never_return {u : World A μ}
    (hu : Machine.run (step sem heap) (.start a) ks = .ok u) :
    (ids u.mgr).Pairwise (· < ·) ∧
      u.mgr._savedStates.fresh = recordings heap a ks ∧
      (∀ k v m, step sem heap u k = .ok v → request heap u.app k = .record m →
        ∃ kept, kept.Sublist u.mgr._savedStates.nodes ∧
          v.mgr._savedStates.nodes = kept ++ [⟨u.mgr._savedStates.fresh, m⟩]) ∧
      (∀ k v, step sem heap u k = .ok v → (∀ m, request heap u.app k ≠ .record m) →
        v.mgr._savedStates.nodes.Sublist u.mgr._savedStates.nodes) ∧
      (∀ c v, (heap c).kind ≠ .recordable → step sem heap u (.invoke c) = .ok v →
        v.mgr._savedStates.nodes = u.mgr._savedStates.nodes) ∧
      ∀ i ks₁ ks₂ v w, Machine.run (step sem heap) u ks₁ = .ok v →
        Machine.run (step sem heap) v ks₂ = .ok w → i ∈ ids u.mgr → i ∉ ids v.mgr →
        i ∉ ids w.mgr ∧ ¬ w.mgr._savedStates.Live (.node i) := by
  rw [Session.start_toWorld, Session.run_eq_ok] at hu
  obtain ⟨x, hx, rfl⟩ := hu
  refine ⟨?_, ?_, ?_, ?_, ?_, ?_⟩
  · have h0 : (Session.start a : Session A μ).history.Increasing := List.Pairwise.nil
    exact Session.history_run (fun _ _ _ hc => hc.increasing) h0 hx
  · have hs := Session.serial_run hx
    rw [show (Session.start a : Session A μ).history.serial = 0 from rfl, Nat.zero_add] at hs
    exact hs
  · intro k v m hv hr
    rw [Session.step_toWorld, Machine.map_eq_ok] at hv
    obtain ⟨y, hy, rfl⟩ := hv
    exact Session.appends_of_record hr hy
  · intro k v hv hr
    rw [Session.step_toWorld, Machine.map_eq_ok] at hv
    obtain ⟨y, hy, rfl⟩ := hv
    exact Session.sublist_of_not_record hr hy
  · intro c v hc hv
    rw [Session.step_toWorld, Machine.map_eq_ok] at hv
    obtain ⟨y, hy, rfl⟩ := hv
    exact Session.entries_batch hc hy
  · intro i ks₁ ks₂ v w hv hw hi hn
    rw [Session.run_eq_ok] at hv
    obtain ⟨y, hy, rfl⟩ := hv
    rw [Session.run_eq_ok] at hw
    obtain ⟨z, hz, rfl⟩ := hw
    have hgone := Session.gone_of_left hy hi hn
    have hz' : z.history.Gone i := Session.history_run (fun _ _ _ hc => hc.gone) hgone hz
    exact ⟨hz'.2, History.not_live_of_gone hz'⟩

/-- The second of three mementos is cut off by a command after an undo, and stays away. -/
theorem serials_never_return_counter :
    ∃ u v, Machine.run (step .standard counterHeap) (.start 0) [.invoke 2, .invoke 3] = .ok u ∧
      Machine.run (step .standard counterHeap) u [.undo 0, .invoke 2] = .ok v ∧
      ids v.mgr = [0, 2] ∧
      ∀ ks w, Machine.run (step .standard counterHeap) v ks = .ok w → 1 ∉ ids w.mgr := by
  obtain ⟨u, hu⟩ : ∃ u, Machine.run (step .standard counterHeap) (.start 0)
      [.invoke 2, .invoke 3] = .ok u := ⟨_, rfl⟩
  obtain ⟨v, hv⟩ :
      ∃ v, Machine.run (step .standard counterHeap) u [.undo 0, .invoke 2] = .ok v := by
    cases hu
    exact ⟨_, rfl⟩
  have hids : ids v.mgr = [0, 2] := by
    cases hu
    cases hv
    decide
  have hin : 1 ∈ ids u.mgr := by
    cases hu
    decide
  refine ⟨u, v, hu, hv, hids, ?_⟩
  intro ks w hw
  have hgone := (serials_never_return hu).2.2.2.2.2
  exact (hgone 1 _ ks v w hv hw hin (by rw [hids]; decide)).1

end UndoCxx
