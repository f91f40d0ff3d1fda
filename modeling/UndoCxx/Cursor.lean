import UndoCxx.Run

/-! The cursor: always live, and never at the start of a history driven by commands. -/
namespace UndoCxx

open Cxx

namespace History

variable {μ : Type} {h : History μ} {r : Request μ}

/-- Behind its guard a batch stays between the two ends of the list. -/
theorem advance_guarded {k : ℤ} (hp : FitsInt h.pos) (hk : FitsInt (h.pos + k))
    (hg : UndoableCmdSystem.inBounds (toInt h.pos + k) h.size = true) :
    ∃ it, h.toMgr._savedStates.advance .standard h.toMgr._position k = .ok it := by
  rw [toInt_of_fits hp, inBounds_of_fits hk] at hg
  obtain ⟨hpos, hin⟩ := hg
  have hsize : h.toMgr._savedStates.size = h.size := rfl
  exact StdList.advance_inside (locate_toMgr h) (by omega) (by omega)

/-- The cursor has a predecessor, or there is nothing at all. -/
def Anchored (h : History μ) : Prop := h.stack.past = [] → h.stack.future = []

/-- An erasure has a predecessor to step back over. -/
theorem Anchored.canErase (ha : h.Anchored) (sem : Sentinel) : h.CanErase sem := by
  by_cases hp : h.stack.past = []
  · exact Or.inr (Or.inr (ha hp))
  · exact Or.inr (Or.inl hp)

theorem anchored_of_pos (hp : 0 < h.pos) : h.Anchored := by
  intro hnil
  rw [pos, hnil] at hp
  exact absurd hp (Nat.lt_irrefl 0)

/-- A redo moves away from `begin()`. -/
theorem anchored_redo (ha : h.Anchored) (n : ℕ) : (History.redo^[n] h).Anchored := by
  intro hnil
  rw [stack_iterate_redo, TwoStack.iterate_redo] at hnil ⊢
  obtain ⟨-, hp⟩ := List.append_eq_nil_iff.mp hnil
  simp [ha hp]

/-- Everything but the single undo step leaves the cursor after some entry. -/
theorem anchored_after (ha : h.Anchored) (hu : r ≠ .undo) : (h.after r).Anchored := by
  cases r with
  | nothing => exact ha
  | record m => exact anchored_of_pos (Nat.succ_pos _)
  | move dir =>
    cases dir with
    | back => exact absurd rfl hu
    | forth => exact anchored_redo ha 1
  | batch dir d =>
    cases dir with
    | back =>
      rw [after]
      split
      · next hlt =>
        by_cases hz : d.toNat = 0
        · rw [hz]
          exact ha
        · apply anchored_of_pos
          rw [pos_iterate_undo]
          omega
      · exact ha
    | forth =>
      rw [after]
      split
      · exact anchored_redo ha _
      · exact ha
  | erase n =>
    intro hp
    have hf : h.stack.future = [] := ha hp
    change h.stack.future.drop n.toNat = []
    rw [hf, List.drop_nil]
  | clear =>
    intro _
    rfl
  | limit n => exact ha

/-- Of the requests that leave the cursor after some entry, only `clear` empties the history. -/
theorem size_after (ha : h.Anchored) (hu : r ≠ .undo) (hs : h.size ≠ 0)
    (h0 : (h.after r).size = 0) : r = .clear := by
  have hp : h.stack.past ≠ [] := by
    intro hnil
    rw [size_eq, pos, hnil, ha hnil] at hs
    exact hs rfl
  have hpos : 0 < h.pos := List.length_pos_iff.mpr hp
  cases r with
  | nothing => exact absurd h0 hs
  | record m => simp [after, record, TwoStack.record, size, TwoStack.entries] at h0
  | move dir =>
    cases dir with
    | back => exact absurd rfl hu
    | forth =>
      have he : (h.after .redo).size = h.size := size_iterate_redo 1 h
      exact absurd (he ▸ h0) hs
  | batch dir d => exact absurd (size_batch h dir d ▸ h0) hs
  | erase n =>
    have he : (h.drop n.toNat).pos = h.pos := rfl
    rw [after, size_eq, he] at h0
    omega
  | clear => rfl
  | limit n => exact absurd h0 hs

end History

variable {A μ : Type} {sem : Sentinel} {heap : Heap A μ} {a : A} {ks : List Call}

/-- What the batch operations check before they copy and advance the cursor. -/
def AdvanceInside (heap : Heap A μ) (s : UndoableCmdSystem μ) (k : Call) : Prop :=
  ∀ (p : ℕ) (d : ℤ), s.position = .ok p →
    (AsksUndo heap d k → UndoableCmdSystem.inBounds (toInt p - d) s.size = true →
      ∃ it, s._savedStates.advance .standard s._position (-d) = .ok it) ∧
    (AsksRedo heap d k → UndoableCmdSystem.inBounds (toInt p + d) s.size = true →
      ∃ it, s._savedStates.advance .standard s._position d = .ok it)

/-- The trial cursors of a legal call stay within the list. -/
theorem advanceInside_of_legal {h : History μ} {k : Call} (hk : k.Legal heap h.toMgr) :
    AdvanceInside heap h.toMgr k := by
  intro p d hp
  obtain rfl : h.pos = p := History.pos_of_position hp
  constructor
  · intro ha hg
    obtain ⟨hpos, hnew⟩ := Session.fits_of_delta (hk.asks ha)
    exact History.advance_guarded hpos hnew hg
  · intro ha hg
    obtain ⟨hpos, hnew⟩ := Session.fits_of_delta (hk.asks ha)
    exact History.advance_guarded hpos hnew hg

theorem limit_start (a : A) : 0 < (Session.start a : Session A μ).history.limit :=
  (by decide : 0 < sizeTMax)

/-- On a circular list every legal run is defined, which rules out any use of a removed node. The
cursor is live in every state of it, and the batch operations advance inside the list even when
stepping over its end is undefined. -/
theorem cursor_live (hlegal : ∀ u k, Machine.Attempts (step .cyclic heap) (.start a) ks u k →
      k.Legal heap u.mgr) :
    (∃ w, Machine.run (step .cyclic heap) (.start a) ks = .ok w) ∧
      (∀ u, Machine.Visits (step .cyclic heap) (.start a) ks u →
        u.mgr._savedStates.Live u.mgr._position) ∧
      ∀ u k, Machine.Attempts (step .cyclic heap) (.start a) ks u k →
        AdvanceInside heap u.mgr k := by
  have hsession : ∀ y k, Machine.Attempts (Session.step .cyclic heap) (.start a) ks y k →
      k.Legal heap y.history.toMgr := Session.legal_attempts hlegal
  refine ⟨?_, ?_, ?_⟩
  · obtain ⟨y, hy⟩ := Session.legal_run_total (limit_start a) hsession
    exact ⟨y.toWorld, Session.run_eq_ok.mpr ⟨y, hy, rfl⟩⟩
  · intro u hu
    rw [Session.start_toWorld] at hu
    obtain ⟨x, rfl, -⟩ := Session.visits_toWorld hu
    exact History.live_toMgr x.history
  · intro u k ho
    rw [Session.start_toWorld] at ho
    obtain ⟨x, rfl, hx⟩ := Session.attempts_toWorld ho
    exact advanceInside_of_legal (hsession x k hx)

/-- An undo command after two commands, and an erasure at the cursor it leaves. -/
theorem cursor_live_counter :
    ∃ w, Machine.run (step .cyclic counterHeap) (.start 0)
      [.invoke 2, .invoke 3, .invoke 0, .erase 1, .maxSize 1] = .ok w := by
  refine (cursor_live (a := 0) ?_).1
  refine Machine.forall_attempts_cons trivial rfl ?_
  refine Machine.forall_attempts_cons trivial rfl ?_
  refine Machine.forall_attempts_cons (deltaFits_of_position (p := 2) rfl (by decide)) rfl ?_
  refine Machine.forall_attempts_cons (by decide : (0 : ℤ) ≤ 1) rfl ?_
  refine Machine.forall_attempts_cons (Nat.le_refl 1) rfl ?_
  exact Machine.forall_attempts_nil

/-- Calls of a client that undoes and redoes only through commands. -/
def Call.CommandDriven : Call → Prop
  | .invoke _ => True
  | .erase _ => True
  | .clear => True
  | .maxSize _ => True
  | _ => False

theorem Call.CommandDriven.request_ne_undo {k : Call} (hk : k.CommandDriven) (a : A) :
    request heap a k ≠ .undo := by
  cases k with
  | invoke c =>
    rcases request_invoke heap a c with hr | ⟨m, hr⟩ | ⟨dir, d, hr, -⟩ <;> simp [hr]
  | erase | clear | maxSize => simp [request]
  | undo | redo | undoBy | redoBy => exact hk.elim

namespace Session

variable {x y : Session A μ} {k : Call}

/-- The invariant of command-driven runs. -/
def Driven (x : Session A μ) : Prop := 0 < x.history.limit ∧ x.history.Anchored

/-- One command keeps a memento before the cursor, or the list empty. -/
theorem driven_step (hk : k.Legal heap x.history.toMgr) (hcmd : k.CommandDriven)
    (hx : x.Driven) : x.step sem heap k = .ok (x.after heap k) ∧ (x.after heap k).Driven := by
  obtain ⟨hl, ha⟩ := hx
  have hu : request heap x.app k ≠ .undo := hcmd.request_ne_undo x.app
  exact ⟨step_legal hk hl fun _ _ => ha.canErase sem,
    limit_after hk hl, History.anchored_after ha hu⟩

theorem driven_start (a : A) : (start a : Session A μ).Driven :=
  ⟨limit_start a, fun _ => rfl⟩

theorem Driven.bounds (hx : x.Driven) :
    x.history.toMgr.empty = true ∧ x.history.pos = 0 ∨
      1 ≤ x.history.pos ∧ x.history.pos ≤ x.history.toMgr.size := by
  obtain ⟨-, ha⟩ := hx
  by_cases hp : x.history.pos = 0
  · have hf := ha (List.length_eq_zero_iff.mp hp)
    left
    rw [History.empty_iff, History.size_eq, hp, hf]
    exact ⟨rfl, rfl⟩
  · right
    exact ⟨Nat.one_le_iff_ne_zero.mpr hp, x.history.pos_le_size⟩

theorem Driven.newest (hx : x.Driven) (he : x.history.toMgr.empty = false) :
    ∃ m, x.history.toMgr.newestItem sem = .ok m := by
  obtain ⟨-, ha⟩ := hx
  cases hp : x.history.stack.past with
  | nil =>
    have hempty : x.history.toMgr.empty = true := by simp [History.empty_toMgr, hp, ha hp]
    rw [hempty] at he
    cases he
  | cons n past => exact ⟨n.val, History.newestItem_toMgr hp⟩

theorem driven_visits (hcmd : ∀ k ∈ ks, k.CommandDriven)
    (hlegal : ∀ u k, Machine.Attempts (step sem heap) x ks u k → k.Legal heap u.history.toMgr)
    (hx : x.Driven) (hy : Machine.Visits (step sem heap) x ks y) : y.Driven := by
  refine Machine.visits_preserves (I := Driven) ?_ hx hy
  intro u k v ho hu
  have hk := hlegal u k ho.attempts
  have hnext : u.step sem heap k = .ok (u.after heap k) ∧ (u.after heap k).Driven :=
    driven_step hk (hcmd k ho.attempts.mem) hu
  rw [eq_after hk hu.1 ho.taken]
  exact hnext.2

/-- A run driven by commands meets no undefined behaviour. -/
theorem driven_total (hcmd : ∀ k ∈ ks, k.CommandDriven)
    (hlegal : ∀ u k, Machine.Attempts (step sem heap) x ks u k → k.Legal heap u.history.toMgr)
    (hx : x.Driven) : ∃ y, Machine.run (step sem heap) x ks = .ok y := by
  have hstep : ∀ u k, Machine.Attempts (step sem heap) x ks u k → u.Driven →
      ∃ v, u.step sem heap k = .ok v ∧ v.Driven := by
    intro u k ho hu
    exact ⟨_, driven_step (hlegal u k ho) (hcmd k ho.mem) hu⟩
  obtain ⟨y, hy, -⟩ := Machine.run_total hstep hx
  exact ⟨y, hy⟩

theorem clear_of_request {a : A} (h : request heap a k = .clear) : k = .clear := by
  cases k with
  | invoke c =>
    rcases request_invoke heap a c with hr | ⟨m, hr⟩ | ⟨dir, d, hr, -⟩ <;>
      simp [hr] at h
  | clear => rfl
  | undo | redo | undoBy | redoBy | erase | maxSize => cases h

/-- Only `clear()` empties the list. -/
theorem Driven.clear_of_empty (hx : x.Driven) (hk : k.Legal heap x.history.toMgr)
    (hcmd : k.CommandDriven) (h : x.step sem heap k = .ok y)
    (hne : x.history.toMgr.empty = false) (he : y.history.toMgr.empty = true) : k = .clear := by
  obtain ⟨hl, ha⟩ := hx
  have hsize : x.history.size ≠ 0 := by
    intro h0
    rw [(History.empty_iff _).mpr h0] at hne
    cases hne
  have h0 := (History.empty_iff _).mp he
  rw [eq_after hk hl h] at h0
  exact clear_of_request (History.size_after ha (hcmd.request_ne_undo x.app) hsize h0)

end Session

/-- A client that undoes and redoes only through commands never reaches the start of a history
that is not empty. So `newest_item()` is defined there, no step of the run is undefined even on a
plain `std::list`, and only `clear` empties the history. -/
theorem command_driven_newest (hcmd : ∀ k ∈ ks, k.CommandDriven)
    (hlegal : ∀ u k, Machine.Attempts (step sem heap) (.start a) ks u k → k.Legal heap u.mgr) :
    (∃ w, Machine.run (step sem heap) (.start a) ks = .ok w) ∧
      (∀ u, Machine.Visits (step sem heap) (.start a) ks u → ∃ p, u.mgr.position = .ok p ∧
        (u.mgr.empty = true ∧ p = 0 ∨ 1 ≤ p ∧ p ≤ u.mgr.size)) ∧
      (∀ u, Machine.Visits (step sem heap) (.start a) ks u → u.mgr.empty = false →
        ∃ m, u.mgr.newestItem sem = .ok m) ∧
      ∀ u k v, Machine.Occurs (step sem heap) (.start a) ks u k v →
        u.mgr.empty = false → v.mgr.empty = true → k = .clear := by
  have hsession : ∀ y k, Machine.Attempts (Session.step sem heap) (.start a) ks y k →
      k.Legal heap y.history.toMgr := Session.legal_attempts hlegal
  have hvisits : ∀ y, Machine.Visits (Session.step sem heap) (.start a) ks y → y.Driven := by
    intro y hy
    exact Session.driven_visits hcmd hsession (Session.driven_start a) hy
  rw [Session.start_toWorld]
  refine ⟨?_, ?_, ?_, ?_⟩
  · obtain ⟨y, hy⟩ := Session.driven_total hcmd hsession (Session.driven_start a)
    exact ⟨y.toWorld, Session.run_eq_ok.mpr ⟨y, hy, rfl⟩⟩
  · intro u hu
    obtain ⟨y, rfl, hy⟩ := Session.visits_toWorld hu
    exact ⟨y.history.pos, History.position_toMgr _, (hvisits y hy).bounds⟩
  · intro u hu he
    obtain ⟨y, rfl, hy⟩ := Session.visits_toWorld hu
    exact (hvisits y hy).newest he
  · intro u k v ho hu hv
    obtain ⟨y, z, rfl, rfl, hyz⟩ := Session.occurs_toWorld ho
    have hk := hsession y k hyz.attempts
    exact (hvisits y hyz.visits).clear_of_empty hk (hcmd k hyz.attempts.mem) hyz.taken hu hv

/-- An undo command of delta 1 stops after the first of two entries. -/
theorem command_driven_newest_counter :
    ∃ w, Machine.run (step .standard counterHeap) (.start 0) [.invoke 2, .invoke 3, .invoke 0] =
      .ok w := by
  refine (command_driven_newest (a := 0) ?_ ?_).1
  · simp [Call.CommandDriven]
  refine Machine.forall_attempts_cons trivial rfl ?_
  refine Machine.forall_attempts_cons trivial rfl ?_
  refine Machine.forall_attempts_cons (deltaFits_of_position (p := 2) rfl (by decide)) rfl ?_
  exact Machine.forall_attempts_nil

end UndoCxx
