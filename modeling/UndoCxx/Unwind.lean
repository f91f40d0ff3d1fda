import UndoCxx.Nested
import UndoCxx.View

/-! What a command that invokes others leaves recorded when one of them throws. -/
namespace UndoCxx

open Cxx Session

variable {A μ α : Type}

/-- An act of the application, beside the mementos recorded so far. -/
def onApp (x : App A α) : App (A × List (CmdId × μ)) α := fun s =>
  let (r, a) := x s.1
  (r, (a, s.2))

def NodeCmd.record (n : NodeCmd A μ) : App (A × List (CmdId × μ)) Unit :=
  if n.canBeMemento then do
    let m ← onApp (n.saveStateImpl n.id)
    modify fun s => (s.1, s.2 ++ [(n.id, m)])
  else return

/-- What a `do_execute` does to the application, and which mementos it has recorded when it
returns or throws. -/
def Body.record : Body A μ → App (A × List (CmdId × μ)) Unit
  | .done act => onApp act
  | .invoke act child body rest => do
    onApp act
    (do body.record; child.record)
    rest.record

def CmdTree.record (t : CmdTree A μ) : App (A × List (CmdId × μ)) Unit := do
  t.body.record
  t.root.record

/-- Beside any history the code ends as `y` does, with the mementos that `y` has added recorded,
and these come from the first of the commands `ids`, or from all of them if nothing is thrown. -/
def Tracks (x : M A μ Unit) (y : App (A × List (CmdId × μ)) Unit) (ids : List CmdId) : Prop :=
  ∀ (a : A) (l : List (CmdId × μ)) (h : History μ) (cb : List (Callback μ)), 0 < h.limit →
    ∃ ms b r cb', y (a, l) = (r, (b, l ++ ms)) ∧
      x (toWorld ⟨a, h, cb⟩) = .ok (r, toWorld ⟨b, h.recordAll (ms.map Prod.snd), cb'⟩) ∧
      ms.map Prod.fst <+: ids ∧ (r = .ok () → ms.map Prod.fst = ids)

variable {x x' : M A μ Unit} {y y' : App (A × List (CmdId × μ)) Unit} {ids ids' : List CmdId}
  {n : NodeCmd A μ} {t : CmdTree A μ}

theorem Tracks.bind (h : Tracks x y ids) (h' : Tracks x' y' ids') :
    Tracks (x >>= fun _ => x') (y >>= fun _ => y') (ids ++ ids') := by
  intro a l g cb hl
  obtain ⟨ms, b, r, cb', hy, hx, hpre, hall⟩ := h a l g cb hl
  cases r with
  | error e =>
    refine ⟨ms, b, .error e, cb', App.bind_error hy, M.bind_throw hx, ?_, ?_⟩
    · exact hpre.trans (List.prefix_append _ _)
    · intro he
      cases he
  | ok =>
    obtain ⟨ms', c, r', cb'', hy', hx', hpre', hall'⟩ :=
      h' b (l ++ ms) (g.recordAll (ms.map Prod.snd)) cb' (by rwa [History.limit_recordAll])
    have hids := hall rfl
    refine ⟨ms ++ ms', c, r', cb'', ?_, ?_, ?_, ?_⟩
    · rw [App.bind_ok hy, hy', List.append_assoc]
    · rw [M.bind_ok hx, hx', List.map_append, History.recordAll_append]
    · rw [List.map_append, hids, List.prefix_append_right_inj]
      exact hpre'
    · intro hr
      rw [List.map_append, hids, hall' hr]

theorem Tracks.act (act : App A Unit) : Tracks (μ := μ) act.lift (onApp act) [] := by
  intro a l g cb _
  rcases hact : act a with ⟨r, b⟩
  refine ⟨[], b, r, cb, ?_, App.lift_apply hact, List.prefix_rfl, fun _ => rfl⟩
  rw [onApp, hact, List.append_nil]

/-- A call that is only logged. -/
theorem Tracks.log (h : Tracks x y ids) (k : Callback μ) : Tracks (log k >>= fun _ => x) y ids := by
  intro a l g cb hl
  obtain ⟨ms, b, r, cb', hy, hx, hids⟩ := h a l g (cb ++ [k]) hl
  exact ⟨ms, b, r, cb', hy, (M.bind_ok rfl).trans hx, hids⟩

/-- The last part of an `invoke`: the memento, if there is to be one. -/
theorem Tracks.save (n : NodeCmd A μ) : Tracks
    (if n.canBeMemento then do
        UndoCxx.log (.saveState n.id)
        let m ← (n.saveStateImpl n.id).lift
        push m
      else pure ()) n.record n.recordable := by
  intro a l g cb hl
  rw [NodeCmd.record, NodeCmd.recordable]
  cases n.canBeMemento with
  | false =>
    refine ⟨[], a, .ok (), cb, ?_, rfl, List.prefix_rfl, fun _ => rfl⟩
    rw [List.append_nil]
    rfl
  | true =>
    simp only [if_true]
    rcases hs : n.saveStateImpl n.id a with ⟨e | m, b⟩
    · have hkeep : onApp (n.saveStateImpl n.id) (a, l) = (.error e, (b, l ++ [])) := by
        rw [onApp, hs, List.append_nil]
      refine ⟨[], b, .error e, cb ++ [.saveState n.id], App.bind_error hkeep, ?_,
        List.nil_prefix, fun he => by cases he⟩
      exact (M.bind_ok rfl).trans (M.bind_throw (App.lift_apply hs))
    · have hkeep : onApp (n.saveStateImpl n.id) (a, l) = (.ok m, (b, l)) := by
        rw [onApp, hs]
      refine ⟨[(n.id, m)], b, .ok (), cb ++ [.saveState n.id], (App.bind_ok hkeep).trans rfl, ?_,
        List.prefix_rfl, fun _ => rfl⟩
      refine (M.bind_ok rfl).trans ((M.bind_ok (App.lift_apply hs)).trans ?_)
      have hcan : g.CanRecord := Or.inl hl
      have hpush := push_toWorld (h := g) (a := b) (l := cb ++ [.saveState n.id]) m
      rw [if_pos hcan] at hpush
      exact hpush

theorem Tracks.invoke (h : Tracks x y ids) (n : NodeCmd A μ) :
    Tracks (invoke n.id (n.toCmd x)) (y >>= fun _ => n.record) (ids ++ n.recordable) := by
  rw [invoke_eq]
  exact (h.bind (Tracks.save n)).log (.execute n.id)

end UndoCxx
