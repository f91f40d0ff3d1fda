import UndoCxx.Run

/-! Commands that invoke further commands through the manager while they execute. -/
namespace UndoCxx

open Cxx

variable {A μ α β : Type}

/-- What a command is besides its `do_execute`. -/
structure NodeCmd (A μ : Type) where
  id : CmdId
  canBeMemento : Bool
  saveStateImpl : CmdId → App A μ
  undoImpl : CmdId → μ → M A μ μ
  redoImpl : CmdId → μ → M A μ μ

/-- A `do_execute`: it acts on the application, invokes a child, goes on, and ends with a last act.
The child comes with the `do_execute` of its own. -/
inductive Body (A μ : Type)
  | done (act : App A Unit)
  | invoke (act : App A Unit) (child : NodeCmd A μ) (body rest : Body A μ)

structure CmdTree (A μ : Type) where
  root : NodeCmd A μ
  body : Body A μ

def NodeCmd.toCmd (n : NodeCmd A μ) (doExecute : M A μ Unit) : Cmd A μ where
  canBeMemento := n.canBeMemento
  doExecute _ := doExecute
  saveStateImpl sender := (n.saveStateImpl sender).lift
  undoImpl := n.undoImpl
  redoImpl := n.redoImpl

/-- Every child goes through `ctx.mgr.invoke`. -/
def Body.exec : Body A μ → M A μ Unit
  | .done act => act.lift
  | .invoke act child body rest => do
    act.lift
    UndoCxx.invoke child.id (child.toCmd body.exec)
    rest.exec

def CmdTree.toCmd (t : CmdTree A μ) : Cmd A μ := t.root.toCmd t.body.exec

/-! What the tree does to the application alone, and what it saves in completion order -/

/-- The memento of a node, once its `do_execute` has returned. -/
def NodeCmd.saved (n : NodeCmd A μ) : App A (List (CmdId × μ)) :=
  if n.canBeMemento then do
    let m ← n.saveStateImpl n.id
    return [(n.id, m)]
  else return []

def Body.eval : Body A μ → App A (List (CmdId × μ))
  | .done act => do
    act
    return []
  | .invoke act child body rest => do
    act
    let inner ← body.eval
    let own ← child.saved
    let others ← rest.eval
    return inner ++ own ++ others

def CmdTree.eval (t : CmdTree A μ) : App A (List (CmdId × μ)) := do
  let inner ← t.body.eval
  let own ← t.root.saved
  return inner ++ own

/-- The recordable node, or nothing. -/
def NodeCmd.recordable (n : NodeCmd A μ) : List CmdId := if n.canBeMemento then [n.id] else []

/-- The recordable nodes, every child before its parent. -/
def Body.postorder : Body A μ → List CmdId
  | .done _ => []
  | .invoke _ child body rest => body.postorder ++ child.recordable ++ rest.postorder

def CmdTree.postorder (t : CmdTree A μ) : List CmdId := t.body.postorder ++ t.root.recordable

theorem App.bind_eq_ok {x : App A α} {f : α → App A β} {a c : A} {v : β} :
    (x >>= f) a = (.ok v, c) ↔ ∃ u b, x a = (.ok u, b) ∧ f u b = (.ok v, c) := by
  constructor
  · intro h
    rcases hx : x a with ⟨e | u, b⟩
    · rw [App.bind_error hx] at h
      cases h
    · rw [App.bind_ok hx] at h
      exact ⟨u, b, rfl, h⟩
  · rintro ⟨u, b, hx, h⟩
    rw [App.bind_ok hx, h]

theorem App.pure_eq_ok {a b : A} {u v : α} :
    (pure u : App A α) a = (.ok v, b) ↔ u = v ∧ a = b := by
  constructor
  · intro h
    cases h
    exact ⟨rfl, rfl⟩
  · rintro ⟨rfl, rfl⟩
    rfl

variable {n : NodeCmd A μ} {body : Body A μ} {t : CmdTree A μ} {a b : A} {ms : List (CmdId × μ)}

theorem saved_eq_ok : n.saved a = (.ok ms, b) ↔
    (n.canBeMemento = false ∧ ms = [] ∧ b = a) ∨
      n.canBeMemento = true ∧ ∃ m, n.saveStateImpl n.id a = (.ok m, b) ∧ ms = [(n.id, m)] := by
  rw [NodeCmd.saved]
  cases n.canBeMemento with
  | false =>
    rw [if_neg Bool.false_ne_true, App.pure_eq_ok]
    simp [eq_comm]
  | true =>
    rw [if_pos rfl, App.bind_eq_ok]
    simp only [App.pure_eq_ok]
    constructor
    · rintro ⟨m, b', hm, rfl, rfl⟩
      exact Or.inr ⟨trivial, m, hm, rfl⟩
    · rintro (⟨hno, -⟩ | ⟨-, m, hm, rfl⟩)
      · cases hno
      · exact ⟨m, b, hm, rfl, rfl⟩

theorem eval_invoke {act : App A Unit} {rest : Body A μ} {c : A}
    (h : (Body.invoke act n body rest).eval a = (.ok ms, c)) :
    ∃ a₁ a₂ a₃ inner own others, act a = (.ok (), a₁) ∧ body.eval a₁ = (.ok inner, a₂) ∧
      n.saved a₂ = (.ok own, a₃) ∧ rest.eval a₃ = (.ok others, c) ∧
      ms = inner ++ own ++ others := by
  simp only [Body.eval, App.bind_eq_ok, App.pure_eq_ok] at h
  obtain ⟨_, a₁, h₁, inner, a₂, h₂, own, a₃, h₃, others, _, h₄, rfl, rfl⟩ := h
  exact ⟨a₁, a₂, a₃, inner, own, others, h₁, h₂, h₃, h₄, rfl⟩

theorem saved_ids (h : n.saved a = (.ok ms, b)) : ms.map Prod.fst = n.recordable := by
  rcases saved_eq_ok.mp h with ⟨hn, rfl, -⟩ | ⟨hn, m, -, rfl⟩
  · simp [NodeCmd.recordable, hn]
  · simp [NodeCmd.recordable, hn]

/-- The mementos come from the recordable nodes in post-order. -/
theorem eval_ids (h : body.eval a = (.ok ms, b)) : ms.map Prod.fst = body.postorder := by
  induction body generalizing a b ms with
  | done act =>
    simp only [Body.eval, App.bind_eq_ok, App.pure_eq_ok] at h
    obtain ⟨_, _, -, rfl, -⟩ := h
    rfl
  | invoke act child body rest ihbody ihrest =>
    obtain ⟨a₁, a₂, a₃, inner, own, others, -, h₂, h₃, h₄, rfl⟩ := eval_invoke h
    rw [List.map_append, List.map_append, ihbody h₂, saved_ids h₃, ihrest h₄]
    rfl

theorem tree_ids (h : t.eval a = (.ok ms, b)) : ms.map Prod.fst = t.postorder := by
  simp only [CmdTree.eval, App.bind_eq_ok, App.pure_eq_ok] at h
  obtain ⟨inner, a₁, h₁, own, _, h₂, rfl, -⟩ := h
  rw [List.map_append, eval_ids h₁, saved_ids h₂]
  rfl

namespace History

variable {h : History μ} {l : List μ}

/-- Record one memento after the other. -/
def recordAll (h : History μ) (l : List μ) : History μ := l.foldl (fun h m => h.record m) h

@[simp] theorem limit_recordAll (h : History μ) (l : List μ) :
    (h.recordAll l).limit = h.limit := by
  induction l generalizing h with
  | nil => rfl
  | cons m l ih => exact ih (h.record m)

theorem recordAll_append (h : History μ) (l l' : List μ) :
    h.recordAll (l ++ l') = (h.recordAll l).recordAll l' :=
  List.foldl_append

/-- The values before the cursor. -/
theorem values_take (h : History μ) :
    h.toMgr._savedStates.values.take h.pos = h.stack.past.reverse.map Node.val := by
  have hlen : (h.stack.past.reverse.map Node.val).length = h.pos := by
    rw [List.length_map, List.length_reverse, pos]
  rw [StdList.values, nodes_toMgr, List.map_append, ← hlen, List.take_left]

theorem past_record (hl : 0 < h.limit) (m : μ) :
    (h.record m).stack.past.reverse.map Node.val =
      (h.stack.past.reverse.map Node.val ++ [m]).drop (if h.limit ≤ h.pos then 1 else 0) := by
  change (h.stack.record h.limit ⟨h.serial, m⟩).past.reverse.map Node.val = _
  rw [TwoStack.record, pos]
  by_cases hfull : h.limit ≤ h.stack.past.length
  · have hlen : 1 ≤ (h.stack.past.reverse.map Node.val).length := by
      rw [List.length_map, List.length_reverse]
      omega
    rw [if_pos hfull, if_pos hfull, List.reverse_cons, List.map_append, ← List.tail_reverse,
      List.map_tail, List.drop_append_of_le_length hlen, List.drop_one]
    rfl
  · simp [hfull]

/-- The mementos stand after what was before the cursor, where each of them has evicted the oldest
if there was no room for it. -/
theorem past_recordAll (hl : 0 < h.limit) :
    (h.recordAll l).stack.past.reverse.map Node.val =
      (h.stack.past.reverse.map Node.val ++ l).drop
        (min l.length (h.pos + l.length - h.limit)) := by
  induction l generalizing h with
  | nil =>
    rw [List.length_nil, Nat.zero_min, List.drop_zero, List.append_nil]
    rfl
  | cons m l ih =>
    have hone := past_record hl m
    have hrest := ih (h := h.record m) hl
    have hlimit : (h.record m).limit = h.limit := rfl
    have hpos : (h.record m).pos = h.pos + 1 - if h.limit ≤ h.pos then 1 else 0 := by
      have hlen := congrArg List.length hone
      simpa [pos] using hlen
    change ((h.record m).recordAll l).stack.past.reverse.map Node.val = _
    rw [hrest, hone, hlimit, hpos, List.length_cons]
    by_cases hfull : h.limit ≤ h.pos
    · have hlen : 1 ≤ (h.stack.past.reverse.map Node.val ++ [m]).length := by simp
      rw [if_pos hfull, ← List.drop_append_of_le_length hlen, List.drop_drop, List.append_assoc]
      congr 1
      omega
    · rw [if_neg hfull, List.drop_zero, List.append_assoc]
      congr 1
      omega

theorem future_recordAll (hne : l ≠ []) : (h.recordAll l).stack.future = [] := by
  induction l generalizing h with
  | nil => exact absurd rfl hne
  | cons m l ih =>
    cases l with
    | nil => rfl
    | cons m' l => exact ih (h := h.record m) (List.cons_ne_nil m' l)

/-- What `recordAll` makes of the list, and of the cursor. -/
theorem values_recordAll (hl : 0 < h.limit) (hne : l ≠ []) :
    (h.recordAll l).toMgr._savedStates.values =
        (h.toMgr._savedStates.values.take h.pos ++ l).drop
          (min l.length (h.pos + l.length - h.limit)) ∧
      (h.recordAll l).toMgr.position = .ok (h.recordAll l).toMgr.size := by
  have hfuture : (h.recordAll l).stack.future = [] := future_recordAll hne
  constructor
  · rw [StdList.values, nodes_toMgr, hfuture, List.append_nil, past_recordAll hl, values_take]
  · rw [position_toMgr, size_toMgr, size_eq, hfuture]
    rfl

end History

section Exec

variable {h g : History μ} {exec : M A μ Unit} {own : List (CmdId × μ)} {c : A}

open Session

/-- One re-entrant `invoke`: whatever the command did, and then its memento. -/
theorem invoke_node (hx : ∀ l, ∃ l', exec (toWorld ⟨a, h, l⟩) = .ok (.ok (), toWorld ⟨b, g, l'⟩))
    (hs : n.saved b = (.ok own, c)) (hl : own = [] ∨ 0 < g.limit) (l : List (Callback μ)) :
    ∃ l', invoke n.id (n.toCmd exec) (toWorld ⟨a, h, l⟩) =
      .ok (.ok (), toWorld ⟨c, g.recordAll (own.map Prod.snd), l'⟩) := by
  obtain ⟨l₁, h₁⟩ := hx (l ++ [.execute n.id])
  have hexec : (n.toCmd exec).execute n.id (toWorld ⟨a, h, l⟩) =
      .ok (.ok (), toWorld ⟨b, g, l₁⟩) := (M.bind_ok rfl).trans h₁
  rcases saved_eq_ok.mp hs with ⟨hn, rfl, rfl⟩ | ⟨hn, m, hm, rfl⟩
  · rw [invoke_of_not_memento hn]
    exact ⟨l₁, hexec⟩
  · have hinvoke : invoke n.id (n.toCmd exec) = (n.toCmd exec).execute n.id >>= fun _ =>
        save n.id (n.toCmd exec) := by
      simp only [invoke, NodeCmd.toCmd, hn, if_true]
    have hlift : (n.saveStateImpl n.id).lift (toWorld ⟨b, g, l₁ ++ [.saveState n.id]⟩) =
        .ok (.ok m, toWorld ⟨c, g, l₁ ++ [.saveState n.id]⟩) := App.lift_apply hm
    have hsave : (n.toCmd exec).saveState n.id (toWorld ⟨b, g, l₁⟩) =
        .ok (.ok m, toWorld ⟨c, g, l₁ ++ [.saveState n.id]⟩) := (M.bind_ok rfl).trans hlift
    have hcan : g.CanRecord := Or.inl (hl.resolve_left (by simp))
    refine ⟨l₁ ++ [.saveState n.id], ?_⟩
    rw [hinvoke, M.bind_ok hexec, save, M.bind_ok hsave, push_toWorld, if_pos hcan]
    rfl

/-- A `do_execute` records the mementos of the nodes below it, in completion order. -/
theorem exec_body (he : body.eval a = (.ok ms, b)) (hl : ms = [] ∨ 0 < h.limit)
    (l : List (Callback μ)) :
    ∃ l', body.exec (toWorld ⟨a, h, l⟩) =
      .ok (.ok (), toWorld ⟨b, h.recordAll (ms.map Prod.snd), l'⟩) := by
  induction body generalizing a b h ms l with
  | done act =>
    simp only [Body.eval, App.bind_eq_ok, App.pure_eq_ok] at he
    obtain ⟨_, _, hact, rfl, rfl⟩ := he
    exact ⟨l, App.lift_apply hact⟩
  | invoke act child body rest ihbody ihrest =>
    obtain ⟨a₁, a₂, a₃, inner, own, others, h₁, h₂, h₃, h₄, rfl⟩ := eval_invoke he
    have hact : act.lift (toWorld ⟨a, h, l⟩) = .ok (.ok (), toWorld ⟨a₁, h, l⟩) :=
      App.lift_apply h₁
    have hinner : inner = [] ∨ 0 < h.limit := hl.imp_left fun hnil => by simp_all
    have hown : own = [] ∨ 0 < h.limit := hl.imp_left fun hnil => by simp_all
    have hothers : others = [] ∨ 0 < h.limit := hl.imp_left fun hnil => by simp_all
    obtain ⟨l₁, hchild⟩ := invoke_node (n := child) (ihbody h₂ hinner) h₃
      (by rwa [History.limit_recordAll]) l
    obtain ⟨l₂, hrest⟩ := ihrest (h := (h.recordAll (inner.map Prod.snd)).recordAll
      (own.map Prod.snd)) h₄ (by simpa using hothers) l₁
    refine ⟨l₂, ?_⟩
    rw [Body.exec, M.bind_ok hact, M.bind_ok hchild, hrest, List.map_append, List.map_append,
      History.recordAll_append, History.recordAll_append]

/-- The root is a node like any other. -/
theorem invoke_tree (he : t.eval a = (.ok ms, b)) (hl : ms = [] ∨ 0 < h.limit)
    (l : List (Callback μ)) :
    ∃ l', invoke t.root.id t.toCmd (toWorld ⟨a, h, l⟩) =
      .ok (.ok (), toWorld ⟨b, h.recordAll (ms.map Prod.snd), l'⟩) := by
  simp only [CmdTree.eval, App.bind_eq_ok, App.pure_eq_ok] at he
  obtain ⟨inner, a₁, h₁, own, _, h₂, rfl, rfl⟩ := he
  have hinner : inner = [] ∨ 0 < h.limit := hl.imp_left fun hnil => by simp_all
  have hown : own = [] ∨ 0 < h.limit := hl.imp_left fun hnil => by simp_all
  obtain ⟨l', hroot⟩ := invoke_node (exec_body h₁ hinner) h₂ (by rwa [History.limit_recordAll]) l
  refine ⟨l', ?_⟩
  rw [CmdTree.toCmd, hroot, List.map_append, History.recordAll_append]

end Exec

/-- Invoking a command that invokes others leaves what was before the cursor followed by the
mementos of the recordable nodes, every child before its parent. -/
theorem nested_records_postorder {sem : Sentinel} {heap : Heap A μ} {a₀ : A} {w : World A μ} {p : ℕ}
    (hw : Reachable sem heap a₀ w) (hp : w.mgr.position = .ok p)
    (he : t.eval w.app = (.ok ms, b))
    (hroom : t.postorder = [] ∨ p + t.postorder.length ≤ w.mgr.maxSize) :
    ∃ v, invoke t.root.id t.toCmd w = .ok (.ok (), v) ∧ v.app = b ∧
      ms.map Prod.fst = t.postorder ∧
      (t.postorder ≠ [] →
        v.mgr._savedStates.values = w.mgr._savedStates.values.take p ++ ms.map Prod.snd ∧
          v.mgr.position = .ok v.mgr.size) ∧
      (t.postorder = [] → v.mgr = w.mgr) := by
  obtain ⟨x, rfl⟩ := hw.session
  obtain rfl : x.history.pos = p := History.pos_of_position hp
  have hids := tree_ids he
  have hlen : t.postorder.length = ms.length := by rw [← hids, List.length_map]
  have hnil : t.postorder = [] ↔ ms = [] := by rw [← hids, List.map_eq_nil_iff]
  rw [hnil, hlen] at hroom
  have hpos : ms = [] ∨ 0 < x.history.limit := by
    rcases hroom with hnone | hroom
    · exact Or.inl hnone
    · by_cases hms : ms = []
      · exact Or.inl hms
      · have hms' := List.length_pos_of_ne_nil hms
        change _ ≤ x.history.limit at hroom
        exact Or.inr (by omega)
  obtain ⟨l, hl⟩ := invoke_tree he hpos x.callbacks
  refine ⟨_, hl, rfl, hids, ?_, ?_⟩
  · intro hne
    have hms := hnil.not.mp hne
    have hfit : x.history.pos + (ms.map Prod.snd).length ≤ x.history.limit := by
      rw [List.length_map]
      exact hroom.resolve_left hms
    have hvalues := History.values_recordAll (l := ms.map Prod.snd) (hpos.resolve_left hms)
      (by simpa using hms)
    rwa [Nat.sub_eq_zero_of_le hfit, Nat.min_zero, List.drop_zero] at hvalues
  · intro hnone
    rw [hnil.mp hnone]
    rfl

/-! A command that invokes an unrecorded one, which invokes a recorded one -/

def countingNode (c : CmdId) (canBeMemento : Bool) : NodeCmd ℤ (Memento ℤ) :=
  ⟨c, canBeMemento, counter.saveStateImpl, fun _ m => return m, fun _ m => return m⟩

def nestedTree : CmdTree ℤ (Memento ℤ) :=
  ⟨countingNode 5 true,
    .invoke (modify (· + 1)) (countingNode 6 false)
      (.invoke (return ()) (countingNode 7 true) (.done (modify (· + 1))) (.done (modify (· + 1))))
      (.done (return ()))⟩

/-- With one of two mementos undone, the inner command's is recorded in its place. -/
theorem nested_records_counter :
    ∃ w v, Machine.run (step .standard counterHeap) (.start 0) [.invoke 2, .invoke 3, .undo 2] =
        .ok w ∧ invoke 5 nestedTree.toCmd w = .ok (.ok (), v) ∧
      v.mgr._savedStates.values =
        [.ofState (some 2) 1, .ofState (some 7) 4, .ofState (some 5) 5] := by
  obtain ⟨w, hw⟩ : ∃ w, Machine.run (step .standard counterHeap) (.start 0)
      [.invoke 2, .invoke 3, .undo 2] = .ok w := ⟨_, rfl⟩
  have hp : w.mgr.position = .ok 1 := by cases hw; rfl
  have happ : w.app = 2 := by cases hw; rfl
  have he : nestedTree.eval w.app =
      (.ok [(7, .ofState (some 7) 4), (5, .ofState (some 5) 5)], 5) := by rw [happ]; rfl
  have hlimit : 1 + 2 ≤ w.mgr.maxSize := by cases hw; decide
  have hvalues : w.mgr._savedStates.values.take 1 = [.ofState (some 2) 1] := by cases hw; rfl
  obtain ⟨v, hv, -, -, hrec, -⟩ := nested_records_postorder ⟨_, hw⟩ hp he
    (Or.inr hlimit)
  refine ⟨w, v, hw, hv, ?_⟩
  rw [(hrec (by decide)).1, hvalues]
  rfl

end UndoCxx
