import UndoCxx.Effect
import UndoCxx.Run

/-!
The composite command, which groups commands as one: the order its undo takes them
in, and the states that it saves when all of them have been executed.
-/
namespace UndoCxx

open Cxx

variable {A σ ι : Type} {cs : List ι}

/-! Steps taken one after the other, from either end of a list -/

/-- Take the steps front to back. -/
def forward (f : ι → A → A) (cs : List ι) (a : A) : A := cs.foldl (fun x c => f c x) a

/-- Take the steps back to front. -/
def backward (f : ι → A → A) (cs : List ι) (a : A) : A := cs.foldr f a

/-! `composite_cmd_t` -/

/-- Code that may be undefined and changes nothing. -/
def M.read {μ α : Type} (x : Except UB α) : M A μ α := fun w => x.map fun v => (.ok v, w)

/-- What the lambda of `undo_impl` does with a pair of the memento. -/
def undoChild (heap : CmdId → Impl A (Memento σ)) : Option CmdId × σ → M A (Memento σ) Unit
  | (none, _) => M.read (.error .nullPointer)
  | (some c, s) => do
    let _ ← ((heap c).undoImpl c (.ofState (some c) s)).lift

def redoChild (heap : CmdId → Impl A (Memento σ)) : Option CmdId × σ → M A (Memento σ) Unit
  | (none, _) => M.read (.error .nullPointer)
  | (some c, s) => do
    let _ ← ((heap c).redoImpl c (.ofState (some c) s)).lift

/-- `emplace_back` of a child with the state that it saves. -/
def saveChild (heap : CmdId → Impl A (Memento σ)) (sender : CmdId) (r : Memento σ) (c : CmdId) :
    M A (Memento σ) (Memento σ) := do
  let m ← ((heap c).saveStateImpl sender).lift
  let s ← M.read m.state
  return r.emplaceBack (some c) s

/-- `composite_cmd_t`, with `commands` its `_commands` and `self` its `this`. -/
def compositeCmd [Inhabited σ] (heap : CmdId → Impl A (Memento σ)) (self : CmdId)
    (commands : List CmdId) : Cmd A (Memento σ) where
  canBeMemento := true
  doExecute _ := commands.forM fun c => ((heap c).doExecute c).lift
  saveStateImpl sender := commands.foldlM (saveChild heap sender) (.ofState (some self) default)
  undoImpl sender memento := do
    if (← M.read memento.command) = some self then
      let children ← M.read memento.forEachChildren
      children.forM (undoChild heap)
    else
      -- a plain memento is handed to every child
      commands.forM fun c => do
        let _ ← (heap c).toCmd.undo sender memento
    return memento
  redoImpl sender memento := do
    if (← M.read memento.command) = some self then
      let children ← M.read memento.forEachChildren
      children.forM (redoChild heap)
    else
      commands.forM fun c => do
        let _ ← (heap c).toCmd.redo sender memento
    return memento

/-- What `do_execute` does to the application. -/
def Impl.exec {μ : Type} (i : Impl A μ) (c : CmdId) (a : A) : A := (i.doExecute c a).2

/-- Asked to save its state in `b`, the command saves `s` and leaves `b` alone. -/
def Impl.Saves (i : Impl A (Memento σ)) (sender : CmdId) (b : A) (s : σ) : Prop :=
  ∃ m, i.saveStateImpl sender b = (.ok m, b) ∧ m.state = .ok s

/-- Given `s`, the undo takes back an execute in `x`. -/
def Impl.TakesBack (i : Impl A (Memento σ)) (c : CmdId) (s : σ) (x : A) : Prop :=
  ∃ m, i.undoImpl c (.ofState (some c) s) (i.exec c x) = (.ok m, x)

/-- Given `s`, the redo does in `x` what an execute does. -/
def Impl.Repeats (i : Impl A (Memento σ)) (c : CmdId) (s : σ) (x : A) : Prop :=
  ∃ m, i.redoImpl c (.ofState (some c) s) x = (.ok m, i.exec c x)

/-- A child whose undo inverts its execute, given the state it saves right after that, and whose
redo repeats it. -/
structure LawfulChild (i : Impl A (Memento σ)) (sender c : CmdId) : Prop where
  executes : ∀ x, i.doExecute c x = (.ok (), i.exec c x)
  saves : ∀ b, ∃ s, i.Saves sender b s
  undoes : ∀ x s, i.Saves sender (i.exec c x) s → i.TakesBack c s x
  redoes : ∀ x s, i.Saves sender (i.exec c x) s → i.Repeats c s x

/-- The group's own steps, one for each child. -/
abbrev childExec (heap : CmdId → Impl A (Memento σ)) (c : CmdId) : A → A := (heap c).exec c

/-- The order in which the children are executed from `a` does not matter. -/
def SameBackward (heap : CmdId → Impl A (Memento σ)) (commands : List CmdId) (a : A) : Prop :=
  forward (childExec heap) commands a = backward (childExec heap) commands a

/-- The order does not matter from `a`, and each child's undo and redo work in its place in the
group also with the state that it saves after the whole of it. -/
structure Restorable (heap : CmdId → Impl A (Memento σ)) (sender : CmdId) (commands : List CmdId)
    (a : A) : Prop where
  order : SameBackward heap commands a
  undoes : ∀ pre c post s, commands = pre ++ c :: post →
    (heap c).Saves sender (forward (childExec heap) commands a) s →
      (heap c).TakesBack c s (backward (childExec heap) post a)
  redoes : ∀ pre c post s, commands = pre ++ c :: post →
    (heap c).Saves sender (forward (childExec heap) commands a) s →
      (heap c).Repeats c s (forward (childExec heap) pre a)

/-- An undo that returns has taken back an execute, and a redo that returns has repeated it. -/
structure Impl.Strict (i : Impl A (Memento σ)) (c : CmdId) : Prop where
  undo : ∀ s m x y, i.undoImpl c (.ofState (some c) s) y = (.ok m, x) → i.exec c x = y
  redo : ∀ s m x y, i.redoImpl c (.ofState (some c) s) x = (.ok m, y) → y = i.exec c x

/-- Same executes and saved states, and an undo and redo that work wherever those of `heap` do. -/
structure Emulates (heap heap' : CmdId → Impl A (Memento σ)) : Prop where
  execute : ∀ c, (heap' c).doExecute = (heap c).doExecute
  save : ∀ c, (heap' c).saveStateImpl = (heap c).saveStateImpl
  undo : ∀ c s x, (heap c).TakesBack c s x → (heap' c).TakesBack c s x
  redo : ∀ c s x, (heap c).Repeats c s x → (heap' c).Repeats c s x

/-- Execute the command, save its state, undo it and redo it with what was saved. -/
def GroupRestores {μ : Type} (cmd : Cmd A μ) (self : CmdId) (w : World A μ) : Prop :=
  ∃ u m v m' x m'' y, cmd.doExecute self w = .ok (.ok (), u) ∧
    cmd.saveStateImpl self u = .ok (.ok m, v) ∧
    cmd.undoImpl self m v = .ok (.ok m', x) ∧ x.app = w.app ∧
    cmd.redoImpl self m' x = .ok (.ok m'', y) ∧ y.app = u.app

variable {μ α β : Type} {heap : CmdId → Impl A (Memento σ)} {self c : CmdId}
  {commands : List CmdId} {w u : World A (Memento σ)} {m : Memento σ} {s : CmdId → σ}

/-- A sequence that returns has returned from both of its parts. -/
theorem M.bind_eq_ok {x : M A μ α} {f : α → M A μ β} {w u : World A μ} {v : β}
    (h : (x >>= f) w = .ok (.ok v, u)) :
    ∃ a w', x w = .ok (.ok a, w') ∧ f a w' = .ok (.ok v, u) := by
  rw [Effect.bind_apply] at h
  rcases hx : x w with d | ⟨e | a, w'⟩
  · rw [hx] at h
    cases h
  · rw [hx] at h
    cases h
  · rw [hx] at h
    exact ⟨a, w', rfl, h⟩

theorem forM_cons_ok {f : ι → M A μ Unit} {c : ι} {w u : World A μ} (h : f c w = .ok (.ok (), u)) :
    (c :: cs).forM f w = cs.forM f u :=
  M.bind_ok h

/-- Steps that only change the application, one after the other. -/
theorem forM_forward {f : ι → M A μ Unit} {g : ι → A → A} {w : World A μ}
    (hf : ∀ c ∈ cs, ∀ w : World A μ, f c w = .ok (.ok (), { w with app := g c w.app })) :
    cs.forM f w = .ok (.ok (), { w with app := forward g cs w.app }) := by
  induction cs generalizing w with
  | nil => rfl
  | cons c cs ih =>
    rw [forM_cons_ok (hf c List.mem_cons_self w)]
    exact ih fun d hd => hf d (List.mem_cons_of_mem c hd)

theorem undoChild_apply {t : σ} {x : A} (h : (heap c).TakesBack c t x)
    (hw : w.app = childExec heap c x) :
    undoChild heap (some c, t) w = .ok (.ok (), { w with app := x }) := by
  obtain ⟨m, hm⟩ := h
  rw [childExec] at hw
  rw [← hw] at hm
  exact (M.bind_ok (App.lift_apply hm)).trans rfl

theorem redoChild_apply {t : σ} (h : (heap c).Repeats c t w.app) :
    redoChild heap (some c, t) w = .ok (.ok (), { w with app := childExec heap c w.app }) := by
  obtain ⟨m, hm⟩ := h
  exact (M.bind_ok (App.lift_apply hm)).trans rfl

/-- The walk returns from a child only where the undo of the child does. -/
theorem undoChild_eq_ok {t : σ} (h : undoChild heap (some c, t) w = .ok (.ok (), u)) :
    ∃ m, (heap c).undoImpl c (.ofState (some c) t) w.app = (.ok m, u.app) := by
  obtain ⟨m, v, hm, hv⟩ := M.bind_eq_ok h
  cases hv
  rcases hr : (heap c).undoImpl c (.ofState (some c) t) w.app with ⟨r, b⟩
  cases (App.lift_apply hr).symm.trans hm
  exact ⟨m, rfl⟩

theorem redoChild_eq_ok {t : σ} (h : redoChild heap (some c, t) w = .ok (.ok (), u)) :
    ∃ m, (heap c).redoImpl c (.ofState (some c) t) w.app = (.ok m, u.app) := by
  obtain ⟨m, v, hm, hv⟩ := M.bind_eq_ok h
  cases hv
  rcases hr : (heap c).redoImpl c (.ofState (some c) t) w.app with ⟨r, b⟩
  cases (App.lift_apply hr).symm.trans hm
  exact ⟨m, rfl⟩

/-- The pairs that the composite adds to its memento. -/
def childPairs (s : CmdId → σ) (commands : List CmdId) : List (Option CmdId × σ) :=
  commands.map fun c => (some c, s c)

/-- Its own memento makes a composite walk the children of the memento. -/
theorem walk_own_memento {d : σ} {children : List (Option CmdId × σ)}
    {f : Option CmdId × σ → M A (Memento σ) Unit}
    {others : M A (Memento σ) (Memento σ)} :
    (do
      if (← M.read (Memento.command ⟨(some self, d) :: children⟩)) = some self then
        let pairs ← M.read (Memento.forEachChildren ⟨(some self, d) :: children⟩)
        pairs.forM f
        return Memento.mk ((some self, d) :: children)
      else others) = (do
        children.forM f
        return Memento.mk ((some self, d) :: children)) := by
  funext w
  have hcommand : M.read (A := A) (μ := Memento σ)
      (Memento.command ⟨(some self, d) :: children⟩) w = .ok (.ok (some self), w) := rfl
  have hchildren : M.read (A := A) (μ := Memento σ)
      (Memento.forEachChildren ⟨(some self, d) :: children⟩) w = .ok (.ok children, w) := rfl
  refine (M.bind_ok hcommand).trans ?_
  rw [if_pos rfl]
  exact M.bind_ok hchildren

theorem walked_eq_ok {x : M A μ Unit} {m m' : μ} {w u : World A μ} :
    (do x; return m' : M A μ μ) w = .ok (.ok m, u) ↔ x w = .ok (.ok (), u) ∧ m = m' := by
  constructor
  · intro h
    obtain ⟨_, v, hx, hv⟩ := M.bind_eq_ok h
    cases hv
    exact ⟨hx, rfl⟩
  · rintro ⟨hx, rfl⟩
    exact M.bind_ok hx

/-- The children are undone front to back, so that each undo must take back an execute that came
after those of the children behind it. -/
theorem undo_children (y : A)
    (h : ∀ pre c post, commands = pre ++ c :: post →
      (heap c).TakesBack c (s c) (backward (childExec heap) post y))
    (hw : w.app = backward (childExec heap) commands y) :
    (childPairs s commands).forM (undoChild heap) w = .ok (.ok (), { w with app := y }) := by
  induction commands generalizing w with
  | nil =>
    cases hw
    rfl
  | cons c commands ih =>
    have hc := undoChild_apply (h [] c commands rfl) hw
    rw [childPairs, List.map_cons, forM_cons_ok hc]
    exact ih (fun pre d post hd => h (c :: pre) d post (congrArg (c :: ·) hd)) rfl

/-- The children are redone in the order of their execute, each in the state that those in front of
it have led to. -/
theorem redo_children
    (h : ∀ pre c post, commands = pre ++ c :: post →
      (heap c).Repeats c (s c) (forward (childExec heap) pre w.app)) :
    (childPairs s commands).forM (redoChild heap) w =
      .ok (.ok (), { w with app := forward (childExec heap) commands w.app }) := by
  induction commands generalizing w with
  | nil => rfl
  | cons c commands ih =>
    have hc := redoChild_apply (h [] c commands rfl)
    rw [childPairs, List.map_cons, forM_cons_ok hc]
    exact ih fun pre d post hd => h (c :: pre) d post (congrArg (c :: ·) hd)

/-- Undos that all return, and are strict, have taken the executes back from front to back. -/
theorem undone_children (hstrict : ∀ c ∈ commands, (heap c).Strict c)
    (h : (childPairs s commands).forM (undoChild heap) w = .ok (.ok (), u)) :
    w.app = backward (childExec heap) commands u.app ∧
      ∀ pre c post, commands = pre ++ c :: post →
        (heap c).TakesBack c (s c) (backward (childExec heap) post u.app) := by
  induction commands generalizing w with
  | nil =>
    cases h
    refine ⟨rfl, ?_⟩
    intro pre c post hc
    simp at hc
  | cons c commands ih =>
    obtain ⟨_, v, hc, hrest⟩ := M.bind_eq_ok h
    obtain ⟨m, hm⟩ := undoChild_eq_ok hc
    obtain ⟨hv, hsplits⟩ := ih (fun d hd => hstrict d (List.mem_cons_of_mem c hd)) hrest
    have hexec : (heap c).exec c v.app = w.app :=
      (hstrict c List.mem_cons_self).undo _ _ _ _ hm
    have hw : w.app = childExec heap c (backward (childExec heap) commands u.app) := by
      rw [← hv]
      exact hexec.symm
    refine ⟨hw, ?_⟩
    intro pre d post hd
    cases pre with
    | nil =>
      cases hd
      rw [← hv, Impl.TakesBack, hexec]
      exact ⟨m, hm⟩
    | cons e pre =>
      cases hd
      exact hsplits pre d post rfl

/-- Redos that all return, and are strict, have each repeated an execute. -/
theorem redone_children (hstrict : ∀ c ∈ commands, (heap c).Strict c)
    (h : (childPairs s commands).forM (redoChild heap) w = .ok (.ok (), u)) :
    ∀ pre c post, commands = pre ++ c :: post →
      (heap c).Repeats c (s c) (forward (childExec heap) pre w.app) := by
  induction commands generalizing w with
  | nil =>
    intro pre c post hc
    simp at hc
  | cons c commands ih =>
    obtain ⟨_, v, hc, hrest⟩ := M.bind_eq_ok h
    obtain ⟨m, hm⟩ := redoChild_eq_ok hc
    have hsplits := ih (fun d hd => hstrict d (List.mem_cons_of_mem c hd)) hrest
    have hv : v.app = (heap c).exec c w.app := (hstrict c List.mem_cons_self).redo _ _ _ _ hm
    intro pre d post hd
    cases pre with
    | nil =>
      cases hd
      rw [hv] at hm
      exact ⟨m, hm⟩
    | cons e pre =>
      cases hd
      have hd := hsplits pre d post rfl
      rw [hv] at hd
      exact hd

/-- A child is saved in the state that all of the group has led to. -/
theorem saveChild_apply {c : CmdId} {t : σ} (h : (heap c).Saves self w.app t) :
    saveChild heap self m c w = .ok (.ok (m.emplaceBack (some c) t), w) := by
  obtain ⟨n, hn, ht⟩ := h
  have hread : M.read (A := A) (μ := Memento σ) n.state w = .ok (.ok t, w) := by
    rw [M.read, ht]
    rfl
  rw [saveChild, M.bind_ok (App.lift_apply hn)]
  exact M.bind_ok hread

theorem save_children (h : ∀ c ∈ commands, (heap c).Saves self w.app (s c)) :
    commands.foldlM (saveChild heap self) m w =
      .ok (.ok ⟨m.pairs ++ childPairs s commands⟩, w) := by
  induction commands generalizing m with
  | nil =>
    rw [childPairs, List.map_nil, List.append_nil]
    rfl
  | cons c commands ih =>
    rw [List.foldlM_cons, M.bind_ok (saveChild_apply (h c List.mem_cons_self)),
      ih fun d hd => h d (List.mem_cons_of_mem c hd), childPairs, childPairs, List.map_cons,
      Memento.emplaceBack, List.append_assoc]
    rfl

/-! Children that check what their undo and redo have done -/

section Checked

/-- Throw if what has been done is not as `p` says. -/
def ensure (p : A → A → Prop) [DecidableRel p] (x : App A α) : App A α := fun a =>
  match x a with
  | (.ok v, b) => if p a b then (.ok v, b) else (.error (.user 0), b)
  | (.error e, b) => (.error e, b)

/-- The check passes what it approves of unchanged. -/
theorem ensure_eq_ok {p : A → A → Prop} [DecidableRel p] {x : App A α} {a b : A} {v : α} :
    ensure p x a = (.ok v, b) ↔ x a = (.ok v, b) ∧ p a b := by
  rw [ensure]
  rcases x a with ⟨e | v', b'⟩
  · refine iff_of_false nofun ?_
    rintro ⟨h, -⟩
    cases h
  · by_cases hp : p a b'
    · simp only [if_pos hp]
      constructor
      · intro h
        cases h
        exact ⟨rfl, hp⟩
      · exact And.left
    · simp only [if_neg hp]
      constructor
      · intro h
        cases h
      · rintro ⟨h, hp'⟩
        cases h
        exact absurd hp' hp

variable [DecidableEq A]

/-- The commands, with an undo and redo that throw where they have not done what they are for. -/
def checked (heap : CmdId → Impl A (Memento σ)) : CmdId → Impl A (Memento σ) := fun c =>
  { heap c with
    undoImpl := fun e m => ensure (fun y x => (heap c).exec c x = y) ((heap c).undoImpl e m)
    redoImpl := fun e m => ensure (fun x y => y = (heap c).exec c x) ((heap c).redoImpl e m) }

theorem checked_undo {e : CmdId} {m' : Memento σ} {x y : A} :
    (checked heap c).undoImpl e m y = (.ok m', x) ↔
      (heap c).undoImpl e m y = (.ok m', x) ∧ (heap c).exec c x = y :=
  ensure_eq_ok (p := fun y x => (heap c).exec c x = y)

theorem checked_redo {e : CmdId} {m' : Memento σ} {x y : A} :
    (checked heap c).redoImpl e m x = (.ok m', y) ↔
      (heap c).redoImpl e m x = (.ok m', y) ∧ y = (heap c).exec c x :=
  ensure_eq_ok (p := fun x y => y = (heap c).exec c x)

/-- An undo that takes its execute back passes the check. -/
theorem checked_takesBack {t : σ} {x : A} :
    (checked heap c).TakesBack c t x ↔ (heap c).TakesBack c t x :=
  exists_congr fun _ => checked_undo.trans (and_iff_left rfl)

theorem checked_repeats {t : σ} {x : A} :
    (checked heap c).Repeats c t x ↔ (heap c).Repeats c t x :=
  exists_congr fun _ => checked_redo.trans (and_iff_left rfl)

theorem checked_strict (heap : CmdId → Impl A (Memento σ)) (c : CmdId) :
    (checked heap c).Strict c where
  undo _ _ _ _ h := (checked_undo.mp h).2
  redo _ _ _ _ h := (checked_redo.mp h).2

/-- The check refuses nothing that the undo and the redo are for. -/
theorem emulates_checked (heap : CmdId → Impl A (Memento σ)) : Emulates heap (checked heap) where
  execute _ := rfl
  save _ := rfl
  undo _ _ _ := checked_takesBack.mpr
  redo _ _ _ := checked_repeats.mpr

end Checked

theorem Emulates.childExec_eq {heap' : CmdId → Impl A (Memento σ)} (h : Emulates heap heap') :
    childExec heap' = childExec heap := by
  funext d a
  rw [childExec, childExec, Impl.exec, Impl.exec, h.execute d]

/-- What emulates the commands saves what they save. -/
theorem Emulates.saves {heap' : CmdId → Impl A (Memento σ)} (h : Emulates heap heap') {b : A}
    {t : σ} : (heap' c).Saves self b t ↔ (heap c).Saves self b t := by
  rw [Impl.Saves, Impl.Saves, h.save c]

/-- What emulates lawful children is lawful. -/
theorem LawfulChild.emulate {heap' : CmdId → Impl A (Memento σ)} (hl : LawfulChild (heap c) self c)
    (h : Emulates heap heap') : LawfulChild (heap' c) self c := by
  have hexec : (heap' c).exec c = (heap c).exec c := congrFun h.childExec_eq c
  constructor
  · intro x
    rw [h.execute c, hexec]
    exact hl.executes x
  · intro b
    obtain ⟨t, ht⟩ := hl.saves b
    exact ⟨t, h.saves.mpr ht⟩
  · intro x t ht
    rw [hexec] at ht
    exact h.undo c t x (hl.undoes x t (h.saves.mp ht))
  · intro x t ht
    rw [hexec] at ht
    exact h.redo c t x (hl.redoes x t (h.saves.mp ht))

/-- The condition asks only for what an emulation keeps. -/
theorem Restorable.emulate {heap' : CmdId → Impl A (Memento σ)} {a : A}
    (hr : Restorable heap self commands a) (h : Emulates heap heap') :
    Restorable heap' self commands a := by
  have hexec := h.childExec_eq
  refine ⟨?_, ?_, ?_⟩
  · rw [SameBackward, hexec]
    exact hr.order
  · intro pre c post t hc ht
    rw [hexec, h.saves] at ht
    rw [hexec]
    exact h.undo c t _ (hr.undoes pre c post t hc ht)
  · intro pre c post t hc ht
    rw [hexec, h.saves] at ht
    rw [hexec]
    exact h.redo c t _ (hr.redoes pre c post t hc ht)

theorem restorable_of_checked [DecidableEq A] {a : A}
    (hr : Restorable (checked heap) self commands a) : Restorable heap self commands a where
  order := hr.order
  undoes pre c post t hc ht := checked_takesBack.mp (hr.undoes pre c post t hc ht)
  redoes pre c post t hc ht := checked_repeats.mp (hr.redoes pre c post t hc ht)

/-- Where no child looks at the state it has saved, only the order is left to matter. -/
theorem restorable_of_order {a : A}
    (h : ∀ c ∈ commands, ∀ t x, (heap c).TakesBack c t x ∧ (heap c).Repeats c t x)
    (ho : SameBackward heap commands a) : Restorable heap self commands a := by
  constructor
  · exact ho
  · intro pre c post t hc _
    exact (h c (List.mem_iff_append.mpr ⟨pre, post, hc⟩) t _).1
  · intro pre c post t hc _
    exact (h c (List.mem_iff_append.mpr ⟨pre, post, hc⟩) t _).2

/-- A command saves one state. -/
theorem Impl.Saves.unique {i : Impl A (Memento σ)} {sender : CmdId} {b : A} {t t' : σ}
    (h : i.Saves sender b t) (h' : i.Saves sender b t') : t = t' := by
  obtain ⟨m, hm, ht⟩ := h
  obtain ⟨m', hm', ht'⟩ := h'
  cases hm.symm.trans hm'
  exact Except.ok.inj (ht.symm.trans ht')

variable [Inhabited σ]

/-- The group executes its children front to back. -/
theorem execute_composite (h : ∀ c ∈ commands, LawfulChild (heap c) self c) :
    (compositeCmd heap self commands).doExecute self w =
      .ok (.ok (), { w with app := forward (childExec heap) commands w.app }) := by
  apply forM_forward
  intro c hc w
  exact App.lift_apply ((h c hc).executes w.app)

/-- The memento pairs every child with a state saved after the group. -/
theorem save_composite (h : ∀ c ∈ commands, (heap c).Saves self w.app (s c)) :
    (compositeCmd heap self commands).saveStateImpl self w =
      .ok (.ok ⟨(some self, default) :: childPairs s commands⟩, w) :=
  save_children h

/-- Its own memento takes the undo of a group through its children, and comes back as it was. -/
theorem undo_composite {d : σ} {children : List (Option CmdId × σ)} :
    (compositeCmd heap self commands).undoImpl self ⟨(some self, d) :: children⟩ w =
        .ok (.ok m, u) ↔
      children.forM (undoChild heap) w = .ok (.ok (), u) ∧ m = ⟨(some self, d) :: children⟩ := by
  have hwalk : (compositeCmd heap self commands).undoImpl self ⟨(some self, d) :: children⟩ = _ :=
    walk_own_memento
  rw [hwalk]
  exact walked_eq_ok

theorem redo_composite {d : σ} {children : List (Option CmdId × σ)} :
    (compositeCmd heap self commands).redoImpl self ⟨(some self, d) :: children⟩ w =
        .ok (.ok m, u) ↔
      children.forM (redoChild heap) w = .ok (.ok (), u) ∧ m = ⟨(some self, d) :: children⟩ := by
  have hwalk : (compositeCmd heap self commands).redoImpl self ⟨(some self, d) :: children⟩ = _ :=
    walk_own_memento
  rw [hwalk]
  exact walked_eq_ok

/-- The undo and then the redo of the group walk the children with the states that were saved after
its execute. -/
theorem groupRestores_eq (h : ∀ c ∈ commands, LawfulChild (heap c) self c)
    (hs : ∀ c ∈ commands,
      (heap c).Saves self (forward (childExec heap) commands w.app) (s c)) :
    GroupRestores (compositeCmd heap self commands) self w ↔
      ∃ x y, (childPairs s commands).forM (undoChild heap)
          { w with app := forward (childExec heap) commands w.app } = .ok (.ok (), x) ∧
        x.app = w.app ∧ (childPairs s commands).forM (redoChild heap) x = .ok (.ok (), y) ∧
        y.app = forward (childExec heap) commands w.app := by
  have hsave : (compositeCmd heap self commands).saveStateImpl self
      { w with app := forward (childExec heap) commands w.app } = _ := save_composite hs
  constructor
  · rintro ⟨u, m, v, m', x, m'', y, hu, hm, hx, hxa, hy, hya⟩
    cases (execute_composite h).symm.trans hu
    cases hsave.symm.trans hm
    obtain ⟨hundo, rfl⟩ := undo_composite.mp hx
    obtain ⟨hredo, -⟩ := redo_composite.mp hy
    exact ⟨x, y, hundo, hxa, hredo, hya⟩
  · rintro ⟨x, y, hx, hxa, hy, hya⟩
    exact ⟨_, _, _, _, _, _, _, execute_composite h, hsave, undo_composite.mpr ⟨hx, rfl⟩, hxa,
      redo_composite.mpr ⟨hy, rfl⟩, hya⟩

/-- The states that lawful children save after the group. -/
theorem exists_saved (h : ∀ c ∈ commands, LawfulChild (heap c) self c) (b : A) :
    ∃ s : CmdId → σ, ∀ c ∈ commands, (heap c).Saves self b (s c) := by
  have hsaves : ∀ c, ∃ t, c ∈ commands → (heap c).Saves self b t := by
    intro c
    by_cases hc : c ∈ commands
    · obtain ⟨t, ht⟩ := (h c hc).saves b
      exact ⟨t, fun _ => ht⟩
    · exact ⟨default, fun hc' => absurd hc' hc⟩
  choose s hs using hsaves
  exact ⟨s, hs⟩

/-- The condition is enough, whatever else the undos and redos do. -/
theorem Restorable.groupRestores (hr : Restorable heap self commands w.app)
    (h : ∀ c ∈ commands, LawfulChild (heap c) self c) :
    GroupRestores (compositeCmd heap self commands) self w := by
  obtain ⟨s, hs⟩ := exists_saved h (forward (childExec heap) commands w.app)
  have hundo := undo_children (w := { w with app := forward (childExec heap) commands w.app }) w.app
    (fun pre c post hc =>
      hr.undoes pre c post _ hc (hs c (List.mem_iff_append.mpr ⟨pre, post, hc⟩))) hr.order
  have hredo := redo_children (w := w)
    fun pre c post hc => hr.redoes pre c post _ hc (hs c (List.mem_iff_append.mpr ⟨pre, post, hc⟩))
  exact (groupRestores_eq h hs).mpr ⟨_, _, hundo, rfl, hredo, rfl⟩

/-- Strict children that are restored have each been, in their place. -/
theorem restorable_of_strict (hr : GroupRestores (compositeCmd heap self commands) self w)
    (h : ∀ c ∈ commands, LawfulChild (heap c) self c)
    (hstrict : ∀ c ∈ commands, (heap c).Strict c) :
    Restorable heap self commands w.app := by
  obtain ⟨s, hs⟩ := exists_saved h (forward (childExec heap) commands w.app)
  obtain ⟨x, y, hx, hxa, hy, -⟩ := (groupRestores_eq h hs).mp hr
  have hsame : ∀ {pre c post t}, commands = pre ++ c :: post →
      (heap c).Saves self (forward (childExec heap) commands w.app) t → s c = t := by
    intro pre c post t hc ht
    exact (hs c (List.mem_iff_append.mpr ⟨pre, post, hc⟩)).unique ht
  obtain ⟨horder, hundo⟩ := undone_children hstrict hx
  have hredo := redone_children hstrict hy
  rw [hxa] at horder hundo hredo
  constructor
  · exact horder
  · intro pre c post t hc ht
    rw [← hsame hc ht]
    exact hundo pre c post hc
  · intro pre c post t hc ht
    rw [← hsame hc ht]
    exact hredo pre c post hc

/-- A composite of lawful children is restored, whatever else their undo and redo do, exactly when
the order does not matter and the states saved after the group serve each child in its place; and
if what returns has done what it is for, exactly then for the given children as well. -/
theorem composite_restores_iff (h : ∀ c ∈ commands, LawfulChild (heap c) self c) :
    (Restorable heap self commands w.app ↔
        ∀ heap', Emulates heap heap' → GroupRestores (compositeCmd heap' self commands) self w) ∧
      ((∀ c ∈ commands, (heap c).Strict c) →
        (GroupRestores (compositeCmd heap self commands) self w ↔
          Restorable heap self commands w.app)) := by
  classical
  have hlawful : ∀ heap', Emulates heap heap' → ∀ c ∈ commands, LawfulChild (heap' c) self c :=
    fun _ he c hc => (h c hc).emulate he
  refine ⟨⟨?_, ?_⟩, fun hstrict => ⟨?_, fun hr => hr.groupRestores h⟩⟩
  · intro hr heap' he
    exact (hr.emulate he).groupRestores (hlawful heap' he)
  · intro hall
    have he := emulates_checked heap
    have hr := hall (checked heap) he
    exact restorable_of_checked
      (restorable_of_strict hr (hlawful _ he) fun c _ => checked_strict heap c)
  · intro hr
    exact restorable_of_strict hr h hstrict

/-! Commands that count, change the sign, or count and go back by the count that they have saved -/

def negate : Impl ℤ (Memento ℤ) where
  doExecute _ := modify (-·)
  saveStateImpl c := return .ofState (some c) 0
  undoImpl _ m := do modify (-·); return m
  redoImpl _ m := do modify (-·); return m

def snapshot : Impl ℤ (Memento ℤ) where
  doExecute _ := modify (· + 1)
  saveStateImpl c := return .ofState (some c) (← get)
  undoImpl _ m := do
    match m.state with
    | .ok count => set (count - 1)
    | .error _ => return m
    return m
  redoImpl _ m := do
    match m.state with
    | .ok count => set count
    | .error _ => return m
    return m

def groupHeap : CmdId → Impl ℤ (Memento ℤ)
  | 1 => negate
  | 3 => snapshot
  | _ => counter

theorem counter_child (self c : CmdId) : LawfulChild counter self c where
  executes _ := rfl
  saves _ := ⟨_, _, rfl, rfl⟩
  undoes x _ _ := ⟨_, Prod.ext rfl (Int.add_sub_cancel x 1)⟩
  redoes _ _ _ := ⟨_, rfl⟩

theorem negate_child (self c : CmdId) : LawfulChild negate self c where
  executes _ := rfl
  saves _ := ⟨_, _, rfl, rfl⟩
  undoes x _ _ := ⟨_, Prod.ext rfl (Int.neg_neg x)⟩
  redoes _ _ _ := ⟨_, rfl⟩

theorem snapshot_child (self c : CmdId) : LawfulChild snapshot self c where
  executes _ := rfl
  saves _ := ⟨_, _, rfl, rfl⟩
  undoes x s hs := by
    obtain ⟨m, hm, hs⟩ := hs
    cases hm
    cases hs
    exact ⟨_, Prod.ext rfl (Int.add_sub_cancel x 1)⟩
  redoes x s hs := by
    obtain ⟨m, hm, hs⟩ := hs
    cases hm
    cases hs
    exact ⟨_, rfl⟩

/-- Counting twice is taken back. -/
theorem composite_restores_twice :
    GroupRestores (compositeCmd groupHeap 0 [2, 2]) 0 (World.start 0) := by
  have hlawful : ∀ c ∈ [2, 2], LawfulChild (groupHeap c) 0 c := by
    intro c hc
    obtain rfl : c = 2 := by simpa using hc
    exact counter_child 0 2
  have hrest : Restorable groupHeap 0 [2, 2] 0 := by
    apply restorable_of_order
    · intro c hc t x
      obtain rfl : c = 2 := by simpa using hc
      exact ⟨⟨_, Prod.ext rfl (Int.add_sub_cancel x 1)⟩, ⟨_, rfl⟩⟩
    · rfl
  have hrestores := (composite_restores_iff (w := World.start 0) hlawful).1.mp hrest
  exact hrestores groupHeap ⟨fun _ => rfl, fun _ => rfl, fun _ _ _ => id, fun _ _ _ => id⟩

/-- Counting and then changing the sign is undone in the same order, and going back twice to the
count after the group goes back once: neither restores anything. -/
theorem composite_not_restored :
    (∀ c, LawfulChild (groupHeap c) 0 c) ∧
      ¬ GroupRestores (compositeCmd groupHeap 0 [2, 1]) 0 (World.start 0) ∧
      ¬ GroupRestores (compositeCmd groupHeap 0 [3, 3]) 0 (World.start 0) := by
  refine ⟨?_, ?_, ?_⟩
  · intro c
    rw [groupHeap.eq_def]
    split
    · exact negate_child 0 _
    · exact snapshot_child 0 _
    · exact counter_child 0 _
  all_goals
    rintro ⟨u, m, v, m', x, m'', y, hu, hm, hx, ha, -, -⟩
    cases hu
    cases hm
    cases hx
    revert ha
    decide

end UndoCxx
