import UndoCxx.Manager
import UndoCxx.TwoStack

/-!
The manager read as two stacks of nodes. `History` is a manager state whose
cursor is live by construction; each operation of the manager acts on it as the
operation of the same name below.
-/
namespace UndoCxx

open Cxx

/-- `undo(CmdSP &)` and `redo(CmdSP &)` -/
def Verbose.single {μ τ : Type} (print : μ → Except UB τ) (sem : Sentinel) (c : CmdId) :
    Direction → UndoableCmdSystem μ → Except UB (UndoableCmdSystem μ × List (Line τ))
  | .back => undo print sem c
  | .forth => redo print sem c

structure History (μ : Type) where
  stack : TwoStack (Node μ)
  /-- The identity of the next node. -/
  serial : ℕ
  limit : ℕ
  nodup : (stack.entries.map Node.id).Nodup
  below : ∀ n ∈ stack.entries, n.id < serial

namespace History

variable {μ τ : Type} {h : History μ} {m : μ} {n : ℕ} {sem : Sentinel} {c : CmdId}
  {print : μ → Except UB τ}

/-- Equal in nodes, in the next identity and in the limit; the rest are proofs. -/
@[ext] theorem ext {h h' : History μ} (hs : h.stack = h'.stack) (hn : h.serial = h'.serial)
    (hl : h.limit = h'.limit) : h = h' := by
  cases h
  cases h'
  cases hs
  cases hn
  cases hl
  rfl

def toList (h : History μ) : StdList μ := ⟨h.stack.entries, h.serial, h.nodup, h.below⟩

def toMgr (h : History μ) : UndoableCmdSystem μ := ⟨h.toList, .toHead h.stack.future, h.limit⟩

/-- `position()` -/
def pos (h : History μ) : ℕ := h.stack.past.length

def size (h : History μ) : ℕ := h.stack.entries.length

/-- Rearrange or drop nodes. -/
def withStacks (h : History μ) (t : TwoStack (Node μ)) (ht : t.entries.Sublist h.stack.entries) :
    History μ where
  stack := t
  serial := h.serial
  limit := h.limit
  nodup := h.nodup.sublist (ht.map _)
  below n hn := h.below n (ht.subset hn)

def fresh : History μ := ⟨.empty, 0, sizeTMax, by simp [TwoStack.entries, TwoStack.empty],
  by simp [TwoStack.entries, TwoStack.empty]⟩

def setLimit (n : ℕ) (h : History μ) : History μ := { h with limit := n }

def undo (h : History μ) : History μ := h.withStacks h.stack.undo (by simp)

def redo (h : History μ) : History μ := h.withStacks h.stack.redo (by simp)

def drop (n : ℕ) (h : History μ) : History μ :=
  h.withStacks (h.stack.erase n) (h.stack.entries_erase_sublist n)

def clear (h : History μ) : History μ := h.withStacks .empty (List.nil_sublist _)

def record (m : μ) (h : History μ) : History μ :=
  have hs := h.stack.entries_record_sublist h.limit ⟨h.serial, m⟩
  { stack := h.stack.record h.limit ⟨h.serial, m⟩
    serial := h.serial + 1
    limit := h.limit
    nodup := (h.toList.nodup_concat m).sublist (hs.map _)
    below := fun n hn => h.toList.below_concat m n (hs.subset hn) }

/-- An eviction needs an entry to evict. -/
def CanRecord (h : History μ) : Prop := 0 < h.limit ∨ h.stack.past ≠ []

/-- Erasing at the cursor steps back over its predecessor first. -/
def CanErase (sem : Sentinel) (h : History μ) : Prop :=
  sem = .cyclic ∨ h.stack.past ≠ [] ∨ h.stack.future = []

instance : Decidable h.CanRecord := inferInstanceAs (Decidable (_ ∨ _))

instance : Decidable (h.CanErase sem) := inferInstanceAs (Decidable (_ ∨ _ ∨ _))

theorem nodes_toMgr (h : History μ) :
    h.toMgr._savedStates.nodes = h.stack.past.reverse ++ h.stack.future := rfl

/-- The cursor is the first node to redo, or `end()` when there is none. -/
theorem position_eq (h : History μ) : h.toMgr._position = .toHead h.stack.future := rfl

@[simp] theorem size_toMgr (h : History μ) : h.toMgr.size = h.size := rfl

@[simp] theorem size_eq (h : History μ) : h.size = h.pos + h.stack.future.length :=
  h.stack.length_entries

/-- The cursor is never beyond `end()`. -/
theorem pos_le_size (h : History μ) : h.pos ≤ h.size := by
  rw [size_eq]
  exact Nat.le_add_right _ _

theorem empty_toMgr (h : History μ) :
    h.toMgr.empty = (h.stack.past.isEmpty && h.stack.future.isEmpty) := by
  rw [UndoableCmdSystem.empty, StdList.empty, nodes_toMgr]
  cases h.stack.past <;> simp

/-- `empty()` looks at the whole list, so that a redo tail alone keeps it from being empty. -/
theorem empty_iff (h : History μ) : h.toMgr.empty = true ↔ h.size = 0 := by
  rw [empty_toMgr, size_eq, pos]
  cases h.stack.past <;> cases h.stack.future <;> simp

/-- `position()` counts the nodes in front of the cursor; it never meets undefined behaviour here.
-/
@[simp] theorem position_toMgr (h : History μ) : h.toMgr.position = .ok h.pos := by
  rw [UndoableCmdSystem.position, position_eq, StdList.distance_begin (nodes_toMgr h),
    List.length_reverse]
  rfl

theorem pos_of_position {p : ℕ} (hp : h.toMgr.position = .ok p) : h.pos = p :=
  Except.ok.inj ((position_toMgr h).symm.trans hp)

theorem locate_toMgr (h : History μ) :
    h.toMgr._savedStates.locate h.toMgr._position = .ok h.pos := by
  rw [position_eq, StdList.locate_toHead (nodes_toMgr h), List.length_reverse]
  rfl

/-- The cursor of a history is never a dangling iterator. -/
theorem live_toMgr (h : History μ) : h.toMgr._savedStates.Live h.toMgr._position :=
  ⟨_, locate_toMgr h⟩

/-- At `begin()` is to have nothing to undo. -/
theorem eq_begin_toMgr (h : History μ) :
    h.toMgr._savedStates.eq h.toMgr._position h.toMgr._savedStates.begin =
      .ok h.stack.past.isEmpty := by
  rw [position_eq, StdList.eq_begin (nodes_toMgr h), List.isEmpty_reverse]

/-- At `end()` is to have nothing to redo. -/
theorem eq_pastEnd_toMgr (h : History μ) :
    h.toMgr._savedStates.eq h.toMgr._position .pastEnd = .ok h.stack.future.isEmpty :=
  StdList.eq_pastEnd (nodes_toMgr h)

/-- The line tells the position and the size; only its text can fail. -/
theorem dbgPrint_toMgr (event : Event) (h : History μ) (m : μ) :
    Verbose.dbgPrint print event h.toMgr (.ok m) =
      (print m).map fun text => ⟨event, h.pos, text, h.size⟩ := by
  rw [Verbose.dbgPrint, position_toMgr, Machine.ok_bind, Machine.ok_bind]
  exact Machine.bind_ok_eq_map _ _

/-- `can_undo()` asks whether the cursor is past the first node. -/
theorem canUndo_toMgr (h : History μ) : h.toMgr.canUndo = .ok (!h.stack.past.isEmpty) := by
  rw [UndoableCmdSystem.canUndo, UndoableCmdSystem.canRestore, eq_begin_toMgr, empty_toMgr]
  cases h.stack.past <;> cases h.stack.future <;> rfl

theorem canRedo_toMgr (h : History μ) : h.toMgr.canRedo = .ok (!h.stack.future.isEmpty) := by
  rw [UndoableCmdSystem.canRedo, UndoableCmdSystem.canReplay, eq_pastEnd_toMgr, empty_toMgr]
  cases h.stack.past <;> cases h.stack.future <;> rfl

/-- `focused_item()` is the next memento to redo. -/
theorem focusedItem_toMgr {n : Node μ} {future : List (Node μ)}
    (hf : h.stack.future = n :: future) : h.toMgr.focusedItem = .ok n.val := by
  have hn : h.toMgr._savedStates.nodes = h.stack.past.reverse ++ n :: future := by
    rw [nodes_toMgr, hf]
  rw [UndoableCmdSystem.focusedItem, position_eq, hf]
  exact StdList.deref_node hn

/-- `newest_item()` is the memento in front of the cursor. -/
theorem newestItem_toMgr {n : Node μ} {past : List (Node μ)} (hp : h.stack.past = n :: past) :
    h.toMgr.newestItem sem = .ok n.val := by
  have hn : h.toMgr._savedStates.nodes = past.reverse ++ n :: h.stack.future := by
    simp [nodes_toMgr, hp]
  rw [UndoableCmdSystem.newestItem, position_eq, StdList.prev_split hn, Machine.ok_bind]
  exact StdList.deref_node hn

/-- An undo at `begin()` is refused and changes nothing. -/
theorem undo_of_past_nil (hp : h.stack.past = []) : h.undo = h := by
  refine ext ?_ rfl rfl
  obtain ⟨⟨_ | _, _⟩, _, _, _, _⟩ := h
  · rfl
  · cases hp

/-- A redo at `end()` is refused and changes nothing. -/
theorem redo_of_future_nil (hf : h.stack.future = []) : h.redo = h := by
  refine ext ?_ rfl rfl
  obtain ⟨⟨_, _ | _⟩, _, _, _, _⟩ := h
  · rfl
  · cases hf

/-- Where every node stays, only the cursor of the manager differs. -/
theorem toMgr_withStacks {t : TwoStack (Node μ)} (ht : t.entries = h.stack.entries) :
    (h.withStacks t (ht ▸ List.Sublist.refl _)).toMgr =
      { h.toMgr with _position := .toHead t.future } := by
  simp [withStacks, toMgr, toList, ht]

/-! Single steps, and the lines they print -/

def move : Direction → History μ → History μ
  | .back => undo
  | .forth => redo

/-- A step back tells where it has come to, a step forward where it starts from. -/
def line (print : μ → Except UB τ) (h : History μ) : Direction → Except UB (List (Line τ))
  | .back =>
    match h.stack.past with
    | [] => .ok []
    | n :: past => (print n.val).map fun text => [⟨.restore, past.length, text, h.size⟩]
  | .forth =>
    match h.stack.future with
    | [] => .ok []
    | n :: _ => (print n.val).map fun text => [⟨.replay, h.pos, text, h.size⟩]

/-- At `begin()` a step back does nothing, otherwise it prints the memento that it has made the
next to redo. -/
theorem pop_toMgr (h : History μ) : Verbose.pop print sem h.toMgr =
    (h.line print .back).map fun lines => (!h.stack.past.isEmpty, h.undo.toMgr, lines) := by
  rw [line]
  cases hp : h.stack.past with
  | nil =>
    rw [Verbose.pop, eq_begin_toMgr, hp, undo_of_past_nil hp]
    cases h.toMgr.empty <;> rfl
  | cons n past =>
    have hn : h.toMgr._savedStates.nodes = past.reverse ++ n :: h.stack.future := by
      simp [nodes_toMgr, hp]
    have hu : h.undo.toMgr = { h.toMgr with _position := .node n.id } := by
      rw [undo, toMgr_withStacks (TwoStack.entries_undo _)]
      obtain ⟨⟨_, _⟩, _, _, _, _⟩ := h
      cases hp
      rfl
    have hprev : h.toMgr._savedStates.prev sem h.toMgr._position = .ok (.node n.id) :=
      StdList.prev_split hn
    have hpos : h.undo.pos = past.length := by
      obtain ⟨⟨_, _⟩, _, _, _, _⟩ := h
      cases hp
      rfl
    have hsize : h.undo.size = h.size := congrArg List.length (TwoStack.entries_undo _)
    have hd : Verbose.dbgPrint print .restore h.undo.toMgr (.ok n.val) = _ :=
      dbgPrint_toMgr _ _ _
    rw [hpos, hsize, hu] at hd
    rw [hu]
    simp only [Verbose.pop, empty_toMgr, eq_begin_toMgr, hp, hprev, StdList.deref_node hn, hd,
      List.isEmpty_cons, Bool.false_and, Bool.false_eq_true, if_false, Machine.ok_bind]
    cases print n.val <;> rfl

/-- At `end()` a step forward does nothing, otherwise it prints the memento that it is about to
step over. -/
theorem replayOneImpl_toMgr (h : History μ) : Verbose.replayOneImpl print sem h.toMgr =
    (h.line print .forth).map fun lines => (!h.stack.future.isEmpty, h.redo.toMgr, lines) := by
  rw [line]
  cases hf : h.stack.future with
  | nil =>
    rw [Verbose.replayOneImpl, eq_pastEnd_toMgr, hf, redo_of_future_nil hf]
    cases h.toMgr.empty <;> rfl
  | cons n future =>
    have hn : h.toMgr._savedStates.nodes = h.stack.past.reverse ++ n :: future := by
      simp [nodes_toMgr, hf]
    have hc : h.toMgr._position = .node n.id := by simp [position_eq, hf, Iter.toHead]
    have hu : h.redo.toMgr = { h.toMgr with _position := .toHead future } := by
      rw [redo, toMgr_withStacks (TwoStack.entries_redo _), TwoStack.future_redo, hf]
      rfl
    have hnext : h.toMgr._savedStates.next sem h.toMgr._position = .ok (.toHead future) := by
      rw [hc, StdList.next_split hn]
    have hv : h.toMgr._savedStates.deref h.toMgr._position = .ok n.val := by
      rw [hc, StdList.deref_node hn]
    rw [hu]
    simp only [Verbose.replayOneImpl, empty_toMgr, eq_pastEnd_toMgr, hf, hnext, hv,
      dbgPrint_toMgr, List.isEmpty_cons, Bool.and_false, Bool.false_eq_true, if_false,
      Bool.not_false, if_true, Machine.ok_bind]
    cases print n.val <;> rfl

/-- The command's own undo and redo are never called, so that a single step is all there is. -/
theorem single_toMgr (dir : Direction) (h : History μ) : Verbose.single print sem c dir h.toMgr =
    (h.line print dir).map fun lines => ((h.move dir).toMgr, lines) := by
  cases dir with
  | back =>
    rw [Verbose.single, Verbose.undo, dif_neg not_hasUndo, Verbose.undoOne, pop_toMgr]
    cases h.line print .back <;> rfl
  | forth =>
    rw [Verbose.single, Verbose.redo, dif_neg not_hasRedo, Verbose.redoOne, replayOneImpl_toMgr]
    cases h.line print .forth <;> rfl

/-- The silent manager streams nothing, so no text of its can fail. -/
theorem line_mute (dir : Direction) (h : History μ) :
    ∃ lines, h.line UndoableCmdSystem.mute dir = .ok lines := by
  cases dir with
  | back =>
    rw [line]
    split <;> exact ⟨_, rfl⟩
  | forth =>
    rw [line]
    split <;> exact ⟨_, rfl⟩

/-- `undo(CmdSP &)` moves one node over; the command it is given plays no part. -/
theorem undo_toMgr (h : History μ) : h.toMgr.undo sem c = .ok h.undo.toMgr := by
  have hstep : Verbose.undo UndoableCmdSystem.mute sem c h.toMgr = _ :=
    single_toMgr (c := c) .back h
  obtain ⟨lines, hlines⟩ := line_mute .back h
  rw [UndoableCmdSystem.undo, hstep, hlines]
  rfl

theorem redo_toMgr (h : History μ) : h.toMgr.redo sem c = .ok h.redo.toMgr := by
  have hstep : Verbose.redo UndoableCmdSystem.mute sem c h.toMgr = _ :=
    single_toMgr (c := c) .forth h
  obtain ⟨lines, hlines⟩ := line_mute .forth h
  rw [UndoableCmdSystem.redo, hstep, hlines]
  rfl

theorem clear_toMgr (h : History μ) : h.toMgr.clear = h.clear.toMgr := rfl

theorem setMaxSize_toMgr (n : ℕ) (h : History μ) :
    h.toMgr.setMaxSize n = (h.setLimit n).toMgr := rfl

/-! Recording -/

/-- The list after `push` has erased the redo tail. -/
def pastList (h : History μ) : StdList μ :=
  h.toList.keep h.stack.past.reverse (List.sublist_append_left _ _)

/-- The nodes that an insertion keeps, oldest first. -/
def kept (h : History μ) : List (Node μ) :=
  (if h.limit ≤ h.pos then h.stack.past.dropLast else h.stack.past).reverse

/-- Neither destructive step of `push` adds or reorders a node. -/
theorem kept_sublist (h : History μ) : h.kept.Sublist h.toList.nodes := by
  have hk : h.kept.Sublist h.stack.past.reverse := by
    unfold kept
    split
    · exact (List.dropLast_sublist _).reverse
    · exact List.Sublist.refl _
  exact hk.trans (List.sublist_append_left _ _)

/-- The list after both destructive steps of `push`, before its insertion. -/
def keptList (h : History μ) : StdList μ := h.toList.keep h.kept h.kept_sublist

/-- `push` first drops whatever could be redone. -/
theorem eraseTail_toMgr (h : History μ) : h.toMgr.eraseTail = .ok h.pastList := by
  by_cases hf : h.stack.future = []
  · have hsame : h.toMgr._savedStates = h.pastList :=
      StdList.ext (by simp [nodes_toMgr, hf, pastList, StdList.keep]) rfl
    rw [UndoableCmdSystem.eraseTail, eq_pastEnd_toMgr, hf, hsame]
    cases h.toMgr.empty <;> rfl
  · have he : h.toMgr.empty = false := by simp [empty_toMgr, hf]
    have hr : h.toMgr._savedStates.eraseRange h.toMgr._position .pastEnd = .ok h.pastList :=
      StdList.eraseRange_split (nodes_toMgr h)
    simp [UndoableCmdSystem.eraseTail, eq_pastEnd_toMgr, he, hf, hr]

theorem size_pastList (h : History μ) : h.pastList.size = h.pos := by
  simp [StdList.size, pastList, StdList.keep, pos]

/-- Then it drops the oldest node, when the limit is reached. -/
theorem evict_pastList (h : History μ) (hc : h.CanRecord) :
    h.toMgr.evict h.pastList = .ok h.keptList := by
  have hm : h.toMgr._maxSize = h.limit := rfl
  rw [UndoableCmdSystem.evict, size_pastList, hm]
  by_cases hl : h.limit ≤ h.pos
  · have hne : h.stack.past ≠ [] := by
      rcases hc with hc | hc
      · intro he
        simp only [pos, he, List.length_nil] at hl
        omega
      · exact hc
    have hkeep : h.pastList.nodes.tail = h.kept := by
      simp [pastList, StdList.keep, kept, hl]
    rw [if_pos hl, StdList.popFront, if_neg (by simpa [StdList.empty, pastList, StdList.keep])]
    exact congrArg _ (StdList.ext hkeep rfl)
  · have hkeep : h.pastList.nodes = h.kept := by simp [pastList, StdList.keep, kept, hl]
    rw [if_neg (by simpa using hl)]
    exact congrArg _ (StdList.ext hkeep rfl)

/-- `push` up to its insertion. -/
theorem push_eq (oom : Bool) (h : History μ) (m : μ) (hc : h.CanRecord) :
    Verbose.push print oom m h.toMgr = match h.keptList.emplaceBack oom m with
    | .error e => .ok (.error e, { h.toMgr with _savedStates := h.keptList }, [])
    | .ok l => do
      let s : UndoableCmdSystem μ := ⟨l, .pastEnd, h.limit⟩
      let line ← Verbose.dbgPrint print .save s l.back
      return (.ok (), s, [line]) := by
  rw [Verbose.push, eraseTail_toMgr, Machine.ok_bind, evict_pastList h hc, Machine.ok_bind]
  rfl

/-- A recording streams the new memento. -/
theorem push_verbose (m : μ) (hc : h.CanRecord) : Verbose.push print false m h.toMgr =
    (print m).map fun text =>
      (.ok (), (h.record m).toMgr, [⟨.save, (h.record m).size, text, (h.record m).size⟩]) := by
  have hlist : h.keptList.emplaceBack false m = .ok (h.record m).toList := by
    refine congrArg Except.ok (StdList.ext ?_ rfl)
    simp only [record, toList, TwoStack.record, TwoStack.entries, keptList, StdList.keep, kept,
      pos, List.reverse_cons, List.append_nil]
    rfl
  have hback : (h.record m).toList.back = .ok m := by
    simp [StdList.back, record, toList, TwoStack.record, TwoStack.entries]
  have hpos : (h.record m).pos = (h.record m).size := by
    rw [size_eq]
    rfl
  have hs : (⟨(h.record m).toList, .pastEnd, h.limit⟩ : UndoableCmdSystem μ) =
      (h.record m).toMgr := rfl
  rw [push_eq false h m hc, hlist]
  simp only [hs, hback, dbgPrint_toMgr, hpos]
  cases print m <;> rfl

/-- The node is refused after the truncation and the eviction, and the cursor is not moved. -/
theorem push_refused (m : μ) (hc : h.CanRecord) : Verbose.push print true m h.toMgr =
    .ok (.error .badAlloc, { h.toMgr with _savedStates := h.keptList }, []) := by
  rw [push_eq true h m hc]
  rfl

/-- An eviction from the empty list. -/
theorem push_empty (oom : Bool) (m : μ) (hc : ¬ h.CanRecord) :
    Verbose.push print oom m h.toMgr = .error .emptyContainer := by
  obtain ⟨hl, hp⟩ : h.limit = 0 ∧ h.stack.past = [] := by
    simpa [CanRecord] using hc
  have hpop : h.pastList.popFront = .error .emptyContainer := by
    simp [StdList.popFront, StdList.empty, pastList, StdList.keep, hp]
  have hge : h.pastList.size ≥ h.toMgr._maxSize := by
    rw [show h.toMgr._maxSize = h.limit from rfl, hl]
    exact Nat.zero_le _
  rw [Verbose.push, eraseTail_toMgr, Machine.ok_bind, UndoableCmdSystem.evict, if_pos hge, hpop]
  rfl

/-- A recording that the allocator serves. -/
theorem push_toMgr (h : History μ) (m : μ) (hc : h.CanRecord) :
    h.toMgr.push false m = .ok (.ok (), (h.record m).toMgr) := by
  rw [UndoableCmdSystem.push, push_verbose m hc]
  rfl

theorem push_oom_toMgr (h : History μ) (m : μ) (hc : h.CanRecord) :
    h.toMgr.push true m =
      .ok (.error .badAlloc, { h.toMgr with _savedStates := h.keptList }) := by
  rw [UndoableCmdSystem.push, push_refused m hc]
  rfl

/-- The eviction from an empty list needs no allocator. -/
theorem push_error (oom : Bool) (h : History μ) (m : μ) (hc : ¬ h.CanRecord) :
    h.toMgr.push oom m = .error .emptyContainer := by
  rw [UndoableCmdSystem.push, push_empty oom m hc]
  rfl

end History

end UndoCxx
