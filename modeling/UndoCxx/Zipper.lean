import UndoCxx.Erase

/-!
The undo history without nodes and iterators: two stacks of mementos and a limit.
Every request is answered in one step here, with the same undefined behaviour.
-/
namespace UndoCxx

open Cxx

structure Zipper (μ : Type) where
  stack : TwoStack μ
  limit : ℕ
  deriving DecidableEq

namespace Zipper

variable {μ : Type}

def fresh : Zipper μ := ⟨.empty, sizeTMax⟩

def pos (z : Zipper μ) : ℕ := z.stack.past.length

def size (z : Zipper μ) : ℕ := z.stack.entries.length

def edit (f : TwoStack μ → TwoStack μ) (z : Zipper μ) : Zipper μ := { z with stack := f z.stack }

def record (m : μ) (z : Zipper μ) : Except UB (Zipper μ) :=
  if 0 < z.limit ∨ z.stack.past ≠ [] then .ok (z.edit (·.record z.limit m))
  else .error .emptyContainer

def move (dir : Direction) (z : Zipper μ) : Zipper μ := z.edit (TwoStack.move dir)

def batch (dir : Direction) (sem : Sentinel) (delta : ℤ) (z : Zipper μ) : Except UB (Zipper μ) :=
  (batchSteps dir sem z.pos z.size delta).map fun n => z.edit (TwoStack.move dir)^[n]

def erase (sem : Sentinel) (n : ℤ) (z : Zipper μ) : Except UB (Zipper μ) :=
  (eraseSteps sem z.pos z.size n).map fun k => z.edit (·.erase k)

def handle (sem : Sentinel) (z : Zipper μ) : Request μ → Except UB (Zipper μ)
  | .nothing => .ok z
  | .record m => z.record m
  | .move dir => .ok (z.move dir)
  | .batch dir delta => z.batch dir sem delta
  | .erase n => z.erase sem n
  | .clear => .ok (z.edit fun _ => .empty)
  | .limit n => .ok { z with limit := n }

end Zipper

namespace History

variable {μ : Type} {h : History μ} {sem : Sentinel} {n : ℤ}

/-- Only the mementos, the cursor and the limit. -/
def forget (h : History μ) : Zipper μ := ⟨h.stack.map Node.val, h.limit⟩

@[simp] theorem pos_forget (h : History μ) : h.forget.pos = h.pos := List.length_map _

@[simp] theorem size_forget (h : History μ) : h.forget.size = h.size := by
  rw [Zipper.size, TwoStack.length_entries, size_eq, pos]
  simp [forget, TwoStack.map]

/-- Nothing can be undone without the identities when nothing can be undone with them. -/
theorem past_forget : h.forget.stack.past = [] ↔ h.stack.past = [] := List.map_eq_nil_iff

/-- Histories with one limit differ, once the identities are gone, by their mementos alone. -/
theorem forget_eq {g : History μ} {t : TwoStack μ} (ht : g.stack.map Node.val = t)
    (hl : g.limit = h.limit) : g.forget = { h.forget with stack := t } := by
  rw [forget, ht, hl]
  rfl

/-- Stepping needs no identities. -/
theorem forget_iterate (dir : Direction) (n : ℕ) (h : History μ) :
    ((move dir)^[n] h).forget = h.forget.edit (TwoStack.move dir)^[n] := by
  apply forget_eq
  · rw [stack_iterate_move, TwoStack.map_iterate_move]
    rfl
  · exact limit_iterate_move dir n h

/-- Erasing is by place, not by identity. -/
theorem forget_drop (k : ℕ) (h : History μ) : (h.drop k).forget = h.forget.edit (·.erase k) :=
  forget_eq (TwoStack.map_erase _) rfl

/-- The identity of the new node is all that forgetting loses. -/
theorem forget_record (m : μ) (h : History μ) :
    (h.record m).forget = h.forget.edit (·.record h.limit m) :=
  forget_eq (TwoStack.map_record _) rfl

/-- Both count the steps of a batch by the position and the size alone. -/
theorem forget_batch (dir : Direction) (h : History μ) (d : ℤ) :
    (h.batch dir sem d).map forget = h.forget.batch dir sem d := by
  rw [batch, Zipper.batch, pos_forget, size_forget]
  cases batchSteps dir sem h.pos h.size d with
  | error e => rfl
  | ok n => exact congrArg Except.ok (forget_iterate dir n h)

/-- The cursor and the size decide how many mementos go. -/
theorem forget_erase (h : History μ) (n : ℤ) :
    (h.erase sem n).map forget = h.forget.erase sem n := by
  rw [erase, Zipper.erase, pos_forget, size_forget]
  cases eraseSteps sem h.pos h.size n with
  | error e => rfl
  | ok k => exact congrArg Except.ok (forget_drop k h)

/-- A request does to the mementos what it does to the nodes that hold them. -/
theorem forget_handle (h : History μ) (r : Request μ) :
    (h.handle sem r).map forget = h.forget.handle sem r := by
  cases r with
  | nothing => rfl
  | record m =>
    have hcan : 0 < h.forget.limit ∨ h.forget.stack.past ≠ [] ↔ h.CanRecord :=
      or_congr_right past_forget.not
    rw [handle, Zipper.handle, Zipper.record]
    by_cases hc : h.CanRecord
    · rw [if_pos hc, if_pos (hcan.mpr hc), Machine.map_ok, forget_record]
      rfl
    · rw [if_neg hc, if_neg (hcan.not.mpr hc)]
      rfl
  | move dir => exact congrArg Except.ok (forget_iterate dir 1 h)
  | batch dir d => exact forget_batch dir h d
  | erase n => exact forget_erase h n
  | clear => rfl
  | limit n => rfl

end History

/-! Other mementos in the same places, and mementos that stay -/

namespace Zipper

variable {μ β : Type} {f : μ → β} {sem : Sentinel}

def map (f : μ → β) (z : Zipper μ) : Zipper β := ⟨z.stack.map f, z.limit⟩

/-- What an edit does with other mementos in the same places. -/
theorem map_edit {g : μ → β} {f : TwoStack μ → TwoStack μ}
    {f' : TwoStack β → TwoStack β} (hf : ∀ t, (f t).map g = f' (t.map g)) (z : Zipper μ) :
    (z.edit f).map g = (z.map g).edit f' :=
  congrArg (Zipper.mk · z.limit) (hf z.stack)

@[simp] theorem pos_map (z : Zipper μ) : (z.map f).pos = z.pos := List.length_map _

@[simp] theorem size_map (z : Zipper μ) : (z.map f).size = z.size := by
  rw [size, map, TwoStack.entries_map, List.length_map, size]

/-- A batch does not look at the mementos. -/
theorem map_batch (dir : Direction) (z : Zipper μ) (d : ℤ) :
    (z.batch dir sem d).map (map f) = (z.map f).batch dir sem d := by
  rw [batch, batch, pos_map, size_map]
  cases batchSteps dir sem z.pos z.size d with
  | error e => rfl
  | ok n => exact congrArg Except.ok (map_edit (TwoStack.map_iterate_move f dir n) z)

theorem map_erase (z : Zipper μ) (n : ℤ) : (z.erase sem n).map (map f) = (z.map f).erase sem n := by
  rw [erase, erase, pos_map, size_map]
  cases eraseSteps sem z.pos z.size n with
  | error e => rfl
  | ok k => exact congrArg Except.ok (map_edit (fun _ => TwoStack.map_erase f) z)

/-- A batch moves the cursor over mementos that all stay. -/
theorem entries_batch {z z' : Zipper μ} {dir : Direction} {d : ℤ}
    (h : z.batch dir sem d = .ok z') : z'.stack.entries = z.stack.entries := by
  obtain ⟨n, -, rfl⟩ := Machine.map_eq_ok.mp h
  exact TwoStack.entries_iterate_move dir n z.stack

/-- An erasure brings in no memento. -/
theorem entries_erase {z z' : Zipper μ} {n : ℤ} (h : z.erase sem n = .ok z') :
    z'.stack.entries ⊆ z.stack.entries := by
  obtain ⟨k, -, rfl⟩ := Machine.map_eq_ok.mp h
  exact (TwoStack.entries_erase_sublist k _).subset

end Zipper

end UndoCxx
