import Mathlib.Data.List.Basic
import Mathlib.Logic.Function.Iterate

/-!
The two-stack model of an undo history, over any type of entries. `past` holds
what can be undone, newest first, and `future` what can be redone, next first.
-/

/-- The two ways to move through a history. -/
inductive Direction
  | back
  | forth
  deriving DecidableEq, Repr

def Direction.flip : Direction → Direction
  | .back => .forth
  | .forth => .back

structure TwoStack (α : Type) where
  past : List α
  future : List α
  deriving DecidableEq, Repr

/-- The changes a history goes through. -/
inductive Edit (α : Type)
  | record (a : α)
  | undo
  | redo
  | erase (n : ℕ)
  | clear
  deriving DecidableEq, Repr

namespace TwoStack

variable {α β : Type} {t : TwoStack α} {a : α} {n limit : ℕ}

def empty : TwoStack α := ⟨[], []⟩

/-- All entries, oldest first. -/
def entries (t : TwoStack α) : List α := t.past.reverse ++ t.future

/-- A full past forgets its oldest entry; a new entry always empties the future. -/
def record (limit : ℕ) (a : α) (t : TwoStack α) : TwoStack α :=
  ⟨a :: if limit ≤ t.past.length then t.past.dropLast else t.past, []⟩

/-- A recording that gets no further than making room. -/
def evict (limit : ℕ) (t : TwoStack α) : TwoStack α :=
  ⟨if limit ≤ t.past.length then t.past.dropLast else t.past, []⟩

def undo : TwoStack α → TwoStack α
  | ⟨[], future⟩ => ⟨[], future⟩
  | ⟨a :: past, future⟩ => ⟨past, a :: future⟩

def redo : TwoStack α → TwoStack α
  | ⟨past, []⟩ => ⟨past, []⟩
  | ⟨past, a :: future⟩ => ⟨a :: past, future⟩

/-- A single step. -/
def move : Direction → TwoStack α → TwoStack α
  | .back => undo
  | .forth => redo

def erase (n : ℕ) (t : TwoStack α) : TwoStack α := ⟨t.past, t.future.drop n⟩

def map (f : α → β) (t : TwoStack α) : TwoStack β := ⟨t.past.map f, t.future.map f⟩

def apply (limit : ℕ) (t : TwoStack α) : Edit α → TwoStack α
  | .record a => t.record limit a
  | .undo => t.undo
  | .redo => t.redo
  | .erase n => t.erase n
  | .clear => empty

/-- The history after a list of edits, starting with nothing recorded. -/
def run (limit : ℕ) (edits : List (Edit α)) : TwoStack α := edits.foldl (apply limit) empty

@[simp] theorem future_redo (t : TwoStack α) : t.redo.future = t.future.tail := by
  obtain ⟨_, _ | _⟩ := t <;> rfl

/-- Undo and redo lose nothing and reorder nothing; only the cursor moves. -/
@[simp] theorem entries_undo (t : TwoStack α) : t.undo.entries = t.entries := by
  obtain ⟨_ | _, _⟩ := t <;> simp [undo, entries]

@[simp] theorem entries_redo (t : TwoStack α) : t.redo.entries = t.entries := by
  obtain ⟨_, _ | _⟩ := t <;> simp [redo, entries]

@[simp] theorem length_entries (t : TwoStack α) :
    t.entries.length = t.past.length + t.future.length := by
  simp [entries]

/-- The entries and the place of the cursor make up the history. -/
theorem eq_of_entries {t' : TwoStack α} (he : t.entries = t'.entries)
    (hp : t.past.length = t'.past.length) : t = t' := by
  obtain ⟨past, future⟩ := t
  obtain ⟨past', future'⟩ := t'
  obtain ⟨hpast, rfl⟩ := List.append_inj he (by simpa using hp)
  cases List.reverse_injective hpast
  rfl

/-- Eviction takes from the past alone, and only its oldest entry. -/
theorem past_evict_sublist (limit : ℕ) (t : TwoStack α) : (t.evict limit).past.Sublist t.past := by
  rw [evict]
  split
  · exact List.dropLast_sublist _
  · exact List.Sublist.refl _

theorem record_empty (limit : ℕ) (a : α) : record limit a .empty = ⟨[a], []⟩ := by
  simp [record, empty]

/-- A recording adds one entry, and at the limit drops one. -/
theorem length_past_record (limit : ℕ) (a : α) (t : TwoStack α) :
    (t.record limit a).past.length =
      (if limit ≤ t.past.length then t.past.length - 1 else t.past.length) + 1 := by
  rw [record, List.length_cons]
  split
  · rw [List.length_dropLast]
  · rfl

theorem entries_erase_sublist (n : ℕ) (t : TwoStack α) :
    (t.erase n).entries.Sublist t.entries :=
  List.Sublist.append_left (List.drop_sublist _ _) _

/-- What is kept of the past stays in order before the new entry. -/
theorem entries_record_sublist (limit : ℕ) (a : α) (t : TwoStack α) :
    (t.record limit a).entries.Sublist (t.entries ++ [a]) := by
  have hk : (if limit ≤ t.past.length then t.past.dropLast else t.past).Sublist t.past := by
    split
    · exact List.dropLast_sublist _
    · exact List.Sublist.refl _
  simp only [record, entries, List.reverse_cons, List.append_nil]
  exact List.Sublist.append (hk.reverse.trans (List.sublist_append_left _ _)) (List.Sublist.refl _)

/-- Repeated undo moves a block of entries at once, as far as there are any. -/
theorem iterate_undo (n : ℕ) (t : TwoStack α) :
    undo^[n] t = ⟨t.past.drop n, (t.past.take n).reverse ++ t.future⟩ := by
  induction n generalizing t with
  | zero => rfl
  | succ n ih =>
    rw [Function.iterate_succ_apply, ih]
    obtain ⟨_ | _, _⟩ := t <;> simp [undo]

/-- A batch redo in closed form: the next `n` entries, nearest one on top. -/
theorem iterate_redo (n : ℕ) (t : TwoStack α) :
    redo^[n] t = ⟨(t.future.take n).reverse ++ t.past, t.future.drop n⟩ := by
  induction n generalizing t with
  | zero => rfl
  | succ n ih =>
    rw [Function.iterate_succ_apply, ih]
    obtain ⟨_, _ | _⟩ := t <;> simp [redo]

@[simp] theorem entries_iterate_undo (n : ℕ) (t : TwoStack α) :
    (undo^[n] t).entries = t.entries :=
  congrFun (Function.iterate_invariant (f := undo) (g := entries) (funext entries_undo) n) t

@[simp] theorem entries_iterate_redo (n : ℕ) (t : TwoStack α) :
    (redo^[n] t).entries = t.entries :=
  congrFun (Function.iterate_invariant (f := redo) (g := entries) (funext entries_redo) n) t

theorem entries_iterate_move (dir : Direction) (n : ℕ) (t : TwoStack α) :
    ((move dir)^[n] t).entries = t.entries := by
  cases dir with
  | back => exact entries_iterate_undo n t
  | forth => exact entries_iterate_redo n t

/-- Undo is taken back by redo, unless it had nothing to undo. -/
theorem redo_undo (h : t.past ≠ []) : t.undo.redo = t := by
  obtain ⟨_ | _, _⟩ := t
  · exact absurd rfl h
  · rfl

theorem undo_redo (h : t.future ≠ []) : t.redo.undo = t := by
  obtain ⟨_, _ | _⟩ := t
  · exact absurd rfl h
  · rfl

/-- As many steps forward as back lead to the same place, if all steps back could be taken. -/
theorem redo_iterate_undo (hn : n ≤ t.past.length) : redo^[n] (undo^[n] t) = t := by
  induction n with
  | zero => rfl
  | succ n ih =>
    have hpast : (undo^[n] t).past ≠ [] := by
      rw [iterate_undo]
      intro hnil
      have := List.drop_eq_nil_iff.mp hnil
      omega
    rw [Function.iterate_succ_apply redo, Function.iterate_succ_apply' undo, redo_undo hpast]
    exact ih (Nat.le_of_succ_le hn)

/-- A batch redo that has all its entries is taken back by a batch undo of the same size. -/
theorem undo_iterate_redo (hn : n ≤ t.future.length) : undo^[n] (redo^[n] t) = t := by
  induction n with
  | zero => rfl
  | succ n ih =>
    have hfuture : (redo^[n] t).future ≠ [] := by
      rw [iterate_redo]
      intro hnil
      have := List.drop_eq_nil_iff.mp hnil
      omega
    rw [Function.iterate_succ_apply undo, Function.iterate_succ_apply' redo, undo_redo hfuture]
    exact ih (Nat.le_of_succ_le hn)

/-! Renaming the entries commutes with every edit. -/

theorem entries_map (f : α → β) (t : TwoStack α) : (t.map f).entries = t.entries.map f := by
  simp [entries, map]

@[simp] theorem map_record (f : α → β) :
    (t.record limit a).map f = (t.map f).record limit (f a) := by
  simp only [record, map, List.length_map]
  split <;> simp

@[simp] theorem map_evict (f : α → β) : (t.evict limit).map f = (t.map f).evict limit := by
  simp only [evict, map, List.length_map]
  split <;> simp

@[simp] theorem map_undo (f : α → β) (t : TwoStack α) : t.undo.map f = (t.map f).undo := by
  obtain ⟨_ | _, _⟩ := t <;> rfl

@[simp] theorem map_redo (f : α → β) (t : TwoStack α) : t.redo.map f = (t.map f).redo := by
  obtain ⟨_, _ | _⟩ := t <;> rfl

/-- A batch does not look at the entries that it moves over. -/
theorem map_iterate_move (f : α → β) (dir : Direction) (n : ℕ) (t : TwoStack α) :
    ((move dir)^[n] t).map f = (move dir)^[n] (t.map f) := by
  apply Function.Semiconj.iterate_right (f := TwoStack.map f)
  cases dir with
  | back => exact map_undo f
  | forth => exact map_redo f

@[simp] theorem map_erase (f : α → β) : (t.erase n).map f = (t.map f).erase n := by
  simp [erase, map]

/-! Forgetting -/

/-- `t'` lacks some of the oldest entries of `t`, and nothing else. -/
def Forgets (t' t : TwoStack α) : Prop := t'.past <+: t.past ∧ t'.future = t.future

/-- What is forgotten is the oldest entries. -/
theorem Forgets.entries {t' : TwoStack α} (h : t'.Forgets t) : t'.entries <:+ t.entries := by
  obtain ⟨⟨rest, hp⟩, hf⟩ := h
  exact ⟨rest.reverse, by simp [TwoStack.entries, ← hp, hf]⟩

theorem dropLast_isPrefix {xs ys : List α} (h : xs <+: ys) (hne : xs.length < ys.length) :
    xs <+: ys.dropLast := by
  obtain ⟨zs, rfl⟩ := h
  have hz : zs ≠ [] := by
    rintro rfl
    simp at hne
  rw [List.dropLast_append_of_ne_nil hz]
  exact List.prefix_append _ _

/-- A tighter limit keeps forgetting the oldest entries, whatever is recorded. -/
theorem Forgets.record {t' : TwoStack α} {limit' : ℕ} (h : t'.Forgets t) (hl : limit' ≤ limit)
    (a : α) : (t'.record limit' a).Forgets (t.record limit a) := by
  obtain ⟨hp, -⟩ := h
  refine ⟨List.cons_prefix_cons.mpr ⟨rfl, ?_⟩, rfl⟩
  have hlen := hp.length_le
  have hkeep : (if limit' ≤ t'.past.length then t'.past.dropLast else t'.past) <+: t'.past := by
    split
    · exact List.dropLast_prefix _
    · exact List.prefix_refl _
  by_cases hfull : limit ≤ t.past.length
  · rw [if_pos hfull]
    rcases Nat.lt_or_eq_of_le hlen with hlt | heq
    · exact hkeep.trans (dropLast_isPrefix hp hlt)
    · have hsame : t'.past = t.past := hp.eq_of_length heq
      have hevict : limit' ≤ t.past.length := Nat.le_trans hl hfull
      simp only [hsame, if_pos hevict, List.prefix_refl]
  · rw [if_neg hfull]
    exact hkeep.trans hp

/-- Undoing keeps the relation as long as the shorter past has enough to undo. -/
theorem Forgets.iterate_undo {t' : TwoStack α} (h : t'.Forgets t) (hn : n ≤ t'.past.length) :
    (undo^[n] t').Forgets (undo^[n] t) := by
  obtain ⟨⟨rest, hp⟩, hf⟩ := h
  rw [TwoStack.iterate_undo, TwoStack.iterate_undo]
  refine ⟨⟨rest, ?_⟩, ?_⟩
  · rw [← hp, List.drop_append_of_le_length hn]
  · rw [← hp, List.take_append_of_le_length hn, hf]

/-- The forgotten entries lie in the past, so redo meets the same ones. -/
theorem Forgets.iterate_redo {t' : TwoStack α} (h : t'.Forgets t) (n : ℕ) :
    (redo^[n] t').Forgets (redo^[n] t) := by
  obtain ⟨⟨rest, hp⟩, hf⟩ := h
  rw [TwoStack.iterate_redo, TwoStack.iterate_redo]
  exact ⟨⟨rest, by rw [← hp, hf, List.append_assoc]⟩, by rw [hf]⟩

theorem Forgets.erase {t' : TwoStack α} (h : t'.Forgets t) (n : ℕ) :
    (t'.erase n).Forgets (t.erase n) := by
  obtain ⟨hp, hf⟩ := h
  exact ⟨hp, by rw [TwoStack.erase, TwoStack.erase, hf]⟩

end TwoStack
