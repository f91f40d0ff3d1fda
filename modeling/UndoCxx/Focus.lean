import UndoCxx.TwoStack

/-!
A list with a current item, moved through like the pages of a browser: a move by
several items is made as a whole, or not at all.
-/

structure Focus (α : Type) where
  /-- Nearest first. -/
  before : List α
  item : α
  after : List α
  deriving DecidableEq, Repr

namespace Focus

variable {α : Type} {f : Focus α} {n limit : ℕ} {a : α}

def only (a : α) : Focus α := ⟨[], a, []⟩

def items (f : Focus α) : List α := f.before.reverse ++ f.item :: f.after

def prev? : Focus α → Option (Focus α)
  | ⟨[], _, _⟩ => none
  | ⟨b :: before, a, after⟩ => some ⟨before, b, a :: after⟩

def next? : Focus α → Option (Focus α)
  | ⟨_, _, []⟩ => none
  | ⟨before, a, b :: after⟩ => some ⟨a :: before, b, after⟩

/-- Repeat a move, which may fail. -/
def go (move : Focus α → Option (Focus α)) : ℕ → Focus α → Option (Focus α)
  | 0, f => some f
  | n + 1, f => move f >>= go move n

def back (n : ℕ) (f : Focus α) : Option (Focus α) := go prev? n f

def forth (n : ℕ) (f : Focus α) : Option (Focus α) := go next? n f

/-- A new current item, in the place of what comes after; at the limit the oldest one goes. -/
def record (limit : ℕ) (a : α) (f : Focus α) : Focus α :=
  let before := f.item :: f.before
  ⟨if limit ≤ before.length then before.dropLast else before, a, []⟩

def erase (n : ℕ) (f : Focus α) : Focus α := { f with after := f.after.drop n }

/-- The current item is the first of the past. -/
def toStack (f : Focus α) : TwoStack α := ⟨f.item :: f.before, f.after⟩

/-- The same items in the same order, the current one among them. -/
theorem entries_toStack (f : Focus α) : f.toStack.entries = f.items := by
  simp [toStack, TwoStack.entries, items]

/-- A move back keeps an item to stand on: as many steps as there are items before the current one,
and otherwise none at all. -/
theorem toStack_back (n : ℕ) (f : Focus α) : (f.back n).map toStack =
    if n ≤ f.before.length then some (TwoStack.undo^[n] f.toStack) else none := by
  induction n generalizing f with
  | zero => rfl
  | succ n ih =>
    obtain ⟨_ | ⟨b, before⟩, a, after⟩ := f
    · rfl
    · have hstep : (⟨b :: before, a, after⟩ : Focus α).back (n + 1) =
          (⟨before, b, a :: after⟩ : Focus α).back n := rfl
      rw [hstep, ih]
      simp [toStack, TwoStack.undo]

/-- A move forth may go as far as the last item. -/
theorem toStack_forth (n : ℕ) (f : Focus α) : (f.forth n).map toStack =
    if n ≤ f.after.length then some (TwoStack.redo^[n] f.toStack) else none := by
  induction n generalizing f with
  | zero => rfl
  | succ n ih =>
    obtain ⟨before, a, _ | ⟨b, after⟩⟩ := f
    · rfl
    · have hstep : (⟨before, a, b :: after⟩ : Focus α).forth (n + 1) =
          (⟨a :: before, b, after⟩ : Focus α).forth n := rfl
      rw [hstep, ih]
      simp [toStack, TwoStack.redo]

/-- The item that was current becomes the nearest of those before. -/
theorem toStack_record : (f.record limit a).toStack = f.toStack.record limit a := rfl

theorem toStack_erase : (f.erase n).toStack = f.toStack.erase n := rfl

end Focus
