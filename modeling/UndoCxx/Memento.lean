import UndoCxx.Machine
import UndoCxx.Manager

/-! The memento `state_t`: the states that one command or its children saved. -/
namespace UndoCxx

open Cxx

/-- `pairs`, where a null `CmdSP` is `none`. -/
structure Memento (σ : Type) where
  pairs : List (Option CmdId × σ)
  deriving DecidableEq, Repr

namespace Memento

variable {σ : Type}

/-- `state_t()` -/
def empty : Memento σ := ⟨[]⟩

/-- `state_t(c, s)` -/
def ofState (c : Option CmdId) (s : σ) : Memento σ := ⟨[(c, s)]⟩

def emplaceBack (c : Option CmdId) (s : σ) (m : Memento σ) : Memento σ := ⟨m.pairs ++ [(c, s)]⟩

def addState (c : Option CmdId) (s : σ) (m : Memento σ) : Memento σ := m.emplaceBack c s

/-- The pairs that `for_each_children` visits, from the one after `begin()`. -/
def forEachChildren (m : Memento σ) : Except UB (List (Option CmdId × σ)) :=
  match m.pairs with
  | [] => .error .incrementEnd
  | _ :: ps => .ok ps

/-- `command()`, which reads `pairs[0]`. -/
def command (m : Memento σ) : Except UB (Option CmdId) :=
  match m.pairs with
  | [] => .error .emptyContainer
  | (c, _) :: _ => .ok c

/-- `command(c)` -/
def setCommand [Inhabited σ] (c : Option CmdId) (m : Memento σ) : Memento σ :=
  match m.pairs with
  | [] => m.emplaceBack c default
  | (_, s) :: ps => ⟨(c, s) :: ps⟩

/-- `operator()() const` -/
def state (m : Memento σ) : Except UB σ :=
  match m.pairs with
  | [] => .error .emptyContainer
  | (_, s) :: _ => .ok s

/-- An assignment to what `operator()()` refers to. -/
def setState (s : σ) (m : Memento σ) : Except UB (Memento σ) :=
  match m.pairs with
  | [] => .error .emptyContainer
  | (c, _) :: ps => .ok ⟨(c, s) :: ps⟩

/-- `operator=` -/
def assign (s : σ) (m : Memento σ) : Memento σ :=
  match m.pairs with
  | [] => m.emplaceBack none s
  | (c, _) :: ps => ⟨(c, s) :: ps⟩

/-- The state that `operator<<` streams. -/
def print (m : Memento σ) : Except UB σ := m.state

/-- The calls that change a memento. -/
inductive Op (σ : Type)
  | addState (c : Option CmdId) (s : σ)
  | emplaceBack (c : Option CmdId) (s : σ)
  | assign (s : σ)
  | command (c : Option CmdId)
  | setState (s : σ)

/-- The two public constructors. -/
inductive Ctor (σ : Type)
  | default
  | ofState (c : Option CmdId) (s : σ)

def Ctor.build : Ctor σ → Memento σ
  | .default => empty
  | .ofState c s => .ofState c s

/-- What a memento is for: its own command and state, and apart from them its children. -/
structure Parts (σ : Type) where
  command : Option CmdId
  state : σ
  children : List (Option CmdId × σ)

def Parts.apply (v : Parts σ) : Op σ → Parts σ
  | .addState c s => { v with children := v.children ++ [(c, s)] }
  | .emplaceBack c s => { v with children := v.children ++ [(c, s)] }
  | .assign s => { v with state := s }
  | .command c => { v with command := c }
  | .setState s => { v with state := s }

variable {m : Memento σ} {v : Parts σ} {op : Op σ}

/-- No accessor is undefined, and each one returns the part it is named after. -/
structure Shows (m : Memento σ) (v : Parts σ) : Prop where
  command : m.command = .ok v.command
  state : m.state = .ok v.state
  print : m.print = .ok v.state
  children : m.forEachChildren = .ok v.children

/-- A memento whose first pair is a child has as many pairs as children. -/
def LacksHead (m : Memento σ) (v : Parts σ) : Prop :=
  m.pairs ≠ [] ∧ m.pairs.length = v.children.length

theorem shows_iff : m.Shows v ↔ m.pairs = (v.command, v.state) :: v.children := by
  obtain ⟨pairs⟩ := m
  obtain ⟨c, s, children⟩ := v
  constructor
  · rintro ⟨hc, hs, -, hch⟩
    cases pairs with
    | nil => cases hc
    | cons p ps =>
      cases hc
      cases hs
      cases hch
      rfl
  · rintro rfl
    exact ⟨rfl, rfl, rfl, rfl⟩

/-- With no first pair there is neither a command nor a state to show. -/
theorem LacksHead.not_shows (h : m.LacksHead v) : ¬ m.Shows v := by
  rw [shows_iff]
  intro hs
  have hlen := h.2
  rw [hs, List.length_cons] at hlen
  omega

variable [Inhabited σ]

def apply (m : Memento σ) : Op σ → Except UB (Memento σ)
  | .addState c s => .ok (m.addState c s)
  | .emplaceBack c s => .ok (m.emplaceBack c s)
  | .assign s => .ok (m.assign s)
  | .command c => .ok (m.setCommand c)
  | .setState s => m.setState s

/-- What the constructor was given, or defaults. -/
def Parts.start : Ctor σ → Parts σ
  | .default => ⟨none, default, []⟩
  | .ofState c s => ⟨c, s, []⟩

/-- The memento is built without undefined behaviour and shows its parts. -/
def Separate (b : Ctor σ) (ops : List (Op σ)) : Prop :=
  ∃ m, Machine.run apply b.build ops = .ok m ∧ m.Shows (ops.foldl Parts.apply (.start b))

/-- The constructor or the first call puts a pair of the memento's own in front. -/
def SetsHead : Ctor σ → List (Op σ) → Prop
  | .ofState _ _, _ => True
  | .default, .assign _ :: _ => True
  | .default, .command _ :: _ => True
  | .default, _ => False

/-- Each call changes its part of the memento and leaves the others. -/
theorem shows_apply (h : m.Shows v) : ∃ m', m.apply op = .ok m' ∧ m'.Shows (v.apply op) := by
  simp only [shows_iff] at h ⊢
  obtain ⟨pairs⟩ := m
  cases h
  cases op with
  | addState c s => exact ⟨_, rfl, rfl⟩
  | emplaceBack c s => exact ⟨_, rfl, rfl⟩
  | assign s => exact ⟨_, rfl, rfl⟩
  | command c => exact ⟨_, rfl, rfl⟩
  | setState s => exact ⟨_, rfl, rfl⟩

/-- No call makes up for a first pair that was never there. -/
theorem LacksHead.apply (h : m.LacksHead v) :
    ∃ m', m.apply op = .ok m' ∧ m'.LacksHead (v.apply op) := by
  obtain ⟨pairs⟩ := m
  obtain ⟨hne, hlen⟩ := h
  cases pairs with
  | nil => exact absurd rfl hne
  | cons p ps =>
    have hgrown : ∀ c s, ((p :: ps) ++ [(c, s)]).length = (v.children ++ [(c, s)]).length := by
      intro c s
      rw [List.length_append, List.length_append, hlen]
    cases op with
    | addState c s => exact ⟨_, rfl, List.cons_ne_nil _ _, hgrown c s⟩
    | emplaceBack c s => exact ⟨_, rfl, List.cons_ne_nil _ _, hgrown c s⟩
    | assign s => exact ⟨_, rfl, List.cons_ne_nil _ _, hlen⟩
    | command c => exact ⟨_, rfl, List.cons_ne_nil _ _, hlen⟩
    | setState s => exact ⟨_, rfl, List.cons_ne_nil _ _, hlen⟩

theorem run_shows (h : m.Shows v) (ops : List (Op σ)) :
    ∃ m', Machine.run apply m ops = .ok m' ∧ m'.Shows (ops.foldl Parts.apply v) :=
  Machine.run_follows (fun _ _ _ hs => shows_apply hs) h

theorem run_lacksHead (h : m.LacksHead v) (ops : List (Op σ)) :
    ¬ ∃ m', Machine.run apply m ops = .ok m' ∧ m'.Shows (ops.foldl Parts.apply v) := by
  rintro ⟨m', hm, hs⟩
  obtain ⟨u, hu, hl⟩ : ∃ u, Machine.run apply m ops = .ok u ∧
      u.LacksHead (ops.foldl Parts.apply v) :=
    Machine.run_follows (fun _ _ _ hl => LacksHead.apply hl) h
  cases hm.symm.trans hu
  exact hl.not_shows hs

/-- A memento keeps itself apart from its children exactly when its own pair comes first: from
`state_t()`, by `command(c)` or `operator=` before anything else. -/
theorem separate_iff (b : Ctor σ) (ops : List (Op σ)) : Separate b ops ↔ SetsHead b ops := by
  cases b with
  | ofState c s =>
    have hs : Shows (.ofState c s) ⟨c, s, []⟩ := ⟨rfl, rfl, rfl, rfl⟩
    have hrun := run_shows hs ops
    exact iff_of_true hrun trivial
  | default =>
    cases ops with
    | nil =>
      refine iff_of_false ?_ id
      rintro ⟨m, hm, hs⟩
      cases hm
      cases hs.command
    | cons op ops =>
      cases op with
      | assign s =>
        have hs : Shows ⟨[(none, s)]⟩ ⟨none, s, []⟩ := ⟨rfl, rfl, rfl, rfl⟩
        have hrun := run_shows hs ops
        exact iff_of_true hrun trivial
      | command c =>
        have hs : Shows ⟨[(c, (default : σ))]⟩ ⟨c, default, []⟩ := ⟨rfl, rfl, rfl, rfl⟩
        have hrun := run_shows hs ops
        exact iff_of_true hrun trivial
      | addState c s =>
        have hl : LacksHead ⟨[(c, s)]⟩ ⟨none, default, [(c, s)]⟩ :=
          ⟨List.cons_ne_nil _ _, rfl⟩
        have hrun := run_lacksHead hl ops
        exact iff_of_false hrun id
      | emplaceBack c s =>
        have hl : LacksHead ⟨[(c, s)]⟩ ⟨none, default, [(c, s)]⟩ :=
          ⟨List.cons_ne_nil _ _, rfl⟩
        have hrun := run_lacksHead hl ops
        exact iff_of_false hrun id
      | setState s =>
        refine iff_of_false ?_ id
        rintro ⟨m, hm, -⟩
        cases hm

/-- A memento that starts empty takes its first child for itself, and one that stays empty cannot
be printed. -/
theorem first_child_taken_for_head :
    (∃ m : Memento ℤ, Machine.run apply empty [.addState (some 1) 5] = .ok m ∧
        m.command = .ok (some 1) ∧ m.forEachChildren = .ok []) ∧
      (empty : Memento ℤ).print = .error .emptyContainer ∧
      ¬ Separate (.default : Ctor ℤ) [.addState (some 1) 5] ∧
      ¬ Separate (.default : Ctor ℤ) [] := by
  refine ⟨⟨_, rfl, rfl, rfl⟩, rfl, ?_, ?_⟩
  · rintro ⟨m, hm, hs⟩
    cases hm
    cases hs.children
  · rintro ⟨m, hm, hs⟩
    cases hm
    cases hs.print

end Memento

end UndoCxx
