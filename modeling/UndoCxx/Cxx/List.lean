import Mathlib.Data.List.Nodup
import UndoCxx.Machine
import UndoCxx.Cxx.Int

/-!
`std::list` with node identities. An iterator is the identity of a node or the
end; it is dangling as soon as its node has left the list, and every operation
that takes an iterator fails on a dangling one.
-/
namespace Cxx

/-- A list node: its identity is never used again, its value is the element. -/
structure Node (α : Type) where
  id : ℕ
  val : α
  deriving DecidableEq, Repr

structure StdList (α : Type) where
  nodes : List (Node α)
  /-- The identity of the next node to be allocated. -/
  fresh : ℕ
  nodup : (nodes.map Node.id).Nodup
  below : ∀ n ∈ nodes, n.id < fresh

inductive Iter
  | node (id : ℕ)
  | pastEnd
  deriving DecidableEq, Repr

/-- What stepping over the end sentinel does: undefined by the standard, while
in a circular implementation `--begin()` is `end()` and `++end()` is `begin()`. -/
inductive Sentinel
  | standard
  | cyclic
  deriving DecidableEq, Repr

/-- The iterator to the first node of a suffix of the list. -/
def Iter.toHead {α : Type} : List (Node α) → Iter
  | [] => .pastEnd
  | n :: _ => .node n.id

namespace StdList

variable {α : Type} {l : StdList α} {xs ys : List (Node α)} {n : Node α} {it : Iter}
  {sem : Sentinel}

/-- The proofs aside, a list is its nodes and its next identity. -/
@[ext] theorem ext {l l' : StdList α} (hn : l.nodes = l'.nodes) (hf : l.fresh = l'.fresh) :
    l = l' := by
  cases l
  cases l'
  cases hn
  cases hf
  rfl

instance [DecidableEq α] : DecidableEq (StdList α) := fun l l' =>
  decidable_of_iff (l.nodes = l'.nodes ∧ l.fresh = l'.fresh)
    ⟨fun h => ext h.1 h.2, fun h => ⟨congrArg _ h, congrArg _ h⟩⟩

def nil : StdList α := ⟨[], 0, by simp, by simp⟩

/-- Keep only some of the nodes, in their order. -/
def keep (l : StdList α) (ns : List (Node α)) (h : ns.Sublist l.nodes) : StdList α where
  nodes := ns
  fresh := l.fresh
  nodup := l.nodup.sublist (h.map _)
  below n hn := l.below n (h.subset hn)

def values (l : StdList α) : List α := l.nodes.map Node.val

def size (l : StdList α) : ℕ := l.nodes.length

def empty (l : StdList α) : Bool := l.nodes.isEmpty

/-- The place of an iterator in the list, counted from `begin()`. -/
def locate (l : StdList α) : Iter → Except UB ℕ
  | .pastEnd => .ok l.size
  | .node id =>
    match l.nodes.findIdx? fun n => n.id == id with
    | some i => .ok i
    | none => .error .staleIterator

def iterAt (l : StdList α) (i : ℕ) : Iter := Iter.toHead (l.nodes.drop i)

def begin (l : StdList α) : Iter := l.iterAt 0

/-- `a == b` -/
def eq (l : StdList α) (a b : Iter) : Except UB Bool := do
  return (← l.locate a) == (← l.locate b)

/-- `*it` -/
def deref (l : StdList α) (it : Iter) : Except UB α := do
  match l.nodes[← l.locate it]? with
  | some n => return n.val
  | none => .error .dereferenceEnd

/-- `--it` -/
def prev (sem : Sentinel) (l : StdList α) (it : Iter) : Except UB Iter := do
  match ← l.locate it with
  | i + 1 => return l.iterAt i
  | 0 =>
    match sem with
    | .standard => .error .decrementBegin
    | .cyclic => return .pastEnd

/-- `++it` -/
def next (sem : Sentinel) (l : StdList α) (it : Iter) : Except UB Iter := do
  let i ← l.locate it
  if i < l.size then return l.iterAt (i + 1)
  match sem with
  | .standard => .error .incrementEnd
  | .cyclic => return l.begin

def repeatStep (f : Iter → Except UB Iter) : ℕ → Iter → Except UB Iter
  | 0, it => .ok it
  | k + 1, it => do repeatStep f k (← f it)

/-- `std::advance(it, k)` -/
def advance (sem : Sentinel) (l : StdList α) (it : Iter) : ℤ → Except UB Iter
  | .ofNat k => repeatStep (l.next sem) k it
  | .negSucc k => repeatStep (l.prev sem) (k + 1) it

/-- `std::distance(first, last)` -/
def distance (l : StdList α) (first last : Iter) : Except UB ℕ := do
  let i ← l.locate first
  let j ← l.locate last
  if i ≤ j then return j - i
  .error .unreachableLast

def back (l : StdList α) : Except UB α :=
  match l.nodes.getLast? with
  | some n => .ok n.val
  | none => .error .emptyContainer

/-- `erase(it)` -/
def erase (l : StdList α) (it : Iter) : Except UB (StdList α) := do
  let i ← l.locate it
  if i < l.size then return l.keep (l.nodes.eraseIdx i) (List.eraseIdx_sublist ..)
  .error .eraseEnd

theorem take_drop_sublist {i j : ℕ} (h : i ≤ j) : (xs.take i ++ xs.drop j).Sublist xs := by
  calc (xs.take i ++ xs.drop j).Sublist (xs.take i ++ xs.drop i) :=
        List.Sublist.append_left (List.drop_sublist_drop_left _ h) _
    _ = xs := List.take_append_drop i xs

/-- `erase(first, last)` -/
def eraseRange (l : StdList α) (first last : Iter) : Except UB (StdList α) := do
  let i ← l.locate first
  let j ← l.locate last
  if h : i ≤ j then return l.keep (l.nodes.take i ++ l.nodes.drop j) (take_drop_sublist h)
  .error .unreachableLast

def popFront (l : StdList α) : Except UB (StdList α) :=
  if l.empty then .error .emptyContainer else .ok (l.keep l.nodes.tail (List.tail_sublist _))

/-- A new identity is none of the old ones. -/
theorem nodup_concat (l : StdList α) (v : α) :
    ((l.nodes ++ [(⟨l.fresh, v⟩ : Node α)]).map Node.id).Nodup := by
  have hf : l.fresh ∉ l.nodes.map Node.id := by
    intro h
    obtain ⟨n, hn, he⟩ := List.mem_map.mp h
    have := l.below n hn
    omega
  rw [List.map_append]
  exact l.nodup.append (List.nodup_singleton _) (by simpa using hf)

theorem below_concat (l : StdList α) (v : α) :
    ∀ n ∈ l.nodes ++ [(⟨l.fresh, v⟩ : Node α)], n.id < l.fresh + 1 := by
  intro n hn
  rcases List.mem_append.mp hn with hn | hn
  · exact Nat.lt_succ_of_lt (l.below n hn)
  · rw [List.mem_singleton] at hn
    subst n
    exact Nat.lt_succ_self _

/-- `emplace_back`, with its strong guarantee when the node cannot be allocated. -/
def emplaceBack (l : StdList α) (oom : Bool) (v : α) : Except Exn (StdList α) :=
  if oom then .error .badAlloc else
    .ok ⟨l.nodes ++ [⟨l.fresh, v⟩], l.fresh + 1, l.nodup_concat v, l.below_concat v⟩

def clear (l : StdList α) : StdList α := l.keep [] (List.nil_sublist _)

/-- The iterator designates the end or a node that is in the list. -/
def Live (l : StdList α) (it : Iter) : Prop := ∃ i, l.locate it = .ok i

/-! What each operation does to a list that is split at the iterator. -/

/-- The nodes before a node have other identities. -/
theorem id_ne_of_split (h : l.nodes = xs ++ n :: ys) {m : Node α} (hm : m ∈ xs) :
    m.id ≠ n.id := by
  have hd := l.nodup
  simp only [h, List.map_append, List.map_cons, List.nodup_append] at hd
  exact hd.2.2 m.id (List.mem_map_of_mem hm) n.id (by simp)

@[simp] theorem locate_pastEnd : l.locate .pastEnd = .ok l.size := rfl

/-- An iterator to what follows stands behind what precedes. -/
theorem locate_toHead (h : l.nodes = xs ++ ys) : l.locate (.toHead ys) = .ok xs.length := by
  cases ys with
  | nil => simp [Iter.toHead, size, h]
  | cons n ys =>
    have hx : xs.findIdx? (fun m => m.id == n.id) = none := by
      rw [List.findIdx?_eq_none_iff]
      intro m hm
      simpa using id_ne_of_split h hm
    simp [Iter.toHead, locate, h, List.findIdx?_append, List.findIdx?_cons, hx]

theorem locate_node (h : l.nodes = xs ++ n :: ys) : l.locate (.node n.id) = .ok xs.length :=
  locate_toHead h

/-- The identity of a node that is gone designates nothing. -/
theorem locate_absent {i : ℕ} (h : ∀ n ∈ l.nodes, n.id ≠ i) :
    l.locate (.node i) = .error .staleIterator := by
  have hnone : l.nodes.findIdx? (fun n => n.id == i) = none := by
    rw [List.findIdx?_eq_none_iff]
    intro n hn
    simpa using h n hn
  simp only [locate, hnone]

theorem live_toHead (h : l.nodes = xs ++ ys) : l.Live (.toHead ys) := ⟨_, locate_toHead h⟩

theorem locate_iterAt {i : ℕ} (hi : i ≤ l.size) : l.locate (l.iterAt i) = .ok i := by
  rw [iterAt, locate_toHead (List.take_append_drop i l.nodes).symm, List.length_take]
  exact congrArg _ (Nat.min_eq_left hi)

theorem locate_begin : l.locate l.begin = .ok 0 := locate_iterAt (Nat.zero_le _)

/-- No iterator lies beyond `end()`. -/
theorem locate_le {i : ℕ} (h : l.locate it = .ok i) : i ≤ l.size := by
  cases it with
  | pastEnd => cases h; exact Nat.le_refl _
  | node id =>
    simp only [locate] at h
    split at h
    · next j hj =>
      cases h
      exact Nat.le_of_lt (List.findIdx?_eq_some_iff_getElem.mp hj).1
    · cases h

/-- A live iterator is determined by its place. -/
theorem iterAt_of_locate {i : ℕ} (h : l.locate it = .ok i) : l.iterAt i = it := by
  cases it with
  | pastEnd => cases h; simp [iterAt, size, Iter.toHead]
  | node id =>
    simp only [locate] at h
    split at h
    · next j hj =>
      cases h
      obtain ⟨hlt, hid, -⟩ := List.findIdx?_eq_some_iff_getElem.mp hj
      rw [iterAt, List.drop_eq_getElem_cons hlt]
      simpa [Iter.toHead] using hid
    · cases h

theorem eq_begin (h : l.nodes = xs ++ ys) : l.eq (.toHead ys) l.begin = .ok xs.isEmpty := by
  cases xs <;> simp [eq, locate_toHead h, locate_begin]

theorem eq_pastEnd (h : l.nodes = xs ++ ys) : l.eq (.toHead ys) .pastEnd = .ok ys.isEmpty := by
  cases ys <;> simp [eq, locate_toHead h, size, h]

theorem distance_begin (h : l.nodes = xs ++ ys) :
    l.distance l.begin (.toHead ys) = .ok xs.length := by
  simp [distance, locate_toHead h, locate_begin]

theorem deref_node (h : l.nodes = xs ++ n :: ys) : l.deref (.node n.id) = .ok n.val := by
  simp [deref, locate_node h, h]

/-- Stepping back is defined everywhere but at `begin()`. -/
theorem prev_of_locate {i : ℕ} (hl : l.locate it = .ok (i + 1)) :
    l.prev sem it = .ok (l.iterAt i) := by
  simp [prev, hl]

theorem prev_split (h : l.nodes = xs ++ n :: ys) :
    l.prev sem (.toHead ys) = .ok (.node n.id) := by
  have hs : l.nodes = (xs ++ [n]) ++ ys := by simp [h]
  have hl : l.locate (.toHead ys) = .ok (xs.length + 1) := by simpa using locate_toHead hs
  rw [prev_of_locate hl]
  simp [iterAt, h, Iter.toHead]

/-- Only here do the two readings of the sentinel differ for `--it`. -/
theorem prev_begin (h : l.nodes = ys) : l.prev sem (.toHead ys) =
    match sem with
    | .standard => .error .decrementBegin
    | .cyclic => .ok .pastEnd := by
  have hs : l.nodes = [] ++ ys := h
  have hl : l.locate (.toHead ys) = .ok 0 := locate_toHead hs
  cases sem <;> simp [prev, hl]

/-- Stepping forward is defined everywhere but at `end()`. -/
theorem next_of_locate {i : ℕ} (hl : l.locate it = .ok i) (hi : i < l.size) :
    l.next sem it = .ok (l.iterAt (i + 1)) := by
  simp [next, hl, hi]

theorem next_split (h : l.nodes = xs ++ n :: ys) :
    l.next sem (.node n.id) = .ok (.toHead ys) := by
  rw [next_of_locate (locate_node h) (by simp [size, h])]
  simp [iterAt, h]

/-- The list of libstdc++ is circular, the standard promises nothing. -/
theorem next_pastEnd : l.next sem .pastEnd =
    match sem with
    | .standard => .error .incrementEnd
    | .cyclic => .ok (.toHead l.nodes) := by
  cases sem <;> simp [next, begin, iterAt]

/-- Only the designated node goes; iterators to the others stay good. -/
theorem erase_split (h : l.nodes = xs ++ n :: ys) :
    l.erase (.node n.id) = .ok (l.keep (xs ++ ys) (by simp [h])) := by
  have hi : xs.length < l.size := by simp [size, h]
  simp only [erase, locate_node h, Machine.ok_bind, hi, if_true, Machine.pure_eq_ok]
  refine congrArg _ (ext ?_ rfl)
  simp [keep, h, List.eraseIdx_append_of_length_le]

theorem eraseRange_split (h : l.nodes = xs ++ ys) :
    l.eraseRange (.toHead ys) .pastEnd = .ok (l.keep xs (by simp [h])) := by
  have hi : xs.length ≤ l.size := by simp [size, h]
  simp only [eraseRange, locate_toHead h, locate_pastEnd, Machine.ok_bind, hi, dite_true,
    Machine.pure_eq_ok]
  refine congrArg _ (ext ?_ rfl)
  simp [keep, h, size]

/-! `std::advance` -/

/-- Steps forward that stay within the list. -/
theorem repeat_next {i k : ℕ} (hl : l.locate it = .ok i) (hk : i + k ≤ l.size) :
    repeatStep (l.next sem) k it = .ok (l.iterAt (i + k)) := by
  induction k generalizing i it with
  | zero => exact congrArg _ (iterAt_of_locate hl).symm
  | succ k ih =>
    simp only [repeatStep, next_of_locate hl (by omega), Machine.ok_bind]
    rw [ih (locate_iterAt (by omega)) (by omega), Nat.add_right_comm, Nat.add_assoc]

theorem repeat_prev {i k : ℕ} (hl : l.locate it = .ok i) (hk : k ≤ i) :
    repeatStep (l.prev sem) k it = .ok (l.iterAt (i - k)) := by
  induction k generalizing i it with
  | zero => exact congrArg _ (iterAt_of_locate hl).symm
  | succ k ih =>
    obtain ⟨j, rfl⟩ : ∃ j, i = j + 1 := ⟨i - 1, by omega⟩
    have := locate_le hl
    simp only [repeatStep, prev_of_locate hl, Machine.ok_bind]
    rw [ih (locate_iterAt (by omega)) (by omega), Nat.add_sub_add_right]

/-- Inside the list both readings of the sentinel agree. -/
theorem advance_inside {i : ℕ} {k : ℤ} (hl : l.locate it = .ok i) (h0 : 0 ≤ i + k)
    (h1 : i + k ≤ l.size) : ∃ it', l.advance sem it k = .ok it' := by
  cases k with
  | ofNat k => exact ⟨_, repeat_next hl (by simpa using Int.ofNat_le.mp h1)⟩
  | negSucc k => exact ⟨_, repeat_prev hl (by omega)⟩

/-- By the standard no iterator is advanced beyond `end()`. -/
theorem advance_beyond {i : ℕ} {k : ℤ} (hl : l.locate it = .ok i) (h : l.size < i + k) :
    l.advance .standard it k = .error .incrementEnd := by
  have hi := locate_le hl
  obtain ⟨j, rfl⟩ : ∃ j : ℕ, k = j := ⟨k.toNat, by omega⟩
  have hj : l.size < i + j := by omega
  clear h
  change repeatStep (l.next .standard) j it = _
  induction j generalizing i it with
  | zero => omega
  | succ j ih =>
    by_cases hlt : i < l.size
    · simp only [repeatStep, next_of_locate hl hlt, Machine.ok_bind]
      exact ih (locate_iterAt (by omega)) (by omega) (by omega)
    · simp [repeatStep, next, hl, hlt]

theorem live_iterAt (i : ℕ) : l.Live (l.iterAt i) :=
  live_toHead (List.take_append_drop i l.nodes).symm

/-- A step that keeps iterators live may be repeated. -/
theorem repeatStep_live {f : Iter → Except UB Iter}
    (hf : ∀ it, l.Live it → ∃ it', f it = .ok it' ∧ l.Live it') (k : ℕ) (hl : l.Live it) :
    ∃ it', repeatStep f k it = .ok it' := by
  induction k generalizing it with
  | zero => exact ⟨it, rfl⟩
  | succ k ih =>
    obtain ⟨it', he, hl'⟩ := hf it hl
    obtain ⟨it'', he'⟩ := ih hl'
    exact ⟨it'', by simp [repeatStep, he, he']⟩

/-- In a circular list no step is undefined. -/
theorem advance_cyclic (hl : l.Live it) (k : ℤ) : ∃ it', l.advance .cyclic it k = .ok it' := by
  have hnext : ∀ it, l.Live it → ∃ it', l.next .cyclic it = .ok it' ∧ l.Live it' := by
    rintro it ⟨i, hi⟩
    by_cases hlt : i < l.size
    · exact ⟨_, next_of_locate hi hlt, live_iterAt _⟩
    · exact ⟨l.begin, by simp [next, hi, hlt], live_iterAt _⟩
  have hprev : ∀ it, l.Live it → ∃ it', l.prev .cyclic it = .ok it' ∧ l.Live it' := by
    rintro it ⟨i, hi⟩
    cases i with
    | zero => exact ⟨.pastEnd, by simp [prev, hi], _, rfl⟩
    | succ i => exact ⟨_, prev_of_locate hi, live_iterAt _⟩
  cases k with
  | ofNat k => exact repeatStep_live hnext k hl
  | negSucc k => exact repeatStep_live hprev (k + 1) hl

end StdList

end Cxx
