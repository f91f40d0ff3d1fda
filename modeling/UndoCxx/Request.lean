import Mathlib.Data.List.Perm.Subperm
import UndoCxx.HistoryBatch

/-! What the public calls ask of the history, and what each request can do to it. -/
namespace UndoCxx

open Cxx

inductive Request (μ : Type)
  | nothing
  | record (m : μ)
  | move (dir : Direction)
  | batch (dir : Direction) (delta : ℤ)
  | erase (n : ℤ)
  | clear
  | limit (n : ℕ)

namespace Request

variable {μ : Type}

@[match_pattern] abbrev undo : Request μ := .move .back

@[match_pattern] abbrev redo : Request μ := .move .forth

@[match_pattern] abbrev undoBy (delta : ℤ) : Request μ := .batch .back delta

@[match_pattern] abbrev redoBy (delta : ℤ) : Request μ := .batch .forth delta

/-- How many mementos a request records. -/
def recordings : Request μ → ℕ
  | .record _ => 1
  | _ => 0

end Request

namespace History

variable {μ : Type} {h h' : History μ} {r : Request μ} {sem : Sentinel} {d n : ℤ} {k : ℕ}
  {dir : Direction}

def handle (sem : Sentinel) (h : History μ) : Request μ → Except UB (History μ)
  | .nothing => .ok h
  | .record m => if h.CanRecord then .ok (h.record m) else .error .emptyContainer
  | .move dir => .ok (h.move dir)
  | .batch dir delta => h.batch dir sem delta
  | .erase n => h.erase sem n
  | .clear => .ok h.clear
  | .limit n => .ok (h.setLimit n)

/-- The changes that a request can make to a history. -/
inductive Change (h : History μ) : Request μ → History μ → Prop
  | nothing : Change h .nothing h
  | record (m : μ) (hc : h.CanRecord) : Change h (.record m) (h.record m)
  | move (dir : Direction) : Change h (.move dir) (h.move dir)
  | batch (dir : Direction) (d : ℤ) :
    Change h (.batch dir d) ((History.move dir)^[batchCount dir h.pos h.size d] h)
  | erase (n : ℤ) (k : ℕ) : Change h (.erase n) (h.drop k)
  | clear : Change h .clear h.clear
  | limit (n : ℕ) : Change h (.limit n) (h.setLimit n)

/-- A batch that is defined takes the steps that its guard lets it take. -/
theorem batch_eq (hb : h.batch dir sem d = .ok h') :
    h' = (move dir)^[batchCount dir h.pos h.size d] h := by
  obtain ⟨n, hn, rfl⟩ := Machine.map_eq_ok.mp hb
  rw [batchSteps_eq_ok hn]

/-- A request that returns has made one of the changes above. -/
theorem change_of_handle (hh : h.handle sem r = .ok h') : Change h r h' := by
  cases r with
  | nothing => cases hh; exact .nothing
  | record m =>
    rw [handle] at hh
    split at hh
    · next hc => cases hh; exact .record m hc
    · cases hh
  | move dir => cases hh; exact .move dir
  | batch dir d =>
    rw [batch_eq hh]
    exact .batch dir d
  | erase n =>
    obtain ⟨k, -, rfl⟩ := Machine.map_eq_ok.mp hh
    exact .erase n k
  | clear => cases hh; exact .clear
  | limit n => cases hh; exact .limit n

theorem Change.record_eq {m : μ} (hc : Change h (.record m) h') :
    h.CanRecord ∧ h' = h.record m := by
  cases hc with
  | record _ hc => exact ⟨hc, rfl⟩

theorem Change.batch_eq (hc : Change h (.batch dir d) h') :
    h' = (History.move dir)^[batchCount dir h.pos h.size d] h := by
  cases hc
  rfl

/-! Requests within the documented bounds -/

/-- No arithmetic of the request overflows, its count is not negative, its limit not zero. -/
def Legal (h : History μ) : Request μ → Prop
  | .batch dir d => FitsInt h.pos ∧ FitsInt (h.pos + shift dir d)
  | .erase n => 0 ≤ n
  | .limit n => 1 ≤ n
  | _ => True

/-- The history after a legal request. -/
def after (h : History μ) : Request μ → History μ
  | .nothing => h
  | .record m => h.record m
  | .move dir => h.move dir
  | .undoBy d => if d < h.pos then History.undo^[d.toNat] h else h
  | .redoBy d => if h.pos + d ≤ h.size then History.redo^[d.toNat] h else h
  | .erase n => h.drop n.toNat
  | .clear => h.clear
  | .limit n => h.setLimit n

/-- Where the arithmetic is exact, a batch is defined and its guard means what it says. -/
theorem batch_exact (hp : FitsInt h.pos) (hd : FitsInt (h.pos + shift dir d)) :
    h.batch dir sem d = .ok (h.after (.batch dir d)) := by
  cases dir with
  | back => exact undoBy_exact hp (add_shift_back _ _ ▸ hd)
  | forth => exact redoBy_exact hp hd

/-- A legal request is undefined only when it erases at the oldest entry of a plain list. -/
theorem handle_legal (hr : h.Legal r) (hl : 0 < h.limit)
    (hc : ∀ n, r = .erase n → h.CanErase sem) : h.handle sem r = .ok (h.after r) := by
  cases r with
  | record m => exact if_pos (Or.inl hl)
  | batch dir d => exact batch_exact hr.1 hr.2
  | erase n => exact erase_of_nonneg hr (hc n rfl)
  | nothing | move | clear | limit => rfl

theorem eq_after (hr : h.Legal r) (hl : 0 < h.limit) (hh : h.handle sem r = .ok h') :
    h' = h.after r := by
  by_cases hc : ∀ n, r = .erase n → h.CanErase sem
  · rw [handle_legal hr hl hc] at hh
    cases hh
    rfl
  · obtain ⟨n, rfl, he⟩ : ∃ n, r = .erase n ∧ ¬ h.CanErase sem := by simpa using hc
    by_cases hn : n = 0
    · subst n
      have hstop : h.handle sem (.erase 0) = .ok h := rfl
      rw [hstop] at hh
      cases hh
      exact (drop_zero h).symm
    · have hpos : 0 < n := lt_of_le_of_ne hr (Ne.symm hn)
      have herr : h.handle sem (.erase n) = .error .decrementBegin := erase_error hpos he
      rw [herr] at hh
      cases hh

/-- What the single step keeps, a batch keeps, whether or not its guard lets it pass. -/
theorem keeps_batch {β : Type} {f : History μ → β} (hf : f ∘ History.move dir = f) (h : History μ)
    (d : ℤ) : f (h.after (.batch dir d)) = f h := by
  have hiter : ∀ k, f ((History.move dir)^[k] h) = f h :=
    fun k => congrFun (Function.iterate_invariant hf k) h
  cases dir with
  | back =>
    rw [after]
    split
    · exact hiter _
    · rfl
  | forth =>
    rw [after]
    split
    · exact hiter _
    · rfl

theorem size_move (dir : Direction) (h : History μ) : (h.move dir).size = h.size :=
  size_iterate_move dir 1 h

theorem size_batch (h : History μ) (dir : Direction) (d : ℤ) :
    (h.after (.batch dir d)).size = h.size :=
  keeps_batch (f := size) (funext (size_move dir)) h d

/-- Every node has been counted. -/
theorem size_le_serial (h : History μ) : h.size ≤ h.serial := by
  have hids : h.stack.entries.map Node.id ⊆ List.range h.serial := by
    intro i hi
    obtain ⟨n, hn, rfl⟩ := List.mem_map.mp hi
    exact List.mem_range.mpr (h.below n hn)
  have hle := (List.subperm_of_subset h.nodup hids).length_le
  rwa [List.length_map, List.length_range] at hle

theorem serial_after (h : History μ) (r : Request μ) :
    (h.after r).serial = h.serial + r.recordings := by
  cases r with
  | move dir => cases dir <;> rfl
  | batch dir d => exact keeps_batch (f := serial) (by cases dir <;> rfl) h d
  | nothing | record | erase | clear | limit => rfl

theorem limit_after (hr : ∀ n, r ≠ .limit n) : (h.after r).limit = h.limit := by
  cases r with
  | limit n => exact absurd rfl (hr n)
  | move dir => cases dir <;> rfl
  | batch dir d => exact keeps_batch (f := limit) (by cases dir <;> rfl) h d
  | nothing | record | erase | clear => rfl

theorem limit_pos_after (hr : h.Legal r) (hl : 0 < h.limit) : 0 < (h.after r).limit := by
  by_cases hlim : ∃ n, r = .limit n
  · obtain ⟨n, rfl⟩ := hlim
    exact hr
  · rw [limit_after fun n he => hlim ⟨n, he⟩]
    exact hl

end History

end UndoCxx
