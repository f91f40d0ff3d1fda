import UndoCxx.Journal
import UndoCxx.Reentrant

/-! Code that asks for too little to meet undefined behaviour, however its commands nest. -/
namespace UndoCxx

open Cxx

variable {A μ τ α σ : Type} {print : μ → Except UB τ}

/-- The question has an answer in every state. -/
def Query.Total : Query μ α → Prop
  | .focusedItem => False
  | .newestItem => False
  | _ => True

/-- All that the code can ever call meets `P`, and all that it asks has an answer. The manager
never calls an `undo_impl` or a `redo_impl`, so nothing is asked of these. -/
def Client.Only (P : Direct → Prop) {α : Type} : Client A μ α → Prop
  | .pure _ => True
  | .bind x f => x.Only P ∧ ∀ a, (f a).Only P
  | .throw _ => True
  | .tryCatch x handler => x.Only P ∧ ∀ e, (handler e).Only P
  | .app _ => True
  | .query q => q.Total
  | .direct d => P d
  | .callback _ body => body.Only P
  | .invoke _ _ doExecute saveStateImpl _ _ => doExecute.Only P ∧ saveStateImpl.Only P

namespace Backend

/-- Every service that may be asked for ends, and in `I` again, or fails in a way that `F`
allows. -/
structure Keeps (F : UB → Prop) (I : σ → Prop) (P : Direct → Prop) (b : Backend A μ σ) :
    Prop where
  app {α : Type} (x : App A α) : Effect.Ends F I (b.app x)
  query {α : Type} (q : Query μ α) (hq : q.Total) : Effect.Ends F I (b.query q)
  direct (d : Direct) (hd : P d) : Effect.Ends F I (b.direct d)
  log (k : Callback μ) : Effect.Ends F I (b.log k)
  push (m : μ) : Effect.Ends F I (b.push m)

/-- A promise about every primitive becomes one about every client, by the rules for sequences and
handlers. -/
theorem Keeps.run {F : UB → Prop} {I : σ → Prop} {P : Direct → Prop} {b : Backend A μ σ}
    (h : b.Keeps F I P) {x : Client A μ α} (hx : x.Only P) : Effect.Ends F I (x.run b) := by
  induction x with
  | pure a => exact .pure a
  | throw e => exact .throw e
  | bind x f ihx ihf => exact (ihx hx.1).bind fun a => ihf a (hx.2 a)
  | tryCatch x handler ihx ihh => exact (ihx hx.1).tryCatch fun e => ihh e (hx.2 e)
  | app x => exact h.app x
  | query q => exact h.query q hx
  | direct d => exact h.direct d hx
  | callback k body ih => exact (h.log k).bind fun _ => ih hx
  | invoke c canBeMemento doExecute saveStateImpl undoImpl redoImpl ihx ihs =>
    refine (h.log _).bind fun _ => (ihx hx.1).bind fun _ => ?_
    cases canBeMemento with
    | false => exact .pure ()
    | true => exact (h.log _).bind fun _ => (ihs hx.2).bind h.push

end Backend

/-- The arguments fit a manager of at most `N` mementos; where stepping back over `begin()` is
undefined, there is no single undo step to lead there. -/
def Direct.Fits (sem : Sentinel) (N : ℕ) : Direct → Prop
  | .undo _ => sem = .cyclic
  | .undoBy _ delta => N - intMax ≤ delta ∧ delta ≤ intMax
  | .redoBy _ delta => intMin ≤ delta ∧ delta ≤ intMax - N
  | .erase n => 0 ≤ n
  | .maxSize n => 1 ≤ n ∧ n ≤ N
  | _ => True

namespace History

variable {h : History μ} {sem : Sentinel} {N : ℕ} {d : Direct} {m : μ}

/-- At most `N` mementos, now and later, and none to erase with the cursor at `begin()`. -/
structure Roomy (sem : Sentinel) (N : ℕ) (h : History μ) : Prop where
  limit_pos : 0 < h.limit
  limit_le : h.limit ≤ N
  size_le : h.size ≤ N
  anchored : sem = .cyclic ∨ h.Anchored

/-- Below the limit a recording may add one, at the limit it may not. -/
theorem size_record (m : μ) (h : History μ) (hl : 0 < h.limit) :
    (h.record m).size ≤ max h.size h.limit := by
  have hlen : (h.record m).size = (h.record m).stack.past.length := by
    rw [size_eq]
    rfl
  have hle := h.pos_le_size
  rw [hlen, show (h.record m).stack = h.stack.record h.limit ⟨h.serial, m⟩ from rfl,
    TwoStack.length_past_record]
  rw [pos] at hle
  split <;> omega

/-- A recording stays within the bound, since the limit does. -/
theorem Roomy.record (hr : h.Roomy sem N) (m : μ) : (h.record m).Roomy sem N where
  limit_pos := hr.limit_pos
  limit_le := hr.limit_le
  size_le := (size_record m h hr.limit_pos).trans (max_le hr.size_le hr.limit_le)
  anchored := Or.inr (anchored_of_pos (Nat.succ_pos _))

/-- A history within the bound has its positions in `int`, as do the batches that fit. -/
theorem Roomy.legal (hr : h.Roomy sem N) (hN : (N : ℤ) ≤ intMax) (hd : d.Fits sem N) :
    h.Legal (d.request : Request μ) := by
  have hpos : h.pos ≤ N := h.pos_le_size.trans hr.size_le
  have hfit : FitsInt h.pos := by
    constructor <;> simp only [intMin, intMax] at * <;> omega
  cases d with
  | undoBy c delta =>
    obtain ⟨hlo, hhi⟩ := hd
    refine ⟨hfit, ?_, ?_⟩ <;> simp only [shift, intMin, intMax] at * <;> omega
  | redoBy c delta =>
    obtain ⟨hlo, hhi⟩ := hd
    refine ⟨hfit, ?_, ?_⟩ <;> simp only [shift, intMin, intMax] at * <;> omega
  | erase n => exact hd
  | maxSize n => exact hd.1
  | undo | redo | clear => trivial

theorem size_after_direct (h : History μ) (d : Direct) : (h.after d.request).size ≤ h.size := by
  cases d with
  | undo c => exact (size_move .back h).le
  | redo c => exact (size_move .forth h).le
  | undoBy c delta => exact (size_batch h .back delta).le
  | redoBy c delta => exact (size_batch h .forth delta).le
  | erase n => exact (h.stack.entries_erase_sublist n.toNat).length_le
  | clear => exact Nat.zero_le _
  | maxSize n => exact le_rfl

theorem Roomy.limit_after (hr : h.Roomy sem N) (hd : d.Fits sem N) :
    0 < (h.after d.request).limit ∧ (h.after d.request).limit ≤ N := by
  have hsame : (∀ n, d ≠ .maxSize n) → (h.after d.request).limit = h.limit := by
    intro hne
    apply History.limit_after
    intro n hn
    cases d with
    | maxSize k => exact hne k rfl
    | undo | redo | undoBy | redoBy | erase | clear => cases hn
  cases d with
  | maxSize n => exact hd
  | undo | redo | undoBy | redoBy | erase | clear =>
    rw [hsame (fun n hn => by cases hn)]
    exact ⟨hr.limit_pos, hr.limit_le⟩

/-- By the standard reading only a single undo could strand the cursor at `begin()`. -/
theorem Roomy.anchored_after (hr : h.Roomy sem N) (hd : d.Fits sem N) :
    sem = .cyclic ∨ (h.after d.request).Anchored := by
  rcases hr.anchored with hs | ha
  · exact Or.inl hs
  · cases d with
    | undo c => exact Or.inl hd
    | redo | undoBy | redoBy | erase | clear | maxSize =>
      right
      apply History.anchored_after ha
      intro hu
      cases hu

/-- A call that fits is answered, and leaves room. -/
theorem Roomy.handle (hr : h.Roomy sem N) (hN : (N : ℤ) ≤ intMax) (hd : d.Fits sem N) :
    h.handle sem d.request = .ok (h.after d.request) ∧ (h.after d.request).Roomy sem N := by
  have hcan : h.CanErase sem := by
    rcases hr.anchored with hs | ha
    · exact Or.inl hs
    · exact ha.canErase sem
  obtain ⟨hpos, hle⟩ := hr.limit_after hd
  refine ⟨handle_legal (hr.legal hN hd) hr.limit_pos fun _ _ => hcan, hpos, hle, ?_,
    hr.anchored_after hd⟩
  exact (h.size_after_direct d).trans hr.size_le

end History

end UndoCxx
