import UndoCxx.Verbose

/-! What any client code prints, and that its lines are consistent. -/
namespace UndoCxx

open Cxx

variable {A μ τ α : Type}

namespace Zipper

variable {β : Type} {f : μ → β} {sem : Sentinel}

/-- No call looks at the mementos. -/
theorem map_handle (z : Zipper μ) (d : Direct) :
    (z.handle sem d.request).map (map f) = (z.map f).handle sem d.request := by
  cases d with
  | undo c => exact congrArg Except.ok (map_edit (TwoStack.map_undo f) z)
  | redo c => exact congrArg Except.ok (map_edit (TwoStack.map_redo f) z)
  | undoBy c d => exact z.map_batch .back d
  | redoBy c d => exact z.map_batch .forth d
  | erase n => exact z.map_erase n
  | clear | maxSize => rfl

/-- Record a memento, if it can be streamed. -/
def save {print : μ → Except UB τ} (m : μ) (z : Zipper (Printed print)) :
    Except UB (Zipper (Printed print) × Line τ) :=
  if 0 < z.limit ∨ z.stack.past ≠ [] then
    match hm : print m with
    | .ok text =>
      let z' := z.edit (·.record z.limit ⟨m, text, hm⟩)
      .ok (z', ⟨.save, z'.size, text, z'.size⟩)
    | .error e => .error e
  else .error .emptyContainer

end Zipper

namespace History

variable {h g : History μ} {print : μ → Except UB τ} {z : Zipper (Printed print)} {sem : Sentinel}

/-- The texts do not decide whether there is something to evict. -/
theorem Labelled.canRecord (hz : h.Labelled z) :
    h.CanRecord ↔ 0 < z.limit ∨ z.stack.past ≠ [] := by
  have hlimit : h.limit = z.limit := congrArg Zipper.limit hz
  have hnil : h.stack.past = [] ↔ z.stack.past = [] := by
    rw [← List.map_eq_nil_iff (f := Node.val), hz.past, List.map_eq_nil_iff]
  rw [CanRecord, hlimit]
  exact or_congr_right hnil.not

/-- A memento that has been streamed is recorded with its text. -/
theorem Labelled.record (hz : h.Labelled z) (p : Printed print) :
    (h.record p.memento).Labelled (z.edit (·.record z.limit p)) := by
  have hlimit : h.limit = z.limit := congrArg Zipper.limit hz
  have hrecord : ∀ t : TwoStack (Printed print), (t.record z.limit p).map _ = _ :=
    fun t => TwoStack.map_record Printed.memento
  rw [Labelled, h.forget_record, hz, hlimit]
  exact (Zipper.map_edit hrecord z).symm

/-- Keeping the texts changes no request. -/
theorem Labelled.map_handle (hz : h.Labelled z) (d : Direct) :
    (h.handle sem d.request).map forget =
      (z.handle sem d.request).map (Zipper.map Printed.memento) := by
  rw [h.forget_handle, z.map_handle, ← hz]

/-- What a call leaves of a history has kept its labels. -/
theorem Labelled.handle (hz : h.Labelled z) {d : Direct} (hg : h.handle sem d.request = .ok g) :
    ∃ z', z.handle sem d.request = .ok z' ∧ g.Labelled z' := by
  have hmap : (h.handle sem d.request).map forget = _ := hz.map_handle d
  rw [hg] at hmap
  obtain ⟨z', hz', he⟩ := Machine.map_eq_ok.mp hmap.symm
  exact ⟨z', hz', he.symm⟩

theorem Labelled.handle_error (hz : h.Labelled z) {d : Direct} {e : UB}
    (he : h.handle sem d.request = .error e) : z.handle sem d.request = .error e := by
  have hmap : (h.handle sem d.request).map forget = _ := hz.map_handle d
  rw [he] at hmap
  cases hz' : z.handle sem d.request with
  | error e' =>
    rw [hz'] at hmap
    cases hmap
    rfl
  | ok z' =>
    rw [hz'] at hmap
    cases hmap

end History

/-! Clients of the manager that prints -/

/-- The manager, with the lines that it has printed. -/
def printing (print : μ → Except UB τ) (sem : Sentinel) :
    Backend A μ (World A μ × List (Line τ)) where
  app x := Effect.onFst ((manager sem).app x)
  query q := Effect.onFst ((manager sem).query q)
  direct d := fun (w, out) => do
    let (s, lines) ← Verbose.apply print sem w.mgr d
    return (.ok (), ({ w with mgr := s }, out ++ lines))
  log k := Effect.onFst ((manager sem).log k)
  push m := fun (w, out) => do
    let (r, s, lines) ← Verbose.push print w.oom m w.mgr
    return (r, ({ w with mgr := s }, out ++ lines))

/-- What a client and the reader of its output see: every memento has kept its text. -/
structure Reading (A : Type) {μ τ : Type} (print : μ → Except UB τ) where
  app : A
  zipper : Zipper (Printed print)
  callbacks : List (Callback μ)

namespace Reading

variable {print : μ → Except UB τ}

def start (a : A) : Reading A print := ⟨a, ⟨.empty, sizeTMax⟩, []⟩

def onApp (x : App A α) : Effect.Prog (Reading A print) Exn UB α := fun v =>
  let (r, a) := x v.app
  .ok (r, { v with app := a })

def onQuery (sem : Sentinel) (q : Query μ α) : Effect.Prog (Reading A print) Exn UB α := fun v => do
  let a ← (v.zipper.map Printed.memento).ask sem q
  return (.ok a, v)

def model (print : μ → Except UB τ) (sem : Sentinel) :
    Backend A μ (Reading A print × List (Line τ)) where
  app x := Effect.onFst (onApp x)
  query q := Effect.onFst (onQuery sem q)
  direct d := fun (v, out) => do
    let z ← v.zipper.handle sem d.request
    return (.ok (), ({ v with zipper := z }, out ++ v.zipper.lines d))
  log k := Effect.onFst (modify fun v => { v with callbacks := v.callbacks ++ [k] })
  push m := fun (v, out) => do
    let (z, line) ← v.zipper.save m
    return (.ok (), ({ v with zipper := z }, out ++ [line]))

/-- All that the member functions tell about a world is in the reading. -/
structure Seen (sem : Sentinel) (w : World A μ) (v : Reading A print) : Prop where
  app : w.app = v.app
  callbacks : w.callbacks = v.callbacks
  history : Lockstep sem w.mgr (v.zipper.stack.map Printed.memento)
  limit : w.mgr.maxSize = v.zipper.limit

/-- The world has nodes for what the reading holds. -/
def Reads (w : World A μ) (v : Reading A print) : Prop :=
  ∃ h : History μ, h.Labelled v.zipper ∧ w = Session.toWorld ⟨v.app, h, v.callbacks⟩

/-- A client sees the mementos, not the texts kept with them. -/
theorem Reads.seen {sem : Sentinel} {w : World A μ} {v : Reading A print} (h : Reads w v) :
    Seen sem w v := by
  obtain ⟨h, hz, rfl⟩ := h
  have hstack : h.stack.map Node.val = v.zipper.stack.map Printed.memento :=
    congrArg Zipper.stack hz
  exact ⟨rfl, rfl, hstack ▸ lockstep_toMgr h, congrArg Zipper.limit hz⟩

end Reading

/-- A recording streams once, and fails on both sides or on neither. -/
theorem save_labelled {print : μ → Except UB τ} {h : History μ} {z : Zipper (Printed print)}
    (hz : h.Labelled z) (m : μ) :
    (∃ e, Verbose.push print false m h.toMgr = .error e ∧ z.save m = .error e) ∨
      ∃ z' line, Verbose.push print false m h.toMgr = .ok (.ok (), (h.record m).toMgr, [line]) ∧
        z.save m = .ok (z', line) ∧ (h.record m).Labelled z' := by
  rw [Zipper.save]
  by_cases hc : h.CanRecord
  · rw [if_pos (hz.canRecord.mp hc)]
    split
    · next text hm =>
      right
      have hz' := hz.record ⟨m, text, hm⟩
      have hpush : Verbose.push print false m h.toMgr = _ := h.push_verbose m hc
      rw [hm, Machine.map_ok, hz'.size] at hpush
      exact ⟨_, _, hpush, rfl, hz'⟩
    · next e hm =>
      left
      refine ⟨e, ?_, rfl⟩
      rw [h.push_verbose m hc, hm, Machine.map_error]
  · left
    rw [if_neg (hz.canRecord.not.mp hc)]
    exact ⟨_, h.push_empty false m hc, rfl⟩

theorem printing_related (print : μ → Except UB τ) (sem : Sentinel) :
    (printing print sem : Backend A μ _).Related
      (fun p q => Reading.Reads p.1 q.1 ∧ p.2 = q.2) (Reading.model print sem) where
  app x := by
    apply Effect.Simulates.onFst (R := Reading.Reads)
    rintro w ⟨a, z, l⟩ ⟨h, hz, rfl⟩
    exact .ended (x a).1 ⟨h, hz, rfl⟩
  query q := by
    apply Effect.Simulates.onFst (R := Reading.Reads)
    rintro w ⟨a, z, l⟩ ⟨h, hz, rfl⟩
    simp only [manager, askMgr, Reading.onQuery, Session.toWorld, History.ask_toMgr]
    rw [hz]
    cases (z.map Printed.memento).ask sem q with
    | error e => exact .failed e
    | ok r => exact .ended _ ⟨h, hz, rfl⟩
  direct d := by
    rintro ⟨w, out⟩ ⟨⟨a, z, l⟩, out'⟩ ⟨⟨h, hz, hw⟩, hout⟩
    obtain rfl : w = Session.toWorld ⟨a, h, l⟩ := hw
    obtain rfl : out = out' := hout
    simp only [printing, Reading.model, Session.toWorld, hz.apply]
    cases ho : h.handle sem d.request with
    | error e =>
      rw [hz.handle_error ho]
      exact .failed e
    | ok g =>
      obtain ⟨z', hz', hg⟩ := hz.handle ho
      rw [hz']
      exact .ended _ ⟨⟨g, hg, rfl⟩, rfl⟩
  log k := by
    apply Effect.Simulates.onFst (R := Reading.Reads)
    rintro w ⟨a, z, l⟩ ⟨h, hz, rfl⟩
    exact .ended _ ⟨h, hz, rfl⟩
  push m := by
    rintro ⟨w, out⟩ ⟨⟨a, z, l⟩, out'⟩ ⟨⟨h, hz, hw⟩, hout⟩
    obtain rfl : w = Session.toWorld ⟨a, h, l⟩ := hw
    obtain rfl : out = out' := hout
    simp only [printing, Reading.model, Session.toWorld]
    rcases save_labelled hz m with ⟨e, hpush, hsave⟩ | ⟨z', line, hpush, hsave, hz'⟩
    · rw [hpush, hsave]
      exact .failed e
    · rw [hpush, hsave]
      exact .ended _ ⟨⟨_, hz', rfl⟩, rfl⟩

/-- Any code comes to the same with the manager that prints as with a history of mementos that
have each kept the text they were saved with: the same results, and the same lines. The one thing
that printing adds is that a memento that cannot be streamed cannot be recorded. -/
theorem journal_refines (print : μ → Except UB τ) (sem : Sentinel) (a : A) (x : Client A μ α) :
    Effect.Agree (fun p q => Reading.Seen sem p.1 q.1 ∧ p.2 = q.2)
      (x.run (printing print sem) (.start a, []))
      (x.run (Reading.model print sem) (.start a, [])) := by
  have hstart : Reading.Reads (.start a : World A μ) (.start a : Reading A print) :=
    ⟨.fresh, rfl, rfl⟩
  refine ((printing_related print sem).run x _ _ ⟨hstart, rfl⟩).mono ?_
  rintro p q ⟨h, hout⟩
  exact ⟨h.seen, hout⟩

/-! What the lines say -/

/-- A line fits those before it: a memento is saved at the end of the list, and any other line
repeats what was printed when its memento was saved. -/
def Line.Fits (before : List (Line τ)) (l : Line τ) : Prop :=
  match l.event with
  | .save => 1 ≤ l.position ∧ l.position = l.size
  | .restore | .replay => l.position < l.size ∧ ∃ k ∈ before, k.event = .save ∧ k.text = l.text

/-- Every line fits. -/
def Consistent (out : List (Line τ)) : Prop :=
  ∀ before l rest, out = before ++ l :: rest → l.Fits before

/-- A log that grows keeps what a line relies on. -/
theorem Line.Fits.mono {before before' : List (Line τ)} {l : Line τ} (h : l.Fits before)
    (hsub : before ⊆ before') : l.Fits before' := by
  obtain ⟨event, position, text, size⟩ := l
  cases event with
  | save => exact h
  | restore | replay =>
    obtain ⟨hlt, k, hk, hsave⟩ := h
    exact ⟨hlt, k, hsub hk, hsave⟩

theorem Consistent.append {out lines : List (Line τ)} (h : Consistent out)
    (hlines : ∀ l ∈ lines, l.Fits out) : Consistent (out ++ lines) := by
  intro before l rest he
  rcases List.append_eq_append_iff.mp he with ⟨mid, rfl, hmid⟩ | ⟨mid, hout, hmid⟩
  · have hl : l ∈ lines := by simp [hmid]
    exact (hlines l hl).mono (List.subset_append_left _ _)
  · cases mid with
    | nil =>
      have hl : l ∈ lines := by
        rw [List.nil_append] at hmid
        simp [← hmid]
      rw [List.append_nil] at hout
      exact hout ▸ hlines l hl
    | cons l' mid =>
      cases hmid
      exact h before l mid hout

namespace Zipper

variable {print : μ → Except UB τ} {z : Zipper (Printed print)} {sem : Sentinel}

/-- The line is about a memento of the list. -/
def Concerns (z : Zipper (Printed print)) (l : Line τ) : Prop :=
  l.event ≠ .save ∧ l.position < l.size ∧ ∃ p ∈ z.stack.entries, p.text = l.text

theorem concerns_line (dir : Direction) (z : Zipper (Printed print)) :
    ∀ l ∈ z.line dir, z.Concerns l := by
  intro l hl
  cases dir with
  | back =>
    rw [line] at hl
    cases hp : z.stack.past with
    | nil =>
      simp only [hp] at hl
      cases hl
    | cons p past =>
      simp only [hp] at hl
      cases List.mem_singleton.mp hl
      refine ⟨Event.noConfusion, ?_, p, ?_, rfl⟩
      · rw [size, TwoStack.length_entries, hp]
        exact Nat.lt_add_right _ (Nat.lt_succ_self _)
      · simp [TwoStack.entries, hp]
  | forth =>
    rw [line] at hl
    cases hf : z.stack.future with
    | nil =>
      simp only [hf] at hl
      cases hl
    | cons p future =>
      simp only [hf] at hl
      cases List.mem_singleton.mp hl
      refine ⟨Event.noConfusion, ?_, p, ?_, rfl⟩
      · simp [size, pos, hf]
      · simp [TwoStack.entries, hf]

/-- A step leaves the mementos in the list, so that later lines are about them as well. -/
theorem concerns_repeatLines (dir : Direction) (n : ℕ) (z : Zipper (Printed print)) :
    ∀ l ∈ z.repeatLines dir n, z.Concerns l := by
  induction n generalizing z with
  | zero =>
    intro l hl
    cases hl
  | succ n ih =>
    intro l hl
    rcases List.mem_append.mp hl with hl | hl
    · exact concerns_line dir z l hl
    · have hnext : (z.move dir).Concerns l := ih _ l hl
      have hsame : (z.move dir).stack.entries = z.stack.entries :=
        TwoStack.entries_iterate_move dir 1 z.stack
      rwa [Concerns, hsame] at hnext

/-- Every line of a call is about a memento of the history, in its place. -/
theorem concerns_lines (d : Direct) : ∀ l ∈ z.lines d, z.Concerns l := by
  intro l hl
  cases d with
  | undo c => exact concerns_line .back z l hl
  | redo c => exact concerns_line .forth z l hl
  | undoBy c d => exact concerns_repeatLines .back _ z l hl
  | redoBy c d => exact concerns_repeatLines .forth _ z l hl
  | erase | clear | maxSize => cases hl

/-- No call adds a memento. -/
theorem entries_handle {z z' : Zipper μ} {d : Direct} (h : z.handle sem d.request = .ok z') :
    z'.stack.entries ⊆ z.stack.entries := by
  have hsame : z'.stack.entries = z.stack.entries → z'.stack.entries ⊆ z.stack.entries :=
    fun he => he ▸ List.Subset.refl _
  cases d with
  | undo c =>
    cases h
    exact hsame (TwoStack.entries_undo _)
  | redo c =>
    cases h
    exact hsame (TwoStack.entries_redo _)
  | undoBy c d => exact hsame (entries_batch h)
  | redoBy c d => exact hsame (entries_batch h)
  | erase n => exact entries_erase h
  | clear =>
    cases h
    exact List.nil_subset _
  | maxSize n =>
    cases h
    exact List.Subset.refl _

end Zipper

theorem Zipper.save_eq {print : μ → Except UB τ} {z z' : Zipper (Printed print)} {m : μ}
    {line : Line τ} (h : z.save m = .ok (z', line)) : ∃ p : Printed print,
      z' = z.edit (·.record z.limit p) ∧ line = ⟨.save, z'.size, p.text, z'.size⟩ := by
  rw [Zipper.save] at h
  split at h
  · split at h
    · next text hm =>
      cases h
      exact ⟨⟨m, text, hm⟩, rfl, rfl⟩
    · cases h
  · cases h

/-- Every memento was printed when it was saved, and every line fits those before it. -/
def Recorded {print : μ → Except UB τ} (p : Reading A print × List (Line τ)) : Prop :=
  (∀ q ∈ p.1.zipper.stack.entries, ∃ k ∈ p.2, k.event = .save ∧ k.text = q.text) ∧ Consistent p.2

/-- No primitive prints a text that was not recorded. -/
theorem model_recorded (print : μ → Except UB τ) (sem : Sentinel) :
    (Reading.model print sem : Backend A μ _).Moves fun p q => Recorded p → Recorded q where
  refl _ h := h
  trans _ _ _ h h' := fun hp => h' (h hp)
  app x := by
    rintro ⟨v, out⟩ r q h hp
    cases h
    exact hp
  query q := by
    rintro ⟨v, out⟩ r q h hp
    obtain ⟨⟨r, v'⟩, hv, hq⟩ := Machine.bind_eq_ok.mp h
    obtain ⟨a, -, ha⟩ := Machine.bind_eq_ok.mp hv
    cases ha
    cases hq
    exact hp
  direct d := by
    rintro ⟨v, out⟩ r q h ⟨hprinted, hout⟩
    obtain ⟨z, hz, hq⟩ := Machine.bind_eq_ok.mp h
    cases hq
    have hfits : ∀ l ∈ v.zipper.lines d, l.Fits out := by
      intro l hl
      obtain ⟨hevent, hlt, p, hp, htext⟩ := v.zipper.concerns_lines d l hl
      obtain ⟨k, hk, hsave, htext'⟩ := hprinted p hp
      obtain ⟨event, position, text, size⟩ := l
      cases event with
      | save => exact absurd rfl hevent
      | restore | replay => exact ⟨hlt, k, hk, hsave, htext'.trans htext⟩
    refine ⟨?_, hout.append hfits⟩
    intro p hp
    obtain ⟨k, hk, hsave⟩ := hprinted p (Zipper.entries_handle hz hp)
    exact ⟨k, List.mem_append_left _ hk, hsave⟩
  log k := by
    rintro ⟨v, out⟩ r q h hp
    cases h
    exact hp
  push m := by
    rintro ⟨v, out⟩ r q h ⟨hprinted, hout⟩
    obtain ⟨⟨z, line⟩, hz, hq⟩ := Machine.bind_eq_ok.mp h
    cases hq
    obtain ⟨p, rfl, rfl⟩ := Zipper.save_eq hz
    have hfits : ∀ l ∈ [(⟨.save, (v.zipper.edit (·.record v.zipper.limit p)).size, p.text,
        (v.zipper.edit (·.record v.zipper.limit p)).size⟩ : Line τ)], l.Fits out := by
      intro l hl
      cases List.mem_singleton.mp hl
      refine ⟨?_, rfl⟩
      rw [Zipper.size, TwoStack.length_entries]
      exact Nat.le_add_right_of_le (Nat.succ_le_succ (Nat.zero_le _))
    refine ⟨?_, hout.append hfits⟩
    intro q hq
    rcases List.mem_append.mp ((TwoStack.entries_record_sublist _ _ _).subset hq) with hq | hq
    · obtain ⟨k, hk, hsave⟩ := hprinted q hq
      exact ⟨k, List.mem_append_left _ hk, hsave⟩
    · cases List.mem_singleton.mp hq
      exact ⟨_, List.mem_append_right _ (List.mem_singleton_self _), rfl, rfl⟩

/-- In every run of any code, each line about a memento repeats the text that was printed when it
was saved, and tells a position inside the list. -/
theorem journal_consistent {print : μ → Except UB τ} {sem : Sentinel} {a : A} {x : Client A μ α}
    {r : Except Exn α} {w : World A μ} {out : List (Line τ)}
    (h : x.run (printing print sem) (.start a, []) = .ok (r, (w, out))) :
    ∀ before l rest, out = before ++ l :: rest → l.Fits before := by
  have hagree := journal_refines print sem a x
  rw [h] at hagree
  generalize hm : x.run (Reading.model print sem) (.start a, []) = o at hagree
  cases hagree with
  | ended r hout =>
    obtain ⟨-, rfl⟩ := hout
    have hstart : Recorded ((.start a, []) : Reading A print × List (Line τ)) := by
      refine ⟨fun q hq => absurd hq List.not_mem_nil, ?_⟩
      intro before l rest he
      simp at he
    exact ((model_recorded print sem).run x _ _ _ hm hstart).2

/-- A memento is saved, restored and replayed. -/
theorem journal_consistent_counter : ∃ w out,
    (Client.ofCalls counterHeap [.invoke 2, .undo 2, .redo 2]).run
      (printing Memento.print .standard) (.start 0, []) = .ok (.ok (), (w, out)) ∧
    out = [⟨.save, 1, 1, 1⟩, ⟨.restore, 0, 1, 1⟩, ⟨.replay, 0, 1, 1⟩] ∧
    ∀ before l rest, out = before ++ l :: rest → l.Fits before := by
  obtain ⟨w, out, hrun, hout⟩ : ∃ w out,
      (Client.ofCalls counterHeap [.invoke 2, .undo 2, .redo 2]).run
        (printing Memento.print .standard) (.start 0, []) = .ok (.ok (), (w, out)) ∧
      out = [⟨.save, 1, 1, 1⟩, ⟨.restore, 0, 1, 1⟩, ⟨.replay, 0, 1, 1⟩] := ⟨_, _, rfl, rfl⟩
  exact ⟨w, out, hrun, hout, journal_consistent hrun⟩

end UndoCxx
