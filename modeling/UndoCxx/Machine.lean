import Mathlib.Data.List.Basic

/-! Finite runs of a deterministic machine whose steps may fail. -/
namespace Machine

variable {σ τ ℓ ε : Type} {step : σ → ℓ → Except ε σ} {s t u v : σ} {l : ℓ} {ls ls' : List ℓ}

@[simp] theorem pure_eq_ok {α : Type} (a : α) : (pure a : Except ε α) = .ok a := (rfl)

@[simp] theorem ok_bind {α β : Type} (a : α) (f : α → Except ε β) :
    (Except.ok a >>= f) = f a := (rfl)

@[simp] theorem error_bind {α β : Type} (e : ε) (f : α → Except ε β) :
    (Except.error e >>= f) = .error e := (rfl)

@[simp] theorem map_ok {α β : Type} (f : α → β) (a : α) :
    (Except.ok a : Except ε α).map f = .ok (f a) := (rfl)

theorem bind_ok_eq_map {α β : Type} (x : Except ε α) (f : α → β) :
    (x >>= fun a => .ok (f a)) = x.map f := by
  cases x <;> rfl

@[simp] theorem map_error {α β : Type} (f : α → β) (e : ε) :
    (Except.error e : Except ε α).map f = .error e := (rfl)

/-- A sequence returns exactly when its first part does and the rest does after it. -/
theorem bind_eq_ok {α β : Type} {x : Except ε α} {f : α → Except ε β} {b : β} :
    x >>= f = .ok b ↔ ∃ a, x = .ok a ∧ f a = .ok b := by
  cases x <;> simp

/-- A mapped outcome is defined when the outcome is. -/
theorem map_eq_ok {α β : Type} {x : Except ε α} {f : α → β} {b : β} :
    x.map f = .ok b ↔ ∃ a, x = .ok a ∧ f a = b := by
  cases x <;> simp

/-- Take the steps of a list of labels in order, stopping at the first failure. -/
def run (step : σ → ℓ → Except ε σ) (s : σ) (ls : List ℓ) : Except ε σ := ls.foldlM step s

/-- While `ls` runs from `s`, the label `l` takes the machine from `u` to `v`. -/
def Occurs (step : σ → ℓ → Except ε σ) (s : σ) (ls : List ℓ) (u : σ) (l : ℓ) (v : σ) : Prop :=
  ∃ pre post, ls = pre ++ l :: post ∧ run step s pre = .ok u ∧ step u l = .ok v

/-- While `ls` runs from `s`, the machine comes to the label `l` in the state `u`. -/
def Attempts (step : σ → ℓ → Except ε σ) (s : σ) (ls : List ℓ) (u : σ) (l : ℓ) : Prop :=
  ∃ pre post, ls = pre ++ l :: post ∧ run step s pre = .ok u

/-- Some prefix of `ls` takes the machine from `s` to `u`. -/
def Visits (step : σ → ℓ → Except ε σ) (s : σ) (ls : List ℓ) (u : σ) : Prop :=
  ∃ pre post, ls = pre ++ post ∧ run step s pre = .ok u

@[simp] theorem run_nil : run step s [] = .ok s := rfl

@[simp] theorem run_cons : run step s (l :: ls) = step s l >>= fun t => run step t ls := rfl

/-- A longer run continues from where the shorter one ends. -/
theorem run_append : run step s (ls ++ ls') = run step s ls >>= fun t => run step t ls' := by
  simp [run]

theorem run_singleton : run step s [l] = step s l := by
  cases h : step s l <;> simp [h]

theorem run_cons_ok (h : run step s (l :: ls) = .ok t) :
    ∃ u, step s l = .ok u ∧ run step u ls = .ok t := by
  rwa [run_cons, bind_eq_ok] at h

theorem Occurs.visits (h : Occurs step s ls u l v) : Visits step s ls u := by
  obtain ⟨pre, post, he, hu, -⟩ := h
  exact ⟨pre, l :: post, he, hu⟩

theorem Occurs.attempts (h : Occurs step s ls u l v) : Attempts step s ls u l := by
  obtain ⟨pre, post, he, hu, -⟩ := h
  exact ⟨pre, post, he, hu⟩

theorem not_attempts_nil : ¬ Attempts step s [] u l := by
  rintro ⟨pre, post, he, -⟩
  cases pre <;> cases he

/-- A run comes to its first label, or to a label of what follows. -/
theorem attempts_cons {k : ℓ} (h : Attempts step s (k :: ls) u l) :
    u = s ∧ l = k ∨ ∃ t, step s k = .ok t ∧ Attempts step t ls u l := by
  obtain ⟨pre, post, he, hu⟩ := h
  cases pre with
  | nil =>
    cases he
    cases hu
    exact Or.inl ⟨rfl, rfl⟩
  | cons j pre =>
    cases he
    obtain ⟨t, ht, hu⟩ := run_cons_ok hu
    exact Or.inr ⟨t, ht, pre, post, rfl, hu⟩

/-- What holds of the first label a run comes to and of those of what follows, holds of all. -/
theorem forall_attempts_cons {P : σ → ℓ → Prop} {k : ℓ} (hk : P s k) (hstep : step s k = .ok t)
    (hrest : ∀ u l, Attempts step t ls u l → P u l) (u : σ) (l : ℓ)
    (h : Attempts step s (k :: ls) u l) : P u l := by
  rcases attempts_cons h with ⟨rfl, rfl⟩ | ⟨t', ht, hl⟩
  · exact hk
  · cases ht.symm.trans hstep
    exact hrest u l hl

theorem forall_attempts_nil {P : σ → ℓ → Prop} (u : σ) (l : ℓ) (h : Attempts step s [] u l) :
    P u l :=
  absurd h not_attempts_nil

theorem visits_nil (h : Visits step s [] u) : u = s := by
  obtain ⟨pre, post, he, hu⟩ := h
  obtain ⟨rfl, -⟩ := List.append_eq_nil_iff.mp he.symm
  cases hu
  rfl

/-- A run visits its start, and what the run from its second state visits. -/
theorem visits_cons {k : ℓ} (h : Visits step s (k :: ls) u) :
    u = s ∨ ∃ t, step s k = .ok t ∧ Visits step t ls u := by
  obtain ⟨pre, post, he, hu⟩ := h
  cases pre with
  | nil =>
    cases hu
    exact Or.inl rfl
  | cons j pre =>
    cases he
    obtain ⟨t, ht, hu⟩ := run_cons_ok hu
    exact Or.inr ⟨t, ht, pre, post, rfl, hu⟩

/-- Only listed calls are attempted. -/
theorem Attempts.mem (h : Attempts step s ls u l) : l ∈ ls := by
  obtain ⟨pre, post, rfl, -⟩ := h
  simp

theorem Occurs.taken (h : Occurs step s ls u l v) : step u l = .ok v := by
  obtain ⟨-, -, -, -, hv⟩ := h
  exact hv

theorem Occurs.head (h : step s l = .ok t) : Occurs step s (l :: ls) s l t :=
  ⟨[], ls, rfl, rfl, h⟩

/-- What occurs from the second state on occurs in the run. -/
theorem Occurs.tail {k : ℓ} (h : step s l = .ok t) (ho : Occurs step t ls u k v) :
    Occurs step s (l :: ls) u k v := by
  obtain ⟨pre, post, he, hu, hv⟩ := ho
  exact ⟨l :: pre, post, by simp [he], by simp [h, hu], hv⟩

/-- What every step taken in the run preserves, the run preserves. -/
theorem run_preserves {I : σ → Prop} (hstep : ∀ u l v, Occurs step s ls u l v → I u → I v)
    (hs : I s) (h : run step s ls = .ok t) : I t := by
  induction ls generalizing s with
  | nil => cases h; exact hs
  | cons l ls ih =>
    obtain ⟨u, hu, ht⟩ := run_cons_ok h
    exact ih (fun _ _ _ ho => hstep _ _ _ (ho.tail hu)) (hstep _ _ _ (.head hu) hs) ht

/-- The same, for every state met on the way. -/
theorem visits_preserves {I : σ → Prop} (hstep : ∀ u l v, Occurs step s ls u l v → I u → I v)
    (hs : I s) (h : Visits step s ls u) : I u := by
  obtain ⟨pre, post, rfl, hu⟩ := h
  refine run_preserves ?_ hs hu
  rintro u l v ⟨p, q, rfl, hp, hv⟩
  apply hstep u l v
  exact ⟨p, q ++ post, by simp, hp, hv⟩

/-- If every step the run comes to can be taken, and keeps the invariant, the run ends. -/
theorem run_total {I : σ → Prop}
    (hstep : ∀ u l, Attempts step s ls u l → I u → ∃ v, step u l = .ok v ∧ I v) (hs : I s) :
    ∃ t, run step s ls = .ok t ∧ I t := by
  induction ls generalizing s with
  | nil => exact ⟨s, rfl, hs⟩
  | cons l ls ih =>
    obtain ⟨u, hu, hi⟩ := hstep s l ⟨[], ls, rfl, rfl⟩ hs
    have hrest : ∀ w k, Attempts step u ls w k → I w → ∃ v, step w k = .ok v ∧ I v := by
      rintro w k ⟨pre, post, he, hw⟩
      exact hstep w k ⟨l :: pre, post, by simp [he], by simp [hu, hw]⟩
    obtain ⟨t, ht, hI⟩ := ih hrest hi
    exact ⟨t, by simp [hu, ht], hI⟩

/-- A machine whose every step can be taken, following a function of another state. -/
theorem run_follows {R : σ → τ → Prop} {f : τ → ℓ → τ} {x : τ}
    (hstep : ∀ s x l, R s x → ∃ t, step s l = .ok t ∧ R t (f x l)) (h : R s x) :
    ∃ t, run step s ls = .ok t ∧ R t (ls.foldl f x) := by
  induction ls generalizing s x with
  | nil => exact ⟨s, rfl, h⟩
  | cons l ls ih =>
    obtain ⟨u, hu, hx⟩ := hstep s x l h
    obtain ⟨t, ht, hR⟩ := ih hx
    exact ⟨t, by rw [run_cons, hu, ok_bind, ht], hR⟩

/-- The same, where the step is followed only from what the run comes to. -/
theorem run_follows_attempts {R : σ → τ → Prop} {f : τ → ℓ → τ} {x : τ}
    (hstep : ∀ u l, Attempts step s ls u l → ∀ y, R u y → ∃ v, step u l = .ok v ∧ R v (f y l))
    (h : R s x) : ∃ t, run step s ls = .ok t ∧ R t (ls.foldl f x) := by
  induction ls generalizing s x with
  | nil => exact ⟨s, rfl, h⟩
  | cons l ls ih =>
    obtain ⟨u, hu, hx⟩ := hstep s l ⟨[], ls, rfl, rfl⟩ x h
    have hrest : ∀ w k, Attempts step u ls w k → ∀ y, R w y →
        ∃ v, step w k = .ok v ∧ R v (f y k) := by
      rintro w k ⟨pre, post, he, hw⟩
      exact hstep w k ⟨l :: pre, post, by simp [he], by simp [hu, hw]⟩
    obtain ⟨t, ht, hR⟩ := ih hrest hx
    exact ⟨t, by rw [run_cons, hu, ok_bind, ht], hR⟩

/-- A machine that mirrors each step of another along `f` mirrors its runs. -/
theorem run_map {astep : τ → ℓ → Except ε τ} {f : τ → σ}
    (hstep : ∀ x l, step (f x) l = (astep x l).map f) (x : τ) (ls : List ℓ) :
    run step (f x) ls = (run astep x ls).map f := by
  induction ls generalizing x with
  | nil => rfl
  | cons l ls ih =>
    rw [run_cons, run_cons, hstep]
    cases astep x l with
    | error e => rfl
    | ok y => exact ih y

/-- What the mirrored machine visits, comes to and does, its mirror does. -/
theorem visits_map {astep : τ → ℓ → Except ε τ} {f : τ → σ}
    (hstep : ∀ x l, step (f x) l = (astep x l).map f) {x : τ} (h : Visits step (f x) ls u) :
    ∃ y, u = f y ∧ Visits astep x ls y := by
  obtain ⟨pre, post, he, hu⟩ := h
  rw [run_map hstep] at hu
  obtain ⟨y, hy, rfl⟩ := map_eq_ok.mp hu
  exact ⟨y, rfl, pre, post, he, hy⟩

/-- A machine in step with another attempts nothing else. -/
theorem attempts_map {astep : τ → ℓ → Except ε τ} {f : τ → σ}
    (hstep : ∀ x l, step (f x) l = (astep x l).map f) {x : τ} (h : Attempts step (f x) ls u l) :
    ∃ y, u = f y ∧ Attempts astep x ls y l := by
  obtain ⟨pre, post, he, hu⟩ := h
  rw [run_map hstep] at hu
  obtain ⟨y, hy, rfl⟩ := map_eq_ok.mp hu
  exact ⟨y, rfl, pre, post, he, hy⟩

/-- A machine in step with another takes the steps of that one. -/
theorem occurs_map {astep : τ → ℓ → Except ε τ} {f : τ → σ}
    (hstep : ∀ x l, step (f x) l = (astep x l).map f) {x : τ} (h : Occurs step (f x) ls u l v) :
    ∃ y z, u = f y ∧ v = f z ∧ Occurs astep x ls y l z := by
  obtain ⟨pre, post, he, hu, hv⟩ := h
  rw [run_map hstep] at hu
  obtain ⟨y, hy, rfl⟩ := map_eq_ok.mp hu
  rw [hstep] at hv
  obtain ⟨z, hz, rfl⟩ := map_eq_ok.mp hv
  exact ⟨y, z, rfl, rfl, pre, post, he, hy, hz⟩

theorem Visits.map {astep : τ → ℓ → Except ε τ} {f : τ → σ}
    (hstep : ∀ x l, step (f x) l = (astep x l).map f) {x y : τ} (h : Visits astep x ls y) :
    Visits step (f x) ls (f y) := by
  obtain ⟨pre, post, he, hu⟩ := h
  exact ⟨pre, post, he, by rw [run_map hstep, hu, map_ok]⟩

theorem Attempts.map {astep : τ → ℓ → Except ε τ} {f : τ → σ}
    (hstep : ∀ x l, step (f x) l = (astep x l).map f) {x y : τ} (h : Attempts astep x ls y l) :
    Attempts step (f x) ls (f y) l := by
  obtain ⟨pre, post, he, hu⟩ := h
  exact ⟨pre, post, he, by rw [run_map hstep, hu, map_ok]⟩

theorem Occurs.map {astep : τ → ℓ → Except ε τ} {f : τ → σ}
    (hstep : ∀ x l, step (f x) l = (astep x l).map f) {x y z : τ} (h : Occurs astep x ls y l z) :
    Occurs step (f x) ls (f y) l (f z) := by
  obtain ⟨pre, post, he, hu, hv⟩ := h
  exact ⟨pre, post, he, by rw [run_map hstep, hu, map_ok], by rw [hstep, hv, map_ok]⟩

/-- Two copies of a machine under the same labels. -/
def both (step : σ → ℓ → Except ε σ) (s : σ × σ) (l : ℓ) : Except ε (σ × σ) := do
  let u ← step s.1 l
  let v ← step s.2 l
  return (u, v)

theorem both_eq_ok {p q : σ × σ} :
    both step p l = .ok q ↔ step p.1 l = .ok q.1 ∧ step p.2 l = .ok q.2 := by
  simp only [both, bind_eq_ok, pure_eq_ok]
  constructor
  · rintro ⟨u, hu, v, hv, he⟩
    cases he
    exact ⟨hu, hv⟩
  · rintro ⟨hu, hv⟩
    exact ⟨_, hu, _, hv, rfl⟩

/-- Two copies of a machine are in step with two copies of the other. -/
theorem both_map {astep : τ → ℓ → Except ε τ} {f : τ → σ}
    (hstep : ∀ x l, step (f x) l = (astep x l).map f) (p : τ × τ) (l : ℓ) :
    both step (p.map f f) l = (both astep p l).map (Prod.map f f) := by
  simp only [both, Prod.map_fst, Prod.map_snd, hstep]
  cases astep p.1 l with
  | error e => rfl
  | ok u => cases astep p.2 l <;> rfl

end Machine
