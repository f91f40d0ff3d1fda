import UndoCxx.Machine

/-!
Programs that change a state, can throw, and can fail for good: how facts about
one program, or about two of them in step, compose.
-/
namespace Effect

variable {σ τ υ ε δ α β : Type}

/-- Code that throws `ε`, with the failures `δ` outside of it all. -/
abbrev Prog (σ ε δ α : Type) := ExceptT ε (StateT σ (Except δ)) α

/-- Whenever the program ends, having returned or thrown, it has moved the state along `R`. -/
def Within (R : σ → σ → Prop) (x : Prog σ ε δ α) : Prop := ∀ s r t, x s = .ok (r, t) → R s t

/-- From a state in `I` the program ends, and in `I` again, or it fails in a way that `F` allows. -/
def Ends (F : δ → Prop) (I : σ → Prop) (x : Prog σ ε δ α) : Prop :=
  ∀ s, I s → (∃ r t, x s = .ok (r, t) ∧ I t) ∨ ∃ e, x s = .error e ∧ F e

/-- Two outcomes agree: both failed alike, or both ended alike and in related states. -/
inductive Agree (R : σ → τ → Prop) :
    Except δ (Except ε α × σ) → Except δ (Except ε α × τ) → Prop
  | failed (e : δ) : Agree R (.error e) (.error e)
  | ended (r : Except ε α) {s : σ} {t : τ} (h : R s t) : Agree R (.ok (r, s)) (.ok (r, t))

/-- From related states the two programs come to outcomes that agree. -/
def Simulates (R : σ → τ → Prop) (x : Prog σ ε δ α) (y : Prog τ ε δ α) : Prop :=
  ∀ s t, R s t → Agree R (x s) (y t)

/-- Change the state, or fail for good. -/
def update (f : σ → Except δ σ) : Prog σ ε δ Unit := fun s => do
  let s ← f s
  return (.ok (), s)

/-- Run a program on a part of the state. -/
def zoom (get : τ → σ) (set : τ → σ → τ) (x : Prog σ ε δ α) : Prog τ ε δ α := fun t => do
  let (r, s) ← x (get t)
  return (r, set t s)

/-- Run a program on the first of two states. -/
def onFst (x : Prog σ ε δ α) : Prog (σ × υ) ε δ α := zoom Prod.fst (fun p s => (s, p.2)) x

variable {x : Prog σ ε δ α} {f : α → Prog σ ε δ β} {g : ε → Prog σ ε δ α} {s t : σ}

/-- A sequence goes on only from a return; what was thrown or failed stays. -/
theorem bind_apply : (x >>= f) s =
    match x s with
    | .ok (.ok a, t) => f a t
    | .ok (.error e, t) => .ok (.error e, t)
    | .error d => .error d := by
  change (x s >>= fun p => ExceptT.bindCont (m := StateT σ (Except δ)) f p.1 p.2) = _
  rcases x s with d | ⟨e | a, t⟩ <;> rfl

theorem bind_ok {a : α} (h : x s = .ok (.ok a, t)) : (x >>= f) s = f a t := by
  rw [bind_apply, h]

theorem bind_throw {e : ε} (h : x s = .ok (.error e, t)) : (x >>= f) s = .ok (.error e, t) := by
  rw [bind_apply, h]

/-- No handler is run for a failure. -/
theorem tryCatch_apply : (tryCatch x g : Prog σ ε δ α) s =
    match x s with
    | .ok (.ok a, t) => .ok (.ok a, t)
    | .ok (.error e, t) => g e t
    | .error d => .error d := by
  change (x s >>= fun p => (match p.1 with
    | .ok a => pure (Except.ok a)
    | .error e => (g e : StateT σ (Except δ) _) : StateT σ (Except δ) _) p.2) = _
  rcases x s with d | ⟨e | a, t⟩ <;> rfl

/-! One program -/

section Unary

variable {R : σ → σ → Prop} {F : δ → Prop} {I : σ → Prop}

theorem Within.pure (hrefl : ∀ s, R s s) (a : α) : Within R (pure a : Prog σ ε δ α) := by
  intro s r t h
  cases h
  exact hrefl s

theorem Within.throw (hrefl : ∀ s, R s s) (e : ε) : Within R (throw e : Prog σ ε δ α) := by
  intro s r t h
  cases h
  exact hrefl s

/-- A transitive relation holds across a sequence, and also when its second part is never reached.
-/
theorem Within.bind (htrans : ∀ s t u, R s t → R t u → R s u) (hx : Within R x)
    (hf : ∀ a, Within R (f a)) : Within R (x >>= f) := by
  intro s r u h
  rw [bind_apply] at h
  rcases hxs : x s with d | ⟨e | a, t⟩
  · rw [hxs] at h
    cases h
  · rw [hxs] at h
    cases h
    exact hx s _ _ hxs
  · rw [hxs] at h
    exact htrans s t u (hx s _ _ hxs) (hf a t r u h)

/-- A handler goes on from the state in which the exception was thrown. -/
theorem Within.tryCatch (htrans : ∀ s t u, R s t → R t u → R s u) (hx : Within R x)
    (hg : ∀ e, Within R (g e)) : Within R (tryCatch x g) := by
  intro s r u h
  rw [tryCatch_apply] at h
  rcases hxs : x s with d | ⟨e | a, t⟩
  · rw [hxs] at h
    cases h
  · rw [hxs] at h
    exact htrans s t u (hx s _ _ hxs) (hg e t r u h)
  · rw [hxs] at h
    cases h
    exact hx s _ _ hxs

theorem Ends.pure (a : α) : Ends F I (pure a : Prog σ ε δ α) := by
  intro s hs
  exact Or.inl ⟨_, s, rfl, hs⟩

theorem Ends.throw (e : ε) : Ends F I (throw e : Prog σ ε δ α) := by
  intro s hs
  exact Or.inl ⟨_, s, rfl, hs⟩

/-- A sequence ends when its parts do, an exception in the first part being an end of both. -/
theorem Ends.bind (hx : Ends F I x) (hf : ∀ a, Ends F I (f a)) : Ends F I (x >>= f) := by
  intro s hs
  rcases hx s hs with ⟨r, t, hxs, ht⟩ | ⟨e, hxs, he⟩
  · rw [bind_apply, hxs]
    cases r with
    | error e => exact Or.inl ⟨_, t, rfl, ht⟩
    | ok a => exact hf a t ht
  · rw [bind_apply, hxs]
    exact Or.inr ⟨e, rfl, he⟩

/-- A handler brings no failure that it does not have on its own. -/
theorem Ends.tryCatch (hx : Ends F I x) (hg : ∀ e, Ends F I (g e)) :
    Ends F I (tryCatch x g) := by
  intro s hs
  rcases hx s hs with ⟨r, t, hxs, ht⟩ | ⟨e, hxs, he⟩
  · rw [tryCatch_apply, hxs]
    cases r with
    | error e => exact hg e t ht
    | ok a => exact Or.inl ⟨_, t, rfl, ht⟩
  · rw [tryCatch_apply, hxs]
    exact Or.inr ⟨e, rfl, he⟩

/-- What lies beside the state is no concern of the program. -/
theorem Ends.onFst (hx : Ends F I x) :
    Ends F (fun p : σ × υ => I p.1) (onFst x : Prog (σ × υ) ε δ α) := by
  rintro ⟨s, u⟩ hs
  rcases hx s hs with ⟨r, t, hxs, ht⟩ | ⟨e, hxs, he⟩
  · exact Or.inl ⟨r, (t, u), by rw [Effect.onFst, zoom, hxs]; rfl, ht⟩
  · exact Or.inr ⟨e, by rw [Effect.onFst, zoom, hxs]; rfl, he⟩

end Unary

/-! Two programs in step -/

section Binary

variable {R S : σ → τ → Prop} {y : Prog τ ε δ α} {f' : α → Prog τ ε δ β} {g' : ε → Prog τ ε δ α}
  {o : Except δ (Except ε α × σ)} {o' : Except δ (Except ε α × τ)}

/-- States related more loosely. -/
theorem Agree.mono (h : Agree R o o') (hRS : ∀ s t, R s t → S s t) : Agree S o o' := by
  cases h with
  | failed e => exact .failed e
  | ended r h => exact .ended r (hRS _ _ h)

/-- Outcomes that agree with one outcome agree with each other. -/
theorem Agree.trans {Q : σ → υ → Prop} {P : υ → τ → Prop} {o'' : Except δ (Except ε α × υ)}
    (h : Agree Q o o'') (h' : Agree P o'' o') : Agree (fun s t => ∃ u, Q s u ∧ P u t) o o' := by
  cases h with
  | failed e =>
    cases h'
    exact .failed e
  | ended r hq =>
    cases h' with
    | ended r hp => exact .ended r ⟨_, hq, hp⟩

theorem Agree.symm (h : Agree R o o') : Agree (fun t s => R s t) o' o := by
  cases h with
  | failed e => exact .failed e
  | ended r h => exact .ended r h

theorem Simulates.pure (a : α) : Simulates R (pure a : Prog σ ε δ α) (pure a) :=
  fun _ _ h => .ended _ h

theorem Simulates.throw (e : ε) : Simulates R (throw e : Prog σ ε δ α) (throw e) :=
  fun _ _ h => .ended _ h

/-- Programs in step stay in step, since they return the same value to what comes next. -/
theorem Simulates.bind (hx : Simulates R x y) (hf : ∀ a, Simulates R (f a) (f' a)) :
    Simulates R (x >>= f) (y >>= f') := by
  intro s t h
  have hxy := hx s t h
  rw [bind_apply, bind_apply]
  generalize x s = o at hxy
  generalize y t = o' at hxy
  cases hxy with
  | failed e => exact .failed e
  | ended r h =>
    cases r with
    | error e => exact .ended _ h
    | ok a => exact hf a _ _ h

/-- Programs in step throw the same exception to their handlers. -/
theorem Simulates.tryCatch (hx : Simulates R x y) (hg : ∀ e, Simulates R (g e) (g' e)) :
    Simulates R (tryCatch x g) (tryCatch y g') := by
  intro s t h
  have hxy := hx s t h
  rw [tryCatch_apply, tryCatch_apply]
  generalize x s = o at hxy
  generalize y t = o' at hxy
  cases hxy with
  | failed e => exact .failed e
  | ended r h =>
    cases r with
    | error e => exact hg e _ _ h
    | ok a => exact .ended _ h

/-- In step on a part of the state, and so on the whole, when the rest is kept related. -/
theorem Simulates.zoom {ω : Type} {Q : υ → ω → Prop} {get : υ → σ} {set : υ → σ → υ}
    {get' : ω → τ} {set' : ω → τ → ω} (h : Simulates R x y)
    (hget : ∀ u v, Q u v → R (get u) (get' v))
    (hset : ∀ u v s t, Q u v → R s t → Q (set u s) (set' v t)) :
    Simulates Q (zoom get set x) (zoom get' set' y) := by
  intro u v huv
  have hxy := h _ _ (hget u v huv)
  rw [Effect.zoom, Effect.zoom]
  generalize x (get u) = o at hxy
  generalize y (get' v) = o' at hxy
  cases hxy with
  | failed e => exact .failed e
  | ended r h => exact .ended r (hset u v _ _ huv h)

theorem Simulates.onFst (h : Simulates R x y) :
    Simulates (fun (p : σ × υ) (q : τ × υ) => R p.1 q.1 ∧ p.2 = q.2) (onFst x) (onFst y) :=
  h.zoom (fun _ _ hpq => hpq.1) fun _ _ _ _ hpq hst => ⟨hst, hpq.2⟩

end Binary

end Effect
