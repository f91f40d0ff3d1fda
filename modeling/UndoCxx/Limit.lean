import UndoCxx.Run

/-! The size limit: when it is honoured, and what a limited history forgets. -/
namespace UndoCxx

open Cxx

variable {A μ : Type} {sem : Sentinel} {heap : Heap A μ} {a : A} {ks : List Call}

/-- The call records a memento. -/
def Records (heap : Heap A μ) (a : A) (k : Call) : Prop := ∃ m, request heap a k = .record m

namespace History

variable {h h' : History μ} {r : Request μ}

/-- One eviction makes room for one memento, and for no more. -/
theorem size_record_le (m : μ) (hc : h.CanRecord) :
    (h.record m).size ≤ h.limit ↔ h.pos ≤ h.limit := by
  have hsize : (h.record m).size = (h.stack.record h.limit ⟨h.serial, m⟩).past.length := by
    rw [size_eq]
    rfl
  rw [hsize, TwoStack.length_past_record, pos]
  rcases hc with hl | hp
  · split <;> omega
  · have hpos : 0 < h.stack.past.length := List.length_pos_iff.mpr hp
    split <;> omega

end History

theorem Session.size_record_iff {x y : Session A μ} {k : Call} (hr : Records heap x.app k)
    (h : x.step sem heap k = .ok y) :
    y.toWorld.mgr.size ≤ y.toWorld.mgr.maxSize ↔
      ∃ p, x.toWorld.mgr.position = .ok p ∧ p ≤ x.toWorld.mgr.maxSize := by
  obtain ⟨m, hr⟩ := hr
  obtain ⟨hc, hy⟩ := Session.history_record hr h
  have hiff : y.history.size ≤ y.history.limit ↔ x.history.pos ≤ x.history.limit := by
    rw [hy]
    exact History.size_record_le m hc
  constructor
  · intro hle
    exact ⟨x.history.pos, History.position_toMgr _, hiff.mp hle⟩
  · rintro ⟨p, hp, hle⟩
    obtain rfl : x.history.pos = p := History.pos_of_position hp
    exact hiff.mpr hle

/-- A memento is recorded within the limit exactly when the mementos before the cursor are. A run
honours the limit when it never records with more than `max_size()` of them. -/
theorem limit_honoured_iff (sem : Sentinel) (heap : Heap A μ) (a : A) (ks : List Call) :
    (∀ u k v, Machine.Occurs (step sem heap) (.start a) ks u k v → Records heap u.app k →
      v.mgr.size ≤ v.mgr.maxSize) ↔
    ∀ u k v, Machine.Occurs (step sem heap) (.start a) ks u k v → Records heap u.app k →
      ∃ p, u.mgr.position = .ok p ∧ p ≤ u.mgr.maxSize := by
  have hiff : ∀ u k v, Machine.Occurs (step sem heap) (.start a) ks u k v →
      Records heap u.app k → (v.mgr.size ≤ v.mgr.maxSize ↔
        ∃ p, u.mgr.position = .ok p ∧ p ≤ u.mgr.maxSize) := by
    intro u k v ho hr
    rw [Session.start_toWorld] at ho
    obtain ⟨x, y, rfl, rfl, hxy⟩ := Session.occurs_toWorld ho
    exact Session.size_record_iff hr hxy.taken
  constructor
  · intro hall u k v ho hr
    exact (hiff u k v ho hr).mp (hall u k v ho hr)
  · intro hall u k v ho hr
    exact (hiff u k v ho hr).mpr (hall u k v ho hr)

/-- Lowering the limit below the size and then recording leaves two mementos too many. -/
theorem limit_exceeded :
    ¬ ∀ u k v, Machine.Occurs (step .standard counterHeap) (.start 0)
        [.invoke 2, .invoke 2, .invoke 2, .maxSize 1, .invoke 2] u k v →
      Records counterHeap u.app k → v.mgr.size ≤ v.mgr.maxSize := by
  intro hall
  obtain ⟨u, hu⟩ : ∃ u, Machine.run (step .standard counterHeap) (.start 0)
      [.invoke 2, .invoke 2, .invoke 2, .maxSize 1] = .ok u := ⟨_, rfl⟩
  obtain ⟨v, hv⟩ : ∃ v, step .standard counterHeap u (.invoke 2) = .ok v := by
    cases hu
    exact ⟨_, rfl⟩
  have hle := hall u (.invoke 2) v ⟨_, [], rfl, hu, hv⟩ ⟨_, rfl⟩
  cases hu
  cases hv
  revert hle
  decide

/-- `push` evicts nothing, or finds a memento to evict. -/
def PopsNonEmpty (s : UndoableCmdSystem μ) : Prop :=
  ∀ l, s.eraseTail = .ok l → s._maxSize ≤ l.size → l.empty = false

/-- What the truncation leaves to evict is what lies before the cursor. -/
theorem History.popsNonEmpty_iff (h : History μ) :
    PopsNonEmpty h.toMgr ↔ 1 ≤ h.limit ∨ 1 ≤ h.pos := by
  have hsize : h.pastList.size = h.pos := h.size_pastList
  have hempty : h.pastList.empty = false ↔ 1 ≤ h.pos := by
    rw [StdList.empty, List.isEmpty_eq_false_iff, ← List.length_pos_iff, ← hsize]
    rfl
  have hmax : h.toMgr._maxSize = h.limit := rfl
  constructor
  · intro hpop
    by_cases hl : 1 ≤ h.limit
    · exact Or.inl hl
    · right
      rw [← hempty]
      apply hpop _ h.eraseTail_toMgr
      rw [hmax]
      omega
  · intro hc l hl hge
    rw [h.eraseTail_toMgr] at hl
    cases hl
    rw [hmax, hsize] at hge
    rw [hempty]
    rcases hc with hc | hc
    · exact Nat.le_trans hc hge
    · exact hc

/-- In every run the eviction finds a memento exactly when each recording starts with a limit of
at least one or with its cursor after some memento. -/
theorem pops_nonempty_iff (sem : Sentinel) (heap : Heap A μ) (a : A) (ks : List Call) :
    (∀ u k, Machine.Attempts (step sem heap) (.start a) ks u k → Records heap u.app k →
      PopsNonEmpty u.mgr) ↔
    ∀ u k, Machine.Attempts (step sem heap) (.start a) ks u k → Records heap u.app k →
      1 ≤ u.mgr.maxSize ∨ ∃ p, u.mgr.position = .ok p ∧ 1 ≤ p := by
  have hiff : ∀ u k, Machine.Attempts (step sem heap) (.start a) ks u k →
      (PopsNonEmpty u.mgr ↔ 1 ≤ u.mgr.maxSize ∨ ∃ p, u.mgr.position = .ok p ∧ 1 ≤ p) := by
    intro u k ho
    rw [Session.start_toWorld] at ho
    obtain ⟨x, rfl, -⟩ := Session.attempts_toWorld ho
    have hpos : (∃ p, x.toWorld.mgr.position = .ok p ∧ 1 ≤ p) ↔ 1 ≤ x.history.pos := by
      constructor
      · rintro ⟨p, hp, hle⟩
        obtain rfl : x.history.pos = p := History.pos_of_position hp
        exact hle
      · intro hle
        exact ⟨_, History.position_toMgr _, hle⟩
    rw [hpos]
    exact x.history.popsNonEmpty_iff
  constructor
  · intro hall u k ho hr
    exact (hiff u k ho).mp (hall u k ho hr)
  · intro hall u k ho hr
    exact (hiff u k ho).mpr (hall u k ho hr)

/-- A limit of zero makes the first recording pop from the empty list. -/
theorem pops_empty :
    Machine.run (step .standard counterHeap) (.start 0) [.maxSize 0, .invoke 2] =
        .error .emptyContainer ∧
      ¬ ∀ u k, Machine.Attempts (step .standard counterHeap) (.start 0) [.maxSize 0, .invoke 2]
        u k → Records counterHeap u.app k → PopsNonEmpty u.mgr := by
  refine ⟨rfl, ?_⟩
  intro hall
  obtain ⟨u, hu⟩ : ∃ u, Machine.run (step .standard counterHeap) (.start 0) [.maxSize 0] = .ok u :=
    ⟨_, rfl⟩
  have hpop := hall u (.invoke 2) ⟨_, [], rfl, hu⟩ ⟨_, rfl⟩
  cases hu
  have hempty := hpop _ rfl (Nat.le_refl 0)
  cases hempty

/-! Two runs of the same calls, with and without a limit -/

theorem not_undoes_recordable {c : CmdId} (hc : (heap c).kind = .recordable) :
    ¬ Undoes heap (.invoke c) := by
  rintro (⟨c', he⟩ | ⟨d, hd⟩)
  · cases he
  · cases hd with
    | command c hk =>
      rw [hc] at hk
      cases hk

/-- The limited list is a suffix of the other, and redo would replay the same in both. -/
structure SuffixOf (limited unlimited : UndoableCmdSystem μ) : Prop where
  nodes : limited._savedStates.nodes <:+ unlimited._savedStates.nodes
  redo : ∃ p q, limited.position = .ok p ∧ unlimited.position = .ok q ∧
    limited._savedStates.nodes.drop p = unlimited._savedStates.nodes.drop q

namespace History

variable {h h' : History μ} {r : Request μ}

theorem suffixOf_of_forgets (hf : h'.stack.Forgets h.stack) : SuffixOf h'.toMgr h.toMgr where
  nodes := hf.entries
  redo := by
    refine ⟨h'.pos, h.pos, position_toMgr h', position_toMgr h, ?_⟩
    have hdrop : ∀ g : History μ, g.toMgr._savedStates.nodes.drop g.pos = g.stack.future := by
      intro g
      rw [nodes_toMgr, pos, ← List.length_reverse, List.drop_left]
    rw [hdrop, hdrop]
    exact hf.2

theorem forgets_undo (hf : h'.stack.Forgets h.stack)
    (hundo : h.undo.pos ≠ h.pos → h'.undo.pos ≠ h'.pos) :
    h'.undo.stack.Forgets h.undo.stack := by
  have hle : h'.pos ≤ h.pos := hf.1.length_le
  have hu : h.undo.pos = h.pos - 1 := pos_iterate_undo 1 h
  have hu' : h'.undo.pos = h'.pos - 1 := pos_iterate_undo 1 h'
  by_cases hp : h.pos = 0
  · have hnil : h.stack.past = [] := List.length_eq_zero_iff.mp hp
    have hnil' : h'.stack.past = [] := List.length_eq_zero_iff.mp (Nat.le_zero.mp (hp ▸ hle))
    rw [undo_of_past_nil hnil, undo_of_past_nil hnil']
    exact hf
  · have hmoved := hundo (by omega)
    have hone : 1 ≤ h'.stack.past.length := by
      rw [← pos]
      omega
    exact hf.iterate_undo hone

theorem forgets_undoBy (hf : h'.stack.Forgets h.stack) (d : ℤ)
    (hundo : (h.after (.undoBy d)).pos ≠ h.pos → (h'.after (.undoBy d)).pos ≠ h'.pos) :
    (h'.after (.undoBy d)).stack.Forgets (h.after (.undoBy d)).stack := by
  have hle : h'.pos ≤ h.pos := hf.1.length_le
  by_cases hz : d.toNat = 0
  · have hsame : ∀ g : History μ, g.after (.undoBy d) = g := by
      intro g
      rw [after, hz]
      split <;> rfl
    rw [hsame, hsame]
    exact hf
  by_cases hlt : d < h.pos
  · have hmoved := hundo (by
      rw [after, if_pos hlt, pos_iterate_undo]
      omega)
    have hlt' : d < h'.pos := by
      by_contra hge
      rw [after, if_neg hge] at hmoved
      exact hmoved rfl
    rw [after, after, if_pos hlt, if_pos hlt', stack_iterate_undo, stack_iterate_undo]
    apply hf.iterate_undo
    rw [← pos]
    omega
  · rw [after, after, if_neg hlt, if_neg (by omega)]
    exact hf

/-- The guard of a batch redo is the same in both, as it looks at the future only. -/
theorem forgets_redoBy (hf : h'.stack.Forgets h.stack) (d : ℤ) :
    (h'.after (.redoBy d)).stack.Forgets (h.after (.redoBy d)).stack := by
  have hfuture : h'.stack.future = h.stack.future := hf.2
  have hiff : h'.pos + d ≤ h'.size ↔ h.pos + d ≤ h.size := by
    rw [size_eq, size_eq, hfuture]
    omega
  rw [after, after]
  by_cases hin : h.pos + d ≤ h.size
  · rw [if_pos hin, if_pos (hiff.mpr hin), stack_iterate_redo, stack_iterate_redo]
    exact hf.iterate_redo _
  · rw [if_neg hin, if_neg (fun hin' => hin (hiff.mp hin'))]
    exact hf

/-- Every request keeps the relation, an undo only if both histories can follow it. -/
theorem forgets_after (hf : h'.stack.Forgets h.stack) (hs : h'.serial = h.serial)
    (hl : h'.limit ≤ h.limit)
    (hundo : (r = .undo ∨ ∃ d, r = .undoBy d) →
      (h.after r).pos ≠ h.pos → (h'.after r).pos ≠ h'.pos) :
    (h'.after r).stack.Forgets (h.after r).stack := by
  cases r with
  | nothing => exact hf
  | record m =>
    have hr : (h'.stack.record h'.limit ⟨h'.serial, m⟩).Forgets
        (h.stack.record h.limit ⟨h.serial, m⟩) := by
      rw [hs]
      exact hf.record hl _
    exact hr
  | move dir =>
    cases dir with
    | back => exact forgets_undo hf (hundo (Or.inl rfl))
    | forth => exact hf.iterate_redo 1
  | batch dir d =>
    cases dir with
    | back => exact forgets_undoBy hf d (hundo (Or.inr ⟨d, rfl⟩))
    | forth => exact forgets_redoBy hf d
  | erase n => exact hf.erase n.toNat
  | clear => exact ⟨List.prefix_refl _, rfl⟩
  | limit n => exact hf

end History

namespace Session

variable {x y : Session A μ} {k : Call}

/-- `y` is the session with the smaller limit after the same calls as `x`. -/
structure Tracks (y x : Session A μ) : Prop where
  app : y.app = x.app
  forgets : y.history.stack.Forgets x.history.stack
  serial : y.history.serial = x.history.serial
  positive : 0 < y.history.limit
  limit : y.history.limit ≤ x.history.limit

theorem moves_iff_pos (hz : x.step sem heap k = .ok y) :
    Moves sem heap x.toWorld k ↔ y.history.pos ≠ x.history.pos := by
  have hstep : UndoCxx.step sem heap x.toWorld k = .ok y.toWorld := by
    rw [step_toWorld, hz]
    rfl
  have hp : ∀ z : Session A μ, z.toWorld.mgr.position = .ok z.history.pos :=
    fun z => History.position_toMgr _
  constructor
  · rintro ⟨v, hv, hne⟩ he
    rw [hstep] at hv
    cases hv
    rw [hp, hp, he] at hne
    exact hne rfl
  · intro hne
    refine ⟨y.toWorld, hstep, ?_⟩
    rw [hp, hp]
    intro he
    exact hne (Except.ok.inj he)

theorem request_ne_limit (hm : ∀ n, k ≠ .maxSize n) (n : ℕ) : request heap a k ≠ .limit n := by
  cases k with
  | invoke c =>
    rcases request_invoke heap a c with hr | ⟨m, hr⟩ | ⟨dir, d, hr, -⟩ <;> simp [hr]
  | maxSize m => exact absurd rfl (hm m)
  | undo | redo | undoBy | redoBy | erase | clear => simp [request]

theorem Tracks.after (ht : y.Tracks x) (hm : ∀ n, k ≠ .maxSize n)
    (hundo : Undoes heap k → (x.after heap k).history.pos ≠ x.history.pos →
      (y.after heap k).history.pos ≠ y.history.pos) :
    (y.after heap k).Tracks (x.after heap k) := by
  obtain ⟨happ, hf, hs, hpos, hl⟩ := ht
  have hr : request heap y.app k = request heap x.app k := by rw [happ]
  have hy : (y.after heap k).history = y.history.after (request heap x.app k) := by
    rw [← hr]
    rfl
  have hne : ∀ n, request heap x.app k ≠ .limit n := request_ne_limit hm
  constructor
  · change appAfter heap y.app k = appAfter heap x.app k
    rw [happ]
  · rw [hy]
    apply History.forgets_after hf hs hl
    intro hreq hx
    rw [← hy]
    exact hundo (undoes_of_request hreq) hx
  · rw [hy, History.serial_after, hs, ← History.serial_after]
    rfl
  · rw [hy, History.limit_after hne]
    exact hpos
  · rw [hy, History.limit_after hne]
    exact Nat.le_trans hl (Nat.le_of_eq (History.limit_after hne).symm)

def limited (n : ℕ) (a : A) : Session A μ := ⟨a, History.fresh.setLimit n, []⟩

theorem tracks_start {n : ℕ} (hn : 1 ≤ n) (hmax : n ≤ sizeTMax) (a : A) :
    (limited n a : Session A μ).Tracks (start a) where
  app := rfl
  forgets := ⟨List.prefix_refl _, rfl⟩
  serial := rfl
  positive := hn
  limit := hmax

/-- Both sessions can take the call, and the limited one follows an undo of the other. -/
structure Follows (sem : Sentinel) (heap : Heap A μ) (p : Session A μ × Session A μ) (k : Call) :
    Prop where
  limit : ∀ n, k ≠ .maxSize n
  legal : k.Legal heap p.1.history.toMgr
  legal' : k.Legal heap p.2.history.toMgr
  undo : Undoes heap k → Moves sem heap p.1.toWorld k → Moves sem heap p.2.toWorld k

variable {p q : Session A μ × Session A μ}

theorem tracks_step (ht : p.2.Tracks p.1) (hk : Follows sem heap p k)
    (h : Machine.both (step sem heap) p k = .ok q) : q.2.Tracks q.1 := by
  obtain ⟨h1, h2⟩ := Machine.both_eq_ok.mp h
  have he1 := eq_after hk.legal (Nat.lt_of_lt_of_le ht.positive ht.limit) h1
  have he2 := eq_after hk.legal' ht.positive h2
  have hundo := hk.undo
  rw [moves_iff_pos h1, moves_iff_pos h2, he1, he2] at hundo
  rw [he1, he2]
  exact ht.after hk.limit hundo

/-- On circular lists both sessions can take the step. -/
theorem tracks_step_total (ht : p.2.Tracks p.1) (hk : Follows .cyclic heap p k) :
    ∃ q, Machine.both (step .cyclic heap) p k = .ok q ∧ q.2.Tracks q.1 := by
  have hl : 0 < p.1.history.limit := Nat.lt_of_lt_of_le ht.positive ht.limit
  have h1 : p.1.step .cyclic heap k = .ok (p.1.after heap k) :=
    step_legal hk.legal hl fun _ _ => Or.inl rfl
  have h2 : p.2.step .cyclic heap k = .ok (p.2.after heap k) :=
    step_legal hk.legal' ht.positive fun _ _ => Or.inl rfl
  have hq : Machine.both (step .cyclic heap) p k = .ok (p.1.after heap k, p.2.after heap k) :=
    Machine.both_eq_ok.mpr ⟨h1, h2⟩
  exact ⟨_, hq, tracks_step ht hk hq⟩

theorem tracks_visits (ht : p.2.Tracks p.1)
    (hk : ∀ q k, Machine.Attempts (Machine.both (step sem heap)) p ks q k → Follows sem heap q k)
    (hv : Machine.Visits (Machine.both (step sem heap)) p ks q) : q.2.Tracks q.1 := by
  refine Machine.visits_preserves (I := fun q => q.2.Tracks q.1) ?_ ht hv
  intro u k v ho hu
  exact tracks_step hu (hk u k ho.attempts) ho.taken

end Session

/-- A fresh manager whose limit was set to `n`. -/
def World.limited (n : ℕ) (a : A) : World A μ :=
  { World.start a with mgr := UndoableCmdSystem.fresh.setMaxSize n }

/-- The manager with a limit holds the newest mementos of the one without, and redoes the same, as
long as it can follow every undo that the other one makes. -/
theorem limited_forgets_oldest (n : ℕ) (hn : 1 ≤ n) (hmax : n ≤ sizeTMax) (a : A) (ks : List Call)
    (hm : ∀ k ∈ ks, ∀ m, k ≠ .maxSize m)
    (hlegal : ∀ u l k, Machine.Attempts (Machine.both (step sem heap)) (.start a, .limited n a) ks
      (u, l) k → k.Legal heap u.mgr ∧ k.Legal heap l.mgr)
    (hundo : ∀ u l k, Machine.Attempts (Machine.both (step sem heap)) (.start a, .limited n a) ks
      (u, l) k → Undoes heap k → Moves sem heap u k → Moves sem heap l k) :
    (sem = .cyclic →
      ∃ w, Machine.run (Machine.both (step sem heap)) (.start a, .limited n a) ks = .ok w) ∧
    ∀ u l, Machine.Visits (Machine.both (step sem heap)) (.start a, .limited n a) ks (u, l) →
      SuffixOf l.mgr u.mgr := by
  have hmap : ∀ p k, Machine.both (step sem heap) (p.map Session.toWorld Session.toWorld) k =
      (Machine.both (Session.step sem heap) p k).map (Prod.map Session.toWorld Session.toWorld) :=
    Machine.both_map Session.step_toWorld
  have hstart : (World.start a, World.limited n a) =
      Prod.map Session.toWorld Session.toWorld
        ((.start a, .limited n a) : Session A μ × Session A μ) := rfl
  have hfollows : ∀ p k, Machine.Attempts (Machine.both (Session.step sem heap))
      (.start a, .limited n a) ks p k → Session.Follows sem heap p k := by
    intro p k ho
    obtain ⟨hk, hk'⟩ := hlegal _ _ k (ho.map hmap)
    exact ⟨hm k ho.mem, hk, hk', hundo _ _ k (ho.map hmap)⟩
  have htracks := Session.tracks_start (μ := μ) hn hmax a
  constructor
  · rintro rfl
    have hstep : ∀ p k, Machine.Attempts (Machine.both (Session.step .cyclic heap))
        (.start a, .limited n a) ks p k → p.2.Tracks p.1 →
        ∃ q, Machine.both (Session.step .cyclic heap) p k = .ok q ∧ q.2.Tracks q.1 := by
      intro p k ho ht
      exact Session.tracks_step_total ht (hfollows p k ho)
    obtain ⟨q, hq, -⟩ := Machine.run_total hstep htracks
    exact ⟨_, by rw [hstart, Machine.run_map hmap, hq, Machine.map_ok]⟩
  · intro u l hv
    rw [hstart] at hv
    obtain ⟨p, hp, hv⟩ := Machine.visits_map hmap hv
    have ht : p.2.Tracks p.1 := Session.tracks_visits htracks hfollows hv
    obtain ⟨rfl, rfl⟩ := Prod.mk.inj hp
    exact History.suffixOf_of_forgets ht.forgets

/-- Two commands under a limit of one, and an undo that both managers follow. -/
theorem limited_forgets_oldest_counter :
    ∃ u l, Machine.run (Machine.both (step .cyclic counterHeap)) (.start 0, .limited 1 0)
        [.invoke 2, .invoke 3, .undo 0] = .ok (u, l) ∧
      l.mgr.size < u.mgr.size ∧ SuffixOf l.mgr u.mgr := by
  obtain ⟨w, hw⟩ : ∃ w, Machine.run (Machine.both (step .cyclic counterHeap))
      (.start 0, .limited 1 0) [.invoke 2, .invoke 3, .undo 0] = .ok w := ⟨_, rfl⟩
  have hsize : w.2.mgr.size < w.1.mgr.size := by
    cases hw
    decide
  refine ⟨w.1, w.2, hw, hsize, ?_⟩
  have hmain := @limited_forgets_oldest ℤ (Memento ℤ) .cyclic counterHeap 1 (by decide)
    (by decide) 0 [.invoke 2, .invoke 3, .undo 0] (by simp) ?_ ?_
  · exact hmain.2 w.1 w.2 ⟨_, [], (List.append_nil _).symm, hw⟩
  · intro u l k ho
    have hmem := ho.mem
    simp only [List.mem_cons, List.not_mem_nil, or_false] at hmem
    rcases hmem with rfl | rfl | rfl <;> exact ⟨trivial, trivial⟩
  · intro u l k ho hk
    rcases Machine.attempts_cons ho with ⟨-, rfl⟩ | ⟨t, ht, ho⟩
    · exact absurd hk (not_undoes_recordable rfl)
    cases ht
    rcases Machine.attempts_cons ho with ⟨-, rfl⟩ | ⟨t, ht, ho⟩
    · exact absurd hk (not_undoes_recordable rfl)
    cases ht
    rcases Machine.attempts_cons ho with ⟨he, rfl⟩ | ⟨t, ht, ho⟩
    · cases he
      intro _
      refine ⟨_, rfl, ?_⟩
      intro h
      have := Except.ok.inj h
      revert this
      decide
    · exact absurd ho Machine.not_attempts_nil

end UndoCxx
