import Mathlib.Data.List.Infix
import UndoCxx.Cxx.Int

/-! Searching and cutting a `std::string_view`, over any type of characters. -/
namespace Cxx

variable {α : Type} {pat v pre post : List α}

/-- `v.find(pat)`, with `none` for `npos`. -/
def find [DecidableEq α] (pat : List α) : List α → Option ℕ
  | [] => if pat = [] then some 0 else none
  | c :: cs => if pat.isPrefixOf (c :: cs) then some 0 else (find pat cs).map (· + 1)

/-- `v.substr(pos, n)`, for a `pos` within the string. -/
def substr (pos n : ℕ) (v : List α) : List α := (v.drop pos).take n

/-- `a - b` in `size_type` -/
def sizeSub (a b : ℕ) : ℕ := if b ≤ a then a - b else a + (sizeTMax + 1) - b

theorem sizeSub_of_le {a b : ℕ} (h : b ≤ a) : sizeSub a b = a - b := if_pos h

/-- After `pre` the pattern can start, and no earlier. -/
def FirstAfter (pat pre : List α) : Prop := ¬ pat <:+: pre ++ pat.dropLast

theorem not_infix_dropLast (hne : pat ≠ []) : ¬ pat <:+: pat.dropLast := by
  intro h
  have hlen := h.length_le
  have hpos := List.length_pos_of_ne_nil hne
  rw [List.length_dropLast] at hlen
  omega

theorem prefix_complete (c : α) :
    c :: (pre ++ pat.dropLast) <+: c :: (pre ++ (pat ++ post)) := by
  rw [List.cons_prefix_cons]
  refine ⟨rfl, ?_⟩
  rw [List.prefix_append_right_inj]
  exact (List.dropLast_prefix pat).trans (List.prefix_append pat post)

theorem firstAfter_singleton {c : α} : FirstAfter [c] pre ↔ c ∉ pre := by
  rw [FirstAfter, List.dropLast_singleton, List.append_nil, List.singleton_infix_iff]

/-- A pattern that occurs has a first occurrence. -/
theorem exists_firstAfter (hne : pat ≠ []) (h : pat <:+: v) :
    ∃ pre post, v = pre ++ (pat ++ post) ∧ FirstAfter pat pre := by
  induction v with
  | nil =>
    rw [List.infix_nil] at h
    exact absurd h hne
  | cons c v ih =>
    by_cases hp : pat <+: c :: v
    · obtain ⟨post, hpost⟩ := hp
      exact ⟨[], post, hpost.symm, not_infix_dropLast hne⟩
    · rw [List.infix_cons_iff] at h
      obtain ⟨pre, post, rfl, hfirst⟩ := ih (h.resolve_left hp)
      refine ⟨c :: pre, post, rfl, ?_⟩
      rw [FirstAfter, List.cons_append, List.infix_cons_iff, not_or]
      exact ⟨fun hpre => hp (hpre.trans (prefix_complete c)), hfirst⟩

/-- A pattern whose first character does not return in it cannot overlap itself. -/
theorem firstAfter_cons {c : α} (hc : c ∉ pat) :
    FirstAfter (c :: pat) pre ↔ ¬ c :: pat <:+: pre := by
  rw [FirstAfter, List.infix_append_iff_ne_nil]
  constructor
  · intro h hpre
    exact h (.inl hpre)
  · rintro h (hpre | hshort | ⟨front, back, hf, hb, he, -, hback⟩)
    · exact h hpre
    · exact not_infix_dropLast (List.cons_ne_nil c pat) hshort
    · have hback : back <+: c :: pat := hback.trans (List.dropLast_prefix _)
      cases front with
      | nil => exact hf rfl
      | cons d front =>
        obtain ⟨rfl, rfl⟩ := List.cons.inj he
        cases back with
        | nil => exact hb rfl
        | cons e back =>
          obtain ⟨rfl, -⟩ := List.cons_prefix_cons.mp hback
          simp at hc

/-- No occurrence starts before the first. -/
theorem FirstAfter.length_le {pre' post' : List α} (h : FirstAfter pat pre)
    (he : pre ++ (pat ++ post) = pre' ++ (pat ++ post')) : pre.length ≤ pre'.length := by
  by_contra hlt
  have hfirst : pre ++ pat.dropLast <+: pre ++ (pat ++ post) := by
    rw [List.prefix_append_right_inj]
    exact (List.dropLast_prefix pat).trans (List.prefix_append pat post)
  have hother : pre' ++ pat <+: pre ++ (pat ++ post) := by
    rw [he, List.prefix_append_right_inj]
    exact List.prefix_append pat post'
  have hlen : (pre' ++ pat).length ≤ (pre ++ pat.dropLast).length := by
    simp only [List.length_append, List.length_dropLast]
    omega
  have hpre := List.prefix_of_prefix_length_le hother hfirst hlen
  exact h (List.infix_append_right.trans hpre.isInfix)

variable [DecidableEq α]

theorem find_eq_zero : find pat v = some 0 ↔ pat <+: v := by
  cases v with
  | nil =>
    rw [find, List.prefix_nil, ite_eq_left_iff]
    simp
  | cons c v =>
    rw [← List.isPrefixOf_iff_prefix, find, ite_eq_left_iff]
    cases find pat v <;> simp

theorem find_of_absent (h : ¬ pat <:+: v) : find pat v = none := by
  induction v with
  | nil =>
    have hne : pat ≠ [] := by
      rintro rfl
      exact h List.nil_infix
    rw [find, if_neg hne]
  | cons c v ih =>
    rw [List.infix_cons_iff, not_or] at h
    obtain ⟨hp, hi⟩ := h
    rw [← List.isPrefixOf_iff_prefix] at hp
    rw [find, if_neg hp, ih hi, Option.map_none]

/-- A search finds the first occurrence. -/
theorem find_of_firstAfter (h : FirstAfter pat pre) :
    find pat (pre ++ (pat ++ post)) = some pre.length := by
  induction pre with
  | nil =>
    have hp : pat <+: pat ++ post := List.prefix_append pat post
    rw [List.nil_append, List.length_nil]
    cases hv : pat ++ post with
    | nil =>
      rw [find, if_pos (List.append_eq_nil_iff.mp hv).1]
    | cons c v =>
      rw [hv, ← List.isPrefixOf_iff_prefix] at hp
      rw [find, if_pos hp]
  | cons c pre ih =>
    rw [FirstAfter, List.cons_append, List.infix_cons_iff, not_or] at h
    obtain ⟨hp, hi⟩ := h
    have hno : ¬ pat.isPrefixOf (c :: (pre ++ (pat ++ post))) = true := by
      rw [List.isPrefixOf_iff_prefix]
      intro hpre
      -- an occurrence here would end before the one after `c :: pre` is complete
      apply hp
      apply List.prefix_of_prefix_length_le hpre (prefix_complete c)
      simp only [List.length_cons, List.length_append, List.length_dropLast]
      omega
    rw [List.cons_append, find, if_neg hno, ih hi]
    rfl

/-- A text has one first occurrence, so what stands before it is fixed. -/
theorem FirstAfter.unique {pre' post' : List α} (h : FirstAfter pat pre)
    (h' : FirstAfter pat pre') (he : pre ++ (pat ++ post) = pre' ++ (pat ++ post')) :
    pre = pre' := by
  have hfind := (find_of_firstAfter h : find pat (pre ++ (pat ++ post)) = _)
  rw [he, find_of_firstAfter h'] at hfind
  exact List.append_inj_left he (Option.some.inj hfind).symm

end Cxx
