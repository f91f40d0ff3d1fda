import UndoCxx.Cxx.StringView

/-! `id_name`, the name of a type without its function scope and template arguments. -/
namespace UndoCxx

open Cxx

variable {S B A X Y T pre post v : List Char}

/-- The end of a function scope, `"()::"`. -/
def marker : List Char := ['(', ')', ':', ':']

def begin1 (v : List Char) : ℕ :=
  match find marker v with
  | some b => b + 4
  | none => 0

/-- `end`, or the length of the name where it is `npos`. -/
def nameEnd (v : List Char) : ℕ :=
  match find ['<'] v with
  | some e => e
  | none => v.length

/-- `id_name<T>()`, of the type name `v` of `T`. -/
def idName (v : List Char) : List Char := substr (begin1 v) (sizeSub (nameEnd v) (begin1 v)) v

/-- The name found is `B`, and the subtraction did not wrap around. -/
def Extracts (v B : List Char) : Prop := idName v = B ∧ begin1 v ≤ nameEnd v

theorem begin1_of_absent (h : ¬ marker <:+: v) : begin1 v = 0 := by
  rw [begin1, find_of_absent h]

theorem begin1_of_firstAfter (h : FirstAfter marker pre) :
    begin1 (pre ++ (marker ++ post)) = (pre ++ marker).length := by
  rw [begin1, find_of_firstAfter h, List.length_append]
  rfl

/-- So `substr` is given a position within the name, and does not throw. -/
theorem begin1_le_length (v : List Char) : begin1 v ≤ v.length := by
  by_cases h : marker <:+: v
  · obtain ⟨pre, post, rfl, hfirst⟩ := exists_firstAfter (by decide) h
    rw [begin1_of_firstAfter hfirst]
    simp only [List.length_append]
    omega
  · rw [begin1_of_absent h]
    exact Nat.zero_le _

theorem nameEnd_append (hX : '<' ∉ X) (hY : Y = [] ∨ ['<'] <+: Y) :
    nameEnd (X ++ Y) = X.length := by
  rcases hY with rfl | ⟨args, rfl⟩
  · rw [List.append_nil, nameEnd, find_of_absent ((List.singleton_infix_iff _ _).not.mpr hX)]
  · rw [nameEnd, find_of_firstAfter (firstAfter_singleton.mpr hX)]

/-- The marker's own parentheses keep it from overlapping what follows it. -/
theorem marker_infix_append (hY : ∀ c ∈ Y.head?, c ≠ ')' ∧ c ≠ ':') :
    marker <:+: X ++ Y ↔ marker <:+: X ∨ marker <:+: Y := by
  rw [List.infix_append_iff_ne_nil]
  constructor
  · rintro (h | h | ⟨front, back, hf, hb, he, -, hback⟩)
    · exact Or.inl h
    · exact Or.inr h
    · exfalso
      obtain ⟨rest, rfl⟩ := hback
      cases back with
      | nil => exact hb rfl
      | cons c back =>
        obtain ⟨hparen, hcolon⟩ := hY c rfl
        have hc : c ∈ marker.tail := by
          cases front with
          | nil => exact absurd rfl hf
          | cons d front =>
            rw [he, List.cons_append, List.tail_cons]
            simp
        simp [marker, hparen, hcolon] at hc
  · rintro (h | h)
    · exact Or.inl h
    · exact Or.inr (Or.inl h)

theorem firstAfter_marker : FirstAfter marker pre ↔ ¬ marker <:+: pre := by
  have hhead : ∀ c ∈ marker.dropLast.head?, c ≠ ')' ∧ c ≠ ':' := by
    intro c hc
    cases hc
    decide
  have hshort : ¬ marker <:+: marker.dropLast := not_infix_dropLast (by decide)
  rw [FirstAfter, marker_infix_append hhead, or_iff_left hshort]

theorem extracts_iff_drop (hX : '<' ∉ X) (hY : Y = [] ∨ ['<'] <+: Y) :
    Extracts (X ++ Y) B ↔ begin1 (X ++ Y) ≤ X.length ∧ X.drop (begin1 (X ++ Y)) = B := by
  rw [Extracts, idName, nameEnd_append hX hY, and_comm]
  apply and_congr_right
  intro hle
  rw [sizeSub, if_pos hle, substr, List.take_drop, Nat.add_sub_cancel' hle, List.take_left]

/-- Up to the first `'<'` the name is `B` alone, or `B` after the first marker. -/
theorem extracts_iff (hX : '<' ∉ X) (hY : Y = [] ∨ ['<'] <+: Y) :
    Extracts (X ++ Y) B ↔ ¬ marker <:+: X ++ Y ∧ X = B ∨
      ∃ T, X = T ++ marker ++ B ∧ ¬ marker <:+: T := by
  have hat : ∀ T, X = T ++ marker ++ B → ¬ marker <:+: T →
      begin1 (X ++ Y) = (T ++ marker).length := by
    rintro T rfl hT
    rw [List.append_assoc, List.append_assoc]
    exact begin1_of_firstAfter (firstAfter_marker.mpr hT)
  rw [extracts_iff_drop hX hY]
  constructor
  · rintro ⟨hle, rfl⟩
    by_cases hm : marker <:+: X ++ Y
    · obtain ⟨pre, post, he, hfirst⟩ := exists_firstAfter (by decide) hm
      have hbegin : begin1 (X ++ Y) = (pre ++ marker).length := by
        rw [he, begin1_of_firstAfter hfirst]
      rw [hbegin] at hle ⊢
      rw [← List.append_assoc] at he
      obtain ⟨rest, rfl⟩ : pre ++ marker <+: X :=
        List.prefix_of_prefix_length_le ⟨post, he.symm⟩ (List.prefix_append X Y) hle
      right
      exact ⟨pre, by rw [List.drop_left], firstAfter_marker.mp hfirst⟩
    · left
      exact ⟨hm, by rw [begin1_of_absent hm, List.drop_zero]⟩
  · rintro (⟨hm, rfl⟩ | ⟨T, hT, hno⟩)
    · rw [begin1_of_absent hm]
      exact ⟨Nat.zero_le _, List.drop_zero⟩
    · rw [hat T hT hno, hT, List.drop_left]
      exact ⟨by simp, rfl⟩

/-- Nothing comes before `B`, and no marker after it; or the scope's only marker ends it and it has
no `'<'`; or an enclosing template happens to be called `B` too. -/
def NameInSight (S B A : List Char) : Prop :=
  S = [] ∧ ¬ marker <:+: A ∨ (∃ T, S = T ++ marker ∧ '<' ∉ T ∧ ¬ marker <:+: T) ∨
    ∃ T R, S = T ++ marker ++ B ++ '<' :: R ∧ '<' ∉ T ∧ ¬ marker <:+: T

theorem marker_infix_args (hB : ¬ marker <:+: B) (hA : A = [] ∨ ['<'] <+: A) :
    marker <:+: B ++ A ↔ marker <:+: A := by
  rw [marker_infix_append, or_iff_right hB]
  intro c hc
  rcases hA with rfl | ⟨args, rfl⟩
  · cases hc
  · cases hc
    decide

theorem extracts_of_open_scope (hS : S = [] ∨ marker <:+ S) (hlt : '<' ∉ B) (h : '<' ∈ S) :
    Extracts (S ++ B ++ A) B ↔ ∃ T R, S = T ++ marker ++ B ++ '<' :: R ∧ '<' ∉ T ∧
      ¬ marker <:+: T := by
  obtain ⟨X, R, rfl, hX⟩ := List.eq_append_cons_of_mem h
  have hm : marker <:+: X ++ '<' :: R := by
    rcases hS with hnil | hs
    · simp at hnil
    · exact hs.isInfix
  have hsplit : X ++ '<' :: R ++ B ++ A = X ++ ('<' :: (R ++ B ++ A)) := by simp
  have hargs : ['<'] <+: '<' :: (R ++ B ++ A) := ⟨_, rfl⟩
  have hm' : marker <:+: X ++ '<' :: (R ++ B ++ A) := by
    rw [← hsplit, List.append_assoc]
    exact List.infix_append_of_infix_left hm
  rw [hsplit, extracts_iff hX (Or.inr hargs), or_iff_right fun hno => hno.1 hm']
  constructor
  · rintro ⟨T, rfl, hT⟩
    refine ⟨T, R, rfl, ?_, hT⟩
    simp only [List.mem_append, not_or] at hX
    exact hX.1.1
  · rintro ⟨T, R', he, hlt', hT⟩
    have hscope : '<' ∉ T ++ marker ++ B := by simp [hlt', hlt, marker]
    have hX' := firstAfter_singleton.mpr hX
    exact ⟨T, hX'.unique (firstAfter_singleton.mpr hscope) he, hT⟩

theorem extracts_of_closed_scope (hB : ¬ marker <:+: B) (hlt : '<' ∉ B)
    (hA : A = [] ∨ ['<'] <+: A) (h : '<' ∉ S) :
    Extracts (S ++ B ++ A) B ↔ S = [] ∧ ¬ marker <:+: A ∨
      ∃ T, S = T ++ marker ∧ '<' ∉ T ∧ ¬ marker <:+: T := by
  have hX : '<' ∉ S ++ B := by simp [h, hlt]
  rw [extracts_iff hX hA]
  apply or_congr
  · constructor
    · rintro ⟨hm, hS⟩
      obtain rfl : S = [] := by simpa using hS
      rw [List.nil_append, marker_infix_args hB hA] at hm
      exact ⟨rfl, hm⟩
    · rintro ⟨rfl, hm⟩
      rw [List.nil_append, marker_infix_args hB hA]
      exact ⟨hm, rfl⟩
  · constructor
    · rintro ⟨T, hT, hno⟩
      obtain rfl : S = T ++ marker := List.append_cancel_right hT
      simp only [List.mem_append, not_or] at h
      exact ⟨T, rfl, h.1, hno⟩
    · rintro ⟨T, rfl, -, hno⟩
      exact ⟨T, rfl, hno⟩

/-- `id_name` finds the bare name exactly where it is in sight. -/
theorem id_name_extracts_iff (hS : S = [] ∨ marker <:+ S) (hlt : '<' ∉ B)
    (hB : ¬ marker <:+: B) (hA : A = [] ∨ ['<'] <+: A) :
    Extracts (S ++ B ++ A) B ↔ NameInSight S B A := by
  by_cases h : '<' ∈ S
  · rw [extracts_of_open_scope hS hlt h, NameInSight]
    constructor
    · exact fun ht => Or.inr (Or.inr ht)
    · rintro (⟨rfl, -⟩ | ⟨T, rfl, hT, -⟩ | ht)
      · cases h
      · simp [hT, marker] at h
      · exact ht
  · have hclosed : ¬ ∃ T R, S = T ++ marker ++ B ++ '<' :: R ∧ '<' ∉ T ∧ ¬ marker <:+: T := by
      rintro ⟨T, R, rfl, -⟩
      simp at h
    rw [extracts_of_closed_scope hB hlt hA h, NameInSight, or_iff_left hclosed]

/-- A class that is local to a function. -/
theorem id_name_extracts_local : Extracts ("test_9()::".toList ++ "A".toList ++ []) "A".toList := by
  rw [id_name_extracts_iff (by decide) (by decide) (by decide) (by decide)]
  exact Or.inr (Or.inl ⟨"test_9".toList, by decide, by decide, by decide⟩)

/-- A marker in the arguments comes after the `'<'`, and one after a template's scope does too: the
length wraps around, and either way the tail of the name is returned. -/
theorem id_name_wraps :
    idName ("FontStyleCmd".toList ++ "<main()::State>".toList) = "State>".toList ∧
      idName ("run<int>()::".toList ++ "Cmd".toList ++ "<int>".toList) = "Cmd<int>".toList ∧
      ¬ Extracts ([] ++ "FontStyleCmd".toList ++ "<main()::State>".toList)
        "FontStyleCmd".toList := by
  refine ⟨by decide, by decide, ?_⟩
  rw [Extracts]
  decide

end UndoCxx
