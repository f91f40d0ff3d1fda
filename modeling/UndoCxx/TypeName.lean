import UndoCxx.Factory

/-!
`type_name`, the name of a type cut out of the text that the compiler gives a
function template, and the ids of a factory that are made of it.
-/
namespace UndoCxx

open Cxx

variable {kw T v : List Char}

/-- `type_name<void>()` -/
def proberName : List Char := "void".toList

/-- What the compiler writes around the type in `__PRETTY_FUNCTION__` or `__FUNCSIG__`. -/
structure Signature where
  before : List Char
  after : List Char

/-- `v.substr(pos)`, for a `pos` within the string. -/
def substrFrom (pos : ℕ) (v : List Char) : List Char := v.drop pos

/-- `r.substr(r.find(kw) == 0 ? kw.length() : 0)` -/
def dropKeyword (kw r : List Char) : List Char :=
  substrFrom (if find kw r = some 0 then kw.length else 0) r

namespace Signature

variable (c : Signature)

def wrappedTypeName (T : List Char) : List Char := c.before ++ T ++ c.after

/-- `npos` where the prober is not found. -/
def wrappedTypeNamePrefixLength : ℕ :=
  (find proberName (c.wrappedTypeName proberName)).getD sizeTMax

def wrappedTypeNameSuffixLength : ℕ :=
  sizeSub (sizeSub (c.wrappedTypeName proberName).length c.wrappedTypeNamePrefixLength)
    proberName.length

/-- `detail::type_name<T>()` -/
def detailTypeName (T : List Char) : List Char :=
  let wrapped := c.wrappedTypeName T
  let length := sizeSub (sizeSub wrapped.length c.wrappedTypeNamePrefixLength)
    c.wrappedTypeNameSuffixLength
  substr c.wrappedTypeNamePrefixLength length wrapped

def typeName (T : List Char) : List Char :=
  let r := c.detailTypeName T
  let name1 := dropKeyword "struct ".toList r
  let name2 := dropKeyword "class ".toList name1
  dropKeyword "union ".toList name2

end Signature

/-! The cut -/

theorem firstAfter_prober : FirstAfter proberName v ↔ ¬ proberName <:+: v := by
  have hv : 'v' ∉ ['o', 'i', 'd'] := by decide
  exact firstAfter_cons hv

namespace Signature

variable {c : Signature}

theorem wrappedTypeName_prober (c : Signature) :
    c.wrappedTypeName proberName = c.before ++ (proberName ++ c.after) := by
  rw [wrappedTypeName, List.append_assoc]

theorem prefix_length_of_first {pre post : List Char} (hfirst : FirstAfter proberName pre)
    (he : c.before ++ (proberName ++ c.after) = pre ++ (proberName ++ post)) :
    c.wrappedTypeNamePrefixLength = pre.length := by
  rw [wrappedTypeNamePrefixLength, wrappedTypeName_prober, he, find_of_firstAfter hfirst,
    Option.getD_some]

/-- The prober is found, so that `substr` is given a position within the text. -/
theorem prefix_length_le (c : Signature) : c.wrappedTypeNamePrefixLength ≤ c.before.length := by
  have hin : proberName <:+: c.before ++ (proberName ++ c.after) := List.infix_append' _ _ _
  obtain ⟨pre, post, he, hfirst⟩ := exists_firstAfter (by decide) hin
  rw [prefix_length_of_first hfirst he]
  exact hfirst.length_le he.symm

/-- What is cut out has the length of the type's name, wherever it starts. -/
theorem detailTypeName_eq (c : Signature) (T : List Char) :
    c.detailTypeName T = substr c.wrappedTypeNamePrefixLength T.length (c.wrappedTypeName T) := by
  have hle := c.prefix_length_le
  have hprobe : (c.wrappedTypeName proberName).length =
      c.before.length + proberName.length + c.after.length := by
    simp only [wrappedTypeName, List.length_append]
  have hlen : (c.wrappedTypeName T).length = c.before.length + T.length + c.after.length := by
    simp only [wrappedTypeName, List.length_append]
  have hafter : c.wrappedTypeNameSuffixLength =
      c.before.length - c.wrappedTypeNamePrefixLength + c.after.length := by
    have hin : c.wrappedTypeNamePrefixLength ≤ (c.wrappedTypeName proberName).length := by omega
    rw [wrappedTypeNameSuffixLength, sizeSub_of_le hin, sizeSub_of_le (by omega)]
    omega
  have hcut : sizeSub (sizeSub (c.wrappedTypeName T).length c.wrappedTypeNamePrefixLength)
      c.wrappedTypeNameSuffixLength = T.length := by
    have hin : c.wrappedTypeNamePrefixLength ≤ (c.wrappedTypeName T).length := by omega
    rw [hafter, sizeSub_of_le hin, sizeSub_of_le (by omega)]
    omega
  exact congrArg (substr c.wrappedTypeNamePrefixLength · (c.wrappedTypeName T)) hcut

theorem detailTypeName_of_absent (h : ¬ proberName <:+: c.before) (T : List Char) :
    c.detailTypeName T = T := by
  rw [detailTypeName_eq, prefix_length_of_first (firstAfter_prober.mpr h) rfl, substr,
    wrappedTypeName, List.append_assoc, List.drop_left, List.take_left]

/-- Where the text in front has the prober, the cut starts at the prober's first letter. -/
theorem detailTypeName_of_present (h : proberName <:+: c.before) :
    c.detailTypeName ['x'] = ['v'] := by
  obtain ⟨pre, post, he, hfirst⟩ := exists_firstAfter (by decide) h
  have hsplit : c.before ++ (proberName ++ c.after) =
      pre ++ (proberName ++ (post ++ (proberName ++ c.after))) := by
    rw [he]
    simp only [List.append_assoc]
  rw [detailTypeName_eq, prefix_length_of_first hfirst hsplit, substr, wrappedTypeName, he]
  simp only [List.append_assoc, List.drop_left]
  rfl

/-- The cut is right for every type exactly where the text in front of it does not have the name
of the prober; the text behind may have it. -/
theorem type_name_exact_iff (c : Signature) :
    (∀ T, c.detailTypeName T = T) ↔ ¬ proberName <:+: c.before := by
  constructor
  · intro h hin
    have hx := h ['x']
    rw [detailTypeName_of_present hin] at hx
    cases hx
  · exact fun h T => detailTypeName_of_absent h T

end Signature

/-! The keywords -/

/-- The keywords that are cut off, in the order in which they are looked for. -/
def keywords : List (List Char) := ["struct ".toList, "class ".toList, "union ".toList]

theorem dropKeyword_append (kw T : List Char) : dropKeyword kw (kw ++ T) = T := by
  rw [dropKeyword, if_pos (find_eq_zero.mpr (List.prefix_append kw T)), substrFrom,
    List.drop_left]

theorem dropKeyword_absent (h : ¬ kw <+: v) : dropKeyword kw v = v := by
  rw [dropKeyword, if_neg (find_eq_zero.not.mpr h), substrFrom, List.drop_zero]

theorem not_keyword_of_head {a : Char} (hT : T.head? = some a) (ha : a ∉ ['s', 'c', 'u']) :
    ∀ k ∈ keywords, ¬ k <+: T := by
  rintro k hk ⟨R, rfl⟩
  have hcases : k = "struct ".toList ∨ k = "class ".toList ∨ k = "union ".toList := by
    simpa [keywords] using hk
  rcases hcases with rfl | rfl | rfl <;> cases hT <;> exact ha (by decide)

namespace Signature

variable {c : Signature}

/-- Whichever keyword the compiler writes in front of the name, or none, it is cut off. -/
theorem typeName_keyword (hc : ¬ proberName <:+: c.before) (hkw : kw ∈ [] :: keywords)
    (hT : ∀ k ∈ keywords, ¬ k <+: T) : c.typeName (kw ++ T) = T := by
  have hstruct : dropKeyword "struct ".toList T = T :=
    dropKeyword_absent (hT _ (by decide))
  have hclass : dropKeyword "class ".toList T = T := dropKeyword_absent (hT _ (by decide))
  have hunion : dropKeyword "union ".toList T = T := dropKeyword_absent (hT _ (by decide))
  rw [typeName, detailTypeName_of_absent hc]
  have hcases : kw = [] ∨ kw = "struct ".toList ∨ kw = "class ".toList ∨ kw = "union ".toList := by
    simpa [keywords] using hkw
  rcases hcases with rfl | rfl | rfl | rfl
  · simp only [List.nil_append, hstruct, hclass, hunion]
  · simp only [dropKeyword_append, hclass, hunion]
  · have hskip : ¬ "struct ".toList <+: "class ".toList ++ T := by simp
    simp only [dropKeyword_absent hskip, dropKeyword_append, hunion]
  · have hskip : ¬ "struct ".toList <+: "union ".toList ++ T := by simp
    have hskip' : ¬ "class ".toList <+: "union ".toList ++ T := by simp
    simp only [dropKeyword_absent hskip, dropKeyword_absent hskip',
      dropKeyword_append]

end Signature

/-! The ids of a factory -/

/-- The name of a class as the compiler writes it: a keyword or none, the functions and classes
around it, its own name and its template arguments. -/
structure ClassName where
  keyword : List Char
  scope : List Char
  bare : List Char
  args : List Char
  keyword_mem : keyword ∈ [] :: keywords
  scope_ends : scope = [] ∨ marker <:+ scope
  bare_ne_nil : bare ≠ []
  bare_plain : '<' ∉ bare ∧ '>' ∉ bare
  bare_unmarked : ¬ marker <:+: bare
  args_enclosed : args = [] ∨ ['<'] <+: args ∧ ['>'] <:+ args
  no_keyword : ∀ k ∈ keywords, ¬ k <+: scope ++ bare ++ args
  fits : (scope ++ bare ++ args).length ≤ sizeTMax

namespace ClassName

variable {α : Type} {c : Signature} {k : ClassName} {classes : List ClassName} {args : α}

/-- The name without the keyword. -/
def full (k : ClassName) : List Char := k.scope ++ k.bare ++ k.args

def written (k : ClassName) : List Char := k.keyword ++ k.full

/-- The bare name is in sight, or the first marker ends a scope with arguments and no arguments
follow: there the length wraps around, and the tail of the name is all of the bare name. -/
def Found (k : ClassName) : Prop :=
  NameInSight k.scope k.bare k.args ∨
    k.args = [] ∧ ∃ T, k.scope = T ++ marker ∧ ¬ marker <:+: T

theorem args_open (k : ClassName) : k.args = [] ∨ ['<'] <+: k.args := by
  rcases k.args_enclosed with h | ⟨h, -⟩
  · exact .inl h
  · exact .inr h

theorem extracts_iff_inSight (k : ClassName) :
    Extracts k.full k.bare ↔ NameInSight k.scope k.bare k.args :=
  id_name_extracts_iff k.scope_ends k.bare_plain.1 k.bare_unmarked k.args_open

/-- Where the marker comes after the `'<'`, the length wraps around to more than is left. -/
theorem idName_of_wrapped (k : ClassName) (h : ¬ begin1 k.full ≤ nameEnd k.full) :
    idName k.full = k.full.drop (begin1 k.full) := by
  have hfits : k.full.length ≤ sizeTMax := k.fits
  rw [idName, sizeSub, if_neg h, substr]
  apply List.take_of_length_le
  rw [List.length_drop]
  omega

/-- A name with arguments ends in a `'>'`, and the bare name does not. -/
theorem drop_full_ne (hargs : ['>'] <:+ k.args) (n : ℕ) : k.full.drop n ≠ k.bare := by
  intro h
  have hend : ['>'] <:+ k.full := hargs.trans (List.suffix_append _ _)
  have hbare : k.bare <:+ k.full := h ▸ List.drop_suffix n k.full
  have hlen : ['>'].length ≤ k.bare.length := List.length_pos_of_ne_nil k.bare_ne_nil
  have hin : ['>'] <:+ k.bare := List.suffix_of_suffix_length_le hend hbare hlen
  exact k.bare_plain.2 ((List.singleton_infix_iff _ _).mp hin.isInfix)

/-- Without arguments, what follows the first marker is the bare name exactly where that marker
ends the scope. -/
theorem drop_full_iff (hargs : k.args = []) (hm : begin1 k.full ≠ 0) :
    k.full.drop (begin1 k.full) = k.bare ↔
      ∃ T, k.scope = T ++ marker ∧ ¬ marker <:+: T := by
  have hfull : k.full = k.scope ++ k.bare := by rw [full, hargs, List.append_nil]
  have hin : marker <:+: k.full := by
    by_contra hno
    exact hm (begin1_of_absent hno)
  constructor
  · intro h
    obtain ⟨pre, post, he, hfirst⟩ := exists_firstAfter (by decide) hin
    rw [he, begin1_of_firstAfter hfirst, ← List.append_assoc, List.drop_left] at h
    subst h
    rw [hfull, ← List.append_assoc] at he
    exact ⟨pre, List.append_cancel_right he, firstAfter_marker.mp hfirst⟩
  · rintro ⟨T, hT, hno⟩
    have he : k.full = T ++ (marker ++ k.bare) := by rw [hfull, hT, List.append_assoc]
    rw [he, begin1_of_firstAfter (firstAfter_marker.mpr hno), ← List.append_assoc,
      List.drop_left]

theorem scope_plain_of_le (hargs : k.args = []) (hT : k.scope = T ++ marker)
    (hno : ¬ marker <:+: T) (hle : begin1 k.full ≤ nameEnd k.full) : '<' ∉ T := by
  intro hin
  obtain ⟨X, R, rfl, hX⟩ := List.eq_append_cons_of_mem hin
  have hbegin : begin1 k.full = (X ++ '<' :: R ++ marker).length := by
    rw [full, hargs, List.append_nil, hT, List.append_assoc,
      begin1_of_firstAfter (firstAfter_marker.mpr hno)]
  have hend : nameEnd k.full = X.length := by
    rw [full, hargs, List.append_nil, hT, List.append_assoc, List.append_assoc]
    exact nameEnd_append hX (.inr ⟨_, rfl⟩)
  rw [hbegin, hend, List.length_append, List.length_append, List.length_cons] at hle
  omega

/-- The id of a class is its bare name exactly where the name is found. -/
theorem idName_full_iff (k : ClassName) : idName k.full = k.bare ↔ k.Found := by
  by_cases hle : begin1 k.full ≤ nameEnd k.full
  · have hsight : idName k.full = k.bare ↔ NameInSight k.scope k.bare k.args := by
      rw [← extracts_iff_inSight, Extracts, and_iff_left hle]
    rw [hsight, Found]
    constructor
    · exact .inl
    · rintro (h | ⟨hargs, T, hT, hno⟩)
      · exact h
      · exact .inr (.inl ⟨T, hT, scope_plain_of_le hargs hT hno hle, hno⟩)
  · have hsight : ¬ NameInSight k.scope k.bare k.args := by
      rw [← extracts_iff_inSight]
      exact fun h => hle h.2
    have hm : begin1 k.full ≠ 0 := by omega
    rw [k.idName_of_wrapped hle, Found, or_iff_right hsight]
    rcases k.args_enclosed with hargs | ⟨-, hargs⟩
    · rw [drop_full_iff hargs hm, and_iff_right hargs]
    · refine iff_of_false (drop_full_ne hargs _) ?_
      rintro ⟨hnil, -⟩
      rw [hnil] at hargs
      simp at hargs

/-- Asked for the class by its bare name, a factory of the classes constructs it and nothing
else. -/
def BuiltIn (k : ClassName) (c : Signature) (classes : List ClassName) (args : α) : Prop :=
  Factory.create (classes.map fun k => c.typeName k.written) k.bare args =
    ⟨some ⟨k.full, args⟩, [⟨k.full, args⟩]⟩

theorem typeName_written (hc : ¬ proberName <:+: c.before) (k : ClassName) :
    c.typeName k.written = k.full := Signature.typeName_keyword hc k.keyword_mem k.no_keyword

theorem builtIn_iff (hc : ¬ proberName <:+: c.before) :
    k.BuiltIn c classes args ↔ Factory.named (classes.map full) k.bare = [k.full] := by
  have hmap : (classes.map fun k => c.typeName k.written) = classes.map full :=
    List.map_congr_left fun k _ => typeName_written hc k
  rw [BuiltIn, hmap, Factory.create_eq]
  constructor
  · intro h
    obtain ⟨-, hone⟩ := Factory.Creation.mk.inj h
    obtain ⟨T, hT, he⟩ := List.map_eq_singleton_iff.mp hone
    cases he
    exact hT
  · intro h
    rw [h]
    rfl

theorem map_idName (h : ∀ k ∈ classes, k.Found) :
    (classes.map full).map idName = classes.map bare := by
  rw [List.map_map]
  exact List.map_congr_left fun k hk => k.idName_full_iff.mpr (h k hk)

theorem length_named (h : ∀ k ∈ classes, k.Found) (b : List Char) :
    (Factory.named (classes.map full) b).length = (classes.map bare).count b := by
  rw [← map_idName h, List.count, List.countP_map, List.countP_eq_length_filter, Factory.named]
  apply congrArg List.length
  exact List.filter_congr fun T _ => (beq_eq_decide ..).symm

theorem named_of_nodup (hn : (classes.map bare).Nodup) (h : ∀ k ∈ classes, k.Found)
    (hk : k ∈ classes) : Factory.named (classes.map full) k.bare = [k.full] := by
  have hids : ((classes.map full).map idName).Nodup := by rwa [map_idName h]
  have hT : k.full ∈ classes.map full := List.mem_map_of_mem hk
  have hid : idName k.full = k.bare := k.idName_full_iff.mpr (h k hk)
  rw [← hid, Factory.named_eq_singleton hids.of_map hT]
  intro U hU he
  exact List.inj_on_of_nodup_map hids hU hT he

/-- From the compiler's text to the object: a factory builds each of its classes under the bare
name exactly when all bare names differ and each is found in its type's name. -/
theorem factory_names_iff (hc : ¬ proberName <:+: c.before) (classes : List ClassName)
    (args : α) : (∀ k ∈ classes, k.BuiltIn c classes args) ↔
      (classes.map bare).Nodup ∧ ∀ k ∈ classes, k.Found := by
  constructor
  · intro h
    have hnamed : ∀ k ∈ classes, Factory.named (classes.map full) k.bare = [k.full] :=
      fun k hk => (builtIn_iff hc).mp (h k hk)
    have hfound : ∀ k ∈ classes, k.Found := by
      intro k hk
      have hmem : k.full ∈ Factory.named (classes.map full) k.bare := by
        rw [hnamed k hk]
        exact List.mem_singleton_self _
      exact k.idName_full_iff.mp (Factory.mem_named.mp hmem).2
    refine ⟨List.nodup_iff_count_le_one.mpr fun b => ?_, hfound⟩
    by_cases hb : b ∈ classes.map bare
    · obtain ⟨k, hk, rfl⟩ := List.mem_map.mp hb
      rw [← length_named hfound, hnamed k hk]
      exact le_rfl
    · rw [List.count_eq_zero_of_not_mem hb]
      exact Nat.zero_le 1
  · rintro ⟨hn, hfound⟩ k hk
    exact (builtIn_iff hc).mpr (named_of_nodup hn hfound hk)

/-- A class that is local to `main`, as one compiler writes it. -/
def localClass (bare : List Char) (hne : bare ≠ []) (hplain : '<' ∉ bare ∧ '>' ∉ bare)
    (hm : ¬ marker <:+: bare) (hfits : bare.length ≤ 1000) : ClassName where
  keyword := "class ".toList
  scope := "main()::".toList
  bare := bare
  args := []
  keyword_mem := by decide
  scope_ends := .inr (by decide)
  bare_ne_nil := hne
  bare_plain := hplain
  bare_unmarked := hm
  args_enclosed := .inl rfl
  no_keyword := by simp [keywords]
  fits := by
    have hmax : sizeTMax = 2 ^ 64 - 1 := rfl
    simp
    omega

/-- Two local classes, in a text that has the prober behind the type. -/
theorem factory_names_local : ∃ (c : Signature) (A B : ClassName),
    c.after = ">(void)".toList ∧ A.full = "main()::A".toList ∧ B.full = "main()::B".toList ∧
      A.BuiltIn c [A, B] () ∧ B.BuiltIn c [A, B] () := by
  let c : Signature := ⟨"wrapped_type_name<".toList, ">(void)".toList⟩
  let A := localClass ['A'] (by decide) (by decide) (by decide) (by decide)
  let B := localClass ['B'] (by decide) (by decide) (by decide) (by decide)
  have hscope : ∀ k ∈ [A, B], k.scope = "main".toList ++ marker := by decide
  have hfound : ∀ k ∈ [A, B], k.Found := fun k hk =>
    .inl (.inr (.inl ⟨"main".toList, hscope k hk, by decide, by decide⟩))
  have hbuilt : ∀ k ∈ [A, B], k.BuiltIn c [A, B] () :=
    (factory_names_iff (by decide) [A, B] ()).mpr ⟨by decide, hfound⟩
  exact ⟨c, A, B, rfl, rfl, rfl, hbuilt A (by simp), hbuilt B (by simp)⟩

end ClassName

end UndoCxx
