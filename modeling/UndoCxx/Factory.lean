import Mathlib.Data.List.Nodup
import UndoCxx.IdName

/-! The factory, which builds a product from the name of its type. -/
namespace UndoCxx.Factory

variable {α : Type} {products : List (List Char)} {T id : List Char} {args : α}

/-- An object of the type, built from the arguments. -/
structure Product (α : Type) where
  type : List Char
  args : α
  deriving DecidableEq, Repr

/-- `create` on its way over the products: its `result`, and all that were constructed for it. -/
structure Creation (α : Type) where
  result : Option (Product α)
  constructed : List (Product α)
  deriving DecidableEq, Repr

/-- `it.id == id ? result = it.gen(args...) : result` -/
def Creation.consider (id : List Char) (args : α) (s : Creation α) (T : List Char) : Creation α :=
  if idName T = id then ⟨some ⟨T, args⟩, s.constructed ++ [⟨T, args⟩]⟩ else s

/-- `factory::create`, where the products are given by their full type names. -/
def create (products : List (List Char)) (id : List Char) (args : α) : Creation α :=
  products.foldl (Creation.consider id args) ⟨none, []⟩

/-- Asked by its id for `T`, the factory constructs one `T` and nothing else. -/
def Builds (products : List (List Char)) (T : List Char) (args : α) : Prop :=
  (create products (idName T) args).result = some ⟨T, args⟩ ∧
    (create products (idName T) args).constructed.length = 1

/-- The products that go by the id. -/
def named (products : List (List Char)) (id : List Char) : List (List Char) :=
  products.filter fun T => idName T = id

theorem mem_named : T ∈ named products id ↔ T ∈ products ∧ idName T = id := by
  simp [named]

theorem foldl_consider (s : Creation α) : products.foldl (Creation.consider id args) s =
    ⟨((named products id).getLast?.map fun T => ⟨T, args⟩).or s.result,
      s.constructed ++ (named products id).map fun T => ⟨T, args⟩⟩ := by
  induction products generalizing s with
  | nil => simp [named]
  | cons T products ih =>
    rw [List.foldl_cons, ih, Creation.consider]
    by_cases h : idName T = id
    · have hn : named (T :: products) id = T :: named products id :=
        List.filter_cons_of_pos (by simpa)
      rw [if_pos h, hn, List.getLast?_cons, List.map_cons, List.append_assoc]
      cases (named products id).getLast? <;> simp
    · have hn : named (T :: products) id = named products id := List.filter_cons_of_neg (by simpa)
      rw [if_neg h, hn]

/-- Every product of that id is constructed, and the last of them is returned. -/
theorem create_eq (products : List (List Char)) (id : List Char) (args : α) :
    create products id args =
      ⟨(named products id).getLast?.map fun T => ⟨T, args⟩,
        (named products id).map fun T => ⟨T, args⟩⟩ := by
  rw [create, foldl_consider, Option.or_none, List.nil_append]

theorem builds_iff : Builds products T args ↔ named products (idName T) = [T] := by
  rw [Builds, create_eq, List.length_map]
  constructor
  · rintro ⟨hlast, hone⟩
    obtain ⟨U, hU⟩ := List.length_eq_one_iff.mp hone
    rw [hU] at hlast ⊢
    cases hlast
    rfl
  · intro h
    rw [h]
    exact ⟨rfl, rfl⟩

/-- One product of the id, and no second occurrence of it. -/
theorem named_eq_singleton (hn : products.Nodup) (hT : T ∈ products) :
    named products (idName T) = [T] ↔ ∀ U ∈ products, idName U = idName T → U = T := by
  constructor
  · intro h U hU hid
    have hmem := mem_named.mpr ⟨hU, hid⟩
    rwa [h, List.mem_singleton] at hmem
  · intro h
    have hnamed : (named products (idName T)).Nodup := hn.filter _
    have hmem : T ∈ named products (idName T) := mem_named.mpr ⟨hT, rfl⟩
    have hall : ∀ U ∈ named products (idName T), U = T := by
      intro U hU
      obtain ⟨hU, hid⟩ := mem_named.mp hU
      exact h U hU hid
    cases hl : named products (idName T) with
    | nil =>
      rw [hl] at hmem
      cases hmem
    | cons U rest =>
      rw [hl] at hnamed hall
      obtain rfl := hall U List.mem_cons_self
      have hrest : rest = [] := by
        rw [List.eq_nil_iff_forall_not_mem]
        intro V hV
        obtain rfl := hall V (List.mem_cons_of_mem _ hV)
        exact (List.nodup_cons.mp hnamed).1 hV
      rw [hrest]

theorem named_eq_nil (h : ∀ T ∈ products, idName T ≠ id) : named products id = [] := by
  rw [List.eq_nil_iff_forall_not_mem]
  intro T hT
  obtain ⟨hT, he⟩ := mem_named.mp hT
  exact h T hT he

/-- With distinct type names, the factory builds the product that an id names exactly when no other
product goes by the same id; under an id of no product it builds nothing. -/
theorem create_builds_iff (hn : products.Nodup) (args : α) :
    (∀ T ∈ products,
        Builds products T args ↔ ∀ U ∈ products, idName U = idName T → U = T) ∧
      ∀ id, (∀ T ∈ products, idName T ≠ id) → create products id args = ⟨none, []⟩ := by
  constructor
  · intro T hT
    rw [builds_iff, named_eq_singleton hn hT]
  · intro id hid
    rw [create_eq, named_eq_nil hid]
    rfl

/-- Three plain classes, of which the first is asked for. -/
theorem create_builds_local : Builds ["A".toList, "B".toList, "C".toList] "A".toList () := by
  have hn : ["A".toList, "B".toList, "C".toList].Nodup := by decide
  exact ((create_builds_iff hn ()).1 _ (by decide)).mpr (by decide)

/-- Two instances of one command template go by the same id: both are constructed, and whichever
comes last is returned. -/
theorem create_merges_templates :
    create ["Cmd<int>".toList, "Cmd<long>".toList] (idName "Cmd<int>".toList) () =
        ⟨some ⟨"Cmd<long>".toList, ()⟩, [⟨"Cmd<int>".toList, ()⟩, ⟨"Cmd<long>".toList, ()⟩]⟩ ∧
      ["Cmd<int>".toList, "Cmd<long>".toList].Nodup ∧
      ¬ Builds ["Cmd<int>".toList, "Cmd<long>".toList] "Cmd<int>".toList () := by
  refine ⟨by decide, by decide, ?_⟩
  rw [Builds]
  decide

end UndoCxx.Factory
