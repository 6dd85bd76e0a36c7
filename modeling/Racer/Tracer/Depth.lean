import Racer.Tracer.Generics

namespace Racer
open Stateful

/-! How deep the types that `value_to_constant_instance` computes are nested. -/

mutual

/-- The levels of generic arguments in an instance. -/
def ConstantInstance.depth : ConstantInstance → Nat
  | ⟨_, _, unions⟩ => unionsDepth unions

def unionsDepth : List (List ConstantInstance) → Nat
  | [] => 0
  | union :: unions => max (unionDepth union + 1) (unionsDepth unions)

def unionDepth : List ConstantInstance → Nat
  | [] => 0
  | i :: union => max i.depth (unionDepth union)

end

theorem unionDepth_le {n : Nat} {union : List ConstantInstance} : unionDepth union ≤ n ↔ ∀ i ∈ union, i.depth ≤ n := by
  induction union with
  | nil => simp [unionDepth]
  | cons i union ih => rw [unionDepth, max_le_iff, ih, List.forall_mem_cons]

theorem unionsDepth_le {n : Nat} {unions : List (List ConstantInstance)} :
    unionsDepth unions ≤ n + 1 ↔ ∀ u ∈ unions, ∀ i ∈ u, i.depth ≤ n := by
  induction unions with
  | nil => simp [unionsDepth]
  | cons u unions ih => rw [unionsDepth, max_le_iff, ih, List.forall_mem_cons, Nat.add_le_add_iff_right, unionDepth_le]

theorem ConstantInstance.depth_eq (i : ConstantInstance) : i.depth = unionsDepth i.genericArguments := by
  obtain ⟨name, singleton, unions⟩ := i
  rw [ConstantInstance.depth]

theorem ConstantInstance.depth_eq_zero {i : ConstantInstance} : i.depth = 0 ↔ i.genericArguments = [] := by
  rw [i.depth_eq]
  cases i.genericArguments with
  | nil => simp [unionsDepth]
  | cons u unions => simp [unionsDepth]

section
variable {κ : Type} {h : Hierarchy κ} {σ : Type} {typeOf : Value κ → StateT σ Option ConstantInstance}

/-- The largest `int`. -/
@[irreducible] def INT_MAX : Nat := 2 ^ 31 - 1

variable (h) in
/-- The value contains at most this many levels of elements. -/
def NestedAtMost (o : Objects κ) : Nat → Value κ → Prop
  | 0, value => ∀ item, ¬ Contains h o value item
  | levels + 1, value => ∀ item, Contains h o value item → NestedAtMost o levels item

section
variable [DecidableEq κ] {P : ConstantInstance → Prop}

theorem addType_forall {klass : κ} {constant : ConstantInstance} {types : List κ × List ConstantInstance}
    (old : ∀ i ∈ types.2, P i) (new : P constant) : ∀ i ∈ (addType klass constant types).2, P i := by
  unfold addType
  split_ifs
  · exact old
  all_goals
    exact List.forall_mem_append.mpr ⟨old, List.forall_mem_singleton.mpr new⟩

/-- The members of a union are types of elements. -/
theorem arrayTypes_forall {objClass : Value κ → κ} {items : List (Value κ)} {types : List κ × List ConstantInstance}
    {s t : σ} {r : List ConstantInstance} (each : ∀ item ∈ items, ∀ s i t, typeOf item s = some (i, t) → P i)
    (old : ∀ i ∈ types.2, P i) (run : arrayTypes typeOf objClass items types s = some (r, t)) : ∀ i ∈ r, P i := by
  induction items generalizing types s with
  | nil =>
    cases run
    exact old
  | cons item items ih =>
    obtain ⟨first, later⟩ := List.forall_mem_cons.mp each
    obtain ⟨constant, u, ran, rest⟩ := bind_eq_some.mp run
    exact ih later (addType_forall old (first s constant u ran)) rest

theorem hashTypes_forall {objClass : Value κ → κ} {items : List (Value κ × Value κ)}
    {keys values : List κ × List ConstantInstance} {s t : σ} {r : List ConstantInstance × List ConstantInstance}
    (each : ∀ entry ∈ items, ∀ item, item = entry.1 ∨ item = entry.2 → ∀ s i t, typeOf item s = some (i, t) → P i)
    (oldKeys : ∀ i ∈ keys.2, P i) (oldValues : ∀ i ∈ values.2, P i)
    (run : hashTypes typeOf objClass items keys values s = some (r, t)) : (∀ i ∈ r.1, P i) ∧ ∀ i ∈ r.2, P i := by
  induction items generalizing keys values s with
  | nil =>
    cases run
    exact ⟨oldKeys, oldValues⟩
  | cons entry items ih =>
    obtain ⟨first, later⟩ := List.forall_mem_cons.mp each
    obtain ⟨keyConstant, u, key, run⟩ := bind_eq_some.mp run
    obtain ⟨valueConstant, v, value, rest⟩ := bind_eq_some.mp run
    exact ih later (addType_forall oldKeys (first _ (.inl rfl) s _ u key))
      (addType_forall oldValues (first _ (.inr rfl) u _ v value)) rest

theorem genericArgumentsByValue_forall {o : Objects κ} {maxGenericDepth depth : Int} {value : Value κ} {s t : σ}
    {r : List (List ConstantInstance)}
    (each : ∀ item, Contains h o value item → ∀ s i t, typeOf item s = some (i, t) → P i)
    (run : genericArgumentsByValue h typeOf o maxGenericDepth value depth s = some (r, t)) :
    ∀ u ∈ r, ∀ i ∈ u, P i := by
  unfold genericArgumentsByValue at run
  split_ifs at run with atEnd array _ hash _
  · cases run
    simp
  · cases run
    simp
  · obtain ⟨types, u, ran, rest⟩ := bind_eq_some.mp run
    cases rest
    refine List.forall_mem_singleton.mpr (arrayTypes_forall (fun item member => ?_) (by simp) ran)
    exact each item (.inl ⟨array, member⟩)
  · cases run
    simp
  · obtain ⟨types, u, ran, rest⟩ := bind_eq_some.mp run
    cases rest
    obtain ⟨keys, values⟩ := hashTypes_forall (fun entry member item place => each item
      (.inr ⟨array, hash, entry, member, place⟩)) (by simp) (by simp) ran
    exact List.forall_mem_cons.mpr ⟨keys, List.forall_mem_singleton.mpr values⟩
  · cases run
    simp

theorem genericArgumentsByValue_atEnd {o : Objects κ} {maxGenericDepth depth : Int} {value : Value κ} {s t : σ}
    {r : List (List ConstantInstance)} (atEnd : depth = maxGenericDepth)
    (run : genericArgumentsByValue h typeOf o maxGenericDepth value depth s = some (r, t)) : r = [] := by
  unfold genericArgumentsByValue at run
  rw [if_pos atEnd] at run
  cases run
  rfl

/-- Above the cut-off there are generic arguments exactly where there are elements. -/
theorem genericArgumentsByValue_eq_nil {o : Objects κ} {maxGenericDepth depth : Int} {value : Value κ} {s t : σ}
    {r : List (List ConstantInstance)} (inner : depth ≠ maxGenericDepth)
    (run : genericArgumentsByValue h typeOf o maxGenericDepth value depth s = some (r, t)) :
    r = [] ↔ ∀ item, ¬ Contains h o value item := by
  unfold genericArgumentsByValue Contains at *
  rw [if_neg inner] at run
  split_ifs at run with array empty hash empty
  · cases run
    simp [array, empty]
  · obtain ⟨types, u, _, rest⟩ := bind_eq_some.mp run
    cases rest
    obtain ⟨item, member⟩ := List.exists_mem_of_ne_nil _ empty
    simp only [reduceCtorEq, false_iff, not_forall, not_not]
    exact ⟨item, .inl ⟨array, member⟩⟩
  · cases run
    simp [array, empty]
  · obtain ⟨types, u, _, rest⟩ := bind_eq_some.mp run
    cases rest
    obtain ⟨entry, member⟩ := List.exists_mem_of_ne_nil _ empty
    simp only [reduceCtorEq, false_iff, not_forall, not_not]
    exact ⟨entry.1, .inr ⟨array, hash, entry, member, .inl rfl⟩⟩
  · cases run
    simp [array, hash]

end

section
variable [DecidableEq κ] [Fintype κ] {o : Objects κ} {maxGenericDepth depth : Int} {value : Value κ}
  {s t : Constants κ} {i : ConstantInstance}

theorem classToConstantInstance_generics {klass : κ} {generics : List (List ConstantInstance)}
    (run : classToConstantInstance h klass generics s = some (i, t)) : i.genericArguments = generics := by
  unfold classToConstantInstance at run
  split at run
  · cases run
  · cases run
    rfl

/-- An instance is a class object, or has the generic arguments of the value. -/
theorem valueToConstantInstance_generics {fuel : Nat}
    (run : valueToConstantInstance h o maxGenericDepth (fuel + 1) value depth s = some (i, t)) :
    (value.singleton h o ≠ none ∧ i.genericArguments = []) ∨
      ∃ u, genericArgumentsByValue h (fun v => valueToConstantInstance h o maxGenericDepth fuel v (depth + 1))
        o maxGenericDepth value depth s = some (i.genericArguments, u) := by
  unfold valueToConstantInstance at run
  cases singleton : value.singleton h o with
  | some klass =>
    simp only [singleton] at run
    obtain ⟨constant, u, ran, rest⟩ := bind_eq_some.mp run
    cases rest
    have flat : constant.genericArguments = [] := classToConstantInstance_generics ran
    exact .inl ⟨Option.some_ne_none klass, flat⟩
  | none =>
    simp only [singleton] at run
    obtain ⟨generics, u, ran, rest⟩ := bind_eq_some.mp run
    rw [← classToConstantInstance_generics rest] at ran
    exact .inr ⟨u, ran⟩

/-- Above the cut-off a type is flat exactly where the value has no elements. -/
theorem valueToConstantInstance_flat {fuel : Nat} (inner : depth ≠ maxGenericDepth)
    (run : valueToConstantInstance h o maxGenericDepth (fuel + 1) value depth s = some (i, t)) :
    i.depth = 0 ↔ ∀ item, ¬ Contains h o value item := by
  rw [ConstantInstance.depth_eq_zero]
  rcases valueToConstantInstance_generics run with ⟨singleton, generics⟩ | ⟨u, generics⟩
  · obtain ⟨klass, same⟩ := Option.ne_none_iff_exists'.mp singleton
    exact ⟨fun _ item => not_contains_of_singleton same, fun _ => generics⟩
  · exact genericArgumentsByValue_eq_nil inner generics

/-- One level more than the types of the elements. -/
theorem valueToConstantInstance_depth_succ {fuel n : Nat}
    (each : ∀ item, Contains h o value item → ∀ s i t,
      valueToConstantInstance h o maxGenericDepth fuel item (depth + 1) s = some (i, t) → i.depth ≤ n)
    (run : valueToConstantInstance h o maxGenericDepth (fuel + 1) value depth s = some (i, t)) : i.depth ≤ n + 1 := by
  rcases valueToConstantInstance_generics run with ⟨_, generics⟩ | ⟨u, generics⟩
  · rw [ConstantInstance.depth_eq_zero.mpr generics]
    exact Nat.zero_le _
  · rw [i.depth_eq, unionsDepth_le]
    exact genericArgumentsByValue_forall each generics

/-- A depth that starts below the bound stays within it. -/
theorem valueToConstantInstance_depth {fuel : Nat} (within : depth ≤ maxGenericDepth)
    (run : valueToConstantInstance h o maxGenericDepth fuel value depth s = some (i, t)) :
    i.depth ≤ (maxGenericDepth - depth).toNat := by
  induction fuel generalizing value depth s t i with
  | zero => cases run
  | succ fuel ih =>
    by_cases atEnd : depth = maxGenericDepth
    · have flat : i.genericArguments = [] := by
        rcases valueToConstantInstance_generics run with ⟨_, generics⟩ | ⟨u, generics⟩
        · exact generics
        · exact genericArgumentsByValue_atEnd atEnd generics
      rw [ConstantInstance.depth_eq_zero.mpr flat]
      exact Nat.zero_le _
    · have levels : (maxGenericDepth - depth).toNat = (maxGenericDepth - (depth + 1)).toNat + 1 := by omega
      rw [levels]
      exact valueToConstantInstance_depth_succ (fun item _ s i t ran => ih (by omega) ran) run

theorem NestedAtMost.depth_le {levels fuel : Nat} (nested : NestedAtMost h o levels value)
    (run : valueToConstantInstance h o maxGenericDepth fuel value depth s = some (i, t)) : i.depth ≤ levels := by
  induction fuel generalizing levels value depth s t i with
  | zero => cases run
  | succ fuel ih =>
    cases levels with
    | zero =>
      have flat := valueToConstantInstance_depth_succ (n := 0) (fun item contains => absurd contains (nested item)) run
      by_cases atEnd : depth = maxGenericDepth
      · have none := valueToConstantInstance_depth atEnd.le run
        omega
      · exact ((valueToConstantInstance_flat atEnd run).mpr nested).le
    | succ levels =>
      exact valueToConstantInstance_depth_succ (fun item contains s i t ran => ih (nested item contains) ran) run

theorem NestedAtMost.total {levels fuel : Nat} (nested : NestedAtMost h o levels value) (enough : levels < fuel) :
    Total (valueToConstantInstance h o maxGenericDepth fuel value depth) := by
  induction fuel generalizing levels value depth with
  | zero => omega
  | succ fuel ih =>
    refine valueToConstantInstance_total_succ (.inr fun item contains => ?_)
    cases levels with
    | zero => exact absurd contains (nested item)
    | succ levels => exact ih (nested item contains) (by omega)

/-- A recursion that is never cut off reads every level. -/
theorem NestedAtMost.of_returns {fuel : Nat} (never : ∀ d : Int, depth ≤ d → d ≤ depth + fuel → d ≠ maxGenericDepth)
    (returns : CanReturn (valueToConstantInstance h o maxGenericDepth (fuel + 1) value depth)) :
    NestedAtMost h o fuel value := by
  have inside := valueToConstantInstance_reads (never depth (le_refl _) (by omega)) returns
  induction fuel generalizing value depth with
  | zero =>
    intro item contains
    obtain ⟨_, _, run⟩ := inside item contains
    cases run
  | succ fuel ih =>
    intro item contains
    have later : ∀ d : Int, depth + 1 ≤ d → d ≤ depth + 1 + fuel → d ≠ maxGenericDepth :=
      fun d lower upper => never d (by omega) (by omega)
    exact ih later (inside item contains)
      (valueToConstantInstance_reads (later _ (le_refl _) (by omega)) (inside item contains))

variable (h o maxGenericDepth value) in
/-- From every state the type of the value is computed, before the depth, an `int`,
overflows, and the type is nested within the bound. -/
def EndsWithin : Prop :=
  ∀ s, ∃ constant t, valueToConstantInstance h o maxGenericDepth (INT_MAX + 1) value 0 s = some (constant, t) ∧
    constant.depth ≤ maxGenericDepth.toNat

/-- No elements are cut off where the bound is negative. -/
theorem EndsWithin.flat (ends : EndsWithin h o maxGenericDepth value) (negative : maxGenericDepth < 0) :
    NestedAtMost h o 0 value := by
  obtain ⟨constant, t, run, within⟩ := ends {}
  refine (valueToConstantInstance_flat (by omega) run).mp ?_
  omega

variable (h o maxGenericDepth value) in
/-- Reading a value ends within the bound just where the bound is an `int` that is not
negative, or the value is itself nested within the bound and the levels of an `int`. -/
theorem endsWithin_iff : EndsWithin h o maxGenericDepth value ↔
    (0 ≤ maxGenericDepth ∧ maxGenericDepth ≤ INT_MAX) ∨
      NestedAtMost h o (min maxGenericDepth.toNat INT_MAX) value := by
  constructor
  · intro ends
    by_cases usual : 0 ≤ maxGenericDepth ∧ maxGenericDepth ≤ INT_MAX
    · exact .inl usual
    · refine .inr ?_
      by_cases negative : maxGenericDepth < 0
      · have none : min maxGenericDepth.toNat INT_MAX = 0 := by omega
        rw [none]
        exact ends.flat negative
      · have most : min maxGenericDepth.toNat INT_MAX = INT_MAX := by omega
        obtain ⟨constant, t, run, _⟩ := ends {}
        have never : ∀ d : Int, 0 ≤ d → d ≤ 0 + INT_MAX → d ≠ maxGenericDepth := by omega
        rw [most]
        exact NestedAtMost.of_returns never ⟨_, _, run⟩
  · intro bounded s
    rcases bounded with ⟨positive, small⟩ | nested
    · have enough : (maxGenericDepth - 0).toNat < INT_MAX + 1 := by omega
      obtain ⟨⟨constant, t⟩, run⟩ := valueToConstantInstance_total_of_le (h := h) (o := o) positive enough value s
      have within := valueToConstantInstance_depth positive run
      exact ⟨constant, t, run, by omega⟩
    · obtain ⟨⟨constant, t⟩, run⟩ := nested.total (Nat.lt_succ_of_le (Nat.min_le_right _ INT_MAX)) s
      have within := nested.depth_le run
      exact ⟨constant, t, run, by omega⟩

end

end

/-- With a bound of -1 an array that contains itself is never done with, and the type of
an array of one plain object is nested one level deep. -/
theorem negative_depth_never_reached :
    (¬ EndsWithin sample (arrayOf [.object 8]) (-1) (.object 8) ∧
      ∀ fuel s, valueToConstantInstance sample (arrayOf [.object 8]) (-1) fuel (.object 8) 0 s = none) ∧
      ¬ EndsWithin sample (arrayOf [.object 1]) (-1) (.object 8) := by
  have inside (item : Value (Sample × Bool)) : Contains sample (arrayOf [item]) (.object 8) item :=
    .inl ⟨rfl, List.mem_singleton_self item⟩
  refine ⟨⟨fun ends => ?_, fun fuel s => ?_⟩, fun ends => ?_⟩
  · exact ends.flat (by decide) _ (inside _)
  · by_contra returns
    obtain ⟨r, run⟩ := Option.ne_none_iff_exists'.mp returns
    rcases Readable.of_returns ⟨s, r, run⟩ with bounded | nested
    · exact absurd bounded (by decide)
    · have descends : ¬ FinitelyNested sample (arrayOf [.object 8]) (.object 8) :=
        not_acc_iff_exists_descending_chain.mpr ⟨fun _ => .object 8, rfl, fun _ => inside _⟩
      exact descends nested
  · exact ends.flat (by decide) _ (inside _)

end Racer
