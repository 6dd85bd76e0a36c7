import Racer.Library.FirstAppearance
import Racer.Tracer.Nesting

namespace Racer
open Stateful Filter FirstAppearance

/-! Which generic unions `value_to_constant_instance` computes. -/

section
variable {κ : Type} [DecidableEq κ] (h : Hierarchy κ) (o : Objects κ)

/-- The lists of elements that the generic unions of a value are made from: those of
an array, or the keys and the values of a hash. -/
def elements (value : Value κ) : List (List (Value κ)) :=
  if value.objClass h o = h.cArray then
    if value.array o = [] then [] else [value.array o]
  else if value.objClass h o = h.cHash then
    if value.hash o = [] then [] else [(value.hash o).map Prod.fst, (value.hash o).map Prod.snd]
  else []

def elementsAt (maxGenericDepth depth : Int) (value : Value κ) : List (List (Value κ)) :=
  if depth = maxGenericDepth then [] else elements h o value

/-- A value inside another one, with the depth at which its type is computed. -/
inductive Place (maxGenericDepth : Int) (value : Value κ) : Value κ → Int → Prop
  | root : Place maxGenericDepth value value 0
  | inside {v depth items item} : Place maxGenericDepth value v depth →
      items ∈ elementsAt h o maxGenericDepth depth v → item ∈ items →
      Place maxGenericDepth value item (depth + 1)

/-- The class of a value whose type is neither a class object nor has arguments. -/
def plainClass (constant : ConstantInstance) (value : Value κ) : Option κ :=
  if constant.genericArguments = [] ∧ constant.singleton = false then some (value.objClass h o) else none

variable [Fintype κ]

/-- The type that is computed for a value from every state between two events. -/
def Computed (maxGenericDepth : Int) (value : Value κ) (depth : Int) (constant : ConstantInstance) : Prop :=
  ∀ s, Named h s → ∀ᶠ fuel in atTop, ∃ t,
    valueToConstantInstance h o maxGenericDepth fuel value depth s = some (constant, t)

/-- Every union at this place has the types of its elements, once each and in order
of first appearance. -/
def ExactAt (maxGenericDepth : Int) (value : Value κ) (depth : Int) : Prop :=
  ∃ constant types, Computed h o maxGenericDepth value depth constant ∧
    List.Forall₂ (List.Forall₂ fun item type => Computed h o maxGenericDepth item (depth + 1) type)
      (elementsAt h o maxGenericDepth depth value) types ∧
    constant.genericArguments = types.map firsts

/-- The unions are exact wherever the value is read. -/
def UnionsExact (maxGenericDepth : Int) (value : Value κ) : Prop :=
  ∀ v depth, Place h o maxGenericDepth value v depth → ExactAt h o maxGenericDepth v depth

/-- The exact type of a value that is read this many levels deep. -/
def exactType : Nat → Value κ → ConstantInstance
  | levels, value =>
    match value.singleton h o with
    | some klass => { name := finalName h klass, singleton := true }
    | none =>
      { name := finalName h (value.objClass h o)
        genericArguments :=
          match levels with
          | 0 => []
          | levels + 1 => (elements h o value).map fun items => firsts (items.map (exactType levels)) }

/-- Neither a class object nor an array or hash whose elements are read. -/
def Plain (maxGenericDepth depth : Int) (value : Value κ) : Prop :=
  value.singleton h o = none ∧ elementsAt h o maxGenericDepth depth value = []

/-- Elements of one list have the same exact type only if they are plain values of
one class. -/
def SeparatedAt (maxGenericDepth : Int) (value : Value κ) (depth : Int) : Prop :=
  ∀ items ∈ elementsAt h o maxGenericDepth depth value, items.Pairwise fun a b =>
    exactType h o (maxGenericDepth - (depth + 1)).toNat a = exactType h o (maxGenericDepth - (depth + 1)).toNat b →
      Plain h o maxGenericDepth (depth + 1) a ∧ Plain h o maxGenericDepth (depth + 1) b ∧
        a.objClass h o = b.objClass h o

variable {h o}

omit [Fintype κ] in
theorem addType_eq_turn (typeOf : Value κ → ConstantInstance) (types : List κ × List ConstantInstance)
    (item : Value κ) :
    addType (item.objClass h o) (typeOf item) types =
      turn (fun v => plainClass h o (typeOf v) v) typeOf types item := by
  unfold addType turn plainClass
  by_cases plain : (typeOf item).genericArguments = [] ∧ (typeOf item).singleton = false
  · simp only [if_pos plain]
  · simp only [if_neg plain]

omit [Fintype κ] in
theorem arrayTypes_eq {expected : Value κ → Option ConstantInstance} {typeOf : Value κ → ConstantInstance}
    (computed : ∀ v, expected v = some (typeOf v)) (items : List (Value κ))
    (types : List κ × List ConstantInstance) :
    arrayTypes expected (Value.objClass h o) items types =
      some (items.foldl (turn (fun v => plainClass h o (typeOf v) v) typeOf) types).2 := by
  induction items generalizing types with
  | nil => rfl
  | cons item items ih =>
    simp only [arrayTypes, computed, Option.bind_eq_bind, Option.bind_some, ih, List.foldl_cons, addType_eq_turn]

omit [Fintype κ] in
theorem hashTypes_eq {expected : Value κ → Option ConstantInstance} {typeOf : Value κ → ConstantInstance}
    (computed : ∀ v, expected v = some (typeOf v)) (items : List (Value κ × Value κ))
    (keys values : List κ × List ConstantInstance) :
    hashTypes expected (Value.objClass h o) items keys values =
      some (((items.map Prod.fst).foldl (turn (fun v => plainClass h o (typeOf v) v) typeOf) keys).2,
        ((items.map Prod.snd).foldl (turn (fun v => plainClass h o (typeOf v) v) typeOf) values).2) := by
  induction items generalizing keys values with
  | nil => rfl
  | cons item items ih =>
    obtain ⟨key, value⟩ := item
    simp only [hashTypes, computed, Option.bind_eq_bind, Option.bind_some, ih, List.map_cons, List.foldl_cons,
      addType_eq_turn]

omit [Fintype κ] in
/-- The loops keep each list of elements by class. -/
theorem genericArgumentsByValue_eq {expected : Value κ → Option ConstantInstance}
    {typeOf : Value κ → ConstantInstance} (computed : ∀ v, expected v = some (typeOf v))
    {maxGenericDepth depth : Int} (inner : depth ≠ maxGenericDepth) (value : Value κ) :
    genericArgumentsByValue h expected o maxGenericDepth value depth =
      some ((elements h o value).map fun items => (keep (fun v => plainClass h o (typeOf v) v) typeOf items).2) := by
  unfold genericArgumentsByValue elements
  rw [if_neg inner]
  split_ifs
  · rfl
  · simp only [arrayTypes_eq computed, Option.bind_eq_bind, Option.bind_some, List.map_cons, List.map_nil]
    rfl
  · rfl
  · simp only [hashTypes_eq computed, Option.bind_eq_bind, Option.bind_some, List.map_cons, List.map_nil]
    rfl
  · rfl

section
variable {f g : Value κ → Option ConstantInstance}

omit [Fintype κ] in
theorem arrayTypes_mono (more : ∀ v i, f v = some i → g v = some i) {objClass : Value κ → κ}
    {items : List (Value κ)} {types : List κ × List ConstantInstance} {r : List ConstantInstance}
    (run : arrayTypes f objClass items types = some r) : arrayTypes g objClass items types = some r := by
  induction items generalizing types with
  | nil => exact run
  | cons item items ih =>
    obtain ⟨i, first, rest⟩ := Option.bind_eq_some_iff.mp run
    exact Option.bind_eq_some_iff.mpr ⟨i, more item i first, ih rest⟩

omit [Fintype κ] in
theorem hashTypes_mono (more : ∀ v i, f v = some i → g v = some i) {objClass : Value κ → κ}
    {items : List (Value κ × Value κ)} {keys values : List κ × List ConstantInstance}
    {r : List ConstantInstance × List ConstantInstance} (run : hashTypes f objClass items keys values = some r) :
    hashTypes g objClass items keys values = some r := by
  induction items generalizing keys values with
  | nil => exact run
  | cons item items ih =>
    obtain ⟨i, key, others⟩ := Option.bind_eq_some_iff.mp run
    obtain ⟨j, value, rest⟩ := Option.bind_eq_some_iff.mp others
    refine Option.bind_eq_some_iff.mpr ⟨i, more _ i key, ?_⟩
    exact Option.bind_eq_some_iff.mpr ⟨j, more _ j value, ih rest⟩

omit [Fintype κ] in
theorem genericArgumentsByValue_mono (more : ∀ v i, f v = some i → g v = some i) {maxGenericDepth depth : Int}
    {value : Value κ} {r : List (List ConstantInstance)}
    (run : genericArgumentsByValue h f o maxGenericDepth value depth = some r) :
    genericArgumentsByValue h g o maxGenericDepth value depth = some r := by
  unfold genericArgumentsByValue at run ⊢
  split_ifs at run ⊢
  · exact run
  · exact run
  · obtain ⟨types, computed, rest⟩ := Option.bind_eq_some_iff.mp run
    exact Option.bind_eq_some_iff.mpr ⟨types, arrayTypes_mono more computed, rest⟩
  · exact run
  · obtain ⟨types, computed, rest⟩ := Option.bind_eq_some_iff.mp run
    exact Option.bind_eq_some_iff.mpr ⟨types, hashTypes_mono more computed, rest⟩
  · exact run

end

omit [Fintype κ] in
theorem typeOfValue_succ {maxGenericDepth : Int} {fuel : Nat} {value : Value κ} {depth : Int} {i : ConstantInstance}
    (run : typeOfValue h o maxGenericDepth fuel value depth = some i) :
    typeOfValue h o maxGenericDepth (fuel + 1) value depth = some i := by
  induction fuel generalizing value depth i with
  | zero => cases run
  | succ fuel ih =>
    unfold typeOfValue at run ⊢
    cases singleton : value.singleton h o with
    | some klass => simpa only [singleton] using run
    | none =>
      simp only [singleton] at run ⊢
      obtain ⟨generics, computed, rest⟩ := Option.bind_eq_some_iff.mp run
      exact Option.bind_eq_some_iff.mpr ⟨generics, genericArgumentsByValue_mono (fun v i => ih) computed, rest⟩

omit [Fintype κ] in
/-- More fuel does not change the type. -/
theorem typeOfValue_mono {maxGenericDepth : Int} {fuel fuel' : Nat} (more : fuel ≤ fuel') {value : Value κ}
    {depth : Int} {i : ConstantInstance} (run : typeOfValue h o maxGenericDepth fuel value depth = some i) :
    typeOfValue h o maxGenericDepth fuel' value depth = some i := by
  induction more with
  | refl => exact run
  | step _ ih => exact typeOfValue_succ ih

omit [Fintype κ] in
theorem typeOfValue_unique {maxGenericDepth : Int} {fuel fuel' : Nat} {value : Value κ} {depth : Int}
    {i j : ConstantInstance} (run : typeOfValue h o maxGenericDepth fuel value depth = some i)
    (run' : typeOfValue h o maxGenericDepth fuel' value depth = some j) : i = j := by
  rcases Nat.le_total fuel fuel' with more | more
  · exact Option.some.inj ((typeOfValue_mono more run).symm.trans run')
  · exact Option.some.inj (run.symm.trans (typeOfValue_mono more run'))

variable (h o) in
/-- The type of a value that is read with enough fuel for the depth. -/
def valueTypeAt (maxGenericDepth depth : Int) (value : Value κ) : ConstantInstance :=
  (typeOfValue h o maxGenericDepth ((maxGenericDepth - depth).toNat + 1) value depth).getD {}

variable (h o) in
/-- The types that the loops keep of a list of elements. -/
def keptAt (maxGenericDepth depth : Int) (items : List (Value κ)) : List ConstantInstance :=
  (keep (fun v => plainClass h o (valueTypeAt h o maxGenericDepth depth v) v)
    (valueTypeAt h o maxGenericDepth depth) items).2

variable {maxGenericDepth depth : Int}

theorem typeOfValue_valueTypeAt (within : depth ≤ maxGenericDepth) (value : Value κ) :
    typeOfValue h o maxGenericDepth ((maxGenericDepth - depth).toNat + 1) value depth =
      some (valueTypeAt h o maxGenericDepth depth value) := by
  have named : Named h ({} : Constants κ) := fun _ _ there => by cases there
  obtain ⟨⟨i, t⟩, run⟩ :=
    valueToConstantInstance_total_of_le (h := h) (o := o) within (Nat.lt_succ_self _) value {}
  obtain ⟨_, computed, _⟩ := valueToConstantInstance_ensures o maxGenericDepth _ depth value {} named i t run
  have read : typeOfValue h o maxGenericDepth ((maxGenericDepth - depth).toNat + 1) value depth = some i := computed
  rw [valueTypeAt, read, Option.getD_some]

/-- The type that is computed is the same from every state. -/
theorem computed_iff (within : depth ≤ maxGenericDepth) {value : Value κ} {i : ConstantInstance} :
    Computed h o maxGenericDepth value depth i ↔ i = valueTypeAt h o maxGenericDepth depth value := by
  have reads {fuel : Nat} {s t : Constants κ} {j : ConstantInstance} (named : Named h s)
      (run : valueToConstantInstance h o maxGenericDepth fuel value depth s = some (j, t)) :
      j = valueTypeAt h o maxGenericDepth depth value := by
    obtain ⟨_, computed, _⟩ := valueToConstantInstance_ensures o maxGenericDepth fuel depth value s named j t run
    exact typeOfValue_unique computed (typeOfValue_valueTypeAt within value)
  constructor
  · intro computed
    have named : Named h ({} : Constants κ) := fun _ _ there => by cases there
    obtain ⟨fuel, t, run⟩ := (computed {} named).exists
    exact reads named run
  · rintro rfl s named
    have readable : Readable o h maxGenericDepth value depth := .inl within
    filter_upwards [readable.total] with fuel total
    obtain ⟨⟨j, t⟩, run⟩ := total s
    exact ⟨t, by rw [run, reads named run]⟩

/-- What the loops make of the elements of a value. -/
theorem valueTypeAt_eq (within : depth ≤ maxGenericDepth) (value : Value κ) :
    valueTypeAt h o maxGenericDepth depth value =
      match value.singleton h o with
      | some klass => { name := finalName h klass, singleton := true }
      | none =>
        { name := finalName h (value.objClass h o)
          genericArguments :=
            (elementsAt h o maxGenericDepth depth value).map (keptAt h o maxGenericDepth (depth + 1)) } := by
  have computed := typeOfValue_valueTypeAt (h := h) (o := o) within value
  rw [typeOfValue] at computed
  cases singleton : value.singleton h o with
  | some klass =>
    simp only [singleton] at computed ⊢
    exact (Option.some.inj computed).symm
  | none =>
    simp only [singleton] at computed ⊢
    obtain ⟨generics, elements, same⟩ := Option.bind_eq_some_iff.mp computed
    rw [← Option.some.inj same]
    congr 1
    unfold elementsAt
    by_cases last : depth = maxGenericDepth
    · simp only [genericArgumentsByValue, if_pos last] at elements ⊢
      exact (Option.some.inj elements).symm
    · have inner : depth + 1 ≤ maxGenericDepth := by omega
      have levels : (maxGenericDepth - depth).toNat = (maxGenericDepth - (depth + 1)).toNat + 1 := by omega
      rw [levels, genericArgumentsByValue_eq (fun v => typeOfValue_valueTypeAt inner v) last] at elements
      rw [if_neg last]
      exact (Option.some.inj elements).symm

omit [Fintype κ] in
theorem elementsAt_of_singleton {value : Value κ} {klass : κ} (singleton : value.singleton h o = some klass) :
    elementsAt h o maxGenericDepth depth value = [] := by
  rcases value with k | id
  · simp [elementsAt, elements, Value.array, Value.hash]
  · cases singleton

omit [Fintype κ] in
theorem inner_of_mem_elementsAt {value : Value κ} {items : List (Value κ)} (within : depth ≤ maxGenericDepth)
    (member : items ∈ elementsAt h o maxGenericDepth depth value) : depth + 1 ≤ maxGenericDepth := by
  have inner : depth ≠ maxGenericDepth := by
    intro last
    rw [elementsAt, if_pos last] at member
    cases member
  omega

omit [Fintype κ] in
theorem exactType_eq (within : depth ≤ maxGenericDepth) (value : Value κ) :
    exactType h o (maxGenericDepth - depth).toNat value =
      match value.singleton h o with
      | some klass => { name := finalName h klass, singleton := true }
      | none =>
        { name := finalName h (value.objClass h o)
          genericArguments := (elementsAt h o maxGenericDepth depth value).map fun items =>
            firsts (items.map (exactType h o (maxGenericDepth - (depth + 1)).toNat)) } := by
  unfold elementsAt
  by_cases last : depth = maxGenericDepth
  · subst last
    rw [Int.sub_self, if_pos rfl, Int.toNat_zero, exactType]
    rfl
  · have levels : (maxGenericDepth - depth).toNat = (maxGenericDepth - (depth + 1)).toNat + 1 := by omega
    rw [levels, if_neg last, exactType]

/-- A type is plain where its value is. -/
theorem plainClass_eq_some (within : depth ≤ maxGenericDepth) {value : Value κ} {k : κ} :
    plainClass h o (valueTypeAt h o maxGenericDepth depth value) value = some k ↔
      Plain h o maxGenericDepth depth value ∧ value.objClass h o = k := by
  rw [plainClass, valueTypeAt_eq within, Plain]
  cases singleton : value.singleton h o with
  | some klass => simp
  | none => simp

/-- The class of a plain value determines its type. -/
theorem valueTypeAt_of_plainClass (within : depth ≤ maxGenericDepth) (a b : Value κ) (k : κ)
    (first : plainClass h o (valueTypeAt h o maxGenericDepth depth a) a = some k)
    (second : plainClass h o (valueTypeAt h o maxGenericDepth depth b) b = some k) :
    valueTypeAt h o maxGenericDepth depth a = valueTypeAt h o maxGenericDepth depth b := by
  obtain ⟨⟨singletonA, emptyA⟩, classA⟩ := (plainClass_eq_some within).mp first
  obtain ⟨⟨singletonB, emptyB⟩, classB⟩ := (plainClass_eq_some within).mp second
  rw [valueTypeAt_eq within, valueTypeAt_eq within, singletonA, singletonB, emptyA, emptyB, classA, classB]

/-- A relation to the values of a function is its graph. -/
theorem forall₂_iff_eq_map {α β : Type} {R : α → β → Prop} {f : α → β} {xs : List α} {ys : List β}
    (graph : ∀ x ∈ xs, ∀ y, R x y ↔ y = f x) : List.Forall₂ R xs ys ↔ ys = xs.map f := by
  induction xs generalizing ys with
  | nil => exact List.forall₂_nil_left_iff
  | cons x xs ih =>
    obtain ⟨here, rest⟩ := List.forall_mem_cons.mp graph
    rw [List.map_cons]
    constructor
    · rintro (_ | ⟨first, others⟩)
      rw [(here _).mp first, (ih rest).mp others]
    · rintro rfl
      exact .cons ((here _).mpr rfl) ((ih rest).mpr rfl)

/-- A place is exact if the loops keep the first appearances of the computed types. -/
theorem exactAt_iff (within : depth ≤ maxGenericDepth) {value : Value κ} :
    ExactAt h o maxGenericDepth value depth ↔ ∀ items ∈ elementsAt h o maxGenericDepth depth value,
      keptAt h o maxGenericDepth (depth + 1) items =
        firsts (items.map (valueTypeAt h o maxGenericDepth (depth + 1))) := by
  have arguments : (valueTypeAt h o maxGenericDepth depth value).genericArguments =
      (elementsAt h o maxGenericDepth depth value).map (keptAt h o maxGenericDepth (depth + 1)) := by
    rw [valueTypeAt_eq within]
    cases singleton : value.singleton h o with
    | some klass => rw [elementsAt_of_singleton singleton]; rfl
    | none => rfl
  have types {found : List (List ConstantInstance)} : List.Forall₂ (List.Forall₂ fun item type =>
      Computed h o maxGenericDepth item (depth + 1) type) (elementsAt h o maxGenericDepth depth value) found ↔
      found = (elementsAt h o maxGenericDepth depth value).map
        (List.map (valueTypeAt h o maxGenericDepth (depth + 1))) := by
    refine forall₂_iff_eq_map fun items member type => forall₂_iff_eq_map fun item _ type => ?_
    exact computed_iff (inner_of_mem_elementsAt within member)
  constructor
  · rintro ⟨constant, found, computed, elements, same⟩
    rw [(computed_iff within).mp computed, arguments, types.mp elements, List.map_map] at same
    exact List.map_inj_left.mp same
  · intro each
    refine ⟨_, _, (computed_iff within).mpr rfl, types.mpr rfl, ?_⟩
    rw [arguments, List.map_map]
    exact List.map_inj_left.mpr each

/-- Where the computed types of the elements are the exact ones, the loops tell them
apart exactly if the place is separated. -/
theorem distinguishes_iff {items : List (Value κ)} (within : depth + 1 ≤ maxGenericDepth)
    (exact : ∀ item ∈ items, valueTypeAt h o maxGenericDepth (depth + 1) item =
      exactType h o (maxGenericDepth - (depth + 1)).toNat item) :
    Distinguishes (fun v => plainClass h o (valueTypeAt h o maxGenericDepth (depth + 1) v) v)
        (valueTypeAt h o maxGenericDepth (depth + 1)) items ↔
      items.Pairwise fun a b =>
        exactType h o (maxGenericDepth - (depth + 1)).toNat a = exactType h o (maxGenericDepth - (depth + 1)).toNat b →
          Plain h o maxGenericDepth (depth + 1) a ∧ Plain h o maxGenericDepth (depth + 1) b ∧
            a.objClass h o = b.objClass h o := by
  refine List.Pairwise.iff_of_mem fun {a b} memberA memberB => ?_
  rw [exact a memberA, exact b memberB]
  refine imp_congr_right fun _ => ?_
  constructor
  · rintro ⟨k, first, second⟩
    obtain ⟨plainA, classA⟩ := (plainClass_eq_some within).mp first
    obtain ⟨plainB, classB⟩ := (plainClass_eq_some within).mp second
    exact ⟨plainA, plainB, classA.trans classB.symm⟩
  · rintro ⟨plainA, plainB, same⟩
    exact ⟨a.objClass h o, (plainClass_eq_some within).mpr ⟨plainA, rfl⟩,
      (plainClass_eq_some within).mpr ⟨plainB, same.symm⟩⟩

omit [Fintype κ] in
theorem Place.within {value v : Value κ} (positive : 1 ≤ maxGenericDepth)
    (place : Place h o maxGenericDepth value v depth) : depth ≤ maxGenericDepth := by
  induction place with
  | root => omega
  | inside _ member _ ih => exact inner_of_mem_elementsAt ih member

/-- The computed types are exact if the loops find the first appearances of exact types. -/
theorem Place.valueTypeAt_eq_exactType {value v : Value κ} (positive : 1 ≤ maxGenericDepth)
    (found : ∀ v depth, Place h o maxGenericDepth value v depth →
      ∀ items ∈ elementsAt h o maxGenericDepth depth v,
        (∀ item ∈ items, valueTypeAt h o maxGenericDepth (depth + 1) item =
          exactType h o (maxGenericDepth - (depth + 1)).toNat item) →
        keptAt h o maxGenericDepth (depth + 1) items = firsts (items.map (valueTypeAt h o maxGenericDepth (depth + 1))))
    (place : Place h o maxGenericDepth value v depth) :
    valueTypeAt h o maxGenericDepth depth v = exactType h o (maxGenericDepth - depth).toNat v := by
  induction levels : (maxGenericDepth - depth).toNat generalizing v depth with
  | zero =>
    have last : depth = maxGenericDepth := by have := place.within positive; omega
    rw [← levels, valueTypeAt_eq (place.within positive), exactType_eq (place.within positive), elementsAt,
      if_pos last]
    rfl
  | succ n ih =>
    rw [← levels, valueTypeAt_eq (place.within positive), exactType_eq (place.within positive)]
    cases v.singleton h o with
    | some klass => rfl
    | none =>
      simp only
      congr 1
      refine List.map_congr_left fun items member => ?_
      have remaining : (maxGenericDepth - (depth + 1)).toNat = n := by omega
      have inside : ∀ item ∈ items, valueTypeAt h o maxGenericDepth (depth + 1) item =
          exactType h o (maxGenericDepth - (depth + 1)).toNat item := by
        intro item element
        rw [remaining]
        exact ih (.inside place member element) remaining
      rw [found v depth place items member inside]
      exact congrArg firsts (List.map_congr_left inside)

/-- The generic unions of a value are exact exactly if elements of one list never
have the same type, unless they are plain values of one class. -/
theorem unions_exact_iff (h : Hierarchy κ) (o : Objects κ) (maxGenericDepth : Int) (positive : 1 ≤ maxGenericDepth)
    (value : Value κ) : UnionsExact h o maxGenericDepth value ↔
      ∀ v depth, Place h o maxGenericDepth value v depth → SeparatedAt h o maxGenericDepth v depth := by
  constructor
  · intro exact v depth place items member
    have inner := inner_of_mem_elementsAt (place.within positive) member
    have types : ∀ item ∈ items, valueTypeAt h o maxGenericDepth (depth + 1) item =
        exactType h o (maxGenericDepth - (depth + 1)).toNat item := fun item element =>
      Place.valueTypeAt_eq_exactType positive
        (fun w d there list inside _ => (exactAt_iff (there.within positive)).mp (exact w d there) list inside)
        (.inside place member element)
    have kept := (exactAt_iff (place.within positive)).mp (exact v depth place) items member
    exact (distinguishes_iff inner types).mp ((keep_eq_firsts_iff (valueTypeAt_of_plainClass inner)).mp kept)
  · intro separated v depth place
    have keeps : ∀ v depth, Place h o maxGenericDepth value v depth →
        ∀ items ∈ elementsAt h o maxGenericDepth depth v,
          (∀ item ∈ items, valueTypeAt h o maxGenericDepth (depth + 1) item =
            exactType h o (maxGenericDepth - (depth + 1)).toNat item) →
          keptAt h o maxGenericDepth (depth + 1) items =
            firsts (items.map (valueTypeAt h o maxGenericDepth (depth + 1))) := by
      intro v depth place items member types
      have inner := inner_of_mem_elementsAt (place.within positive) member
      exact Distinguishes.keep_eq (valueTypeAt_of_plainClass inner)
        ((distinguishes_iff inner types).mpr (separated v depth place items member))
    refine (exactAt_iff (place.within positive)).mpr fun items member => keeps v depth place items member ?_
    exact fun item element => Place.valueTypeAt_eq_exactType positive keeps (.inside place member element)

end

/-- The object 8 is an array of the elements. -/
def arrayOf (items : List (Value (Sample × Bool))) : Objects (Sample × Bool) where
  objClass id := if id = 8 then (.Array, false) else (.Object, false)
  array id := if id = 8 then items else []
  hash _ := []

/-- The array `[Object, Object]` has a union with the class object twice. -/
theorem class_objects_repeated :
    ¬ UnionsExact sample (arrayOf [.constant (.Object, false), .constant (.Object, false)]) 1 (.object 8) := by
  intro exact
  have kept := (exactAt_iff (by decide)).mp (exact _ _ .root)
    [.constant (.Object, false), .constant (.Object, false)] (by decide)
  exact absurd kept (by decide +kernel)

/-- An array of two plain objects has a union with their class once. -/
theorem plain_objects_once : UnionsExact sample (arrayOf [.object 1, .object 2]) 1 (.object 8) := by
  refine (unions_exact_iff sample (arrayOf [.object 1, .object 2]) 1 (le_refl 1) (.object 8)).mpr ?_
  have places : ∀ v depth, Place sample (arrayOf [.object 1, .object 2]) 1 (.object 8) v depth →
      (v = .object 8 ∧ depth = 0) ∨ depth = 1 := by
    intro v depth place
    induction place with
    | root => exact .inl ⟨rfl, rfl⟩
    | inside _ member _ ih =>
      rcases ih with ⟨_, rfl⟩ | rfl
      · exact .inr rfl
      · rw [elementsAt, if_pos rfl] at member
        cases member
  intro v depth place items member
  rcases places v depth place with ⟨rfl, rfl⟩ | rfl
  · have only : items = [.object 1, .object 2] := List.mem_singleton.mp member
    subst only
    refine List.pairwise_pair.mpr fun _ => ?_
    unfold Plain
    decide
  · rw [elementsAt, if_pos rfl] at member
    cases member

end Racer
