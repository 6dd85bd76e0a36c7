import Racer.Collectors.Names
import Racer.Collectors.Overloads
import Racer.Collectors.Pruning

namespace Racer
open Outcome

/-! Which of the observed constants the type covers that `to_rbs_type` makes of them. -/

section
variable (env : Environment)

/-- The constant can be an instance of the type, or the class object that it stands for. -/
inductive Covers : RbsType → ConstantInstance → Prop
  | any {c} : Covers .any c
  | bool {c} (value : c.singleton = false) (name : c.name = "TrueClass" ∨ c.name = "FalseClass") : Covers .bool c
  | nil {c} (value : c.singleton = false) (name : c.name = "NilClass") : Covers .nil c
  | union {types t c} (member : t ∈ types) (covers : Covers t c) : Covers (.union types) c
  | classSingleton {c n} (object : c.singleton = true) (name : validName env c.name = .ok n) :
      Covers (.classSingleton (toTypeName n)) c
  | bare {c n args} (value : c.singleton = false) (name : validName env c.name = .ok n)
      (bare : c.genericArguments = []) : Covers (.classInstance (toTypeName n) args) c
  | generic {c n args} (value : c.singleton = false) (name : validName env c.name = .ok n)
      (length : c.genericArguments.length = args.length)
      (members : ∀ (i : Nat) u arg, c.genericArguments[i]? = some u → args[i]? = some arg → ∀ d ∈ u, Covers arg d) :
      Covers (.classInstance (toTypeName n) args) c

/-- The names that `to_rbs_type` gives a type of their own. -/
def ConstantInstance.literal (c : ConstantInstance) : Bool :=
  isBoolean c || c.name = "NilClass" || c.name = "bool"

/-- `true`, `false` or `nil`. -/
def ConstantInstance.isLiteralValue (c : ConstantInstance) : Bool :=
  !c.singleton && (isBoolean c || c.name = "NilClass")

/-- Of one class, and both its instances or both the class object. -/
def SameKind (d c : ConstantInstance) : Prop :=
  d.singleton = c.singleton ∧ toTypeName <$> validName env d.name = toTypeName <$> validName env c.name

/-- For every constant but `true`, `false` and `nil` the list has one of its kind that is
not pruned and not taken for one of these. -/
structure Convertible (constants : List ConstantInstance) : Prop where
  names : ∀ c ∈ constants, c.literal = false → ∃ n, validName env c.name = .ok n
  kinds : ∀ c ∈ constants, c.isLiteralValue = true ∨
    ∃ d ∈ constants, d.literal = false ∧ Unpruned constants d ∧ SameKind env d c

end

/-- The list itself and the generic unions in it, to any depth. -/
inductive UnionIn (constants : List ConstantInstance) : List ConstantInstance → Prop
  | self : UnionIn constants constants
  | nested {union c u} (within : UnionIn constants union) (member : c ∈ union) (generic : u ∈ c.genericArguments) :
      UnionIn constants u

/-- Only arrays and hashes have generic arguments. -/
def ConstantInstance.Arity (c : ConstantInstance) : Prop :=
  (c.name = "Array" ∧ c.genericArguments.length = 1) ∨ (c.name = "Hash" ∧ c.genericArguments.length = 2) ∨
    c.genericArguments = []

def Observed (constants : List ConstantInstance) : Prop :=
  ∀ union, UnionIn constants union → union ≠ [] ∧ ∀ c ∈ union, c.Arity

/-- Arrays and hashes exist as RBS types, with their parameters. -/
structure CollectionTypes (existingTypes : OrderedHash String ExistingType) : Prop where
  array : ∃ existing, existingTypes.get? "Array" = some existing ∧ existing.classDecl.typeParams.length = 1
  hash : ∃ existing, existingTypes.get? "Hash" = some existing ∧ existing.classDecl.typeParams.length = 2

section
variable (env : Environment) (existingTypes : OrderedHash String ExistingType)

/-- What the type of a list stands for: booleans and `nil` if the list has them, and what is of one
kind with an unpruned member and has generic arguments that those of the member stand for. -/
inductive Spans : List ConstantInstance → ConstantInstance → Prop
  | boolean {union d c} (member : d ∈ union) (name : isBoolean d = true ∨ d.name = "bool")
      (value : c.singleton = false) (boolean : isBoolean c = true) : Spans union c
  | nil {union d c} (member : d ∈ union) (name : d.name = "NilClass") (value : c.singleton = false)
      (nil : c.name = "NilClass") : Spans union c
  | plain {union d c} (member : d ∈ union) (other : d.literal = false) (unpruned : Unpruned union d)
      (kind : SameKind env d c) (plain : c.singleton = true ∨ c.genericArguments = []) : Spans union c
  | generic {union d c n} (member : d ∈ union) (other : d.literal = false) (unpruned : Unpruned union d)
      (kind : SameKind env d c) (value : c.singleton = false) (name : validName env d.name = .ok n)
      (params : (existingTypes.get? n).map (·.classDecl.typeParams.length) = some d.genericArguments.length)
      (length : c.genericArguments.length = d.genericArguments.length)
      (members : ∀ (i : Nat) u v, d.genericArguments[i]? = some u → c.genericArguments[i]? = some v →
        ∀ e ∈ v, Spans u e) : Spans union c
  | untyped {union d c n} (member : d ∈ union) (other : d.literal = false) (unpruned : Unpruned union d)
      (kind : SameKind env d c) (value : c.singleton = false) (name : validName env d.name = .ok n)
      (params : (existingTypes.get? n).map (·.classDecl.typeParams.length) = some c.genericArguments.length)
      (differs : d.genericArguments.length ≠ c.genericArguments.length) : Spans union c

end

section
variable {env : Environment} {existingTypes : OrderedHash String ExistingType}

theorem covers_union_iff {types : List RbsType} {c : ConstantInstance} :
    Covers env (.union types) c ↔ ∃ t ∈ types, Covers env t c := by
  refine ⟨fun covers => ?_, fun ⟨t, member, covers⟩ => .union member covers⟩
  cases covers with
  | union member covers => exact ⟨_, member, covers⟩

theorem survivors_singleton {constants : List ConstantInstance} {c : ConstantInstance}
    (merged : mergeBooleans (uniq constants) = [c]) : survivors constants = [c] := by
  rw [survivors, merged]
  cases bare : c.bare <;> simp [deleteBare, deleteBareAt, bare]

/-- The type of a list covers what the types of the survivors cover. -/
theorem covers_unionType_iff {typeOf : ConstantInstance → Except RubyError RbsType} {constants : List ConstantInstance}
    {t : RbsType} (run : unionType typeOf constants = .ok t) {c : ConstantInstance} :
    Covers env t c ↔ ∃ d ∈ survivors constants, ∃ u, typeOf d = .ok u ∧ Covers env u c := by
  unfold unionType at run
  split at run
  next => cases run
  next d merged =>
    simp only [survivors_singleton merged, List.mem_singleton, exists_eq_left, run, Except.ok.injEq, exists_eq_left']
  next constants' merged =>
    obtain ⟨types, each, single⟩ := bind_eq_ok.mp run
    cases single
    have images := mapM_eq_ok.mp each
    rw [covers_union_iff]
    constructor
    · rintro ⟨u, member, covers⟩
      obtain ⟨d, inside, made⟩ := SameMembers.image_of_mem images.flip member
      exact ⟨d, inside, u, made, covers⟩
    · rintro ⟨d, inside, u, made, covers⟩
      obtain ⟨u', member, made'⟩ := SameMembers.image_of_mem images inside
      rw [made] at made'
      cases made'
      exact ⟨u, member, covers⟩

theorem unionType_each {typeOf : ConstantInstance → Except RubyError RbsType} {constants : List ConstantInstance}
    {t : RbsType} (run : unionType typeOf constants = .ok t) {d : ConstantInstance} (kept : d ∈ survivors constants) :
    ∃ u, typeOf d = .ok u := by
  unfold unionType at run
  split at run
  next => cases run
  next d merged =>
    rw [survivors_singleton merged, List.mem_singleton] at kept
    rw [kept]
    exact ⟨t, run⟩
  next constants' merged =>
    obtain ⟨types, each, _⟩ := bind_eq_ok.mp run
    obtain ⟨u, _, made⟩ := SameMembers.image_of_mem (mapM_eq_ok.mp each) kept
    exact ⟨u, made⟩

/-- A type is made of a list if one is made of each survivor. -/
theorem unionType_returns_iff {typeOf : ConstantInstance → Except RubyError RbsType}
    {constants : List ConstantInstance} (nonempty : constants ≠ []) :
    (∃ t, unionType typeOf constants = .ok t) ↔ ∀ d ∈ survivors constants, ∃ u, typeOf d = .ok u := by
  refine ⟨fun ⟨t, run⟩ d kept => unionType_each run kept, fun each => ?_⟩
  unfold unionType
  split
  next merged =>
    obtain ⟨c, constants, rfl⟩ := List.exists_cons_of_ne_nil nonempty
    unfold mergeBooleans at merged
    split at merged
    · exact absurd merged (List.append_ne_nil_of_right_ne_nil _ (List.cons_ne_nil _ _))
    · cases merged
  next d merged => exact each d (by simp [survivors_singleton merged])
  next constants' merged =>
    obtain ⟨types, run⟩ := mapM_total each
    exact ⟨_, bind_eq_ok.mpr ⟨types, run, rfl⟩⟩

/-- `to_rbs_type` returns a type that covers the whole list. -/
def ConvertsSoundly (env : Environment) (existingTypes : OrderedHash String ExistingType)
    (constants : List ConstantInstance) : Prop :=
  ∃ t, toRbsType env existingTypes constants = .ok t ∧ ∀ c ∈ constants, Covers env t c

theorem Arity.collection {c : ConstantInstance} (arity : c.Arity) (full : c.bare = false) :
    c.name = "Array" ∨ c.name = "Hash" := by
  rcases arity with ⟨array, _⟩ | ⟨hash, _⟩ | none
  · exact .inl array
  · exact .inr hash
  · rw [ConstantInstance.bare, none] at full
    cases full

/-- The pruning only takes bare arrays and hashes. -/
theorem mem_survivors {constants : List ConstantInstance} (arity : ∀ c ∈ constants, c.Arity) {c : ConstantInstance}
    (merged : c ∈ mergeBooleans (uniq constants)) :
    c ∈ survivors constants ∨ (c.bare = true ∧ (c.name = "Array" ∨ c.name = "Hash")) := by
  rcases mem_deleteBare_of_mem merged with kept | ⟨bare, superseded⟩
  · exact .inl kept
  · obtain ⟨d, inside, named⟩ := List.any_eq_true.mp superseded
    simp only [parameterised, Bool.and_eq_true, decide_eq_true_eq, Bool.not_eq_true'] at named
    have observed : d ∈ constants := by
      rcases mem_mergeBooleans.mp inside with ⟨old, _⟩ | ⟨rfl, _⟩
      · exact mem_uniq.mp old
      · cases named.2
    rw [← named.1]
    exact .inr ⟨bare, Arity.collection (arity d observed) named.2⟩

theorem of_mem_survivors {constants : List ConstantInstance} {d : ConstantInstance} (kept : d ∈ survivors constants) :
    (d ∈ constants ∧ isBoolean d = false) ∨ d = { name := "bool" } := by
  rcases mem_mergeBooleans.mp (mem_of_mem_deleteBare kept) with ⟨old, other⟩ | ⟨bool, _⟩
  · exact .inl ⟨mem_uniq.mp old, other⟩
  · exact .inr bool

theorem constantType_nil {c : ConstantInstance} (name : c.name = "NilClass") :
    constantType env existingTypes c = .ok .nil := by
  obtain ⟨_, singleton, unions⟩ := c
  cases name
  rw [constantType, if_neg (by decide), if_pos rfl]
  rfl

theorem constantType_eq_ok {c : ConstantInstance} {t : RbsType} (notBool : c.name ≠ "bool")
    (notNil : c.name ≠ "NilClass") : constantType env existingTypes c = .ok t ↔ ∃ n, validName env c.name = .ok n ∧
      ((c.singleton = true ∧ t = .classSingleton (toTypeName n)) ∨ (c.singleton = false ∧ ∃ args,
        genericArgumentsOfClass existingTypes n (c.genericArguments.map (toRbsType env existingTypes)) = .ok args ∧
          t = .classInstance (toTypeName n) args)) := by
  obtain ⟨name, singleton, unions⟩ := c
  simp only at notBool notNil ⊢
  rw [constantType, if_neg notBool, if_neg notNil, unionTypes_eq, bind_eq_ok]
  refine exists_congr fun n => and_congr_right fun _ => ?_
  cases singleton with
  | true => simp [pure, Except.pure, eq_comm]
  | false =>
    simp only [Bool.false_eq_true, if_false, false_and, false_or, true_and]
    rw [bind_eq_ok]
    simp [pure, Except.pure, eq_comm]

theorem literal_eq_false {c : ConstantInstance} :
    c.literal = false ↔ isBoolean c = false ∧ c.name ≠ "NilClass" ∧ c.name ≠ "bool" := by
  simp [ConstantInstance.literal, and_assoc]

theorem collection_valid (capitals : env.KeepsCapitals) {c : ConstantInstance}
    (collection : c.name = "Array" ∨ c.name = "Hash") : validName env c.name = .ok c.name := by
  rcases collection with array | hash
  · rw [array]
    exact validName_capital capitals (by decide) (by simp)
  · rw [hash]
    exact validName_capital capitals (by decide) (by simp)

/-- The generic arguments are converted one by one. -/
theorem genericArguments_converted (collections : CollectionTypes existingTypes) {c : ConstantInstance}
    (arity : c.Arity) (full : c.bare = false) : genericArgumentsOfClass existingTypes c.name
      (c.genericArguments.map (toRbsType env existingTypes)) =
        (c.genericArguments.map (toRbsType env existingTypes)).mapM id := by
  obtain ⟨existing, found, params⟩ : ∃ existing, existingTypes.get? c.name = some existing ∧
      existing.classDecl.typeParams.length = c.genericArguments.length := by
    rcases arity with ⟨array, length⟩ | ⟨hash, length⟩ | none
    · rw [array, length]
      exact collections.array
    · rw [hash, length]
      exact collections.hash
    · rw [ConstantInstance.bare, none] at full
      cases full
  rw [genericArgumentsOfClass, found]
  simp only
  rw [if_pos (by rw [List.length_map, params])]

theorem constantType_returns {c : ConstantInstance} (name : ∃ n, validName env c.name = .ok n)
    (unions : ∀ u ∈ c.genericArguments, ConvertsSoundly env existingTypes u) (notBool : c.name ≠ "bool")
    (notNil : c.name ≠ "NilClass") : ∃ t, constantType env existingTypes c = .ok t := by
  obtain ⟨n, valid⟩ := name
  cases object : c.singleton with
  | true => exact ⟨_, (constantType_eq_ok notBool notNil).mpr ⟨n, valid, .inl ⟨object, rfl⟩⟩⟩
  | false =>
    have args : ∃ args, genericArgumentsOfClass existingTypes n
        (c.genericArguments.map (toRbsType env existingTypes)) = .ok args := by
      refine genericArgumentsOfClass_total n fun a member => ?_
      obtain ⟨u, inside, rfl⟩ := List.mem_map.mp member
      obtain ⟨t, run, _⟩ := unions u inside
      exact ⟨t, run⟩
    obtain ⟨args, run⟩ := args
    exact ⟨_, (constantType_eq_ok notBool notNil).mpr ⟨n, valid, .inr ⟨object, args, run, rfl⟩⟩⟩

/-- The type of a constant covers it, when those of its generic unions cover these. -/
theorem covers_constantType (capitals : env.KeepsCapitals) (collections : CollectionTypes existingTypes)
    {c : ConstantInstance} {t : RbsType} (arity : c.Arity) (other : c.literal = false)
    (unions : ∀ u ∈ c.genericArguments, ConvertsSoundly env existingTypes u)
    (run : constantType env existingTypes c = .ok t) : Covers env t c := by
  obtain ⟨_, notNil, notBool⟩ := literal_eq_false.mp other
  obtain ⟨n, valid, ⟨object, rfl⟩ | ⟨value, args, generic, rfl⟩⟩ := (constantType_eq_ok notBool notNil).mp run
  · exact .classSingleton object valid
  · cases full : c.bare with
    | true => exact .bare value valid (List.isEmpty_iff.mp full)
    | false =>
      have own := collection_valid capitals (Arity.collection arity full)
      rw [own] at valid
      cases valid
      rw [genericArguments_converted collections arity full] at generic
      have images := mapM_eq_ok.mp generic
      rw [List.forall₂_map_left_iff] at images
      refine .generic value own images.length_eq fun i u arg atU atArg d member => ?_
      have converted := List.forall₂_iff_get.mp images
      obtain ⟨inU, rfl⟩ := List.getElem?_eq_some_iff.mp atU
      obtain ⟨inArg, rfl⟩ := List.getElem?_eq_some_iff.mp atArg
      obtain ⟨t, made, covers⟩ := unions _ (List.getElem_mem inU)
      have same := converted.2 i inU inArg
      simp only [id_eq, List.get_eq_getElem] at same
      rw [made] at same
      cases same
      exact covers d member

/-- The type of a class only covers what is of its kind. -/
theorem SameKind.of_class {d c : ConstantInstance} {u : RbsType} (notBool : d.name ≠ "bool")
    (notNil : d.name ≠ "NilClass") (run : constantType env existingTypes d = .ok u) (covers : Covers env u c) :
    SameKind env d c := by
  obtain ⟨n, valid, ⟨object, rfl⟩ | ⟨value, args, _, rfl⟩⟩ := (constantType_eq_ok notBool notNil).mp run
  · generalize atName : toTypeName n = name at covers
    cases covers with
    | classSingleton object' valid' =>
      exact ⟨object.trans object'.symm, by rw [valid, valid', Except.map_ok, Except.map_ok, atName]⟩
  · generalize atName : toTypeName n = name at covers
    cases covers with
    | bare value' valid' _ =>
      exact ⟨value.trans value'.symm, by rw [valid, valid', Except.map_ok, Except.map_ok, atName]⟩
    | generic value' valid' _ _ =>
      exact ⟨value.trans value'.symm, by rw [valid, valid', Except.map_ok, Except.map_ok, atName]⟩

theorem covers_bool_iff {d c : ConstantInstance} {u : RbsType} (bool : d.name = "bool")
    (run : constantType env existingTypes d = .ok u) :
    Covers env u c ↔ c.singleton = false ∧ isBoolean c = true := by
  obtain ⟨name, singleton, unions⟩ := d
  cases bool
  rw [constantType, if_pos rfl] at run
  cases run
  rw [isBoolean, Bool.or_eq_true, decide_eq_true_eq, decide_eq_true_eq]
  constructor
  · intro covers
    cases covers with
    | bool value name => exact ⟨value, name⟩
  · rintro ⟨value, name⟩
    exact .bool value name

theorem covers_nil_iff {d c : ConstantInstance} {u : RbsType} (nil : d.name = "NilClass")
    (run : constantType env existingTypes d = .ok u) :
    Covers env u c ↔ c.singleton = false ∧ c.name = "NilClass" := by
  rw [constantType_nil nil] at run
  cases run
  constructor
  · intro covers
    cases covers with
    | nil value name => exact ⟨value, name⟩
  · rintro ⟨value, name⟩
    exact .nil value name

/-- A constant is only covered by the type of one of its kind, if it is no literal. -/
theorem SameKind.of_covers {d c : ConstantInstance} {u : RbsType} (run : constantType env existingTypes d = .ok u)
    (covers : Covers env u c) :
    c.isLiteralValue = true ∨ (d.name ≠ "bool" ∧ d.name ≠ "NilClass" ∧ SameKind env d c) := by
  by_cases bool : d.name = "bool"
  · obtain ⟨value, boolean⟩ := (covers_bool_iff bool run).mp covers
    simp [ConstantInstance.isLiteralValue, value, boolean]
  by_cases nil : d.name = "NilClass"
  · obtain ⟨value, name⟩ := (covers_nil_iff nil run).mp covers
    simp [ConstantInstance.isLiteralValue, value, name]
  · exact .inr ⟨bool, nil, .of_class bool nil run covers⟩

theorem covers_of_sameKind {d c : ConstantInstance} {u : RbsType} (notBool : d.name ≠ "bool")
    (notNil : d.name ≠ "NilClass") (run : constantType env existingTypes d = .ok u) (kind : SameKind env d c)
    (plain : c.singleton = true ∨ c.genericArguments = []) : Covers env u c := by
  obtain ⟨object, names⟩ := kind
  obtain ⟨n, valid, made⟩ := (constantType_eq_ok notBool notNil).mp run
  rw [valid, Except.map_ok] at names
  obtain ⟨m, valid', same⟩ := map_eq_ok.mp names.symm
  rcases made with ⟨singleton, rfl⟩ | ⟨value, args, _, rfl⟩
  · rw [← same]
    exact .classSingleton (object ▸ singleton) valid'
  · rw [object] at value
    rw [← same]
    rcases plain with singleton | bare
    · rw [value] at singleton
      cases singleton
    · exact .bare value valid' bare

/-- The arguments are those that the constant was observed with, or untyped. -/
theorem genericArguments_cases {n : String} {arguments : List (Except RubyError RbsType)} {args : List RbsType}
    (run : genericArgumentsOfClass existingTypes n arguments = .ok args) :
    (existingTypes.get? n = none ∧ args = []) ∨
    ((existingTypes.get? n).map (·.classDecl.typeParams.length) = some arguments.length ∧
      List.Forall₂ (fun a arg => a = .ok arg) arguments args) ∨
    ((existingTypes.get? n).map (·.classDecl.typeParams.length) = some args.length ∧
      arguments.length ≠ args.length ∧ ∀ arg ∈ args, arg = .any) := by
  unfold genericArgumentsOfClass at run
  split at run
  next missing =>
    cases run
    exact .inl ⟨missing, rfl⟩
  next existing found =>
    rw [found]
    split at run
    next same => exact .inr (.inl ⟨by rw [same]; rfl, mapM_eq_ok.mp run⟩)
    next differs =>
      cases run
      refine .inr (.inr ⟨by simp, by simpa using differs, fun arg member => ?_⟩)
      obtain ⟨_, _, rfl⟩ := List.mem_map.mp member
      rfl

/-- `bool` is there if the list has a boolean, or a constant of this name. -/
theorem exists_of_bool_survives {constants : List ConstantInstance} {d : ConstantInstance}
    (kept : d ∈ survivors constants) (bool : d.name = "bool") :
    ∃ e ∈ constants, isBoolean e = true ∨ e.name = "bool" := by
  rcases mem_mergeBooleans.mp (mem_of_mem_deleteBare kept) with ⟨old, _⟩ | ⟨_, booleans⟩
  · exact ⟨d, mem_uniq.mp old, .inr bool⟩
  · obtain ⟨e, inside, boolean⟩ := List.any_eq_true.mp booleans
    exact ⟨e, mem_uniq.mp inside, .inl boolean⟩

theorem bool_survives {constants : List ConstantInstance} {e : ConstantInstance} (member : e ∈ constants)
    (name : isBoolean e = true ∨ e.name = "bool") : ∃ d ∈ survivors constants, d.name = "bool" := by
  rcases name with boolean | bool
  · exact exists_survivor_named (mem_mergeBooleans.mpr
      (.inr ⟨rfl, List.any_eq_true.mpr ⟨e, mem_uniq.mpr member, boolean⟩⟩))
  · have notBoolean : isBoolean e = false := by simp [isBoolean, bool]
    rw [← bool]
    exact exists_survivor_named (mem_mergeBooleans.mpr (.inl ⟨mem_uniq.mpr member, notBoolean⟩))

/-- A constant that is not taken for a literal and not pruned survives. -/
theorem Unpruned.survives {constants : List ConstantInstance} {d : ConstantInstance} (unpruned : Unpruned constants d)
    (member : d ∈ constants) (other : d.literal = false) : d ∈ survivors constants := by
  obtain ⟨notBoolean, _, notBool⟩ := literal_eq_false.mp other
  exact (mem_survivors_iff_of_other notBool).mpr ⟨member, notBoolean, unpruned⟩

theorem Spans.of_covers {union : List ConstantInstance} {d c : ConstantInstance} {u : RbsType}
    (kept : d ∈ survivors union) (made : constantType env existingTypes d = .ok u)
    (members : ∀ v ∈ d.genericArguments, ∀ t, toRbsType env existingTypes v = .ok t →
      ∀ e, Covers env t e → Spans env existingTypes v e) (covers : Covers env u c) :
    Spans env existingTypes union c := by
  by_cases bool : d.name = "bool"
  · obtain ⟨value, boolean⟩ := (covers_bool_iff bool made).mp covers
    obtain ⟨e, inside, name⟩ := exists_of_bool_survives kept bool
    exact .boolean inside name value boolean
  obtain ⟨inside, notBoolean, unpruned⟩ := (mem_survivors_iff_of_other bool).mp kept
  by_cases nil : d.name = "NilClass"
  · obtain ⟨value, name⟩ := (covers_nil_iff nil made).mp covers
    exact .nil inside nil value name
  have other : d.literal = false := literal_eq_false.mpr ⟨notBoolean, nil, bool⟩
  have kind : SameKind env d c := .of_class bool nil made covers
  obtain ⟨n, valid, ⟨object, rfl⟩ | ⟨value, args, arguments, rfl⟩⟩ := (constantType_eq_ok bool nil).mp made
  · exact .plain inside other unpruned kind (.inl (kind.1 ▸ object))
  · generalize atName : toTypeName n = name at covers
    cases covers with
    | bare _ _ bare => exact .plain inside other unpruned kind (.inr bare)
    | generic value' valid' length covered =>
      rcases genericArguments_cases arguments with ⟨_, rfl⟩ | ⟨params, each⟩ | ⟨params, differs, _⟩
      · exact .plain inside other unpruned kind (.inr (List.eq_nil_of_length_eq_zero length))
      · rw [List.length_map] at params
        have sizes := each.length_eq
        rw [List.length_map] at sizes
        refine .generic inside other unpruned kind value' valid params (by omega) fun i v w atV atW e within => ?_
        rw [List.forall₂_map_left_iff] at each
        obtain ⟨inV, rfl⟩ := List.getElem?_eq_some_iff.mp atV
        have converted := (List.forall₂_iff_get.mp each).2 i inV (by omega)
        exact members _ (List.getElem_mem inV) _ converted e
          (covered i w _ atW (List.getElem?_eq_getElem (by omega)) e within)
      · rw [List.length_map] at differs
        rw [← length] at params differs
        exact .untyped inside other unpruned kind value' valid params differs

/-- The type of a value of the kind, made with the arguments that the run has. -/
theorem covers_of_arguments {d c : ConstantInstance} {u : RbsType} {n : String} (notBool : d.name ≠ "bool")
    (notNil : d.name ≠ "NilClass") (run : constantType env existingTypes d = .ok u) (kind : SameKind env d c)
    (value : c.singleton = false) (name : validName env d.name = .ok n)
    (covers : ∀ args, genericArgumentsOfClass existingTypes n
      (d.genericArguments.map (toRbsType env existingTypes)) = .ok args →
        c.genericArguments.length = args.length ∧ ∀ (i : Nat) v arg, c.genericArguments[i]? = some v →
          args[i]? = some arg → ∀ e ∈ v, Covers env arg e) : Covers env u c := by
  obtain ⟨object, names⟩ := kind
  obtain ⟨n', valid, made⟩ := (constantType_eq_ok notBool notNil).mp run
  rw [valid, Except.ok.injEq] at name
  subst name
  rw [valid, Except.map_ok] at names
  obtain ⟨m, valid', same⟩ := map_eq_ok.mp names.symm
  rcases made with ⟨singleton, _⟩ | ⟨_, args, generic, rfl⟩
  · rw [object, value] at singleton
    cases singleton
  · obtain ⟨length, members⟩ := covers args generic
    rw [← same]
    exact .generic value valid' length members

theorem Spans.covers {union : List ConstantInstance} {c : ConstantInstance} (spans : Spans env existingTypes union c)
    {t : RbsType} (run : toRbsType env existingTypes union = .ok t) : Covers env t c := by
  induction spans generalizing t with
  | @boolean union e c member name value boolean =>
    obtain ⟨d, kept, bool⟩ := bool_survives member name
    obtain ⟨u, made⟩ := unionType_each run kept
    exact (covers_unionType_iff run).mpr ⟨d, kept, u, made, (covers_bool_iff bool made).mpr ⟨value, boolean⟩⟩
  | @nil union e c member name value nil =>
    have notBoolean : isBoolean e = false := by simp [isBoolean, name]
    obtain ⟨d, kept, same⟩ := exists_survivor_named (mem_mergeBooleans.mpr (.inl ⟨mem_uniq.mpr member, notBoolean⟩))
    obtain ⟨u, made⟩ := unionType_each run kept
    exact (covers_unionType_iff run).mpr
      ⟨d, kept, u, made, (covers_nil_iff (same.trans name) made).mpr ⟨value, nil⟩⟩
  | @plain union d c member other unpruned kind plain =>
    have kept := unpruned.survives member other
    obtain ⟨_, notNil, notBool⟩ := literal_eq_false.mp other
    obtain ⟨u, made⟩ := unionType_each run kept
    exact (covers_unionType_iff run).mpr ⟨d, kept, u, made, covers_of_sameKind notBool notNil made kind plain⟩
  | @generic union d c n member other unpruned kind value name params length members ih =>
    have kept := unpruned.survives member other
    obtain ⟨_, notNil, notBool⟩ := literal_eq_false.mp other
    obtain ⟨u, made⟩ := unionType_each run kept
    refine (covers_unionType_iff run).mpr ⟨d, kept, u, made,
      covers_of_arguments notBool notNil made kind value name fun args arguments => ?_⟩
    rcases genericArguments_cases arguments with ⟨missing, _⟩ | ⟨_, each⟩ | ⟨params', differs, _⟩
    · rw [missing] at params
      cases params
    · rw [List.forall₂_map_left_iff] at each
      have sizes := each.length_eq
      refine ⟨by omega, fun i v arg atV atArg e inside => ?_⟩
      obtain ⟨inArgs, rfl⟩ := List.getElem?_eq_some_iff.mp atArg
      have converted := (List.forall₂_iff_get.mp each).2 i (by omega) inArgs
      exact ih i _ v (List.getElem?_eq_getElem (by omega)) atV e inside converted
    · rw [List.length_map] at differs
      rw [params, Option.some.injEq] at params'
      exact absurd params' differs
  | @untyped union d c n member other unpruned kind value name params differs =>
    have kept := unpruned.survives member other
    obtain ⟨_, notNil, notBool⟩ := literal_eq_false.mp other
    obtain ⟨u, made⟩ := unionType_each run kept
    refine (covers_unionType_iff run).mpr ⟨d, kept, u, made,
      covers_of_arguments notBool notNil made kind value name fun args arguments => ?_⟩
    rcases genericArguments_cases arguments with ⟨missing, _⟩ | ⟨params', _⟩ | ⟨params', _, untyped⟩
    · rw [missing] at params
      cases params
    · rw [params, Option.some.injEq, List.length_map] at params'
      exact absurd params'.symm differs
    · rw [params, Option.some.injEq] at params'
      refine ⟨params', fun i v arg _ atArg e _ => ?_⟩
      rw [untyped arg (List.mem_of_getElem? atArg)]
      exact .any

/-- The type that is made of a list covers exactly what the list stands for. -/
theorem covers_iff_spans {union : List ConstantInstance} {t : RbsType}
    (run : toRbsType env existingTypes union = .ok t) {c : ConstantInstance} :
    Covers env t c ↔ Spans env existingTypes union c := by
  refine ⟨fun covers => ?_, fun spans => spans.covers run⟩
  have each (d : ConstantInstance) : ∀ v ∈ d.genericArguments, ∀ t, toRbsType env existingTypes v = .ok t →
      ∀ e, Covers env t e → Spans env existingTypes v e := by
    induction d using ConstantInstance.union_induction with
    | step d ih =>
      intro v generic t run e covers
      obtain ⟨f, kept, u, made, covered⟩ := (covers_unionType_iff run).mp covers
      rcases of_mem_survivors kept with ⟨inside, _⟩ | rfl
      · exact .of_covers kept made (ih v generic f inside) covered
      · exact .of_covers kept made (List.forall_mem_nil _) covered
  obtain ⟨d, kept, u, made, covered⟩ := (covers_unionType_iff run).mp covers
  exact .of_covers kept made (each d) covered

/-- A list whose generic unions are converted soundly is so if it is convertible. -/
theorem Convertible.sound (capitals : env.KeepsCapitals) (collections : CollectionTypes existingTypes)
    {constants : List ConstantInstance} (nonempty : constants ≠ []) (arity : ∀ c ∈ constants, c.Arity)
    (convertible : Convertible env constants)
    (unions : ∀ c ∈ constants, ∀ u ∈ c.genericArguments, ConvertsSoundly env existingTypes u) :
    ConvertsSoundly env existingTypes constants := by
  have each : ∀ d ∈ survivors constants, ∃ u, constantType env existingTypes d = .ok u := by
    intro d kept
    rcases of_mem_survivors kept with ⟨inside, other⟩ | rfl
    · by_cases bool : d.name = "bool"
      · obtain ⟨name, singleton, generics⟩ := d
        cases bool
        exact ⟨.bool, by rw [constantType, if_pos rfl]; rfl⟩
      · by_cases nil : d.name = "NilClass"
        · exact ⟨.nil, constantType_nil nil⟩
        · have name := convertible.names d inside (literal_eq_false.mpr ⟨other, nil, bool⟩)
          exact constantType_returns name (unions d inside) bool nil
    · exact ⟨.bool, constantType_bool⟩
  obtain ⟨t, run⟩ := (unionType_returns_iff nonempty).mpr each
  refine ⟨t, run, fun c member => (covers_unionType_iff run).mpr ?_⟩
  have merged (other : isBoolean c = false) : c ∈ mergeBooleans (uniq constants) :=
    mem_mergeBooleans.mpr (.inl ⟨mem_uniq.mpr member, other⟩)
  rcases convertible.kinds c member with literal | ⟨d, inside, other, unpruned, kind⟩
  · simp only [ConstantInstance.isLiteralValue, Bool.and_eq_true, Bool.not_eq_true'] at literal
    obtain ⟨value, name⟩ := literal
    cases boolean : isBoolean c with
    | true =>
      have bool : { name := "bool" } ∈ mergeBooleans (uniq constants) :=
        mem_mergeBooleans.mpr (.inr ⟨rfl, List.any_eq_true.mpr ⟨c, mem_uniq.mpr member, boolean⟩⟩)
      rcases mem_survivors arity bool with kept | ⟨_, collection⟩
      · exact ⟨_, kept, .bool, constantType_bool, .bool value (by simpa [isBoolean] using boolean)⟩
      · exact absurd collection (by decide)
    | false =>
      have nil : c.name = "NilClass" := by simpa [boolean] using name
      rcases mem_survivors arity (merged boolean) with kept | ⟨_, collection⟩
      · exact ⟨c, kept, .nil, constantType_nil nil, .nil value nil⟩
      · rw [nil] at collection
        exact absurd collection (by decide)
  · have kept := unpruned.survives inside other
    cases full : c.bare with
    | true =>
      obtain ⟨u, made⟩ := each d kept
      obtain ⟨_, notNil, notBool⟩ := literal_eq_false.mp other
      exact ⟨d, kept, u, made, covers_of_sameKind notBool notNil made kind (.inr (List.isEmpty_iff.mp full))⟩
    | false =>
      -- with generic arguments `c` is an array or a hash, and such a one is never pruned
      have collection := Arity.collection (arity c member) full
      have own : c.literal = false := by
        rcases collection with name | name <;> simp [ConstantInstance.literal, isBoolean, name]
      rcases mem_survivors arity (merged (literal_eq_false.mp own).1) with kept | ⟨bare, _⟩
      · obtain ⟨u, made⟩ := each c kept
        exact ⟨c, kept, u, made, covers_constantType capitals collections (arity c member) own (unions c member) made⟩
      · rw [full] at bare
        cases bare

theorem Convertible.of_sound (capitals : env.KeepsCapitals) {constants : List ConstantInstance}
    (nonempty : constants ≠ []) (arity : ∀ c ∈ constants, c.Arity)
    (sound : ConvertsSoundly env existingTypes constants) : Convertible env constants := by
  obtain ⟨t, run, covers⟩ := sound
  have each := (unionType_returns_iff nonempty).mp ⟨t, run⟩
  refine ⟨fun c member other => ?_, fun c member => ?_⟩
  · obtain ⟨notBoolean, notNil, notBool⟩ := literal_eq_false.mp other
    rcases mem_survivors arity (mem_mergeBooleans.mpr (.inl ⟨mem_uniq.mpr member, notBoolean⟩)) with
      kept | ⟨_, collection⟩
    · obtain ⟨u, made⟩ := each c kept
      obtain ⟨n, valid, _⟩ := (constantType_eq_ok notBool notNil).mp made
      exact ⟨n, valid⟩
    · exact ⟨c.name, collection_valid capitals collection⟩
  · obtain ⟨d, kept, u, made, covered⟩ := (covers_unionType_iff run).mp (covers c member)
    rcases SameKind.of_covers made covered with literal | ⟨notBool, notNil, kind⟩
    · exact .inl literal
    · obtain ⟨inside, notBoolean, unpruned⟩ := (mem_survivors_iff_of_other notBool).mp kept
      exact .inr ⟨d, inside, literal_eq_false.mpr ⟨notBoolean, notNil, notBool⟩, unpruned, kind⟩

/-- Where there are no class objects, the pruning leaves an instance of each class. -/
theorem Convertible.of_values {constants : List ConstantInstance}
    (values : ∀ c ∈ constants, c.singleton = false ∧ c.literal = false ∧ ∃ n, validName env c.name = .ok n) :
    Convertible env constants := by
  refine ⟨fun c member _ => (values c member).2.2, fun c member => .inr ?_⟩
  obtain ⟨value, other, _⟩ := values c member
  have merged : c ∈ mergeBooleans (uniq constants) :=
    mem_mergeBooleans.mpr (.inl ⟨mem_uniq.mpr member, (literal_eq_false.mp other).1⟩)
  obtain ⟨d, kept, name⟩ := exists_survivor_named merged
  have notBool : d.name ≠ "bool" := by
    rw [name]
    exact (literal_eq_false.mp other).2.2
  obtain ⟨inside, _, unpruned⟩ := (mem_survivors_iff_of_other notBool).mp kept
  obtain ⟨value', other', _⟩ := values d inside
  exact ⟨d, inside, other', unpruned, value'.trans value.symm, by rw [name]⟩

theorem UnionIn.trans {constants union inner : List ConstantInstance} (outer : UnionIn constants union)
    (within : UnionIn union inner) : UnionIn constants inner := by
  induction within with
  | self => exact outer
  | nested _ member generic ih => exact .nested ih member generic

/-- The types of a list and of all generic unions in it cover what they are made of exactly
if all of these are convertible. -/
theorem toRbsType_sound_iff (capitals : env.KeepsCapitals) (collections : CollectionTypes existingTypes)
    {constants : List ConstantInstance} (observed : Observed constants) :
    (∀ union, UnionIn constants union → ConvertsSoundly env existingTypes union) ↔
      ∀ union, UnionIn constants union → Convertible env union := by
  constructor
  · intro sound union within
    exact .of_sound capitals (observed union within).1 (observed union within).2 (sound union within)
  · intro convertible union within
    have deeper (c : ConstantInstance) : (∀ u ∈ c.genericArguments, UnionIn constants u) →
        ∀ u ∈ c.genericArguments, ConvertsSoundly env existingTypes u := by
      induction c using ConstantInstance.union_induction with
      | step c ih =>
        intro inside u generic
        have own := inside u generic
        exact (convertible u own).sound capitals collections (observed u own).1 (observed u own).2 fun d member =>
          ih u generic d member fun v generic' => .nested own member generic'
    exact (convertible union within).sound capitals collections (observed union within).1 (observed union within).2
      fun c member => deeper c fun u generic => .nested within member generic

end

/-- Unions that contain all generic unions of their members contain every union of the list. -/
theorem UnionIn.mem {constants union : List ConstantInstance} {unions : List (List ConstantInstance)}
    (start : constants ∈ unions) (closed : ∀ u ∈ unions, ∀ c ∈ u, ∀ v ∈ c.genericArguments, v ∈ unions)
    (within : UnionIn constants union) : union ∈ unions := by
  induction within with
  | self => exact start
  | nested _ member generic ih => exact closed _ ih _ member _ generic

instance : DecidablePred ConstantInstance.Arity :=
  fun c => inferInstanceAs (Decidable ((c.name = "Array" ∧ _) ∨ (c.name = "Hash" ∧ _) ∨ c.genericArguments = []))

instance (env : Environment) (d c : ConstantInstance) : Decidable (SameKind env d c) :=
  inferInstanceAs (Decidable (_ ∧ _))

theorem collections_exist : CollectionTypes collections :=
  ⟨⟨⟨{ typeParams := ["Elem"] }, toTypeName "Array"⟩, rfl, rfl⟩,
    ⟨⟨{ typeParams := ["K", "V"] }, toTypeName "Hash"⟩, rfl, rfl⟩⟩

theorem ofDecls_keepsCapitals (classDecls : TypeName → Option ClassDecl) :
    (Environment.ofDecls classDecls).KeepsCapitals := by
  intro c capital
  have upper : c.toUpper = c := by
    rcases toUpper_cases c with _ | ⟨_, same⟩
    · refine dif_neg fun lower => ?_
      have range : 65 ≤ c.val ∧ c.val ≤ 90 := of_decide_eq_true capital
      have low : 97 ≤ c.val.toNat := lower.1
      have high : c.val.toNat ≤ 90 := range.2
      omega
    · exact same
  simp [Environment.ofDecls, Char.toString, upper]

/-- `[true, nil, String, [], [{ 1 => "a" }, nil]]` -/
def values : List ConstantInstance :=
  [{ name := "TrueClass" }, { name := "NilClass" }, { name := "String", singleton := true }, { name := "Array" },
    { name := "Array", genericArguments :=
      [[{ name := "Hash", genericArguments := [[{ name := "Integer" }], [{ name := "String" }]] },
        { name := "NilClass" }]] }]

/-- The unions in it. -/
def unionsOfValues : List (List ConstantInstance) :=
  values :: values.flatMap (·.genericArguments) ++ [[{ name := "Integer" }], [{ name := "String" }]]

theorem values_covered : ConvertsSoundly (.ofDecls fun _ => none) collections values := by
  have inside {union : List ConstantInstance} (within : UnionIn values union) : union ∈ unionsOfValues :=
    within.mem (by decide) (by decide +kernel)
  have shapes : ∀ union ∈ unionsOfValues, union ≠ [] ∧ ∀ c ∈ union, c.Arity := by decide +kernel
  have names : ∀ union ∈ unionsOfValues, ∀ c ∈ union, validName (.ofDecls fun _ => none) c.name = .ok c.name := by
    decide +kernel
  have kinds : ∀ union ∈ unionsOfValues, ∀ c ∈ union, c.isLiteralValue = true ∨
      ∃ d ∈ union, d.literal = false ∧ Unpruned union d ∧ SameKind (.ofDecls fun _ => none) d c := by decide +kernel
  have observed : Observed values := fun union within => shapes union (inside within)
  refine (toRbsType_sound_iff (ofDecls_keepsCapitals _) collections_exist observed).mpr
    (fun union within => ⟨fun c member _ => ⟨c.name, ?_⟩, kinds union (inside within)⟩) values .self
  exact names union (inside within) c member

/-- `TrueClass` -/
def trueClass : ConstantInstance := { name := "TrueClass", singleton := true }

/-- `Array` -/
def arrayClass : ConstantInstance := { name := "Array", singleton := true }

/-- A class object is taken for a boolean, and another one is dropped for an array of integers. -/
theorem class_objects_not_covered :
    (∃ t, toRbsType (.ofDecls fun _ => none) collections [trueClass] = .ok t ∧
      ¬ Covers (.ofDecls fun _ => none) t trueClass) ∧
    ∃ t, toRbsType (.ofDecls fun _ => none) collections
        [arrayClass, { name := "Array", genericArguments := [[{ name := "Integer" }]] }] = .ok t ∧
      ¬ Covers (.ofDecls fun _ => none) t arrayClass := by
  have uncovered {constants : List ConstantInstance} {c : ConstantInstance}
      (returns : (toRbsType (.ofDecls fun _ => none) collections constants).toOption.isSome = true)
      (other : c.isLiteralValue = false)
      (kinds : ∀ d ∈ survivors constants, d.name = "bool" ∨ d.singleton ≠ c.singleton) :
      ∃ t, toRbsType (.ofDecls fun _ => none) collections constants = .ok t ∧
        ¬ Covers (.ofDecls fun _ => none) t c := by
    obtain ⟨t, run⟩ := exists_of_isSome returns
    refine ⟨t, run, fun covers => ?_⟩
    obtain ⟨d, kept, u, made, covered⟩ := (covers_unionType_iff run).mp covers
    rcases SameKind.of_covers made covered with literal | ⟨notBool, _, object, _⟩
    · rw [other] at literal
      cases literal
    · exact (kinds d kept).elim notBool fun differs => differs object
  exact ⟨uncovered (by decide +kernel) (by decide) (by decide), uncovered (by decide +kernel) (by decide) (by decide)⟩

end Racer
