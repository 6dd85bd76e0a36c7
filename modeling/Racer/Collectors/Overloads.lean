import Racer.Collectors.Unions

namespace Racer
open Outcome

/-! `to_method_definition` on the same traces in another order. -/

structure FunctionParam.Same (p p' : FunctionParam) : Prop where
  name : p.name = p'.name
  type : p.type.same p'.type

/-- Hashes with the same keys in the same order. -/
def SameKeywords (keywords keywords' : OrderedHash (Option String) FunctionParam) : Prop :=
  List.Forall₂ (fun a b => a.1 = b.1 ∧ a.2.Same b.2) keywords.entries keywords'.entries

structure FunctionParameters.Same (p p' : FunctionParameters) : Prop where
  requiredPositionals : List.Forall₂ FunctionParam.Same p.requiredPositionals p'.requiredPositionals
  optionalPositionals : List.Forall₂ FunctionParam.Same p.optionalPositionals p'.optionalPositionals
  trailingPositionals : List.Forall₂ FunctionParam.Same p.trailingPositionals p'.trailingPositionals
  restPositionals : Option.Rel FunctionParam.Same p.restPositionals p'.restPositionals
  requiredKeywords : SameKeywords p.requiredKeywords p'.requiredKeywords
  optionalKeywords : SameKeywords p.optionalKeywords p'.optionalKeywords
  restKeywords : Option.Rel FunctionParam.Same p.restKeywords p'.restKeywords

inductive BlockFunction.Same : BlockFunction → BlockFunction → Prop
  | untyped : Same .untyped .untyped
  | function {p p' t t'} : FunctionParameters.Same p p' → RbsType.same t t' → Same (.function p t) (.function p' t')

structure Block.Same (b b' : Block) : Prop where
  type : b.type.Same b'.type
  selfType : Option.Rel (fun t t' => RbsType.same t t') b.selfType b'.selfType
  required : b.required = b'.required

structure Overload.Same (o o' : Overload) : Prop where
  parameters : o.parameters.Same o'.parameters
  returnType : o.returnType.same o'.returnType
  block : Option.Rel Block.Same o.block o'.block

/-- Methods with the same overloads as a set; the visibility is left aside. -/
structure MethodDefinition.Same (d d' : MethodDefinition) : Prop where
  name : d.name = d'.name
  kind : d.kind = d'.kind
  overloads : SameMembers Overload.Same d.overloads d'.overloads
  overloading : d.overloading = d'.overloading

/-- The loop of `to_rbs_type` does not depend on the order of these constants. -/
def OrderFree (constants : List ConstantInstance) : Prop :=
  Prunable (mergeBooleans (uniq constants))

instance (constants : List ConstantInstance) : Decidable (OrderFree constants) :=
  inferInstanceAs (Decidable (Prunable _))

/-- Unions of which `to_rbs_type` makes the same type. -/
def SameUnion (union union' : List ConstantInstance) : Prop :=
  union = union' ∨ (∀ c, c ∈ union ↔ c ∈ union') ∧ OrderFree union

def ParamType.isRest : ParamType → Bool
  | .REST | .KEYWORD_REST => true
  | _ => false

def SameSize (traces : List Trace.BlockTrace) : Prop :=
  ∀ x ∈ traces, ∀ y ∈ traces, x.params.length = y.params.length

/-- The block traces that come first in one of the traces. -/
def firstBlockTraces (blockParams : List (Trace.BlockParam Trace.BlockTrace)) : List Trace.BlockTrace :=
  blockParams.filterMap (·.traces.head?)

/-- The block traces of an overload, unless they differ in the number of their
parameters, agree on the type of a rest parameter, and no other type depends on their order. -/
structure BlocksAgree (blockParams : List (Trace.BlockParam Trace.BlockTrace)) : Prop where
  rest : SameSize (blockParams.flatMap (·.traces)) → ∀ x ∈ firstBlockTraces blockParams,
    ∀ y ∈ firstBlockTraces blockParams, ∀ (n : Nat) p q, x.params[n]? = some p → y.params[n]? = some q →
      p.type.isRest → List.Forall₂ SameUnion p.typeName.genericArguments q.typeName.genericArguments
  types : SameSize (blockParams.flatMap (·.traces)) → ∀ x ∈ firstBlockTraces blockParams, ∀ (n : Nat) p,
    x.params[n]? = some p → p.type.isRest = false →
      OrderFree ((blockParams.flatMap (·.traces)).filterMap fun x => x.params[n]?.map (·.typeName))
  returns : OrderFree ((blockParams.flatMap (·.traces)).map (·.returnType))
  selves : OrderFree ((blockParams.flatMap (·.traces)).filterMap (·.selfType))

theorem BlocksAgree.nil : BlocksAgree [] :=
  ⟨fun _ => nofun, fun _ => nofun, by decide, by decide⟩

/-- The traces of an overload agree on what is read from one of them. -/
structure OverloadAgrees (name : String) (traces : List Trace) : Prop where
  returns : name ≠ "initialize" → OrderFree (traces.map (·.returnType))
  blocks : BlocksAgree (traces.filterMap (·.blockParam))

theorem OrderFree.of_mem_iff {constants constants' : List ConstantInstance}
    (same : ∀ c, c ∈ constants ↔ c ∈ constants') (free : OrderFree constants) : OrderFree constants' :=
  Prunable.perm (mergeBooleans_perm (uniq_perm same)) free

section
variable {blockParams blockParams' : List (Trace.BlockParam Trace.BlockTrace)}
  (same : ∀ b, b ∈ blockParams ↔ b ∈ blockParams')
include same

theorem mem_blockTraces (x : Trace.BlockTrace) :
    x ∈ blockParams.flatMap (·.traces) ↔ x ∈ blockParams'.flatMap (·.traces) := by
  simp only [List.mem_flatMap, same]

theorem BlocksAgree.of_mem_iff (agree : BlocksAgree blockParams) : BlocksAgree blockParams' := by
  have traces := mem_blockTraces same
  have size (sizes : SameSize (blockParams'.flatMap (·.traces))) : SameSize (blockParams.flatMap (·.traces)) :=
    fun x inX y inY => sizes x ((traces x).mp inX) y ((traces y).mp inY)
  have first (x) : x ∈ firstBlockTraces blockParams ↔ x ∈ firstBlockTraces blockParams' := by
    simp only [firstBlockTraces, List.mem_filterMap, same]
  refine ⟨fun sizes x inX y inY => ?_, fun sizes x inX n p atN kind => ?_, ?_, ?_⟩
  · exact agree.rest (size sizes) x ((first x).mpr inX) y ((first y).mpr inY)
  · refine (agree.types (size sizes) x ((first x).mpr inX) n p atN kind).of_mem_iff fun c => ?_
    simp only [List.mem_filterMap, traces]
  · refine agree.returns.of_mem_iff fun c => ?_
    simp only [List.mem_map, traces]
  · refine agree.selves.of_mem_iff fun c => ?_
    simp only [List.mem_filterMap, traces]

end

def Trace.SameSignature (t t' : Trace) : Prop :=
  t.signature = t'.signature

section
variable {traces traces' : List Trace} (same : SameMembers Trace.SameSignature traces traces')
include same

theorem sameReturnTypes : SameMembers Eq (traces.map (·.returnType)) (traces'.map (·.returnType)) :=
  same.map fun _ _ equal => congrArg (·.2.1) equal

theorem sameBlockParams : SameMembers Eq (traces.filterMap (·.blockParam)) (traces'.filterMap (·.blockParam)) := by
  refine same.filterMap fun t t' equal => ?_
  have block : t.blockParam = t'.blockParam := congrArg (·.2.2) equal
  rw [block]
  cases t'.blockParam with
  | none => exact .none
  | some b => exact .some rfl

theorem OverloadAgrees.of_same {name : String} (agrees : OverloadAgrees name traces) : OverloadAgrees name traces' :=
  ⟨fun other => (agrees.returns other).of_mem_iff (sameReturnTypes same).mem_iff,
    agrees.blocks.of_mem_iff (sameBlockParams same).mem_iff⟩

end

/-- Traces of one method, filed under `ownerName`, with the same signatures, which agree
on what is read from one of them if the method is not defined already. -/
structure SameMethod (env : Environment) (existingTypes : OrderedHash String ExistingType) (ownerName : String)
    (kind : MethodKind) (name : String) (traces traces' : List Trace) : Prop where
  signatures : SameMembers Trace.SameSignature traces traces'
  owned : ∀ t ∈ traces ++ traces', t.owner.name = ownerName
  defined : ∀ t ∈ traces ++ traces', ∀ u ∈ traces ++ traces',
    methodDefined env existingTypes name kind t.methodOwner.name =
      methodDefined env existingTypes name kind u.methodOwner.name
  overloads : ∀ t ∈ traces, methodDefined env existingTypes name kind t.methodOwner.name = false →
    OverloadAgrees name (traces.filter fun u => u.overloadKey = t.overloadKey)

/-- No generic union is empty, and all names are valid. -/
inductive ConstantInstance.Sound (env : Environment) : ConstantInstance → Prop
  | mk {i : ConstantInstance} (name : ∃ n, validName env i.name = .ok n) (nonempty : ∀ u ∈ i.genericArguments, u ≠ [])
      (members : ∀ u ∈ i.genericArguments, ∀ j ∈ u, Sound env j) : Sound env i

structure Trace.BlockTrace.Sound (env : Environment) (t : Trace.BlockTrace) : Prop where
  params : ∀ p ∈ t.params, p.typeName.Sound env
  returnType : t.returnType.Sound env
  selfType : ∀ i ∈ t.selfType, i.Sound env

structure Trace.Sound (env : Environment) (t : Trace) : Prop where
  params : ∀ p ∈ t.params, p.typeName.Sound env
  returnType : t.returnType.Sound env
  block : ∀ b ∈ t.blockParam, ∀ x ∈ b.traces, x.Sound env

section
variable {env : Environment} {existingTypes : OrderedHash String ExistingType}

theorem genericArgumentsOfClass_total (name : String) {arguments : List (Except RubyError RbsType)}
    (each : ∀ a ∈ arguments, ∃ t, a = .ok t) :
    ∃ args, genericArgumentsOfClass existingTypes name arguments = .ok args := by
  unfold genericArgumentsOfClass
  split
  · exact ⟨[], rfl⟩
  · split
    · exact mapM_total each
    · exact ⟨_, rfl⟩

theorem constantType_total {i : ConstantInstance} (sound : i.Sound env) :
    ∃ t, constantType env existingTypes i = .ok t := by
  induction sound with
  | @mk i valid nonempty _ ih =>
    obtain ⟨name, singleton, unions⟩ := i
    obtain ⟨n, valid⟩ := valid
    have arguments : ∀ a ∈ unionTypes env existingTypes unions, ∃ t, a = .ok t := by
      intro a member
      rw [unionTypes_eq] at member
      obtain ⟨u, inside, rfl⟩ := List.mem_map.mp member
      exact unionType_total (nonempty u inside) (ih u inside) ⟨_, constantType_bool⟩
    obtain ⟨args, generic⟩ := genericArgumentsOfClass_total n arguments
    simp only at valid
    rw [constantType]
    split
    · exact ⟨_, rfl⟩
    · split
      · exact ⟨_, rfl⟩
      · rw [valid]
        cases singleton with
        | true => exact ⟨_, rfl⟩
        | false => exact ⟨_, bind_eq_ok.mpr ⟨n, rfl, bind_eq_ok.mpr ⟨args, generic, rfl⟩⟩⟩

theorem toRbsType_total {constants : List ConstantInstance} (nonempty : constants ≠ [])
    (sound : ∀ c ∈ constants, c.Sound env) : ∃ t, toRbsType env existingTypes constants = .ok t :=
  unionType_total nonempty (fun c member => constantType_total (sound c member)) ⟨_, constantType_bool⟩

theorem toRbsType_same {constants constants' : List ConstantInstance} (same : ∀ c, c ∈ constants ↔ c ∈ constants')
    (free : OrderFree constants) {t t' : RbsType} (run : toRbsType env existingTypes constants = .ok t)
    (run' : toRbsType env existingTypes constants' = .ok t') : t.same t' :=
  unionType_same same free run run'

theorem parameterType_total {types : List ConstantInstance} (nonempty : types ≠ [])
    (sound : ∀ c ∈ types, c.Sound env) (type : ParamType) :
    ∃ t, parameterType env existingTypes type types = .ok t := by
  obtain ⟨first, rest, rfl⟩ := List.exists_cons_of_ne_nil nonempty
  have plain : ∃ t, toRbsType env existingTypes (first :: rest) = .ok t := toRbsType_total nonempty sound
  have generic : ∀ u ∈ first.genericArguments, ∃ t, toRbsType env existingTypes u = .ok t := by
    obtain ⟨_, full, members⟩ := sound first List.mem_cons_self
    exact fun u member => toRbsType_total (full u member) (members u member)
  unfold parameterType
  simp only [List.head?_cons, Option.map_some, Option.getD_some]
  cases type with
  | REST =>
    simp only
    split
    next union single => exact generic union (by simp [single])
    next => exact ⟨_, rfl⟩
  | KEYWORD_REST =>
    simp only
    split
    next union pair => exact generic union (by simp [pair])
    next => exact ⟨_, rfl⟩
  | _ => exact plain

theorem toRbsType_sameUnion {union union' : List ConstantInstance} (same : SameUnion union union') {t t' : RbsType}
    (run : toRbsType env existingTypes union = .ok t) (run' : toRbsType env existingTypes union' = .ok t') :
    t.same t' := by
  rcases same with rfl | ⟨members, free⟩
  · rw [run] at run'
    cases run'
    exact t.same_refl
  · exact toRbsType_same members free run run'

/-- The rest types come from the first constant only, so this must be the same. -/
theorem parameterType_same {types types' : List ConstantInstance} (same : ∀ c, c ∈ types ↔ c ∈ types')
    {type : ParamType} (free : type.isRest = false → OrderFree types)
    (rest : type.isRest → List.Forall₂ SameUnion ((types.head?.map (·.genericArguments)).getD [])
      ((types'.head?.map (·.genericArguments)).getD [])) {t t' : RbsType}
    (run : parameterType env existingTypes type types = .ok t)
    (run' : parameterType env existingTypes type types' = .ok t') : t.same t' := by
  unfold parameterType at run run'
  cases type with
  | REST =>
    have heads := rest rfl
    simp only at run run'
    generalize (types.head?.map (·.genericArguments)).getD [] = unions at run heads
    generalize (types'.head?.map (·.genericArguments)).getD [] = unions' at run' heads
    rcases heads with _ | ⟨first, _ | ⟨second, later⟩⟩
    · cases run
      cases run'
      exact RbsType.same_refl _
    · exact toRbsType_sameUnion first run run'
    · cases run
      cases run'
      exact RbsType.same_refl _
  | KEYWORD_REST =>
    have heads := rest rfl
    simp only at run run'
    generalize (types.head?.map (·.genericArguments)).getD [] = unions at run heads
    generalize (types'.head?.map (·.genericArguments)).getD [] = unions' at run' heads
    rcases heads with _ | ⟨first, _ | ⟨second, _ | ⟨third, later⟩⟩⟩
    · cases run
      cases run'
      exact RbsType.same_refl _
    · cases run
      cases run'
      exact RbsType.same_refl _
    · exact toRbsType_sameUnion second run run'
    · cases run
      cases run'
      exact RbsType.same_refl _
  | _ => exact toRbsType_same same (free rfl) run run'

end

theorem FunctionParam.Same.refl (p : FunctionParam) : p.Same p :=
  ⟨rfl, p.type.same_refl⟩

theorem FunctionParameters.Same.refl (p : FunctionParameters) : p.Same p := by
  have list (ps : List FunctionParam) : List.Forall₂ FunctionParam.Same ps ps :=
    List.forall₂_same.mpr fun q _ => .refl q
  have keywords (ks : OrderedHash (Option String) FunctionParam) : SameKeywords ks ks :=
    List.forall₂_same.mpr fun q _ => ⟨rfl, .refl q.2⟩
  have rest (r : Option FunctionParam) : Option.Rel FunctionParam.Same r r := by
    cases r with
    | none => exact .none
    | some q => exact .some (.refl q)
  exact ⟨list _, list _, list _, rest _, keywords _, keywords _, rest _⟩

theorem MethodDefinition.Same.refl (d : MethodDefinition) : d.Same d := by
  have types (t : Option RbsType) : Option.Rel (fun t t' => RbsType.same t t') t t := by
    cases t with
    | none => exact .none
    | some t => exact .some t.same_refl
  have function (type : BlockFunction) : type.Same type := by
    cases type with
    | untyped => exact .untyped
    | function p t => exact .function (.refl p) t.same_refl
  have block (b : Option Block) : Option.Rel Block.Same b b := by
    cases b with
    | none => exact .none
    | some b => exact .some ⟨function b.type, types b.selfType, rfl⟩
  have overload (o : Overload) : o.Same o := ⟨.refl o.parameters, o.returnType.same_refl, block o.block⟩
  exact ⟨rfl, rfl, .of_mem_iff (fun o _ => overload o) fun _ => Iff.rfl, rfl⟩

theorem FunctionParameters.Same.add {p p' : FunctionParameters} (params : p.Same p') {param param' : Trace.Param}
    (name : param.name = param'.name) (type : param.type = param'.type) {t t' : RbsType} (types : t.same t') :
    (p.add param t).Same (p'.add param' t') := by
  have optional : p.restPositionals.isSome = p'.restPositionals.isSome := by
    have rest := params.restPositionals
    cases left : p.restPositionals <;> cases right : p'.restPositionals <;> rw [left, right] at rest <;>
      first | rfl | cases rest
  obtain ⟨required, optionals, trailing, rest, requiredKeywords, optionalKeywords, restKeywords⟩ := params
  unfold FunctionParameters.add
  rw [name, type, optional]
  have snoc {ps ps' : List FunctionParam} (related : List.Forall₂ FunctionParam.Same ps ps') :
      List.Forall₂ FunctionParam.Same (ps ++ [{ type := t, name := param'.name }])
        (ps' ++ [{ type := t', name := param'.name }]) :=
    List.rel_append related (.cons ⟨rfl, types⟩ .nil)
  cases param'.type with
  | REQUIRED =>
    simp only
    split
    · exact ⟨required, optionals, snoc trailing, rest, requiredKeywords, optionalKeywords, restKeywords⟩
    · exact ⟨snoc required, optionals, trailing, rest, requiredKeywords, optionalKeywords, restKeywords⟩
  | OPTIONAL => exact ⟨required, snoc optionals, trailing, rest, requiredKeywords, optionalKeywords, restKeywords⟩
  | REST =>
    exact ⟨required, optionals, trailing, .some ⟨rfl, types⟩, requiredKeywords, optionalKeywords, restKeywords⟩
  | KEYWORD_REQUIRED =>
    exact ⟨required, optionals, trailing, rest, OrderedHash.storeIn_related requiredKeywords _ ⟨rfl, types⟩,
      optionalKeywords, restKeywords⟩
  | KEYWORD_OPTIONAL =>
    exact ⟨required, optionals, trailing, rest, requiredKeywords,
      OrderedHash.storeIn_related optionalKeywords _ ⟨rfl, types⟩, restKeywords⟩
  | KEYWORD_REST =>
    exact ⟨required, optionals, trailing, rest, requiredKeywords, optionalKeywords, .some ⟨rfl, types⟩⟩

section
variable {env : Environment} {existingTypes : OrderedHash String ExistingType}

theorem methodParameters_total {paramSets : List (List Trace.Param)} (nonempty : paramSets ≠ [])
    (sound : ∀ set ∈ paramSets, ∀ p ∈ set, p.typeName.Sound env) :
    ∃ p, methodParameters env existingTypes paramSets = .ok p := by
  obtain ⟨first, rest, rfl⟩ := List.exists_cons_of_ne_nil nonempty
  unfold methodParameters
  simp only
  split
  · exact ⟨_, rfl⟩
  · refine foldlM_total ?_ _
    rintro parameters ⟨param, n⟩ member
    have atN : first[n]? = some param := List.mem_zipIdx_iff_getElem?.mp member
    have nonempty : ((first :: rest).filterMap fun set => set[n]?.map (·.typeName)) ≠ [] := by simp [atN]
    have each : ∀ c ∈ (first :: rest).filterMap fun set => set[n]?.map (·.typeName), c.Sound env := by
      intro c inside
      obtain ⟨set, there, found⟩ := List.mem_filterMap.mp inside
      obtain ⟨p, atP, rfl⟩ := Option.map_eq_some_iff.mp found
      exact sound set there p (List.mem_of_getElem? atP)
    obtain ⟨t, made⟩ := parameterType_total nonempty each param.type
    exact ⟨_, map_eq_ok.mpr ⟨t, made, rfl⟩⟩

/-- Whether the sets differ in size does not depend on which of them comes first. -/
theorem differ_in_size {traces traces' : List Trace.BlockTrace} (same : ∀ x, x ∈ traces ↔ x ∈ traces')
    {x y : Trace.BlockTrace} (inX : x ∈ traces)
    (differ : (traces.map (·.params)).any (·.length ≠ x.params.length) = true) :
    (traces'.map (·.params)).any (·.length ≠ y.params.length) = true := by
  simp only [List.any_map, List.any_eq_true, Function.comp, decide_eq_true_eq] at differ ⊢
  obtain ⟨u, inU, other⟩ := differ
  by_contra equal
  push Not at equal
  exact other ((equal u ((same u).mp inU)).trans (equal x ((same x).mp inX)).symm)

theorem zipIdx_related {xs ys : List Trace.Param}
    (shapes : xs.map (fun p => (p.name, p.type)) = ys.map fun p => (p.name, p.type)) (k : Nat) :
    List.Forall₂ (fun a b => a.2 = b.2 ∧ a.1.name = b.1.name ∧ a.1.type = b.1.type) (xs.zipIdx k) (ys.zipIdx k) := by
  induction xs generalizing ys k with
  | nil =>
    rw [List.map_eq_nil_iff.mp shapes.symm]
    exact .nil
  | cons x xs ih =>
    rcases ys with _ | ⟨y, ys⟩
    · cases shapes
    · rw [List.map_cons, List.map_cons, List.cons.injEq, Prod.mk.injEq] at shapes
      exact .cons ⟨rfl, shapes.1.1, shapes.1.2⟩ (ih shapes.2 (k + 1))

theorem head?_types {x : Trace.BlockTrace} {n : Nat} {param : Trace.Param} (atN : x.params[n]? = some param)
    (traces : List Trace.BlockTrace) :
    (((x :: traces).map (·.params)).filterMap fun set => set[n]?.map (·.typeName)).head? = some param.typeName := by
  simp [atN]

/-- The parameter types of the block traces, position by position. -/
theorem methodParameters_same {traces traces' : List Trace.BlockTrace} (same : ∀ x, x ∈ traces ↔ x ∈ traces')
    (shapes : ∀ x ∈ traces.head?, ∀ y ∈ traces'.head?,
      x.params.map (fun p => (p.name, p.type)) = y.params.map fun p => (p.name, p.type))
    (rest : SameSize traces → ∀ x ∈ traces.head?, ∀ y ∈ traces'.head?, ∀ (n : Nat) p q, x.params[n]? = some p →
      y.params[n]? = some q → p.type.isRest →
        List.Forall₂ SameUnion p.typeName.genericArguments q.typeName.genericArguments)
    (types : SameSize traces → ∀ x ∈ traces.head?, ∀ (n : Nat) p, x.params[n]? = some p → p.type.isRest = false →
      OrderFree (traces.filterMap fun x => x.params[n]?.map (·.typeName))) {p p' : FunctionParameters}
    (run : methodParameters env existingTypes (traces.map (·.params)) = .ok p)
    (run' : methodParameters env existingTypes (traces'.map (·.params)) = .ok p') : p.Same p' := by
  rcases traces with _ | ⟨x, traces⟩
  · cases run
  rcases traces' with _ | ⟨y, traces'⟩
  · cases run'
  have inX : x ∈ x :: traces := List.mem_cons_self
  unfold methodParameters at run run'
  simp only [List.map_cons] at run run'
  rw [← List.map_cons] at run run'
  split at run
  next differ =>
    rw [if_pos (differ_in_size same inX differ)] at run'
    cases run
    cases run'
    exact .refl {}
  next equal =>
    have equal' : ¬ ((y :: traces').map (·.params)).any (·.length ≠ y.params.length) = true := fun differ =>
      equal (differ_in_size (fun u => (same u).symm) List.mem_cons_self differ)
    rw [if_neg equal'] at run'
    have lengths : ∀ u ∈ x :: traces, u.params.length = x.params.length := by
      simpa using equal
    have sizes : SameSize (x :: traces) := fun u inU v inV => (lengths u inU).trans (lengths v inV).symm
    have positions := zipIdx_related (shapes x rfl y rfl) 0
    have left : ∀ a ∈ x.params.zipIdx, x.params[a.2]? = some a.1 := fun a member =>
      List.mem_zipIdx_iff_getElem?.mp member
    have right : ∀ a ∈ y.params.zipIdx, y.params[a.2]? = some a.1 := fun a member =>
      List.mem_zipIdx_iff_getElem?.mp member
    have inRight := ((List.forall₂_and_left _ _).mpr ⟨right, positions.flip⟩).flip
    have related := (List.forall₂_and_left _ _).mpr ⟨left, inRight⟩
    refine foldlM_related related ?_ (.refl {}) run run'
    rintro s t ⟨param, n⟩ ⟨param', m⟩ s' t' states ⟨atN, atM, rfl, name, type⟩ turn turn'
    simp only at atN atM name type
    obtain ⟨u, made, rfl⟩ := map_eq_ok.mp turn
    obtain ⟨v, made', rfl⟩ := map_eq_ok.mp turn'
    simp only [← type] at made'
    have free : param.type.isRest = false → OrderFree (((x :: traces).map (·.params)).filterMap fun set =>
        set[n]?.map (·.typeName)) := by
      rw [List.filterMap_map]
      exact types sizes x rfl n param atN
    refine states.add name type (parameterType_same (fun c => ?_) free (fun isRest => ?_) made made')
    · simp only [List.mem_filterMap, List.mem_map, same]
    · rw [head?_types atN, head?_types atM]
      exact rest sizes x rfl y rfl n param param' atN atM isRest

theorem blockFunction_total {traces : List Trace.BlockTrace} (sound : ∀ x ∈ traces, x.Sound env) :
    ∃ type, blockFunction env existingTypes traces = .ok type := by
  unfold blockFunction
  split
  · exact ⟨_, rfl⟩
  next full =>
    rw [List.isEmpty_iff] at full
    have params : ∀ set ∈ traces.map (·.params), ∀ p ∈ set, p.typeName.Sound env := by
      intro set member
      obtain ⟨x, inside, rfl⟩ := List.mem_map.mp member
      exact (sound x inside).params
    have returns : ∀ c ∈ traces.map (·.returnType), c.Sound env := by
      intro c member
      obtain ⟨x, inside, rfl⟩ := List.mem_map.mp member
      exact (sound x inside).returnType
    refine bind_total (methodParameters_total (by simpa using full) params) fun _ => ?_
    exact bind_total (toRbsType_total (by simpa using full) returns) fun _ => ⟨_, rfl⟩

/-- The first of all block traces is the first of one of the traces. -/
theorem mem_firstBlockTraces {blockParams : List (Trace.BlockParam Trace.BlockTrace)} {x : Trace.BlockTrace}
    (first : x ∈ (blockParams.flatMap (·.traces)).head?) : x ∈ firstBlockTraces blockParams := by
  rw [List.head?_flatMap] at first
  obtain ⟨b, member, head⟩ := List.exists_of_findSome?_eq_some first
  exact List.mem_filterMap.mpr ⟨b, member, head⟩

/-- The block traces that come first have parameters with the same names and kinds. -/
def SameShapes (blockParams : List (Trace.BlockParam Trace.BlockTrace)) : Prop :=
  ∀ x ∈ firstBlockTraces blockParams, ∀ y ∈ firstBlockTraces blockParams,
    x.params.map (fun p => (p.name, p.type)) = y.params.map fun p => (p.name, p.type)

theorem blockFunction_same {blockParams blockParams' : List (Trace.BlockParam Trace.BlockTrace)}
    (same : ∀ b, b ∈ blockParams ↔ b ∈ blockParams') (shapes : SameShapes blockParams)
    (agree : BlocksAgree blockParams) {type type' : BlockFunction}
    (run : blockFunction env existingTypes (blockParams.flatMap (·.traces)) = .ok type)
    (run' : blockFunction env existingTypes (blockParams'.flatMap (·.traces)) = .ok type') : type.Same type' := by
  have traces := mem_blockTraces same
  have members : SameMembers Eq (blockParams.flatMap (·.traces)) (blockParams'.flatMap (·.traces)) :=
    .of_mem_iff (fun _ _ => rfl) traces
  have first {x} (head : x ∈ (blockParams'.flatMap (·.traces)).head?) : x ∈ firstBlockTraces blockParams := by
    have inside := mem_firstBlockTraces head
    simp only [firstBlockTraces, List.mem_filterMap, ← same] at inside ⊢
    exact inside
  unfold blockFunction at run run'
  rw [← members.isEmpty_eq] at run'
  split at run
  next empty =>
    rw [if_pos empty] at run'
    cases run
    cases run'
    exact .untyped
  next full =>
    rw [if_neg full] at run'
    obtain ⟨p, parameters, run⟩ := bind_eq_ok.mp run
    obtain ⟨t, returnType, run⟩ := bind_eq_ok.mp run
    obtain ⟨p', parameters', run'⟩ := bind_eq_ok.mp run'
    obtain ⟨t', returnType', run'⟩ := bind_eq_ok.mp run'
    cases run
    cases run'
    have returns := (members.map (f := (·.returnType)) (g := (·.returnType)) (S := Eq)
      fun _ _ equal => congrArg _ equal).mem_iff
    refine .function (methodParameters_same traces ?_ ?_ ?_ parameters parameters')
      (toRbsType_same returns agree.returns returnType returnType')
    · exact fun x head y head' => shapes x (mem_firstBlockTraces head) y (first head')
    · exact fun sizes x head y head' => agree.rest sizes x (mem_firstBlockTraces head) y (first head')
    · exact fun sizes x head => agree.types sizes x (mem_firstBlockTraces head)

theorem toBlock_total {blockParams : List (Trace.BlockParam Trace.BlockTrace)}
    (sound : ∀ b ∈ blockParams, ∀ x ∈ b.traces, x.Sound env) :
    ∃ b, toBlock env existingTypes blockParams = .ok b := by
  have each : ∀ x ∈ blockParams.flatMap (·.traces), x.Sound env := by
    intro x member
    obtain ⟨b, inside, there⟩ := List.mem_flatMap.mp member
    exact sound b inside x there
  have selves : ∀ c ∈ (blockParams.flatMap (·.traces)).filterMap (·.selfType), c.Sound env := by
    intro c member
    obtain ⟨x, inside, self⟩ := List.mem_filterMap.mp member
    exact (each x inside).selfType c self
  refine bind_total (blockFunction_total each) fun _ => ?_
  refine bind_total (unless_total fun full => ?_) fun _ => ⟨_, rfl⟩
  exact toRbsType_total (fun empty => full (List.isEmpty_iff.mpr empty)) selves

theorem toBlock_same {blockParams blockParams' : List (Trace.BlockParam Trace.BlockTrace)}
    (same : ∀ b, b ∈ blockParams ↔ b ∈ blockParams') (shapes : SameShapes blockParams)
    (agree : BlocksAgree blockParams) {b b' : Block} (run : toBlock env existingTypes blockParams = .ok b)
    (run' : toBlock env existingTypes blockParams' = .ok b') :
    b.Same b' := by
  have traces := mem_blockTraces same
  have selves : SameMembers Eq ((blockParams.flatMap (·.traces)).filterMap (·.selfType))
      ((blockParams'.flatMap (·.traces)).filterMap (·.selfType)) :=
    .of_mem_iff (fun _ _ => rfl) fun c => by simp only [List.mem_filterMap, traces]
  obtain ⟨type, made, run⟩ := bind_eq_ok.mp run
  obtain ⟨selfType, self, run⟩ := bind_eq_ok.mp run
  obtain ⟨type', made', run'⟩ := bind_eq_ok.mp run'
  obtain ⟨selfType', self', run'⟩ := bind_eq_ok.mp run'
  cases run
  cases run'
  have required : blockParams.any (!·.traces.isEmpty) = blockParams'.any (!·.traces.isEmpty) := by
    rw [Bool.eq_iff_iff, List.any_eq_true, List.any_eq_true]
    simp only [same]
  exact ⟨blockFunction_same same shapes agree made made',
    unless_related (by rw [selves.isEmpty_eq])
      (fun _ _ => toRbsType_same selves.mem_iff agree.selves) self self', required⟩

theorem toOverload_total {name : String} {params : List Trace.Param} {traces : List Trace} (nonempty : traces ≠ [])
    (key : ∀ p ∈ params, p.typeName.Sound env) (sound : ∀ t ∈ traces, t.Sound env) :
    ∃ o, toOverload env existingTypes name params traces = .ok o := by
  have returns : ∀ c ∈ traces.map (·.returnType), c.Sound env := by
    intro c member
    obtain ⟨t, inside, rfl⟩ := List.mem_map.mp member
    exact (sound t inside).returnType
  have blocks : ∀ b ∈ traces.filterMap (·.blockParam), ∀ x ∈ b.traces, x.Sound env := by
    intro b member
    obtain ⟨t, inside, found⟩ := List.mem_filterMap.mp member
    exact (sound t inside).block b found
  have parameters : ∃ p, methodParameters env existingTypes [params] = .ok p :=
    methodParameters_total (List.cons_ne_nil params []) fun set member => by rwa [List.mem_singleton.mp member]
  have returnType : ∃ t, (if name = "initialize" then pure .void
      else toRbsType env existingTypes (traces.map (·.returnType))) = Except.ok t := by
    split
    · exact ⟨_, rfl⟩
    · exact toRbsType_total (by simpa using nonempty) returns
  have block : ∃ b, toBlock env existingTypes (traces.filterMap (·.blockParam)) = .ok b := toBlock_total blocks
  refine bind_total parameters fun _ => ?_
  refine bind_total returnType fun _ => ?_
  exact bind_total (unless_total fun _ => block) fun _ => ⟨_, rfl⟩

/-- The key of an overload has the shape of the first block trace. -/
theorem sameShapes {traces : List Trace} (keys : ∀ t ∈ traces, ∀ u ∈ traces, t.overloadKey = u.overloadKey) :
    SameShapes (traces.filterMap (·.blockParam)) := by
  intro x first y first'
  obtain ⟨b, inside, head⟩ := List.mem_filterMap.mp first
  obtain ⟨c, inside', head'⟩ := List.mem_filterMap.mp first'
  obtain ⟨t, member, block⟩ := List.mem_filterMap.mp inside
  obtain ⟨u, member', block'⟩ := List.mem_filterMap.mp inside'
  have key := congrArg Prod.snd (keys t member u member')
  simpa [Trace.overloadKey, block, block', head, head'] using key

theorem toOverload_same {name : String} {params : List Trace.Param} {traces traces' : List Trace}
    (same : SameMembers Trace.SameSignature traces traces')
    (keys : ∀ t ∈ traces, ∀ u ∈ traces, t.overloadKey = u.overloadKey) (agrees : OverloadAgrees name traces)
    {o o' : Overload} (run : toOverload env existingTypes name params traces = .ok o)
    (run' : toOverload env existingTypes name params traces' = .ok o') : o.Same o' := by
  have returns := sameReturnTypes same
  have blocks := sameBlockParams same
  obtain ⟨p, parameters, run⟩ := bind_eq_ok.mp run
  obtain ⟨t, returnType, run⟩ := bind_eq_ok.mp run
  obtain ⟨block, made, run⟩ := bind_eq_ok.mp run
  obtain ⟨p', parameters', run'⟩ := bind_eq_ok.mp run'
  obtain ⟨t', returnType', run'⟩ := bind_eq_ok.mp run'
  obtain ⟨block', made', run'⟩ := bind_eq_ok.mp run'
  cases run
  cases run'
  have sameParameters : p.Same p' := by
    rw [parameters] at parameters'
    cases parameters'
    exact .refl p
  have sameReturn : t.same t' := by
    split at returnType
    next isInit =>
      rw [if_pos isInit] at returnType'
      cases returnType
      cases returnType'
      exact RbsType.same_refl _
    next other =>
      rw [if_neg other] at returnType'
      exact toRbsType_same returns.mem_iff (agrees.returns other) returnType returnType'
  exact ⟨sameParameters, sameReturn, unless_related (by rw [blocks.isEmpty_eq])
    (fun _ _ => toBlock_same blocks.mem_iff (sameShapes keys) agrees.blocks) made made'⟩

theorem toMethodDefinition_total {name : String} {kind : MethodKind} {traces : List Trace} (nonempty : traces ≠ [])
    (sound : ∀ t ∈ traces, t.Sound env) : ∃ d, toMethodDefinition env existingTypes name kind traces = .ok d := by
  obtain ⟨first, rest, rfl⟩ := List.exists_cons_of_ne_nil nonempty
  unfold toMethodDefinition
  simp only
  split
  · exact ⟨none, rfl⟩
  · have each : ∀ entry ∈ (OrderedHash.groupBy Trace.overloadKey (first :: rest)).entries,
        ∃ o, toOverload env existingTypes name entry.1.1 entry.2 = .ok o := by
      rintro ⟨⟨params, shape⟩, group⟩ member
      obtain ⟨rfl, full⟩ := OrderedHash.mem_groupBy.mp member
      refine toOverload_total full ?_ fun t inside => sound t (List.mem_filter.mp inside).1
      obtain ⟨t, inside⟩ := List.exists_mem_of_ne_nil _ full
      obtain ⟨there, key⟩ := List.mem_filter.mp inside
      have params : t.params = params := congrArg Prod.fst (of_decide_eq_true key)
      rw [← params]
      exact (sound t there).params
    exact bind_total (mapM_total each) fun _ => ⟨_, rfl⟩

theorem overloadKey_eq {t t' : Trace} (same : t.signature = t'.signature) : t.overloadKey = t'.overloadKey := by
  have params : t.params = t'.params := congrArg (·.1) same
  have block : t.blockParam = t'.blockParam := congrArg (·.2.2) same
  rw [Trace.overloadKey, Trace.overloadKey, params, block]

/-- The overloads do not depend on which trace of the method comes first. -/
theorem overloads_same {name : String} {traces traces' : List Trace}
    (same : SameMembers Trace.SameSignature traces traces')
    (agrees : ∀ t ∈ traces, OverloadAgrees name (traces.filter fun u => u.overloadKey = t.overloadKey))
    {overloads overloads' : List Overload}
    (run : (OrderedHash.groupBy Trace.overloadKey traces).entries.mapM (fun ((params, _), group) =>
      toOverload env existingTypes name params group) = .ok overloads)
    (run' : (OrderedHash.groupBy Trace.overloadKey traces').entries.mapM (fun ((params, _), group) =>
      toOverload env existingTypes name params group) = .ok overloads') :
    SameMembers Overload.Same overloads overloads' := by
  have group (key) : SameMembers Trace.SameSignature
      (traces.filter fun t => t.overloadKey = key) (traces'.filter fun t => t.overloadKey = key) :=
    same.filter fun t t' equal => by rw [overloadKey_eq equal]
  have groups : SameMembers (fun e e' => e.1 = e'.1) (OrderedHash.groupBy Trace.overloadKey traces).entries
      (OrderedHash.groupBy Trace.overloadKey traces').entries := by
    refine ⟨fun ⟨key, ts⟩ member => ?_, fun ⟨key, ts⟩ member => ?_⟩
    · obtain ⟨rfl, full⟩ := OrderedHash.mem_groupBy.mp member
      have full' := full
      rw [ne_eq, ← List.isEmpty_iff, (group key).isEmpty_eq, List.isEmpty_iff] at full'
      exact ⟨_, OrderedHash.mem_groupBy.mpr ⟨rfl, full'⟩, rfl⟩
    · obtain ⟨rfl, full⟩ := OrderedHash.mem_groupBy.mp member
      have full' := full
      rw [ne_eq, ← List.isEmpty_iff, ← (group key).isEmpty_eq, List.isEmpty_iff] at full'
      exact ⟨_, OrderedHash.mem_groupBy.mpr ⟨rfl, full'⟩, rfl⟩
  refine groups.images (mapM_eq_ok.mp run) (mapM_eq_ok.mp run') ?_
  rintro ⟨key, ts⟩ member ⟨key', ts'⟩ member' rfl o o' made made'
  obtain ⟨rfl, full⟩ := OrderedHash.mem_groupBy.mp member
  obtain ⟨rfl, _⟩ := OrderedHash.mem_groupBy.mp member'
  obtain ⟨t, inside⟩ := List.exists_mem_of_ne_nil _ full
  obtain ⟨there, key⟩ := List.mem_filter.mp inside
  have agrees := agrees t there
  rw [of_decide_eq_true key] at agrees
  refine toOverload_same (group _) (fun u member v member' => ?_) agrees made made'
  have left := of_decide_eq_true (List.mem_filter.mp member).2
  exact left.trans (of_decide_eq_true (List.mem_filter.mp member').2).symm

theorem toMethodDefinition_same {name ownerName : String} {kind : MethodKind} {traces traces' : List Trace}
    (same : SameMethod env existingTypes ownerName kind name traces traces') {d d' : Option MethodDefinition}
    (run : toMethodDefinition env existingTypes name kind traces = .ok d)
    (run' : toMethodDefinition env existingTypes name kind traces' = .ok d') :
    Option.Rel MethodDefinition.Same d d' := by
  obtain ⟨signatures, owned, defined, agrees⟩ := same
  rcases traces with _ | ⟨t, traces⟩
  · cases run
  rcases traces' with _ | ⟨t', traces'⟩
  · cases run'
  have inT : t ∈ t :: traces ++ t' :: traces' := by simp
  have inT' : t' ∈ t :: traces ++ t' :: traces' := by simp
  unfold toMethodDefinition at run run'
  simp only at run run'
  rw [← defined t inT t' inT'] at run'
  split at run
  next gone =>
    rw [if_pos gone] at run'
    cases run
    cases run'
    exact .none
  next stays =>
    rw [if_neg stays] at run'
    obtain ⟨overloads, made, run⟩ := bind_eq_ok.mp run
    obtain ⟨overloads', made', run'⟩ := bind_eq_ok.mp run'
    cases run
    cases run'
    -- without a callee the method is filed under its own owner, which does not define it
    have overloading {u : Trace} (member : u ∈ t :: traces ++ t' :: traces') :
        (u.methodCallee.any fun callee => methodDefined env existingTypes name kind callee.name) =
          methodDefined env existingTypes name kind ownerName := by
      have owner := owned u member
      have gate := defined t inT u member
      rw [Bool.not_eq_true] at stays
      rw [stays] at gate
      unfold Trace.owner at owner
      cases callee : u.methodCallee with
      | none =>
        rw [callee, Option.getD_none] at owner
        rw [← owner, ← gate, Option.any_none]
      | some c =>
        rw [callee, Option.getD_some] at owner
        rw [← owner, Option.any_some]
    have agrees : ∀ u ∈ t :: traces,
        OverloadAgrees name ((t :: traces).filter fun v => v.overloadKey = u.overloadKey) := by
      intro u member
      refine agrees u member ?_
      rw [← defined t inT u (List.mem_append_left _ member)]
      simpa using stays
    have sameOverloading := (overloading inT).trans (overloading inT').symm
    exact .some ⟨rfl, rfl, overloads_same signatures agrees made made', sameOverloading⟩

end

end Racer
