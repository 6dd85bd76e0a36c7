import Racer.Collectors.ArrivalOrder
import Racer.Collectors.Coverage

namespace Racer
open Outcome Relation

/-! The type names in a declaration, and where they come from. -/

mutual

def RbsType.names : RbsType → List TypeName
  | .classSingleton name => [name]
  | .classInstance name args => name :: namesIn args
  | .union types => namesIn types
  | .bool | .nil | .void | .any => []

def namesIn : List RbsType → List TypeName
  | [] => []
  | type :: types => type.names ++ namesIn types

end

def FunctionParameters.params (f : FunctionParameters) : List FunctionParam :=
  f.requiredPositionals ++ f.optionalPositionals ++ f.trailingPositionals ++ f.restPositionals.toList ++
    f.requiredKeywords.entries.map Prod.snd ++ f.optionalKeywords.entries.map Prod.snd ++ f.restKeywords.toList

/-- The types of the parameters and the return type. -/
def BlockFunction.types : BlockFunction → List RbsType
  | .untyped => []
  | .function parameters returnType => parameters.params.map (·.type) ++ [returnType]

def Block.types (block : Block) : List RbsType :=
  block.type.types ++ block.selfType.toList

def Overload.types (overload : Overload) : List RbsType :=
  overload.parameters.params.map (·.type) ++ [overload.returnType] ++ overload.block.toList.flatMap Block.types

def MethodDefinition.names (definition : MethodDefinition) : List TypeName :=
  definition.overloads.flatMap fun overload => namesIn overload.types

def Member.names : Member → List TypeName
  | .mixin _ name args => name :: namesIn args
  | .method definition => definition.names

/-- All type names in the declaration, its own included. -/
def Declaration.names (d : Declaration) : List TypeName :=
  d.name :: d.superClass.toList.flatMap (fun (name, args) => name :: namesIn args) ++ d.selfTypes ++
    d.members.flatMap Member.names

/-- The name is that of the constant or of one in its generic arguments, to any depth. -/
inductive ConstantInstance.Mentions : ConstantInstance → String → Prop
  | self {c : ConstantInstance} : Mentions c c.name
  | nested {c : ConstantInstance} {union d name} (generic : union ∈ c.genericArguments) (member : d ∈ union)
      (mentions : Mentions d name) : Mentions c name

/-- The constants of which the type of the block is made. -/
def Trace.BlockTrace.constants (x : Trace.BlockTrace) : List ConstantInstance :=
  x.params.map (·.typeName) ++ x.returnType :: x.selfType.toList

/-- The constants in a trace. -/
def Trace.constants (t : Trace) : List ConstantInstance :=
  t.methodOwner :: t.methodCallee.toList ++ t.params.map (·.typeName) ++ t.returnType ::
    t.blockParam.toList.flatMap fun block => block.traces.flatMap (·.constants)

theorem mem_namesIn {name : TypeName} {types : List RbsType} :
    name ∈ namesIn types ↔ ∃ t ∈ types, name ∈ t.names := by
  induction types with
  | nil => simp [namesIn]
  | cons t types ih => simp [namesIn, ih]

section
variable {env : Environment} {existingTypes : OrderedHash String ExistingType} {N : TypeName → Prop}

/-- All names that a constant mentions are allowed. -/
def Allowed (env : Environment) (N : TypeName → Prop) (c : ConstantInstance) : Prop :=
  ∀ name, c.Mentions name → ∀ n, validName env name = .ok n → N (toTypeName n)

theorem Allowed.generic {c d : ConstantInstance} {union : List ConstantInstance} (allowed : Allowed env N c)
    (generic : union ∈ c.genericArguments) (member : d ∈ union) : Allowed env N d :=
  fun name mentions => allowed name (.nested generic member mentions)

theorem names_of_unionType {typeOf : ConstantInstance → Except RubyError RbsType} {constants : List ConstantInstance}
    {t : RbsType} (run : unionType typeOf constants = .ok t)
    (each : ∀ d ∈ survivors constants, ∀ u, typeOf d = .ok u → ∀ n ∈ u.names, N n) : ∀ n ∈ t.names, N n := by
  unfold unionType at run
  split at run
  next => cases run
  next d merged => exact each d (by simp [survivors_singleton merged]) t run
  next constants' merged =>
    obtain ⟨types, made, single⟩ := bind_eq_ok.mp run
    cases single
    intro n member
    rw [RbsType.names] at member
    obtain ⟨u, inside, name⟩ := mem_namesIn.mp member
    obtain ⟨d, kept, run⟩ := SameMembers.image_of_mem (mapM_eq_ok.mp made).flip inside
    exact each d kept u run n name

theorem names_of_arguments {name : String} {arguments : List (Except RubyError RbsType)} {args : List RbsType}
    (run : genericArgumentsOfClass existingTypes name arguments = .ok args)
    (each : ∀ a ∈ arguments, ∀ t, a = .ok t → ∀ n ∈ t.names, N n) : ∀ n ∈ namesIn args, N n := by
  intro n member
  obtain ⟨t, inside, named⟩ := mem_namesIn.mp member
  rcases genericArguments_cases run with ⟨_, rfl⟩ | ⟨_, made⟩ | ⟨_, _, untyped⟩
  · cases inside
  · obtain ⟨a, there, made⟩ := SameMembers.image_of_mem made.flip inside
    exact each a there t made n named
  · rw [untyped t inside, RbsType.names] at named
    cases named

theorem names_of_constantType {c : ConstantInstance} (allowed : Allowed env N c) {t : RbsType}
    (run : constantType env existingTypes c = .ok t) : ∀ n ∈ t.names, N n := by
  induction c using ConstantInstance.union_induction generalizing t with
  | step c ih =>
    by_cases bool : c.name = "bool"
    · obtain ⟨name, singleton, unions⟩ := c
      cases bool
      rw [constantType, if_pos rfl] at run
      cases run
      exact List.forall_mem_nil _
    by_cases nil : c.name = "NilClass"
    · rw [constantType_nil nil] at run
      cases run
      exact List.forall_mem_nil _
    obtain ⟨n, valid, ⟨_, rfl⟩ | ⟨_, args, arguments, rfl⟩⟩ := (constantType_eq_ok bool nil).mp run
    · simpa [RbsType.names] using allowed c.name .self n valid
    · rw [RbsType.names]
      refine List.forall_mem_cons.mpr ⟨allowed c.name .self n valid, names_of_arguments arguments ?_⟩
      intro a member t made
      obtain ⟨union, generic, rfl⟩ := List.mem_map.mp member
      refine names_of_unionType made fun d kept u made => ?_
      rcases of_mem_survivors kept with ⟨inside, _⟩ | rfl
      · exact ih union generic d inside (allowed.generic generic inside) made
      · rw [constantType_bool] at made
        cases made
        exact List.forall_mem_nil _

theorem names_of_toRbsType {constants : List ConstantInstance} (allowed : ∀ c ∈ constants, Allowed env N c)
    {t : RbsType}
    (run : toRbsType env existingTypes constants = .ok t) : ∀ n ∈ t.names, N n := by
  refine names_of_unionType run fun d kept u made => ?_
  rcases of_mem_survivors kept with ⟨inside, _⟩ | rfl
  · exact names_of_constantType (allowed d inside) made
  · rw [constantType_bool] at made
    cases made
    exact List.forall_mem_nil _

/-- A property of types that `void` and `untyped` have, and the types that are made of
constants with `S`. -/
structure Passes (env : Environment) (existingTypes : OrderedHash String ExistingType) (S : ConstantInstance → Prop)
    (P : RbsType → Prop) : Prop where
  untyped : P .any
  void : P .void
  generic : ∀ c, S c → ∀ union ∈ c.genericArguments, ∀ d ∈ union, S d
  converted : ∀ constants, (∀ c ∈ constants, S c) → ∀ t, toRbsType env existingTypes constants = .ok t → P t

theorem passes_names : Passes env existingTypes (Allowed env N) fun t => ∀ n ∈ t.names, N n :=
  ⟨List.forall_mem_nil _, List.forall_mem_nil _, fun _ allowed _ generic _ member => allowed.generic generic member,
    fun _ allowed _ run => names_of_toRbsType allowed run⟩

theorem FunctionParameters.params_add {f : FunctionParameters} {p : Trace.Param} {t : RbsType} {q : FunctionParam}
    (member : q ∈ (f.add p t).params) : q ∈ f.params ∨ q.type = t := by
  have keyword {h : OrderedHash (Option String) FunctionParam} {name : Option String}
      (member : q ∈ (h.store name { type := t, name := none }).entries.map Prod.snd) :
      q ∈ h.entries.map Prod.snd ∨ q.type = t := by
    obtain ⟨entry, inside, rfl⟩ := List.mem_map.mp member
    rcases OrderedHash.mem_entries_store inside with old | rfl
    · exact .inl (List.mem_map_of_mem old)
    · exact .inr rfl
  simp only [FunctionParameters.params, List.mem_append, Option.mem_toList] at member ⊢
  unfold FunctionParameters.add at member
  cases type : p.type with
  | REQUIRED =>
    rw [type] at member
    simp only at member
    split at member <;> simp only [List.mem_append, List.mem_singleton] at member
    · grind
    · grind
  | OPTIONAL =>
    rw [type] at member
    simp only [List.mem_append, List.mem_singleton] at member
    grind
  | REST =>
    rw [type] at member
    simp only at member
    grind
  | KEYWORD_REQUIRED =>
    rw [type] at member
    simp only at member
    grind
  | KEYWORD_OPTIONAL =>
    rw [type] at member
    simp only at member
    grind
  | KEYWORD_REST =>
    rw [type] at member
    simp only at member
    grind

section
variable {S : ConstantInstance → Prop} {P : RbsType → Prop} (passes : Passes env existingTypes S P)
include passes

theorem Passes.parameterType {type : ParamType} {types : List ConstantInstance} (given : ∀ c ∈ types, S c) {t : RbsType}
    (run : parameterType env existingTypes type types = .ok t) : P t := by
  have generic : ∀ union ∈ (types.head?.map (·.genericArguments)).getD [], ∀ c ∈ union, S c := by
    cases types with
    | nil => simp
    | cons first rest => exact passes.generic first (given first List.mem_cons_self)
  unfold Racer.parameterType at run
  cases type with
  | REST =>
    simp only at run
    split at run
    next union single => exact passes.converted union (generic union (by simp [single])) t run
    next =>
      cases run
      exact passes.untyped
  | KEYWORD_REST =>
    simp only at run
    split at run
    next key union pair => exact passes.converted union (generic union (by simp [pair])) t run
    next =>
      cases run
      exact passes.untyped
  | _ => exact passes.converted types given t run

theorem Passes.methodParameters {paramSets : List (List Trace.Param)}
    (given : ∀ set ∈ paramSets, ∀ p ∈ set, S p.typeName) {f : FunctionParameters}
    (run : methodParameters env existingTypes paramSets = .ok f) : ∀ q ∈ f.params, P q.type := by
  unfold Racer.methodParameters at run
  split at run
  next => cases run
  next first rest =>
    split at run
    · cases run
      simp [FunctionParameters.params, OrderedHash.empty]
    · refine foldlM_invariant (P := fun f => ∀ q ∈ f.params, P q.type) ?_
        (by simp [FunctionParameters.params, OrderedHash.empty]) run
      rintro f ⟨p, n⟩ f' _ before turn
      obtain ⟨t, typed, rfl⟩ := map_eq_ok.mp turn
      intro q member
      rcases FunctionParameters.params_add member with old | new
      · exact before q old
      · rw [new]
        refine passes.parameterType (fun c inside => ?_) typed
        obtain ⟨set, there, atN⟩ := List.mem_filterMap.mp inside
        obtain ⟨other, found, rfl⟩ := Option.map_eq_some_iff.mp atN
        exact given set there other (List.mem_of_getElem? found)

theorem Passes.toBlock {blockParams : List (Trace.BlockParam Trace.BlockTrace)}
    (given : ∀ b ∈ blockParams, ∀ x ∈ b.traces, ∀ c ∈ x.constants, S c) {block : Block}
    (run : toBlock env existingTypes blockParams = .ok block) : ∀ t ∈ block.types, P t := by
  have calls : ∀ x ∈ blockParams.flatMap (·.traces), ∀ c ∈ x.constants, S c := by
    intro x member
    obtain ⟨b, inside, call⟩ := List.mem_flatMap.mp member
    exact given b inside x call
  obtain ⟨type, function, run⟩ := bind_eq_ok.mp run
  obtain ⟨selfType, self, run⟩ := bind_eq_ok.mp run
  cases run
  refine List.forall_mem_append.mpr ⟨?_, ?_⟩
  · unfold blockFunction at function
    split at function
    · cases function
      exact List.forall_mem_nil _
    · obtain ⟨parameters, params, function⟩ := bind_eq_ok.mp function
      obtain ⟨returnType, returns, function⟩ := bind_eq_ok.mp function
      cases function
      refine List.forall_mem_append.mpr
        ⟨List.forall_mem_map.mpr (passes.methodParameters (fun set inSets p inSet => ?_) params),
          List.forall_mem_singleton.mpr (passes.converted _ (fun c member => ?_) returnType returns)⟩
      · obtain ⟨x, call, rfl⟩ := List.mem_map.mp inSets
        exact calls x call _ (List.mem_append_left _ (List.mem_map_of_mem inSet))
      · obtain ⟨x, call, rfl⟩ := List.mem_map.mp member
        exact calls x call _ (List.mem_append_right _ List.mem_cons_self)
  · split at self
    · cases self
      exact List.forall_mem_nil _
    · obtain ⟨t, typed, rfl⟩ := map_eq_ok.mp self
      refine List.forall_mem_singleton.mpr (passes.converted _ (fun c member => ?_) t typed)
      obtain ⟨x, call, here⟩ := List.mem_filterMap.mp member
      exact calls x call c (List.mem_append_right _ (List.mem_cons_of_mem _ (Option.mem_toList.mpr here)))

theorem Passes.toOverload {name : String} {params : List Trace.Param} {traces : List Trace}
    (named : ∀ p ∈ params, S p.typeName) (given : ∀ t ∈ traces, ∀ c ∈ t.constants, S c) {overload : Overload}
    (run : toOverload env existingTypes name params traces = .ok overload) : ∀ t ∈ overload.types, P t := by
  obtain ⟨parameters, made, run⟩ := bind_eq_ok.mp run
  obtain ⟨returnType, returns, run⟩ := bind_eq_ok.mp run
  obtain ⟨block, blocks, run⟩ := bind_eq_ok.mp run
  cases run
  refine List.forall_mem_append.mpr ⟨List.forall_mem_append.mpr ⟨?_, List.forall_mem_singleton.mpr ?_⟩, ?_⟩
  · refine List.forall_mem_map.mpr (passes.methodParameters (fun set member p inside => ?_) made)
    rw [List.mem_singleton.mp member] at inside
    exact named p inside
  · split at returns
    · cases returns
      exact passes.void
    · refine passes.converted _ (fun c member => ?_) returnType returns
      obtain ⟨t, inside, rfl⟩ := List.mem_map.mp member
      exact given t inside _ (List.mem_append_right _ List.mem_cons_self)
  · split at blocks
    · cases blocks
      exact List.forall_mem_nil _
    · obtain ⟨b, made, rfl⟩ := map_eq_ok.mp blocks
      have typed : ∀ t ∈ b.types, P t := by
        refine passes.toBlock (fun b member x call c inside => ?_) made
        obtain ⟨t, there, param⟩ := List.mem_filterMap.mp member
        refine given t there c (List.mem_append_right _ (List.mem_cons_of_mem _ ?_))
        exact List.mem_flatMap.mpr ⟨b, Option.mem_toList.mpr param, List.mem_flatMap.mpr ⟨x, call, inside⟩⟩
      simpa using typed

theorem Passes.toMethodDefinition {name : String} {kind : MethodKind} {traces : List Trace}
    (given : ∀ t ∈ traces, ∀ c ∈ t.constants, S c) {d : MethodDefinition}
    (run : toMethodDefinition env existingTypes name kind traces = .ok (some d)) :
    ∀ o ∈ d.overloads, ∀ t ∈ o.types, P t := by
  unfold Racer.toMethodDefinition at run
  split at run
  next => cases run
  next first rest =>
    split at run
    · cases run
    · obtain ⟨overloads, each, run⟩ := bind_eq_ok.mp run
      cases run
      intro overload member
      obtain ⟨⟨⟨params, shape⟩, group⟩, inside, made⟩ := SameMembers.image_of_mem (mapM_eq_ok.mp each).flip member
      obtain ⟨rfl, full⟩ := OrderedHash.mem_groupBy.mp inside
      obtain ⟨t, there⟩ := List.exists_mem_of_ne_nil _ full
      obtain ⟨there, key⟩ := List.mem_filter.mp there
      have same : t.params = params := congrArg Prod.fst (of_decide_eq_true key)
      refine passes.toOverload (fun p inParams => ?_) (fun u inside => ?_) made
      · refine given t there _ (List.mem_append_left _ (List.mem_append_right _ ?_))
        exact List.mem_map_of_mem (same ▸ inParams)
      · exact given u (List.mem_of_mem_filter inside)

end

theorem names_of_toMethodDefinition {name : String} {kind : MethodKind} {traces : List Trace}
    (allowed : ∀ t ∈ traces, ∀ c ∈ t.constants, Allowed env N c) {d : MethodDefinition}
    (run : toMethodDefinition env existingTypes name kind traces = .ok (some d)) : ∀ n ∈ d.names, N n := by
  refine List.forall_mem_flatMap.mpr fun o member n inside => ?_
  obtain ⟨t, typed, named⟩ := mem_namesIn.mp inside
  exact passes_names.toMethodDefinition allowed run o member t typed n named

/-- What `to_module_members` makes. -/
inductive Generates (env : Environment) (existingTypes : OrderedHash String ExistingType) (owner : Owner) :
    Member → Prop
  | mixin {kind : MixinKind} {m : String} {args : List RbsType} :
      m ∈ owner.constant.extendedModules ++ owner.constant.prependedModules ++ owner.constant.includedModules →
      genericArgumentsOfClass existingTypes m [] = .ok args →
      Generates env existingTypes owner (.mixin kind (toTypeName m) args)
  | method {kind : MethodKind} {entry : String × List Trace} {d : MethodDefinition} :
      entry ∈ (owner.methods kind).entries → toMethodDefinition env existingTypes entry.1 kind entry.2 = .ok (some d) →
      Generates env existingTypes owner (.method d)
  | required {kind : MethodKind} {type : TypeName} {entry : String × MethodDefinition} :
      entry ∈ env.interfaceMethods type → Generates env existingTypes owner (.method { entry.2 with kind })

/-- The methods of interfaces are those of interfaces, for instances or for the class itself. -/
theorem mem_requiredInterfaceMembers {ownerName : String} {modules : List String}
    {existing : OrderedHash String (List Trace)} {kind : MethodKind} {d : MethodDefinition}
    (member : d ∈ requiredInterfaceMembers env existingTypes ownerName modules existing kind) :
    ∃ type entry, entry ∈ env.interfaceMethods type ∧ d = { entry.2 with kind } := by
  obtain ⟨⟨name, definition⟩, inside, kept⟩ := List.mem_filterMap.mp member
  have needed : ∃ type, (name, definition) ∈ env.interfaceMethods type := by
    rcases OrderedHash.mem_entries_foldl_store inside with absurd | needed
    · cases absurd
    · obtain ⟨m, _, needed⟩ := List.mem_flatMap.mp needed
      split at needed
      next => exact ⟨_, needed⟩
      next => cases needed
  obtain ⟨type, needed⟩ := needed
  refine ⟨type, _, needed, ?_⟩
  simp only at kept
  split at kept
  · cases kept
  · split at kept
    · split at kept <;> cases kept
      rfl
    · cases kept
      rfl

theorem toModuleMembers_generates {owner : Owner} {members : List Member}
    (run : toModuleMembers env existingTypes owner = .ok members) :
    ∀ m ∈ members, Generates env existingTypes owner m := by
  have mixin {modules : List String} {kind : MixinKind} {made : List Member}
      (inside : ∀ m ∈ modules, m ∈ owner.constant.extendedModules ++ owner.constant.prependedModules ++
        owner.constant.includedModules) (run : toMixinDefinitions existingTypes modules kind = .ok made) :
      ∀ m ∈ made, Generates env existingTypes owner m := by
    intro member there
    obtain ⟨m, inModules, made⟩ := SameMembers.image_of_mem (mapM_eq_ok.mp run).flip there
    obtain ⟨args, arguments, made⟩ := bind_eq_ok.mp made
    cases made
    exact .mixin (inside m inModules) arguments
  have methods {kind : MethodKind} {definitions : List MethodDefinition}
      (run : toMethodDefinitions env existingTypes kind (owner.methods kind) = .ok definitions) :
      ∀ d ∈ definitions, Generates env existingTypes owner (.method d) := by
    obtain ⟨made, each, run⟩ := bind_eq_ok.mp run
    cases run
    intro d inside
    obtain ⟨definition, inMade, rfl⟩ := List.mem_filterMap.mp inside
    obtain ⟨entry, member, run⟩ := SameMembers.image_of_mem (mapM_eq_ok.mp each).flip inMade
    exact .method member run
  have required (modules : List String) (existing : OrderedHash String (List Trace)) (kind : MethodKind) :
      ∀ d ∈ requiredInterfaceMembers env existingTypes owner.constant.name modules existing kind,
        Generates env existingTypes owner (.method d) := by
    intro d inside
    obtain ⟨type, entry, needed, rfl⟩ := mem_requiredInterfaceMembers inside
    exact .required needed
  unfold toModuleMembers at run
  obtain ⟨extensions, first, run⟩ := bind_eq_ok.mp run
  obtain ⟨prepends, second, run⟩ := bind_eq_ok.mp run
  obtain ⟨includes, third, run⟩ := bind_eq_ok.mp run
  obtain ⟨instanceMethods, fourth, run⟩ := bind_eq_ok.mp run
  obtain ⟨singletonMethods, fifth, run⟩ := bind_eq_ok.mp run
  cases run
  simp only [List.forall_mem_append, List.forall_mem_map]
  refine ⟨⟨⟨mixin (fun m inside => ?_) first, mixin (fun m inside => ?_) second⟩, mixin (fun m inside => ?_) third⟩,
    ⟨methods fourth, methods fifth⟩, required _ _ _, required _ _ _⟩
  · exact List.mem_append_left _ (List.mem_append_left _ inside)
  · exact List.mem_append_left _ (List.mem_append_right _ inside)
  · exact List.mem_append_right _ inside

/-- The members of an owner, whose mixins and traces only have allowed names. -/
theorem names_of_toModuleMembers {owner : Owner} {members : List Member}
    (mixins : ∀ m ∈ owner.constant.extendedModules ++ owner.constant.prependedModules ++ owner.constant.includedModules,
      N (toTypeName m))
    (traces : ∀ kind, ∀ entry ∈ (owner.methods kind).entries, ∀ t ∈ entry.2, ∀ c ∈ t.constants, Allowed env N c)
    (interfaces : ∀ type entry, entry ∈ env.interfaceMethods type → ∀ n ∈ entry.2.names, N n)
    (run : toModuleMembers env existingTypes owner = .ok members) : ∀ n ∈ members.flatMap Member.names, N n := by
  refine List.forall_mem_flatMap.mpr fun member inside => ?_
  cases toModuleMembers_generates run member inside with
  | mixin there arguments =>
    exact List.forall_mem_cons.mpr ⟨mixins _ there, names_of_arguments arguments (List.forall_mem_nil _)⟩
  | method there made => exact names_of_toMethodDefinition (traces _ _ there) made
  | required needed => exact interfaces _ _ needed

end

end Racer
