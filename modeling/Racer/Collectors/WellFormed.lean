import Racer.Collectors.Closed

namespace Racer
open Outcome

/-! Whether the generated declarations are well formed beside those that are loaded. -/

/-- How many arguments a type takes. A type that is not loaded has no parameters. -/
def Environment.arity (env : Environment) (n : TypeName) : Nat :=
  ((env.classDecls n).map (·.typeParams.length)).getD 0

/-- Every class in the type has as many arguments as it takes. -/
inductive RbsType.Applied (env : Environment) : RbsType → Prop
  | bool : Applied env .bool
  | nil : Applied env .nil
  | void : Applied env .void
  | any : Applied env .any
  | classSingleton {name} : Applied env (.classSingleton name)
  | classInstance {name args} : args.length = env.arity name → (∀ t ∈ args, Applied env t) →
      Applied env (.classInstance name args)
  | union {types} : (∀ t ∈ types, Applied env t) → Applied env (.union types)

/-- A superclass or a mixin with its arguments. -/
def AppliedTo (env : Environment) (name : TypeName) (args : List RbsType) : Prop :=
  args.length = env.arity name ∧ ∀ t ∈ args, t.Applied env

/-- The kind and the name of the method that is defined. -/
def Member.defined : Member → Option (MethodKind × String)
  | .mixin .. => none
  | .method definition => some (definition.kind, definition.name)

structure Declaration.WellFormed (env : Environment) (d : Declaration) : Prop where
  typeParams : d.typeParams.length = env.arity d.name
  superClass : ∀ above ∈ d.superClass, AppliedTo env above.1 above.2
  selfTypes : ∀ n ∈ d.selfTypes, env.arity n = 0
  mixins : ∀ kind name args, .mixin kind name args ∈ d.members → AppliedTo env name args
  overloads : ∀ m, .method m ∈ d.members → m.overloads ≠ []
  types : ∀ m, .method m ∈ d.members → ∀ o ∈ m.overloads, ∀ t ∈ o.types, t.Applied env
  once : (d.members.filterMap Member.defined).Nodup

/-- What is used of the loaded signatures is well formed, and no method of an interface is an alias. -/
structure Environment.WellFormed (env : Environment) : Prop where
  superClasses : ∀ n classDecl, env.classDecls n = some classDecl →
    ∀ above ∈ classDecl.superClass, AppliedTo env above.1 above.2
  basicObject : env.arity (toTypeName "BasicObject") = 0
  names : ∀ type, ∀ entry ∈ env.interfaceMethods type, entry.2.name = entry.1
  overloads : ∀ type, ∀ entry ∈ env.interfaceMethods type, entry.2.overloads ≠ []
  untyped : ∀ type, ∀ entry ∈ env.interfaceMethods type, ∀ o ∈ entry.2.overloads, ∀ t ∈ o.types, t = .any

section
variable {env : Environment} {existingTypes : OrderedHash String ExistingType}

/-- The name is known to the collector if it is loaded. -/
def Loads (env : Environment) (existingTypes : OrderedHash String ExistingType) (n : String) : Prop :=
  (existingTypes.get? n).map (·.classDecl) = env.classDecls (toTypeName n)

theorem Loads.arity {n : String} (loads : Loads env existingTypes n) :
    env.arity (toTypeName n) = ((existingTypes.get? n).map (·.classDecl.typeParams.length)).getD 0 := by
  rw [Environment.arity, ← loads, Option.map_map]
  rfl

theorem Loads.arguments {n : String} (loads : Loads env existingTypes n) {arguments : List (Except RubyError RbsType)}
    {args : List RbsType} (run : genericArgumentsOfClass existingTypes n arguments = .ok args)
    (each : ∀ a ∈ arguments, ∀ t, a = .ok t → t.Applied env) : AppliedTo env (toTypeName n) args := by
  rw [AppliedTo, loads.arity]
  rcases genericArguments_cases run with ⟨missing, rfl⟩ | ⟨length, made⟩ | ⟨length, _, untyped⟩
  · rw [missing]
    exact ⟨rfl, List.forall_mem_nil _⟩
  · rw [length, Option.getD_some]
    refine ⟨made.length_eq.symm, fun t inside => ?_⟩
    obtain ⟨a, there, made⟩ := SameMembers.image_of_mem made.flip inside
    exact each a there t made
  · rw [length, Option.getD_some]
    refine ⟨rfl, fun t inside => ?_⟩
    rw [untyped t inside]
    exact .any

/-- All names that a constant mentions are known if they are loaded. -/
def LoadsAll (env : Environment) (existingTypes : OrderedHash String ExistingType) (c : ConstantInstance) : Prop :=
  ∀ name, c.Mentions name → ∀ n, validName env name = .ok n → Loads env existingTypes n

theorem applied_of_unionType {typeOf : ConstantInstance → Except RubyError RbsType} {constants : List ConstantInstance}
    {t : RbsType} (run : unionType typeOf constants = .ok t)
    (each : ∀ d ∈ survivors constants, ∀ u, typeOf d = .ok u → u.Applied env) : t.Applied env := by
  unfold unionType at run
  split at run
  next => cases run
  next d merged => exact each d (by simp [survivors_singleton merged]) t run
  next =>
    obtain ⟨types, made, single⟩ := bind_eq_ok.mp run
    cases single
    refine .union fun u inside => ?_
    obtain ⟨d, kept, run⟩ := SameMembers.image_of_mem (mapM_eq_ok.mp made).flip inside
    exact each d kept u run

theorem applied_of_constantType {c : ConstantInstance} (loads : LoadsAll env existingTypes c) {t : RbsType}
    (run : constantType env existingTypes c = .ok t) : t.Applied env := by
  induction c using ConstantInstance.union_induction generalizing t with
  | step c ih =>
    by_cases bool : c.name = "bool"
    · obtain ⟨name, singleton, unions⟩ := c
      cases bool
      rw [constantType, if_pos rfl] at run
      cases run
      exact .bool
    by_cases nil : c.name = "NilClass"
    · rw [constantType_nil nil] at run
      cases run
      exact .nil
    obtain ⟨n, valid, ⟨_, rfl⟩ | ⟨_, args, arguments, rfl⟩⟩ := (constantType_eq_ok bool nil).mp run
    · exact .classSingleton
    · obtain ⟨length, applied⟩ := (loads c.name .self n valid).arguments arguments fun a member t made => by
        obtain ⟨union, generic, rfl⟩ := List.mem_map.mp member
        refine applied_of_unionType made fun d kept u made => ?_
        rcases of_mem_survivors kept with ⟨inside, _⟩ | rfl
        · exact ih union generic d inside (fun name mentions => loads name (.nested generic inside mentions)) made
        · rw [constantType_bool] at made
          cases made
          exact .bool
      exact .classInstance length applied

theorem passes_applied : Passes env existingTypes (LoadsAll env existingTypes) (RbsType.Applied env) := by
  refine ⟨.any, .void, fun c loads union generic d member name mentions => loads name (.nested generic member mentions),
    fun constants loads t run => applied_of_unionType run fun d kept u made => ?_⟩
  rcases of_mem_survivors kept with ⟨inside, _⟩ | rfl
  · exact applied_of_constantType (loads d inside) made
  · rw [constantType_bool] at made
    cases made
    exact .bool

/-- What is kept of a list, in the order of the list. -/
theorem sublist_of_options {α β γ : Type} {g : β → γ} {k : α → γ} {as : List α} {options : List (Option β)}
    (each : List.Forall₂ (fun a option => ∀ b ∈ option, g b = k a) as options) :
    ((options.filterMap id).map g).Sublist (as.map k) := by
  induction each with
  | nil => exact .slnil
  | @cons a option as options own _ ih =>
    cases option with
    | none => exact ih.cons _
    | some b =>
      have same : g b = k a := own b rfl
      rw [List.map_cons, ← same]
      exact ih.cons_cons (g b)

/-- The methods of one kind, in the order in which they have been filed. -/
theorem toMethodDefinitions_names {kind : MethodKind} {methods : OrderedHash String (List Trace)}
    {definitions : List MethodDefinition}
    (run : toMethodDefinitions env existingTypes kind methods = .ok definitions) :
    (definitions.map (·.name)).Sublist (methods.entries.map Prod.fst) ∧ ∀ d ∈ definitions, d.kind = kind := by
  obtain ⟨made, each, run⟩ := bind_eq_ok.mp run
  cases run
  have own {name : String} {traces : List Trace} {option : Option MethodDefinition}
      (run : toMethodDefinition env existingTypes name kind traces = .ok option) :
      ∀ d ∈ option, d.name = name ∧ d.kind = kind := by
    unfold toMethodDefinition at run
    split at run
    · cases run
    · split at run
      · cases run
        exact fun d never => (by cases never)
      · obtain ⟨overloads, _, run⟩ := bind_eq_ok.mp run
        cases run
        rintro _ ⟨⟩
        exact ⟨rfl, rfl⟩
  refine ⟨sublist_of_options ((mapM_eq_ok.mp each).imp fun entry option run d inside => (own run d inside).1), ?_⟩
  intro d inside
  obtain ⟨option, inMade, atOption⟩ := List.mem_filterMap.mp inside
  obtain ⟨entry, _, run⟩ := SameMembers.image_of_mem (mapM_eq_ok.mp each).flip inMade
  exact (own run d atOption).2

/-- The methods that the interfaces of these modules need. -/
def neededMethods (env : Environment) (existingTypes : OrderedHash String ExistingType) (modules : List String) :
    OrderedHash String MethodDefinition :=
  (modules.flatMap fun moduleName =>
    match existingTypes.get? moduleName with
    | some existing => env.interfaceMethods existing.typeName
    | none => []).foldl (fun needed (name, definition) => needed.store name definition) .empty

theorem neededMethods_name (wellFormed : env.WellFormed) {modules : List String} {entry : String × MethodDefinition}
    (member : entry ∈ (neededMethods env existingTypes modules).entries) : entry.2.name = entry.1 := by
  rcases OrderedHash.mem_entries_foldl_store member with absurd | needed
  · cases absurd
  · obtain ⟨m, _, needed⟩ := List.mem_flatMap.mp needed
    split at needed
    next => exact wellFormed.names _ _ needed
    next => cases needed

/-- The methods of interfaces that are added, each of which has not been traced. -/
theorem requiredInterfaceMembers_names (wellFormed : env.WellFormed) (ownerName : String) (modules : List String)
    (existing : OrderedHash String (List Trace)) (kind : MethodKind) :
    ((requiredInterfaceMembers env existingTypes ownerName modules existing kind).map (·.name)).Nodup ∧
      ∀ d ∈ requiredInterfaceMembers env existingTypes ownerName modules existing kind,
        d.kind = kind ∧ existing.get? d.name = none := by
  let needed := neededMethods env existingTypes modules
  let option (entry : String × MethodDefinition) : Option MethodDefinition :=
    if (existing.get? entry.1).isSome then none
    else
      match existingTypes.get? ownerName with
      | some type => if env.implementedIn kind type.typeName entry.1 then none else some { entry.2 with kind }
      | none => some { entry.2 with kind }
  have options : requiredInterfaceMembers env existingTypes ownerName modules existing kind =
      (needed.entries.map option).filterMap id := by
    rw [List.filterMap_map]
    rfl
  have own {entry : String × MethodDefinition} (member : entry ∈ needed.entries) :
      ∀ d ∈ option entry, d.name = entry.1 ∧ d.kind = kind ∧ existing.get? entry.1 = none := by
    have name := neededMethods_name wellFormed member
    have added (d : MethodDefinition) (there : d ∈ option entry) :
        existing.get? entry.1 = none ∧ d = { entry.2 with kind } := by
      simp only [option] at there
      split at there
      · cases there
      next untraced =>
        refine ⟨by simpa using untraced, ?_⟩
        split at there
        · split at there
          · cases there
          · exact (Option.some.inj there).symm
        · exact (Option.some.inj there).symm
    intro d there
    obtain ⟨untraced, rfl⟩ := added d there
    exact ⟨name, rfl, untraced⟩
  rw [options]
  constructor
  · refine (sublist_of_options ?_).nodup needed.nodup
    exact List.forall₂_map_right_iff.mpr (List.forall₂_same.mpr fun entry member d there => (own member d there).1)
  · intro d inside
    obtain ⟨made, inMade, there⟩ := List.mem_filterMap.mp inside
    obtain ⟨entry, member, rfl⟩ := List.mem_map.mp inMade
    obtain ⟨name, kind, untraced⟩ := own member d there
    exact ⟨kind, name ▸ untraced⟩

/-- Methods with different names, or of different kinds, are defined apart. -/
theorem nodup_defined_append {first second : List MethodDefinition}
    (one : (first.map fun d => (d.kind, d.name)).Nodup) (other : (second.map fun d => (d.kind, d.name)).Nodup)
    (apart : ∀ d ∈ first, ∀ e ∈ second, d.kind = e.kind → d.name ≠ e.name) :
    ((first ++ second).map fun d => (d.kind, d.name)).Nodup := by
  rw [List.map_append]
  refine one.append other fun key inFirst inSecond => ?_
  obtain ⟨d, there, rfl⟩ := List.mem_map.mp inFirst
  obtain ⟨e, there', same⟩ := List.mem_map.mp inSecond
  obtain ⟨kind, name⟩ := Prod.mk.inj same
  exact apart d there e there' kind.symm name.symm

/-- No method is defined twice among the members. -/
theorem toModuleMembers_once (wellFormed : env.WellFormed) {owner : Owner} {members : List Member}
    (run : toModuleMembers env existingTypes owner = .ok members) : (members.filterMap Member.defined).Nodup := by
  have mixins {modules : List String} {kind : MixinKind} {made : List Member}
      (run : toMixinDefinitions existingTypes modules kind = .ok made) : made.filterMap Member.defined = [] := by
    refine List.filterMap_eq_nil_iff.mpr fun member there => ?_
    obtain ⟨m, _, made⟩ := SameMembers.image_of_mem (mapM_eq_ok.mp run).flip there
    obtain ⟨args, _, made⟩ := bind_eq_ok.mp made
    cases made
    rfl
  unfold toModuleMembers at run
  obtain ⟨extensions, first, run⟩ := bind_eq_ok.mp run
  obtain ⟨prepends, second, run⟩ := bind_eq_ok.mp run
  obtain ⟨includes, third, run⟩ := bind_eq_ok.mp run
  obtain ⟨instanceMethods, fourth, run⟩ := bind_eq_ok.mp run
  obtain ⟨singletonMethods, fifth, run⟩ := bind_eq_ok.mp run
  cases run
  have all (definitions : List MethodDefinition) :
      (definitions.map Member.method).filterMap Member.defined = definitions.map fun d => (d.kind, d.name) := by
    rw [List.filterMap_map]
    exact congrFun List.filterMap_eq_map definitions
  simp only [List.filterMap_append, mixins first, mixins second, mixins third, List.nil_append, all]
  have traced (kind : MethodKind) {definitions : List MethodDefinition}
      (run : toMethodDefinitions env existingTypes kind (owner.methods kind) = .ok definitions) :
      (definitions.map fun d => (d.kind, d.name)).Nodup ∧
        ∀ d ∈ definitions, d.kind = kind ∧ ((owner.methods kind).get? d.name).isSome := by
    obtain ⟨names, kinds⟩ := toMethodDefinitions_names run
    have distinct : (definitions.map (·.name)).Nodup := names.nodup (owner.methods kind).nodup
    refine ⟨List.Nodup.of_map Prod.snd (by simpa [Function.comp_def] using distinct), fun d inside => ?_⟩
    refine ⟨kinds d inside, ?_⟩
    obtain ⟨entry, there, name⟩ := List.mem_map.mp (names.subset (List.mem_map_of_mem inside))
    rw [← name, OrderedHash.mem_entries.mp there]
    rfl
  have added (modules : List String) (existing : OrderedHash String (List Trace)) (kind : MethodKind) :
      ((requiredInterfaceMembers env existingTypes owner.constant.name modules existing kind).map
          fun d => (d.kind, d.name)).Nodup ∧
        ∀ d ∈ requiredInterfaceMembers env existingTypes owner.constant.name modules existing kind,
          d.kind = kind ∧ existing.get? d.name = none := by
    obtain ⟨names, each⟩ := requiredInterfaceMembers_names wellFormed owner.constant.name modules existing kind
    exact ⟨List.Nodup.of_map Prod.snd (by simpa [Function.comp_def] using names), each⟩
  obtain ⟨instances, ofInstance⟩ := traced .INSTANCE fourth
  obtain ⟨singletons, ofSingleton⟩ := traced .SINGLETON fifth
  obtain ⟨mixedIn, forInstance⟩ := added (owner.constant.prependedModules ++ owner.constant.includedModules)
    owner.instanceMethods .INSTANCE
  obtain ⟨extended, forSingleton⟩ := added owner.constant.extendedModules owner.singletonMethods .SINGLETON
  have untraced {d e : MethodDefinition} {existing : OrderedHash String (List Trace)}
      (traced : (existing.get? d.name).isSome) (needed : existing.get? e.name = none) : d.name ≠ e.name := by
    intro same
    rw [same, needed] at traced
    cases traced
  refine nodup_defined_append (nodup_defined_append instances singletons fun d inFirst e inSecond same => ?_)
    (nodup_defined_append mixedIn extended fun d inFirst e inSecond same => ?_) fun d inFirst e inSecond same => ?_
  · rw [(ofInstance d inFirst).1, (ofSingleton e inSecond).1] at same
    cases same
  · rw [(forInstance d inFirst).1, (forSingleton e inSecond).1] at same
    cases same
  · rcases List.mem_append.mp inFirst with instance' | singleton <;>
      rcases List.mem_append.mp inSecond with mixin | extension
    · exact untraced (ofInstance d instance').2 (forInstance e mixin).2
    · rw [(ofInstance d instance').1, (forSingleton e extension).1] at same
      cases same
    · rw [(ofSingleton d singleton).1, (forInstance e mixin).1] at same
      cases same
    · exact untraced (ofSingleton d singleton).2 (forSingleton e extension).2

theorem overloads_ne_nil {name : String} {kind : MethodKind} {traces : List Trace} {d : MethodDefinition}
    (run : toMethodDefinition env existingTypes name kind traces = .ok (some d)) : d.overloads ≠ [] := by
  unfold toMethodDefinition at run
  split at run
  next => cases run
  next first rest =>
    split at run
    · cases run
    · obtain ⟨overloads, each, run⟩ := bind_eq_ok.mp run
      cases run
      have own : first ∈ (first :: rest).filter (Trace.overloadKey · = first.overloadKey) :=
        List.mem_filter.mpr ⟨List.mem_cons_self, decide_eq_true rfl⟩
      have grouped := OrderedHash.mem_groupBy.mpr ⟨rfl, List.ne_nil_of_mem own⟩
      rintro rfl
      rw [List.forall₂_nil_right_iff.mp (mapM_eq_ok.mp each)] at grouped
      cases grouped

theorem builtDeclarations_of_stop {s : RBSCollector} {owners : List (String × Owner)} {file : String × Declaration}
    (written : file ∈ (writeOwners env s owners).1) : ∃ entry ∈ owners, toDeclaration env s entry.2 = .ok file.2 := by
  induction owners with
  | nil => cases written
  | cons entry owners ih =>
    have later (inRest : file ∈ (writeOwners env s owners).1) :
        ∃ other ∈ entry :: owners, toDeclaration env s other.2 = .ok file.2 := by
      obtain ⟨other, member, made⟩ := ih inRest
      exact ⟨other, List.mem_cons_of_mem entry member, made⟩
    rw [writeOwners] at written
    split at written
    · cases written
    next made =>
      simp only at written
      split at written
      · exact later written
      · rcases List.mem_cons.mp written with rfl | inRest
        · exact ⟨entry, List.mem_cons_self, made⟩
        · exact later inRest

theorem superClassOf_applied (wellFormed : env.WellFormed) {s : RBSCollector} {owner : Constant}
    (existing : ∀ n existing, s.existingTypes.get? n = some existing →
      env.classDecls existing.typeName = some existing.classDecl)
    (mentions : ∀ m ∈ owner.mentions, Loads env s.existingTypes m) {superClass : Option (TypeName × List RbsType)}
    (run : superClassOf s owner = .ok superClass) : ∀ above ∈ superClass, AppliedTo env above.1 above.2 := by
  unfold superClassOf at run
  split at run
  next =>
    cases run
    exact fun above never => (by cases never)
  next superclass given =>
    split at run
    next known there =>
      cases run
      exact wellFormed.superClasses _ _ (existing _ known there)
    next =>
      obtain ⟨args, arguments, run⟩ := bind_eq_ok.mp run
      cases run
      rintro _ ⟨⟩
      refine (mentions superclass ?_).arguments arguments (List.forall_mem_nil _)
      simp [Constant.mentions, given]

/-- The declaration of an owner, all of whose names are known if they are loaded. -/
theorem toDeclaration_wellFormed (wellFormed : env.WellFormed) {s : RBSCollector} {name : String} {owner : Owner}
    (names : ∀ n owner, s.results.get? n = some owner → owner.constant.name = n)
    (existing : ∀ n existing, s.existingTypes.get? n = some existing →
      env.classDecls existing.typeName = some existing.classDecl)
    (found : s.results.get? name = some owner) (own : Loads env s.existingTypes name)
    (mentions : ∀ m ∈ owner.constant.mentions, Loads env s.existingTypes m)
    (traces : ∀ kind, ∀ entry ∈ (owner.methods kind).entries, ∀ t ∈ entry.2, ∀ c ∈ t.constants,
      LoadsAll env s.existingTypes c)
    {d : Declaration} (run : toDeclaration env s owner = .ok d) : d.WellFormed env := by
  obtain ⟨_, own', members⟩ := toDeclaration_members run
  have generated := toModuleMembers_generates members
  have params : d.typeParams = typeParamsOfExistingClass s owner.constant.name ∧
      (∀ above ∈ d.superClass, AppliedTo env above.1 above.2) ∧ ∀ n ∈ d.selfTypes, env.arity n = 0 := by
    unfold toDeclaration at run
    cases type : owner.constant.type with
    | CLASS =>
      rw [type] at run
      obtain ⟨superClass, super, run⟩ := bind_eq_ok.mp run
      obtain ⟨_, _, run⟩ := bind_eq_ok.mp run
      cases run
      exact ⟨rfl, superClassOf_applied wellFormed existing mentions super, List.forall_mem_nil _⟩
    | MODULE =>
      rw [type] at run
      obtain ⟨selfTypes, found', run⟩ := bind_eq_ok.mp run
      obtain ⟨_, _, run⟩ := bind_eq_ok.mp run
      cases run
      refine ⟨rfl, fun above never => (by cases never), fun n member => ?_⟩
      rw [((findSelfTypes_sound names found found').2 n).mp member |>.1]
      exact wellFormed.basicObject
  obtain ⟨params, superClass, selfTypes⟩ := params
  refine ⟨?_, superClass, selfTypes, fun kind n args inside => ?_, fun m inside => ?_, fun m inside => ?_,
    toModuleMembers_once wellFormed members⟩
  · rw [params, own', names name owner found, own.arity, typeParamsOfExistingClass]
    cases s.existingTypes.get? name <;> rfl
  · cases generated _ inside with
    | mixin there arguments =>
      refine (mentions _ ?_).arguments arguments (List.forall_mem_nil _)
      simp only [Constant.mentions, List.mem_append] at there ⊢
      tauto
  · cases generated _ inside with
    | method there made => exact overloads_ne_nil made
    | required needed => exact wellFormed.overloads _ _ needed
  · cases generated _ inside with
    | method there made => exact passes_applied.toMethodDefinition (traces _ _ there) made
    | required needed =>
      intro o member t typed
      rw [wellFormed.untyped _ _ needed o member t typed]
      exact .any

theorem Collected.loads {constants : List Constant} {traces : List Trace} {s : RBSCollector}
    (collected : Collected env constants traces s) {n : String} {owner : Owner}
    (found : s.results.get? n = some owner) : Loads env s.existingTypes n := by
  obtain ⟨c, announcement, _⟩ := collected.announced found
  rw [Loads, collected.existing, announcement, Option.bind_some, Option.map_map]
  exact Option.map_id'

/-- Beside well-formed signatures, every declaration that is written is well formed:
classes take the arguments that they are given, no method is defined twice, and every
method has a signature. -/
theorem generated_declarations_well_formed (wellFormed : env.WellFormed) {traces : List Trace}
    (all : AllAnnounced traces) {s : RBSCollector} (run : collectAll env traces = .ok s) :
    ∀ file ∈ (s.stop env).1, file.2.WellFormed env := by
  have collected := collectAll_collected run
  intro file written
  obtain ⟨⟨n, owner⟩, inside, made⟩ := builtDeclarations_of_stop written
  have found := OrderedHash.mem_entries.mp inside
  refine toDeclaration_wellFormed wellFormed (fun _ _ => collected.name_eq)
    (fun n type there => (collected.existing_loaded there).2) found (collected.loads found) (fun m mentions => ?_)
    (fun kind entry inEntries t inGroup c inTrace name mentions n validated => ?_) made
  · obtain ⟨other, there⟩ := all.owner_of_mentions run found mentions
    exact collected.loads there
  · obtain ⟨same, _⟩ := (collected.group found).mp inEntries
    rw [same] at inGroup
    have announced := all.used t (Collected.isOf inGroup).1 c inTrace name mentions
    obtain ⟨other, there⟩ := owner_of_announced run announced validated
    exact collected.loads there

end

/-- `def each: () -> untyped` -/
def untypedEach : MethodDefinition where
  name := "each"
  kind := .INSTANCE
  overloads := [{ parameters := {}, returnType := .any, block := none }]
  overloading := false
  visibility := none

/-- `Array` with its parameter, and the module `Each`, the classes of which have a method `each`. -/
def eachSignatures : Environment :=
  { Environment.ofDecls fun n =>
      if n = toTypeName "Array" then some { typeParams := ["Elem"] }
      else if n = toTypeName "Each" then some { typeParams := ["Elem"], selfTypes := [toTypeName "_Each"] }
      else none with
    interfaceMethods := fun n =>
      if n = toTypeName "Each" then [("each", untypedEach)] else [] }

/-- `Bag.new([[]])` for a class `Bag` that includes `Each`. -/
def callOfNew : Trace where
  methodOwner := { name := "Bag", singleton := true }
  methodCallee := none
  methodName := "new"
  methodKind := .SINGLETON
  methodVisibility := .PUBLIC
  returnType := { name := "Bag" }
  params := [{ name := some "items", type := .REQUIRED,
               typeName := { name := "Array", genericArguments := [[{ name := "Array" }]] } }]
  blockParam := none
  constantUpdates :=
    [{ name := "Bag", type := .CLASS, includedModules := ["Each"] }, { name := "Each" },
      { name := "Array", type := .CLASS }]

theorem eachSignatures_wellFormed : eachSignatures.WellFormed := by
  have loaded {n : TypeName} {classDecl : ClassDecl} (there : eachSignatures.classDecls n = some classDecl) :
      classDecl.superClass = none := by
    simp only [eachSignatures, Environment.ofDecls] at there
    split_ifs at there <;> cases there <;> rfl
  have interface {type : TypeName} {entry : String × MethodDefinition}
      (there : entry ∈ eachSignatures.interfaceMethods type) : entry = ("each", untypedEach) := by
    simp only [eachSignatures] at there
    split_ifs at there
    · exact List.mem_singleton.mp there
    · cases there
  refine ⟨fun n classDecl there above inside => ?_, by decide +kernel, fun type entry there => ?_,
    fun type entry there => ?_, fun type entry there o inside t typed => ?_⟩
  · rw [loaded there] at inside
    cases inside
  · rw [interface there]
    rfl
  · rw [interface there]
    exact List.cons_ne_nil _ _
  · rw [interface there] at inside
    cases List.mem_singleton.mp inside
    simpa [Overload.types, FunctionParameters.params, OrderedHash.empty] using typed

theorem callOfNew_announced : AllAnnounced [callOfNew] := by
  have bare {name mentioned : String} {singleton : Bool}
      (mentions : ConstantInstance.Mentions { name, singleton } mentioned) : mentioned = name := by
    cases mentions with
    | self => rfl
    | nested generic _ _ => cases generic
  refine ⟨fun t member c inside name mentions => ?_, by decide +kernel⟩
  rw [List.mem_singleton.mp member] at inside
  have names : name = "Bag" ∨ name = "Array" := by
    simp only [callOfNew, Trace.constants, Option.toList_none, List.map_cons, List.map_nil,
      List.flatMap_nil, List.cons_append, List.nil_append, List.mem_cons, List.not_mem_nil, or_false] at inside
    rcases inside with rfl | rfl | rfl
    · exact .inl (bare mentions)
    · cases mentions with
      | self => exact .inr rfl
      | nested generic member deeper =>
        rw [List.mem_singleton.mp generic] at member
        rw [List.mem_singleton.mp member] at deeper
        exact .inr (bare deeper)
    · exact .inl (bare mentions)
  rcases names with rfl | rfl <;> decide +kernel

theorem bag_well_formed : ∃ s, collectAll eachSignatures [callOfNew] = .ok s ∧
    (s.stop eachSignatures).1.map (fun file => (file.1, file.2.members.filterMap Member.defined)) =
      [("bag.rbs", [(.SINGLETON, "new"), (.INSTANCE, "each")])] ∧
      ∀ file ∈ (s.stop eachSignatures).1, file.2.WellFormed eachSignatures := by
  have checked : (collectAll eachSignatures [callOfNew]).toOption.any (fun s =>
      (s.stop eachSignatures).1.map (fun file => (file.1, file.2.members.filterMap Member.defined)) =
        [("bag.rbs", [(.SINGLETON, "new"), (.INSTANCE, "each")])]) = true := by
    decide +kernel
  obtain ⟨s, run, checked⟩ := exists_of_any checked
  exact ⟨s, run, of_decide_eq_true checked,
    generated_declarations_well_formed eachSignatures_wellFormed callOfNew_announced run⟩

end Racer
