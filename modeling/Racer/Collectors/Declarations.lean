import Racer.Collectors.Overloads

namespace Racer
open Outcome

/-! The declarations of `stop`, from what can be looked up in the existing types. -/

section
variable {env : Environment} {existingTypes existingTypes' : OrderedHash String ExistingType}

theorem genericArgumentsOfClass_congr (same : ∀ n, existingTypes.get? n = existingTypes'.get? n) :
    genericArgumentsOfClass existingTypes = genericArgumentsOfClass existingTypes' := by
  funext name arguments
  rw [genericArgumentsOfClass, same, genericArgumentsOfClass]

mutual

theorem constantType_congr (same : ∀ n, existingTypes.get? n = existingTypes'.get? n) (c : ConstantInstance) :
    constantType env existingTypes c = constantType env existingTypes' c := by
  match c with
  | ⟨name, singleton, unions⟩ =>
    rw [constantType, constantType, unionTypes_congr same unions, genericArgumentsOfClass_congr same]

theorem unionTypes_congr (same : ∀ n, existingTypes.get? n = existingTypes'.get? n)
    (unions : List (List ConstantInstance)) :
    unionTypes env existingTypes unions = unionTypes env existingTypes' unions := by
  match unions with
  | [] => rw [unionTypes, unionTypes]
  | union :: unions => rw [unionTypes, unionTypes, convertAll_congr same union, unionTypes_congr same unions]

theorem convertAll_congr (same : ∀ n, existingTypes.get? n = existingTypes'.get? n)
    (constants : List ConstantInstance) :
    convertAll env existingTypes constants = convertAll env existingTypes' constants := by
  match constants with
  | [] => rw [convertAll, convertAll]
  | c :: constants => rw [convertAll, convertAll, constantType_congr same c, convertAll_congr same constants]

end

theorem toRbsType_congr (same : ∀ n, existingTypes.get? n = existingTypes'.get? n) :
    toRbsType env existingTypes = toRbsType env existingTypes' := by
  funext constants
  rw [toRbsType, toRbsType, funext (constantType_congr same)]

theorem methodParameters_congr (same : ∀ n, existingTypes.get? n = existingTypes'.get? n) :
    methodParameters env existingTypes = methodParameters env existingTypes' := by
  have parameter : parameterType env existingTypes = parameterType env existingTypes' := by
    funext type types
    unfold parameterType
    rw [toRbsType_congr same]
  funext paramSets
  unfold methodParameters
  rw [parameter]

theorem toBlock_congr (same : ∀ n, existingTypes.get? n = existingTypes'.get? n) :
    toBlock env existingTypes = toBlock env existingTypes' := by
  funext blockParams
  rw [toBlock, toBlock, blockFunction, blockFunction, methodParameters_congr same, toRbsType_congr same]

theorem methodDefined_congr (same : ∀ n, existingTypes.get? n = existingTypes'.get? n) :
    methodDefined env existingTypes = methodDefined env existingTypes' := by
  funext name kind ownerName
  rw [methodDefined, methodDefined, same]

theorem toMethodDefinition_congr (same : ∀ n, existingTypes.get? n = existingTypes'.get? n) :
    toMethodDefinition env existingTypes = toMethodDefinition env existingTypes' := by
  have overload : toOverload env existingTypes = toOverload env existingTypes' := by
    funext name params traces
    rw [toOverload, toOverload, methodParameters_congr same, toRbsType_congr same, toBlock_congr same]
  funext name kind traces
  unfold toMethodDefinition
  rw [methodDefined_congr same, overload]

theorem toModuleMembers_congr (same : ∀ n, existingTypes.get? n = existingTypes'.get? n) :
    toModuleMembers env existingTypes = toModuleMembers env existingTypes' := by
  have mixins : toMixinDefinitions existingTypes = toMixinDefinitions existingTypes' := by
    funext modules kind
    rw [toMixinDefinitions, toMixinDefinitions, genericArgumentsOfClass_congr same]
  have methods : toMethodDefinitions env existingTypes = toMethodDefinitions env existingTypes' := by
    funext kind methods
    rw [toMethodDefinitions, toMethodDefinitions, toMethodDefinition_congr same]
  have required : requiredInterfaceMembers env existingTypes = requiredInterfaceMembers env existingTypes' := by
    funext ownerName modules existingMethods kind
    simp only [requiredInterfaceMembers, same]
  funext owner
  rw [toModuleMembers, toModuleMembers, mixins, methods, required]

end

def methodsOf (members : List Member) : List MethodDefinition :=
  members.filterMap fun member =>
    match member with
    | .mixin .. => none
    | .method definition => some definition

def Declaration.methods (declaration : Declaration) : List MethodDefinition :=
  methodsOf declaration.members

/-- Declarations of the same class or module with the same methods. -/
structure Declaration.Same (d d' : Declaration) : Prop where
  type : d.type = d'.type
  name : d.name = d'.name
  methods : SameMembers MethodDefinition.Same d.methods d'.methods

theorem methodsOf_append (members members' : List Member) :
    methodsOf (members ++ members') = methodsOf members ++ methodsOf members' :=
  List.filterMap_append

theorem methodsOf_map_method (definitions : List MethodDefinition) :
    methodsOf (definitions.map Member.method) = definitions := by
  rw [methodsOf, List.filterMap_map]
  exact List.filterMap_some

theorem isEmpty_members (mixins : List Member) {definitions definitions' : List MethodDefinition}
    (same : SameMembers MethodDefinition.Same definitions definitions') :
    (mixins ++ definitions.map Member.method).isEmpty = (mixins ++ definitions'.map Member.method).isEmpty := by
  have empty := same.isEmpty_eq
  rw [Bool.eq_iff_iff] at empty ⊢
  simp only [List.isEmpty_iff, List.append_eq_nil_iff, List.map_eq_nil_iff] at empty ⊢
  exact and_congr_right fun _ => empty

section
variable {env : Environment} {existingTypes : OrderedHash String ExistingType}

theorem methodsOf_toMixinDefinitions {modules : List String} {kind : MixinKind} {members : List Member}
    (run : toMixinDefinitions existingTypes modules kind = .ok members) : methodsOf members = [] := by
  refine List.filterMap_eq_nil_iff.mpr fun m member => ?_
  obtain ⟨moduleName, _, made⟩ := SameMembers.image_of_mem (mapM_eq_ok.mp run).flip member
  obtain ⟨args, _, made⟩ := bind_eq_ok.mp made
  cases made
  rfl

theorem noGenericArguments_total (existingTypes : OrderedHash String ExistingType) (name : String) :
    ∃ args, genericArgumentsOfClass existingTypes name [] = .ok args :=
  genericArgumentsOfClass_total name (List.forall_mem_nil _)

theorem toMixinDefinitions_total (existingTypes : OrderedHash String ExistingType) (modules : List String)
    (kind : MixinKind) : ∃ members, toMixinDefinitions existingTypes modules kind = .ok members := by
  refine mapM_total fun moduleName _ => ?_
  exact bind_total (noGenericArguments_total existingTypes moduleName) fun _ => ⟨_, rfl⟩

/-- The traces of every method can be converted. -/
structure Owner.Sound (env : Environment) (owner : Owner) : Prop where
  nonempty : ∀ kind, ∀ entry ∈ (owner.methods kind).entries, entry.2 ≠ []
  traces : ∀ kind, ∀ entry ∈ (owner.methods kind).entries, ∀ t ∈ entry.2, t.Sound env

/-- Owners of one constant whose methods have traces with the same signatures. -/
structure SameOwner (env : Environment) (existingTypes : OrderedHash String ExistingType) (owner owner' : Owner) :
    Prop where
  constant : owner.constant = owner'.constant
  methods : ∀ kind, SameMembers (fun e e' => e.1 = e'.1 ∧
    SameMethod env existingTypes owner.constant.name kind e.1 e.2 e'.2)
    (owner.methods kind).entries (owner'.methods kind).entries

theorem toMethodDefinitions_total (existingTypes : OrderedHash String ExistingType) {owner : Owner}
    (sound : owner.Sound env) (kind : MethodKind) :
    ∃ definitions, toMethodDefinitions env existingTypes kind (owner.methods kind) = .ok definitions := by
  have each : ∀ entry ∈ (owner.methods kind).entries,
      ∃ d, toMethodDefinition env existingTypes entry.1 kind entry.2 = .ok d := fun entry member =>
    toMethodDefinition_total (sound.nonempty kind entry member) (sound.traces kind entry member)
  exact bind_total (mapM_total each) fun _ => ⟨_, rfl⟩

theorem toMethodDefinitions_same {owner owner' : Owner} (same : SameOwner env existingTypes owner owner')
    {kind : MethodKind} {definitions definitions' : List MethodDefinition}
    (run : toMethodDefinitions env existingTypes kind (owner.methods kind) = .ok definitions)
    (run' : toMethodDefinitions env existingTypes kind (owner'.methods kind) = .ok definitions') :
    SameMembers MethodDefinition.Same definitions definitions' := by
  obtain ⟨made, each, run⟩ := bind_eq_ok.mp run
  obtain ⟨made', each', run'⟩ := bind_eq_ok.mp run'
  cases run
  cases run'
  have related : SameMembers (Option.Rel MethodDefinition.Same) made made' := by
    refine (same.methods kind).images (mapM_eq_ok.mp each) (mapM_eq_ok.mp each') ?_
    rintro ⟨name, traces⟩ _ ⟨name', traces'⟩ _ ⟨rfl, method⟩ d d' definition definition'
    exact toMethodDefinition_same method definition definition'
  exact related.filterMap fun _ _ => id

theorem SameOwner.isSome {owner owner' : Owner} (same : SameOwner env existingTypes owner owner') (kind : MethodKind)
    (name : String) : ((owner.methods kind).get? name).isSome = ((owner'.methods kind).get? name).isSome := by
  rw [Bool.eq_iff_iff, Option.isSome_iff_exists, Option.isSome_iff_exists]
  simp only [← OrderedHash.mem_entries]
  constructor
  · rintro ⟨traces, member⟩
    obtain ⟨⟨_, traces'⟩, there, rfl, _⟩ := (same.methods kind).1 _ member
    exact ⟨traces', there⟩
  · rintro ⟨traces', member⟩
    obtain ⟨⟨_, traces⟩, there, rfl, _⟩ := (same.methods kind).2 _ member
    exact ⟨traces, there⟩

theorem requiredInterfaceMembers_congr {methods methods' : OrderedHash String (List Trace)}
    (same : ∀ name, (methods.get? name).isSome = (methods'.get? name).isSome) (ownerName : String)
    (modules : List String) (kind : MethodKind) :
    requiredInterfaceMembers env existingTypes ownerName modules methods kind =
      requiredInterfaceMembers env existingTypes ownerName modules methods' kind := by
  simp only [requiredInterfaceMembers, same]

theorem toModuleMembers_total (existingTypes : OrderedHash String ExistingType) {owner : Owner}
    (sound : owner.Sound env) : ∃ members, toModuleMembers env existingTypes owner = .ok members := by
  unfold toModuleMembers
  refine bind_total (toMixinDefinitions_total existingTypes owner.constant.extendedModules .extend) fun _ => ?_
  refine bind_total (toMixinDefinitions_total existingTypes owner.constant.prependedModules .prepend) fun _ => ?_
  refine bind_total (toMixinDefinitions_total existingTypes owner.constant.includedModules .include) fun _ => ?_
  refine bind_total (toMethodDefinitions_total existingTypes sound .INSTANCE) fun _ => ?_
  refine bind_total (toMethodDefinitions_total existingTypes sound .SINGLETON) fun _ => ?_
  exact ⟨_, rfl⟩

theorem toModuleMembers_same {owner owner' : Owner} (same : SameOwner env existingTypes owner owner')
    {members members' : List Member} (run : toModuleMembers env existingTypes owner = .ok members)
    (run' : toModuleMembers env existingTypes owner' = .ok members') :
    SameMembers MethodDefinition.Same (methodsOf members) (methodsOf members') ∧
      members.isEmpty = members'.isEmpty := by
  unfold toModuleMembers at run run'
  rw [← same.constant] at run'
  obtain ⟨extensions, first, run⟩ := bind_eq_ok.mp run
  obtain ⟨prepends, second, run⟩ := bind_eq_ok.mp run
  obtain ⟨includes, third, run⟩ := bind_eq_ok.mp run
  obtain ⟨instanceMethods, fourth, run⟩ := bind_eq_ok.mp run
  obtain ⟨singletonMethods, fifth, run⟩ := bind_eq_ok.mp run
  obtain ⟨_, first', run'⟩ := bind_eq_ok.mp run'
  obtain ⟨_, second', run'⟩ := bind_eq_ok.mp run'
  obtain ⟨_, third', run'⟩ := bind_eq_ok.mp run'
  obtain ⟨instanceMethods', fourth', run'⟩ := bind_eq_ok.mp run'
  obtain ⟨singletonMethods', fifth', run'⟩ := bind_eq_ok.mp run'
  cases first.symm.trans first'
  cases second.symm.trans second'
  cases third.symm.trans third'
  have known : ∀ n, (owner.instanceMethods.get? n).isSome = (owner'.instanceMethods.get? n).isSome :=
    same.isSome .INSTANCE
  have known' : ∀ n, (owner.singletonMethods.get? n).isSome = (owner'.singletonMethods.get? n).isSome :=
    same.isSome .SINGLETON
  rw [← requiredInterfaceMembers_congr known, ← requiredInterfaceMembers_congr known'] at run'
  cases run
  cases run'
  have mixins : methodsOf (extensions ++ prepends ++ includes) = [] := by
    rw [methodsOf_append, methodsOf_append, methodsOf_toMixinDefinitions first, methodsOf_toMixinDefinitions second,
      methodsOf_toMixinDefinitions third]
    rfl
  have generated := (toMethodDefinitions_same same fourth fourth').append (toMethodDefinitions_same same fifth fifth')
  have methods (required : List MethodDefinition) := generated.append
    (SameMembers.of_mem_iff (fun d _ => MethodDefinition.Same.refl d) fun d => (Iff.rfl : d ∈ required ↔ _))
  refine ⟨?_, ?_⟩
  · rw [methodsOf_append _ (List.map _ _), methodsOf_append _ (List.map _ _), mixins, methodsOf_map_method,
      methodsOf_map_method]
    exact methods _
  · exact isEmpty_members _ (methods _)

theorem superClassOf_total (s : RBSCollector) (owner : Constant) :
    ∃ superClass, superClassOf s owner = .ok superClass := by
  unfold superClassOf
  split
  · exact ⟨none, rfl⟩
  next superclass _ =>
    split
    · exact ⟨_, rfl⟩
    · exact bind_total (noGenericArguments_total s.existingTypes superclass) fun _ => ⟨_, rfl⟩

/-- A declaration is made of an owner, unless `find_self_types` raises. -/
theorem toDeclaration_total {s : RBSCollector} {owner : Owner} (sound : owner.Sound env)
    (selfTypes : owner.constant.type = .MODULE →
      ∃ types, findSelfTypes s (s.results.entries.length + 1) owner.constant = .ok types) :
    ∃ d, toDeclaration env s owner = .ok d := by
  have members := toModuleMembers_total s.existingTypes sound
  unfold toDeclaration
  cases type : owner.constant.type with
  | CLASS =>
    simp only
    refine bind_total (superClassOf_total s owner.constant) fun _ => ?_
    exact bind_total members fun _ => ⟨_, rfl⟩
  | MODULE =>
    simp only
    refine bind_total (selfTypes type) fun _ => ?_
    exact bind_total members fun _ => ⟨_, rfl⟩

/-- The members of a declaration are those of its owner. -/
theorem toDeclaration_members {s : RBSCollector} {owner : Owner} {d : Declaration}
    (run : toDeclaration env s owner = .ok d) :
    d.type = owner.constant.type ∧ d.name = toTypeName owner.constant.name ∧
      toModuleMembers env s.existingTypes owner = .ok d.members := by
  unfold toDeclaration at run
  cases type : owner.constant.type with
  | CLASS =>
    rw [type] at run
    obtain ⟨_, _, run⟩ := bind_eq_ok.mp run
    obtain ⟨members, made, run⟩ := bind_eq_ok.mp run
    cases run
    exact ⟨rfl, rfl, made⟩
  | MODULE =>
    rw [type] at run
    obtain ⟨_, _, run⟩ := bind_eq_ok.mp run
    obtain ⟨members, made, run⟩ := bind_eq_ok.mp run
    cases run
    exact ⟨rfl, rfl, made⟩

theorem toDeclaration_same {s s' : RBSCollector} (types : ∀ n, s.existingTypes.get? n = s'.existingTypes.get? n)
    {owner owner' : Owner} (same : SameOwner env s.existingTypes owner owner') {d d' : Declaration}
    (run : toDeclaration env s owner = .ok d) (run' : toDeclaration env s' owner' = .ok d') :
    d.Same d' ∧ d.members.isEmpty = d'.members.isEmpty := by
  obtain ⟨type, name, members⟩ := toDeclaration_members run
  obtain ⟨type', name', members'⟩ := toDeclaration_members run'
  rw [← toModuleMembers_congr types] at members'
  rw [← same.constant] at type' name'
  obtain ⟨methods, empty⟩ := toModuleMembers_same same members members'
  exact ⟨⟨type.trans type'.symm, name.trans name'.symm, methods⟩, empty⟩

end

/-- What is on the disk in the end: a file that is written again replaces the earlier one. -/
def contents (files : List (String × Declaration)) : OrderedHash String Declaration :=
  files.foldl (fun written (path, declaration) => written.store path declaration) .empty

theorem contents_append (files : List (String × Declaration)) (path : String) (d : Declaration) :
    contents (files ++ [(path, d)]) = (contents files).store path d := by
  rw [contents, List.foldl_append]
  rfl

/-- Every file on the disk has been written. -/
theorem mem_of_get?_contents {files : List (String × Declaration)} {path : String} {d : Declaration}
    (there : (contents files).get? path = some d) : (path, d) ∈ files := by
  induction files using List.reverseRecOn with
  | nil => simp [contents] at there
  | append_singleton files file ih =>
    obtain ⟨lastPath, last⟩ := file
    rw [contents_append, OrderedHash.get?_store] at there
    split at there
    next here =>
      cases there
      rw [here]
      exact List.mem_append_right _ List.mem_cons_self
    next => exact List.mem_append_left _ (ih there)

/-- Where no file is written twice, the contents are the files. -/
theorem get?_contents {files : List (String × Declaration)}
    (once : ∀ path d d', (path, d) ∈ files → (path, d') ∈ files → d = d') {path : String} {d : Declaration} :
    (contents files).get? path = some d ↔ (path, d) ∈ files := by
  induction files using List.reverseRecOn with
  | nil => simp [contents]
  | append_singleton files file ih =>
    obtain ⟨lastPath, last⟩ := file
    have before := ih fun path d d' member member' =>
      once path d d' (List.mem_append_left _ member) (List.mem_append_left _ member')
    rw [contents_append, OrderedHash.get?_store]
    by_cases here : path = lastPath
    · subst here
      have inLast : (path, last) ∈ files ++ [(path, last)] := by simp
      rw [if_pos rfl, Option.some.injEq]
      exact ⟨fun same => same ▸ inLast, fun member => once path last d inLast member⟩
    · rw [if_neg here, before, List.mem_append, List.mem_singleton, Prod.mk.injEq]
      simp [here]

section
variable {env : Environment} {s : RBSCollector}

/-- Without an exception `stop` writes a file for every owner that needs one. -/
theorem writeOwners_ok {owners : List (String × Owner)}
    (each : ∀ entry ∈ owners, ∃ d, toDeclaration env s entry.2 = .ok d) :
    (writeOwners env s owners).2 = none ∧ ∀ file, file ∈ (writeOwners env s owners).1 ↔
      ∃ entry ∈ owners, fileName env entry.1 = file.1 ∧ toDeclaration env s entry.2 = .ok file.2 ∧
        (file.2.members.isEmpty && (s.existingTypes.get? entry.1).isSome) = false := by
  induction owners with
  | nil => exact ⟨rfl, by simp [writeOwners]⟩
  | cons entry owners ih =>
    obtain ⟨ownerName, owner⟩ := entry
    obtain ⟨d, made⟩ := each (ownerName, owner) List.mem_cons_self
    obtain ⟨returns, files⟩ := ih fun e member => each e (List.mem_cons_of_mem _ member)
    simp only at made
    rw [writeOwners, made]
    simp only
    split
    next skipped =>
      refine ⟨returns, fun ⟨path, declaration⟩ => ?_⟩
      rw [files, List.exists_mem_cons_iff]
      refine ⟨.inr, fun written => written.resolve_left ?_⟩
      rintro ⟨_, again, needed⟩
      cases made.symm.trans again
      rw [skipped] at needed
      cases needed
    next needed =>
      rw [Bool.not_eq_true] at needed
      refine ⟨returns, fun ⟨path, declaration⟩ => ?_⟩
      rw [List.mem_cons, files, List.exists_mem_cons_iff, Prod.mk.injEq]
      refine or_congr_left ⟨?_, ?_⟩
      · rintro ⟨rfl, rfl⟩
        exact ⟨rfl, made, needed⟩
      · rintro ⟨rfl, again, _⟩
        cases made.symm.trans again
        exact ⟨rfl, rfl⟩

theorem writeOwners_each {owners : List (String × Owner)} (returns : (writeOwners env s owners).2 = none) :
    ∀ entry ∈ owners, ∃ d, toDeclaration env s entry.2 = .ok d := by
  induction owners with
  | nil => simp
  | cons entry owners ih =>
    obtain ⟨ownerName, owner⟩ := entry
    rw [writeOwners] at returns
    cases made : toDeclaration env s owner with
    | error raised =>
      rw [made] at returns
      cases returns
    | ok d =>
      rw [made] at returns
      simp only at returns
      refine List.forall_mem_cons.mpr ⟨⟨d, made⟩, ih ?_⟩
      split at returns <;> exact returns

end

end Racer
