import Racer.Collectors.BlockCoverage
import Racer.Collectors.Closed

namespace Racer
open Outcome

/-! Whether the signatures that `stop` writes allow the calls of which they are made. -/

section
variable (env : Environment)

/-- A constant that `to_rbs_type` does not take for another one, whatever else is in its list. -/
structure ConstantInstance.Plain (c : ConstantInstance) : Prop where
  arity : c.Arity
  full : ∀ u ∈ c.genericArguments, u ≠ []
  name : c.literal = false → ∃ n, validName env c.name = .ok n
  notBool : c.name ≠ "bool"
  object : c.singleton = true → c.literal = false ∧ c.name ≠ "Array" ∧ c.name ≠ "Hash"

/-- The same of all that it is nested of. -/
def ConstantInstance.Unmistaken (c : ConstantInstance) : Prop :=
  ∀ union, UnionIn [c] union → ∀ d ∈ union, d.Plain env

/-- The constants of a call: its parameters with their elements, its result and those of its block. -/
def Trace.instances (t : Trace) : List ConstantInstance :=
  t.params.flatMap (fun p => p.typeName :: p.typeName.genericArguments.flatten) ++
    t.returnType :: (t.blockParam.toList.flatMap (·.traces)).flatMap (·.instances)

/-- The overload allows the call: it has a place for each parameter, of a type that covers
what was passed there, and its result and its block cover what was observed. -/
structure Overload.Admits (o : Overload) (t : Trace) : Prop where
  parameters : ∀ (n : Nat) p, t.params[n]? = some p → ∃ placed, o.parameters.slot (t.params.take n) p = some placed ∧
    ∀ c ∈ p.observed, Covers env placed.type c
  returnType : t.methodName ≠ "initialize" → Covers env o.returnType t.returnType
  block : ∀ b ∈ t.blockParam, ∃ block, o.block = some block ∧ ∀ x ∈ b.traces, block.CoversCall env x
  noBlock : t.blockParam = none → o.block = none

end

section
variable {env : Environment} {existingTypes : OrderedHash String ExistingType}

theorem UnionIn.nil_or {constants union : List ConstantInstance} (within : UnionIn constants union) :
    union = constants ∨ ∃ c ∈ constants, ∃ u ∈ c.genericArguments, UnionIn u union := by
  induction within with
  | self => exact .inl rfl
  | nested _ member generic ih =>
    rcases ih with rfl | ⟨c, inside, u, own, deeper⟩
    · exact .inr ⟨_, member, _, generic, .self⟩
    · exact .inr ⟨c, inside, u, own, .nested deeper member generic⟩

theorem ConstantInstance.Unmistaken.self {c : ConstantInstance} (unmistaken : c.Unmistaken env) : c.Plain env :=
  unmistaken [c] .self c (List.mem_singleton_self c)

theorem ConstantInstance.Unmistaken.inner {c d : ConstantInstance} {u : List ConstantInstance}
    (unmistaken : c.Unmistaken env) (generic : u ∈ c.genericArguments) (member : d ∈ u) : d.Unmistaken env := by
  intro union within e inside
  have own : UnionIn [c] u := .nested .self (List.mem_singleton_self c) generic
  rcases within.nil_or with rfl | ⟨f, same, v, generic', deeper⟩
  · rw [List.mem_singleton.mp inside]
    exact unmistaken u own d member
  · rw [List.mem_singleton.mp same] at generic'
    exact unmistaken union (.trans (.nested own member generic') deeper) e inside

/-- Class objects are of other names than what prunes or merges them. -/
theorem Convertible.of_plain {constants : List ConstantInstance} (plain : ∀ c ∈ constants, c.Plain env) :
    Convertible env constants := by
  have arity : ∀ c ∈ constants, c.Arity := fun c member => (plain c member).arity
  refine ⟨fun c member => (plain c member).name, fun c member => ?_⟩
  have own := plain c member
  cases literal : c.literal with
  | true =>
    left
    have value : c.singleton = false := by
      refine Bool.eq_false_iff.mpr fun object => ?_
      have other := (own.object object).1
      rw [literal] at other
      cases other
    have names : isBoolean c = true ∨ c.name = "NilClass" := by
      simp only [ConstantInstance.literal, Bool.or_eq_true, decide_eq_true_eq] at literal
      exact literal.resolve_right own.notBool
    rcases names with boolean | nil
    · simp [ConstantInstance.isLiteralValue, value, boolean]
    · simp [ConstantInstance.isLiteralValue, value, nil]
  | false =>
    right
    have merged : c ∈ mergeBooleans (uniq constants) :=
      mem_mergeBooleans.mpr (.inl ⟨mem_uniq.mpr member, (literal_eq_false.mp literal).1⟩)
    rcases mem_deleteBare_of_mem merged with kept | ⟨_, superseded⟩
    · exact ⟨c, member, literal, (mem_survivors_iff.mp kept).2, rfl, rfl⟩
    · -- an array or a hash with generic arguments is never pruned itself
      obtain ⟨d, inside, named⟩ := List.any_eq_true.mp superseded
      simp only [parameterised, Bool.and_eq_true, decide_eq_true_eq, Bool.not_eq_true'] at named
      obtain ⟨same, full⟩ := named
      have observed : d ∈ constants := by
        rcases mem_mergeBooleans.mp inside with ⟨old, _⟩ | ⟨rfl, _⟩
        · exact mem_uniq.mp old
        · cases full
      have collection := Arity.collection (arity d observed) full
      have value {e : ConstantInstance} (other : e ∈ constants) (collection : e.name = "Array" ∨ e.name = "Hash") :
          e.singleton = false := by
        refine Bool.eq_false_iff.mpr fun object => ?_
        obtain ⟨-, notArray, notHash⟩ := (plain e other).object object
        exact collection.elim notArray notHash
      rcases mem_survivors arity inside with kept | ⟨bare, _⟩
      · refine ⟨d, observed, ?_, (mem_survivors_iff.mp kept).2, ?_, by rw [same]⟩
        · rcases collection with name | name <;> simp [ConstantInstance.literal, isBoolean, name]
        · rw [value observed collection, value member (same ▸ collection)]
      · rw [full] at bare
        cases bare

/-- Lists of such constants are converted soundly. -/
theorem convertsSoundly_of_unmistaken (capitals : env.KeepsCapitals) (collections : CollectionTypes existingTypes)
    {constants : List ConstantInstance} (nonempty : constants ≠ [])
    (unmistaken : ∀ c ∈ constants, c.Unmistaken env) : ConvertsSoundly env existingTypes constants := by
  have each : ∀ union, UnionIn constants union → union ≠ [] ∧ ∀ c ∈ union, c.Unmistaken env := by
    intro union within
    induction within with
    | self => exact ⟨nonempty, unmistaken⟩
    | nested _ member generic ih =>
      exact ⟨(ih.2 _ member).self.full _ generic, fun d inside => (ih.2 _ member).inner generic inside⟩
  have observed : Observed constants :=
    fun union within => ⟨(each union within).1, fun c member => ((each union within).2 c member).self.arity⟩
  refine (toRbsType_sound_iff capitals collections observed).mpr (fun union within => ?_) constants .self
  exact .of_plain fun c member => ((each union within).2 c member).self

theorem ConvertsSoundly.covers {constants : List ConstantInstance} (sound : ConvertsSoundly env existingTypes constants)
    {t : RbsType} (run : toRbsType env existingTypes constants = .ok t) : ∀ c ∈ constants, Covers env t c := by
  obtain ⟨t', run', covers⟩ := sound
  rw [run, Except.ok.injEq] at run'
  exact run' ▸ covers

/-- The type of a parameter covers what was passed for it. -/
theorem parameterType_covers (capitals : env.KeepsCapitals) (collections : CollectionTypes existingTypes)
    {p : Trace.Param} (unmistaken : p.typeName.Unmistaken env) {t : RbsType}
    (run : parameterType env existingTypes p.type [p.typeName] = .ok t) : ∀ c ∈ p.observed, Covers env t c := by
  unfold Trace.Param.observed
  cases rest : p.type.isRest with
  | true =>
    rw [parameterType_rest rest] at run
    cases elements : p.elements with
    | none => exact fun c member => (List.not_mem_nil member).elim
    | some union =>
      have generic := mem_generic_of_elements elements
      rw [elements] at run
      have sound := convertsSoundly_of_unmistaken capitals collections (unmistaken.self.full union generic)
        fun c member => unmistaken.inner generic member
      exact sound.covers run
  | false =>
    rw [parameterType_plain rest] at run
    have sound := convertsSoundly_of_unmistaken capitals collections (List.cons_ne_nil p.typeName []) fun c member =>
      List.mem_singleton.mp member ▸ unmistaken
    exact sound.covers run

/-- What the tracer and Ruby promise of the traces of one overload. -/
structure Observable (env : Environment) (traces : List Trace) : Prop where
  unmistaken : ∀ t ∈ traces, ∀ c ∈ t.instances, c.Unmistaken env
  slots : ∀ t ∈ traces, FunctionParameters.SingleSlots t.params
  blocks : ∀ t ∈ traces, ∀ b ∈ t.blockParam, b.traces.length ≤ 1 ∧
    ∀ x ∈ b.traces, FunctionParameters.SingleSlots x.params

theorem Observable.subset {traces traces' : List Trace} (observable : Observable env traces)
    (subset : ∀ t ∈ traces', t ∈ traces) : Observable env traces' :=
  ⟨fun t member => observable.unmistaken t (subset t member), fun t member => observable.slots t (subset t member),
    fun t member => observable.blocks t (subset t member)⟩

theorem mem_blockTraces_iff {traces : List Trace} {x : Trace.BlockTrace} :
    x ∈ blockTraces traces ↔ ∃ t ∈ traces, ∃ b ∈ t.blockParam, x ∈ b.traces := by
  rw [blockTraces, List.mem_flatMap]
  constructor
  · rintro ⟨b, inside, call⟩
    obtain ⟨t, there, block⟩ := List.mem_filterMap.mp inside
    exact ⟨t, there, b, block, call⟩
  · rintro ⟨t, there, b, block, call⟩
    exact ⟨b, List.mem_filterMap.mpr ⟨t, there, block⟩, call⟩

theorem Trace.mem_instances {t : Trace} {c : ConstantInstance} : c ∈ t.instances ↔
    (∃ p ∈ t.params, c = p.typeName ∨ ∃ u ∈ p.typeName.genericArguments, c ∈ u) ∨ c = t.returnType ∨
      ∃ b ∈ t.blockParam, ∃ x ∈ b.traces, c ∈ x.instances := by
  simp only [Trace.instances, List.mem_append, List.mem_flatMap, List.mem_cons, List.mem_flatten, Option.mem_toList]
  constructor
  · rintro (params | rfl | ⟨x, ⟨b, block, call⟩, inside⟩)
    · exact .inl params
    · exact .inr (.inl rfl)
    · exact .inr (.inr ⟨b, block, x, call, inside⟩)
  · rintro (params | rfl | ⟨b, block, x, call, inside⟩)
    · exact .inl params
    · exact .inr (.inl rfl)
    · exact .inr (.inr ⟨x, ⟨b, block, call⟩, inside⟩)

theorem Observable.soundFor (capitals : env.KeepsCapitals) (collections : CollectionTypes existingTypes)
    {traces : List Trace} (observable : Observable env traces) :
    SoundFor env existingTypes (blockTraces traces) := by
  intro constants nonempty inside
  refine convertsSoundly_of_unmistaken capitals collections nonempty fun c member => ?_
  obtain ⟨x, call, here⟩ := inside c member
  obtain ⟨t, there, b, block, within⟩ := mem_blockTraces_iff.mp call
  exact observable.unmistaken t there c (Trace.mem_instances.mpr (.inr (.inr ⟨b, block, x, within, here⟩)))

theorem Observable.oneOverload {traces : List Trace} (observable : Observable env traces)
    (keys : ∀ t ∈ traces, ∀ u ∈ traces, t.overloadKey = u.overloadKey) : OneOverload traces := by
  refine ⟨keys, fun t member b block => (observable.blocks t member b block).1, fun x call => ?_⟩
  obtain ⟨t, there, b, block, within⟩ := mem_blockTraces_iff.mp call
  exact (observable.blocks t there b block).2 x within

theorem Observable.full {traces : List Trace} (observable : Observable env traces) :
    ∀ x ∈ blockTraces traces, ∀ p ∈ x.params, ∀ u ∈ p.typeName.genericArguments, u ≠ [] := by
  intro x call p param u generic
  obtain ⟨t, there, b, block, within⟩ := mem_blockTraces_iff.mp call
  have inside := (mem_instances_of_param param).1
  have unmistaken := observable.unmistaken t there p.typeName
    (Trace.mem_instances.mpr (.inr (.inr ⟨b, block, x, within, inside⟩)))
  exact unmistaken.self.full u generic

/-- An overload allows every call that it is made of. -/
theorem toOverload_admits (capitals : env.KeepsCapitals) (collections : CollectionTypes existingTypes)
    {traces : List Trace} (observable : Observable env traces)
    (keys : ∀ t ∈ traces, ∀ u ∈ traces, t.overloadKey = u.overloadKey)
    (rests : RestsCovered env existingTypes (blockTraces traces)) {name : String} {t : Trace} (member : t ∈ traces)
    (named : t.methodName = name) {o : Overload} (run : toOverload env existingTypes name t.params traces = .ok o) :
    o.Admits env t := by
  have unmistaken := observable.unmistaken t member
  unfold toOverload at run
  obtain ⟨parameters, made, run⟩ := bind_eq_ok.mp run
  obtain ⟨returnType, returns, run⟩ := bind_eq_ok.mp run
  obtain ⟨block, built, run⟩ := bind_eq_ok.mp run
  cases run
  refine ⟨fun n p atN => ?_, fun ordinary => ?_, fun b atBlock => ?_, fun noBlock => ?_⟩
  · rw [methodParameters_single] at made
    obtain ⟨types, each, rfl⟩ := map_eq_ok.mp made
    have images := mapM_eq_ok.mp each
    have names : (t.params.zip types).map Prod.fst = t.params := List.map_fst_zip images.length_eq.le
    obtain ⟨inside, here⟩ := List.getElem?_eq_some_iff.mp atN
    have inTypes : n < types.length := images.length_eq ▸ inside
    have entry : (t.params.zip types)[n]? = some (p, types[n]) :=
      List.getElem?_zip_eq_some.mpr ⟨atN, List.getElem?_eq_getElem inTypes⟩
    have single : FunctionParameters.SingleSlots ((t.params.zip types).map Prod.fst) :=
      names.symm ▸ observable.slots t member
    obtain ⟨placed, found, type⟩ := (FunctionParameters.slot_ofTypes single).2 n _ entry
    rw [List.map_take, names] at found
    have converted := (List.forall₂_iff_get.mp images).2 n inside inTypes
    simp only [List.get_eq_getElem, here] at converted
    have param : p ∈ t.params := List.mem_of_getElem? atN
    refine ⟨placed, found, ?_⟩
    rw [type]
    exact parameterType_covers capitals collections
      (unmistaken _ (Trace.mem_instances.mpr (.inl ⟨p, param, .inl rfl⟩))) converted
  · rw [if_neg (named ▸ ordinary)] at returns
    have inside : t.returnType ∈ traces.map (·.returnType) := List.mem_map_of_mem member
    have sound := convertsSoundly_of_unmistaken capitals collections (List.ne_nil_of_mem inside) fun c returned => by
      obtain ⟨u, there, rfl⟩ := List.mem_map.mp returned
      exact observable.unmistaken u there _ (Trace.mem_instances.mpr (.inr (.inl rfl)))
    exact sound.covers returns _ inside
  · have some : traces.filterMap (·.blockParam) ≠ [] :=
      List.ne_nil_of_mem (List.mem_filterMap.mpr ⟨t, member, atBlock⟩)
    rw [if_neg (by simpa using some)] at built
    obtain ⟨made', same, rfl⟩ := map_eq_ok.mp built
    obtain ⟨block', again, covers⟩ := toBlock_covers_iff (observable.oneOverload keys) observable.full
      (observable.soundFor capitals collections)
    rw [again, Except.ok.injEq] at same
    subst same
    exact ⟨block', rfl, fun x call => covers.mpr rests x (mem_blockTraces_iff.mpr ⟨t, member, b, atBlock, call⟩)⟩
  · have none : traces.filterMap (·.blockParam) = [] := by
      refine List.filterMap_eq_nil_iff.mpr fun u there => ?_
      have key := congrArg Prod.snd (keys t member u there)
      simp only [Trace.overloadKey, noBlock, Option.map_none] at key
      exact Option.map_eq_none_iff.mp key.symm
    rw [none] at built
    cases built
    rfl

/-- The traces of the method of a trace. -/
def methodTraces (traces : List Trace) (t : Trace) : List Trace :=
  traces.filter (Trace.isOf t.owner.name t.methodKind t.methodName)

/-- Those that the overload of the trace is made of. -/
def overloadTraces (traces : List Trace) (t : Trace) : List Trace :=
  (firstOfEach (methodTraces traces t)).filter (·.overloadKey = t.overloadKey)

theorem Overload.Admits.of_signature {o : Overload} {t u : Trace} (admits : o.Admits env u)
    (same : u.signature = t.signature) (name : u.methodName = t.methodName) : o.Admits env t := by
  obtain ⟨params, rest⟩ := Prod.mk.inj same
  obtain ⟨returnType, block⟩ := Prod.mk.inj rest
  exact ⟨params ▸ admits.parameters, name ▸ returnType ▸ admits.returnType, block ▸ admits.block,
    block ▸ admits.noBlock⟩

/-- The definition of a method has an overload for every call of it. -/
theorem toMethodDefinition_admits (capitals : env.KeepsCapitals) (collections : CollectionTypes existingTypes)
    {traces : List Trace} (observable : Observable env traces) {name : String} {kind : MethodKind}
    (undefined : ∀ t ∈ traces, methodDefined env existingTypes name kind t.methodOwner.name = false)
    {definition : Option MethodDefinition}
    (run : toMethodDefinition env existingTypes name kind traces = .ok definition) :
    ∃ d, definition = some d ∧ d.name = name ∧ d.kind = kind ∧ ∀ t ∈ traces, t.methodName = name →
      RestsCovered env existingTypes (blockTraces (traces.filter (·.overloadKey = t.overloadKey))) →
        ∃ o ∈ d.overloads, o.Admits env t := by
  unfold toMethodDefinition at run
  split at run
  next => cases run
  next first rest =>
    rw [if_neg (by rw [undefined first List.mem_cons_self]; exact Bool.false_ne_true)] at run
    obtain ⟨overloads, each, run⟩ := bind_eq_ok.mp run
    cases run
    refine ⟨_, rfl, rfl, rfl, fun t member named rests => ?_⟩
    have group : (t.overloadKey, (first :: rest).filter (·.overloadKey = t.overloadKey)) ∈
        (OrderedHash.groupBy Trace.overloadKey (first :: rest)).entries :=
      OrderedHash.mem_groupBy.mpr ⟨rfl, List.ne_nil_of_mem (List.mem_filter.mpr ⟨member, decide_eq_true rfl⟩)⟩
    obtain ⟨o, inside, made⟩ := SameMembers.image_of_mem (mapM_eq_ok.mp each) group
    refine ⟨o, inside, toOverload_admits capitals collections
      (observable.subset fun u there => (List.mem_filter.mp there).1) (fun u inU v inV => ?_) rests
      (List.mem_filter.mpr ⟨member, decide_eq_true rfl⟩) named made⟩
    have left : u.overloadKey = t.overloadKey := by simpa using (List.mem_filter.mp inU).2
    have right : v.overloadKey = t.overloadKey := by simpa using (List.mem_filter.mp inV).2
    exact left.trans right.symm

/-- The methods that are made of the traces are members of the declaration. -/
theorem mem_methods_of_toModuleMembers {owner : Owner} {members : List Member}
    (run : toModuleMembers env existingTypes owner = .ok members) {kind : MethodKind} {name : String}
    {traces : List Trace} (filed : (owner.methods kind).get? name = some traces) :
    ∃ definition, toMethodDefinition env existingTypes name kind traces = .ok definition ∧
      ∀ d ∈ definition, d ∈ methodsOf members := by
  unfold toModuleMembers at run
  obtain ⟨_, _, run⟩ := bind_eq_ok.mp run
  obtain ⟨_, _, run⟩ := bind_eq_ok.mp run
  obtain ⟨_, _, run⟩ := bind_eq_ok.mp run
  obtain ⟨instanceMethods, ofInstance, run⟩ := bind_eq_ok.mp run
  obtain ⟨singletonMethods, ofSingleton, run⟩ := bind_eq_ok.mp run
  cases run
  have each {methods : OrderedHash String (List Trace)} {definitions : List MethodDefinition}
      (made : toMethodDefinitions env existingTypes kind methods = .ok definitions)
      (filed : methods.get? name = some traces) :
      ∃ definition, toMethodDefinition env existingTypes name kind traces = .ok definition ∧
        ∀ d ∈ definition, d ∈ definitions := by
    obtain ⟨all, converted, same⟩ := bind_eq_ok.mp made
    cases same
    obtain ⟨definition, inside, defined⟩ :=
      SameMembers.image_of_mem (mapM_eq_ok.mp converted) (OrderedHash.mem_entries.mpr filed)
    exact ⟨definition, defined, fun d some => List.mem_filterMap.mpr ⟨definition, inside, some⟩⟩
  simp only [methodsOf_append, methodsOf_map_method, List.mem_append]
  cases kind with
  | INSTANCE =>
    obtain ⟨definition, defined, inside⟩ := each ofInstance filed
    exact ⟨definition, defined, fun d some => .inr (.inl (.inl (inside d some)))⟩
  | SINGLETON =>
    obtain ⟨definition, defined, inside⟩ := each ofSingleton filed
    exact ⟨definition, defined, fun d some => .inr (.inl (.inr (inside d some)))⟩

/-- A call that has been collected, or one with its signature, has an overload. -/
theorem admits_of_collected (capitals : env.KeepsCapitals) {constants : List Constant} {traces : List Trace}
    {s : RBSCollector} (collected : Collected env constants traces s) (returns : (s.stop env).2 = none)
    (collections : CollectionTypes s.existingTypes) {t : Trace} (member : t ∈ traces)
    (valid : validMethodName t.methodName = true) (observable : Observable env (methodTraces traces t))
    (undefined : ∀ u ∈ methodTraces traces t,
      methodDefined env s.existingTypes t.methodName t.methodKind u.methodOwner.name = false)
    (rests : RestsCovered env s.existingTypes (blockTraces (overloadTraces traces t))) :
    ∃ file ∈ (s.stop env).1, file.2.name = toTypeName t.owner.name ∧
      ∃ d ∈ file.2.methods, d.name = t.methodName ∧ d.kind = t.methodKind ∧ ∃ o ∈ d.overloads, o.Admits env t := by
  have own : t ∈ methodTraces traces t :=
    List.mem_filter.mpr ⟨member, Trace.isOf_iff.mpr ⟨valid, rfl, rfl, rfl⟩⟩
  obtain ⟨u, kept, same⟩ := exists_firstOfEach own
  have inside : u ∈ methodTraces traces t := mem_of_mem_firstOfEach kept
  obtain ⟨-, -, -, named⟩ := Trace.isOf_iff.mp (List.mem_filter.mp inside).2
  have filed : s.traces t.owner.name t.methodKind t.methodName = firstOfEach (methodTraces traces t) :=
    collected.filed t.owner.name t.methodKind t.methodName
  obtain ⟨owner, found, group⟩ : ∃ owner, s.results.get? t.owner.name = some owner ∧
      (owner.methods t.methodKind).get? t.methodName = some (firstOfEach (methodTraces traces t)) := by
    unfold RBSCollector.traces at filed
    cases stored : (s.results.get? t.owner.name).bind fun owner => (owner.methods t.methodKind).get? t.methodName with
    | none =>
      rw [stored] at filed
      exact (List.not_mem_nil (filed ▸ kept)).elim
    | some group =>
      rw [stored] at filed
      obtain ⟨owner, found, group⟩ := Option.bind_eq_some_iff.mp stored
      exact ⟨owner, found, group.trans (congrArg some filed)⟩
  have entry := OrderedHash.mem_entries.mpr found
  obtain ⟨declaration, made⟩ := writeOwners_each returns _ entry
  obtain ⟨-, name, members⟩ := toDeclaration_members made
  obtain ⟨definition, defined, methods⟩ := mem_methods_of_toModuleMembers members group
  have first : ∀ v ∈ firstOfEach (methodTraces traces t), v ∈ methodTraces traces t :=
    fun v there => mem_of_mem_firstOfEach there
  obtain ⟨d, rfl, dName, dKind, admits⟩ := toMethodDefinition_admits capitals collections (observable.subset first)
    (fun v there => undefined v (first v there)) defined
  have declared := methods d rfl
  obtain ⟨o, overload, admitted⟩ := admits u kept named (by
    rw [overloadKey_eq same]
    exact rests)
  have full : declaration.members ≠ [] := by
    intro none
    rw [none] at declared
    exact List.not_mem_nil declared
  refine ⟨(fileName env t.owner.name, declaration), ?_, name.trans (congrArg toTypeName (collected.name_eq found)), d,
    declared, dName, dKind, o, overload, admitted.of_signature same named⟩
  refine ((writeOwners_ok (writeOwners_each returns)).2 _).mpr ⟨_, entry, rfl, made, ?_⟩
  simp [full]

end

/-- Signatures of arrays and hashes. -/
def poolSignatures : Environment :=
  .ofDecls fun n =>
    if n = toTypeName "Array" then some { typeParams := ["Elem"] }
    else if n = toTypeName "Hash" then some { typeParams := ["K", "V"] } else none

/-- `pool.each { |first, *others| .. }`, called with `1, 2` and then with `"a"`, when `Pool` is new. -/
def poolTraces : List Trace :=
  [{ callOfEach integer [[integer]] with
      constantUpdates := ["Pool", "Array", "Hash"].map fun name => { name, type := .CLASS } },
    callOfEach string []]

theorem plain_of_value {env : Environment} {c : ConstantInstance} (arity : c.Arity) (value : c.singleton = false)
    (full : ∀ u ∈ c.genericArguments, u ≠ []) (name : validName env c.name = .ok c.name) (notBool : c.name ≠ "bool") :
    c.Plain env :=
  ⟨arity, full, fun _ => ⟨c.name, name⟩, notBool, fun object => (Bool.false_ne_true (value.symm.trans object)).elim⟩

theorem poolTraces_unmistaken : ∀ t ∈ poolTraces, ∀ c ∈ t.instances, c.Unmistaken poolSignatures := by
  have facts : ∀ c ∈ integer :: poolTraces.flatMap Trace.instances, c.Arity ∧ c.singleton = false ∧
      validName poolSignatures c.name = .ok c.name ∧ c.name ≠ "bool" ∧ ∀ u ∈ c.genericArguments, u = [integer] := by
    decide +kernel
  have plain : ∀ c ∈ integer :: poolTraces.flatMap Trace.instances, c.Plain poolSignatures := by
    intro c member
    obtain ⟨arity, value, name, notBool, generics⟩ := facts c member
    refine plain_of_value arity value (fun u generic => ?_) name notBool
    rw [generics u generic]
    exact List.cons_ne_nil _ _
  intro t member c inside union within d here
  have observed := List.mem_cons_of_mem integer (List.mem_flatMap.mpr ⟨t, member, inside⟩)
  have unions : union ∈ [[c], [integer]] := by
    refine within.mem List.mem_cons_self fun u inU e inE v generic => ?_
    rcases List.mem_pair.mp inU with rfl | rfl <;> rw [List.mem_singleton.mp inE] at generic
    · exact List.mem_pair.mpr (.inr ((facts c observed).2.2.2.2 v generic))
    · exact (List.not_mem_nil generic).elim
  rcases List.mem_pair.mp unions with rfl | rfl <;> rw [List.mem_singleton.mp here]
  · exact plain c observed
  · exact plain integer List.mem_cons_self

end Racer
