import Racer.Collectors.Collected
import Racer.Collectors.Declarations
import Racer.Collectors.SelfTypes

namespace Racer
open Announcements Outcome Relation

/-! The signatures that are generated from the same traces in another order. -/

/-- Every constant that the traces announce. -/
def announced (traces : List Trace) : List Constant :=
  traces.flatMap (·.constantUpdates)

/-- All announcements of a constant are equal. -/
def EqualAnnouncements (constants : List Constant) : Prop :=
  ∀ c ∈ constants, ∀ d ∈ constants, c.name = d.name → c = d

section
variable (env : Environment)

/-- `method_defined?`, when these constants have been announced. -/
def definedIn (constants : List Constant) (name : String) (kind : MethodKind) (ownerName : String) : Bool :=
  (announcement env constants ownerName).isSome && (env.classDecls (toTypeName ownerName)).isSome &&
    env.methods kind (toTypeName ownerName) name

/-- `find_self_types` reaches no module that has self types already and none again. -/
def SelfTypesReturn (constants : List Constant) (rank : String → Nat) : Prop :=
  ∀ n c, announcement env constants n = some c → c.type = .MODULE → ∀ m ∈ (recorded env c).includedModules,
    rank m < rank n ∧ (∀ classDecl, env.classDecls (toTypeName m) = some classDecl → classDecl.selfTypes = []) ∧
      ∃ d, announcement env constants m = some d ∧ d.type = .MODULE

/-- Traces for which it does not matter in which order they arrive. -/
structure ArrivalFree (traces : List Trace) : Prop where
  names : ∀ t ∈ traces, NamesValid env t
  sound : ∀ t ∈ traces, validMethodName t.methodName = true → t.Sound env
  -- no two names become one by validation, and no two owners are written to one file
  files : ∀ c ∈ announced traces, ∀ d ∈ announced traces,
    fileName env <$> validName env c.name = fileName env <$> validName env d.name → c.name = d.name
  selfTypes : ∃ rank, SelfTypesReturn env (announced traces) rank
  -- the first trace of a method decides for all whether it is defined already
  defined : ∀ t ∈ traces, ∀ u ∈ traces.filter (Trace.isOf t.owner.name t.methodKind t.methodName),
    definedIn env (announced traces) t.methodName t.methodKind t.methodOwner.name =
      definedIn env (announced traces) t.methodName t.methodKind u.methodOwner.name
  overloads : ∀ t ∈ traces, validMethodName t.methodName = true →
    definedIn env (announced traces) t.methodName t.methodKind t.methodOwner.name = false → OverloadAgrees t.methodName
      ((traces.filter (Trace.isOf t.owner.name t.methodKind t.methodName)).filter fun u =>
        u.overloadKey = t.overloadKey)

end

section
variable {env : Environment}

theorem firstOfEach_same (traces : List Trace) :
    SameMembers Trace.SameSignature (firstOfEach traces) traces :=
  ⟨fun t member => ⟨t, mem_of_mem_firstOfEach member, rfl⟩, fun _ member => exists_firstOfEach member⟩

/-- Which of the traces with one signature come first does not matter for the signatures. -/
theorem firstOfEach_related {traces traces' : List Trace} (same : ∀ t, t ∈ traces ↔ t ∈ traces') :
    SameMembers Trace.SameSignature (firstOfEach traces) (firstOfEach traces') := by
  have members : SameMembers Trace.SameSignature traces traces' :=
    .of_mem_iff (fun _ _ => rfl) same
  have compose : ∀ t u v : Trace, t.SameSignature u → u.SameSignature v → t.SameSignature v := fun _ _ _ => Eq.trans
  have first := (firstOfEach_same traces).trans compose members
  exact first.trans compose ((firstOfEach_same traces').symm fun _ _ => Eq.symm)

/-- The announcement of a valid name, when all of them are equal. -/
theorem announcement_eq_some {constants : List Constant} (equal : EqualAnnouncements constants)
    (distinct : ∀ c ∈ constants, ∀ d ∈ constants, validName env c.name = validName env d.name → c.name = d.name)
    {n : String} {v : Constant} :
    announcement env constants n = some v ↔ v.name = n ∧ ∃ c ∈ constants, ensureValidNames env c = .ok v := by
  have mem (v : Constant) : v ∈ (constants.filterMap fun c => (ensureValidNames env c).toOption) ↔
      ∃ c ∈ constants, ensureValidNames env c = .ok v := by
    rw [List.mem_filterMap]
    exact exists_congr fun c => and_congr_right fun _ => Outcome.toOption_eq_some
  constructor
  · intro found
    exact ⟨by simpa using List.find?_some found, (mem v).mp (List.mem_of_find?_eq_some found)⟩
  · rintro ⟨rfl, c, member, ensured⟩
    have some : (announcement env constants v.name).isSome :=
      List.find?_isSome.mpr ⟨v, (mem v).mpr ⟨c, member, ensured⟩, by simp⟩
    obtain ⟨w, found⟩ := Option.isSome_iff_exists.mp some
    obtain ⟨d, member', ensured'⟩ := (mem w).mp (List.mem_of_find?_eq_some found)
    have name : w.name = v.name := by simpa using List.find?_some found
    have valid : validName env c.name = validName env d.name := by
      rw [ensureValidNames_name ensured, ensureValidNames_name ensured', name]
    have same := equal c member d member' (distinct c member d member' valid)
    subst same
    cases ensured.symm.trans ensured'
    exact found

theorem announcement_congr {constants constants' : List Constant} (same : ∀ c, c ∈ constants ↔ c ∈ constants')
    (equal : EqualAnnouncements constants)
    (distinct : ∀ c ∈ constants, ∀ d ∈ constants, validName env c.name = validName env d.name → c.name = d.name)
    (n : String) : announcement env constants n = announcement env constants' n := by
  have equal' : EqualAnnouncements constants' := fun c inC d inD => equal c ((same c).mpr inC) d ((same d).mpr inD)
  refine Option.ext fun v => ?_
  rw [announcement_eq_some equal distinct, announcement_eq_some equal' fun c inC d inD =>
    distinct c ((same c).mpr inC) d ((same d).mpr inD)]
  simp only [same]

theorem mem_announced {traces traces' : List Trace} (same : ∀ t, t ∈ traces ↔ t ∈ traces') (c : Constant) :
    c ∈ announced traces ↔ c ∈ announced traces' := by
  simp only [announced, List.mem_flatMap, same]

theorem ArrivalFree.distinct {traces : List Trace} (free : ArrivalFree env traces) :
    ∀ c ∈ announced traces, ∀ d ∈ announced traces, validName env c.name = validName env d.name → c.name = d.name :=
  fun c inC d inD same => free.files c inC d inD (by rw [same])

theorem ArrivalFree.announcement_eq {traces traces' : List Trace} (free : ArrivalFree env traces)
    (equal : EqualAnnouncements (announced traces)) (same : ∀ t, t ∈ traces ↔ t ∈ traces') (n : String) :
    announcement env (announced traces) n = announcement env (announced traces') n :=
  announcement_congr (mem_announced same) equal free.distinct n

section
variable {constants : List Constant} {traces : List Trace} {s : RBSCollector}

theorem Collected.methodDefined (collected : Collected env constants traces s) (name : String) (kind : MethodKind)
    (ownerName : String) :
    methodDefined env s.existingTypes name kind ownerName = definedIn env constants name kind ownerName := by
  rw [Racer.methodDefined, collected.existing, definedIn]
  cases announcement env constants ownerName with
  | none => rfl
  | some c =>
    simp only [Option.bind_some, Option.isSome_some, Bool.true_and]
    cases env.classDecls (toTypeName ownerName) <;> rfl

/-- What is stored for a method of a constant. -/
theorem Collected.group (collected : Collected env constants traces s) {n : String} {owner : Owner}
    (found : s.results.get? n = some owner) {kind : MethodKind} {name : String} {group : List Trace} :
    (name, group) ∈ (owner.methods kind).entries ↔
      group = firstOfEach (traces.filter (Trace.isOf n kind name)) ∧ group ≠ [] := by
  have filed := collected.filed n kind name
  rw [RBSCollector.traces, found, Option.bind_some] at filed
  rw [OrderedHash.mem_entries, ← filed]
  cases stored : (owner.methods kind).get? name with
  | none => simp
  | some traces =>
    have full := collected.nonempty n owner found kind name traces stored
    rw [Option.some.injEq, Option.getD_some]
    exact ⟨fun same => ⟨same.symm, same ▸ full⟩, fun same => same.1.symm⟩

/-- Modules whose includes lose rank are searched to the end. -/
theorem Collected.findSelfTypes_total (collected : Collected env constants traces s) {rank : String → Nat}
    (selfTypes : SelfTypesReturn env constants rank) {n : String} {owner : Owner}
    (found : s.results.get? n = some owner) (type : owner.constant.type = .MODULE) :
    ∃ types, findSelfTypes s (s.results.entries.length + 1) owner.constant = .ok types := by
  have turn {k m : String} {stored : Owner} (there : s.results.get? k = some stored)
      (kind : stored.constant.type = .MODULE) (step : s.Includes k m) : rank m < rank k ∧
        (∀ classDecl, env.classDecls (toTypeName m) = some classDecl → classDecl.selfTypes = []) ∧
          ∃ included, s.results.get? m = some included ∧ included.constant.type = .MODULE := by
    obtain ⟨c, announced, constant⟩ := collected.announced there
    rw [constant, recorded_type] at kind
    rw [includes_iff there, constant] at step
    obtain ⟨lower, plain, d, announced', kind'⟩ := selfTypes k c announced kind m step
    obtain ⟨included, there', constant'⟩ := collected.owner announced'
    exact ⟨lower, plain, included, there', by rw [constant', recorded_type, kind']⟩
  have path {m : String} (reach : ReflTransGen s.Includes n m) :
      ∃ stored, s.results.get? m = some stored ∧ stored.constant.type = .MODULE := by
    induction reach with
    | refl => exact ⟨owner, found, type⟩
    | tail _ step ih =>
      obtain ⟨stored, there, kind⟩ := ih
      exact (turn there kind step).2.2
  have lower {m k : String} (reach : ReflTransGen s.Includes n m) (later : TransGen s.Includes m k) :
      rank k < rank m := by
    induction later with
    | single step =>
      obtain ⟨stored, there, kind⟩ := path reach
      exact (turn there kind step).1
    | tail before step ih =>
      obtain ⟨stored, there, kind⟩ := path (reach.trans before.to_reflTransGen)
      exact (turn there kind step).1.trans ih
  refine Racer.findSelfTypes_total List.nodup_nil found (fun m reach cycle => lt_irrefl _ (lower reach cycle))
    (fun m k reach step => ?_) (fun m existing reach exists' => ?_) nofun (Nat.lt_succ_self _)
  · obtain ⟨stored, there, kind⟩ := path reach
    obtain ⟨_, _, included, there', _⟩ := turn there kind step
    exact Option.isSome_iff_exists.mpr ⟨included, there'⟩
  · obtain ⟨k, before, step⟩ := TransGen.tail'_iff.mp reach
    obtain ⟨stored, there, kind⟩ := path before
    obtain ⟨_, plain, included, there', _⟩ := turn there kind step
    obtain ⟨c, announced, _⟩ := collected.announced there'
    rw [collected.existing, announced, Option.bind_some] at exists'
    obtain ⟨classDecl, decl, rfl⟩ := Option.map_eq_some_iff.mp exists'
    exact plain classDecl decl

theorem Collected.isOf {n : String} {kind : MethodKind} {name : String} {t : Trace}
    (member : t ∈ firstOfEach (traces.filter (Trace.isOf n kind name))) : t ∈ traces ∧
      validMethodName t.methodName = true ∧ t.owner.name = n ∧ t.methodKind = kind ∧ t.methodName = name := by
  obtain ⟨there, is⟩ := List.mem_filter.mp (mem_of_mem_firstOfEach member)
  exact ⟨there, Trace.isOf_iff.mp is⟩

theorem Collected.sound (collected : Collected env constants traces s)
    (sound : ∀ t ∈ traces, validMethodName t.methodName = true → t.Sound env) {n : String} {owner : Owner}
    (found : s.results.get? n = some owner) : owner.Sound env := by
  refine ⟨fun kind entry member => ?_, fun kind entry member t inside => ?_⟩
  · exact ((collected.group found).mp member).2
  · obtain ⟨same, _⟩ := (collected.group found).mp member
    rw [same] at inside
    obtain ⟨there, valid, _⟩ := Collected.isOf inside
    exact sound t there valid

end

theorem ArrivalFree.of_mem_iff {traces traces' : List Trace} (equal : EqualAnnouncements (announced traces))
    (same : ∀ t, t ∈ traces ↔ t ∈ traces') (free : ArrivalFree env traces) : ArrivalFree env traces' := by
  have constants := mem_announced same
  have announcements := free.announcement_eq equal same
  have definitions (name kind ownerName) : definedIn env (announced traces) name kind ownerName =
      definedIn env (announced traces') name kind ownerName := by rw [definedIn, announcements, definedIn]
  obtain ⟨rank, selfTypes⟩ := free.selfTypes
  refine ⟨fun t member => free.names t ((same t).mpr member), fun t member => free.sound t ((same t).mpr member),
    fun c inC d inD => free.files c ((constants c).mpr inC) d ((constants d).mpr inD), ⟨rank, ?_⟩,
    fun t member u inside => ?_, fun t member valid new => ?_⟩
  · unfold SelfTypesReturn at selfTypes ⊢
    simpa only [announcements] using selfTypes
  · rw [← definitions, ← definitions]
    refine free.defined t ((same t).mpr member) u ?_
    rwa [List.mem_filter, same, ← List.mem_filter]
  · rw [← definitions] at new
    refine (free.overloads t ((same t).mpr member) valid new).of_same (.of_mem_iff (fun _ _ => rfl) fun u => ?_)
    simp only [List.mem_filter, same]

/-- The collector after a run of traces whose order does not matter. -/
structure Arrived (env : Environment) (traces : List Trace) (s : RBSCollector) : Prop where
  collected : Collected env (announced traces) traces s
  equal : EqualAnnouncements (announced traces)
  free : ArrivalFree env traces

section
variable {traces traces' : List Trace} {s s' : RBSCollector}

theorem Arrived.declaration (arrived : Arrived env traces s) {n : String} {owner : Owner}
    (found : s.results.get? n = some owner) : ∃ d, toDeclaration env s owner = .ok d := by
  obtain ⟨collected, equal, free⟩ := arrived
  obtain ⟨rank, selfTypes⟩ := free.selfTypes
  exact toDeclaration_total (collected.sound free.sound found) (collected.findSelfTypes_total selfTypes found)

/-- The file of an owner is that of no other owner. -/
theorem Arrived.fileName_injective (arrived : Arrived env traces s) {n m : String} {owner other : Owner}
    (found : s.results.get? n = some owner) (found' : s.results.get? m = some other)
    (same : fileName env n = fileName env m) : n = m := by
  obtain ⟨collected, equal, free⟩ := arrived
  obtain ⟨v, announced, _⟩ := collected.announced found
  obtain ⟨w, announced', _⟩ := collected.announced found'
  obtain ⟨rfl, c, inC, ensured⟩ := (announcement_eq_some equal free.distinct).mp announced
  obtain ⟨rfl, d, inD, ensured'⟩ := (announcement_eq_some equal free.distinct).mp announced'
  have valid := ensureValidNames_name ensured
  have valid' := ensureValidNames_name ensured'
  have names := free.files c inC d inD (by rw [valid, valid', Except.map_ok, Except.map_ok, same])
  rw [names, valid'] at valid
  exact (Except.ok.inj valid).symm

theorem Arrived.stop (arrived : Arrived env traces s) : (s.stop env).2 = none ∧ ∀ path d,
    (contents (s.stop env).1).get? path = some d ↔ ∃ n owner, s.results.get? n = some owner ∧
      fileName env n = path ∧ toDeclaration env s owner = .ok d ∧
        (d.members.isEmpty && (s.existingTypes.get? n).isSome) = false := by
  have each : ∀ entry ∈ s.results.entries, ∃ d, toDeclaration env s entry.2 = .ok d := by
    rintro ⟨n, owner⟩ member
    exact arrived.declaration (OrderedHash.mem_entries.mp member)
  obtain ⟨returns, files⟩ := writeOwners_ok each
  refine ⟨returns, fun path d => ?_⟩
  rw [get?_contents ?_, RBSCollector.stop, files]
  · constructor
    · rintro ⟨⟨n, owner⟩, member, rest⟩
      exact ⟨n, owner, OrderedHash.mem_entries.mp member, rest⟩
    · rintro ⟨n, owner, found, rest⟩
      exact ⟨(n, owner), OrderedHash.mem_entries.mpr found, rest⟩
  · intro path d d' member member'
    obtain ⟨⟨n, owner⟩, inside, file, made, _⟩ := (files _).mp member
    obtain ⟨⟨m, other⟩, inside', file', made', _⟩ := (files _).mp member'
    have found := OrderedHash.mem_entries.mp inside
    have found' := OrderedHash.mem_entries.mp inside'
    have names := arrived.fileName_injective found found' (file.trans file'.symm)
    subst names
    rw [found, Option.some.injEq] at found'
    subst found'
    exact Except.ok.inj (made.symm.trans made')

/-- The traces that are kept of a method, in two orders. -/
theorem Arrived.sameMethod (arrived : Arrived env traces s) (same : ∀ t, t ∈ traces ↔ t ∈ traces') (n : String)
    (kind : MethodKind) (name : String) :
    SameMethod env s.existingTypes n kind name (firstOfEach (traces.filter (Trace.isOf n kind name)))
      (firstOfEach (traces'.filter (Trace.isOf n kind name))) := by
  obtain ⟨collected, _, free⟩ := arrived
  have isOf {t : Trace} (member : t ∈ firstOfEach (traces.filter (Trace.isOf n kind name)) ++
      firstOfEach (traces'.filter (Trace.isOf n kind name))) : t ∈ traces ∧
        validMethodName t.methodName = true ∧ t.owner.name = n ∧ t.methodKind = kind ∧ t.methodName = name := by
    rcases List.mem_append.mp member with left | right
    · exact Collected.isOf left
    · obtain ⟨inside, is⟩ := Collected.isOf right
      exact ⟨(same t).mpr inside, is⟩
  refine ⟨firstOfEach_related fun t => ?_, fun t member => (isOf member).2.2.1, fun t member u member' => ?_,
    fun t member new => ?_⟩
  · rw [List.mem_filter, List.mem_filter, same]
  · obtain ⟨inside, valid, rfl, rfl, rfl⟩ := isOf member
    obtain ⟨inside', _, names⟩ := isOf member'
    rw [collected.methodDefined, collected.methodDefined]
    exact free.defined t inside u (List.mem_filter.mpr ⟨inside', by simp [Trace.isOf, valid, names]⟩)
  · obtain ⟨inside, valid, rfl, rfl, rfl⟩ := isOf (List.mem_append_left _ member)
    rw [collected.methodDefined] at new
    refine (free.overloads t inside valid new).of_same (SameMembers.filter ?_ fun u v equal => ?_)
    · exact (firstOfEach_same _).symm fun _ _ => Eq.symm
    · rw [overloadKey_eq equal]

/-- The same traces in another order leave an owner with the same constant, and its
methods with the same signatures. -/
theorem Arrived.sameOwner (arrived : Arrived env traces s) (arrived' : Arrived env traces' s')
    (same : ∀ t, t ∈ traces ↔ t ∈ traces') {n : String} {owner owner' : Owner} (found : s.results.get? n = some owner)
    (found' : s'.results.get? n = some owner') : SameOwner env s.existingTypes owner owner' := by
  have announcements := arrived.free.announcement_eq arrived.equal same
  obtain ⟨c, announced, constant⟩ := arrived.collected.announced found
  obtain ⟨c', announced', constant'⟩ := arrived'.collected.announced found'
  rw [← announcements, announced, Option.some.injEq] at announced'
  subst announced'
  have name : owner.constant.name = n := by rw [constant, recorded_name, announcement_name announced]
  refine ⟨constant.trans constant'.symm, fun kind => ?_⟩
  rw [name]
  refine ⟨fun ⟨name, group⟩ member => ?_, fun ⟨name, group⟩ member => ?_⟩
  · obtain ⟨rfl, full⟩ := (arrived.collected.group found).mp member
    have method := arrived.sameMethod same n kind name
    rw [ne_eq, ← List.isEmpty_iff, method.signatures.isEmpty_eq, List.isEmpty_iff] at full
    exact ⟨_, (arrived'.collected.group found').mpr ⟨rfl, full⟩, rfl, method⟩
  · obtain ⟨rfl, full⟩ := (arrived'.collected.group found').mp member
    have method := arrived.sameMethod same n kind name
    rw [ne_eq, ← List.isEmpty_iff, ← method.signatures.isEmpty_eq, List.isEmpty_iff] at full
    exact ⟨_, (arrived.collected.group found).mpr ⟨rfl, full⟩, rfl, method⟩

/-- A file of one order is written in the other with the same methods. -/
theorem Arrived.written (arrived : Arrived env traces s) (arrived' : Arrived env traces' s')
    (same : ∀ t, t ∈ traces ↔ t ∈ traces') {path : String} {d : Declaration}
    (file : (contents (s.stop env).1).get? path = some d) :
    ∃ d', (contents (s'.stop env).1).get? path = some d' ∧ d.Same d' := by
  obtain ⟨n, owner, found, name, made, needed⟩ := (arrived.stop.2 path d).mp file
  have announcements := arrived.free.announcement_eq arrived.equal same
  have types (m) : s.existingTypes.get? m = s'.existingTypes.get? m := by
    rw [arrived.collected.existing, arrived'.collected.existing, announcements]
  obtain ⟨c, announced, _⟩ := arrived.collected.announced found
  rw [announcements] at announced
  obtain ⟨owner', found', _⟩ := arrived'.collected.owner announced
  obtain ⟨d', made'⟩ := arrived'.declaration found'
  obtain ⟨related, empty⟩ := toDeclaration_same types (arrived.sameOwner arrived' same found found') made made'
  rw [empty, types] at needed
  exact ⟨d', (arrived'.stop.2 path d').mpr ⟨n, owner', found', name, made', needed⟩, related⟩

end

/-- The files of `stop` after these traces, and what it raises. -/
def stopAfter (env : Environment) (traces : List Trace) :
    Except RubyError (List (String × Declaration) × Option RubyError) :=
  (·.stop env) <$> collectAll env traces

/-- The same files with the same declarations. -/
def SameFiles (files files' : List (String × Declaration)) : Prop :=
  ∀ path, Option.Rel Declaration.Same ((contents files).get? path) ((contents files').get? path)

/-- The signatures do not depend on the order of such traces. -/
theorem stop_order_independent {traces traces' : List Trace} (perm : traces.Perm traces')
    (ordered : Ordered Trace.announces Trace.uses traces) (ordered' : Ordered Trace.announces Trace.uses traces')
    (equal : EqualAnnouncements (announced traces)) (free : ArrivalFree env traces) : ∃ files files',
      stopAfter env traces = .ok (files, none) ∧ stopAfter env traces' = .ok (files', none) ∧
        SameFiles files files' := by
  have same (t : Trace) : t ∈ traces ↔ t ∈ traces' := perm.mem_iff
  have constants := mem_announced same
  have free' := free.of_mem_iff equal same
  have equal' : EqualAnnouncements (announced traces') := fun c inC d inD =>
    equal c ((constants c).mpr inC) d ((constants d).mpr inD)
  obtain ⟨s, run⟩ := collectAll_total free.names ordered
  obtain ⟨s', run'⟩ := collectAll_total free'.names ordered'
  have arrived : Arrived env traces s := ⟨collectAll_collected run, equal, free⟩
  have arrived' : Arrived env traces' s' := ⟨collectAll_collected run', equal', free'⟩
  refine ⟨(s.stop env).1, (s'.stop env).1, ?_, ?_, fun path => ?_⟩
  · rw [← arrived.stop.1, stopAfter, run]
    rfl
  · rw [← arrived'.stop.1, stopAfter, run']
    rfl
  · cases here : (contents (s.stop env).1).get? path with
    | some d =>
      obtain ⟨d', there, related⟩ := arrived.written arrived' same here
      rw [there]
      exact .some related
    | none =>
      cases there : (contents (s'.stop env).1).get? path with
      | none => exact .none
      | some d' =>
        obtain ⟨d, found, _⟩ := arrived'.written arrived (fun t => (same t).symm) there
        rw [here] at found
        cases found

end

/-- The signatures of arrays and hashes are loaded, and only ASCII letters have a case. -/
def collectionSignatures : Environment where
  classDecls name :=
    if name = toTypeName "Array" then some { typeParams := ["Elem"] }
    else if name = toTypeName "Hash" then some { typeParams := ["K", "V"] }
    else none
  methods _ _ _ := false
  implementedIn _ _ _ := false
  interfaceMethods _ := []
  upcase c := c.toUpper.toString
  downcase c := c.toLower.toString

/-- A call of `Foo#run` by a process that announces all classes. -/
def callOfRun (returnType : ConstantInstance) : Trace where
  methodOwner := { name := "Foo" }
  methodCallee := none
  methodName := "run"
  methodKind := .INSTANCE
  methodVisibility := .PUBLIC
  returnType := returnType
  params := []
  blockParam := none
  constantUpdates :=
    { name := "BasicObject", type := .CLASS } ::
      { name := "Object", type := .CLASS, superclass := some "BasicObject" } ::
      ["Foo", "Array", "Hash", "Integer", "Symbol"].map fun name =>
        { name, type := .CLASS, superclass := some "Object" }

/-- `[]` -/
def emptyArray : ConstantInstance := { name := "Array" }

/-- `[1]` -/
def arrayOfIntegers : ConstantInstance := { name := "Array", genericArguments := [[{ name := "Integer" }]] }

/-- `{ a: 1 }` -/
def hashOfIntegers : ConstantInstance :=
  { name := "Hash", genericArguments := [[{ name := "Symbol" }], [{ name := "Integer" }]] }

/-- `{}` -/
def emptyHash : ConstantInstance := { name := "Hash" }

theorem callsOfRun_ordered (types : List ConstantInstance) :
    Ordered Trace.announces Trace.uses (types.map callOfRun) := by
  refine .of_own fun t member n used => ?_
  obtain ⟨type, _, rfl⟩ := List.mem_map.mp member
  have own : "Foo" ∈ (callOfRun emptyArray).announces := by decide
  rw [List.mem_singleton.mp used]
  exact own

theorem mem_announced_callsOfRun {types : List ConstantInstance} {c : Constant}
    (member : c ∈ announced (types.map callOfRun)) : c ∈ (callOfRun emptyArray).constantUpdates := by
  obtain ⟨t, inside, update⟩ := List.mem_flatMap.mp member
  obtain ⟨type, _, rfl⟩ := List.mem_map.mp inside
  exact update

theorem callsOfRun_equal (types : List ConstantInstance) : EqualAnnouncements (announced (types.map callOfRun)) := by
  intro c inC d inD
  have all : ∀ c ∈ (callOfRun emptyArray).constantUpdates, ∀ d ∈ (callOfRun emptyArray).constantUpdates,
      c.name = d.name → c = d := by decide
  exact all c (mem_announced_callsOfRun inC) d (mem_announced_callsOfRun inD)

theorem callsOfRun_free {types : List ConstantInstance} (sound : ∀ i ∈ types, i.Sound collectionSignatures)
    (free : OrderFree types) : ArrivalFree collectionSignatures (types.map callOfRun) := by
  have valid : ∀ c ∈ (callOfRun emptyArray).constantUpdates, ensureValidNames collectionSignatures c = .ok c := by
    decide +kernel
  have files : ∀ c ∈ (callOfRun emptyArray).constantUpdates, ∀ d ∈ (callOfRun emptyArray).constantUpdates,
      fileName collectionSignatures <$> validName collectionSignatures c.name =
        fileName collectionSignatures <$> validName collectionSignatures d.name → c.name = d.name := by decide +kernel
  have classes : ∀ c ∈ (callOfRun emptyArray).constantUpdates, c.type = .CLASS := by decide
  have owner : validName collectionSignatures "Foo" = .ok "Foo" := by decide +kernel
  have new (name kind ownerName) :
      definedIn collectionSignatures (announced (types.map callOfRun)) name kind ownerName = false := Bool.and_false _
  refine ⟨fun t member => ?_, fun t member _ => ?_, fun c inC d inD => ?_, ⟨fun _ => 0, fun n c found type => ?_⟩,
    fun t _ u _ => ?_, fun t member _ _ => ?_⟩
  · obtain ⟨type, _, rfl⟩ := List.mem_map.mp member
    exact ⟨fun c update => ⟨c, valid c update⟩, owner⟩
  · obtain ⟨type, inside, rfl⟩ := List.mem_map.mp member
    exact ⟨nofun, sound type inside, nofun⟩
  · exact files c (mem_announced_callsOfRun inC) d (mem_announced_callsOfRun inD)
  · obtain ⟨d, inside, ensured⟩ := List.mem_filterMap.mp (List.mem_of_find?_eq_some found)
    have update := mem_announced_callsOfRun inside
    rw [valid d update] at ensured
    cases ensured
    rw [classes _ update] at type
    cases type
  · rw [new, new]
  · obtain ⟨type, _, rfl⟩ := List.mem_map.mp member
    have isOf (i : ConstantInstance) : (callOfRun i).isOf "Foo" .INSTANCE "run" = true := by
      have one : (callOfRun emptyArray).isOf "Foo" .INSTANCE "run" = true := by decide +kernel
      exact one
    have all : ((types.map callOfRun).filter (Trace.isOf "Foo" .INSTANCE "run")).filter
        (fun u => u.overloadKey = (callOfRun type).overloadKey) = types.map callOfRun := by
      rw [List.filter_eq_self.mpr, List.filter_eq_self.mpr]
      · exact List.forall_mem_map.mpr fun i _ => isOf i
      · rw [List.filter_eq_self.mpr (List.forall_mem_map.mpr fun i _ => isOf i)]
        exact List.forall_mem_map.mpr fun i _ => decide_eq_true rfl
    have returns : (types.map callOfRun).map (·.returnType) = types := by
      rw [List.map_map]
      exact List.map_id types
    have blocks : (types.map callOfRun).filterMap (·.blockParam) = [] :=
      List.filterMap_eq_nil_iff.mpr (List.forall_mem_map.mpr fun _ _ => rfl)
    have agrees : OverloadAgrees "run" (types.map callOfRun) := by
      refine ⟨fun _ => by rwa [returns], ?_⟩
      rw [blocks]
      exact .nil
    rw [← all] at agrees
    exact agrees

/-- An empty array and an array of integers, in both orders. -/
theorem array_types_in_any_order : ∃ files files',
    stopAfter collectionSignatures ([emptyArray, arrayOfIntegers].map callOfRun) = .ok (files, none) ∧
      stopAfter collectionSignatures ([arrayOfIntegers, emptyArray].map callOfRun) = .ok (files', none) ∧
        SameFiles files files' := by
  have integer : ConstantInstance.Sound collectionSignatures { name := "Integer" } :=
    .mk ⟨"Integer", by decide +kernel⟩ nofun nofun
  have empty : ConstantInstance.Sound collectionSignatures emptyArray := .mk ⟨"Array", by decide +kernel⟩ nofun nofun
  have full : ConstantInstance.Sound collectionSignatures arrayOfIntegers := by
    refine .mk ⟨"Array", by decide +kernel⟩ (by simp [arrayOfIntegers]) fun union member i inside => ?_
    rw [List.mem_singleton.mp member] at inside
    rw [List.mem_singleton.mp inside]
    exact integer
  exact stop_order_independent (List.Perm.swap _ _ _) (callsOfRun_ordered [emptyArray, arrayOfIntegers])
    (callsOfRun_ordered [arrayOfIntegers, emptyArray]) (callsOfRun_equal [emptyArray, arrayOfIntegers])
    (callsOfRun_free (by simp [empty, full]) (by decide +kernel))

/-- The return types in the file. -/
def returnTypesIn (files : List (String × Declaration)) (path : String) : List RbsType :=
  ((contents files).get? path).toList.flatMap fun d => d.methods.flatMap fun m => m.overloads.map (·.returnType)

theorem SameFiles.returnTypes {files files' : List (String × Declaration)} (same : SameFiles files files')
    (path : String) : sameIn (returnTypesIn files path) (returnTypesIn files' path) = true := by
  refine sameIn_iff.mpr fun t member => ?_
  obtain ⟨d, file, inFile⟩ := List.mem_flatMap.mp member
  obtain ⟨m, inside, overload⟩ := List.mem_flatMap.mp inFile
  obtain ⟨o, there, rfl⟩ := List.mem_map.mp overload
  have related := same path
  rw [Option.mem_toList.mp file] at related
  cases other : (contents files').get? path with
  | none =>
    rw [other] at related
    cases related
  | some d' =>
    rw [other] at related
    obtain ⟨⟨_, _, methods⟩⟩ := related
    obtain ⟨m', inside', ⟨_, _, overloads, _⟩⟩ := methods.1 m inside
    obtain ⟨o', there', ⟨_, types, _⟩⟩ := overloads.1 o there
    refine ⟨o'.returnType, List.mem_flatMap.mpr ⟨d', Option.mem_toList.mpr other, ?_⟩, types⟩
    exact List.mem_flatMap.mpr ⟨m', inside', List.mem_map.mpr ⟨o', there', rfl⟩⟩

/-- Both runs return, and their files have different return types in `path`. -/
def differIn (path : String) (run run' : Except RubyError (List (String × Declaration) × Option RubyError)) : Bool :=
  match run with
  | .ok (files, none) =>
    match run' with
    | .ok (files', none) => !sameIn (returnTypesIn files path) (returnTypesIn files' path)
    | _ => false
  | _ => false

def emptyArrayEarly : List Trace :=
  [emptyArray, arrayOfIntegers, hashOfIntegers, emptyHash].map callOfRun

def emptyArrayLate : List Trace :=
  [arrayOfIntegers, hashOfIntegers, emptyArray, emptyHash].map callOfRun

/-- The loop deletes from the array it runs over. When the empty array is deleted before
the hash of integers has had its turn, that turn is skipped and the empty hash stays. -/
theorem hash_types_by_arrival : emptyArrayEarly.Perm emptyArrayLate ∧
    Ordered Trace.announces Trace.uses emptyArrayEarly ∧ Ordered Trace.announces Trace.uses emptyArrayLate ∧
      EqualAnnouncements (announced emptyArrayEarly) ∧ ∃ files files',
        stopAfter collectionSignatures emptyArrayEarly = .ok (files, none) ∧
          stopAfter collectionSignatures emptyArrayLate = .ok (files', none) ∧ ¬ SameFiles files files' := by
  have perm : emptyArrayEarly.Perm emptyArrayLate := List.Perm.map callOfRun (by decide)
  refine ⟨perm, callsOfRun_ordered _, callsOfRun_ordered _, callsOfRun_equal _, ?_⟩
  have differ : differIn "foo.rbs" (stopAfter collectionSignatures emptyArrayEarly)
      (stopAfter collectionSignatures emptyArrayLate) = true := by decide +kernel
  unfold differIn at differ
  split at differ
  next files run =>
    split at differ
    next files' run' =>
      refine ⟨files, files', run, run', fun same => ?_⟩
      rw [same.returnTypes] at differ
      cases differ
    next => cases differ
  next => cases differ

end Racer
