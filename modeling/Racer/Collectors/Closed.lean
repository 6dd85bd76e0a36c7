import Racer.Collectors.TypeNames

namespace Racer
open Outcome Relation

/-! Whether the names in the generated declarations are declared somewhere. -/

/-- Every constant that occurs in the traces or in an announced constant is announced. -/
structure AllAnnounced (traces : List Trace) : Prop where
  used : ∀ t ∈ traces, ∀ c ∈ t.constants, ∀ name, c.Mentions name → name ∈ (announced traces).map (·.name)
  mentioned : ∀ c ∈ announced traces, ∀ name ∈ c.mentions, name ∈ (announced traces).map (·.name)

/-- The signatures that are loaded only mention names that they declare. -/
structure Environment.Closed (env : Environment) (declared : TypeName → Prop) : Prop where
  classes : ∀ n, (env.classDecls n).isSome → declared n
  superClasses : ∀ n classDecl, env.classDecls n = some classDecl →
    ∀ superClass ∈ classDecl.superClass, ∀ m ∈ superClass.1 :: namesIn superClass.2, declared m
  interfaces : ∀ type entry, entry ∈ env.interfaceMethods type → ∀ m ∈ entry.2.names, declared m
  basicObject : declared (toTypeName "BasicObject")

/-- The declarations that the loop of `stop` builds before one raises. -/
def builtDeclarations (env : Environment) (s : RBSCollector) : List (String × Owner) → List Declaration
  | [] => []
  | (_, owner) :: rest =>
    match toDeclaration env s owner with
    | .error _ => []
    | .ok declaration => declaration :: builtDeclarations env s rest

/-- Every type name in a declaration that `stop` builds is that of one it writes or is
declared in the signatures. -/
def DeclarationsClosed (env : Environment) (declared : TypeName → Prop) (s : RBSCollector) : Prop :=
  ∀ d ∈ builtDeclarations env s s.results.entries, ∀ n ∈ d.names,
    (∃ file ∈ (s.stop env).1, file.2.name = n) ∨ declared n

section
variable {env : Environment}

theorem collectAll_ensured {traces : List Trace} {s : RBSCollector} (run : collectAll env traces = .ok s) :
    ∀ c ∈ announced traces, ∃ valid, ensureValidNames env c = .ok valid := by
  have pushed {updates : List Constant} {s s' : RBSCollector} (run : updates.foldlM (fun s constant => do
      let constant ← ensureValidNames env constant
      pure (pushConstantToResults env s constant)) s = .ok s') :
      ∀ c ∈ updates, ∃ valid, ensureValidNames env c = .ok valid := by
    induction updates generalizing s with
    | nil => exact List.forall_mem_nil _
    | cons constant updates ih =>
      rw [List.foldlM_cons] at run
      obtain ⟨t, turn, run⟩ := bind_eq_ok.mp run
      obtain ⟨valid, ensured, _⟩ := bind_eq_ok.mp turn
      exact List.forall_mem_cons.mpr ⟨⟨valid, ensured⟩, ih run⟩
  have collected {traces : List Trace} {s s' : RBSCollector}
      (run : traces.foldlM (RBSCollector.collect env) s = .ok s') :
      ∀ c ∈ announced traces, ∃ valid, ensureValidNames env c = .ok valid := by
    induction traces generalizing s with
    | nil => exact List.forall_mem_nil _
    | cons t traces ih =>
      rw [List.foldlM_cons] at run
      obtain ⟨u, turn, run⟩ := bind_eq_ok.mp run
      obtain ⟨v, updates, _⟩ := bind_eq_ok.mp turn
      rw [announced, List.flatMap_cons]
      exact List.forall_mem_append.mpr ⟨pushed updates, ih run⟩
  exact collected run

theorem ensureValidNames_mentions {c valid : Constant} (ensured : ensureValidNames env c = .ok valid) {m : String}
    (member : m ∈ valid.mentions) : ∃ name ∈ c.mentions, validName env name = .ok m := by
  obtain ⟨name, _, ensured⟩ := bind_eq_ok.mp ensured
  obtain ⟨superclass, above, ensured⟩ := bind_eq_ok.mp ensured
  obtain ⟨included, includes, ensured⟩ := bind_eq_ok.mp ensured
  obtain ⟨prepended, prepends, ensured⟩ := bind_eq_ok.mp ensured
  obtain ⟨extended, extends', ensured⟩ := bind_eq_ok.mp ensured
  cases ensured
  have each {names valid : List String} (run : names.mapM (validName env) = .ok valid) (inside : m ∈ valid) :
      ∃ name ∈ names, validName env name = .ok m :=
    SameMembers.image_of_mem (mapM_eq_ok.mp run).flip inside
  simp only [Constant.mentions, List.mem_append, or_assoc] at member ⊢
  rcases member with inSuper | inIncluded | inPrepended | inExtended
  · cases superclass' : c.superclass with
    | none =>
      rw [superclass'] at above
      cases above
      cases inSuper
    | some n =>
      rw [superclass'] at above
      obtain ⟨valid, validated, rfl⟩ := map_eq_ok.mp above
      exact ⟨n, .inl List.mem_cons_self, by rw [validated, List.mem_singleton.mp inSuper]⟩
  · obtain ⟨n, there, validated⟩ := each includes inIncluded
    exact ⟨n, .inr (.inl there), validated⟩
  · obtain ⟨n, there, validated⟩ := each prepends inPrepended
    exact ⟨n, .inr (.inr (.inl there)), validated⟩
  · obtain ⟨n, there, validated⟩ := each extends' inExtended
    exact ⟨n, .inr (.inr (.inr there)), validated⟩

theorem mentions_recorded {c : Constant} {m : String} (member : m ∈ (recorded env c).mentions) : m ∈ c.mentions := by
  unfold recorded at member
  split at member
  · simp only [Constant.mentions, rejectExisting, List.mem_append, List.mem_filter] at member ⊢
    tauto
  · exact member

theorem mem_builtDeclarations {s : RBSCollector} {owners : List (String × Owner)} {d : Declaration}
    (built : d ∈ builtDeclarations env s owners) : ∃ entry ∈ owners, toDeclaration env s entry.2 = .ok d := by
  induction owners with
  | nil => cases built
  | cons entry owners ih =>
    rw [builtDeclarations] at built
    split at built
    · cases built
    next made =>
      rcases List.mem_cons.mp built with rfl | later
      · exact ⟨entry, List.mem_cons_self, made⟩
      · obtain ⟨other, member, made⟩ := ih later
        exact ⟨other, List.mem_cons_of_mem entry member, made⟩

theorem names_of_superClassOf {declared N : TypeName → Prop} (closed : env.Closed declared)
    (allowed : ∀ n, declared n → N n) {s : RBSCollector} {owner : Constant}
    (existing : ∀ n existing, s.existingTypes.get? n = some existing →
      env.classDecls existing.typeName = some existing.classDecl)
    (mentions : ∀ m ∈ owner.mentions, N (toTypeName m)) {superClass : Option (TypeName × List RbsType)}
    (run : superClassOf s owner = .ok superClass) : ∀ above ∈ superClass, ∀ n ∈ above.1 :: namesIn above.2, N n := by
  unfold superClassOf at run
  cases given : owner.superclass with
  | none =>
    rw [given] at run
    cases run
    nofun
  | some above =>
    rw [given] at run
    simp only at run
    split at run
    next known there =>
      cases run
      exact fun above inside n member =>
        allowed n (closed.superClasses _ _ (existing _ known there) above inside n member)
    next =>
      obtain ⟨args, arguments, run⟩ := bind_eq_ok.mp run
      cases run
      rintro _ ⟨⟩
      refine List.forall_mem_cons.mpr ⟨mentions above ?_, names_of_arguments arguments (List.forall_mem_nil _)⟩
      simp [Constant.mentions, given]

/-- What a declaration mentions, when all that its owner mentions is allowed. -/
theorem names_of_toDeclaration {declared N : TypeName → Prop} (closed : env.Closed declared)
    (allowed : ∀ n, declared n → N n) {s : RBSCollector} {name : String} {owner : Owner}
    (names : ∀ n owner, s.results.get? n = some owner → owner.constant.name = n)
    (existing : ∀ n existing, s.existingTypes.get? n = some existing →
      env.classDecls existing.typeName = some existing.classDecl)
    (found : s.results.get? name = some owner) (own : N (toTypeName name))
    (mentions : ∀ m ∈ owner.constant.mentions, N (toTypeName m))
    (traces : ∀ kind, ∀ entry ∈ (owner.methods kind).entries, ∀ t ∈ entry.2, ∀ c ∈ t.constants, Allowed env N c)
    {d : Declaration} (run : toDeclaration env s owner = .ok d) : ∀ n ∈ d.names, N n := by
  obtain ⟨_, own', members⟩ := toDeclaration_members run
  rw [names name owner found] at own'
  have mixins : ∀ m ∈ owner.constant.extendedModules ++ owner.constant.prependedModules ++
      owner.constant.includedModules, N (toTypeName m) := by
    intro m member
    refine mentions m ?_
    simp only [Constant.mentions, List.mem_append] at member ⊢
    tauto
  have inMembers := names_of_toModuleMembers mixins traces
    (fun type entry member n named => allowed n (closed.interfaces type entry member n named)) members
  have above : ∀ n ∈ d.superClass.toList.flatMap (fun above => above.1 :: namesIn above.2) ++ d.selfTypes, N n := by
    unfold toDeclaration at run
    cases type : owner.constant.type with
    | CLASS =>
      rw [type] at run
      obtain ⟨superClass, super, run⟩ := bind_eq_ok.mp run
      obtain ⟨_, _, run⟩ := bind_eq_ok.mp run
      cases run
      rw [List.append_nil, List.forall_mem_flatMap]
      exact fun above member =>
        names_of_superClassOf closed allowed existing mentions super above (by simpa using member)
    | MODULE =>
      rw [type] at run
      obtain ⟨selfTypes, found', run⟩ := bind_eq_ok.mp run
      obtain ⟨_, _, run⟩ := bind_eq_ok.mp run
      cases run
      intro n member
      rw [((findSelfTypes_sound names found found').2 n).mp (by simpa using member) |>.1]
      exact allowed _ closed.basicObject
  rw [Declaration.names]
  refine List.forall_mem_append.mpr ⟨?_, inMembers⟩
  rw [List.cons_append, own']
  exact List.forall_mem_cons.mpr ⟨own, above⟩

theorem sound_of_mentions {constants : List ConstantInstance}
    (full : ∀ union, UnionIn constants union → union ≠ []) {c : ConstantInstance}
    (names : ∀ name, c.Mentions name → ∃ n, validName env name = .ok n) {union : List ConstantInstance}
    (within : UnionIn constants union) (member : c ∈ union) : c.Sound env := by
  induction c using ConstantInstance.union_induction generalizing union with
  | step c ih =>
    refine ⟨names c.name .self, fun u generic => full u (.nested within member generic), fun u generic d inside => ?_⟩
    exact ih u generic d inside (fun name mentions => names name (.nested generic inside mentions))
      (.nested within member generic) inside

theorem announced_of_announcement {constants : List Constant} {n : String} {valid : Constant}
    (found : announcement env constants n = some valid) :
    ∃ c ∈ constants, ensureValidNames env c = .ok valid := by
  obtain ⟨c, update, ensured⟩ := List.mem_filterMap.mp (List.mem_of_find?_eq_some found)
  exact ⟨c, update, toOption_eq_some.mp ensured⟩

/-- The module includes no module that it must raise on: itself, or an existing one that
has self types. -/
structure RBSCollector.SelfTypesFound (s : RBSCollector) (n : String) : Prop where
  acyclic : ∀ m, ReflTransGen s.Includes n m → ¬ TransGen s.Includes m m
  plain : s.PlainIncludes n

theorem Collected.existing_loaded {constants : List Constant} {traces : List Trace} {s : RBSCollector}
    (collected : Collected env constants traces s) {n : String} {type : ExistingType}
    (there : s.existingTypes.get? n = some type) :
    type.typeName = toTypeName n ∧ env.classDecls type.typeName = some type.classDecl := by
  rw [collected.existing] at there
  obtain ⟨_, _, there⟩ := Option.bind_eq_some_iff.mp there
  obtain ⟨classDecl, loaded, rfl⟩ := Option.map_eq_some_iff.mp there
  exact ⟨rfl, loaded⟩

section
variable {traces : List Trace} {s : RBSCollector}

theorem validName_announced (run : collectAll env traces = .ok s) {name : String}
    (member : name ∈ (announced traces).map (·.name)) : ∃ n, validName env name = .ok n := by
  obtain ⟨c, update, rfl⟩ := List.mem_map.mp member
  obtain ⟨v, ensured⟩ := collectAll_ensured run c update
  exact ⟨v.name, ensureValidNames_name ensured⟩

theorem owner_of_announced (run : collectAll env traces = .ok s) {name n : String}
    (member : name ∈ (announced traces).map (·.name)) (validated : validName env name = .ok n) :
    ∃ owner, s.results.get? n = some owner := by
  obtain ⟨c, update, rfl⟩ := List.mem_map.mp member
  obtain ⟨v, ensured⟩ := collectAll_ensured run c update
  rw [ensureValidNames_name ensured, Except.ok.injEq] at validated
  have some := announcement_isSome_iff.mpr ⟨c, update, v, ensured, validated⟩
  obtain ⟨w, found⟩ := Option.isSome_iff_exists.mp some
  obtain ⟨owner, there, _⟩ := (collectAll_collected run).owner found
  exact ⟨owner, there⟩

theorem AllAnnounced.owner_of_mentions (all : AllAnnounced traces) (run : collectAll env traces = .ok s)
    {n m : String} {owner : Owner} (found : s.results.get? n = some owner) (member : m ∈ owner.constant.mentions) :
    ∃ other, s.results.get? m = some other := by
  obtain ⟨v, announcement, constant⟩ := (collectAll_collected run).announced found
  rw [constant] at member
  obtain ⟨c, update, ensured⟩ := announced_of_announcement announcement
  obtain ⟨name, inside, validated⟩ := ensureValidNames_mentions ensured (mentions_recorded member)
  exact owner_of_announced run (all.mentioned c update name inside) validated

theorem AllAnnounced.sound (all : AllAnnounced traces) (run : collectAll env traces = .ok s) {t : Trace}
    (member : t ∈ traces) (full : ∀ union, UnionIn t.constants union → union ≠ []) : t.Sound env := by
  have each : ∀ c ∈ t.constants, c.Sound env := fun c inside =>
    sound_of_mentions full (fun name mentions => validName_announced run (all.used t member c inside name mentions))
      .self inside
  simp only [Trace.constants, List.forall_mem_append, List.forall_mem_cons, List.forall_mem_map,
    List.forall_mem_flatMap, Trace.BlockTrace.constants, Option.mem_toList] at each
  exact ⟨each.1.2, each.2.1, fun b block x call =>
    ⟨(each.2.2 b block x call).1, (each.2.2 b block x call).2.1, (each.2.2 b block x call).2.2⟩⟩

/-- A constant is skipped only if the signatures declare it. -/
theorem Collected.own_declared {declared : TypeName → Prop} (closed : env.Closed declared) {constants : List Constant}
    (collected : Collected env constants traces s)
    (returns : ∀ entry ∈ s.results.entries, ∃ d, toDeclaration env s entry.2 = .ok d) {n : String} {owner : Owner}
    (found : s.results.get? n = some owner) :
    (∃ file ∈ (s.stop env).1, file.2.name = toTypeName n) ∨ declared (toTypeName n) := by
  have inside := OrderedHash.mem_entries.mpr found
  obtain ⟨d, made⟩ := returns _ inside
  cases needed : d.members.isEmpty && (s.existingTypes.get? n).isSome with
  | true =>
    rw [Bool.and_eq_true] at needed
    obtain ⟨type, there⟩ := Option.isSome_iff_exists.mp needed.2
    obtain ⟨same, loaded⟩ := collected.existing_loaded there
    rw [same] at loaded
    exact .inr (closed.classes _ (by rw [loaded]; rfl))
  | false =>
    refine .inl ⟨(fileName env n, d), ((writeOwners_ok returns).2 _).mpr ⟨(n, owner), inside, rfl, made, needed⟩, ?_⟩
    rw [(toDeclaration_members made).2.1, collected.name_eq found]

end

/-- The generated declarations are closed, if no union is empty and the self types of
every module are found, so that no declaration raises. -/
theorem generated_declarations_closed {declared : TypeName → Prop} (closed : env.Closed declared) {traces : List Trace}
    (all : AllAnnounced traces) {s : RBSCollector} (run : collectAll env traces = .ok s)
    (full : ∀ t ∈ traces, ∀ union, UnionIn t.constants union → union ≠ [])
    (selfTypes : ∀ n owner, s.results.get? n = some owner → owner.constant.type = .MODULE → s.SelfTypesFound n) :
    DeclarationsClosed env declared s := by
  have collected := collectAll_collected run
  have returns : ∀ entry ∈ s.results.entries, ∃ d, toDeclaration env s entry.2 = .ok d := by
    intro entry member
    obtain ⟨n, owner⟩ := entry
    have found := OrderedHash.mem_entries.mp member
    refine toDeclaration_total (collected.sound (fun t inside _ => all.sound run inside (full t inside)) found)
      fun type => ?_
    obtain ⟨acyclic, plain⟩ := selfTypes n owner found type
    refine findSelfTypes_total List.nodup_nil found acyclic (fun m k _ step => ?_) plain nofun
      (Nat.lt_succ_self s.results.entries.length)
    obtain ⟨including, there, member⟩ := step
    obtain ⟨other, there⟩ := all.owner_of_mentions run (m := k) there (by simp [Constant.mentions, member])
    rw [there]
    rfl
  have own {n : String} {owner : Owner} (found : s.results.get? n = some owner) :=
    collected.own_declared closed returns found
  intro d member
  obtain ⟨⟨n, owner⟩, inside, made⟩ := mem_builtDeclarations member
  have found := OrderedHash.mem_entries.mp inside
  refine names_of_toDeclaration closed (fun n => .inr) (fun _ _ => collected.name_eq)
    (fun n type there => (collected.existing_loaded there).2) found (own found) (fun m mentions => ?_)
    (fun kind entry inEntries t inGroup c inTrace name mentions n validated => ?_) made
  · obtain ⟨other, there⟩ := all.owner_of_mentions run found mentions
    exact own there
  · obtain ⟨same, _⟩ := (collected.group found).mp inEntries
    rw [same] at inGroup
    have announced := all.used t (Collected.isOf inGroup).1 c inTrace name mentions
    obtain ⟨other, there⟩ := owner_of_announced run announced validated
    exact own there

end

/-- The names in `comparableSignatures`, and the core type that self types mention. -/
def comparableNames : List TypeName :=
  ["Comparable", "Kernel", "BasicObject"].map toTypeName

theorem comparableSignatures_closed : comparableSignatures.Closed (· ∈ comparableNames) := by
  refine ⟨fun n loaded => ?_, fun n classDecl loaded superClass above => ?_, fun _ _ inside => ?_, by decide +kernel⟩
  · simp only [comparableSignatures, Environment.ofDecls] at loaded
    split at loaded
    next same => simp [comparableNames, same]
    next =>
      split at loaded
      next same => simp [comparableNames, same]
      next => cases loaded
  · simp only [comparableSignatures, Environment.ofDecls] at loaded
    split at loaded
    · cases loaded
      cases above
    · split at loaded
      · cases loaded
        cases above
      · cases loaded
  · cases inside

theorem callOfOpen_announced {modules : List Constant} (wallet : "Wallet" ∈ modules.map (·.name))
    (closed : ∀ c ∈ (callOfOpen modules).constantUpdates, ∀ name ∈ c.mentions,
      name ∈ (callOfOpen modules).constantUpdates.map (·.name)) : AllAnnounced [callOfOpen modules] := by
  have updates : announced [callOfOpen modules] = (callOfOpen modules).constantUpdates := by simp [announced]
  refine ⟨fun t member c inside name mentions => ?_, by rwa [updates]⟩
  rw [List.mem_singleton.mp member] at inside
  have same : c = { name := "Wallet", singleton := true } := by simpa [Trace.constants, callOfOpen] using inside
  rw [updates]
  subst same
  cases mentions with
  | self => simpa [callOfOpen] using wallet
  | nested generic _ _ => cases generic

theorem wallet_closed : ∃ s, collectAll comparableSignatures [callOfOpen wallet] = .ok s ∧
    DeclarationsClosed comparableSignatures (· ∈ comparableNames) s := by
  have checked : (collectAll comparableSignatures [callOfOpen wallet]).toOption.any (fun s =>
      includesOnly [("Object", "Kernel"), ("Wallet", "Named"), ("Named", "Kernel")] s &&
        s.existingTypes.entries.all (·.2.classDecl.selfTypes.isEmpty)) = true := by
    decide +kernel
  obtain ⟨s, run, checked⟩ := exists_of_any checked
  rw [Bool.and_eq_true] at checked
  obtain ⟨only, plain⟩ := checked
  refine ⟨s, run, generated_declarations_closed comparableSignatures_closed
    (callOfOpen_announced (by decide) (by decide +kernel)) run ?_ fun n owner found type => ⟨fun m _ => ?_, ?_⟩⟩
  · intro t member union within
    rw [List.mem_singleton.mp member] at within
    have same : union ∈ [(callOfOpen wallet).constants] := within.mem (by simp) (by decide +kernel)
    rw [List.mem_singleton.mp same]
    decide
  · exact includesOnly_acyclic only (fun n => if n = "Kernel" then 0 else if n = "Named" then 1 else 2) (by decide) m
  · intro m existing _ exists'
    exact List.isEmpty_iff.mp (List.all_eq_true.mp plain _ (OrderedHash.mem_entries.mpr exists'))

/-- The class `Ledger < Book`, where `Book` is announced behind `Money`. -/
def ledger : List Constant :=
  { name := "Ledger", type := .CLASS, superclass := some "Book" } :: money ++ wallet ++
    [{ name := "Book", type := .CLASS, superclass := some "Object" }]

/-- `Money` raises, and `Book` is not written any more. -/
theorem ledger_not_closed : AllAnnounced [callOfOpen ledger] ∧
    ∃ s, collectAll comparableSignatures [callOfOpen ledger] = .ok s ∧
      ¬ DeclarationsClosed comparableSignatures (· ∈ comparableNames) s := by
  have checked : (collectAll comparableSignatures [callOfOpen ledger]).toOption.any (fun s =>
      (builtDeclarations comparableSignatures s s.results.entries).any (fun d => toTypeName "Book" ∈ d.names) &&
        (s.stop comparableSignatures).1.all (·.2.name ≠ toTypeName "Book")) = true := by
    decide +kernel
  have unknown : toTypeName "Book" ∉ comparableNames := by decide +kernel
  refine ⟨callOfOpen_announced (by decide) (by decide +kernel), ?_⟩
  obtain ⟨s, run, checked⟩ := exists_of_any checked
  rw [Bool.and_eq_true, List.any_eq_true, List.all_eq_true] at checked
  obtain ⟨⟨d, built, mentioned⟩, others⟩ := checked
  refine ⟨s, run, fun closed => ?_⟩
  rcases closed d built _ (of_decide_eq_true mentioned) with ⟨file, written, name⟩ | known
  · exact of_decide_eq_true (others file written) name
  · exact unknown known

end Racer
