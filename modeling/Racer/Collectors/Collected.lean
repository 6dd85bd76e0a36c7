import Mathlib.Data.List.Induction
import Racer.Collectors.RBSCollector
import Racer.Library.Announcements
import Racer.Library.Outcome

namespace Racer
open Announcements Outcome

/-! What the collector has stored after a run of traces. -/

/-- The names a trace announces to the collector. -/
def Trace.announces (t : Trace) : List String :=
  t.constantUpdates.map (·.name)

/-- The name that `collect` looks up in `@results`. -/
def Trace.uses (t : Trace) : List String :=
  [t.owner.name]

def RBSCollector.traces (s : RBSCollector) (ownerName : String) (kind : MethodKind) (name : String) : List Trace :=
  ((s.results.get? ownerName).bind fun owner => (owner.methods kind).get? name).getD []

/-- The trace belongs to the method. -/
def Trace.isOf (ownerName : String) (kind : MethodKind) (name : String) (t : Trace) : Bool :=
  validMethodName t.methodName && t.owner.name = ownerName && t.methodKind = kind && t.methodName = name

/-- The first trace of each signature. -/
def firstOfEach (traces : List Trace) : List Trace :=
  traces.foldl (fun kept t => if kept.any (·.signature = t.signature) then kept else kept ++ [t]) []

section
variable (env : Environment)

/-- The first announcement under a valid name. -/
def announcement (constants : List Constant) (name : String) : Option Constant :=
  (constants.filterMap fun c => (ensureValidNames env c).toOption).find? (·.name = name)

/-- The constant as it is stored. -/
def recorded (constant : Constant) : Constant :=
  match env.classDecls (toTypeName constant.name) with
  | some classDecl => rejectExisting classDecl constant
  | none => constant

/-- The collector's state, when it has been given `constants` and has filed `traces`. -/
structure Collected (constants : List Constant) (traces : List Trace) (s : RBSCollector) : Prop where
  results : ∀ n, (s.results.get? n).map (·.constant) = (announcement env constants n).map (recorded env)
  existing : ∀ n, s.existingTypes.get? n = (announcement env constants n).bind fun _ =>
    (env.classDecls (toTypeName n)).map fun classDecl => ⟨classDecl, toTypeName n⟩
  objectModules : s.modulesInObjectClass = (((announcement env constants "Object").map (recorded env)).map fun c =>
    c.includedModules ++ c.prependedModules).getD []
  filed : ∀ n kind name, s.traces n kind name = firstOfEach (traces.filter (Trace.isOf n kind name))
  nonempty : ∀ n owner, s.results.get? n = some owner → ∀ kind name group,
    (owner.methods kind).get? name = some group → group ≠ []

/-- Neither validating the announced names nor the owner's name changes anything that
`collect` relies on. -/
structure NamesValid (t : Trace) : Prop where
  constants : ∀ c ∈ t.constantUpdates, ∃ valid, ensureValidNames env c = .ok valid
  owner : validName env t.owner.name = .ok t.owner.name

variable {env}

theorem announcement_snoc {constants : List Constant} {constant valid : Constant}
    (ensured : ensureValidNames env constant = .ok valid) (n : String) :
    announcement env (constants ++ [constant]) n =
      (announcement env constants n).or (if valid.name = n then some valid else none) := by
  have last : ([constant].filterMap fun c => (ensureValidNames env c).toOption) = [valid] := by
    simp [ensured, Except.toOption]
  rw [announcement, List.filterMap_append, List.find?_append, last]
  by_cases same : valid.name = n <;> simp [announcement, same]

theorem recorded_name (constant : Constant) : (recorded env constant).name = constant.name := by
  unfold recorded
  split <;> rfl

theorem Collected.init : Collected env [] [] {} :=
  { results       := fun _ => rfl
    existing      := fun _ => rfl
    objectModules := rfl
    filed         := fun _ _ _ => rfl
    nonempty      := fun n owner found => by cases found }

theorem Collected.isSome {constants : List Constant} {traces : List Trace} {s : RBSCollector}
    (collected : Collected env constants traces s) (n : String) :
    (s.results.get? n).isSome = (announcement env constants n).isSome := by
  have same := congrArg Option.isSome (collected.results n)
  rwa [Option.isSome_map, Option.isSome_map] at same

theorem announcement_name {constants : List Constant} {n : String} {c : Constant}
    (found : announcement env constants n = some c) : c.name = n := by
  simpa using List.find?_some found

theorem Collected.owner {constants : List Constant} {traces : List Trace} {s : RBSCollector}
    (collected : Collected env constants traces s) {n : String} {c : Constant}
    (found : announcement env constants n = some c) :
    ∃ owner, s.results.get? n = some owner ∧ owner.constant = recorded env c := by
  have results := collected.results n
  rw [found, Option.map_some] at results
  exact Option.map_eq_some_iff.mp results

theorem Collected.announced {constants : List Constant} {traces : List Trace} {s : RBSCollector}
    (collected : Collected env constants traces s) {n : String} {owner : Owner}
    (found : s.results.get? n = some owner) :
    ∃ c, announcement env constants n = some c ∧ owner.constant = recorded env c := by
  have results := collected.results n
  rw [found, Option.map_some] at results
  obtain ⟨c, there, same⟩ := Option.map_eq_some_iff.mp results.symm
  exact ⟨c, there, same.symm⟩

theorem Collected.name_eq {constants : List Constant} {traces : List Trace} {s : RBSCollector}
    (collected : Collected env constants traces s) {n : String} {owner : Owner}
    (found : s.results.get? n = some owner) : owner.constant.name = n := by
  obtain ⟨c, announced, constant⟩ := collected.announced found
  rw [constant, recorded_name, announcement_name announced]

theorem recorded_type (c : Constant) : (recorded env c).type = c.type := by
  unfold recorded
  split <;> rfl

theorem pushConstantToResults_known {s : RBSCollector} {constant : Constant}
    (known : (s.results.get? constant.name).isSome) : pushConstantToResults env s constant = s := by
  rw [pushConstantToResults, if_pos known]

theorem pushConstantToResults_new {s : RBSCollector} {constant : Constant}
    (noResult : s.results.get? constant.name = none) (noType : s.existingTypes.get? constant.name = none) :
    pushConstantToResults env s constant =
      { results := s.results.store constant.name { constant := recorded env constant }
        existingTypes :=
          match env.classDecls (toTypeName constant.name) with
          | some classDecl => s.existingTypes.store constant.name ⟨classDecl, toTypeName constant.name⟩
          | none => s.existingTypes
        modulesInObjectClass :=
          if constant.name = "Object" then s.modulesInObjectClass ++ (recorded env constant).includedModules ++
            (recorded env constant).prependedModules
          else s.modulesInObjectClass } := by
  have noResult' : ¬ (s.results.get? constant.name).isSome := by simp [noResult]
  have noType' : ¬ (s.existingTypes.get? constant.name).isSome := by simp [noType]
  rw [pushConstantToResults, if_neg noResult', if_neg noType', recorded]
  cases decl : env.classDecls (toTypeName constant.name) with
  | none => simp only [decl]
  | some classDecl =>
    simp only [decl]
    rfl

theorem Collected.push_known {constants : List Constant} {traces : List Trace} {s : RBSCollector}
    (collected : Collected env constants traces s) {constant valid : Constant}
    (ensured : ensureValidNames env constant = .ok valid) (known : (s.results.get? valid.name).isSome) :
    Collected env (constants ++ [constant]) traces (pushConstantToResults env s valid) := by
  rw [pushConstantToResults_known known]
  rw [collected.isSome] at known
  have same : ∀ n, announcement env (constants ++ [constant]) n = announcement env constants n := by
    intro n
    rw [announcement_snoc ensured]
    by_cases here : valid.name = n
    · subst here
      exact Option.or_of_isSome known
    · rw [if_neg here, Option.or_none]
  refine ⟨fun n => ?_, fun n => ?_, ?_, collected.filed, collected.nonempty⟩
  · rw [same, collected.results]
  · rw [same, collected.existing]
  · rw [same, collected.objectModules]

theorem Collected.push_new {constants : List Constant} {traces : List Trace} {s : RBSCollector}
    (collected : Collected env constants traces s) {constant valid : Constant}
    (ensured : ensureValidNames env constant = .ok valid) (noResult : s.results.get? valid.name = none) :
    Collected env (constants ++ [constant]) traces (pushConstantToResults env s valid) := by
  have absent : announcement env constants valid.name = none := by
    rw [← Option.isNone_iff_eq_none, ← Option.not_isSome, ← collected.isSome, noResult]
    rfl
  have noType : s.existingTypes.get? valid.name = none := by rw [collected.existing, absent]; rfl
  have announced : ∀ n, announcement env (constants ++ [constant]) n =
      if n = valid.name then some valid else announcement env constants n := by
    intro n
    rw [announcement_snoc ensured]
    by_cases here : n = valid.name
    · subst here
      simp [absent]
    · simp [here, Ne.symm here]
  rw [pushConstantToResults_new noResult noType]
  refine ⟨fun n => ?_, fun n => ?_, ?_, fun n kind name => ?_, fun n owner found kind name group stored => ?_⟩
  · rw [announced, OrderedHash.get?_store]
    by_cases here : n = valid.name
    · rw [if_pos here, if_pos here, Option.map_some, Option.map_some]
    · rw [if_neg here, if_neg here, collected.results]
  · rw [announced]
    have before := collected.existing n
    by_cases here : n = valid.name
    · subst here
      rw [if_pos rfl, Option.bind_some]
      cases decl : env.classDecls (toTypeName valid.name) with
      | none => simp only [noType, Option.map_none]
      | some classDecl => simp only [OrderedHash.get?_store_self, Option.map_some]
    · rw [if_neg here]
      split
      · rw [OrderedHash.get?_store_of_ne _ here, before]
      · exact before
  · rw [announced]
    by_cases here : valid.name = "Object"
    · have none : s.modulesInObjectClass = [] := by rw [collected.objectModules, ← here, absent]; rfl
      simp [here, none]
    · rw [if_neg here, if_neg (Ne.symm here), collected.objectModules]
  · rw [← collected.filed, RBSCollector.traces, RBSCollector.traces, OrderedHash.get?_store]
    by_cases here : n = valid.name
    · subst here
      rw [if_pos rfl, noResult]
      cases kind <;> rfl
    · rw [if_neg here]
  · rw [OrderedHash.get?_store] at found
    by_cases here : n = valid.name
    · rw [if_pos here] at found
      cases found
      cases kind <;> cases stored
    · rw [if_neg here] at found
      exact collected.nonempty n owner found kind name group stored

/-- One more announcement. Only the first of its name is stored. -/
theorem Collected.push {constants : List Constant} {traces : List Trace} {s : RBSCollector}
    (collected : Collected env constants traces s) {constant valid : Constant}
    (ensured : ensureValidNames env constant = .ok valid) :
    Collected env (constants ++ [constant]) traces (pushConstantToResults env s valid) := by
  cases known : s.results.get? valid.name with
  | none => exact collected.push_new ensured known
  | some owner => exact collected.push_known ensured (Option.isSome_of_mem known)

theorem firstOfEach_snoc (traces : List Trace) (t : Trace) : firstOfEach (traces ++ [t]) =
    if (firstOfEach traces).any (·.signature = t.signature) then firstOfEach traces else firstOfEach traces ++ [t] := by
  rw [firstOfEach, List.foldl_append]
  rfl

theorem mem_of_mem_firstOfEach {traces : List Trace} {t : Trace} (member : t ∈ firstOfEach traces) : t ∈ traces := by
  induction traces using List.reverseRecOn with
  | nil => cases member
  | append_singleton traces u ih =>
    rw [firstOfEach_snoc] at member
    split at member
    · exact List.mem_append_left _ (ih member)
    · rcases List.mem_append.mp member with earlier | last
      · exact List.mem_append_left _ (ih earlier)
      · exact List.mem_append_right _ last

theorem exists_firstOfEach {traces : List Trace} {t : Trace} (member : t ∈ traces) :
    ∃ u ∈ firstOfEach traces, u.signature = t.signature := by
  induction traces using List.reverseRecOn with
  | nil => cases member
  | append_singleton traces v ih =>
    rw [firstOfEach_snoc]
    split
    next again =>
      rcases List.mem_append.mp member with earlier | last
      · exact ih earlier
      · rw [List.mem_singleton.mp last]
        simpa using again
    next first =>
      rcases List.mem_append.mp member with earlier | last
      · obtain ⟨u, there, same⟩ := ih earlier
        exact ⟨u, List.mem_append_left _ there, same⟩
      · exact ⟨t, List.mem_append_right _ last, rfl⟩

theorem Owner.get?_storeMethod (owner : Owner) (kind kind' : MethodKind) (name name' : String) (group : List Trace) :
    ((owner.storeMethod kind name group).methods kind').get? name' =
      if kind' = kind ∧ name' = name then some group else (owner.methods kind').get? name' := by
  have methods : (owner.storeMethod kind name group).methods kind' =
      if kind' = kind then (owner.methods kind').store name group else owner.methods kind' := by
    cases kind <;> cases kind' <;> rfl
  rw [methods]
  by_cases same : kind' = kind
  · simp [same, OrderedHash.get?_store]
  · simp [same]

theorem Owner.constant_storeMethod (owner : Owner) (kind : MethodKind) (name : String) (group : List Trace) :
    (owner.storeMethod kind name group).constant = owner.constant := by
  cases kind <;> rfl

/-- Filing under one method changes nothing under another. -/
theorem traces_storeMethod {s : RBSCollector} {owner : Owner} {m : String} (found : s.results.get? m = some owner)
    (kind kind' : MethodKind) (n name name' : String) (group : List Trace) :
    RBSCollector.traces { s with results := s.results.store m (owner.storeMethod kind name group) } n kind' name' =
      if n = m ∧ kind' = kind ∧ name' = name then group else s.traces n kind' name' := by
  simp only [RBSCollector.traces, OrderedHash.get?_store]
  by_cases here : n = m
  · subst here
    rw [if_pos rfl, found, Option.bind_some, Option.bind_some, Owner.get?_storeMethod]
    by_cases same : kind' = kind ∧ name' = name <;> simp [same]
  · rw [if_neg here, if_neg fun both => here both.1]

theorem Trace.isOf_iff {t : Trace} {n : String} {kind : MethodKind} {name : String} :
    t.isOf n kind name = true ↔
      validMethodName t.methodName = true ∧ t.owner.name = n ∧ t.methodKind = kind ∧ t.methodName = name := by
  simp only [Trace.isOf, Bool.and_eq_true, decide_eq_true_eq, and_assoc]

theorem Collected.file {constants : List Constant} {traces : List Trace} {s s' : RBSCollector} {t : Trace}
    (collected : Collected env constants traces s) (run : s.file t = .ok s') :
    Collected env constants (traces ++ [t]) s' := by
  have other {n : String} {kind : MethodKind} {name : String} (no : ¬ t.isOf n kind name = true) :
      firstOfEach ((traces ++ [t]).filter (Trace.isOf n kind name)) =
        firstOfEach (traces.filter (Trace.isOf n kind name)) := by
    rw [List.filter_append, List.filter_cons_of_neg no, List.filter_nil, List.append_nil]
  have mine {n : String} {kind : MethodKind} {name : String} (yes : t.isOf n kind name = true) :
      firstOfEach ((traces ++ [t]).filter (Trace.isOf n kind name)) =
        if (s.traces n kind name).any (·.signature = t.signature) then s.traces n kind name
        else s.traces n kind name ++ [t] := by
    rw [List.filter_append, List.filter_cons_of_pos yes, List.filter_nil, firstOfEach_snoc, collected.filed]
  unfold RBSCollector.file at run
  split at run
  next valid =>
    split at run
    next => cases run
    next owner found =>
      have filed : s.traces t.owner.name t.methodKind t.methodName =
          ((owner.methods t.methodKind).get? t.methodName).getD [] := by rw [RBSCollector.traces, found]; rfl
      rw [← filed] at run
      simp only at run
      split at run
      next again =>
        cases run
        refine ⟨collected.results, collected.existing, collected.objectModules, fun n kind name => ?_,
          collected.nonempty⟩
        by_cases is : t.isOf n kind name = true
        · obtain ⟨_, rfl, rfl, rfl⟩ := Trace.isOf_iff.mp is
          rw [mine is, if_pos again]
        · rw [other is, collected.filed]
      next first =>
        cases run
        refine ⟨fun n => ?_, collected.existing, collected.objectModules, fun n kind name => ?_,
          fun n stored found' kind name group atName => ?_⟩
        · rw [← collected.results, OrderedHash.get?_store]
          by_cases here : n = t.owner.name
          · rw [if_pos here, here, found, Option.map_some, Option.map_some, Owner.constant_storeMethod]
          · rw [if_neg here]
        · rw [traces_storeMethod found]
          by_cases here : n = t.owner.name ∧ kind = t.methodKind ∧ name = t.methodName
          · rw [if_pos here]
            obtain ⟨rfl, rfl, rfl⟩ := here
            rw [mine (Trace.isOf_iff.mpr ⟨valid, rfl, rfl, rfl⟩), if_neg first]
          · have elsewhere : ¬ t.isOf n kind name = true := fun is => by
              obtain ⟨_, rfl, rfl, rfl⟩ := Trace.isOf_iff.mp is
              exact here ⟨rfl, rfl, rfl⟩
            rw [if_neg here, other elsewhere, collected.filed]
        · rw [OrderedHash.get?_store] at found'
          split at found'
          · cases found'
            rw [Owner.get?_storeMethod] at atName
            split at atName
            · cases atName
              exact List.append_ne_nil_of_right_ne_nil _ (List.cons_ne_nil t [])
            · exact collected.nonempty _ owner found kind name group atName
          · exact collected.nonempty n stored found' kind name group atName
  next invalid =>
    cases run
    refine ⟨collected.results, collected.existing, collected.objectModules, fun n kind name => ?_, collected.nonempty⟩
    rw [other fun is => invalid (Trace.isOf_iff.mp is).1, collected.filed]

theorem ensureValidNames_name {constant valid : Constant} (ensured : ensureValidNames env constant = .ok valid) :
    validName env constant.name = .ok valid.name := by
  unfold ensureValidNames at ensured
  obtain ⟨name, validated, ensured⟩ := bind_eq_ok.mp ensured
  obtain ⟨_, _, ensured⟩ := bind_eq_ok.mp ensured
  obtain ⟨_, _, ensured⟩ := bind_eq_ok.mp ensured
  obtain ⟨_, _, ensured⟩ := bind_eq_ok.mp ensured
  obtain ⟨_, _, ensured⟩ := bind_eq_ok.mp ensured
  cases ensured
  exact validated

/-- The loop over the announcements of a trace. -/
theorem Collected.pushAll {constants updates : List Constant} {traces : List Trace} {s s' : RBSCollector}
    (collected : Collected env constants traces s)
    (run : updates.foldlM (fun s constant => do
      let constant ← ensureValidNames env constant
      pure (pushConstantToResults env s constant)) s = Except.ok s') :
    Collected env (constants ++ updates) traces s' := by
  induction updates generalizing constants s with
  | nil =>
    cases run
    rwa [List.append_nil]
  | cons constant updates ih =>
    rw [List.foldlM_cons] at run
    cases ensured : ensureValidNames env constant with
    | error e => rw [ensured] at run; cases run
    | ok valid =>
      rw [ensured] at run
      have next := ih (collected.push ensured) run
      rwa [List.append_assoc] at next

theorem pushAll_total {updates : List Constant} (valid : ∀ c ∈ updates, ∃ valid, ensureValidNames env c = .ok valid)
    (s : RBSCollector) : ∃ s', updates.foldlM (fun s constant => do
      let constant ← ensureValidNames env constant
      pure (pushConstantToResults env s constant)) s = Except.ok s' := by
  induction updates generalizing s with
  | nil => exact ⟨s, rfl⟩
  | cons constant updates ih =>
    obtain ⟨c, ensured⟩ := valid constant List.mem_cons_self
    obtain ⟨s', run⟩ := ih (fun c member => valid c (List.mem_cons_of_mem constant member))
      (pushConstantToResults env s c)
    refine ⟨s', ?_⟩
    rw [List.foldlM_cons, ensured]
    exact run

theorem Collected.collect {constants : List Constant} {traces : List Trace} {s s' : RBSCollector} {t : Trace}
    (collected : Collected env constants traces s) (run : s.collect env t = .ok s') :
    Collected env (constants ++ t.constantUpdates) (traces ++ [t]) s' := by
  obtain ⟨u, updates, rest⟩ := bind_eq_ok.mp run
  exact (collected.pushAll updates).file rest

/-- A run of traces leaves what they announce and file. -/
theorem collectAll_collected {traces : List Trace} {s : RBSCollector} (run : collectAll env traces = .ok s) :
    Collected env (traces.flatMap (·.constantUpdates)) traces s := by
  unfold collectAll at run
  induction traces using List.reverseRecOn generalizing s with
  | nil => cases run; exact .init
  | append_singleton traces t ih =>
    rw [List.foldlM_append] at run
    obtain ⟨u, before, run⟩ := bind_eq_ok.mp run
    obtain ⟨s', last, run⟩ := bind_eq_ok.mp run
    cases run
    have collected := (ih before).collect last
    simpa using collected

theorem announcement_isSome_iff {constants : List Constant} {n : String} :
    (announcement env constants n).isSome ↔ ∃ c ∈ constants, ∃ valid, ensureValidNames env c = .ok valid ∧
      valid.name = n := by
  rw [announcement, List.find?_isSome]
  constructor
  · rintro ⟨valid, member, name⟩
    obtain ⟨c, update, ensured⟩ := List.mem_filterMap.mp member
    cases run : ensureValidNames env c with
    | error e => rw [run] at ensured; cases ensured
    | ok v =>
      rw [run] at ensured
      cases ensured
      exact ⟨c, update, valid, run, of_decide_eq_true name⟩
  · rintro ⟨c, update, valid, ensured, name⟩
    exact ⟨valid, List.mem_filterMap.mpr ⟨c, update, by rw [ensured]; rfl⟩, decide_eq_true name⟩

/-- A name that validation keeps is known as soon as it has been announced. -/
theorem announcement_of_announced {constants : List Constant}
    (valid : ∀ c ∈ constants, ∃ valid, ensureValidNames env c = .ok valid) {n : String}
    (fixed : validName env n = .ok n) (announced : n ∈ constants.map (·.name)) :
    (announcement env constants n).isSome := by
  obtain ⟨c, update, rfl⟩ := List.mem_map.mp announced
  obtain ⟨v, ensured⟩ := valid c update
  have name : v.name = c.name := Except.ok.inj ((ensureValidNames_name ensured).symm.trans fixed)
  exact announcement_isSome_iff.mpr ⟨c, update, v, ensured, name⟩

/-- A trace is collected unless its method is to be filed under an unknown constant. -/
theorem Collected.collect_returns_iff {constants : List Constant} {traces : List Trace} {s : RBSCollector} {t : Trace}
    (collected : Collected env constants traces s)
    (valid : ∀ c ∈ t.constantUpdates, ∃ valid, ensureValidNames env c = .ok valid) :
    (∃ s', s.collect env t = .ok s') ↔ (validMethodName t.methodName = true →
      (announcement env (constants ++ t.constantUpdates) t.owner.name).isSome) := by
  obtain ⟨u, updates⟩ := pushAll_total valid s
  have run : s.collect env t = u.file t := by
    rw [RBSCollector.collect, updates]
    rfl
  rw [run, ← (collected.pushAll updates).isSome]
  unfold RBSCollector.file
  cases validMethodName t.methodName with
  | false => simp [pure, Except.pure]
  | true =>
    cases u.results.get? t.owner.name with
    | none => simp [throw, throwThe, MonadExceptOf.throw]
    | some owner =>
      simp only [if_true, Option.isSome_some, imp_self, iff_true]
      split <;> exact ⟨_, rfl⟩

/-- Traces are collected without an exception when all of them are valid and no method
is to be filed under an unknown constant. -/
theorem collectAll_returns {traces : List Trace}
    (valid : ∀ t ∈ traces, ∀ c ∈ t.constantUpdates, ∃ valid, ensureValidNames env c = .ok valid)
    (known : ∀ before t after, traces = before ++ t :: after → validMethodName t.methodName = true →
      (announcement env ((before ++ [t]).flatMap (·.constantUpdates)) t.owner.name).isSome) :
    ∃ s, collectAll env traces = .ok s := by
  induction traces using List.reverseRecOn with
  | nil => exact ⟨{}, rfl⟩
  | append_singleton traces t ih =>
    obtain ⟨s, run⟩ := ih (fun u member => valid u (List.mem_append_left _ member)) fun before u after split =>
      known before u (after ++ [t]) (by rw [split, List.append_assoc, List.cons_append])
    have last := (collectAll_collected run).collect_returns_iff (valid t (by simp))
    obtain ⟨s', collected⟩ := last.mpr fun method => by simpa using known traces t [] rfl method
    refine ⟨s', ?_⟩
    rw [collectAll, List.foldlM_append, ← collectAll, run]
    exact bind_eq_ok.mpr ⟨s, rfl, bind_eq_ok.mpr ⟨s', collected, rfl⟩⟩

/-- Traces whose owners have been announced are collected without an exception. -/
theorem collectAll_total {traces : List Trace} (valid : ∀ t ∈ traces, NamesValid env t)
    (ordered : Ordered Trace.announces Trace.uses traces) : ∃ s, collectAll env traces = .ok s := by
  refine collectAll_returns (fun t member => (valid t member).constants) ?_
  rintro before t after rfl _
  obtain ⟨u, early, announces⟩ := ordered before t after rfl t.owner.name (List.mem_singleton_self _)
  have inside : ∀ u ∈ before ++ [t], u ∈ before ++ t :: after := by grind
  refine announcement_of_announced (fun c update => ?_) (valid t (by simp)).owner ?_
  · obtain ⟨v, member, update⟩ := List.mem_flatMap.mp update
    exact (valid v (inside v member)).constants c update
  · obtain ⟨c, update, name⟩ := List.mem_map.mp announces
    exact List.mem_map.mpr ⟨c, List.mem_flatMap.mpr ⟨u, early, update⟩, name⟩

end

end Racer
