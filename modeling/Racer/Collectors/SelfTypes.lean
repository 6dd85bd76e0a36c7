import Mathlib.Data.List.Perm.Subperm
import Mathlib.Logic.Relation
import Racer.Collectors.Collected
import Racer.Library.SameMembers

namespace Racer
open Outcome Relation

/-! `find_self_types` as a search of the modules that a module includes. -/

section
variable (s : RBSCollector)

/-- One `included_modules` step between stored constants. -/
def RBSCollector.Includes (n m : String) : Prop :=
  ∃ owner, s.results.get? n = some owner ∧ m ∈ owner.constant.includedModules

/-- No existing module that `n` includes, directly or not, has self types. -/
def RBSCollector.PlainIncludes (n : String) : Prop :=
  ∀ m existing, TransGen s.Includes n m → s.existingTypes.get? m = some existing → existing.classDecl.selfTypes = []

/-- The self types of the modules that `n` includes, directly or not. A module of the
`Object` class, or one that includes such a module, has `BasicObject` besides. -/
def RBSCollector.IsSelfType (n : String) (type : TypeName) : Prop :=
  (∃ m existing, TransGen s.Includes n m ∧ s.existingTypes.get? m = some existing ∧
    type ∈ existing.classDecl.selfTypes) ∨
  (type = toTypeName "BasicObject" ∧ ∃ m ∈ s.modulesInObjectClass, ReflTransGen s.Includes n m)

/-- What one turn of the loop in `find_self_types` adds. -/
def includedSelfTypes (fuel : Nat) (moduleName : String) : Except RubyError (List TypeName) :=
  match s.results.get? moduleName with
  | none => throw .NoMethodError
  | some included =>
    match s.existingTypes.get? moduleName with
    | some existing =>
      if existing.classDecl.selfTypes.isEmpty then findSelfTypes s fuel included.constant else throw .NameError
    | none => findSelfTypes s fuel included.constant

end

section
variable {s : RBSCollector}

theorem findSelfTypes_succ (fuel : Nat) (owner : Constant) : findSelfTypes s (fuel + 1) owner =
    (fun found => (if owner.name ∈ s.modulesInObjectClass then [toTypeName "BasicObject"] else []) ++ found.flatten) <$>
      owner.includedModules.mapM (includedSelfTypes s fuel) := by
  rw [findSelfTypes, ← foldlM_append]
  refine congrArg (fun turn => List.foldlM turn _ owner.includedModules) (funext fun types => funext fun m => ?_)
  unfold includedSelfTypes
  cases s.results.get? m with
  | none => rfl
  | some included =>
    cases s.existingTypes.get? m with
    | none => rfl
    | some existing =>
      simp only
      split <;> rfl

theorem includedSelfTypes_eq_ok {fuel : Nat} {m : String} {types : List TypeName} :
    includedSelfTypes s fuel m = .ok types ↔ ∃ included, s.results.get? m = some included ∧
      (∀ existing, s.existingTypes.get? m = some existing → existing.classDecl.selfTypes = []) ∧
        findSelfTypes s fuel included.constant = .ok types := by
  unfold includedSelfTypes
  cases s.results.get? m with
  | none => simp [throw, throwThe, MonadExceptOf.throw]
  | some included =>
    cases s.existingTypes.get? m with
    | none => simp
    | some existing =>
      by_cases plain : existing.classDecl.selfTypes = []
      · simp [plain]
      · simp [plain, throw, throwThe, MonadExceptOf.throw]

theorem includes_iff {n m : String} {owner : Owner} (found : s.results.get? n = some owner) :
    s.Includes n m ↔ m ∈ owner.constant.includedModules := by
  simp [RBSCollector.Includes, found]

/-- `find_self_types` finds nothing but `BasicObject`, as it raises for all else. -/
theorem findSelfTypes_sound {fuel : Nat} {n : String} {owner : Owner} {types : List TypeName}
    (names : ∀ n owner, s.results.get? n = some owner → owner.constant.name = n)
    (found : s.results.get? n = some owner) (run : findSelfTypes s fuel owner.constant = .ok types) :
    s.PlainIncludes n ∧ ∀ type, type ∈ types ↔
      type = toTypeName "BasicObject" ∧ ∃ m ∈ s.modulesInObjectClass, ReflTransGen s.Includes n m := by
  induction fuel generalizing n owner types with
  | zero => cases run
  | succ fuel ih =>
    rw [findSelfTypes_succ] at run
    obtain ⟨found', each, rfl⟩ := map_eq_ok.mp run
    have turns := mapM_eq_ok.mp each
    have turn {k : String} (step : s.Includes n k) : ∃ t ∈ found', ∃ included, s.results.get? k = some included ∧
        (∀ existing, s.existingTypes.get? k = some existing → existing.classDecl.selfTypes = []) ∧
          findSelfTypes s fuel included.constant = .ok t := by
      obtain ⟨t, there, added⟩ := SameMembers.image_of_mem turns ((includes_iff found).mp step)
      exact ⟨t, there, includedSelfTypes_eq_ok.mp added⟩
    constructor
    · intro m existing path exists'
      obtain ⟨k, step, rest⟩ := TransGen.head'_iff.mp path
      obtain ⟨t, _, included, there, plain, deeper⟩ := turn step
      rcases ReflTransGen.cases_head_iff.mp rest with rfl | ⟨j, next, rest⟩
      · exact plain existing exists'
      · exact (ih there deeper).1 m existing (TransGen.head' next rest) exists'
    · intro type
      rw [List.mem_append, List.mem_flatten, names n owner found]
      constructor
      · rintro (own | ⟨t, inside, member⟩)
        · split at own
          next here => exact ⟨List.mem_singleton.mp own, n, here, .refl⟩
          next => cases own
        · obtain ⟨k, step, added⟩ := SameMembers.image_of_mem turns.flip inside
          obtain ⟨included, there, _, deeper⟩ := includedSelfTypes_eq_ok.mp added
          obtain ⟨basic, m, object, path⟩ := ((ih there deeper).2 type).mp member
          exact ⟨basic, m, object, path.head ((includes_iff found).mpr step)⟩
      · rintro ⟨rfl, m, object, path⟩
        rcases ReflTransGen.cases_head_iff.mp path with rfl | ⟨k, step, rest⟩
        · rw [if_pos object]
          exact .inl (List.mem_singleton_self _)
        · obtain ⟨t, inside, included, there, _, deeper⟩ := turn step
          exact .inr ⟨t, inside, ((ih there deeper).2 _).mpr ⟨rfl, m, object, rest⟩⟩

/-- The recursion of `find_self_types` ends. The modules above the current one are
different results, since none of them is reached again. -/
theorem findSelfTypes_total {fuel : Nat} {above : List String} (nodup : above.Nodup) {n : String} {owner : Owner}
    (found : s.results.get? n = some owner) (acyclic : ∀ m, ReflTransGen s.Includes n m → ¬ TransGen s.Includes m m)
    (closed : ∀ m k, ReflTransGen s.Includes n m → s.Includes m k → (s.results.get? k).isSome)
    (plain : s.PlainIncludes n) (path : ∀ a ∈ above, TransGen s.Includes a n)
    (enough : s.results.entries.length < fuel + above.length) :
    ∃ types, findSelfTypes s fuel owner.constant = .ok types := by
  induction fuel generalizing above n owner with
  | zero =>
    have inside : above ⊆ s.results.entries.map Prod.fst := by
      intro a member
      obtain ⟨k, ⟨stored, there, _⟩, _⟩ := TransGen.head'_iff.mp (path a member)
      exact List.mem_map.mpr ⟨(a, stored), OrderedHash.mem_entries.mpr there, rfl⟩
    have bound := (List.subperm_of_subset nodup inside).length_le
    rw [List.length_map] at bound
    omega
  | succ fuel ih =>
    rw [findSelfTypes_succ]
    have turns : ∃ found, owner.constant.includedModules.mapM (includedSelfTypes s fuel) = .ok found := by
      refine mapM_total fun m member => ?_
      have step : s.Includes n m := (includes_iff found).mpr member
      obtain ⟨included, there⟩ := Option.isSome_iff_exists.mp (closed n m .refl step)
      have fresh : n ∉ above := fun member => acyclic n .refl (path n member)
      have later : ∀ a ∈ n :: above, TransGen s.Includes a m :=
        List.forall_mem_cons.mpr ⟨.single step, fun a member => (path a member).tail step⟩
      have bound : s.results.entries.length < fuel + (n :: above).length := by
        rw [List.length_cons]
        omega
      obtain ⟨types, deeper⟩ := ih (nodup.cons fresh) there (fun k path => acyclic k (path.head step))
        (fun k j path => closed k j (path.head step)) (fun k existing path => plain k existing (path.head step)) later
        bound
      exact ⟨types, includedSelfTypes_eq_ok.mpr
        ⟨included, there, fun existing => plain m existing (.single step), deeper⟩⟩
    obtain ⟨found, run⟩ := turns
    exact ⟨_, map_eq_ok.mpr ⟨found, run, rfl⟩⟩

/-- `find_self_types` returns exactly the self types of a module if and only if it reaches
no existing module that has any. -/
theorem find_self_types_exact_iff {env : Environment} {traces : List Trace} (run : collectAll env traces = .ok s)
    (acyclic : ∀ n, ¬ TransGen s.Includes n n) (closed : ∀ n m, s.Includes n m → (s.results.get? m).isSome)
    {n : String} {owner : Owner} (found : s.results.get? n = some owner) :
    (∃ types, findSelfTypes s (s.results.entries.length + 1) owner.constant = .ok types ∧
      ∀ type, type ∈ types ↔ s.IsSelfType n type) ↔ s.PlainIncludes n := by
  have collected := collectAll_collected run
  have names : ∀ n owner, s.results.get? n = some owner → owner.constant.name = n := fun _ _ => collected.name_eq
  constructor
  · rintro ⟨types, returned, _⟩
    exact (findSelfTypes_sound names found returned).1
  · intro plain
    obtain ⟨types, returned⟩ := findSelfTypes_total List.nodup_nil found (fun m _ => acyclic m)
      (fun m k _ => closed m k) plain nofun (Nat.lt_succ_self s.results.entries.length)
    refine ⟨types, returned, fun type => ?_⟩
    rw [(findSelfTypes_sound names found returned).2 type]
    refine ⟨.inr, fun self => self.resolve_left ?_⟩
    rintro ⟨m, existing, path, exists', member⟩
    rw [plain m existing path exists'] at member
    cases member

end

/-- `Comparable` is loaded, which is only for classes that have `<=>`. -/
def comparableSignatures : Environment :=
  .ofDecls fun name =>
    if name = toTypeName "Comparable" then some { selfTypes := [toTypeName "_WithSpaceshipOperator"] }
    else if name = toTypeName "Kernel" then some {}
    else none

/-- A call of `Wallet.open` by a process with these modules. -/
def callOfOpen (modules : List Constant) : Trace where
  methodOwner := { name := "Wallet", singleton := true }
  methodCallee := none
  methodName := "open"
  methodKind := .SINGLETON
  methodVisibility := .PUBLIC
  returnType := { name := "Wallet", singleton := true }
  params := []
  blockParam := none
  constantUpdates :=
    { name := "BasicObject", type := .CLASS } ::
      { name := "Object", type := .CLASS, superclass := some "BasicObject", includedModules := ["Kernel"] } ::
        { name := "Kernel" } :: modules

/-- The include relation of the collector is this one. -/
def includesOnly (edges : List (String × String)) (s : RBSCollector) : Bool :=
  s.results.entries.all fun entry => entry.2.constant.includedModules.all fun m =>
    (entry.1, m) ∈ edges && (s.results.get? m).isSome

theorem includesOnly_mem {edges : List (String × String)} {s : RBSCollector} (only : includesOnly edges s = true)
    {n m : String} (step : s.Includes n m) : (n, m) ∈ edges ∧ (s.results.get? m).isSome = true := by
  obtain ⟨owner, found, member⟩ := step
  have entry := List.all_eq_true.mp only (n, owner) (OrderedHash.mem_entries.mpr found)
  simpa using List.all_eq_true.mp entry m member

theorem includesOnly_acyclic {edges : List (String × String)} {s : RBSCollector} (only : includesOnly edges s = true)
    (rank : String → Nat) (lower : ∀ edge ∈ edges, rank edge.2 < rank edge.1) (n : String) :
    ¬ TransGen s.Includes n n := by
  have falls {m : String} (path : TransGen s.Includes n m) : rank m < rank n := by
    induction path with
    | single step => exact lower _ (includesOnly_mem only step).1
    | tail _ step ih => exact (lower _ (includesOnly_mem only step).1).trans ih
  exact fun cycle => lt_irrefl _ (falls cycle)

/-- `Wallet` includes a module that includes `Kernel`, which `Object` includes too. -/
def wallet : List Constant :=
  [{ name := "Wallet", includedModules := ["Named"] }, { name := "Named", includedModules := ["Kernel"] }]

theorem find_self_types_of_wallet : ∃ s owner types, collectAll comparableSignatures [callOfOpen wallet] = .ok s ∧
    s.results.get? "Wallet" = some owner ∧
      findSelfTypes s (s.results.entries.length + 1) owner.constant = .ok types ∧
        ∀ type, type ∈ types ↔ s.IsSelfType "Wallet" type := by
  have checked : (collectAll comparableSignatures [callOfOpen wallet]).toOption.any (fun s =>
      includesOnly [("Object", "Kernel"), ("Wallet", "Named"), ("Named", "Kernel")] s &&
        (s.results.get? "Wallet").isSome && s.existingTypes.entries.all (·.2.classDecl.selfTypes.isEmpty)) = true := by
    decide +kernel
  obtain ⟨s, run, checked⟩ := exists_of_any checked
  simp only [Bool.and_eq_true] at checked
  obtain ⟨⟨only, there⟩, plain⟩ := checked
  obtain ⟨owner, found⟩ := Option.isSome_iff_exists.mp there
  have acyclic := includesOnly_acyclic only (fun n => if n = "Kernel" then 0 else if n = "Named" then 1 else 2)
    (by decide)
  have closed (n m : String) (step : s.Includes n m) := (includesOnly_mem only step).2
  have none : s.PlainIncludes "Wallet" := by
    intro m existing _ exists'
    exact List.isEmpty_iff.mp (List.all_eq_true.mp plain _ (OrderedHash.mem_entries.mpr exists'))
  obtain ⟨types, returned, exact⟩ := (find_self_types_exact_iff run acyclic closed found).mpr none
  exact ⟨s, owner, types, run, found, returned, exact⟩

/-- `Money` includes `Comparable`, whose self types are read through a name that does not exist. -/
def money : List Constant :=
  [{ name := "Money", includedModules := ["Comparable"] }, { name := "Comparable" }]

theorem self_types_of_comparable_raise : ∃ s owner, collectAll comparableSignatures [callOfOpen (money ++ wallet)] =
    .ok s ∧ (∀ n, ¬ TransGen s.Includes n n) ∧ (∀ n m, s.Includes n m → (s.results.get? m).isSome) ∧
      s.results.get? "Money" = some owner ∧
        findSelfTypes s (s.results.entries.length + 1) owner.constant = .error .NameError := by
  have checked : (collectAll comparableSignatures [callOfOpen (money ++ wallet)]).toOption.any (fun s =>
      includesOnly [("Object", "Kernel"), ("Wallet", "Named"), ("Named", "Kernel"), ("Money", "Comparable")] s &&
        (s.results.get? "Money").any fun owner =>
          (findSelfTypes s (s.results.entries.length + 1) owner.constant) matches .error .NameError) = true := by
    decide +kernel
  obtain ⟨s, run, checked⟩ := exists_of_any checked
  simp only [Bool.and_eq_true] at checked
  obtain ⟨only, raises⟩ := checked
  obtain ⟨owner, found, raises⟩ := Option.any_eq_true _ _ |>.mp raises
  have acyclic := includesOnly_acyclic only
    (fun n => if n = "Kernel" ∨ n = "Comparable" then 0 else if n = "Named" then 1 else 2) (by decide)
  refine ⟨s, owner, run, acyclic, fun n m step => (includesOnly_mem only step).2, found, ?_⟩
  split at raises
  next raised => exact raised
  next => cases raises

end Racer
