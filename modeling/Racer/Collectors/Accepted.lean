import Racer.Collectors.Collected
import Racer.Collectors.Names

namespace Racer
open Announcements Outcome

/-! Whether `collect` accepts the traces of constants that have been announced. -/

/-- All constants of the announcement have names that consist of fragments. -/
structure Constant.WellNamed (c : Constant) : Prop where
  name : IsPath c.name
  superclass : ∀ n ∈ c.superclass, IsPath n
  includedModules : ∀ n ∈ c.includedModules, IsPath n
  prependedModules : ∀ n ∈ c.prependedModules, IsPath n
  extendedModules : ∀ n ∈ c.extendedModules, IsPath n

/-- The raw names of the owner and of the callee. -/
def Trace.rawNames (t : Trace) : List String :=
  t.methodOwner.name :: (t.methodCallee.map (·.name)).toList

/-- A trace of the same signature is stored under the record of the constant. -/
def Stored (env : Environment) (s : RBSCollector) (t : Trace) : Prop :=
  ∃ n owner group, validName env t.owner.name = .ok n ∧ s.results.get? n = some owner ∧
    (owner.methods t.methodKind).get? t.methodName = some group ∧ ∃ u ∈ group, u.signature = t.signature

/-- Every call of `collect` returns and has stored its trace if the name of its method is valid. -/
def AcceptsAll (env : Environment) (traces : List Trace) : Prop :=
  ∀ before t after, traces = before ++ t :: after → ∃ s s', collectAll env before = .ok s ∧
    s.collect env t = .ok s' ∧ (validMethodName t.methodName = true → Stored env s' t)

section
variable {env : Environment}

theorem Trace.owner_mem_rawNames (t : Trace) : t.owner.name ∈ t.rawNames := by
  unfold Trace.owner Trace.rawNames
  cases t.methodCallee <;> simp

theorem Constant.WellNamed.ensured {c : Constant} (named : c.WellNamed) :
    ∃ valid, ensureValidNames env c = .ok valid := by
  have names {ns : List String} (paths : ∀ n ∈ ns, IsPath n) : ∃ valid, ns.mapM (validName env) = .ok valid :=
    mapM_total fun n member => (paths n member).validName_total
  have superclass : ∃ valid, c.superclass.mapM (validName env) = .ok valid := by
    cases above : c.superclass with
    | none => exact ⟨none, rfl⟩
    | some n =>
      obtain ⟨valid, validated⟩ : ∃ valid, validName env n = .ok valid := (named.superclass n above).validName_total
      exact ⟨some valid, map_eq_ok.mpr ⟨valid, validated, rfl⟩⟩
  refine bind_total named.name.validName_total fun _ => bind_total superclass fun _ => ?_
  refine bind_total (names named.includedModules) fun _ => bind_total (names named.prependedModules) fun _ => ?_
  exact bind_total (names named.extendedModules) fun _ => ⟨_, rfl⟩

/-- What has been filed for a trace. -/
theorem Collected.stored {constants : List Constant} {traces : List Trace} {s : RBSCollector} {t : Trace}
    (collected : Collected env constants (traces ++ [t]) s) (method : validMethodName t.methodName = true)
    (fixed : validName env t.owner.name = .ok t.owner.name) : Stored env s t := by
  have own : t ∈ (traces ++ [t]).filter (Trace.isOf t.owner.name t.methodKind t.methodName) :=
    List.mem_filter.mpr ⟨by simp, by simp [Trace.isOf, method]⟩
  obtain ⟨u, first, same⟩ := exists_firstOfEach own
  rw [← collected.filed, RBSCollector.traces] at first
  cases found : s.results.get? t.owner.name with
  | none =>
    rw [found] at first
    cases first
  | some owner =>
    rw [found, Option.bind_some] at first
    cases stored : (owner.methods t.methodKind).get? t.methodName with
    | none =>
      rw [stored] at first
      cases first
    | some group =>
      rw [stored] at first
      exact ⟨t.owner.name, owner, group, fixed, found, stored, u, first, same⟩

/-- The traces of announced constants are accepted exactly if `valid_name` does not change
the name of any constant under which a method is filed. -/
theorem accepts_announced_iff (upcases : env.Upcases) {traces : List Trace}
    (named : ∀ t ∈ traces, ∀ c ∈ t.constantUpdates, c.WellNamed)
    (ordered : Ordered Trace.announces Trace.rawNames traces) :
    AcceptsAll env traces ↔
      ∀ t ∈ traces, validMethodName t.methodName = true → validName env t.owner.name = .ok t.owner.name := by
  have valid : ∀ t ∈ traces, ∀ c ∈ t.constantUpdates, ∃ valid, ensureValidNames env c = .ok valid :=
    fun t member c update => (named t member c update).ensured
  constructor
  · intro accepts t member method
    obtain ⟨before, after, rfl⟩ := List.append_of_mem member
    obtain ⟨s, s', run, last, _⟩ := accepts before t after rfl
    have known := ((collectAll_collected run).collect_returns_iff (valid t member)).mp ⟨s', last⟩ method
    obtain ⟨c, update, v, ensured, name⟩ := announcement_isSome_iff.mp known
    have path : IsPath c.name := by
      rcases List.mem_append.mp update with earlier | own
      · obtain ⟨u, inside, update⟩ := List.mem_flatMap.mp earlier
        exact (named u (List.mem_append_left _ inside) c update).name
      · exact (named t member c own).name
    rw [← name]
    exact path.validName_valid upcases (ensureValidNames_name ensured)
  · rintro fixed before t after rfl
    have known {front : List Trace} {u : Trace} {rest : List Trace}
        (split : before ++ t :: after = front ++ u :: rest) (method : validMethodName u.methodName = true) :
        (announcement env ((front ++ [u]).flatMap (·.constantUpdates)) u.owner.name).isSome := by
      have inside : ∀ w ∈ front ++ [u], w ∈ before ++ t :: after := by
        rw [split]
        grind
      obtain ⟨w, early, announces⟩ := ordered front u rest split u.owner.name u.owner_mem_rawNames
      refine announcement_of_announced (fun c update => ?_) (fixed u (inside u (by simp)) method) ?_
      · obtain ⟨w, member, update⟩ := List.mem_flatMap.mp update
        exact valid w (inside w member) c update
      · obtain ⟨c, update, name⟩ := List.mem_map.mp announces
        exact List.mem_map.mpr ⟨c, List.mem_flatMap.mpr ⟨w, early, update⟩, name⟩
    obtain ⟨s, run⟩ : ∃ s, collectAll env before = .ok s := by
      refine collectAll_returns (fun u member => valid u (List.mem_append_left _ member)) fun front u rest split => ?_
      refine known (?_ : _ = front ++ u :: (rest ++ t :: after))
      rw [split, List.append_assoc, List.cons_append]
    have collected := collectAll_collected run
    have last' : validMethodName t.methodName = true →
        (announcement env ((before ++ [t]).flatMap (·.constantUpdates)) t.owner.name).isSome := known rfl
    obtain ⟨s', last⟩ := (collected.collect_returns_iff (valid t (by simp))).mpr fun method => by
      simpa using last' method
    exact ⟨s, s', run, last, fun method => (collected.collect last).stored method (fixed t (by simp) method)⟩

end

/-- A call of `read` on a class that is named as the extensions of C name theirs, with all
constants announced. -/
def callOfRead (owner : String) : Trace where
  methodOwner := { name := owner }
  methodCallee := none
  methodName := "read"
  methodKind := .INSTANCE
  methodVisibility := .PUBLIC
  returnType := { name := "NilClass" }
  params := []
  blockParam := none
  constantUpdates := [{ name := "IO", type := .CLASS }, { name := "IO::generic_readable" }, { name := "NilClass" }]

theorem callsOfRead_ordered (owners : List String)
    (announced : ∀ owner ∈ owners, owner ∈ (callOfRead owner).announces) :
    Ordered Trace.announces Trace.rawNames (owners.map callOfRead) := by
  refine .of_own fun t member n used => ?_
  obtain ⟨owner, inside, rfl⟩ := List.mem_map.mp member
  rw [List.mem_singleton.mp used]
  exact announced owner inside

theorem callsOfRead_named (owners : List String) :
    ∀ t ∈ owners.map callOfRead, ∀ c ∈ t.constantUpdates, c.WellNamed := by
  have one (name : String) (fragment : IsFragment name) : IsPath name :=
    ⟨[name], by simp, by simpa using fragment, by simp⟩
  have nested : IsPath "IO::generic_readable" := ⟨["IO", "generic_readable"], by simp, by decide, by decide⟩
  refine List.forall_mem_map.mpr fun owner _ c update => ?_
  have plain (c : Constant) (path : IsPath c.name) (none : c.superclass = none) (includes : c.includedModules = [])
      (prepends : c.prependedModules = []) (extensions : c.extendedModules = []) : c.WellNamed :=
    ⟨path, by simp [none], by simp [includes], by simp [prepends], by simp [extensions]⟩
  simp only [callOfRead, List.mem_cons, List.not_mem_nil, or_false] at update
  rcases update with rfl | rfl | rfl
  · exact plain _ (one "IO" (by decide)) rfl rfl rfl rfl
  · exact plain _ nested rfl rfl rfl rfl
  · exact plain _ (one "NilClass" (by decide)) rfl rfl rfl rfl

theorem read_of_io_accepted : AcceptsAll (.ofDecls fun _ => none) (["IO", "IO"].map callOfRead) := by
  have fixed : ∀ t ∈ ["IO", "IO"].map callOfRead, validMethodName t.methodName = true →
      validName (.ofDecls fun _ => none) t.owner.name = .ok t.owner.name := by
    refine List.forall_mem_map.mpr fun owner member _ => ?_
    have io : owner = "IO" := by simpa using member
    subst io
    decide +kernel
  exact (accepts_announced_iff (ofDecls_upcases _) (callsOfRead_named _)
    (callsOfRead_ordered ["IO", "IO"] (by decide))).mpr fixed

/-- The record is stored as `IO::Generic_readable`, so the announced owner is not found. -/
theorem read_of_generic_readable_raises :
    Ordered Trace.announces Trace.rawNames [callOfRead "IO::generic_readable"] ∧
      (∀ t ∈ [callOfRead "IO::generic_readable"], ∀ c ∈ t.constantUpdates, c.WellNamed) ∧
        RBSCollector.collect (.ofDecls fun _ => none) {} (callOfRead "IO::generic_readable") = .error .NoMethodError ∧
          ¬ AcceptsAll (.ofDecls fun _ => none) [callOfRead "IO::generic_readable"] := by
  have raises : ((RBSCollector.collect (.ofDecls fun _ => none) {} (callOfRead "IO::generic_readable"))
      matches .error .NoMethodError) = true := by decide +kernel
  have raised : RBSCollector.collect (.ofDecls fun _ => none) {} (callOfRead "IO::generic_readable") =
      .error .NoMethodError := by
    split at raises
    next run => exact run
    next => cases raises
  refine ⟨callsOfRead_ordered ["IO::generic_readable"] (by decide), callsOfRead_named ["IO::generic_readable"], raised,
    fun accepts => ?_⟩
  obtain ⟨s, s', run, last, _⟩ := accepts [] _ [] rfl
  cases run
  rw [raised] at last
  cases last

end Racer
