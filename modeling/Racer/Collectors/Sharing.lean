import Mathlib.Logic.Function.Basic
import Racer.Collectors.Closed

namespace Racer.Sharing
open Outcome

/-! Several collectors of one agent, which are all given the same objects. -/

/-- The object at a position of the `constant_updates` of a trace. -/
abbrev Ref := Nat × Nat

/-- A `Racer::Trace::Constant`; `named` is set when `@original_name` is defined. -/
structure ConstantObject where
  constant : Constant
  named : Bool := false

abbrev Objects := Ref → ConstantObject

/-- An entry of `@results`, which refers to the constant. -/
structure SharedOwner where
  constant : Ref
  instanceMethods : OrderedHash String (List Trace) := .empty
  singletonMethods : OrderedHash String (List Trace) := .empty

structure SharedCollector where
  results : OrderedHash String SharedOwner := .empty
  existingTypes : OrderedHash String ExistingType := .empty
  modulesInObjectClass : List String := []

def SharedOwner.methods (owner : SharedOwner) : MethodKind → OrderedHash String (List Trace)
  | .INSTANCE => owner.instanceMethods
  | .SINGLETON => owner.singletonMethods

def SharedOwner.storeMethod (owner : SharedOwner) (kind : MethodKind) (name : String) (traces : List Trace) :
    SharedOwner :=
  match kind with
  | .INSTANCE => { owner with instanceMethods := owner.instanceMethods.store name traces }
  | .SINGLETON => { owner with singletonMethods := owner.singletonMethods.store name traces }

/-- What an entry comes to when its constant is read. -/
def SharedOwner.view (objects : Objects) (owner : SharedOwner) : Owner where
  constant := (objects owner.constant).constant
  instanceMethods := owner.instanceMethods
  singletonMethods := owner.singletonMethods

def SharedCollector.view (objects : Objects) (s : SharedCollector) : RBSCollector where
  results := s.results.map (SharedOwner.view objects)
  existingTypes := s.existingTypes
  modulesInObjectClass := s.modulesInObjectClass

def SharedCollector.refs (s : SharedCollector) : List Ref :=
  s.results.entries.map (·.2.constant)

section
variable (env : Environment)

/-- `ensure_valid_names!`: the name is changed once, all else each time. -/
def ConstantObject.ensureValidNames (o : ConstantObject) : Except RubyError ConstantObject := do
  let name ← if o.named then pure o.constant.name else validName env o.constant.name
  let superclass ← o.constant.superclass.mapM (validName env)
  let includedModules ← o.constant.includedModules.mapM (validName env)
  let prependedModules ← o.constant.prependedModules.mapM (validName env)
  let extendedModules ← o.constant.extendedModules.mapM (validName env)
  pure
    { constant := { o.constant with name, superclass, includedModules, prependedModules, extendedModules }
      named := true }

/-- The part of `push_constant_to_results` that drops existing mixins from the object. -/
def rejectFrom (ref : Ref) (objects : Objects) : Objects :=
  match env.classDecls (toTypeName (objects ref).constant.name) with
  | some classDecl =>
    Function.update objects ref { objects ref with constant := rejectExisting classDecl (objects ref).constant }
  | none => objects

/-- `push_constant_to_results` on the shared objects. -/
def SharedCollector.push (s : SharedCollector) (ref : Ref) (objects : Objects) : Objects × SharedCollector :=
  let name := (objects ref).constant.name
  if (s.results.get? name).isSome then (objects, s)
  else if (s.existingTypes.get? name).isSome then (objects, s)
  else
    let constant := (rejectFrom env ref objects ref).constant
    (rejectFrom env ref objects,
      { results := s.results.store name { constant := ref }
        existingTypes :=
          match env.classDecls (toTypeName name) with
          | some classDecl => s.existingTypes.store name { classDecl, typeName := toTypeName name }
          | none => s.existingTypes
        modulesInObjectClass :=
          if name = "Object" then s.modulesInObjectClass ++ constant.includedModules ++ constant.prependedModules
          else s.modulesInObjectClass })

/-- One turn of the loop over `constant_updates`. -/
def turn (state : Objects × SharedCollector) (ref : Ref) : Except RubyError (Objects × SharedCollector) := do
  let o ← (state.1 ref).ensureValidNames env
  pure (state.2.push env ref (Function.update state.1 ref o))

end

/-- The end of `collect`. -/
def SharedCollector.file (s : SharedCollector) (trace : Trace) : Except RubyError SharedCollector :=
  if validMethodName trace.methodName then
    match s.results.get? trace.owner.name with
    | none => throw .NoMethodError
    | some owner =>
      let traces := ((owner.methods trace.methodKind).get? trace.methodName).getD []
      if traces.any (·.signature = trace.signature) then pure s
      else pure { s with
        results := s.results.store trace.owner.name
          (owner.storeMethod trace.methodKind trace.methodName (traces ++ [trace])) }
  else pure s

/-- The references of the announcements from position `p` on. -/
def refsFrom (n : Nat) : Nat → List Constant → List Ref
  | _, [] => []
  | p, _ :: constants => (n, p) :: refsFrom n (p + 1) constants

/-- A collector: an `RBSCollector`, or any other, of which is known what its `collect`
does to the shared constants at each trace and what its `stop` raises. -/
inductive Collector
  | rbs (env : Environment)
  | other (collect : Nat → Objects → Except RubyError Objects) (stop : Except RubyError Unit)

/-- `collect`, for the trace number `n`. -/
def Collector.collect (collector : Collector) (n : Nat) (trace : Trace) (s : SharedCollector) (objects : Objects) :
    Except RubyError (Objects × SharedCollector) :=
  match collector with
  | .rbs env => do
    let state ← (refsFrom n 0 trace.constantUpdates).foldlM (turn env) (objects, s)
    let s ← state.2.file trace
    pure (state.1, s)
  | .other collect _ => do
    let objects ← collect n objects
    pure (objects, s)

/-- The loop over the collectors in the worker thread. -/
def collectInTurn (n : Nat) (trace : Trace) :
    List (Collector × SharedCollector) → Objects → Except RubyError (Objects × List (Collector × SharedCollector))
  | [], objects => pure (objects, [])
  | collector :: collectors, objects => do
    let state ← collector.1.collect n trace collector.2 objects
    let rest ← collectInTurn n trace collectors state.1
    pure (rest.1, (collector.1, state.2) :: rest.2)

/-- The loop of the worker thread over the traces, from number `n` on. -/
def collectTraces : Nat → List Trace → Objects × List (Collector × SharedCollector) →
    Except RubyError (Objects × List (Collector × SharedCollector))
  | _, [], state => pure state
  | n, trace :: traces, state => do
    let state ← collectInTurn n trace state.2 state.1
    collectTraces (n + 1) traces state

/-- The constants as they come from the socket. -/
def received (traces : List Trace) : Objects :=
  fun ref => { constant := ((traces[ref.1]?.bind fun trace => trace.constantUpdates[ref.2]?).getD { name := "" }) }

section
variable {env : Environment} {objects : Objects} {s : SharedCollector}

theorem SharedCollector.mem_refs {ref : Ref} : ref ∈ s.refs ↔ ∃ entry ∈ s.results.entries, entry.2.constant = ref := by
  rw [SharedCollector.refs, List.mem_map]

/-- A collector only sees the objects to which it refers. -/
theorem SharedCollector.view_congr {objects' : Objects} (same : ∀ ref ∈ s.refs, objects ref = objects' ref) :
    s.view objects = s.view objects' := by
  have results : s.results.map (SharedOwner.view objects) = s.results.map (SharedOwner.view objects') := by
    refine OrderedHash.map_congr fun entry member => ?_
    rw [SharedOwner.view, SharedOwner.view, same _ (SharedCollector.mem_refs.mpr ⟨entry, member, rfl⟩)]
  rw [SharedCollector.view, SharedCollector.view, results]

theorem SharedCollector.get?_view (name : String) :
    (s.view objects).results.get? name = (s.results.get? name).map (SharedOwner.view objects) :=
  OrderedHash.get?_map _ _ _

theorem SharedOwner.view_methods (owner : SharedOwner) (kind : MethodKind) :
    (owner.view objects).methods kind = owner.methods kind := by
  cases kind <;> rfl

theorem SharedOwner.view_storeMethod (owner : SharedOwner) (kind : MethodKind) (name : String) (group : List Trace) :
    (owner.storeMethod kind name group).view objects = (owner.view objects).storeMethod kind name group := by
  cases kind <;> rfl

theorem SharedOwner.constant_storeMethod (owner : SharedOwner) (kind : MethodKind) (name : String)
    (group : List Trace) : (owner.storeMethod kind name group).constant = owner.constant := by
  cases kind <;> rfl

/-- Filing a trace does not touch the constants. -/
theorem SharedCollector.view_file (t : Trace) :
    SharedCollector.view objects <$> s.file t = (s.view objects).file t := by
  unfold SharedCollector.file RBSCollector.file
  rw [SharedCollector.get?_view]
  by_cases method : validMethodName t.methodName
  · rw [if_pos method, if_pos method]
    cases s.results.get? t.owner.name with
    | none => rfl
    | some owner =>
      simp only [Option.map_some, SharedOwner.view_methods]
      split
      · rfl
      · refine congrArg Except.ok ?_
        simp only [SharedCollector.view, OrderedHash.map_store, SharedOwner.view_storeMethod]
  · rw [if_neg method, if_neg method]
    rfl

theorem SharedCollector.file_refs {s' : SharedCollector} {t : Trace} (run : s.file t = .ok s') :
    ∀ ref ∈ s'.refs, ref ∈ s.refs := by
  unfold SharedCollector.file at run
  split at run
  next =>
    split at run
    next => cases run
    next owner found =>
      simp only at run
      split at run
      next => cases run; exact fun ref member => member
      next =>
        cases run
        intro ref member
        obtain ⟨entry, there, same⟩ := SharedCollector.mem_refs.mp member
        rcases OrderedHash.mem_entries_store there with old | rfl
        · exact SharedCollector.mem_refs.mpr ⟨entry, old, same⟩
        · rw [SharedOwner.constant_storeMethod] at same
          exact SharedCollector.mem_refs.mpr ⟨_, OrderedHash.mem_entries.mpr found, same⟩
  next => cases run; exact fun ref member => member

theorem rejectExisting_idem (classDecl : ClassDecl) (c : Constant) :
    rejectExisting classDecl (rejectExisting classDecl c) = rejectExisting classDecl c := by
  simp [rejectExisting, List.filter_filter]

/-- Rejecting again changes nothing. -/
theorem recorded_idem (c : Constant) : recorded env (recorded env c) = recorded env c := by
  unfold recorded
  cases decl : env.classDecls (toTypeName c.name) with
  | none => simp only [decl]
  | some classDecl =>
    have name : (rejectExisting classDecl c).name = c.name := rfl
    simp only [name, decl, rejectExisting_idem]

theorem rejectFrom_eq {ref : Ref} {c : Constant} (atRef : objects ref = { constant := c, named := true }) :
    rejectFrom env ref objects = Function.update objects ref { constant := recorded env c, named := true } := by
  unfold rejectFrom recorded
  rw [atRef]
  cases env.classDecls (toTypeName c.name) with
  | none => simp only [← atRef, Function.update_eq_self]
  | some classDecl => rfl

/-- What becomes of an announced constant with these valid names when `constants` have
been announced before it. -/
def settled (env : Environment) (constants : List Constant) (valid : Constant) : Constant :=
  if (announcement env constants valid.name).isSome then valid else recorded env valid

/-- The objects after a turn for the announcement. -/
def settle (env : Environment) (constants : List Constant) (valid : Constant) (ref : Ref) (objects : Objects) :
    Objects :=
  Function.update objects ref { constant := settled env constants valid, named := true }

theorem settle_self {constants : List Constant} {valid : Constant} {ref : Ref} :
    settle env constants valid ref objects ref = { constant := settled env constants valid, named := true } :=
  Function.update_self ..

theorem settle_of_ne {constants : List Constant} {valid : Constant} {ref r : Ref} (other : r ≠ ref) :
    settle env constants valid ref objects r = objects r :=
  Function.update_of_ne other ..

/-- `push_constant_to_results` on a shared object does what it does on a copy, if the
object holds the valid constant or what is left of it. -/
theorem SharedCollector.push_spec {constants : List Constant} {traces : List Trace} {ref : Ref} {c valid : Constant}
    (collected : Collected env constants traces (s.view objects))
    (atRef : objects ref = { constant := c, named := true }) (name : c.name = valid.name)
    (same : recorded env c = recorded env valid)
    (kept : (announcement env constants valid.name).isSome → c = valid)
    (unseen : s.view (settle env constants valid ref objects) = s.view objects) :
    ∃ s', s.push env ref objects = (settle env constants valid ref objects, s') ∧
      s'.view (settle env constants valid ref objects) = pushConstantToResults env (s.view objects) valid ∧
        ∀ r ∈ s'.refs, r ∈ s.refs ∨ r = ref := by
  have known := collected.isSome valid.name
  rw [SharedCollector.get?_view, Option.isSome_map] at known
  have atName : (objects ref).constant.name = valid.name := by rw [atRef]; exact name
  unfold SharedCollector.push
  unfold settle at unseen ⊢
  simp only [atName]
  by_cases before : (announcement env constants valid.name).isSome
  · have here : settled env constants valid = c := by rw [settled, if_pos before, kept before]
    rw [known, if_pos before, here, ← atRef, Function.update_eq_self]
    refine ⟨s, rfl, ?_, fun r member => .inl member⟩
    rw [pushConstantToResults_known]
    rw [collected.isSome, before]
  · have here : settled env constants valid = recorded env valid := by rw [settled, if_neg before]
    have absent : announcement env constants valid.name = none := by simpa using before
    have noResult : s.results.get? valid.name = none := by simpa [absent] using known
    have noResultView : (s.view objects).results.get? valid.name = none := by
      rw [SharedCollector.get?_view, noResult, Option.map_none]
    have noType : (s.view objects).existingTypes.get? valid.name = none := by
      rw [collected.existing, absent, Option.bind_none]
    have noType' : ¬ (s.existingTypes.get? valid.name).isSome := by
      intro some
      rw [show s.existingTypes.get? valid.name = none from noType] at some
      cases some
    rw [if_neg (by simp [noResult]), if_neg noType', rejectFrom_eq atRef, same, ← here]
    refine ⟨_, rfl, ?_, fun r member => ?_⟩
    · have results := congrArg RBSCollector.results unseen
      simp only [SharedCollector.view] at results
      rw [pushConstantToResults_new noResultView noType, ← here]
      cases decl : env.classDecls (toTypeName valid.name) <;>
        simp only [SharedCollector.view, OrderedHash.map_store, results, SharedOwner.view, Function.update_self]
    · obtain ⟨entry, there, rfl⟩ := SharedCollector.mem_refs.mp member
      rcases OrderedHash.mem_entries_store there with old | rfl
      · exact .inl (SharedCollector.mem_refs.mpr ⟨entry, old, rfl⟩)
      · exact .inr rfl

theorem ensureValidNames_fresh (c : Constant) :
    ConstantObject.ensureValidNames env { constant := c } =
      (fun valid => { constant := valid, named := true }) <$> ensureValidNames env c := by
  unfold ConstantObject.ensureValidNames Racer.ensureValidNames
  simp only [Bool.false_eq_true, if_false, map_bind, map_pure]

theorem mapM_fixed (names : List String) (fixed : ∀ n ∈ names, validName env n = .ok n) :
    names.mapM (validName env) = .ok names :=
  mapM_eq_ok.mpr (List.forall₂_same.mpr fixed)

/-- An object with valid names stays as it is. -/
theorem ensureValidNames_named {c : Constant} (fixed : ∀ n ∈ c.mentions, validName env n = .ok n) :
    ConstantObject.ensureValidNames env { constant := c, named := true } = .ok { constant := c, named := true } := by
  have superclass : c.superclass.mapM (validName env) = .ok c.superclass := by
    cases above : c.superclass with
    | none => rfl
    | some n => exact map_eq_ok.mpr ⟨n, fixed n (by simp [Constant.mentions, above]), rfl⟩
  have includes := mapM_fixed c.includedModules fun n member => fixed n (by simp [Constant.mentions, member])
  have prepends := mapM_fixed c.prependedModules fun n member => fixed n (by simp [Constant.mentions, member])
  have extends' := mapM_fixed c.extendedModules fun n member => fixed n (by simp [Constant.mentions, member])
  unfold ConstantObject.ensureValidNames
  simp only [if_true, superclass, includes, prepends, extends']
  rfl

theorem settled_mentions {constants : List Constant} {valid : Constant} {m : String}
    (member : m ∈ (settled env constants valid).mentions) : m ∈ valid.mentions := by
  unfold settled at member
  split at member
  · exact member
  · exact mentions_recorded member

/-- The object of `c`, announced behind `constants`, before and after a collector has seen it. -/
inductive Held (env : Environment) (constants : List Constant) (c : Constant) : ConstantObject → Prop
  | fresh : Held env constants c { constant := c }
  | seen {valid} : ensureValidNames env c = .ok valid → (∀ m ∈ valid.mentions, validName env m = .ok m) →
      Held env constants c { constant := settled env constants valid, named := true }

theorem Held.raises {constants : List Constant} {c : Constant} {o : ConstantObject} {e : RubyError}
    (held : Held env constants c o) (raised : ensureValidNames env c = .error e) :
    o.ensureValidNames env = .error e := by
  cases held with
  | fresh =>
    rw [ensureValidNames_fresh, raised]
    rfl
  | seen ensured _ =>
    rw [raised] at ensured
    cases ensured

theorem recorded_settled (constants : List Constant) (valid : Constant) :
    recorded env (settled env constants valid) = recorded env valid := by
  unfold settled
  split
  · rfl
  · exact recorded_idem valid

theorem settled_name (constants : List Constant) (valid : Constant) :
    (settled env constants valid).name = valid.name := by
  unfold settled
  split
  · rfl
  · exact recorded_name valid

/-- A turn on an object that no collector has seen. -/
theorem turn_fresh {constants : List Constant} {traces : List Trace} {ref : Ref} {c valid : Constant}
    (collected : Collected env constants traces (s.view objects)) (ensured : ensureValidNames env c = .ok valid)
    (state : objects ref = { constant := c }) (absent : ref ∉ s.refs) :
    ∃ s', turn env (objects, s) ref = .ok (settle env constants valid ref objects, s') ∧
      s'.view (settle env constants valid ref objects) = pushConstantToResults env (s.view objects) valid ∧
        ∀ r ∈ s'.refs, r ∈ s.refs ∨ r = ref := by
  have elsewhere : ∀ o, s.view (Function.update objects ref o) = s.view objects := by
    refine fun o => SharedCollector.view_congr fun r member => Function.update_of_ne ?_ o objects
    rintro rfl
    exact absent member
  have validated : (objects ref).ensureValidNames env = .ok { constant := valid, named := true } := by
    rw [state, ensureValidNames_fresh, ensured]
    rfl
  have atRef : Function.update objects ref { constant := valid, named := true } ref =
      { constant := valid, named := true } := Function.update_self ..
  have again : settle env constants valid ref (Function.update objects ref { constant := valid, named := true }) =
      settle env constants valid ref objects := by
    rw [settle, settle, Function.update_idem]
  obtain ⟨s', pushed, view, refs⟩ := SharedCollector.push_spec (s := s) (by rw [elsewhere]; exact collected) atRef rfl
    rfl (fun _ => rfl) (by rw [again, settle, elsewhere, elsewhere])
  rw [again] at pushed view
  rw [elsewhere] at view
  refine ⟨s', ?_, view, refs⟩
  rw [turn, validated]
  exact congrArg Except.ok pushed

/-- A turn on an object that a collector has seen already. -/
theorem turn_seen {constants : List Constant} {traces : List Trace} {ref : Ref} {valid : Constant}
    (collected : Collected env constants traces (s.view objects))
    (fixed : ∀ m ∈ valid.mentions, validName env m = .ok m)
    (state : objects ref = { constant := settled env constants valid, named := true }) :
    ∃ s', turn env (objects, s) ref = .ok (settle env constants valid ref objects, s') ∧
      s'.view (settle env constants valid ref objects) = pushConstantToResults env (s.view objects) valid ∧
        ∀ r ∈ s'.refs, r ∈ s.refs ∨ r = ref := by
  have validated : (objects ref).ensureValidNames env = .ok (objects ref) := by
    rw [state]
    exact ensureValidNames_named fun m member => fixed m (settled_mentions member)
  have unchanged : settle env constants valid ref objects = objects := by
    rw [settle, ← state, Function.update_eq_self]
  obtain ⟨s', pushed, view, refs⟩ := SharedCollector.push_spec collected state (settled_name constants valid)
    (recorded_settled constants valid) (fun before => by rw [settled, if_pos before]) (by rw [unchanged])
  refine ⟨s', ?_, view, refs⟩
  rw [turn, validated]
  refine congrArg Except.ok ?_
  rw [Function.update_eq_self]
  exact pushed

/-- What the announcements of trace `n` may do to the objects. -/
structure Touches (n : Nat) (objects objects' : Objects) : Prop where
  kept : ∀ r, (objects r).named = true → objects' r = objects r
  frame : ∀ r : Ref, r.1 ≠ n → objects' r = objects r

theorem Touches.refl (n : Nat) (objects : Objects) : Touches n objects objects :=
  ⟨fun _ _ => rfl, fun _ _ => rfl⟩

theorem Touches.trans {n : Nat} {objects₁ objects₂ : Objects} (first : Touches n objects objects₁)
    (second : Touches n objects₁ objects₂) : Touches n objects objects₂ := by
  refine ⟨fun r flag => ?_, fun r other => ?_⟩
  · have still : (objects₁ r).named = true := by rw [first.kept r flag, flag]
    rw [second.kept r still, first.kept r flag]
  · rw [second.frame r other, first.frame r other]

theorem Held.touches {constants : List Constant} {n p : Nat} {c valid : Constant}
    (ensured : ensureValidNames env c = .ok valid) (held : Held env constants c (objects (n, p))) :
    Touches n objects (settle env constants valid (n, p) objects) := by
  refine ⟨fun r flag => ?_, fun r other => settle_of_ne fun same => other (congrArg Prod.fst same)⟩
  by_cases same : r = (n, p)
  · rw [same] at flag ⊢
    generalize state : objects (n, p) = o at held flag
    cases held with
    | fresh => cases flag
    | seen ensured' _ =>
      cases ensured.symm.trans ensured'
      exact settle_self
  · exact settle_of_ne same

/-- One turn on the shared objects does what it does on copies. -/
theorem turn_spec {constants : List Constant} {traces : List Trace} {n p : Nat} {c valid : Constant}
    (collected : Collected env constants traces (s.view objects)) (ensured : ensureValidNames env c = .ok valid)
    (held : Held env constants c (objects (n, p))) (named : ∀ r ∈ s.refs, (objects r).named = true) :
    ∃ s', turn env (objects, s) (n, p) = .ok (settle env constants valid (n, p) objects, s') ∧
      s'.view (settle env constants valid (n, p) objects) = pushConstantToResults env (s.view objects) valid ∧
        ∀ r ∈ s'.refs, (settle env constants valid (n, p) objects r).named = true := by
  have touches := held.touches ensured
  have turned : ∃ s', turn env (objects, s) (n, p) = .ok (settle env constants valid (n, p) objects, s') ∧
      s'.view (settle env constants valid (n, p) objects) = pushConstantToResults env (s.view objects) valid ∧
        ∀ r ∈ s'.refs, r ∈ s.refs ∨ r = (n, p) := by
    generalize state : objects (n, p) = o at held
    cases held with
    | fresh =>
      refine turn_fresh collected ensured state fun member => ?_
      have flag := named _ member
      rw [state] at flag
      cases flag
    | seen ensured' fixed =>
      cases ensured.symm.trans ensured'
      exact turn_seen collected fixed state
  obtain ⟨s', run, view, refs⟩ := turned
  refine ⟨s', run, view, fun r member => ?_⟩
  rcases refs r member with old | rfl
  · rw [touches.kept r (named r old)]
    exact named r old
  · rw [settle_self]

/-- The objects of the announcements `cs` of trace `n` from position `p` on. -/
def HeldFrom (env : Environment) (n : Nat) (objects : Objects) : Nat → List Constant → List Constant → Prop
  | _, _, [] => True
  | p, constants, c :: cs =>
    Held env constants c (objects (n, p)) ∧ HeldFrom env n objects (p + 1) (constants ++ [c]) cs

def SeenFrom (env : Environment) (n : Nat) (objects : Objects) : Nat → List Constant → List Constant → Prop
  | _, _, [] => True
  | p, constants, c :: cs =>
    (∃ valid, ensureValidNames env c = .ok valid ∧
      objects (n, p) = { constant := settled env constants valid, named := true }) ∧
      SeenFrom env n objects (p + 1) (constants ++ [c]) cs

theorem HeldFrom.congr {objects' : Objects} {n p : Nat} {constants cs : List Constant}
    (held : HeldFrom env n objects p constants cs) (same : ∀ q, p ≤ q → objects' (n, q) = objects (n, q)) :
    HeldFrom env n objects' p constants cs := by
  induction cs generalizing p constants with
  | nil => trivial
  | cons c cs ih =>
    refine ⟨?_, ih held.2 fun q later => same q (by omega)⟩
    rw [same p le_rfl]
    exact held.1

/-- The loop over the announcements on the shared objects does what it does on copies. -/
theorem pushAll_spec {n : Nat} {cs : List Constant} {p : Nat} {constants : List Constant} {traces : List Trace}
    {objects : Objects} {s : SharedCollector} (collected : Collected env constants traces (s.view objects))
    (held : HeldFrom env n objects p constants cs) (named : ∀ r ∈ s.refs, (objects r).named = true) {a : RBSCollector}
    (run : cs.foldlM (fun s constant => do
      let constant ← ensureValidNames env constant
      pure (pushConstantToResults env s constant)) (s.view objects) = Except.ok a) :
    ∃ objects' s', (refsFrom n p cs).foldlM (turn env) (objects, s) = .ok (objects', s') ∧ s'.view objects' = a ∧
      SeenFrom env n objects' p constants cs ∧ (∀ r ∈ s'.refs, (objects' r).named = true) ∧
        Touches n objects objects' := by
  induction cs generalizing p constants objects s with
  | nil =>
    cases run
    exact ⟨objects, s, rfl, rfl, trivial, named, .refl n objects⟩
  | cons c cs ih =>
    rw [List.foldlM_cons] at run
    obtain ⟨b, first, run⟩ := bind_eq_ok.mp run
    obtain ⟨valid, ensured, first⟩ := bind_eq_ok.mp first
    cases first
    obtain ⟨s₁, turned, view, namedAfter⟩ := turn_spec collected ensured held.1 named
    rw [← view] at run
    obtain ⟨objects', s', rest, view', seen, named', touches⟩ := ih (by rw [view]; exact collected.push ensured)
      (held.2.congr fun q later => settle_of_ne (by simp; omega)) namedAfter run
    refine ⟨objects', s', ?_, view', ⟨⟨valid, ensured, ?_⟩, seen⟩, named', (held.1.touches ensured).trans touches⟩
    · rw [refsFrom, List.foldlM_cons, turned]
      exact rest
    · rw [touches.kept (n, p) (by rw [settle_self]), settle_self]

/-- A name that cannot be made valid raises either way. -/
theorem pushAll_raises {n : Nat} {cs : List Constant} {p : Nat} {constants : List Constant} {traces : List Trace}
    {objects : Objects} {s : SharedCollector} (collected : Collected env constants traces (s.view objects))
    (held : HeldFrom env n objects p constants cs) (named : ∀ r ∈ s.refs, (objects r).named = true) {e : RubyError}
    (raised : cs.foldlM (fun s constant => do
      let constant ← ensureValidNames env constant
      pure (pushConstantToResults env s constant)) (s.view objects) = Except.error e) :
    (refsFrom n p cs).foldlM (turn env) (objects, s) = .error e := by
  induction cs generalizing p constants objects s with
  | nil => cases raised
  | cons c cs ih =>
    rw [List.foldlM_cons] at raised
    rw [refsFrom, List.foldlM_cons]
    cases ensured : ensureValidNames env c with
    | error e' =>
      have raises : turn env (objects, s) (n, p) = .error e' := by
        simp only [turn, held.1.raises ensured]
        rfl
      rw [ensured] at raised
      cases raised
      rw [raises]
      rfl
    | ok valid =>
      obtain ⟨s₁, turned, view, namedAfter⟩ := turn_spec collected ensured held.1 named
      rw [turned]
      rw [ensured] at raised
      refine ih (by rw [view]; exact collected.push ensured)
        (held.2.congr fun q later => settle_of_ne (by simp; omega)) namedAfter ?_
      rw [view]
      exact raised

/-- `collect` on the shared objects does what it does on copies. -/
theorem collect_spec {n : Nat} {t : Trace} {constants : List Constant} {traces : List Trace}
    (collected : Collected env constants traces (s.view objects))
    (held : HeldFrom env n objects 0 constants t.constantUpdates) (named : ∀ r ∈ s.refs, (objects r).named = true)
    {a : RBSCollector} (run : (s.view objects).collect env t = .ok a) :
    ∃ objects' s', (Collector.rbs env).collect n t s objects = .ok (objects', s') ∧ s'.view objects' = a ∧
      SeenFrom env n objects' 0 constants t.constantUpdates ∧ (∀ r ∈ s'.refs, (objects' r).named = true) ∧
        Touches n objects objects' := by
  obtain ⟨b, pushed, filed⟩ := bind_eq_ok.mp run
  obtain ⟨objects', s₁, pushes, rfl, seen, namedAfter, touches⟩ := pushAll_spec collected held named pushed
  rw [← SharedCollector.view_file] at filed
  obtain ⟨s', files, view⟩ := map_eq_ok.mp filed
  have collects : (Collector.rbs env).collect n t s objects = .ok (objects', s') :=
    bind_eq_ok.mpr ⟨_, pushes, bind_eq_ok.mpr ⟨s', files, rfl⟩⟩
  exact ⟨objects', s', collects, view, seen, fun r member => namedAfter r (SharedCollector.file_refs files r member),
    touches⟩

theorem collect_raises {n : Nat} {t : Trace} {constants : List Constant} {traces : List Trace}
    (collected : Collected env constants traces (s.view objects))
    (held : HeldFrom env n objects 0 constants t.constantUpdates) (named : ∀ r ∈ s.refs, (objects r).named = true)
    {e : RubyError}
    (raised : (s.view objects).collect env t = .error e) : (Collector.rbs env).collect n t s objects = .error e := by
  unfold RBSCollector.collect at raised
  simp only [Collector.collect]
  cases pushed : t.constantUpdates.foldlM (fun s constant => do
      let constant ← ensureValidNames env constant
      pure (pushConstantToResults env s constant)) (s.view objects) with
  | error e' =>
    rw [pushed] at raised
    cases raised
    rw [pushAll_raises collected held named pushed]
    rfl
  | ok a =>
    rw [pushed] at raised
    obtain ⟨objects', s₁, pushes, rfl, _⟩ := pushAll_spec collected held named pushed
    have failed : (s₁.view objects').file t = .error e := raised
    rw [← SharedCollector.view_file] at failed
    rw [pushes]
    cases files : s₁.file t with
    | error e' =>
      rw [files] at failed
      cases failed
      show (s₁.file t >>= fun s => pure (objects', s)) = Except.error e
      rw [files]
      rfl
    | ok s' =>
      rw [files] at failed
      cases failed

end

end Racer.Sharing
