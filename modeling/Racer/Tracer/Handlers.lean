import Racer.Tracer.Announced
import Racer.Tracer.Nesting
import Racer.Tracer.PathCache

namespace Racer.Handlers
open Stateful Filter Transition Announced

/-! Which events `process_tracepoint` gets through without an exception. -/

/-- An event of the tracepoint of `start`. Only a rescue can be without a method. -/
inductive TracepointEvent (κ : Type)
  | call (fiber : Nat) (e : CallEvent κ)
  | ret (fiber : Nat) (methodId : String) (e : ReturnEvent κ)
  | rescue (fiber : Nat) (methodId : Option String)

def TracepointEvent.methodId {κ : Type} : TracepointEvent κ → Option String
  | .call _ e => some e.methodId
  | .ret _ methodId _ => some methodId
  | .rescue _ methodId => methodId

/-- The tracer with its path filter. -/
structure Extension (κ ρ : Type) where
  tracer : Tracer κ := {}
  paths : PathCache ρ := {}

section
variable {κ ρ : Type} [DecidableEq κ] [Fintype κ] (h : Hierarchy κ) (v : Regexes ρ)

def processEvent (fuel : Nat) (event : TracepointEvent κ) (s : Tracer κ) : Option (Except RubyError (Tracer κ)) :=
  match event with
  | .call fiber e => (processCallEvent h fuel fiber e s).map .ok
  | .ret fiber methodId e => (processReturnEvent h fuel fiber methodId e s).map .ok
  | .rescue fiber methodId => some (processRescuedEvent fiber methodId s)

/-- `process_tracepoint`: whether it returned or raised, and the state it left. -/
def processTracepoint (fuel : Nat) (path callerPath : PathValue) (event : TracepointEvent κ) (s : Extension κ ρ) :
    Option (Except RubyError Unit × Extension κ ρ) :=
  let checked := v.shouldProcessEvent path callerPath s.paths
  let s := { s with paths := checked.2 }
  if checked.1 = false then some (.ok (), s)
  else
    match processEvent h fuel event s.tracer with
    | none => none
    | some (.ok tracer) => some (.ok (), { s with tracer })
    | some (.error error) => some (.error error, s)

/-- What can happen to the extension. `sent` is the worker taking a trace. -/
inductive Step : Extension κ ρ → Extension κ ρ → Prop
  | start {s} (pathRegex : Option ρ) (maxGenericDepth : Int) (connects : Bool) :
      Step s { tracer := s.tracer.start maxGenericDepth connects, paths := v.start pathRegex s.paths }
  | stop {s} : Step s { s with tracer := s.tracer.stop }
  | flush {s} : Step s { s with tracer := { s.tracer.stop with tpCall := none } }
  | sent {s t queue} : s.tracer.queue = t :: queue → Step s { s with tracer := { s.tracer with queue } }
  | tracepoint {s s' outcome fuel} (path callerPath : PathValue) (event : TracepointEvent κ) :
      s.tracer.tpCall = some true → processTracepoint h v fuel path callerPath event s = some (outcome, s') → Step s s'
  | blockCall {s t fuel addr} (e : BlockCallEvent κ) : (∃ tp ∈ s.tracer.globals.tracepoints, tp.data = addr) →
      processBlockTracepoint addr (processBlockCallEvent h fuel s.tracer.maxGenericDepth e) s.tracer = some t →
      Step s { s with tracer := t }
  | blockReturn {s t fuel addr} (e : ReturnEvent κ) : (∃ tp ∈ s.tracer.globals.tracepoints, tp.data = addr) →
      processBlockTracepoint addr (processBlockReturnEvent h fuel s.tracer.maxGenericDepth e) s.tracer = some t →
      Step s { s with tracer := t }

def Reachable (s : Extension κ ρ) : Prop :=
  Run (Step h v) {} s

/-- The event is handled without an exception, and leaves the call stacks alone if
it has no method. -/
def ReturnsNormally (path callerPath : PathValue) (event : TracepointEvent κ) (s : Extension κ ρ) : Prop :=
  ∃ fuel s', processTracepoint h v fuel path callerPath event s = some (.ok (), s') ∧
    (event.methodId = none → s'.tracer.callStacks = s.tracer.callStacks)

/-- The values the event reads come to an end, and a rescue without a method comes
on a fiber that has no call stack. -/
def Tolerated (s : Tracer κ) : TracepointEvent κ → Prop
  | .call fiber e => detectsRetry (s.stack fiber) e.methodId (e.expectedOwner h) = true ∨
      ReadsAll h s.maxGenericDepth e.arguments e.objects
  | .ret fiber methodId e => ∀ t ∈ ((s.stack fiber).getD []).head?, t.methodName = some methodId →
      Readable e.objects h s.maxGenericDepth e.returnValue 0
  | .rescue fiber methodId => methodId = none → s.stack fiber = none

/-- Between two events every constant has its final name, and every frame is one of
a method. -/
structure Invariant (s : Tracer κ) : Prop where
  named : Named h s.globals.constants
  methods : ∀ t ∈ openFrames s, t.methodName ≠ none

variable {h v}

theorem callHeader_total (e : CallEvent κ) : Total (callHeader h e) := by
  unfold callHeader
  split_ifs
  · exact Total.bind (classToConstantInstance_total _ _) fun _ => .pure _
  all_goals
    refine Total.bind (classToConstantInstance_total _ _) fun _ => ?_
    exact Total.bind (classToConstantInstance_total _ _) fun _ => .pure _

/-- A CALL event is handled unless reading its arguments comes to no end. -/
theorem processCallEvent_returns_iff (fiber : Nat) {e : CallEvent κ} {s : Tracer κ}
    (named : Named h s.globals.constants) :
    (∃ fuel s', processCallEvent h fuel fiber e s = some s') ↔
      detectsRetry (s.stack fiber) e.methodId (e.expectedOwner h) = true ∨
        ReadsAll h s.maxGenericDepth e.arguments e.objects := by
  obtain ⟨⟨header, g⟩, ran⟩ := onConstants_total (callHeader_total (h := h) e)
    { s.globals with next := s.globals.next + 1 }
  obtain ⟨_, same, _⟩ := onConstants_ensures (g := { s.globals with next := s.globals.next + 1 })
    (callHeader_ensures e named) _ _ ran
  subst same
  simp only [processCallEvent, ran]
  by_cases retry : detectsRetry (s.stack fiber) e.methodId (e.expectedOwner h) = true
  · simp only [retry, if_true, true_or, iff_true]
    exact ⟨0, _, rfl⟩
  · have call : detectsRetry (s.stack fiber) e.methodId (e.expectedOwner h) = false := by simpa using retry
    simp only [call, Bool.false_eq_true, if_false, false_or]
    constructor
    · rintro ⟨fuel, s', run⟩
      split at run
      next => cases run
      next assigned => exact .of_returns ⟨g, _, assigned⟩
    · intro reads
      obtain ⟨fuel, total⟩ := (reads.total s.globals.next).exists
      obtain ⟨⟨⟨params, block⟩, g'⟩, assigned⟩ := total g
      exact ⟨fuel, by simp only [assigned]; exact ⟨_, rfl⟩⟩

theorem processReturnEvent_returns_iff (fiber : Nat) {methodId : String} {e : ReturnEvent κ} {s : Tracer κ} :
    (∃ fuel s', processReturnEvent h fuel fiber methodId e s = some s') ↔
      ∀ t ∈ ((s.stack fiber).getD []).head?, t.methodName = some methodId →
        Readable e.objects h s.maxGenericDepth e.returnValue 0 := by
  unfold processReturnEvent
  cases s.stack fiber with
  | none => simp
  | some stack =>
    cases stack with
    | nil => simp
    | cons t stack =>
      simp only [Option.getD_some, List.head?_cons, Option.mem_some_iff, forall_eq']
      by_cases matching : t.methodName = some methodId
      · simp only [matching, ne_eq, not_true_eq_false, if_false, true_implies]
        constructor
        · rintro ⟨fuel, s', run⟩
          split at run
          next => cases run
          next value => exact .of_returns (onConstants_reads ⟨s.globals, _, value⟩)
        · intro readable
          obtain ⟨fuel, total⟩ := readable.total.exists
          obtain ⟨⟨i, g⟩, value⟩ := onConstants_total total s.globals
          exact ⟨fuel, by simp only [valueType, value]; exact ⟨_, rfl⟩⟩
      · simp [matching]

omit [DecidableEq κ] [Fintype κ] in
/-- A rescue raises exactly when it has no method and its fiber has a stack of frames. -/
theorem processRescuedEvent_returns_iff (fiber : Nat) {methodId : Option String} {s : Tracer κ}
    (methods : ∀ t ∈ openFrames s, t.methodName ≠ none) :
    (∃ s', processRescuedEvent fiber methodId s = .ok s') ↔ (methodId = none → s.stack fiber = none) := by
  unfold processRescuedEvent
  cases atFiber : s.stack fiber with
  | none => simp
  | some stack =>
    cases stack with
    | nil => cases methodId <;> simp
    | cons t stack =>
      cases name : t.methodName with
      | none => exact absurd name (methods t (mem_top_frames atFiber t List.mem_cons_self))
      | some expected =>
        simp only [name]
        cases methodId with
        | none => simp
        | some actual =>
          simp only [reduceCtorEq, false_implies, iff_true]
          split_ifs <;> exact ⟨_, rfl⟩

omit [DecidableEq κ] [Fintype κ] in
theorem processRescuedEvent_without_method {fiber : Nat} {s s' : Tracer κ}
    (run : processRescuedEvent fiber none s = .ok s') : s' = s := by
  rcases processRescuedEvent_spec run with same | ⟨_, _, _, method, _⟩
  · exact same
  · cases method

theorem Invariant.call {s s' : Tracer κ} {fuel fiber : Nat} {e : CallEvent κ} (inv : Invariant h s)
    (run : processCallEvent h fuel fiber e s = some s') : Invariant h s' := by
  obtain ⟨g, grows, ⟨_, rfl⟩ | ⟨_, t, called, _, rfl⟩⟩ := processCallEvent_spec inv.named run
  · exact ⟨Globals.Grows.named grows inv.named, inv.methods⟩
  · refine ⟨Globals.Grows.named grows inv.named, fun u member => ?_⟩
    rcases mem_setStack_frames member with below | old
    · rcases List.mem_cons.mp below with rfl | below
      · rw [called.methodName]
        simp
      · exact inv.methods u (mem_stack_frames below)
    · exact inv.methods u old

theorem Invariant.ret {s s' : Tracer κ} {fuel fiber : Nat} {methodId : String} {e : ReturnEvent κ}
    (inv : Invariant h s) (run : processReturnEvent h fuel fiber methodId e s = some s') : Invariant h s' := by
  obtain ⟨rfl, _⟩ | ⟨t, stack, returnType, g, atTop, _, grows, _, _, rfl⟩ := processReturnEvent_spec inv.named run
  · exact inv
  · have named : Named h g.constants := Globals.Grows.named grows inv.named
    refine ⟨named, fun u member => ?_⟩
    rcases mem_setStack_frames member with below | old
    · exact inv.methods u (mem_top_frames atTop u (List.mem_cons_of_mem t below))
    · exact inv.methods u old

omit [DecidableEq κ] [Fintype κ] in
theorem Invariant.rescue {s s' : Tracer κ} {fiber : Nat} {methodId : Option String} (inv : Invariant h s)
    (run : processRescuedEvent fiber methodId s = .ok s') : Invariant h s' := by
  rcases processRescuedEvent_spec run with rfl | ⟨t, stack, atTop, _, _, rfl⟩
  · exact inv
  · refine ⟨inv.named, fun u member => ?_⟩
    rcases mem_setStack_frames member with below | old
    · have onStack := mem_top_frames atTop
      rcases List.mem_cons.mp below with rfl | below
      · exact inv.methods t (onStack t List.mem_cons_self)
      · exact inv.methods u (onStack u (List.mem_cons_of_mem t below))
    · exact inv.methods u old

omit [Fintype κ] in
theorem Invariant.block {s s' : Tracer κ} {addr : Nat}
    {handler : BlockParameter ReturnTrace → StateT (Globals κ) Option (BlockParameter ReturnTrace)}
    (inv : Invariant h s) (ensures : ∀ block, Ensures (Globals.Grows h) s.globals (handler block) fun block' g =>
      BlockStep h s.globals g block block')
    (run : processBlockTracepoint addr handler s = some s') : Invariant h s' := by
  obtain ⟨_, _, ⟨_, rfl⟩ | ⟨block, block', g, _, handled, rfl⟩⟩ := processBlockTracepoint_spec run
  · exact inv
  · refine ⟨Globals.Grows.named (ensures block block' g handled).1 inv.named, fun u member => ?_⟩
    obtain ⟨entry, mapped, inside⟩ := List.mem_flatMap.mp member
    obtain ⟨old, stacked, rfl⟩ := List.mem_map.mp mapped
    obtain ⟨t, before, rfl⟩ := List.mem_map.mp inside
    obtain ⟨blockParam, same⟩ := t.setBlock_frame addr block'
    rw [same]
    exact inv.methods t (List.mem_flatMap.mpr ⟨old, stacked, before⟩)

theorem Invariant.tracepoint {s s' : Extension κ ρ} {fuel : Nat} {path callerPath : PathValue}
    {event : TracepointEvent κ} {outcome : Except RubyError Unit} (inv : Invariant h s.tracer)
    (run : processTracepoint h v fuel path callerPath event s = some (outcome, s')) : Invariant h s'.tracer := by
  unfold processTracepoint at run
  simp only at run
  split_ifs at run
  · cases run
    exact inv
  · split at run
    next => cases run
    next tracer handled =>
      cases run
      cases event with
      | call fiber e =>
        obtain ⟨t, called, same⟩ := Option.map_eq_some_iff.mp handled
        cases same
        exact inv.call called
      | ret fiber methodId e =>
        obtain ⟨t, returned, same⟩ := Option.map_eq_some_iff.mp handled
        cases same
        exact inv.ret returned
      | rescue fiber methodId => exact inv.rescue (Option.some.inj handled)
    next => cases run; exact inv

theorem Invariant.step {s s' : Extension κ ρ} (inv : Invariant h s.tracer) (step : Step h v s s') :
    Invariant h s'.tracer := by
  cases step with
  | start pathRegex maxGenericDepth connects =>
    simp only [Tracer.start]
    split <;> exact ⟨inv.named, inv.methods⟩
  | stop => exact ⟨inv.named, by simp [openFrames, Tracer.stop]⟩
  | flush => exact ⟨inv.named, by simp [openFrames, Tracer.stop]⟩
  | sent => exact ⟨inv.named, inv.methods⟩
  | tracepoint path callerPath event _ run => exact inv.tracepoint run
  | blockCall e _ run => exact inv.block (fun block => processBlockCallEvent_ensures _ _ e block inv.named) run
  | blockReturn e _ run => exact inv.block (fun block => processBlockReturnEvent_ensures _ _ e block inv.named) run

theorem Reachable.invariant {s : Extension κ ρ} (reachable : Reachable h v s) : Invariant h s.tracer :=
  Run.invariant (I := fun s => Invariant h s.tracer) (fun _ _ inv step => inv.step step) reachable
    ⟨by simp [Named], by simp [openFrames]⟩

theorem processEvent_returns_iff {event : TracepointEvent κ} {s : Tracer κ} (inv : Invariant h s) :
    (∃ fuel s', processEvent h fuel event s = some (.ok s')) ↔ Tolerated h s event := by
  cases event with
  | call fiber e => simpa [processEvent, Tolerated] using processCallEvent_returns_iff fiber inv.named
  | ret fiber methodId e =>
    simpa [processEvent, Tolerated] using processReturnEvent_returns_iff (h := h) fiber
  | rescue fiber methodId =>
    simpa [processEvent, Tolerated] using processRescuedEvent_returns_iff fiber inv.methods

/-- In a reachable state an event is handled without an exception, and leaves the
call stacks alone if it has no method, exactly if it is filtered out or tolerated. -/
theorem returns_normally_iff {s : Extension κ ρ} (reachable : Reachable h v s) (path callerPath : PathValue)
    (event : TracepointEvent κ) :
    ReturnsNormally h v path callerPath event s ↔
      ((v.shouldProcessEvent path callerPath s.paths).1 = true → Tolerated h s.tracer event) := by
  have inv := reachable.invariant
  unfold ReturnsNormally processTracepoint
  simp only
  cases (v.shouldProcessEvent path callerPath s.paths).1 with
  | false => simp
  | true =>
    simp only [Bool.true_eq_false, if_false, true_implies, ← processEvent_returns_iff inv]
    constructor
    · rintro ⟨fuel, s', run, _⟩
      split at run
      next => cases run
      next tracer handled => exact ⟨fuel, tracer, handled⟩
      next => cases run
    · rintro ⟨fuel, tracer, handled⟩
      refine ⟨fuel, _, by rw [handled], fun without => ?_⟩
      cases event with
      | call fiber e => cases without
      | ret fiber methodId e => cases without
      | rescue fiber methodId =>
        cases without
        rw [processRescuedEvent_without_method (Option.some.inj handled)]

end

/-- Tracing is on, without a path filter, and a method runs on the first fiber. -/
theorem exists_running : ∃ s : Extension (Sample × Bool) String,
    Reachable sample PathCache.byLength s ∧ s.tracer.tpCall = some true ∧ s.paths.pathMatcher = none ∧
      (s.tracer.stack 0).map (·.map (·.methodName)) = some [some "run"] ∧ s.tracer.stack 1 = none := by
  let begun : Extension (Sample × Bool) String :=
    { tracer := Tracer.start 1 true {}, paths := PathCache.byLength.start none {} }
  have frames : (processCallEvent sample 2 0 moduleCall begun.tracer).map
      (fun t => (t.tpCall, (t.stack 0).map (·.map (·.methodName)), (t.stack 1).isNone)) =
        some (some true, some [some "run"], true) := by
    decide +kernel
  obtain ⟨t, called, same⟩ := Option.map_eq_some_iff.mp frames
  simp only [Prod.mk.injEq, Option.isNone_iff_eq_none] at same
  obtain ⟨enabled, atFiber, other⟩ := same
  have traced : processTracepoint sample PathCache.byLength 2 (.string "main.rb") .nil (.call 0 moduleCall) begun =
      some (.ok (), { begun with tracer := t }) := by
    simp only [processTracepoint, processEvent, called]
    rfl
  have reachable : Reachable sample PathCache.byLength { begun with tracer := t } :=
    .tail (.tail .refl (Step.start (s := {}) none 1 true))
      (.tracepoint (s := begun) (.string "main.rb") .nil (.call 0 moduleCall) rfl traced)
  exact ⟨{ begun with tracer := t }, reachable, enabled, rfl, atFiber, other⟩

/-- While the method runs, its own rescues are handled, and so are those outside of all
methods on a fiber that has called none. -/
theorem rescues_return_normally : ∃ s : Extension (Sample × Bool) String,
    s.tracer.tpCall = some true ∧ (s.tracer.stack 0).map (·.map (·.methodName)) = some [some "run"] ∧
      ReturnsNormally sample PathCache.byLength (.string "main.rb") .nil (.rescue 0 (some "run")) s ∧
        ReturnsNormally sample PathCache.byLength (.string "main.rb") .nil (.rescue 1 none) s := by
  obtain ⟨s, reachable, enabled, -, running, other⟩ := exists_running
  refine ⟨s, enabled, running, (returns_normally_iff reachable _ _ _).mpr fun _ => ?_,
    (returns_normally_iff reachable _ _ _).mpr fun _ _ => other⟩
  exact fun never => (by cases never)

/-- A rescue in a block at top level, which a method is running, raises a TypeError. -/
theorem rescue_in_block_raises : ∃ s : Extension (Sample × Bool) String,
    Reachable sample PathCache.byLength s ∧ s.tracer.tpCall = some true ∧
      ¬ ReturnsNormally sample PathCache.byLength (.string "main.rb") .nil (.rescue 0 none) s := by
  obtain ⟨s, reachable, enabled, unfiltered, running, -⟩ := exists_running
  refine ⟨s, reachable, enabled, ?_⟩
  rintro ⟨fuel, s', run, _⟩
  have raised : processRescuedEvent 0 none s.tracer = .error .TypeError := by
    obtain ⟨stack, top, names⟩ := Option.map_eq_some_iff.mp running
    cases stack with
    | nil => cases names
    | cons frame rest =>
      have name := (List.cons.inj names).1
      simp only [processRescuedEvent, top, name]
  simp only [processTracepoint, Regexes.shouldProcessEvent, unfiltered, processEvent, raised] at run
  cases run

end Racer.Handlers
