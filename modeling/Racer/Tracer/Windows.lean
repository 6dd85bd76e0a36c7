import Racer.Library.Outcome
import Racer.Library.Transition
import Racer.Tracer.Events

namespace Racer.Windows
open Transition

/-! The VM and the tracer: which invocation a queued trace is about. -/

/-- An active method invocation. `window` numbers the start/stop window in which
its first CALL was delivered to the tracer. `rescued` says that it has rescued, and
`blockRescued` that, while it was the innermost one, a block of a method of its
name has. -/
structure Invocation (κ : Type) where
  call : CallEvent κ
  maxGenericDepth : Int
  window : Option Nat
  rescued : Bool := false
  blockRescued : Bool := false

/-- A RESCUE with the name of its method came while the invocation was the innermost one. -/
def Invocation.flagged {κ : Type} (i : Invocation κ) : Bool :=
  i.rescued || i.blockRescued

/-- A block of a method of this name has rescued on top of the invocation. -/
def Invocation.afterBlockRescue {κ : Type} (methodId : Option String) (i : Invocation κ) : Invocation κ :=
  { i with blockRescued := i.blockRescued || methodId == some i.call.methodId }

/-- An invocation that has returned. `recorded` says that its RETURN fell in the
window of its CALL. -/
structure Completed (κ : Type) where
  invocation : Invocation κ
  ret : ReturnEvent κ
  maxGenericDepth : Int
  recorded : Bool

/-- The tracer and the invocations of every fiber, the innermost first. `window`
counts the calls of `stop`. -/
structure Vm (κ : Type) where
  tracer : Tracer κ := {}
  invocations : Nat → List (Invocation κ) := fun _ => []
  window : Nat := 0
  completed : List (Completed κ) := []

inductive Event (κ : Type)
  | call (fiber : Nat) (e : CallEvent κ)
  | ret (fiber : Nat) (e : ReturnEvent κ)
  | rescue (fiber : Nat)
  | blockRescue (fiber : Nat) (methodId : Option String)
  | retry (fiber : Nat) (e : CallEvent κ)
  | start (maxGenericDepth : Int) (connects : Bool)
  | stop
  | blockCall (trace : Nat) (e : BlockCallEvent κ)
  | blockReturn (trace : Nat) (e : ReturnEvent κ)

section
variable {κ : Type}

/-- The tracer sees an event only while its tracepoint is enabled. -/
def Observes (handler : Tracer κ → Option (Tracer κ)) (s t : Tracer κ) : Prop :=
  if s.tpCall = some true then handler s = some t else t = s

def Vm.currentWindow (s : Vm κ) : Option Nat :=
  if s.tracer.tpCall = some true then some s.window else none

def Vm.setStack (s : Vm κ) (fiber : Nat) (stack : List (Invocation κ)) : Vm κ :=
  { s with invocations := Function.update s.invocations fiber stack }

def Vm.invoked (s : Vm κ) (e : CallEvent κ) : Invocation κ :=
  { call := e, maxGenericDepth := s.tracer.maxGenericDepth, window := s.currentWindow }

def Vm.complete (s : Vm κ) (i : Invocation κ) (e : ReturnEvent κ) : Completed κ :=
  { invocation := i, ret := e, maxGenericDepth := s.tracer.maxGenericDepth
    recorded := i.window == some s.window }

def Vm.frames (s : Vm κ) (fiber : Nat) : List ReturnTrace :=
  (s.tracer.stack fiber).getD []

/-- A retry runs the same method on the same receiver again. -/
structure SameMethod (e e' : CallEvent κ) : Prop where
  methodId : e.methodId = e'.methodId
  definedClass : e.definedClass = e'.definedClass
  attachedObject : e.attachedObject = e'.attachedObject
  self : e.self = e'.self

theorem Observes.eq {handler : Tracer κ → Option (Tracer κ)} {s t : Tracer κ} (observes : Observes handler s t)
    (off : s.tpCall ≠ some true) : t = s := by
  rwa [Observes, if_neg off] at observes

theorem Observes.handled {handler : Tracer κ → Option (Tracer κ)} {s t : Tracer κ}
    (observes : Observes handler s t) (on : s.tpCall = some true) : handler s = some t := by
  rwa [Observes, if_pos on] at observes

/-- A rescue that raises nothing. -/
theorem Observes.getD {handler : Tracer κ → Option (Tracer κ)} {s t : Tracer κ} (observes : Observes handler s t) :
    Observes (fun s => some ((handler s).getD s)) s t := by
  by_cases on : s.tpCall = some true
  · rw [Observes, if_pos on, observes.handled on, Option.getD_some]
  · rw [Observes, if_neg on, observes.eq on]

theorem Observes.tpCall {handler : Tracer κ → Option (Tracer κ)} {s t : Tracer κ} (observes : Observes handler s t)
    (keeps : ∀ t, handler s = some t → t.tpCall = s.tpCall) : t.tpCall = s.tpCall := by
  by_cases on : s.tpCall = some true
  · exact keeps t (observes.handled on)
  · rw [observes.eq on]

theorem Vm.stack_of_frames {s : Vm κ} {fiber : Nat} {trace : ReturnTrace} {below : List ReturnTrace}
    (frames : s.frames fiber = trace :: below) : s.tracer.stack fiber = some (trace :: below) := by
  unfold Vm.frames at frames
  cases found : s.tracer.stack fiber with
  | none => rw [found] at frames; cases frames
  | some stack => rw [found] at frames; exact congrArg some frames

theorem frames_setStack {s : Tracer κ} {t : Vm κ} {fiber f : Nat} {stack : List ReturnTrace}
    (same : t.tracer.callStacks = setStack s.callStacks fiber stack) :
    t.frames f = if f = fiber then stack else (s.stack f).getD [] := by
  rw [Vm.frames, Tracer.stack, same, lookup_setStack]
  split <;> rfl

theorem detectsRetry_nil {stack : Option (List ReturnTrace)} (empty : stack.getD [] = []) (methodId : String)
    (owner : ConstantInstance) : detectsRetry stack methodId owner = false := by
  rcases stack with _ | _ | ⟨t, below⟩
  · rfl
  · rfl
  · cases empty

theorem detectsRetry_cons {stack : Option (List ReturnTrace)} {t : ReturnTrace} {below : List ReturnTrace}
    (top : stack.getD [] = t :: below) (methodId : String) (owner : ConstantInstance) :
    detectsRetry stack methodId owner =
      (t.rescued && t.methodName == some methodId && t.methodOwner.name == owner.name) := by
  rcases stack with _ | stack
  · cases top
  · cases top
    rfl

section
variable [DecidableEq κ]

/-- One event of a well-nested execution. `rescue` and `retry` are about the
innermost invocation. A block that rescues need not be one of the innermost invocation:
the event has the name of the method in which the block is written, whose invocation may
be further out or have returned, and no name for a block outside of all methods. Block
calls and returns come from the tracepoints that follow blocks. -/
inductive Step [Fintype κ] (h : Hierarchy κ) : Vm κ → Event κ → Vm κ → Prop
  | call {s fiber e fuel t} : Observes (processCallEvent h fuel fiber e) s.tracer t →
      Step h s (.call fiber e)
        { s.setStack fiber (s.invoked e :: s.invocations fiber) with tracer := t }
  | ret {s fiber e fuel t i rest} : s.invocations fiber = i :: rest →
      Observes (processReturnEvent h fuel fiber i.call.methodId e) s.tracer t →
      Step h s (.ret fiber e)
        { s.setStack fiber rest with tracer := t, completed := s.completed ++ [s.complete i e] }
  | rescue {s fiber t i rest} : s.invocations fiber = i :: rest →
      Observes (fun s => (processRescuedEvent fiber (some i.call.methodId) s).toOption) s.tracer t →
      Step h s (.rescue fiber) { s.setStack fiber ({ i with rescued := true } :: rest) with tracer := t }
  | blockRescue {s fiber methodId t} :
      Observes (fun s => some ((processRescuedEvent fiber methodId s).toOption.getD s)) s.tracer t →
      Step h s (.blockRescue fiber methodId)
        { s.setStack fiber ((s.invocations fiber).modifyHead (·.afterBlockRescue methodId)) with tracer := t }
  | retry {s fiber e fuel t i rest} : s.invocations fiber = i :: rest → i.rescued = true → SameMethod e i.call →
      Observes (processCallEvent h fuel fiber e) s.tracer t →
      Step h s (.retry fiber e) { s with tracer := t }
  | start {s} (maxGenericDepth : Int) (connects : Bool) :
      Step h s (.start maxGenericDepth connects) { s with tracer := s.tracer.start maxGenericDepth connects }
  | stop {s} : Step h s .stop { s with tracer := s.tracer.stop, window := s.window + 1 }
  | blockCall {s id trace e fuel t} : ⟨id, trace⟩ ∈ s.tracer.globals.tracepoints →
      processBlockTracepoint trace (processBlockCallEvent h fuel s.tracer.maxGenericDepth e) s.tracer = some t →
      Step h s (.blockCall trace e) { s with tracer := t }
  | blockReturn {s id trace e fuel t} : ⟨id, trace⟩ ∈ s.tracer.globals.tracepoints →
      processBlockTracepoint trace (processBlockReturnEvent h fuel s.tracer.maxGenericDepth e) s.tracer = some t →
      Step h s (.blockReturn trace e) { s with tracer := t }

/-- The trace carries the invocation's method, the parameters of its first CALL,
and its own return value. -/
structure Reports (h : Hierarchy κ) (t : ReturnTrace) (c : Completed κ) : Prop where
  call : CallTrace h c.invocation.call c.invocation.maxGenericDepth t
  returnType : ∃ fuel, typeOfValue h c.ret.objects c.maxGenericDepth fuel c.ret.returnValue 0 =
    some t.returnType

/-- The frame the tracer keeps for an active invocation. -/
structure FrameOf (h : Hierarchy κ) (t : ReturnTrace) (i : Invocation κ) : Prop where
  call : CallTrace h i.call i.maxGenericDepth t
  rescued : t.rescued = i.flagged

/-- The recorded stack of a fiber is the part of its real stack that was called
in the current window, which lies on top. -/
def Matched (h : Hierarchy κ) (window : Nat) (frames : List ReturnTrace) (stack : List (Invocation κ)) : Prop :=
  ∃ recorded older, stack = recorded ++ older ∧ (∀ i ∈ recorded, i.window = some window) ∧
    (∀ i ∈ older, i.window ≠ some window) ∧ List.Forall₂ (FrameOf h) frames recorded

/-- The invariant of one fiber, while the tracepoint is enabled or not. -/
structure Recorded (h : Hierarchy κ) (enabled : Prop) (window : Nat) (frames : List ReturnTrace)
    (stack : List (Invocation κ)) : Prop where
  past : ∀ i ∈ stack, ∀ w, i.window = some w → w ≤ window
  disabled : ¬ enabled → ∀ i ∈ stack, i.window ≠ some window
  matched : Matched h window frames stack

structure Invariant (h : Hierarchy κ) (s : Vm κ) : Prop where
  named : Named h s.tracer.globals.constants
  recorded : ∀ fiber, Recorded h (s.tracer.tpCall = some true) s.window (s.frames fiber) (s.invocations fiber)
  queue : List.Forall₂ (Reports h) s.tracer.queue (s.completed.filter (·.recorded))

/-- The events that retry detection cannot mistake. On top of a recorded invocation that
is flagged no method of its name and owner name is called, and only recorded
invocations are retried. -/
def Unmistakable (h : Hierarchy κ) (s : Vm κ) : Event κ → Prop
  | .call fiber e => ∀ i ∈ (s.invocations fiber).head?, i.window = some s.window → i.flagged = true →
      ¬ (e.methodId = i.call.methodId ∧ finalName h e.owner = finalName h i.call.owner)
  | .retry fiber _ => s.tracer.tpCall = some true → ∀ i ∈ (s.invocations fiber).head?, i.window = some s.window
  | _ => True

variable {h : Hierarchy κ}

theorem Matched.head {window : Nat} {frames : List ReturnTrace} {i : Invocation κ} {rest : List (Invocation κ)}
    (matched : Matched h window frames (i :: rest)) :
    (i.window = some window ∧ ∃ t below, frames = t :: below ∧ FrameOf h t i ∧ Matched h window below rest) ∨
      (i.window ≠ some window ∧ frames = [] ∧ Matched h window [] rest) := by
  obtain ⟨recorded, older, split, current, past, forall₂⟩ := matched
  cases forall₂ with
  | nil =>
    rw [List.nil_append] at split
    subst split
    exact .inr ⟨past i List.mem_cons_self, rfl, [], rest, rfl, nofun,
      fun j member => past j (List.mem_cons_of_mem i member), .nil⟩
  | @cons t j below recorded first tail =>
    rw [List.cons_append, List.cons.injEq] at split
    obtain ⟨rfl, rfl⟩ := split
    exact .inl ⟨current i List.mem_cons_self, t, below, rfl, first, recorded, older, rfl,
      fun j member => current j (List.mem_cons_of_mem i member), past, tail⟩

theorem Matched.push {window : Nat} {frames : List ReturnTrace} {stack : List (Invocation κ)}
    (matched : Matched h window frames stack) {t : ReturnTrace} {i : Invocation κ} (frame : FrameOf h t i)
    (current : i.window = some window) : Matched h window (t :: frames) (i :: stack) := by
  obtain ⟨recorded, older, rfl, now, past, forall₂⟩ := matched
  refine ⟨i :: recorded, older, rfl, fun j member => ?_, past, .cons frame forall₂⟩
  rcases List.mem_cons.mp member with rfl | later
  · exact current
  · exact now j later

theorem Matched.pushOlder {window : Nat} {stack : List (Invocation κ)} (matched : Matched h window [] stack)
    {i : Invocation κ} (older : i.window ≠ some window) : Matched h window [] (i :: stack) := by
  obtain ⟨recorded, past, rfl, _, outside, forall₂⟩ := matched
  cases forall₂
  refine ⟨[], i :: past, rfl, nofun, fun j member => ?_, .nil⟩
  rcases List.mem_cons.mp member with rfl | later
  · exact older
  · exact outside j later

theorem Matched.map {window : Nat} {frames : List ReturnTrace} {stack : List (Invocation κ)}
    (matched : Matched h window frames stack) {f : ReturnTrace → ReturnTrace}
    (keeps : ∀ t i, FrameOf h t i → FrameOf h (f t) i) : Matched h window (frames.map f) stack := by
  obtain ⟨recorded, older, split, current, past, forall₂⟩ := matched
  refine ⟨recorded, older, split, current, past, ?_⟩
  rw [List.forall₂_map_left_iff]
  exact forall₂.imp keeps

/-- A CALL is taken for a retry exactly on top of a recorded invocation that is
flagged and has the same method name and owner name. -/
theorem Matched.detectsRetry {window : Nat} {stack : Option (List ReturnTrace)} {invocations : List (Invocation κ)}
    (matched : Matched h window (stack.getD []) invocations) (e : CallEvent κ) :
    detectsRetry stack e.methodId (e.expectedOwner h) = true ↔
      ∃ i ∈ invocations.head?, i.window = some window ∧ i.flagged = true ∧
        e.methodId = i.call.methodId ∧ finalName h e.owner = finalName h i.call.owner := by
  cases invocations with
  | nil =>
    obtain ⟨recorded, older, split, _, _, forall₂⟩ := matched
    obtain ⟨rfl, rfl⟩ := List.append_eq_nil_iff.mp split.symm
    rw [detectsRetry_nil (List.forall₂_nil_right_iff.mp forall₂)]
    simp
  | cons i rest =>
    rcases matched.head with ⟨current, t, below, top, frame, _⟩ | ⟨older, empty, _⟩
    · rw [detectsRetry_cons top, frame.rescued, frame.call.methodName, frame.call.methodOwner]
      simp only [Bool.and_eq_true, beq_iff_eq, Option.some.injEq, CallEvent.expectedOwner, List.head?_cons,
        Option.mem_some_iff]
      constructor
      · rintro ⟨⟨flagged, method⟩, owner⟩
        exact ⟨i, rfl, current, flagged, method.symm, owner.symm⟩
      · rintro ⟨j, rfl, _, flagged, method, owner⟩
        exact ⟨⟨flagged, method.symm⟩, owner.symm⟩
    · rw [detectsRetry_nil empty]
      simp only [Bool.false_eq_true, List.head?_cons, Option.mem_some_iff, false_iff]
      rintro ⟨j, rfl, current, _⟩
      exact older current

theorem Matched.clear {window : Nat} {invocations : List (Invocation κ)}
    (past : ∀ i ∈ invocations, i.window ≠ some window) : Matched h window [] invocations :=
  ⟨[], invocations, rfl, nofun, past, .nil⟩

theorem Matched.nil_of_older {window : Nat} {frames : List ReturnTrace} {invocations : List (Invocation κ)}
    (matched : Matched h window frames invocations) (older : ∀ i ∈ invocations, i.window ≠ some window) :
    frames = [] := by
  obtain ⟨recorded, past, rfl, current, _, forall₂⟩ := matched
  cases forall₂ with
  | nil => rfl
  | @cons t i _ _ _ _ =>
    exact absurd (current i List.mem_cons_self) (older i (List.mem_append_left _ List.mem_cons_self))

theorem Recorded.push {window : Nat} {frames : List ReturnTrace} {stack : List (Invocation κ)}
    (recorded : Recorded h True window frames stack) {t : ReturnTrace} {i : Invocation κ} (frame : FrameOf h t i)
    (current : i.window = some window) : Recorded h True window (t :: frames) (i :: stack) := by
  refine ⟨fun j member w atW => ?_, fun off => absurd trivial off, recorded.matched.push frame current⟩
  rcases List.mem_cons.mp member with rfl | later
  · rw [current] at atW
    exact (Option.some.inj atW).ge
  · exact recorded.past j later w atW

theorem Recorded.pushUnseen {window : Nat} {frames : List ReturnTrace} {stack : List (Invocation κ)}
    (recorded : Recorded h False window frames stack) {i : Invocation κ} (unseen : i.window = none) :
    Recorded h False window frames (i :: stack) := by
  have empty := recorded.matched.nil_of_older (recorded.disabled id)
  subst empty
  refine ⟨fun j member w atW => ?_, fun off j member => ?_, recorded.matched.pushOlder (by rw [unseen]; nofun)⟩
  · rcases List.mem_cons.mp member with rfl | later
    · rw [unseen] at atW
      cases atW
    · exact recorded.past j later w atW
  · rcases List.mem_cons.mp member with rfl | later
    · rw [unseen]
      nofun
    · exact recorded.disabled off j later

theorem Recorded.tail {enabled : Prop} {window : Nat} {frames below : List ReturnTrace} {i : Invocation κ}
    {rest : List (Invocation κ)} (recorded : Recorded h enabled window frames (i :: rest))
    (matched : Matched h window below rest) : Recorded h enabled window below rest :=
  ⟨fun j member => recorded.past j (List.mem_cons_of_mem i member),
    fun off j member => recorded.disabled off j (List.mem_cons_of_mem i member), matched⟩

theorem Recorded.enable {enabled : Prop} {window : Nat} {frames : List ReturnTrace} {stack : List (Invocation κ)}
    (recorded : Recorded h enabled window frames stack) : Recorded h (some true = some true) window frames stack :=
  ⟨recorded.past, fun off => absurd rfl off, recorded.matched⟩

/-- After `stop` every active invocation is older than the window. -/
theorem Recorded.stop {enabled enabled' : Prop} {window : Nat} {frames : List ReturnTrace}
    {stack : List (Invocation κ)} (recorded : Recorded h enabled window frames stack) :
    Recorded h enabled' (window + 1) [] stack := by
  have older : ∀ i ∈ stack, i.window ≠ some (window + 1) := by
    intro i member atNext
    have bound := recorded.past i member _ atNext
    omega
  exact ⟨fun i member w atW => (recorded.past i member w atW).trans (Nat.le_succ window), fun _ => older,
    .clear older⟩

section
variable [Fintype κ]

theorem Invariant.call {s : Vm κ} (inv : Invariant h s) {fiber fuel : Nat} {e : CallEvent κ} {t : Tracer κ}
    (observes : Observes (processCallEvent h fuel fiber e) s.tracer t)
    (unmistakable : Unmistakable h s (.call fiber e)) :
    Invariant h { s.setStack fiber (s.invoked e :: s.invocations fiber) with tracer := t } := by
  by_cases on : s.tracer.tpCall = some true
  · obtain ⟨g, grows, ⟨retry, _⟩ | ⟨_, trace, called, new, rfl⟩⟩ :=
      processCallEvent_spec inv.named (observes.handled on)
    · obtain ⟨i, top, current, flagged, same⟩ := ((inv.recorded fiber).matched.detectsRetry e).mp retry
      exact absurd same (unmistakable i top current flagged)
    · have window : s.currentWindow = some s.window := if_pos on
      refine ⟨Globals.Grows.named grows inv.named, ?_, inv.queue⟩
      refine (Function.forall_update_iff _ _).mpr ⟨?_, fun f other => ?_⟩
      · rw [frames_setStack rfl, if_pos rfl]
        have before := inv.recorded fiber
        simp only [on] at before ⊢
        exact before.push ⟨called, new.rescued⟩ window
      · rw [frames_setStack rfl, if_neg other]
        exact inv.recorded f
  · obtain rfl := observes.eq on
    have window : s.currentWindow = none := if_neg on
    refine ⟨inv.named, ?_, inv.queue⟩
    refine (Function.forall_update_iff _ _).mpr ⟨?_, fun f other => inv.recorded f⟩
    have before := inv.recorded fiber
    simp only [on] at before ⊢
    exact before.pushUnseen window

theorem Invariant.retry {s : Vm κ} (inv : Invariant h s) {fiber fuel : Nat} {e : CallEvent κ} {t : Tracer κ}
    {i : Invocation κ} {rest : List (Invocation κ)} (top : s.invocations fiber = i :: rest)
    (rescued : i.rescued = true) (same : SameMethod e i.call)
    (observes : Observes (processCallEvent h fuel fiber e) s.tracer t)
    (unmistakable : Unmistakable h s (.retry fiber e)) : Invariant h { s with tracer := t } := by
  by_cases on : s.tracer.tpCall = some true
  · have current : i.window = some s.window := unmistakable on i (by rw [top]; rfl)
    have owner : e.owner = i.call.owner := by
      rw [CallEvent.owner, CallEvent.owner, same.attachedObject, same.definedClass]
    have retry := ((inv.recorded fiber).matched.detectsRetry e).mpr
      ⟨i, by rw [top]; rfl, current, by rw [Invocation.flagged, rescued, Bool.true_or], same.methodId, by rw [owner]⟩
    obtain ⟨g, grows, ⟨_, rfl⟩ | ⟨call, _⟩⟩ := processCallEvent_spec inv.named (observes.handled on)
    · exact ⟨Globals.Grows.named grows inv.named, inv.recorded, inv.queue⟩
    · rw [Tracer.stack] at retry call
      rw [retry] at call
      cases call
  · obtain rfl := observes.eq on
    exact inv

/-- A RETURN of an invocation that was not recorded in this window finds no frame. -/
theorem Invariant.unrecorded_ret {s : Vm κ} (inv : Invariant h s) {fiber fuel : Nat} {e : ReturnEvent κ}
    {t : Tracer κ} {i : Invocation κ} {rest : List (Invocation κ)} (top : s.invocations fiber = i :: rest)
    (older : i.window ≠ some s.window)
    (observes : Observes (processReturnEvent h fuel fiber i.call.methodId e) s.tracer t) : t = s.tracer := by
  by_cases on : s.tracer.tpCall = some true
  · have before := (inv.recorded fiber).matched
    rw [top] at before
    rcases before.head with ⟨current, _⟩ | ⟨_, empty, _⟩
    · exact absurd current older
    · rcases processReturnEvent_spec inv.named (observes.handled on) with ⟨same, _⟩ |
        ⟨trace, below, _, _, stack, _⟩
      · exact same
      · rw [Vm.frames, stack] at empty
        cases empty
  · exact observes.eq on

theorem Invariant.ret {s : Vm κ} (inv : Invariant h s) {fiber fuel : Nat} {e : ReturnEvent κ} {t : Tracer κ}
    {i : Invocation κ} {rest : List (Invocation κ)} (top : s.invocations fiber = i :: rest)
    (observes : Observes (processReturnEvent h fuel fiber i.call.methodId e) s.tracer t) :
    Invariant h { s.setStack fiber rest with tracer := t, completed := s.completed ++ [s.complete i e] } := by
  have before := inv.recorded fiber
  rw [top] at before
  rcases before.matched.head with ⟨current, trace, below, frames, frame, matched⟩ | ⟨older, empty, matched⟩
  · have recorded : (s.complete i e).recorded = true := by simp [Vm.complete, current]
    have on : s.tracer.tpCall = some true := by
      by_contra off
      exact before.disabled off i List.mem_cons_self current
    have stack := Vm.stack_of_frames frames
    rcases processReturnEvent_spec inv.named (observes.handled on) with ⟨_, mismatch⟩ |
      ⟨trace', below', returnType, g, stack', _, grows, computed, _, rfl⟩
    · exact absurd frame.call.methodName (mismatch trace (by rw [stack]; rfl))
    · rw [stack] at stack'
      cases stack'
      have named := Globals.Grows.named grows inv.named
      refine ⟨named, ?_, ?_⟩
      · refine (Function.forall_update_iff _ _).mpr ⟨?_, fun f other => ?_⟩
        · rw [frames_setStack rfl, if_pos rfl]
          exact before.tail matched
        · rw [frames_setStack rfl, if_neg other]
          exact inv.recorded f
      · rw [List.filter_append, List.filter_singleton, recorded]
        exact List.rel_append inv.queue (.cons ⟨⟨frame.call.methodOwner, frame.call.methodCallee,
          frame.call.methodName, frame.call.methodKind, frame.call.methodVisibility, frame.call.params⟩,
          fuel, computed⟩ .nil)
  · have unrecorded : (s.complete i e).recorded = false := by simpa [Vm.complete] using older
    obtain rfl := inv.unrecorded_ret top older observes
    refine ⟨inv.named, ?_, ?_⟩
    · refine (Function.forall_update_iff _ _).mpr ⟨?_, fun f other => inv.recorded f⟩
      show Recorded h _ _ (s.frames fiber) rest
      rw [empty] at before ⊢
      exact before.tail matched
    · rw [List.filter_append, List.filter_singleton, unrecorded]
      simpa using inv.queue

omit [Fintype κ] in
theorem FrameOf.flag {t : ReturnTrace} {i : Invocation κ} (frame : FrameOf h t i) {rescued blockRescued : Bool}
    {flag : Bool} (flagged : flag = (rescued || blockRescued)) :
    FrameOf h { t with rescued := flag } { i with rescued, blockRescued } :=
  ⟨⟨frame.call.methodOwner, frame.call.methodCallee, frame.call.methodName, frame.call.methodKind,
    frame.call.methodVisibility, frame.call.params⟩, flagged⟩

omit [Fintype κ] in
theorem Recorded.replace {enabled : Prop} {window : Nat} {frames frames' : List ReturnTrace} {i i' : Invocation κ}
    {rest : List (Invocation κ)} (recorded : Recorded h enabled window frames (i :: rest))
    (same : i'.window = i.window) (matched : Matched h window frames' (i' :: rest)) :
    Recorded h enabled window frames' (i' :: rest) := by
  refine ⟨fun j member w atW => ?_, fun off j member => ?_, matched⟩
  · rcases List.mem_cons.mp member with rfl | later
    · exact recorded.past i List.mem_cons_self w (same ▸ atW)
    · exact recorded.past j (List.mem_cons_of_mem i later) w atW
  · rcases List.mem_cons.mp member with rfl | later
    · rw [same]
      exact recorded.disabled off i List.mem_cons_self
    · exact recorded.disabled off j (List.mem_cons_of_mem i later)

omit [DecidableEq κ] [Fintype κ] in
/-- Where no frame is recorded, a rescue leaves the tracer as it is. -/
theorem Observes.rescue_unrecorded {s : Vm κ} {fiber : Nat} {methodId : Option String} {t : Tracer κ}
    (observes : Observes (fun s => some ((processRescuedEvent fiber methodId s).toOption.getD s)) s.tracer t)
    (empty : s.frames fiber = []) : t = s.tracer := by
  by_cases on : s.tracer.tpCall = some true
  · cases observes.handled on
    rcases processRescuedEvent_getD_spec (s := s.tracer) with same | ⟨trace, stack, found, _⟩
    · exact same
    · rw [Vm.frames, found] at empty
      cases empty
  · exact observes.eq on

omit [Fintype κ] in
/-- A RESCUE flags the frame of the innermost invocation if it has the name of its method,
whoever rescues. -/
theorem Invariant.rescue {s : Vm κ} (inv : Invariant h s) {fiber : Nat} {methodId : Option String} {t : Tracer κ}
    {i : Invocation κ} {rest : List (Invocation κ)} (top : s.invocations fiber = i :: rest)
    {rescued blockRescued : Bool}
    (flags : (rescued || blockRescued) = (i.flagged || methodId == some i.call.methodId))
    (observes : Observes (fun s => some ((processRescuedEvent fiber methodId s).toOption.getD s)) s.tracer t) :
    Invariant h { s.setStack fiber ({ i with rescued, blockRescued } :: rest) with tracer := t } := by
  have before := inv.recorded fiber
  rw [top] at before
  rcases before.matched.head with ⟨current, trace, below, frames, frame, matched⟩ | ⟨older, empty, matched⟩
  · have on : s.tracer.tpCall = some true := by
      by_contra off
      exact before.disabled off i List.mem_cons_self current
    have stack := Vm.stack_of_frames frames
    have handled := observes.handled on
    by_cases own : methodId = some i.call.methodId
    · subst own
      rw [processRescuedEvent_top stack frame.call.methodName] at handled
      cases handled
      refine ⟨inv.named, ?_, inv.queue⟩
      refine (Function.forall_update_iff _ _).mpr ⟨?_, fun f other => ?_⟩
      · rw [frames_setStack rfl, if_pos rfl]
        exact before.replace rfl (matched.push (frame.flag (by rw [flags, beq_self_eq_true, Bool.or_true])) current)
      · rw [frames_setStack rfl, if_neg other]
        exact inv.recorded f
    · rw [processRescuedEvent_other stack frame.call.methodName own] at handled
      cases handled
      refine ⟨inv.named, ?_, inv.queue⟩
      refine (Function.forall_update_iff _ _).mpr ⟨?_, fun f other => inv.recorded f⟩
      show Recorded h _ _ (s.frames fiber) _
      rw [frames] at before ⊢
      rw [beq_false_of_ne own, Bool.or_false] at flags
      exact before.replace rfl (matched.push ⟨frame.call, frame.rescued.trans flags.symm⟩ current)
  · obtain rfl := observes.rescue_unrecorded empty
    refine ⟨inv.named, ?_, inv.queue⟩
    refine (Function.forall_update_iff _ _).mpr ⟨?_, fun f other => inv.recorded f⟩
    show Recorded h _ _ (s.frames fiber) _
    rw [empty] at before ⊢
    exact before.replace rfl (matched.pushOlder older)

omit [Fintype κ] in
theorem Invariant.blockRescue {s : Vm κ} (inv : Invariant h s) {fiber : Nat} {methodId : Option String} {t : Tracer κ}
    (observes : Observes (fun s => some ((processRescuedEvent fiber methodId s).toOption.getD s)) s.tracer t) :
    Invariant h
      { s.setStack fiber ((s.invocations fiber).modifyHead (·.afterBlockRescue methodId)) with tracer := t } := by
  cases top : s.invocations fiber with
  | cons i rest => exact inv.rescue top (Bool.or_assoc _ _ _).symm observes
  | nil =>
    have before := inv.recorded fiber
    rw [top] at before
    obtain rfl := observes.rescue_unrecorded (before.matched.nil_of_older (fun j member => (by cases member)))
    refine ⟨inv.named, ?_, inv.queue⟩
    refine (Function.forall_update_iff _ _).mpr ⟨?_, fun f other => inv.recorded f⟩
    exact before

omit [Fintype κ] in
/-- A block event changes blocks only, so every frame is still about its invocation. -/
theorem Invariant.blockEvent {s : Vm κ} (inv : Invariant h s) {addr : Nat} {t : Tracer κ}
    {handler : BlockParameter ReturnTrace → StateT (Globals κ) Option (BlockParameter ReturnTrace)}
    (ensures : ∀ block, Stateful.Ensures (Globals.Grows h) s.tracer.globals (handler block)
      fun block' g => BlockStep h s.tracer.globals g block block')
    (run : processBlockTracepoint addr handler s.tracer = some t) : Invariant h { s with tracer := t } := by
  obtain ⟨trace, _, ⟨_, rfl⟩ | ⟨block, block', g, _, handled, rfl⟩⟩ := processBlockTracepoint_spec run
  · exact inv
  · obtain ⟨grows, _⟩ := ensures block block' g handled
    refine ⟨Globals.Grows.named grows inv.named, fun fiber => ?_, ?_⟩
    · have before := inv.recorded fiber
      refine ⟨before.past, before.disabled, ?_⟩
      have frames := before.matched.map (f := fun t => t.setBlock addr block') fun t i frame => by
        obtain ⟨blockParam, same⟩ := t.setBlock_frame addr block'
        exact ⟨frame.call.setBlock addr block', by rw [same]; exact frame.rescued⟩
      simp only [Vm.frames, Tracer.stack, lookup_map_stack] at frames ⊢
      cases found : s.tracer.callStacks.lookup fiber <;> rw [found] at frames <;> exact frames
    · show List.Forall₂ (Reports h) (s.tracer.queue.map _) _
      rw [List.forall₂_map_left_iff]
      refine inv.queue.imp fun t c reports => ⟨reports.call.setBlock addr block', ?_⟩
      obtain ⟨blockParam, same⟩ := t.setBlock_frame addr block'
      rw [same]
      exact reports.returnType

theorem Step.invariant {s s' : Vm κ} {event : Event κ} (step : Step h s event s')
    (unmistakable : Unmistakable h s event) (inv : Invariant h s) : Invariant h s' := by
  cases step with
  | call observes => exact inv.call observes unmistakable
  | ret top observes => exact inv.ret top observes
  | rescue top observes =>
    refine inv.rescue top ?_ observes.getD
    rw [beq_self_eq_true, Bool.or_true, Bool.true_or]
  | blockRescue observes => exact inv.blockRescue observes
  | retry top rescued same observes => exact inv.retry top rescued same observes unmistakable
  | start maxGenericDepth connects =>
    simp only [Tracer.start]
    split
    · exact ⟨inv.named, fun fiber => (inv.recorded fiber).enable, inv.queue⟩
    · exact ⟨inv.named, inv.recorded, inv.queue⟩
  | stop =>
    refine ⟨inv.named, fun fiber => (inv.recorded fiber).stop, inv.queue⟩
  | blockCall member run =>
    exact inv.blockEvent (fun block => processBlockCallEvent_ensures _ _ _ block inv.named) run
  | blockReturn member run =>
    exact inv.blockEvent (fun block => processBlockReturnEvent_ensures _ _ _ block inv.named) run

omit [Fintype κ] in
theorem Recorded.nil {enabled : Prop} {window : Nat} : Recorded h enabled window [] [] :=
  ⟨by simp, by simp, .clear (by simp)⟩

omit [Fintype κ] in
theorem Invariant.initial : Invariant h ({} : Vm κ) :=
  ⟨fun _ _ atK => (by cases atK), fun _ => .nil, .nil⟩

/-- An event that has nothing to do with exceptions. -/
def Event.WithoutRescue : Event κ → Prop
  | .rescue _ | .blockRescue _ _ | .retry _ _ => False
  | _ => True

instance (event : Event κ) : Decidable event.WithoutRescue :=
  match event with
  | .rescue _ | .blockRescue _ _ | .retry _ _ => inferInstanceAs (Decidable False)
  | .call _ _ | .ret _ _ | .start _ _ | .stop | .blockCall _ _ | .blockReturn _ _ =>
    inferInstanceAs (Decidable True)

theorem Step.unflagged {s s' : Vm κ} {event : Event κ} (step : Step h s event s') (without : event.WithoutRescue)
    (unflagged : ∀ fiber, ∀ i ∈ s.invocations fiber, i.flagged = false) :
    ∀ fiber, ∀ i ∈ s'.invocations fiber, i.flagged = false := by
  cases step with
  | @call fiber e fuel t observes =>
    refine (Function.forall_update_iff s.invocations fun _ stack => ∀ i ∈ stack, i.flagged = false).mpr
      ⟨fun i member => ?_, fun f _ => unflagged f⟩
    rcases List.mem_cons.mp member with rfl | below
    · rfl
    · exact unflagged fiber i below
  | @ret fiber e fuel t i rest top observes =>
    refine (Function.forall_update_iff s.invocations fun _ stack => ∀ i ∈ stack, i.flagged = false).mpr
      ⟨fun j member => ?_, fun f _ => unflagged f⟩
    exact unflagged fiber j (by rw [top]; exact List.mem_cons_of_mem i member)
  | rescue | blockRescue | retry => exact without.elim
  | start | stop | blockCall | blockReturn => exact unflagged

/-- An event of one execution on one fiber, inside one window. -/
def Event.OnFiber (fiber : Nat) : Event κ → Prop
  | .call f _ | .ret f _ | .rescue f | .blockRescue f _ | .retry f _ => f = fiber
  | .start _ _ | .stop => False
  | .blockCall _ _ | .blockReturn _ _ => True

instance (fiber : Nat) (event : Event κ) : Decidable (event.OnFiber fiber) :=
  match event with
  | .call f _ | .ret f _ | .rescue f | .blockRescue f _ | .retry f _ => inferInstanceAs (Decidable (f = fiber))
  | .start _ _ | .stop => inferInstanceAs (Decidable False)
  | .blockCall _ _ | .blockReturn _ _ => inferInstanceAs (Decidable True)

/-- Tracing has just been started. -/
def Vm.started (maxGenericDepth : Int) : Vm κ :=
  { tracer := Tracer.start maxGenericDepth true {} }

/-- The call is not a direct call, on top of a flagged invocation, of a method with the
same method name and owner name. -/
def NoNamesake (h : Hierarchy κ) (s : Vm κ) : Event κ → Prop
  | .call fiber e => ∀ i ∈ (s.invocations fiber).head?, i.flagged = true →
      ¬ (e.methodId = i.call.methodId ∧ finalName h e.owner = finalName h i.call.owner)
  | _ => True

instance (s : Vm κ) (event : Event κ) : Decidable (NoNamesake h s event) :=
  match event with
  | .call fiber e => inferInstanceAs (Decidable (∀ i ∈ (s.invocations fiber).head?, i.flagged = true →
      ¬ (e.methodId = i.call.methodId ∧ finalName h e.owner = finalName h i.call.owner)))
  | .ret _ _ | .rescue _ | .blockRescue _ _ | .retry _ _ | .start _ _ | .stop | .blockCall _ _ | .blockReturn _ _ =>
    inferInstanceAs (Decidable True)

/-- Everything happens in the first window. -/
structure InWindow (s : Vm κ) : Prop where
  enabled : s.tracer.tpCall = some true
  window : s.window = 0
  active : ∀ fiber, ∀ i ∈ s.invocations fiber, i.window = some 0
  completed : ∀ c ∈ s.completed, c.recorded = true

omit [DecidableEq κ] [Fintype κ] in
theorem processBlockTracepoint_tpCall {addr : Nat} {s t : Tracer κ}
    {handler : BlockParameter ReturnTrace → StateT (Globals κ) Option (BlockParameter ReturnTrace)}
    (run : processBlockTracepoint addr handler s = some t) : t.tpCall = s.tpCall := by
  obtain ⟨_, _, ⟨_, rfl⟩ | ⟨_, _, _, _, _, rfl⟩⟩ := processBlockTracepoint_spec run <;> rfl

theorem processCallEvent_tpCall {fuel fiber : Nat} {e : CallEvent κ} {s t : Tracer κ}
    (named : Named h s.globals.constants) (run : processCallEvent h fuel fiber e s = some t) :
    t.tpCall = s.tpCall := by
  obtain ⟨g, _, ⟨_, rfl⟩ | ⟨_, trace, _, _, rfl⟩⟩ := processCallEvent_spec named run <;> rfl

theorem processReturnEvent_tpCall {fuel fiber : Nat} {methodId : String} {e : ReturnEvent κ} {s t : Tracer κ}
    (named : Named h s.globals.constants) (run : processReturnEvent h fuel fiber methodId e s = some t) :
    t.tpCall = s.tpCall := by
  rcases processReturnEvent_spec named run with ⟨rfl, _⟩ | ⟨_, _, _, _, _, _, _, _, _, rfl⟩ <;> rfl

omit [DecidableEq κ] [Fintype κ] in
theorem processRescuedEvent_tpCall {fiber : Nat} {methodId : Option String} {s : Tracer κ} :
    ((processRescuedEvent fiber methodId s).toOption.getD s).tpCall = s.tpCall := by
  rcases processRescuedEvent_getD_spec (s := s) with same | ⟨_, _, _, same⟩ <;> rw [same]

theorem InWindow.step {fiber : Nat} {s s' : Vm κ} {event : Event κ} (within : InWindow s) (inv : Invariant h s)
    (onFiber : event.OnFiber fiber) (step : Step h s event s') : InWindow s' := by
  have enabled := within.enabled
  cases step with
  | @call f e fuel t observes =>
    have window : s.currentWindow = some 0 := by rw [Vm.currentWindow, if_pos enabled, within.window]
    refine ⟨(observes.tpCall fun t => processCallEvent_tpCall inv.named).trans enabled, within.window, ?_,
      within.completed⟩
    refine (Function.forall_update_iff s.invocations fun _ stack => ∀ i ∈ stack, i.window = some 0).mpr
      ⟨fun i member => ?_, fun f _ => within.active f⟩
    rcases List.mem_cons.mp member with rfl | below
    · exact window
    · exact within.active f i below
  | @ret f e fuel t i rest top observes =>
    have active := within.active f
    rw [top] at active
    refine ⟨(observes.tpCall fun t => processReturnEvent_tpCall inv.named).trans enabled, within.window, ?_, ?_⟩
    · exact (Function.forall_update_iff s.invocations fun _ stack => ∀ i ∈ stack, i.window = some 0).mpr
        ⟨fun j member => active j (List.mem_cons_of_mem i member), fun f _ => within.active f⟩
    · intro c member
      rcases List.mem_append.mp member with old | new
      · exact within.completed c old
      · rw [List.mem_singleton.mp new]
        simp [Vm.complete, active i List.mem_cons_self, within.window]
  | @rescue f t i rest top observes =>
    have active := within.active f
    rw [top] at active
    refine ⟨(observes.getD.tpCall fun t handled => Option.some.inj handled ▸ processRescuedEvent_tpCall).trans enabled,
      within.window, ?_, within.completed⟩
    refine (Function.forall_update_iff s.invocations fun _ stack => ∀ i ∈ stack, i.window = some 0).mpr
      ⟨fun j member => ?_, fun f _ => within.active f⟩
    rcases List.mem_cons.mp member with rfl | below
    · exact active i List.mem_cons_self
    · exact active j (List.mem_cons_of_mem i below)
  | @blockRescue f methodId t observes =>
    refine ⟨(observes.tpCall fun t handled => Option.some.inj handled ▸ processRescuedEvent_tpCall).trans enabled,
      within.window, ?_, within.completed⟩
    refine (Function.forall_update_iff s.invocations fun _ stack => ∀ i ∈ stack, i.window = some 0).mpr
      ⟨?_, fun f _ => within.active f⟩
    have active := within.active f
    cases top : s.invocations f with
    | nil => exact fun _ member => (by cases member)
    | cons i rest =>
      rw [top] at active
      exact List.forall_mem_cons.mpr (List.forall_mem_cons.mp active)
  | retry top rescued same observes =>
    exact ⟨(observes.tpCall fun t => processCallEvent_tpCall inv.named).trans enabled, within.window,
      within.active, within.completed⟩
  | start | stop => exact onFiber.elim
  | blockCall member run | blockReturn member run =>
    exact ⟨(processBlockTracepoint_tpCall run).trans enabled, within.window, within.active, within.completed⟩

omit [DecidableEq κ] [Fintype κ] in
theorem Vm.started_eq (maxGenericDepth : Int) :
    (Vm.started maxGenericDepth : Vm κ) = { tracer := { maxGenericDepth, tpCall := some true } } := by
  simp [Vm.started, Tracer.start]

omit [Fintype κ] in
theorem Invariant.started (maxGenericDepth : Int) : Invariant h (Vm.started maxGenericDepth : Vm κ) := by
  rw [Vm.started_eq]
  exact ⟨fun _ _ atK => (by cases atK), fun _ => .nil, .nil⟩

omit [DecidableEq κ] [Fintype κ] in
theorem InWindow.started (maxGenericDepth : Int) : InWindow (Vm.started maxGenericDepth : Vm κ) := by
  rw [Vm.started_eq]
  exact ⟨rfl, rfl, fun _ _ member => (by cases member), fun _ member => (by cases member)⟩

/-- In one window, on one fiber, and as long as on top of no flagged invocation a
namesake of its own method is called, one trace is queued for each invocation that
completes, about its own first CALL and its own RETURN. -/
theorem one_trace_per_invocation {fiber : Nat} {maxGenericDepth : Int} {s : Vm κ}
    (run : Run (fun a b => ∃ event : Event κ, event.OnFiber fiber ∧ NoNamesake h a event ∧ Step h a event b)
      (.started maxGenericDepth) s) : List.Forall₂ (Reports h) s.tracer.queue s.completed := by
  have kept : Invariant h s ∧ InWindow s := by
    refine run.invariant (I := fun s => Invariant h s ∧ InWindow s) ?_
      ⟨.started maxGenericDepth, .started maxGenericDepth⟩
    rintro a b ⟨inv, within⟩ ⟨event, onFiber, noNamesake, step⟩
    refine ⟨step.invariant ?_ inv, within.step inv onFiber step⟩
    cases event with
    | call f e => exact fun i top _ => noNamesake i top
    | retry f e =>
      intro _ i top
      rw [within.window]
      exact within.active f i (List.mem_of_mem_head? top)
    | _ => trivial
  have all : s.completed.filter (·.recorded) = s.completed := List.filter_eq_self.mpr kept.2.completed
  rw [← all]
  exact kept.1.queue

/-- The tracer after an event, none while its handler has not returned. -/
def observe (handler : Tracer κ → Option (Tracer κ)) (s : Tracer κ) : Option (Tracer κ) :=
  if s.tpCall = some true then handler s else some s

omit [DecidableEq κ] [Fintype κ] in
theorem observe_observes {handler : Tracer κ → Option (Tracer κ)} {s t : Tracer κ} (run : observe handler s = some t) :
    Observes handler s t := by
  unfold observe at run
  unfold Observes
  split at run
  next on => rw [if_pos on]; exact run
  next off => rw [if_neg off]; exact (Option.some.inj run).symm

variable (h) in
/-- Run events of an execution, except those of blocks. -/
def exec (fuel : Nat) (s : Vm κ) : Event κ → Option (Vm κ)
  | .call fiber e => (observe (processCallEvent h fuel fiber e) s.tracer).map fun t =>
      { s.setStack fiber (s.invoked e :: s.invocations fiber) with tracer := t }
  | .ret fiber e =>
    match s.invocations fiber with
    | [] => none
    | i :: rest => (observe (processReturnEvent h fuel fiber i.call.methodId e) s.tracer).map fun t =>
        { s.setStack fiber rest with tracer := t, completed := s.completed ++ [s.complete i e] }
  | .rescue fiber =>
    match s.invocations fiber with
    | [] => none
    | i :: rest =>
      (observe (fun s => (processRescuedEvent fiber (some i.call.methodId) s).toOption) s.tracer).map fun t =>
        { s.setStack fiber ({ i with rescued := true } :: rest) with tracer := t }
  | .blockRescue fiber methodId =>
    (observe (fun s => some ((processRescuedEvent fiber methodId s).toOption.getD s)) s.tracer).map fun t =>
      { s.setStack fiber ((s.invocations fiber).modifyHead (·.afterBlockRescue methodId)) with tracer := t }
  | .start maxGenericDepth connects => some { s with tracer := s.tracer.start maxGenericDepth connects }
  | .stop => some { s with tracer := s.tracer.stop, window := s.window + 1 }
  | .retry fiber e =>
    match s.invocations fiber with
    | [] => none
    | i :: _ =>
      if i.rescued = true ∧ e.methodId = i.call.methodId ∧ e.definedClass = i.call.definedClass ∧
          e.attachedObject = i.call.attachedObject ∧ e.self = i.call.self then
        (observe (processCallEvent h fuel fiber e) s.tracer).map fun t => { s with tracer := t }
      else none
  | .blockCall _ _ | .blockReturn _ _ => none

theorem exec_step {fuel : Nat} {s s' : Vm κ} {event : Event κ} (run : exec h fuel s event = some s') :
    Step h s event s' := by
  cases event with
  | call fiber e =>
    obtain ⟨t, observed, rfl⟩ := Option.map_eq_some_iff.mp run
    exact .call (observe_observes observed)
  | ret fiber e =>
    simp only [exec] at run
    split at run
    next => cases run
    next i rest top =>
      obtain ⟨t, observed, rfl⟩ := Option.map_eq_some_iff.mp run
      exact .ret top (observe_observes observed)
  | rescue fiber =>
    simp only [exec] at run
    split at run
    next => cases run
    next i rest top =>
      obtain ⟨t, observed, rfl⟩ := Option.map_eq_some_iff.mp run
      exact .rescue top (observe_observes observed)
  | blockRescue fiber methodId =>
    obtain ⟨t, observed, rfl⟩ := Option.map_eq_some_iff.mp run
    exact .blockRescue (observe_observes observed)
  | start maxGenericDepth connects => cases run; exact .start maxGenericDepth connects
  | stop => cases run; exact .stop
  | retry fiber e =>
    simp only [exec] at run
    split at run
    next => cases run
    next i rest top =>
    split at run
    next same =>
      obtain ⟨t, observed, rfl⟩ := Option.map_eq_some_iff.mp run
      obtain ⟨rescued, methodId, definedClass, attachedObject, self⟩ := same
      exact .retry top rescued ⟨methodId, definedClass, attachedObject, self⟩ (observe_observes observed)
    next => cases run
  | blockCall | blockReturn => cases run

variable (h) in
/-- Run the events as long as they are allowed. -/
def execAll (allowed : Vm κ → Event κ → Prop) [∀ s event, Decidable (allowed s event)] (fuel : Nat) (s : Vm κ) :
    List (Event κ) → Option (Vm κ)
  | [] => some s
  | event :: events =>
    if allowed s event then
      match exec h fuel s event with
      | none => none
      | some s => execAll allowed fuel s events
    else none

theorem execAll_run {allowed : Vm κ → Event κ → Prop} [∀ s event, Decidable (allowed s event)] {fuel : Nat}
    {s s' : Vm κ} {events : List (Event κ)} (run : execAll h allowed fuel s events = some s') :
    Run (fun a b => ∃ event, allowed a event ∧ Step h a event b) s s' := by
  induction events generalizing s with
  | nil => cases run; exact .refl
  | cons event events ih =>
    unfold execAll at run
    split at run
    next allows =>
      split at run
      next => cases run
      next t first => exact .head ⟨event, allows, exec_step first⟩ (ih run)
    next => cases run

end

end

end

/-- A call of a method of the main program, without parameters. -/
def mainCall (methodId : String) : CallEvent (Sample × Bool) where
  methodId := methodId
  definedClass := (.Object, false)
  attachedObject := none
  self := .object 24
  methodDefined _ := false
  publicMethodDefined _ := false
  privateMethodDefined k := k = (.Object, false)
  arguments :=
    { parameters := [], localVariable := fun _ => .object 8, localBlock := fun _ => .nil, blockGiven := false }
  objects := { objClass := fun _ => (.Object, false), array := fun _ => [], hash := fun _ => [] }

def mainReturn (value : Value (Sample × Bool)) : ReturnEvent (Sample × Bool) where
  returnValue := value
  objects := { objClass := fun _ => (.Object, false), array := fun _ => [], hash := fun _ => [] }

/-- A method rescues, calls itself once, and both invocations return. -/
def recursionAfterRescue : List (Event (Sample × Bool)) :=
  [.call 0 (mainCall "foo"), .rescue 0, .call 0 (mainCall "foo"), .ret 0 (mainReturn (.object 8)),
    .ret 0 (mainReturn (.object 8))]

/-- The inner call is taken for a retry: one trace is queued for two invocations. -/
theorem recursion_after_rescue_lost : ∃ s : Vm (Sample × Bool),
    Run (fun a b => ∃ event : Event (Sample × Bool), event.OnFiber 0 ∧ Step sample a event b) (.started 1) s ∧
      ¬ List.Forall₂ (Reports sample) s.tracer.queue s.completed := by
  have counts : (execAll sample (fun _ event => event.OnFiber 0) 2 (.started 1) recursionAfterRescue).map
      (fun s => (s.tracer.queue.length, s.completed.length)) = some (1, 2) := by decide
  obtain ⟨s, run, lengths⟩ := Option.map_eq_some_iff.mp counts
  refine ⟨s, execAll_run run, fun matched => ?_⟩
  rw [Prod.mk.injEq] at lengths
  have same := matched.length_eq
  omega

/-- A method rescues and retries, then calls another one, on top of which a block of the
first rescues. -/
theorem one_trace_per_invocation_retry : ∃ s : Vm (Sample × Bool),
    s.tracer.queue.length = 2 ∧ List.Forall₂ (Reports sample) s.tracer.queue s.completed := by
  have counts : (execAll sample (fun s event => event.OnFiber 0 ∧ NoNamesake sample s event) 2 (.started 1)
      [.call 0 (mainCall "foo"), .rescue 0, .retry 0 (mainCall "foo"), .call 0 (mainCall "bar"),
        .blockRescue 0 (some "foo"), .ret 0 (mainReturn (.object 8)), .ret 0 (mainReturn (.object 8))]).map
      (fun s => s.tracer.queue.length) = some 2 := by decide +kernel
  obtain ⟨s, run, length⟩ := Option.map_eq_some_iff.mp counts
  exact ⟨s, length, one_trace_per_invocation (Relation.ReflTransGen.mono
    (fun a b ⟨event, ⟨onFiber, noNamesake⟩, step⟩ => ⟨event, onFiber, noNamesake, step⟩) _ _ (execAll_run run))⟩

end Racer.Windows
