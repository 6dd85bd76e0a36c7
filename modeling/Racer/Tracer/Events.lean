import Racer.Tracer.Parameters

namespace Racer
open Stateful

/-! The globals of the extension and the handlers of its tracepoints. -/

/-- `tpCall` is nil or the tracepoint with its enabled flag. A stack of
`call_stacks` has its back in front. `shipped` records the constants that have
left `constant_updates` with a trace. -/
structure Tracer (κ : Type) where
  globals : Globals κ := {}
  tpCall : Option Bool := none
  maxGenericDepth : Int := 1
  callStacks : List (Nat × List ReturnTrace) := []
  queue : List ReturnTrace := []
  shipped : List κ := []

def setStack (callStacks : List (Nat × List ReturnTrace)) (fiber : Nat) (stack : List ReturnTrace) :
    List (Nat × List ReturnTrace) :=
  match callStacks with
  | [] => [(fiber, stack)]
  | (f, old) :: rest => if f = fiber then (f, stack) :: rest else (f, old) :: setStack rest fiber stack

theorem lookup_setStack (callStacks : List (Nat × List ReturnTrace)) (fiber f : Nat) (stack : List ReturnTrace) :
    (setStack callStacks fiber stack).lookup f = if f = fiber then some stack else callStacks.lookup f := by
  induction callStacks with
  | nil =>
    by_cases same : f = fiber
    · simp [setStack, same]
    · have other : (f == fiber) = false := by simpa using same
      simp [setStack, same, List.lookup_cons, other]
  | cons entry rest ih =>
    obtain ⟨g, old⟩ := entry
    unfold setStack
    by_cases here : g = fiber
    · subst here
      by_cases same : f = g
      · simp [same]
      · have other : (f == g) = false := by simpa using same
        simp [same, List.lookup_cons, other]
    · rw [if_neg here]
      by_cases same : f = g
      · subst same
        simp [here]
      · have other : (f == g) = false := by simpa using same
        simp only [List.lookup_cons, other]
        exact ih

section
variable {κ : Type}

/-- The defined class of the method, with a singleton class replaced by the class
or module it belongs to. -/
def CallEvent.owner (e : CallEvent κ) : κ :=
  match e.attachedObject with
  | some (.constant k) => k
  | _ => e.definedClass

def CallEvent.methodKind (e : CallEvent κ) : MethodKind :=
  match e.self with
  | .constant _ => .SINGLETON
  | .object _ => .INSTANCE

/-- `self` where it is a class or module, else its class. -/
def CallEvent.selfClass (e : CallEvent κ) : κ :=
  match e.self with
  | .constant k => k
  | .object id => e.objects.objClass id

def CallEvent.methodVisibility (e : CallEvent κ) : MethodVisibility :=
  if e.publicMethodDefined e.definedClass then .PUBLIC
  else if e.privateMethodDefined e.definedClass then .PRIVATE
  else .PROTECTED

/-- `self` implements the method itself. -/
def CallEvent.implementedBySelf (h : Hierarchy κ) (e : CallEvent κ) : Bool :=
  let owner := if e.methodKind = .SINGLETON then h.singletonClass e.selfClass else e.selfClass
  e.methodDefined owner || e.privateMethodDefined owner

def Tracer.stack (s : Tracer κ) (fiber : Nat) : Option (List ReturnTrace) :=
  s.callStacks.lookup fiber

/-- The test of `process_call_event` on the frame below. -/
def detectsRetry (stack : Option (List ReturnTrace)) (methodId : String) (owner : ConstantInstance) : Bool :=
  match stack with
  | some (previous :: _) =>
    previous.rescued && previous.methodName == some methodId && previous.methodOwner.name == owner.name
  | _ => false

/-- `rb_tracepoint_disable` of a `tracepoint_id`. -/
def disable (tracepoints : List Tracepoint) (id : Nat) : List Tracepoint :=
  tracepoints.filter (·.id ≠ id)

/-- Disable the tracepoint of the block of a trace, if one follows it. -/
def disableBlock (tracepoints : List Tracepoint) (trace : ReturnTrace) : List Tracepoint :=
  match trace.blockParam with
  | some block => if block.tracepointId ≠ 0 then disable tracepoints block.tracepointId else tracepoints
  | none => tracepoints

/-- `process_rescued_event`. The method id is nil for a rescue outside of all
methods; `SYM2ID` of it raises. -/
def processRescuedEvent (fiber : Nat) (methodId : Option String) (s : Tracer κ) : Except RubyError (Tracer κ) :=
  match s.stack fiber with
  | none => .ok s
  | some [] =>
    match methodId with
    | none => .error .TypeError
    | some _ => .ok s
  | some (trace :: stack) =>
    match trace.methodName, methodId with
    | none, _ => .ok s
    | some _, none => .error .TypeError
    | some expected, some actual =>
      -- a rescue inside a block is not one of the method
      if expected ≠ actual then .ok s
      else .ok { s with callStacks := setStack s.callStacks fiber ({ trace with rescued := true } :: stack) }

/-- `start`. A session is opened when there is none and the socket connects. -/
def Tracer.start (maxGenericDepth : Int) (connects : Bool) (s : Tracer κ) : Tracer κ :=
  let s := { s with maxGenericDepth }
  if s.tpCall.isSome ∨ connects then { s with tpCall := some true } else s

/-- `stop`. -/
def Tracer.stop (s : Tracer κ) : Tracer κ :=
  { s with
    tpCall := s.tpCall.map fun _ => false
    globals := { s.globals with
      tracepoints := (s.callStacks.flatMap (·.2)).foldl disableBlock s.globals.tracepoints }
    callStacks := [] }

section
variable [DecidableEq κ] [Fintype κ] (h : Hierarchy κ)

/-- The callee and the owner of a new trace. -/
def callHeader (e : CallEvent κ) : StateT (Constants κ) Option (Option ConstantInstance × ConstantInstance) :=
  if e.selfClass = e.owner then do
    let owner ← classToConstantInstance h e.owner []
    pure (none, owner)
  else do
    let self ← classToConstantInstance h e.selfClass []
    -- Only change the method owner, if self does not implement the method themselves.
    let callee := if e.implementedBySelf h then none else some self
    let owner ← classToConstantInstance h e.owner []
    pure (callee, owner)

def processCallEvent (fuel : Nat) (fiber : Nat) (e : CallEvent κ) (s : Tracer κ) : Option (Tracer κ) :=
  let addr := s.globals.next
  match onConstants (callHeader h e) { s.globals with next := addr + 1 } with
  | none => none
  | some ((methodCallee, methodOwner), g) =>
    if detectsRetry (s.stack fiber) e.methodId methodOwner then some { s with globals := g }
    else
      match assignParameters h fuel s.maxGenericDepth addr e.arguments e.objects g with
      | none => none
      | some ((params, blockParam), g) =>
        let trace : ReturnTrace :=
          { addr, methodOwner, methodCallee, methodName := some e.methodId, methodKind := e.methodKind
            methodVisibility := e.methodVisibility, params, blockParam }
        some { s with
          globals := g
          callStacks := setStack s.callStacks fiber (trace :: (s.stack fiber).getD []) }

def processReturnEvent (fuel : Nat) (fiber : Nat) (methodId : String) (e : ReturnEvent κ) (s : Tracer κ) :
    Option (Tracer κ) :=
  match s.stack fiber with
  | none => some s
  | some [] => some s
  | some (trace :: stack) =>
    if trace.methodName ≠ some methodId then some s
    else
      match valueType h fuel s.maxGenericDepth e.objects e.returnValue s.globals with
      | none => none
      | some (returnType, g) =>
        let updates := g.constants.constantUpdates
        some { s with
          globals := { g with
            tracepoints := disableBlock g.tracepoints trace
            constants := { g.constants with constantUpdates := [] } }
          callStacks := setStack s.callStacks fiber stack
          queue := s.queue ++ [{ trace with
            returnType
            constantUpdates := trace.constantUpdates ++ updates.filterMap g.constants.constantMap }]
          shipped := s.shipped ++ updates }

/-- `process_block_call_event` on the block of a trace. -/
def processBlockCallEvent (fuel : Nat) (maxGenericDepth : Int) (e : BlockCallEvent κ)
    (block : BlockParameter ReturnTrace) : StateT (Globals κ) Option (BlockParameter ReturnTrace) :=
  match block.blockTraces, block.currentBlockCallStack with
  | _ :: _, _ => pure block
  | [], _ :: _ => pure { block with currentBlockCallStack := none :: block.currentBlockCallStack }
  | [], [] => do
    let g ← get
    set { g with next := g.next + 1 }
    let (params, blockParam) ← assignParameters h fuel maxGenericDepth g.next e.arguments e.objects
    let self ← valueType h fuel maxGenericDepth e.objects e.self
    pure { block with
      currentBlockCallStack := [some { addr := g.next, params, blockParam, blockSelfType := some self }] }

/-- `process_block_return_event` on the block of a trace. -/
def processBlockReturnEvent (fuel : Nat) (maxGenericDepth : Int) (e : ReturnEvent κ)
    (block : BlockParameter ReturnTrace) : StateT (Globals κ) Option (BlockParameter ReturnTrace) :=
  match block.blockTraces, block.currentBlockCallStack with
  | _ :: _, _ => pure block
  | [], [] => pure block
  | [], none :: calls => pure { block with currentBlockCallStack := calls }
  | [], some call :: calls => do
    let returnType ← valueType h fuel maxGenericDepth e.objects e.returnValue
    pure { block with currentBlockCallStack := calls, blockTraces := [{ call with returnType }] }

end

mutual

/-- A trace and the traces below it, finished and unfinished. -/
def ReturnTrace.nodes (t : ReturnTrace) : List ReturnTrace :=
  match t with
  | { blockParam, .. } => t :: blockNodes blockParam

def blockNodes : Option (BlockParameter ReturnTrace) → List ReturnTrace
  | none => []
  | some { blockTraces, currentBlockCallStack, .. } => tracesNodes blockTraces ++ callsNodes currentBlockCallStack

def tracesNodes : List ReturnTrace → List ReturnTrace
  | [] => []
  | t :: traces => t.nodes ++ tracesNodes traces

def callsNodes : List (Option ReturnTrace) → List ReturnTrace
  | [] => []
  | none :: calls => callsNodes calls
  | some t :: calls => t.nodes ++ callsNodes calls

end

mutual

/-- Write the block of the trace at `addr`. -/
def ReturnTrace.setBlock (addr : Nat) (block : BlockParameter ReturnTrace) (t : ReturnTrace) : ReturnTrace :=
  match t with
  | { addr := a, methodOwner, methodCallee, methodName, methodKind, methodVisibility, returnType, params, rescued,
      constantUpdates, blockParam, blockSelfType } =>
    { addr := a, methodOwner, methodCallee, methodName, methodKind, methodVisibility, returnType, params, rescued,
      constantUpdates, blockSelfType
      blockParam := if a = addr then some block else setBlockIn addr block blockParam }

def setBlockIn (addr : Nat) (block : BlockParameter ReturnTrace) :
    Option (BlockParameter ReturnTrace) → Option (BlockParameter ReturnTrace)
  | none => none
  | some { name, tracepointId, blockTraces, currentBlockCallStack } =>
    some { name, tracepointId, blockTraces := setBlockInTraces addr block blockTraces
           currentBlockCallStack := setBlockInCalls addr block currentBlockCallStack }

def setBlockInTraces (addr : Nat) (block : BlockParameter ReturnTrace) : List ReturnTrace → List ReturnTrace
  | [] => []
  | t :: traces => t.setBlock addr block :: setBlockInTraces addr block traces

def setBlockInCalls (addr : Nat) (block : BlockParameter ReturnTrace) :
    List (Option ReturnTrace) → List (Option ReturnTrace)
  | [] => []
  | none :: calls => none :: setBlockInCalls addr block calls
  | some t :: calls => some (t.setBlock addr block) :: setBlockInCalls addr block calls

end

/-- The traces the tracer still owns: those on call stacks, and below them. -/
def Tracer.owned (s : Tracer κ) : List ReturnTrace :=
  (s.callStacks.flatMap (·.2)).flatMap ReturnTrace.nodes

/-- A block event for the trace at `addr`. A trace that has been pushed is still
read and written here; one that has been freed is not there any more. -/
def processBlockTracepoint (addr : Nat)
    (handler : BlockParameter ReturnTrace → StateT (Globals κ) Option (BlockParameter ReturnTrace))
    (s : Tracer κ) : Option (Tracer κ) :=
  match (s.owned ++ s.queue.flatMap ReturnTrace.nodes).find? (·.addr = addr) with
  | none => none
  | some trace =>
    match trace.blockParam with
    | none => some s
    | some block =>
      match handler block s.globals with
      | none => none
      | some (block, g) =>
        some { s with
          globals := g
          callStacks := s.callStacks.map fun (fiber, stack) => (fiber, stack.map (·.setBlock addr block))
          queue := s.queue.map (·.setBlock addr block) }

/-- A block event finds a trace, and writes its block everywhere if it has one. -/
theorem processBlockTracepoint_spec {addr : Nat} {s s' : Tracer κ}
    {handler : BlockParameter ReturnTrace → StateT (Globals κ) Option (BlockParameter ReturnTrace)}
    (run : processBlockTracepoint addr handler s = some s') :
    ∃ trace, (s.owned ++ s.queue.flatMap ReturnTrace.nodes).find? (·.addr = addr) = some trace ∧
      ((trace.blockParam = none ∧ s' = s) ∨ ∃ block block' g, trace.blockParam = some block ∧
        handler block s.globals = some (block', g) ∧
        s' = { s with
          globals := g
          callStacks := s.callStacks.map fun (fiber, stack) => (fiber, stack.map (·.setBlock addr block'))
          queue := s.queue.map (·.setBlock addr block') }) := by
  unfold processBlockTracepoint at run
  split at run
  next => cases run
  next trace found =>
    refine ⟨trace, found, ?_⟩
    split at run
    next unfollowed => exact .inl ⟨unfollowed, (Option.some.inj run).symm⟩
    next block atBlock =>
      split at run
      next => cases run
      next block' g handled => exact .inr ⟨block, block', g, atBlock, handled, (Option.some.inj run).symm⟩

section
variable [DecidableEq κ] [Fintype κ] {h : Hierarchy κ}

/-- The callee of a new trace, by the final names of the hierarchy. -/
def CallEvent.expectedCallee (h : Hierarchy κ) (e : CallEvent κ) : Option ConstantInstance :=
  if e.selfClass = e.owner then none
  else if e.implementedBySelf h then none else some { name := finalName h e.selfClass }

def CallEvent.expectedOwner (h : Hierarchy κ) (e : CallEvent κ) : ConstantInstance :=
  { name := finalName h e.owner }

/-- The trace carries the method and the parameters of the CALL event. -/
structure CallTrace (h : Hierarchy κ) (e : CallEvent κ) (maxGenericDepth : Int) (t : ReturnTrace) : Prop where
  methodOwner : t.methodOwner = e.expectedOwner h
  methodCallee : t.methodCallee = e.expectedCallee h
  methodName : t.methodName = some e.methodId
  methodKind : t.methodKind = e.methodKind
  methodVisibility : t.methodVisibility = e.methodVisibility
  params : ∃ fuel, expectedParameters h fuel maxGenericDepth e.arguments e.objects e.arguments.parameters =
    some t.params

/-- The observed types of a trace except those of its block. -/
def ReturnTrace.types (t : ReturnTrace) : List ConstantInstance :=
  t.methodOwner :: t.methodCallee.toList ++ t.params.map (·.typeName)

/-- A frame as `process_call_event` leaves it, at an address that was not in use. -/
structure NewFrame (h : Hierarchy κ) (g g' : Globals κ) (t : ReturnTrace) : Prop where
  addr : t.addr = g.next
  below : t.addr < g'.next
  rescued : t.rescued = false
  returnType : t.returnType = {}
  constantUpdates : t.constantUpdates = []
  blockSelfType : t.blockSelfType = none
  known : ∀ i ∈ t.types, ∀ n ∈ i.names, Known h g'.constants n
  fresh : ∀ b ∈ t.blockParam, b.Fresh

theorem callHeader_ensures (e : CallEvent κ) {s : Constants κ} (named : Named h s) :
    Ensures (Grows h) s (callHeader h e) fun r t => r = (e.expectedCallee h, e.expectedOwner h) ∧
      ∀ i ∈ r.2 :: r.1.toList, ∀ n ∈ i.names, Known h t n := by
  have plain {t : Constants κ} {name : String} (known : Known h t name) :
      ∀ n ∈ ({ name } : ConstantInstance).names, Known h t n := by
    intro n member
    rw [ConstantInstance.names, unionsNames, List.mem_singleton] at member
    exact member ▸ known
  unfold callHeader CallEvent.expectedCallee CallEvent.expectedOwner
  split_ifs
  · refine (classToConstantInstance_ensures named e.owner []).bind fun owner t _ found => .pure ?_
    obtain ⟨rfl, known⟩ := found
    exact ⟨rfl, by simpa using plain known⟩
  all_goals
    refine (classToConstantInstance_ensures named e.selfClass []).bind fun self t grows found => ?_
    refine (classToConstantInstance_ensures (grows.named named) e.owner []).bind fun owner u more found' => .pure ?_
    obtain ⟨rfl, known⟩ := found
    obtain ⟨rfl, known'⟩ := found'
    refine ⟨rfl, fun i member => ?_⟩
    simp only [Option.toList_none, Option.toList_some, List.mem_cons, List.not_mem_nil, or_false] at member
  · subst member
    exact plain known'
  · rcases member with rfl | rfl
    · exact plain known'
    · exact plain (more.known known)

/-- A CALL event either is taken for a retry, or puts a new frame on its stack. -/
theorem processCallEvent_spec {fuel fiber : Nat} {e : CallEvent κ} {s s' : Tracer κ}
    (named : Named h s.globals.constants) (run : processCallEvent h fuel fiber e s = some s') :
    ∃ g, Globals.Grows h s.globals g ∧
      ((detectsRetry (s.stack fiber) e.methodId (e.expectedOwner h) = true ∧ s' = { s with globals := g }) ∨
        (detectsRetry (s.stack fiber) e.methodId (e.expectedOwner h) = false ∧
          ∃ t, CallTrace h e s.maxGenericDepth t ∧ NewFrame h s.globals g t ∧
            s' = { s with
              globals := g
              callStacks := setStack s.callStacks fiber (t :: (s.stack fiber).getD []) })) := by
  unfold processCallEvent at run
  simp only at run
  split at run
  next => cases run
  next callee owner g header =>
    obtain ⟨grows, same, known⟩ := onConstants_ensures
      (g := { s.globals with next := s.globals.next + 1 }) (callHeader_ensures e named) _ _ header
    simp only [Prod.mk.injEq] at same
    obtain ⟨rfl, rfl⟩ := same
    have later : s.globals.next < g.next := grows.next
    have grows : Globals.Grows h s.globals g := ⟨grows.constants, later.le⟩
    split at run
    next retry =>
      cases run
      exact ⟨g, grows, .inl ⟨retry, rfl⟩⟩
    next call =>
    split at run
    next => cases run
    next params blockParam g' assigned =>
      cases run
      have started : Named h g.constants := Globals.Grows.named grows named
      obtain ⟨more, assigned⟩ := assignParameters_ensures fuel s.maxGenericDepth s.globals.next e.arguments
        e.objects started _ _ assigned
      refine ⟨g', IsTrans.trans (r := Globals.Grows h) _ _ _ grows more, .inr ⟨by simpa using call, _,
        ⟨rfl, rfl, rfl, rfl, rfl, fuel, assigned.expected⟩, ⟨rfl, later.trans_le more.next, rfl, rfl, rfl, rfl,
          fun i member n mentioned => ?_, assigned.fresh⟩, rfl⟩⟩
      rcases List.mem_append.mp member with header | param
      · exact Racer.Grows.known more.constants (known i header n mentioned)
      · obtain ⟨p, inside, rfl⟩ := List.mem_map.mp param
        exact assigned.known p inside n mentioned

/-- A RETURN event either changes nothing, or pops the frame of its method and
queues it. -/
theorem processReturnEvent_spec {fuel fiber : Nat} {methodId : String} {e : ReturnEvent κ} {s s' : Tracer κ}
    (named : Named h s.globals.constants) (run : processReturnEvent h fuel fiber methodId e s = some s') :
    (s' = s ∧ ∀ t ∈ ((s.stack fiber).getD []).head?, t.methodName ≠ some methodId) ∨
      ∃ t stack returnType g, s.stack fiber = some (t :: stack) ∧ t.methodName = some methodId ∧
        Globals.Grows h s.globals g ∧
        typeOfValue h e.objects s.maxGenericDepth fuel e.returnValue 0 = some returnType ∧
        (∀ n ∈ returnType.names, Known h g.constants n) ∧
        s' = { s with
          globals := { g with
            tracepoints := disableBlock g.tracepoints t
            constants := { g.constants with constantUpdates := [] } }
          callStacks := setStack s.callStacks fiber stack
          queue := s.queue ++ [{ t with
            returnType
            constantUpdates := t.constantUpdates ++
              g.constants.constantUpdates.filterMap g.constants.constantMap }]
          shipped := s.shipped ++ g.constants.constantUpdates } := by
  unfold processReturnEvent at run
  split at run
  next missing => cases run; exact .inl ⟨rfl, by simp [missing]⟩
  next empty => cases run; exact .inl ⟨rfl, by simp [empty]⟩
  next t stack atTop =>
    split at run
    next mismatch => cases run; exact .inl ⟨rfl, by simpa [atTop] using mismatch⟩
    next matching =>
    split at run
    next => cases run
    next returnType g value =>
      cases run
      obtain ⟨grows, computed, known⟩ := valueType_ensures fuel s.maxGenericDepth e.objects e.returnValue named
        _ _ value
      exact .inr ⟨t, stack, returnType, g, atTop, not_not.mp matching, grows, computed, known, rfl⟩

/-- A block call as `process_block_call_event` leaves it, at an address that was not in use. -/
structure NewCall (h : Hierarchy κ) (g g' : Globals κ) (t : ReturnTrace) : Prop where
  plain : t = { addr := t.addr, params := t.params, blockParam := t.blockParam, blockSelfType := t.blockSelfType }
  addr : t.addr = g.next
  below : t.addr < g'.next
  params : ∀ p ∈ t.params, ∀ n ∈ p.typeName.names, Known h g'.constants n
  fresh : ∀ b ∈ t.blockParam, b.Fresh
  selfType : ∃ self, t.blockSelfType = some self ∧ ∀ n ∈ self.names, Known h g'.constants n

/-- What a block event makes of a block. -/
inductive BlockStep (h : Hierarchy κ) (g g' : Globals κ) (block : BlockParameter ReturnTrace) :
    BlockParameter ReturnTrace → Prop
  | kept : BlockStep h g g' block block
  | called {t} : block.blockTraces = [] → block.currentBlockCallStack = [] → NewCall h g g' t →
      BlockStep h g g' block { block with currentBlockCallStack := [some t] }
  | calledInside {call calls} : block.blockTraces = [] → block.currentBlockCallStack = call :: calls →
      BlockStep h g g' block { block with currentBlockCallStack := none :: call :: calls }
  | returnedInside {calls} : block.blockTraces = [] → block.currentBlockCallStack = none :: calls →
      BlockStep h g g' block { block with currentBlockCallStack := calls }
  | returned {call calls} (returnType : ConstantInstance) : block.blockTraces = [] →
      block.currentBlockCallStack = some call :: calls → (∀ n ∈ returnType.names, Known h g'.constants n) →
      BlockStep h g g' block
        { block with currentBlockCallStack := calls, blockTraces := [{ call with returnType }] }

/-- A block call is recorded when the block has no calls yet. -/
theorem processBlockCallEvent_spec {fuel : Nat} {maxGenericDepth : Int} {e : BlockCallEvent κ}
    {block block' : BlockParameter ReturnTrace} {g g' : Globals κ}
    (run : processBlockCallEvent h fuel maxGenericDepth e block g = some (block', g')) :
    (block.blockTraces ≠ [] ∧ block' = block ∧ g' = g) ∨
    (block.blockTraces = [] ∧ (∃ call calls, block.currentBlockCallStack = call :: calls) ∧
      block' = { block with currentBlockCallStack := none :: block.currentBlockCallStack } ∧ g' = g) ∨
    (block.blockTraces = [] ∧ block.currentBlockCallStack = [] ∧ ∃ params blockParam self g₁,
      assignParameters h fuel maxGenericDepth g.next e.arguments e.objects { g with next := g.next + 1 } =
        some ((params, blockParam), g₁) ∧
      valueType h fuel maxGenericDepth e.objects e.self g₁ = some (self, g') ∧
      block' = { block with
        currentBlockCallStack := [some { addr := g.next, params, blockParam, blockSelfType := some self }] }) := by
  obtain ⟨name, tracepointId, blockTraces, currentBlockCallStack⟩ := block
  rcases blockTraces with _ | ⟨recorded, blockTraces⟩
  · rcases currentBlockCallStack with _ | ⟨call, calls⟩
    · obtain ⟨g₁, g₂, first, run⟩ := bind_eq_some.mp run
      cases first
      obtain ⟨_, g₃, second, run⟩ := bind_eq_some.mp run
      cases second
      obtain ⟨⟨params, blockParam⟩, g₄, assigned, run⟩ := bind_eq_some.mp run
      obtain ⟨self, g₅, value, run⟩ := bind_eq_some.mp run
      cases run
      exact .inr (.inr ⟨rfl, rfl, params, blockParam, self, g₄, assigned, value, rfl⟩)
    · cases run
      exact .inr (.inl ⟨rfl, ⟨call, calls, rfl⟩, rfl, rfl⟩)
  · cases run
    exact .inl ⟨by simp, rfl, rfl⟩

/-- A block return takes a call off the stack, and records the trace if it was a recorded one. -/
theorem processBlockReturnEvent_spec {fuel : Nat} {maxGenericDepth : Int} {e : ReturnEvent κ}
    {block block' : BlockParameter ReturnTrace} {g g' : Globals κ}
    (run : processBlockReturnEvent h fuel maxGenericDepth e block g = some (block', g')) :
    ((block.blockTraces ≠ [] ∨ block.currentBlockCallStack = []) ∧ block' = block ∧ g' = g) ∨
    (block.blockTraces = [] ∧ ∃ calls, block.currentBlockCallStack = none :: calls ∧
      block' = { block with currentBlockCallStack := calls } ∧ g' = g) ∨
    (block.blockTraces = [] ∧ ∃ call calls returnType, block.currentBlockCallStack = some call :: calls ∧
      valueType h fuel maxGenericDepth e.objects e.returnValue g = some (returnType, g') ∧
      block' = { block with currentBlockCallStack := calls, blockTraces := [{ call with returnType }] }) := by
  obtain ⟨name, tracepointId, blockTraces, currentBlockCallStack⟩ := block
  rcases blockTraces with _ | ⟨recorded, blockTraces⟩
  · rcases currentBlockCallStack with _ | ⟨_ | call, calls⟩
    · cases run
      exact .inl ⟨.inr rfl, rfl, rfl⟩
    · cases run
      exact .inr (.inl ⟨rfl, calls, rfl, rfl, rfl⟩)
    · obtain ⟨returnType, g₁, value, run⟩ := bind_eq_some.mp run
      cases run
      exact .inr (.inr ⟨rfl, call, calls, returnType, rfl, value, rfl⟩)
  · cases run
    exact .inl ⟨.inl (List.cons_ne_nil recorded blockTraces), rfl, rfl⟩

theorem processBlockCallEvent_ensures (fuel : Nat) (maxGenericDepth : Int) (e : BlockCallEvent κ)
    (block : BlockParameter ReturnTrace) {g : Globals κ} (named : Named h g.constants) :
    Ensures (Globals.Grows h) g (processBlockCallEvent h fuel maxGenericDepth e block) fun block' g' =>
      BlockStep h g g' block block' := by
  intro block' g' run
  rcases processBlockCallEvent_spec run with ⟨_, rfl, rfl⟩ | ⟨traces, ⟨call, calls, stack⟩, rfl, rfl⟩ |
    ⟨traces, stack, params, blockParam, self, g₁, assigned, value, rfl⟩
  · exact ⟨Std.Refl.refl (r := Globals.Grows h) g', .kept⟩
  · exact ⟨Std.Refl.refl (r := Globals.Grows h) g', stack ▸ .calledInside traces stack⟩
  · obtain ⟨grows, as⟩ := assignParameters_ensures fuel maxGenericDepth g.next e.arguments e.objects
      (g := { g with next := g.next + 1 }) named _ _ assigned
    obtain ⟨more, _, known⟩ := valueType_ensures fuel maxGenericDepth e.objects e.self (grows.named named) _ _ value
    have all : Globals.Grows h { g with next := g.next + 1 } g' :=
      IsTrans.trans (r := Globals.Grows h) _ _ _ grows more
    refine ⟨⟨all.constants, (Nat.le_succ g.next).trans all.next⟩, .called traces stack ?_⟩
    exact ⟨rfl, rfl, all.next, fun p member n mentioned =>
      Racer.Grows.known more.constants (as.known p member n mentioned), as.fresh, self, rfl, known⟩

theorem processBlockReturnEvent_ensures (fuel : Nat) (maxGenericDepth : Int) (e : ReturnEvent κ)
    (block : BlockParameter ReturnTrace) {g : Globals κ} (named : Named h g.constants) :
    Ensures (Globals.Grows h) g (processBlockReturnEvent h fuel maxGenericDepth e block) fun block' g' =>
      BlockStep h g g' block block' := by
  unfold processBlockReturnEvent
  split
  next => exact .pure .kept
  next => exact .pure .kept
  next calls traces rest => exact .pure (.returnedInside traces rest)
  next call calls traces rest =>
    exact (valueType_ensures fuel maxGenericDepth e.objects e.returnValue named).bind
      fun returnType g' _ computed => .pure (.returned returnType traces rest computed.2)

end

/-- Writing a block leaves the rest of a trace as it is. -/
theorem ReturnTrace.setBlock_frame (t : ReturnTrace) (addr : Nat) (block : BlockParameter ReturnTrace) :
    ∃ blockParam, t.setBlock addr block = { t with blockParam } := by
  cases t
  exact ⟨_, rfl⟩

theorem CallTrace.setBlock [DecidableEq κ] {h : Hierarchy κ} {e : CallEvent κ} {maxGenericDepth : Int} {t : ReturnTrace}
    (called : CallTrace h e maxGenericDepth t) (addr : Nat) (block : BlockParameter ReturnTrace) :
    CallTrace h e maxGenericDepth (t.setBlock addr block) := by
  obtain ⟨blockParam, same⟩ := t.setBlock_frame addr block
  rw [same]
  exact ⟨called.methodOwner, called.methodCallee, called.methodName, called.methodKind, called.methodVisibility,
    called.params⟩

/-- A rescue in the method of the top frame marks that frame. -/
theorem processRescuedEvent_top {s : Tracer κ} {fiber : Nat} {methodId : String} {t : ReturnTrace}
    {stack : List ReturnTrace} (top : s.stack fiber = some (t :: stack)) (name : t.methodName = some methodId) :
    processRescuedEvent fiber (some methodId) s =
      .ok { s with callStacks := setStack s.callStacks fiber ({ t with rescued := true } :: stack) } := by
  simp only [processRescuedEvent, top, name, ne_eq, not_true_eq_false, if_false]

/-- A rescue in a block of another method leaves the tracer as it is. -/
theorem processRescuedEvent_other {s : Tracer κ} {fiber : Nat} {name : String} {methodId : Option String}
    {t : ReturnTrace} {stack : List ReturnTrace} (top : s.stack fiber = some (t :: stack))
    (named : t.methodName = some name) (other : methodId ≠ some name) :
    (processRescuedEvent fiber methodId s).toOption.getD s = s := by
  cases methodId with
  | none => simp only [processRescuedEvent, top, named]; rfl
  | some actual =>
    have differ : name ≠ actual := fun same => other (congrArg some same.symm)
    simp only [processRescuedEvent, top, named, if_pos differ]
    rfl

/-- A rescue leaves the tracer as it is, or marks the top frame, which is of its method. -/
theorem processRescuedEvent_spec {s s' : Tracer κ} {fiber : Nat} {methodId : Option String}
    (run : processRescuedEvent fiber methodId s = .ok s') :
    s' = s ∨ ∃ t stack, s.stack fiber = some (t :: stack) ∧ methodId.isSome ∧ t.methodName = methodId ∧
      s' = { s with callStacks := setStack s.callStacks fiber ({ t with rescued := true } :: stack) } := by
  unfold processRescuedEvent at run
  split at run
  next => cases run; exact .inl rfl
  next => split at run <;> cases run; exact .inl rfl
  next t stack top =>
    split at run
    next => cases run; exact .inl rfl
    next => cases run
    next expected actual name =>
      split_ifs at run with other <;> cases run
      · exact .inl rfl
      · have same : expected = actual := by simpa using other
        exact .inr ⟨t, stack, top, rfl, by rw [name, same], rfl⟩

/-- The same where a rescue event that raises is left out. -/
theorem processRescuedEvent_getD_spec {s : Tracer κ} {fiber : Nat} {methodId : Option String} :
    (processRescuedEvent fiber methodId s).toOption.getD s = s ∨ ∃ t stack, s.stack fiber = some (t :: stack) ∧
      (processRescuedEvent fiber methodId s).toOption.getD s =
        { s with callStacks := setStack s.callStacks fiber ({ t with rescued := true } :: stack) } := by
  cases run : processRescuedEvent fiber methodId s with
  | error e => exact .inl rfl
  | ok s' =>
    rcases processRescuedEvent_spec run with rfl | ⟨t, stack, top, _, _, marked⟩
    · exact .inl rfl
    · exact .inr ⟨t, stack, top, marked⟩

theorem lookup_map_stack (callStacks : List (Nat × List ReturnTrace)) (f : ReturnTrace → ReturnTrace)
    (fiber : Nat) : (callStacks.map fun (g, stack) => (g, stack.map f)).lookup fiber =
      (callStacks.lookup fiber).map (List.map f) := by
  induction callStacks with
  | nil => rfl
  | cons entry rest ih =>
    obtain ⟨g, stack⟩ := entry
    by_cases same : fiber = g
    · subst same
      simp
    · have other : (fiber == g) = false := by simpa using same
      simp only [List.map_cons, List.lookup_cons, other]
      exact ih

end

end Racer
