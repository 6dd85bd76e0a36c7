import Racer.Tracer.Blocks

namespace Racer.Pairing
open Blocks Stateful Transition

/-! Which invocation of a block its recorded trace is about. -/

/-- An invocation of a block, numbered in the order of the calls. -/
structure Invocation (κ : Type) where
  number : Nat
  fiber : Nat
  call : BlockCallEvent κ
  maxGenericDepth : Int

structure Completed (κ : Type) where
  invocation : Invocation κ
  ret : ReturnEvent κ
  maxGenericDepth : Int

/-- The invocations of the block that one tracepoint follows: how many have been started,
those that are running, the latest first, and those that have returned. -/
structure Runs (κ : Type) where
  started : Nat := 0
  running : List (Invocation κ) := []
  completed : List (Completed κ) := []

/-- The tracer and the runs of every followed block, by the address that the
tracepoint carries. -/
structure Vm (κ : Type) where
  tracer : Tracer κ := {}
  runs : Nat → Runs κ := fun _ => {}

inductive Event (κ : Type)
  | tracer (event : Announced.Event κ)
  | blockCall (fiber trace : Nat) (e : BlockCallEvent κ)
  | blockReturn (fiber trace : Nat) (e : ReturnEvent κ)

section
variable {κ : Type}

/-- The invocation that returns next on a fiber. -/
def Runs.innermost (r : Runs κ) (fiber : Nat) : Option (Invocation κ) :=
  r.running.find? (·.fiber = fiber)

def Runs.call (r : Runs κ) (fiber : Nat) (e : BlockCallEvent κ) (maxGenericDepth : Int) : Runs κ :=
  { r with
    started := r.started + 1
    running := { number := r.started, fiber, call := e, maxGenericDepth } :: r.running }

def Runs.ret (r : Runs κ) (i : Invocation κ) (e : ReturnEvent κ) (maxGenericDepth : Int) : Runs κ :=
  { r with
    running := r.running.eraseP (·.fiber = i.fiber)
    completed := r.completed ++ [{ invocation := i, ret := e, maxGenericDepth }] }

/-- The first invocation of a block does not return while a later one is running. -/
def Admits (s : Vm κ) : Event κ → Prop
  | .blockReturn fiber addr _ =>
    ∀ i ∈ (s.runs addr).innermost fiber, i.number = 0 → (s.runs addr).running.length = 1
  | .tracer _ | .blockCall _ _ _ => True

variable [DecidableEq κ]

/-- What was recorded at a call. -/
structure CalledBy (h : Hierarchy κ) (i : Invocation κ) (t : ReturnTrace) : Prop where
  params : ∃ fuel, expectedParameters h fuel i.maxGenericDepth i.call.arguments i.call.objects
    i.call.arguments.parameters = some t.params
  selfType : ∃ fuel, typeOfValue h i.call.objects i.maxGenericDepth fuel i.call.self 0 = t.blockSelfType
  known : t.blockSelfType ≠ none

/-- The parameters, the self type and the return type come from one invocation. -/
structure Paired (h : Hierarchy κ) (c : Completed κ) (t : ReturnTrace) : Prop where
  called : CalledBy h c.invocation t
  returned : ∃ fuel, typeOfValue h c.ret.objects c.maxGenericDepth fuel c.ret.returnValue 0 = some t.returnType

/-- The stack of a block without a recorded trace: the call of the first invocation, if there
has been one, below a mark for each later invocation that is running. -/
inductive Pending (h : Hierarchy κ) (r : Runs κ) : List (Option ReturnTrace) → Prop
  | idle : r.started = 0 → r.running = [] → Pending h r []
  | called {later first t} : r.started ≠ 0 → r.running = later ++ [first] → first.number = 0 →
      (∀ i ∈ later, i.number ≠ 0) → CalledBy h first t → Pending h r (List.replicate later.length none ++ [some t])

structure BlockOf (h : Hierarchy κ) (r : Runs κ) (block : BlockParameter ReturnTrace) : Prop where
  recorded : ∀ t ∈ block.blockTraces, ∃ c ∈ r.completed, Paired h c t
  pending : block.blockTraces = [] → Pending h r block.currentBlockCallStack

/-- The blocks of all traces, at addresses whose runs are theirs alone. -/
structure Invariant (h : Hierarchy κ) (s : Vm κ) : Prop where
  named : Named h s.tracer.globals.constants
  addressed : Addressed s.tracer
  unused : ∀ addr ≥ s.tracer.globals.next, (s.runs addr).started = 0 ∧ (s.runs addr).running = []
  blocks : ∀ n ∈ nodes s.tracer, ∀ block ∈ n.blockParam, BlockOf h (s.runs n.addr) block

section
variable [Fintype κ] (h : Hierarchy κ)

/-- Block calls and returns are well nested on every fiber. -/
inductive Step : Vm κ → Event κ → Vm κ → Prop
  | tracer {s t event} : Outside event → Announced.Step h s.tracer event t →
      Step s (.tracer event) { s with tracer := t }
  | blockCall {s t} (fiber addr : Nat) (e : BlockCallEvent κ) : Announced.Step h s.tracer (.blockCall addr e) t →
      Step s (.blockCall fiber addr e)
        { tracer := t
          runs := Function.update s.runs addr ((s.runs addr).call fiber e s.tracer.maxGenericDepth) }
  | blockReturn {s t i} (fiber addr : Nat) (e : ReturnEvent κ) : (s.runs addr).innermost fiber = some i →
      Announced.Step h s.tracer (.blockReturn addr e) t →
      Step s (.blockReturn fiber addr e)
        { tracer := t
          runs := Function.update s.runs addr ((s.runs addr).ret i e s.tracer.maxGenericDepth) }

end

variable {h : Hierarchy κ} {r : Runs κ} {block block' : BlockParameter ReturnTrace}

theorem BlockOf.of_fresh (fresh : block.Fresh) (started : r.started = 0) (running : r.running = []) :
    BlockOf h r block := by
  obtain ⟨traces, calls⟩ := fresh
  exact ⟨by simp [traces], fun _ => calls ▸ .idle started running⟩

theorem CalledBy.congr {i : Invocation κ} {t u : ReturnTrace} (called : CalledBy h i t) (params : u.params = t.params)
    (selfType : u.blockSelfType = t.blockSelfType) : CalledBy h i u :=
  ⟨params ▸ called.params, selfType ▸ called.selfType, selfType ▸ called.known⟩

/-- Writing a block elsewhere does not change what the traces of a block are about. -/
theorem BlockOf.setBlock {b : BlockParameter ReturnTrace} (blockOf : BlockOf h r b) (addr : Nat)
    (block : BlockParameter ReturnTrace) :
    BlockOf h r { b with
      blockTraces := b.blockTraces.map (·.setBlock addr block)
      currentBlockCallStack := b.currentBlockCallStack.map (Option.map (·.setBlock addr block)) } := by
  refine ⟨fun t member => ?_, fun traces => ?_⟩
  · obtain ⟨before, old, rfl⟩ := List.mem_map.mp member
    obtain ⟨c, completed, called, returned⟩ := blockOf.recorded before old
    obtain ⟨blockParam, frame⟩ := before.setBlock_frame addr block
    exact ⟨c, completed, called.congr (by rw [frame]) (by rw [frame]), by rw [frame]; exact returned⟩
  · have pending := blockOf.pending (List.map_eq_nil_iff.mp traces)
    generalize b.currentBlockCallStack = stack at pending
    cases pending with
    | idle started running => exact .idle started running
    | called started running first others called =>
      obtain ⟨blockParam, frame⟩ := ReturnTrace.setBlock_frame _ addr block
      simp only [List.map_append, List.map_replicate, Option.map_none, List.map_singleton, Option.map_some]
      exact .called started running first others (called.congr (by rw [frame]) (by rw [frame]))

theorem Pending.of_nil (pending : Pending h r []) : r.started = 0 ∧ r.running = [] := by
  generalize stack : ([] : List (Option ReturnTrace)) = calls at pending
  cases pending with
  | idle started running => exact ⟨started, running⟩
  | called => simp at stack

/-- A block call on any fiber. -/
theorem BlockOf.call [Fintype κ] {fuel fiber : Nat} {maxGenericDepth : Int} {e : BlockCallEvent κ} {g g' : Globals κ}
    (blockOf : BlockOf h r block) (named : Named h g.constants)
    (run : processBlockCallEvent h fuel maxGenericDepth e block g = some (block', g')) :
    BlockOf h (r.call fiber e maxGenericDepth) block' := by
  rcases processBlockCallEvent_spec run with ⟨recorded, rfl, rfl⟩ | ⟨traces, ⟨call, calls, stack⟩, rfl, rfl⟩ |
    ⟨traces, stack, params, blockParam, self, g₁, assigned, value, rfl⟩
  · exact ⟨blockOf.recorded, fun none => absurd none recorded⟩
  · refine ⟨blockOf.recorded, fun _ => ?_⟩
    have pending := blockOf.pending traces
    simp only
    generalize block.currentBlockCallStack = calls at pending stack
    cases pending with
    | idle => cases stack
    | @called later _ t started running first others called =>
      let inner : Invocation κ := { number := r.started, fiber, call := e, maxGenericDepth }
      have marked : Pending h (r.call fiber e maxGenericDepth)
          (List.replicate (inner :: later).length none ++ [some t]) := by
        refine .called (Nat.succ_ne_zero _) (by rw [Runs.call, running, List.cons_append]) first ?_ called
        exact List.forall_mem_cons.mpr ⟨started, others⟩
      exact marked
  · refine ⟨by simp [traces], fun _ => ?_⟩
    have pending := blockOf.pending traces
    rw [stack] at pending
    obtain ⟨grows, as⟩ := assignParameters_ensures fuel maxGenericDepth g.next e.arguments e.objects
      (g := { g with next := g.next + 1 }) named _ _ assigned
    obtain ⟨_, computed, _⟩ := valueType_ensures fuel maxGenericDepth e.objects e.self (grows.named named) _ _ value
    obtain ⟨started, running⟩ := pending.of_nil
    have one : (r.call fiber e maxGenericDepth).running =
        [] ++ [{ number := r.started, fiber, call := e, maxGenericDepth }] := by
      rw [Runs.call, running, List.nil_append]
    exact .called (Nat.succ_ne_zero _) one started (by simp) ⟨⟨fuel, as.expected⟩, ⟨fuel, computed⟩, by simp⟩

/-- The return of a later invocation takes its mark off the stack. -/
theorem Pending.pop {i : Invocation κ} {fiber : Nat} {e : ReturnEvent κ} {maxGenericDepth : Int}
    {calls : List (Option ReturnTrace)} (pending : Pending h r (none :: calls)) (top : r.innermost fiber = some i)
    (later : i.number ≠ 0 ∨ r.running.length = 1) : Pending h (r.ret i e maxGenericDepth) calls := by
  generalize stack : none :: calls = all at pending
  cases pending with
  | idle => cases stack
  | @called others first t started running number later' called =>
    have inside : i ∈ others ++ [first] := running ▸ List.mem_of_find?_eq_some top
    cases others with
    | nil => cases stack
    | cons j others =>
      have marked : i ∈ j :: others := by
        rcases List.mem_append.mp inside with marked | same
        · exact marked
        · cases List.mem_singleton.mp same
          rcases later with later | alone
          · exact absurd number later
          · simp [running] at alone
      have shorter : ((j :: others).eraseP (·.fiber = i.fiber)).length = others.length :=
        List.length_eraseP_of_mem marked (by simp)
      obtain rfl : calls = List.replicate others.length none ++ [some t] := (List.cons.inj stack).2
      rw [← shorter]
      refine .called started ?_ number (fun k member => later' k (List.mem_of_mem_eraseP member)) called
      rw [Runs.ret, running, List.eraseP_append_left (by simp) _ marked]

/-- Where the recorded call is on top, the first invocation is the only one that is running. -/
theorem Pending.alone {i : Invocation κ} {fiber : Nat} {t : ReturnTrace} {calls : List (Option ReturnTrace)}
    (pending : Pending h r (some t :: calls)) (top : r.innermost fiber = some i) : CalledBy h i t := by
  generalize stack : some t :: calls = all at pending
  cases pending with
  | idle => cases stack
  | @called others first t' started running number later called =>
    have inside : i ∈ others ++ [first] := running ▸ List.mem_of_find?_eq_some top
    cases others with
    | cons j others => cases stack
    | nil =>
      cases stack
      cases List.mem_singleton.mp inside
      exact called

/-- A block return on the fiber of the invocation. -/
theorem BlockOf.ret [Fintype κ] {fuel fiber : Nat} {maxGenericDepth : Int} {e : ReturnEvent κ} {g g' : Globals κ}
    {i : Invocation κ} (blockOf : BlockOf h r block) (named : Named h g.constants)
    (top : r.innermost fiber = some i) (admits : i.number = 0 → r.running.length = 1)
    (run : processBlockReturnEvent h fuel maxGenericDepth e block g = some (block', g')) :
    BlockOf h (r.ret i e maxGenericDepth) block' := by
  have recorded : ∀ t ∈ block.blockTraces, ∃ c ∈ (r.ret i e maxGenericDepth).completed, Paired h c t := by
    intro t member
    obtain ⟨c, completed, paired⟩ := blockOf.recorded t member
    exact ⟨c, List.mem_append_left _ completed, paired⟩
  rcases processBlockReturnEvent_spec run with ⟨ended, rfl, rfl⟩ | ⟨traces, calls, stack, rfl, rfl⟩ |
    ⟨traces, call, calls, returnType, stack, value, rfl⟩
  · refine ⟨recorded, fun none => ?_⟩
    have pending := blockOf.pending none
    rw [ended.resolve_left (absurd none)] at pending
    rw [Runs.innermost, pending.of_nil.2] at top
    cases top
  · have pending := blockOf.pending traces
    rw [stack] at pending
    exact ⟨recorded, fun _ => pending.pop top (or_iff_not_imp_left.mpr fun first => admits (not_not.mp first))⟩
  · have pending := blockOf.pending traces
    rw [stack] at pending
    obtain ⟨_, computed, _⟩ := valueType_ensures fuel maxGenericDepth e.objects e.returnValue named _ _ value
    refine ⟨fun t member => ?_, fun none => absurd none (List.cons_ne_nil _ _)⟩
    cases List.mem_singleton.mp member
    exact ⟨_, List.mem_append_right _ (List.mem_singleton_self _), (pending.alone top).congr rfl rfl, fuel, computed⟩

variable {s : Vm κ} {t : Tracer κ}

/-- An event of the block at an address changes the runs of this block alone. -/
theorem Invariant.blockEvent {addr : Nat} {r' : Runs κ}
    {handler : BlockParameter ReturnTrace → StateT (Globals κ) Option (BlockParameter ReturnTrace)}
    (inv : Invariant h s)
    (handles : ∀ block, Ensures (Globals.Grows h) s.tracer.globals (handler block)
      fun block' g => BlockStep h s.tracer.globals g block block')
    (kept : ∀ block block' g, BlockOf h (s.runs addr) block →
      handler block s.tracer.globals = some (block', g) → BlockOf h r' block')
    (run : processBlockTracepoint addr handler s.tracer = some t) :
    Invariant h { tracer := t, runs := Function.update s.runs addr r' } := by
  have elsewhere {n m : ReturnTrace} {b : BlockParameter ReturnTrace} (there : m ∈ nodes s.tracer)
      (same : m.addr = n.addr) (atBlock : b ∈ m.blockParam) (other : n.addr ≠ addr) :
      BlockOf h (Function.update s.runs addr r' n.addr) b := by
    rw [Function.update_of_ne other, ← same]
    exact inv.blocks m there b atBlock
  have unused {trace : ReturnTrace} (there : trace ∈ nodes s.tracer) (a : Nat) (later : a ≥ s.tracer.globals.next) :
      (Function.update s.runs trace.addr r' a).started = 0 ∧ (Function.update s.runs trace.addr r' a).running = [] := by
    have below := inv.addressed.below trace there
    rw [Function.update_of_ne (by omega)]
    exact inv.unused a later
  rcases written_of_run handles run with
    ⟨rfl, trace, there, rfl, unfollowed⟩ | ⟨block, block', g, made, ran, step, grows, written⟩
  · refine ⟨inv.named, inv.addressed, unused there, fun n member b atN => elsewhere member rfl atN fun same => ?_⟩
    have agree := inv.addressed.agree n member trace there same
    rw [Option.mem_def.mp atN, unfollowed] at agree
    cases agree
  · obtain ⟨trace, there, rfl, atBlock⟩ := written.found
    refine ⟨grows.named inv.named, inv.addressed.written written, fun a later => ?_, fun n member b atN => ?_⟩
    · exact unused there a (written.next.trans later)
    · dsimp only
      rcases written.all n member with under | ⟨m, before, rfl⟩
      · have above := inv.addressed.above written under
        rcases written.inherits under with ⟨m, before, same, blocks⟩ | inMade
        · exact elsewhere before same (blocks ▸ atN) (by omega)
        · have made := written.new n inMade
          obtain ⟨started, running⟩ := unused there n.addr made.addr.ge
          exact .of_fresh (made.fresh b atN) started running
      · have own : (m.setBlock trace.addr block').addr = m.addr := by rw [ReturnTrace.setBlock_eq]
        rw [ReturnTrace.setBlock_eq] at atN
        rw [own]
        simp only at atN
        split at atN
        next here =>
          cases Option.mem_def.mp atN
          rw [here, Function.update_self]
          exact kept block block' g (inv.blocks trace there block atBlock) ran
        next other =>
          obtain ⟨b', atM, rfl⟩ := Option.mem_map.mp atN
          exact (elsewhere before rfl atM other).setBlock trace.addr block'

theorem Invariant.step [Fintype κ] {s' : Vm κ} {event : Event κ} (inv : Invariant h s) (admits : Admits s event)
    (step : Step h s event s') : Invariant h s' := by
  cases step with
  | tracer outside step =>
    obtain ⟨made, follows⟩ := outside_follows outside inv.named step
    refine ⟨follows.named, inv.addressed.follows follows, fun a later => ?_, fun n member b atN => ?_⟩
    · exact inv.unused a (follows.next.trans later)
    · rcases follows.inherits n member with ⟨m, before, addr, block⟩ | inMade
      · rw [← addr]
        exact inv.blocks m before b (block ▸ atN)
      · have made := follows.new n inMade
        obtain ⟨started, running⟩ := inv.unused n.addr made.addr.ge
        exact .of_fresh (made.fresh b atN) started running
  | blockCall fiber addr e step =>
    obtain ⟨fuel, delivered⟩ := step
    simp only [Announced.deliver] at delivered
    split at delivered
    next =>
      exact inv.blockEvent (fun block => processBlockCallEvent_ensures fuel _ e block inv.named)
        (fun block block' g blockOf ran => blockOf.call inv.named ran) delivered
    next => cases delivered
  | blockReturn fiber addr e top step =>
    obtain ⟨fuel, delivered⟩ := step
    simp only [Announced.deliver] at delivered
    split at delivered
    next =>
      exact inv.blockEvent (fun block => processBlockReturnEvent_ensures fuel _ e block inv.named)
        (fun block block' g blockOf ran => blockOf.ret inv.named top (admits _ top) ran) delivered
    next => cases delivered

end

/-- A call of the block with this `self`, and a return with this value. -/
def callWith (self : Value (Sample × Bool)) : BlockCallEvent (Sample × Bool) where
  self := self
  arguments :=
    { parameters := [], localVariable := fun _ => .object 8, localBlock := fun _ => .nil, blockGiven := false }
  objects := Announced.noObjects

def returnWith (value : Value (Sample × Bool)) : ReturnEvent (Sample × Bool) where
  returnValue := value
  objects := Announced.noObjects

/-- A module is seen as itself, at every depth. -/
theorem singleton_of_module {maxGenericDepth : Int} {fuel : Nat} {i : ConstantInstance}
    (run : typeOfValue sample Announced.noObjects maxGenericDepth fuel (.constant (.A, false)) 0 = some i) :
    i.singleton = true := by
  cases fuel with
  | zero => cases run
  | succ fuel =>
    have module_ : (Value.constant (.A, false)).singleton sample Announced.noObjects = some (.A, false) := by decide
    simp only [typeOfValue, module_] at run
    cases run
    rfl

end Racer.Pairing
