import Racer.Tracer.Blocks
import Racer.Tracer.Tracepoints

namespace Racer

mutual

/-- `free_trace`: the traces it deletes, in this order. -/
def freeTrace (t : ReturnTrace) : List Nat :=
  match t with
  | { addr, blockParam, .. } => freeBlockParam blockParam ++ [addr]

def freeBlockParam : Option (BlockParameter ReturnTrace) → List Nat
  | none => []
  | some { blockTraces, currentBlockCallStack, .. } => freeTraces blockTraces ++ freeCalls currentBlockCallStack

def freeTraces : List ReturnTrace → List Nat
  | [] => []
  | t :: traces => freeTrace t ++ freeTraces traces

/-- The vector is walked from the bottom of the stack. -/
def freeCalls : List (Option ReturnTrace) → List Nat
  | [] => []
  | none :: calls => freeCalls calls
  | some t :: calls => freeCalls calls ++ freeTrace t

end

theorem freeTraces_eq (traces : List ReturnTrace) : freeTraces traces = traces.flatMap freeTrace := by
  induction traces with
  | nil => rfl
  | cons t traces ih => rw [freeTraces, ih, List.flatMap_cons]

theorem freeCalls_perm (calls : List (Option ReturnTrace)) :
    (freeCalls calls).Perm ((calls.filterMap id).flatMap freeTrace) := by
  induction calls with
  | nil => exact .nil
  | cons call calls ih =>
    cases call with
    | none => exact ih
    | some t => exact (ih.append_right (freeTrace t)).trans List.perm_append_comm

/-- A trace is deleted with all that is below it, each once. -/
theorem freeTrace_perm (t : ReturnTrace) : (freeTrace t).Perm (t.nodes.map (·.addr)) := by
  induction t using ReturnTrace.block_induction with
  | step t ih =>
    have own : freeTrace t = freeBlockParam t.blockParam ++ [t.addr] := by
      cases t
      rfl
    rw [ReturnTrace.nodes_eq, own, List.map_cons]
    refine List.perm_append_comm.trans (List.Perm.cons t.addr ?_)
    cases atBlock : t.blockParam with
    | none => exact .nil
    | some block =>
      obtain ⟨name, tracepointId, traces, stack⟩ := block
      have finished := List.Perm.flatMap_left traces fun r member => (ih _ atBlock).1 r member
      have unfinished := List.Perm.flatMap_left (stack.filterMap id) fun r member =>
        (ih _ atBlock).2 r (by simpa using member)
      rw [Tracepoints.blockNodes_eq, freeBlockParam, freeTraces_eq, Tracepoints.calls, List.flatMap_append,
        List.map_append, List.map_flatMap, List.map_flatMap]
      exact finished.append ((freeCalls_perm stack).trans unfinished)

namespace Freeing
open Announced Tracepoints Transition

/-! Who deletes the traces of a process. -/

/-- The extension with its worker. `hand` is the trace that the worker has popped and not yet
sent, and `failed` whether `send` has ever failed. The lists record which traces have been
allocated and deleted, and of which the last pointer has been lost. -/
structure Memory (κ : Type) where
  tracer : Tracer κ := {}
  hand : Option ReturnTrace := none
  working : Bool := true
  failed : Bool := false
  allocated : List Nat := []
  freed : List Nat := []
  leaked : List Nat := []

section
variable {κ : Type} [DecidableEq κ] [Fintype κ] (h : Hierarchy κ)

/-- The test for a retry of a CALL event. -/
def retries (s : Tracer κ) (fiber : Nat) (e : CallEvent κ) : Bool :=
  match onConstants (callHeader h e) { s.globals with next := s.globals.next + 1 } with
  | some ((_, owner), _) => detectsRetry (s.stack fiber) e.methodId owner
  | none => false

/-- What an event allocates: every call of a method, and the first call of a block. -/
def allocates (s : Tracer κ) : Event κ → List Nat
  | .call _ _ => [s.globals.next]
  | .blockCall addr _ => if Blocks.opens s addr then [s.globals.next] else []
  | .ret _ _ _ | .rescue _ _ | .blockReturn _ _ | .start _ _ | .stop => []

/-- What an event deletes: the new trace of a retried method, and at a stop all frames. -/
def deletes (s : Tracer κ) : Event κ → List Nat
  | .call fiber e => if retries h s fiber e then freeTrace { addr := s.globals.next } else []
  | .stop => (openFrames s).flatMap freeTrace
  | .ret _ _ _ | .rescue _ _ | .blockCall _ _ | .blockReturn _ _ | .start _ _ => []

/-- One event of the tracer, or one step of the worker. A flush stops the tracer and ends when
the worker has returned: traces that are left in its queue are lost with it. -/
inductive Step : Memory κ → Option (Event κ) → Memory κ → Prop
  | event {s tracer event} : Announced.Step h s.tracer event tracer →
      Step s (some event)
        { s with
          tracer
          allocated := s.allocated ++ allocates s.tracer event
          freed := s.freed ++ deletes h s.tracer event }
  | pop {s t queue} : s.working = true → s.hand = none → s.tracer.queue = t :: queue →
      Step s none { s with tracer := { s.tracer with queue }, hand := some t }
  | sent {s t} : s.hand = some t → Step s none { s with hand := none, freed := s.freed ++ freeTrace t }
  | sendFails {s t} : s.hand = some t →
      Step s none
        { s with hand := none, working := false, failed := true, leaked := s.leaked ++ t.nodes.map (·.addr) }
  | flushed {s} : s.tracer.callStacks = [] → s.hand = none → (s.working = true → s.tracer.queue = []) →
      Step s none
        { s with
          tracer := { s.tracer with tpCall := none, queue := [] }
          working := true
          leaked := s.leaked ++ (s.tracer.queue.flatMap ReturnTrace.nodes).map (·.addr) }

/-- The traces that the tracer, the queue or the worker still points to. -/
def Memory.live (s : Memory κ) : List ReturnTrace :=
  s.tracer.owned ++ s.tracer.queue.flatMap ReturnTrace.nodes ++ s.hand.toList.flatMap ReturnTrace.nodes

variable {h} {s s' : Tracer κ}

/-- The addresses of the traces of the tracer and its queue. -/
def addresses (s : Tracer κ) : List Nat :=
  (s.owned ++ s.queue.flatMap ReturnTrace.nodes).map (·.addr)

/-- What an event does to the addresses. -/
structure Accounts (s s' : Tracer κ) (allocated deleted : List Nat) : Prop where
  moved : (addresses s' ++ deleted).Perm (addresses s ++ allocated)
  fresh : allocated = [] ∨ allocated = [s.globals.next]
  next : s.globals.next + allocated.length ≤ s'.globals.next

omit [DecidableEq κ] [Fintype κ] in
theorem addresses_eq (s : Tracer κ) :
    addresses s = ((openFrames s).flatMap links ++ s.queue.flatMap links).map (·.1) := by
  rw [addresses, List.map_append, List.map_append, addrs_links, addrs_links]
  rfl

omit [DecidableEq κ] [Fintype κ] in
/-- An event that adds links to the open frames. -/
theorem Accounts.gain {new : List (Nat × Nat)} (gains : Gains s.globals s'.globals new)
    (frames : ((openFrames s').flatMap links).Perm ((openFrames s).flatMap links ++ new))
    (queue : s'.queue = s.queue) : Accounts s s' (new.map (·.1)) [] := by
  refine ⟨?_, ?_, ?_⟩
  · rw [List.append_nil, addresses_eq, addresses_eq, queue, ← List.map_append]
    refine List.Perm.map _ ((frames.append_right _).trans ?_)
    rw [List.append_assoc, List.append_assoc]
    exact List.perm_append_comm.append_left _
  · cases gains with
    | nothing _ _ => exact .inl rfl
    | trace _ => exact .inr rfl
  · cases gains with
    | nothing _ next => exact next
    | trace followed => exact followed.next

omit [DecidableEq κ] [Fintype κ] in
theorem Accounts.refl (s : Tracer κ) : Accounts s s [] [] :=
  .gain (.nothing rfl le_rfl) (by rw [List.append_nil]) rfl

theorem call_accounts {fuel fiber : Nat} {e : CallEvent κ} (one : OneBlock e.arguments)
    (run : processCallEvent h fuel fiber e s = some s') :
    Accounts s s' (allocates s (.call fiber e)) (deletes h s (.call fiber e)) := by
  unfold processCallEvent at run
  simp only at run
  split at run
  next => cases run
  next callee owner g header =>
    obtain ⟨⟨tracepoints, next⟩, _⟩ := onConstants_quiet _ _ header
    have known : retries h s fiber e = detectsRetry (s.stack fiber) e.methodId owner := by
      simp only [retries, header]
    split at run
    next retry =>
      cases run
      refine ⟨?_, .inr rfl, next.ge⟩
      rw [deletes, known, if_pos retry]
      exact .refl _
    next call =>
    split at run
    next => cases run
    next params blockParam g' assigned =>
      cases run
      have followed := assignParameters_followed fuel s.maxGenericDepth s.globals.next e.objects one assigned
      rw [deletes, known, if_neg call]
      refine Accounts.gain (.trace (.before ⟨tracepoints, next⟩ followed)) ?_ rfl
      have made := pushed_links s fiber
        { addr := s.globals.next
          methodOwner := owner
          methodCallee := callee
          methodName := some e.methodId
          methodKind := e.methodKind
          methodVisibility := e.methodVisibility
          params
          blockParam }
      rw [links_of_fresh followed.fresh] at made
      exact made

theorem return_accounts {fuel fiber : Nat} {methodId : String} {e : ReturnEvent κ}
    (run : processReturnEvent h fuel fiber methodId e s = some s') : Accounts s s' [] [] := by
  unfold processReturnEvent at run
  split at run
  next => cases run; exact .refl s
  next => cases run; exact .refl s
  next t stack atTop =>
    split at run
    next => cases run; exact .refl s
    next =>
    split at run
    next => cases run
    next returnType g value =>
      cases run
      obtain ⟨⟨_, next⟩, _⟩ := onConstants_quiet _ _ value
      obtain ⟨others, split, popped⟩ := setStack_perm s.callStacks fiber stack
      have top : s.callStacks.lookup fiber = some (t :: stack) := atTop
      rw [top, Option.getD_some] at split
      have frames : ((openFrames s).flatMap links).Perm (links t ++ (stack ++ others).flatMap links) :=
        split.flatMap_right links
      have queued : ∀ updates, links { t with returnType, constantUpdates := updates } = links t :=
        fun updates => links_congr rfl rfl
      refine ⟨?_, .inl rfl, next.ge⟩
      rw [List.append_nil, List.append_nil, addresses_eq, addresses_eq, List.flatMap_append, List.flatMap_singleton,
        queued]
      refine List.Perm.map _ (((popped.flatMap_right links).append_right _).trans ?_)
      refine List.Perm.trans ?_ (frames.append_right _).symm
      rw [← List.append_assoc]
      exact List.perm_append_comm.trans (by rw [List.append_assoc])

omit [DecidableEq κ] [Fintype κ] in
theorem rescue_accounts (fiber : Nat) (methodId : Option String) :
    Accounts s ((processRescuedEvent fiber methodId s).toOption.getD s) [] [] := by
  obtain ⟨frames, queue, globals⟩ := rescue_links s fiber methodId
  exact .gain (.nothing (by rw [globals]) (by rw [globals])) (by rwa [List.append_nil]) queue

omit [DecidableEq κ] [Fintype κ] in
/-- A block event allocates what its handler has made. -/
theorem block_accounts {addr : Nat} {allocated : List Nat}
    {handler : BlockParameter ReturnTrace → StateT (Globals κ) Option (BlockParameter ReturnTrace)}
    (inv : Tracepoints.Invariant s) (enabled : ∃ tp ∈ s.globals.tracepoints, tp.data = addr)
    (nothing : Blocks.blockAt s addr = none → allocated = [])
    (handles : ∀ block block' g, Blocks.blockAt s addr = some block → handler block s.globals = some (block', g) →
      ∃ new, new.map (·.1) = allocated ∧ Gains s.globals g new ∧ block'.tracepointId = block.tracepointId ∧
        (blockLinks block').Perm (blockLinks block ++ new))
    (run : processBlockTracepoint addr handler s = some s') : Accounts s s' allocated [] := by
  obtain ⟨absent, rfl, _⟩ | ⟨trace, block, block', g, member, here, atBlock, found, handled, rfl⟩ :=
    Blocks.processBlockTracepoint_blockAt run
  · rw [nothing absent]
    exact .refl _
  · obtain ⟨new, rfl, gains, same, gained⟩ := handles block block' g found handled
    obtain ⟨tp, enabled, rfl⟩ := enabled
    obtain ⟨queue, grown⟩ := inv.written enabled member here atBlock same gained
    refine .gain gains ?_ queue
    rwa [openFrames, Blocks.openFrames_written]

/-- Only the first call of a block makes a trace. -/
theorem blockCall_accounts {fuel addr : Nat} {e : BlockCallEvent κ} (inv : Tracepoints.Invariant s)
    (enabled : ∃ tp ∈ s.globals.tracepoints, tp.data = addr) (one : OneBlock e.arguments)
    (run : processBlockTracepoint addr (processBlockCallEvent h fuel s.maxGenericDepth e) s = some s') :
    Accounts s s' (allocates s (.blockCall addr e)) [] := by
  refine block_accounts inv enabled (fun absent => ?_) (fun block block' g found handled => ?_) run
  · simp [allocates, Blocks.opens, absent]
  · obtain ⟨new, gains, same, gained, made⟩ := processBlockCallEvent_gains one handled
    refine ⟨new, ?_, gains, same, gained⟩
    rw [made, allocates, Blocks.opens, found]

/-- What an event allocates and deletes. -/
theorem step_accounts {event : Event κ} (inv : Tracepoints.Invariant s) (admits : Tracepoints.Admits s event)
    (step : Announced.Step h s event s') : Accounts s s' (allocates s event) (deletes h s event) := by
  obtain ⟨fuel, delivered⟩ := step
  cases event with
  | call fiber e =>
    simp only [deliver] at delivered
    split at delivered
    · exact call_accounts admits delivered
    · cases delivered
  | ret fiber methodId e =>
    simp only [deliver] at delivered
    split at delivered
    · exact return_accounts delivered
    · cases delivered
  | rescue fiber methodId =>
    simp only [deliver] at delivered
    split at delivered <;> cases delivered
    exact rescue_accounts fiber methodId
  | blockCall addr e =>
    simp only [deliver] at delivered
    split at delivered
    · exact blockCall_accounts inv ‹_› admits delivered
    · cases delivered
  | blockReturn addr e =>
    simp only [deliver] at delivered
    split at delivered
    · refine block_accounts inv ‹_› (fun _ => rfl) (fun block block' g _ handled => ?_) delivered
      obtain ⟨gains, same, kept⟩ := processBlockReturnEvent_gains handled
      exact ⟨[], rfl, gains, same, by rwa [List.append_nil]⟩
    · cases delivered
  | start maxGenericDepth connects =>
    cases delivered
    unfold Tracer.start
    simp only
    split <;> exact ⟨.refl _, .inl rfl, le_rfl⟩
  | stop =>
    cases delivered
    refine ⟨?_, .inl rfl, le_rfl⟩
    have frames : (deletes h s .stop).Perm (s.owned.map (·.addr)) := by
      rw [Tracer.owned, List.map_flatMap]
      exact List.Perm.flatMap_left _ fun t _ => freeTrace_perm t
    have left : addresses s.stop = (s.queue.flatMap ReturnTrace.nodes).map (·.addr) := rfl
    rw [allocates, List.append_nil, left, addresses, List.map_append]
    exact List.perm_append_comm.trans (frames.append_right _)

/-- Each trace is in one place: some thread points to it, or it has been deleted or lost. -/
structure Ledger (s : Memory κ) : Prop where
  tracer : Tracepoints.Invariant s.tracer
  once : s.allocated.Nodup
  below : ∀ a ∈ s.allocated, a < s.tracer.globals.next
  accounted : s.allocated.Perm (s.live.map (·.addr) ++ s.freed ++ s.leaked)
  ended : s.working = false → s.failed = true
  kept : s.failed = false → s.leaked = []

omit [DecidableEq κ] [Fintype κ] in
theorem live_addrs (s : Memory κ) :
    s.live.map (·.addr) = addresses s.tracer ++ s.hand.toList.flatMap fun t => t.nodes.map (·.addr) := by
  rw [Memory.live, List.map_append, addresses]
  exact congrArg _ List.map_flatMap

omit [DecidableEq κ] [Fintype κ] in
theorem Ledger.init : Ledger ({} : Memory κ) :=
  ⟨.init, List.nodup_nil, nofun, .nil, nofun, fun _ => rfl⟩

omit [DecidableEq κ] [Fintype κ] in
/-- Traces that leave the queue are no longer the tracer's. -/
theorem popped_invariant {gone : List (Nat × Nat)} {queue : List ReturnTrace} (inv : Tracepoints.Invariant s)
    (split : (s.queue.flatMap links).Perm (gone ++ queue.flatMap links)) :
    Tracepoints.Invariant { s with queue } := by
  have all : Linked ([] ++ (openFrames s).flatMap links) (s.queue.flatMap links) s.globals := inv
  exact all.leave gone ((split.append_left _).trans (List.perm_append_comm_assoc ..)) rfl (fun _ => id)
    fun _ _ => List.not_mem_nil

theorem Ledger.step {s s' : Memory κ} {event : Option (Event κ)} (ledger : Ledger s)
    (admits : ∀ e ∈ event, Tracepoints.Admits s.tracer e) (step : Step h s event s') : Ledger s' := by
  have accounted (a : Nat) := ledger.accounted.count_eq a
  simp only [live_addrs, List.count_append] at accounted
  cases step with
  | @event tracer e delivered =>
    have admitted := admits e rfl
    obtain ⟨moved, fresh, next⟩ := step_accounts ledger.tracer admitted delivered
    refine ⟨ledger.tracer.step admitted delivered, ?_, fun a member => ?_, List.perm_iff_count.mpr fun a => ?_,
      ledger.ended, ledger.kept⟩
    · rcases fresh with nothing | one
      · simpa [nothing] using ledger.once
      · rw [one, List.nodup_append]
        refine ⟨ledger.once, List.nodup_singleton _, fun a old b new => ?_⟩
        have below := ledger.below a old
        rw [List.mem_singleton.mp new]
        omega
    · rcases List.mem_append.mp member with old | new
      · have below := ledger.below a old
        simp only
        omega
      · rcases fresh with nothing | one
        · simp [nothing] at new
        · rw [one, List.length_singleton] at next
          rw [one, List.mem_singleton] at new
          simp only
          omega
    · have moved := moved.count_eq a
      have accounted := accounted a
      simp only [live_addrs, List.count_append] at moved ⊢
      omega
  | @pop t queue working empty atHead =>
    refine ⟨popped_invariant ledger.tracer (.of_eq (by rw [atHead]; rfl)), ledger.once, ledger.below,
      List.perm_iff_count.mpr fun a => ?_, ledger.ended, ledger.kept⟩
    have accounted := accounted a
    simp [live_addrs, addresses, atHead, empty, Tracer.owned] at accounted ⊢
    omega
  | @sent t inHand =>
    refine ⟨ledger.tracer, ledger.once, ledger.below, List.perm_iff_count.mpr fun a => ?_, ledger.ended, ledger.kept⟩
    have accounted := accounted a
    have deleted := (freeTrace_perm t).count_eq a
    simp [live_addrs, inHand] at accounted deleted ⊢
    omega
  | @sendFails t inHand =>
    refine ⟨ledger.tracer, ledger.once, ledger.below, List.perm_iff_count.mpr fun a => ?_, fun _ => rfl,
      fun never => (by cases never)⟩
    have accounted := accounted a
    simp [live_addrs, inHand] at accounted ⊢
    omega
  | flushed stopped empty drained =>
    refine ⟨popped_invariant ledger.tracer (.of_eq (List.append_nil _).symm), ledger.once, ledger.below,
      List.perm_iff_count.mpr fun a => ?_, fun never => (by cases never), fun succeeded => ?_⟩
    · have accounted := accounted a
      simp [live_addrs, addresses, empty, Tracer.owned] at accounted ⊢
      omega
    · have working : s.working = true := by
        by_contra ended
        exact absurd (ledger.ended (eq_false_of_ne_true ended)) (succeeded ▸ Bool.false_ne_true)
      simp [ledger.kept succeeded, drained working]

/-- Where no trace is given away with a followed block below it, each allocated trace is in
one place: some thread points to it, or it has been deleted once. No tracepoint is enabled
for a trace that has been deleted. As long as every `send` succeeds nothing is lost, and all
has been deleted whenever nothing is open, queued or being sent. -/
theorem traces_freed_once {s : Memory κ}
    (run : Run (fun a b => ∃ event, (∀ e ∈ event, Tracepoints.Admits a.tracer e) ∧ Step h a event b) {} s) :
    (s.live.map (·.addr) ++ s.freed ++ s.leaked).Nodup ∧
      s.allocated.Perm (s.live.map (·.addr) ++ s.freed ++ s.leaked) ∧
      (∀ tp ∈ s.tracer.globals.tracepoints,
        tp.data ∈ s.tracer.owned.map (·.addr) ∧ tp.data ∉ s.freed ++ s.leaked) ∧
      (s.failed = false → s.leaked = [] ∧ (s.live = [] → s.freed.Perm s.allocated)) := by
  have ledger : Ledger s := run.invariant (fun a b ledger ⟨event, admits, step⟩ => ledger.step admits step) .init
  have once := ledger.accounted.nodup_iff.mp ledger.once
  refine ⟨once, ledger.accounted, fun tp enabled => ?_, fun succeeded => ⟨ledger.kept succeeded, fun nothing => ?_⟩⟩
  · obtain ⟨n, owned, here⟩ := (ledger.tracer.owned enabled).1
    have there : tp.data ∈ s.tracer.owned.map (·.addr) := here ▸ List.mem_map_of_mem owned
    have live : tp.data ∈ s.live.map (·.addr) := by
      rw [Memory.live, List.map_append, List.map_append]
      exact List.mem_append_left _ (List.mem_append_left _ there)
    rw [List.append_assoc] at once
    exact ⟨there, List.disjoint_of_nodup_append once live⟩
  · have accounted := ledger.accounted
    rw [nothing, ledger.kept succeeded, List.append_nil] at accounted
    exact accounted.symm

end

/-- The module function calls its block and returns before the tracer is stopped. -/
def calledBlock : List (Event (Sample × Bool)) :=
  [.start 1 true, .call 0 moduleCall,
    .blockCall 1 { innerCall with arguments := { blockArguments with parameters := [], blockGiven := false } },
    .blockReturn 1 ⟨.object 8, noObjects⟩, .ret 0 "run" ⟨.object 8, noObjects⟩, .stop]

/-- The trace of the function and that of its block are deleted once the worker has sent them. -/
theorem traces_freed_once_flushed : ∃ s : Memory (Sample × Bool),
    s.allocated.length = 2 ∧ s.freed.Perm s.allocated := by
  let record (s : Memory (Sample × Bool)) (e : Event (Sample × Bool)) : Option (Memory (Sample × Bool)) :=
    if Tracepoints.Admits s.tracer e then
      (deliver flatSample 2 s.tracer e).map fun tracer =>
        { s with
          tracer
          allocated := s.allocated ++ allocates s.tracer e
          freed := s.freed ++ deletes flatSample s.tracer e }
    else none
  have recorded : (calledBlock.foldlM record {}).any (fun s =>
      s.allocated.length = 2 && s.tracer.queue.length = 1 && s.tracer.callStacks.isEmpty && s.hand.isNone &&
        s.working && !s.failed) = true := by decide +kernel
  obtain ⟨s, run, checked⟩ := (Option.any_eq_true _ _).mp recorded
  simp only [Bool.and_eq_true, decide_eq_true_eq, List.isEmpty_iff, Option.isNone_iff_eq_none,
    Bool.not_eq_true'] at checked
  obtain ⟨⟨⟨⟨⟨two, one⟩, closed⟩, empty⟩, working⟩, succeeded⟩ := checked
  obtain ⟨t, queue⟩ := List.length_eq_one_iff.mp one
  have r1 := Relation.ReflTransGen.mono (p := fun a b => ∃ event, (∀ e ∈ event, Tracepoints.Admits a.tracer e) ∧
      Step flatSample a event b) (fun a b ⟨e, delivered⟩ => by
    simp only [record] at delivered
    split at delivered
    next admits =>
      obtain ⟨tracer, after, rfl⟩ := Option.map_eq_some_iff.mp delivered
      exact ⟨some e, by simpa using admits, .event ⟨2, after⟩⟩
    next => cases delivered) _ _ (Run.of_foldlM run)
  have r2 := r1.tail ⟨none, by simp, .pop working empty queue⟩
  have r3 := r2.tail ⟨none, by simp, .sent rfl⟩
  have r4 := r3.tail ⟨none, by simp, .flushed closed rfl fun _ => rfl⟩
  obtain ⟨_, _, _, kept⟩ := traces_freed_once r4
  refine ⟨_, ?_, (kept succeeded).2 ?_⟩
  · exact two
  · simp [Memory.live, Tracer.owned, closed]

end Freeing

end Racer
