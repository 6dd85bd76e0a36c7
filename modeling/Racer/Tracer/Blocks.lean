import Racer.Tracer.Announced

namespace Racer.Blocks
open Stateful Transition

/-! The traces of the tracer and its queue, and what an event makes of their blocks. -/

section
variable {κ : Type}

def nodes (s : Tracer κ) : List ReturnTrace :=
  s.owned ++ s.queue.flatMap ReturnTrace.nodes

/-- The block that a block event of this address is about. -/
def blockAt (s : Tracer κ) (addr : Nat) : Option (BlockParameter ReturnTrace) :=
  ((nodes s).find? (·.addr = addr)).bind (·.blockParam)

/-- No call of the block is recorded yet, so the next one will be. -/
def opens (s : Tracer κ) (addr : Nat) : Bool :=
  match blockAt s addr with
  | some block => block.blockTraces.isEmpty && block.currentBlockCallStack.isEmpty
  | none => false

/-- Not an event of a block. -/
def Outside : Announced.Event κ → Prop
  | .blockCall _ _ | .blockReturn _ _ => False
  | .call _ _ | .ret _ _ _ | .rescue _ _ | .start _ _ | .stop => True

/-- A trace at an address that was not in use, whose block has no calls yet. -/
structure Made (g g' : Globals κ) (n : ReturnTrace) : Prop where
  addr : n.addr = g.next
  below : n.addr < g'.next
  fresh : ∀ b ∈ n.blockParam, b.Fresh

/-- One of these traces with its address and block, or the one that has been made. -/
def Inherits (old : List ReturnTrace) (made : Option ReturnTrace) (n : ReturnTrace) : Prop :=
  (∃ m ∈ old, m.addr = n.addr ∧ m.blockParam = n.blockParam) ∨ n ∈ made

/-- The traces after an event outside of blocks. -/
structure Follows (h : Hierarchy κ) (s t : Tracer κ) (made : Option ReturnTrace) : Prop where
  named : Named h t.globals.constants
  next : s.globals.next ≤ t.globals.next
  new : ∀ n ∈ made, Made s.globals t.globals n
  inherits : ∀ n ∈ nodes t, Inherits (nodes s) made n

/-- The traces after an event of the block at an address. -/
structure Written (s t : Tracer κ) (addr : Nat) (block block' : BlockParameter ReturnTrace)
    (made : Option ReturnTrace) : Prop where
  found : ∃ trace ∈ nodes s, trace.addr = addr ∧ trace.blockParam = some block
  next : s.globals.next ≤ t.globals.next
  new : ∀ n ∈ made, Made s.globals t.globals n
  below : ∀ n ∈ blockNodes (some block'), Inherits (blockNodes (some block)) made n
  all : ∀ n ∈ nodes t, n ∈ blockNodes (some block') ∨ ∃ m ∈ nodes s, n = m.setBlock addr block'

variable {old : List ReturnTrace} {made : Option ReturnTrace} {n t u : ReturnTrace}

theorem Inherits.of_mem (member : n ∈ old) : Inherits old made n :=
  .inl ⟨n, member, rfl, rfl⟩

/-- A trace that differs from one of these in its own fields only. -/
theorem Inherits.of_nodes (there : ∀ m ∈ t.nodes, m ∈ old) (member : n ∈ u.nodes) (addr : u.addr = t.addr)
    (block : u.blockParam = t.blockParam) : Inherits old made n := by
  rcases ReturnTrace.mem_nodes.mp member with rfl | below
  · exact .inl ⟨t, there t (ReturnTrace.mem_nodes.mpr (.inl rfl)), addr.symm, block.symm⟩
  · exact .of_mem (there n (ReturnTrace.mem_nodes.mpr (.inr (block ▸ below))))

/-- There is nothing below a trace that has just been made. -/
theorem Inherits.of_fresh (fresh : ∀ b ∈ t.blockParam, b.Fresh) (member : n ∈ t.nodes) :
    Inherits old (some t) n := by
  rw [ReturnTrace.nodes_eq, Announced.blockNodes_fresh fresh, List.mem_singleton] at member
  exact .inr (Option.mem_some.mpr member.symm)

variable {s s' : Tracer κ}

theorem mem_nodes_of_frame {f : ReturnTrace} (frame : f ∈ Announced.openFrames s) (member : n ∈ f.nodes) :
    n ∈ nodes s :=
  List.mem_append_left _ (List.mem_flatMap.mpr ⟨f, frame, member⟩)

theorem mem_nodes_cases (member : n ∈ nodes s) :
    (∃ f ∈ Announced.openFrames s, n ∈ f.nodes) ∨ ∃ t ∈ s.queue, n ∈ t.nodes :=
  (List.mem_append.mp member).imp List.mem_flatMap.mp List.mem_flatMap.mp

theorem mem_nodes_of_queue (queued : t ∈ s.queue) (member : n ∈ t.nodes) : n ∈ nodes s :=
  List.mem_append_right _ (List.mem_flatMap.mpr ⟨t, queued, member⟩)

/-- What is below one of the traces is one of them. -/
theorem mem_nodes_below (there : t ∈ nodes s) (below : n ∈ blockNodes t.blockParam) : n ∈ nodes s := by
  have inside : n ∈ t.nodes := ReturnTrace.mem_nodes.mpr (.inr below)
  rcases mem_nodes_cases there with ⟨f, frame, under⟩ | ⟨f, queued, under⟩
  · exact mem_nodes_of_frame frame (ReturnTrace.nodes_trans under inside)
  · exact mem_nodes_of_queue queued (ReturnTrace.nodes_trans under inside)

/-- A handler that writes one stack and appends to the queue. -/
theorem inherits_of_setStack {fiber : Nat} {stack : List ReturnTrace}
    (frames : s'.callStacks = setStack s.callStacks fiber stack)
    (onStack : ∀ u ∈ stack, ∀ n ∈ u.nodes, Inherits (nodes s) made n)
    (queued : ∀ u ∈ s'.queue, u ∈ s.queue ∨ ∀ n ∈ u.nodes, Inherits (nodes s) made n) :
    ∀ n ∈ nodes s', Inherits (nodes s) made n := by
  intro n member
  rcases mem_nodes_cases member with ⟨u, frame, below⟩ | ⟨u, inQueue, below⟩
  · rw [Announced.openFrames, frames] at frame
    rcases Announced.mem_setStack_frames frame with written | old
    · exact onStack u written n below
    · exact .of_mem (mem_nodes_of_frame old below)
  · rcases queued u inQueue with old | new
    · exact .of_mem (mem_nodes_of_queue old below)
    · exact new n below

theorem mem_nodes_written {addr : Nat} {block : BlockParameter ReturnTrace}
    (frames : Announced.openFrames s' = (Announced.openFrames s).map (·.setBlock addr block))
    (queue : s'.queue = s.queue.map (·.setBlock addr block)) (member : n ∈ nodes s') :
    n ∈ blockNodes (some block) ∨ ∃ m ∈ nodes s, n = m.setBlock addr block := by
  rcases mem_nodes_cases member with ⟨u, frame, below⟩ | ⟨u, queued, below⟩
  · rw [frames] at frame
    obtain ⟨f, before, rfl⟩ := List.mem_map.mp frame
    refine (ReturnTrace.mem_nodes_setBlock below).imp_right fun ⟨m, under, same⟩ => ⟨m, ?_, same⟩
    exact mem_nodes_of_frame before under
  · rw [queue] at queued
    obtain ⟨f, before, rfl⟩ := List.mem_map.mp queued
    refine (ReturnTrace.mem_nodes_setBlock below).imp_right fun ⟨m, under, same⟩ => ⟨m, ?_, same⟩
    exact mem_nodes_of_queue before under

theorem openFrames_written (s : Tracer κ) (addr : Nat) (block : BlockParameter ReturnTrace) :
    (s.callStacks.map fun entry => (entry.1, entry.2.map (·.setBlock addr block))).flatMap (·.2) =
      (Announced.openFrames s).map (·.setBlock addr block) := by
  rw [Announced.openFrames, List.flatMap_map, List.map_flatMap]

/-- A block event is for the block at its address, or for a trace without a block. -/
theorem processBlockTracepoint_blockAt {addr : Nat}
    {handler : BlockParameter ReturnTrace → StateT (Globals κ) Option (BlockParameter ReturnTrace)}
    (run : processBlockTracepoint addr handler s = some s') :
    (blockAt s addr = none ∧ s' = s ∧ ∃ trace ∈ nodes s, trace.addr = addr ∧ trace.blockParam = none) ∨
      ∃ trace block block' g, trace ∈ nodes s ∧ trace.addr = addr ∧
      trace.blockParam = some block ∧ blockAt s addr = some block ∧ handler block s.globals = some (block', g) ∧
        s' = { s with
          globals := g
          callStacks := s.callStacks.map fun (fiber, stack) => (fiber, stack.map (·.setBlock addr block'))
          queue := s.queue.map (·.setBlock addr block') } := by
  obtain ⟨trace, found, event⟩ := processBlockTracepoint_spec run
  have there : trace ∈ nodes s := List.mem_of_find?_eq_some found
  have atAddr : trace.addr = addr := by simpa using List.find?_some found
  have handled : blockAt s addr = trace.blockParam := by rw [blockAt, nodes, found, Option.bind_some]
  rcases event with ⟨nothing, same⟩ | ⟨block, block', g, atBlock, ran, written⟩
  · exact .inl ⟨handled.trans nothing, same, trace, there, atAddr, nothing⟩
  · exact .inr ⟨trace, block, block', g, there, atAddr, atBlock, handled.trans atBlock, ran, written⟩

/-- The traces below a block after an event were below it, or there is nothing below them. -/
theorem inherits_of_step {h : Hierarchy κ} {g g' : Globals κ} {block block' : BlockParameter ReturnTrace}
    (step : BlockStep h g g' block block') : ∃ made, (∀ n ∈ made, Made g g' n) ∧
      ∀ n ∈ blockNodes (some block'), Inherits (blockNodes (some block)) made n := by
  have below {t : ReturnTrace} (call : t ∈ block.blockTraces ∨ some t ∈ block.currentBlockCallStack)
      {n : ReturnTrace} (under : n ∈ t.nodes) : n ∈ blockNodes (some block) :=
    mem_blockNodes.mpr ⟨block, rfl, call.imp (fun recorded => ⟨t, recorded, under⟩) fun pending => ⟨t, pending, under⟩⟩
  have kept (recorded : ∀ t ∈ block'.blockTraces, t ∈ block.blockTraces)
      (pending : ∀ t, some t ∈ block'.currentBlockCallStack → some t ∈ block.currentBlockCallStack) :
      ∃ made, (∀ n ∈ made, Made g g' n) ∧
        ∀ n ∈ blockNodes (some block'), Inherits (blockNodes (some block)) made n := by
    refine ⟨none, by simp, fun n member => ?_⟩
    obtain ⟨b, same, ⟨t, old, under⟩ | ⟨t, old, under⟩⟩ := mem_blockNodes.mp member <;> cases Option.mem_def.mp same
    · exact .of_mem (below (.inl (recorded t old)) under)
    · exact .of_mem (below (.inr (pending t old)) under)
  cases step with
  | kept => exact kept (fun t recorded => recorded) fun t pending => pending
  | calledInside _ stack => exact kept (fun t recorded => recorded) fun t pending => stack ▸ by simpa using pending
  | returnedInside _ stack =>
    exact kept (fun t recorded => recorded) fun t pending => stack ▸ List.mem_cons_of_mem none pending
  | @called t traces _ new =>
    refine ⟨some t, fun n same => ?_, fun n member => ?_⟩
    · cases Option.mem_some.mp same
      exact ⟨new.addr, new.below, new.fresh⟩
    · obtain ⟨b, same, ⟨r, recorded, under⟩ | ⟨r, pending, under⟩⟩ := mem_blockNodes.mp member <;>
        cases Option.mem_def.mp same
      · rw [traces] at recorded
        cases recorded
      · cases List.mem_singleton.mp pending
        exact .of_fresh new.fresh under
  | @returned call calls returnType traces stack _ =>
    refine ⟨none, by simp, fun n member => ?_⟩
    obtain ⟨b, same, ⟨t, recorded, under⟩ | ⟨t, pending, under⟩⟩ := mem_blockNodes.mp member <;>
      cases Option.mem_def.mp same
    · cases List.mem_singleton.mp recorded
      exact .of_nodes (t := call) (fun m inside => below (.inr (stack ▸ List.mem_cons_self)) inside) under rfl rfl
    · exact .of_mem (below (.inr (stack ▸ List.mem_cons_of_mem _ pending)) under)

variable [DecidableEq κ] {h : Hierarchy κ}

/-- A block event changes nothing, or writes the block of its trace. -/
theorem written_of_run {addr : Nat}
    {handler : BlockParameter ReturnTrace → StateT (Globals κ) Option (BlockParameter ReturnTrace)}
    (handles : ∀ block, Ensures (Globals.Grows h) s.globals (handler block)
      fun block' g => BlockStep h s.globals g block block')
    (run : processBlockTracepoint addr handler s = some s') :
    (s' = s ∧ ∃ trace ∈ nodes s, trace.addr = addr ∧ trace.blockParam = none) ∨
      ∃ block block' g made, handler block s.globals = some (block', g) ∧ BlockStep h s.globals g block block' ∧
        Globals.Grows h s.globals s'.globals ∧ Written s s' addr block block' made := by
  rcases processBlockTracepoint_blockAt run with
    ⟨_, same, unfollowed⟩ | ⟨trace, block, block', g, there, atAddr, atBlock, _, ran, rfl⟩
  · exact .inl ⟨same, unfollowed⟩
  · obtain ⟨grows, step⟩ := handles block block' g ran
    obtain ⟨made, new, below⟩ := inherits_of_step step
    refine .inr ⟨block, block', g, made, ran, step, grows, ⟨trace, there, atAddr, atBlock⟩, grows.next, new, below, ?_⟩
    exact fun n => mem_nodes_written (by exact openFrames_written s addr block') rfl

variable [Fintype κ]

theorem call_follows {fuel fiber : Nat} {e : CallEvent κ} (named : Named h s.globals.constants)
    (run : processCallEvent h fuel fiber e s = some s') : ∃ made, Follows h s s' made := by
  obtain ⟨g, grows, ⟨_, rfl⟩ | ⟨_, f, _, new, rfl⟩⟩ := processCallEvent_spec named run
  · exact ⟨none, grows.named named, grows.next, by simp, fun n member => .of_mem member⟩
  · refine ⟨some f, grows.named named, grows.next, fun n same => ?_, ?_⟩
    · cases Option.mem_some.mp same
      exact ⟨new.addr, new.below, new.fresh⟩
    · refine inherits_of_setStack rfl (fun u top n below => ?_) fun u old => .inl old
      rcases List.mem_cons.mp top with rfl | under
      · exact .of_fresh new.fresh below
      · exact .of_mem (mem_nodes_of_frame (Announced.mem_stack_frames under) below)

theorem return_follows {fuel fiber : Nat} {methodId : String} {e : ReturnEvent κ}
    (named : Named h s.globals.constants) (run : processReturnEvent h fuel fiber methodId e s = some s') :
    Follows h s s' none := by
  obtain ⟨rfl, _⟩ | ⟨f, stack, returnType, g, atTop, _, grows, _, _, rfl⟩ := processReturnEvent_spec named run
  · exact ⟨named, le_rfl, by simp, fun n member => .of_mem member⟩
  · have onStack := Announced.mem_top_frames atTop
    have after : Named h g.constants := grows.named named
    refine ⟨after, grows.next, by simp, inherits_of_setStack rfl (fun u under n below => ?_) fun u queued => ?_⟩
    · exact .of_mem (mem_nodes_of_frame (onStack u (List.mem_cons_of_mem f under)) below)
    · refine (List.mem_append.mp queued).imp_right fun new n below => ?_
      cases List.mem_singleton.mp new
      refine .of_nodes (t := f) (fun m under => ?_) below rfl rfl
      exact mem_nodes_of_frame (onStack f List.mem_cons_self) under

omit [DecidableEq κ] [Fintype κ] in
theorem rescue_follows {fiber : Nat} {methodId : Option String} (named : Named h s.globals.constants) :
    Follows h s ((processRescuedEvent fiber methodId s).toOption.getD s) none := by
  rcases processRescuedEvent_getD_spec (s := s) with same | ⟨f, stack, atTop, marked⟩
  · rw [same]
    exact ⟨named, le_rfl, by simp, fun n member => .of_mem member⟩
  · rw [marked]
    have onStack := Announced.mem_top_frames atTop
    refine ⟨named, le_rfl, by simp, inherits_of_setStack rfl (fun u top n below => ?_) fun u old => .inl old⟩
    rcases List.mem_cons.mp top with rfl | under
    · refine .of_nodes (t := f) (fun m under => ?_) below rfl rfl
      exact mem_nodes_of_frame (onStack f List.mem_cons_self) under
    · exact .of_mem (mem_nodes_of_frame (onStack u (List.mem_cons_of_mem f under)) below)

/-- An event outside of blocks makes one trace at most. -/
theorem outside_follows {event : Announced.Event κ} (outside : Outside event) (named : Named h s.globals.constants)
    (step : Announced.Step h s event s') : ∃ made, Follows h s s' made := by
  obtain ⟨fuel, delivered⟩ := step
  cases event with
  | blockCall addr e => exact outside.elim
  | blockReturn addr e => exact outside.elim
  | call fiber e =>
    simp only [Announced.deliver] at delivered
    split at delivered
    next => exact call_follows named delivered
    next => cases delivered
  | ret fiber methodId e =>
    simp only [Announced.deliver] at delivered
    split at delivered
    next => exact ⟨none, return_follows named delivered⟩
    next => cases delivered
  | rescue fiber methodId =>
    simp only [Announced.deliver] at delivered
    split at delivered <;> cases delivered
    exact ⟨none, rescue_follows named⟩
  | start maxGenericDepth connects =>
    cases delivered
    unfold Tracer.start
    simp only
    split <;> exact ⟨none, named, le_rfl, by simp, fun n member => .of_mem member⟩
  | stop =>
    cases delivered
    refine ⟨none, named, le_rfl, by simp, fun n member => ?_⟩
    rcases mem_nodes_cases member with ⟨u, frame, below⟩ | ⟨u, queued, below⟩
    · cases frame
    · exact .of_mem (mem_nodes_of_queue queued below)

end

/-- Addresses are given out in order: no trace has one that is still to come, and a trace is
older than those below it. Whether there is a block depends on the address alone. -/
structure Addressed {κ : Type} (s : Tracer κ) : Prop where
  below : ∀ n ∈ nodes s, n.addr < s.globals.next
  ordered : ∀ n ∈ nodes s, ∀ m ∈ blockNodes n.blockParam, n.addr < m.addr
  agree : ∀ m ∈ nodes s, ∀ n ∈ nodes s, m.addr = n.addr → m.blockParam.isSome = n.blockParam.isSome

section
variable {κ : Type} {s s' : Tracer κ} {made : Option ReturnTrace}

theorem Addressed.init : Addressed ({} : Tracer κ) :=
  ⟨by simp [nodes, Tracer.owned], by simp [nodes, Tracer.owned], by simp [nodes, Tracer.owned]⟩

/-- Each trace has been made, or has taken the place of one with its address. -/
theorem Addressed.later (addressed : Addressed s) (next : s.globals.next ≤ s'.globals.next)
    (new : ∀ n ∈ made, Made s.globals s'.globals n)
    (old : ∀ n ∈ nodes s', n ∈ made ∨ ∃ m ∈ nodes s, m.addr = n.addr ∧ m.blockParam.isSome = n.blockParam.isSome)
    (ordered : ∀ n ∈ nodes s', ∀ m ∈ blockNodes n.blockParam, n.addr < m.addr) : Addressed s' := by
  have apart {m n : ReturnTrace} (there : m ∈ nodes s) (inMade : n ∈ made) : m.addr ≠ n.addr := by
    have below := addressed.below m there
    have addr := (new n inMade).addr
    omega
  refine ⟨fun n member => ?_, ordered, fun n member k other same => ?_⟩
  · rcases old n member with inMade | ⟨m, there, addr, _⟩
    · exact (new n inMade).below
    · have below := addressed.below m there
      omega
  · rcases old n member with inMade | ⟨m, there, addr, block⟩ <;>
      rcases old k other with inMade' | ⟨j, there', addr', block'⟩
    · cases Option.mem_unique inMade inMade'
      rfl
    · exact absurd (addr'.trans same.symm) (apart there' inMade)
    · exact absurd (addr.trans same) (apart there inMade')
    · rw [← block, ← block']
      exact addressed.agree m there j there' (by rw [addr, addr', same])

theorem Addressed.follows {h : Hierarchy κ} [DecidableEq κ] (addressed : Addressed s) (follows : Follows h s s' made) :
    Addressed s' := by
  refine addressed.later follows.next follows.new (fun n member => ?_) fun n member m below => ?_
  · rcases follows.inherits n member with ⟨m, there, addr, block⟩ | inMade
    · exact .inr ⟨m, there, addr, by rw [block]⟩
    · exact .inl inMade
  · rcases follows.inherits n member with ⟨k, there, addr, block⟩ | inMade
    · rw [← addr]
      exact addressed.ordered k there m (block ▸ below)
    · rw [Announced.blockNodes_fresh (follows.new n inMade).fresh] at below
      cases below

variable {addr : Nat} {block block' : BlockParameter ReturnTrace}

/-- What is below the written block is younger than its trace. -/
theorem Addressed.above (addressed : Addressed s) (written : Written s s' addr block block' made)
    {n : ReturnTrace} (member : n ∈ blockNodes (some block')) : addr < n.addr := by
  obtain ⟨trace, there, rfl, atBlock⟩ := written.found
  rcases written.below n member with ⟨m, under, same, _⟩ | inMade
  · rw [← same]
    exact addressed.ordered trace there m (atBlock ▸ under)
  · rw [(written.new n inMade).addr]
    exact addressed.below trace there

theorem Written.inherits (written : Written s s' addr block block' made) {n : ReturnTrace}
    (member : n ∈ blockNodes (some block')) : Inherits (nodes s) made n := by
  obtain ⟨trace, there, _, atBlock⟩ := written.found
  refine (written.below n member).imp_left fun ⟨m, under, same⟩ => ⟨m, ?_, same⟩
  exact mem_nodes_below there (atBlock ▸ under)

theorem Addressed.written (addressed : Addressed s) (written : Written s s' addr block block' made) :
    Addressed s' := by
  have followed {m : ReturnTrace} (there : m ∈ nodes s) (atAddr : m.addr = addr) : m.blockParam.isSome := by
    obtain ⟨trace, member, here, atBlock⟩ := written.found
    rw [addressed.agree m there trace member (by rw [atAddr, here]), atBlock, Option.isSome_some]
  refine addressed.later written.next written.new (fun n member => ?_) fun n member k below => ?_
  · rcases written.all n member with under | ⟨m, there, rfl⟩
    · rcases written.inherits under with ⟨m, there, addr, block⟩ | inMade
      · exact .inr ⟨m, there, addr, by rw [block]⟩
      · exact .inl inMade
    · refine .inr ⟨m, there, by rw [ReturnTrace.setBlock_eq], ?_⟩
      rw [ReturnTrace.setBlock_eq]
      by_cases here : m.addr = addr
      · simp [here, followed there here]
      · simp [here]
  · rcases written.all n member with under | ⟨m, there, rfl⟩
    · rcases written.inherits under with ⟨m, there, same, block⟩ | inMade
      · rw [← same]
        exact addressed.ordered m there k (block ▸ below)
      · rw [Announced.blockNodes_fresh (written.new n inMade).fresh] at below
        cases below
    · have own : (m.setBlock addr block').addr = m.addr := by rw [ReturnTrace.setBlock_eq]
      rw [own]
      rcases ReturnTrace.mem_below_setBlock below with ⟨under, j, inside, here⟩ | ⟨j, inside, rfl⟩
      · have above := addressed.above written under
        rcases ReturnTrace.mem_nodes.mp inside with rfl | deeper
        · omega
        · have order := addressed.ordered m there j deeper
          omega
      · have order := addressed.ordered m there j inside
        rwa [ReturnTrace.setBlock_eq]

end

end Racer.Blocks
