import Racer.Tracer.Blocks

namespace Racer.Bookkeeping
open Blocks Transition

/-! What every block parameter keeps, whatever the order of the block events. -/

/-- At most one call is recorded, or at most one is pending below inner calls, and
these calls have a block self type. -/
structure Kept (block : BlockParameter ReturnTrace) : Prop where
  recorded : block.blockTraces.length ≤ 1
  pending : block.currentBlockCallStack = [] ∨
    ∃ inner t, block.currentBlockCallStack = List.replicate inner none ++ [some t]
  exclusive : block.blockTraces ≠ [] → block.currentBlockCallStack = []
  selfTypes : ∀ t, t ∈ block.blockTraces ∨ some t ∈ block.currentBlockCallStack → t.blockSelfType ≠ none

theorem Kept.of_fresh {block : BlockParameter ReturnTrace} (fresh : block.Fresh) : Kept block := by
  obtain ⟨traces, calls⟩ := fresh
  exact ⟨by simp [traces], .inl calls, fun _ => calls, by simp [traces, calls]⟩

/-- Taking the innermost call off the stack. -/
theorem Kept.pop {block : BlockParameter ReturnTrace} (kept : Kept block) {call : Option ReturnTrace}
    {calls : List (Option ReturnTrace)} (stack : block.currentBlockCallStack = call :: calls) :
    Kept { block with currentBlockCallStack := calls } ∧ (call ≠ none → calls = []) := by
  have below : (calls = [] ∨ ∃ inner t, calls = List.replicate inner none ++ [some t]) ∧
      (call ≠ none → calls = []) := by
    rcases kept.pending with empty | ⟨_ | inner, t, shape⟩
    · rw [stack] at empty
      cases empty
    · rw [stack] at shape
      cases shape
      exact ⟨.inl rfl, fun _ => rfl⟩
    · rw [stack, List.replicate_succ, List.cons_append] at shape
      obtain ⟨rfl, rfl⟩ := List.cons.inj shape
      exact ⟨.inr ⟨inner, t, rfl⟩, fun marked => absurd rfl marked⟩
  have nonempty : block.currentBlockCallStack ≠ [] := by
    rw [stack]
    exact List.cons_ne_nil call calls
  refine ⟨⟨kept.recorded, below.1, fun traces => absurd (kept.exclusive traces) nonempty, fun t member => ?_⟩, below.2⟩
  refine kept.selfTypes t (member.imp_right fun later => ?_)
  rw [stack]
  exact List.mem_cons_of_mem call later

/-- Writing a block elsewhere keeps the bookkeeping of a block. -/
theorem Kept.setBlock {b : BlockParameter ReturnTrace} (kept : Kept b) (addr : Nat)
    (block : BlockParameter ReturnTrace) :
    Kept { b with
      blockTraces := b.blockTraces.map (·.setBlock addr block)
      currentBlockCallStack := b.currentBlockCallStack.map (Option.map (·.setBlock addr block)) } := by
  have selfType (t : ReturnTrace) : (t.setBlock addr block).blockSelfType = t.blockSelfType := by
    rw [ReturnTrace.setBlock_eq]
  refine ⟨by simpa using kept.recorded, ?_, fun traces => ?_, fun t member => ?_⟩
  · rcases kept.pending with empty | ⟨inner, t, shape⟩
    · exact .inl (by simp [empty])
    · exact .inr ⟨inner, t.setBlock addr block, by simp [shape]⟩
  · have before : b.blockTraces ≠ [] := fun none => traces (by simp [none])
    simp [kept.exclusive before]
  · rcases member with recorded | pending
    · obtain ⟨before, old, rfl⟩ := List.mem_map.mp recorded
      rw [selfType]
      exact kept.selfTypes before (.inl old)
    · obtain ⟨call, old, same⟩ := List.mem_map.mp pending
      obtain ⟨before, rfl, rfl⟩ := Option.map_eq_some_iff.mp same
      rw [selfType]
      exact kept.selfTypes before (.inr old)

section
variable {κ : Type} {h : Hierarchy κ} {g g' : Globals κ} {block block' : BlockParameter ReturnTrace}

/-- A block event keeps the bookkeeping of its block. -/
theorem Kept.step (kept : Kept block) (step : BlockStep h g g' block block') : Kept block' := by
  cases step with
  | kept => exact kept
  | @called t traces _ new =>
    obtain ⟨self, selfType, _⟩ := new.selfType
    refine ⟨kept.recorded, .inr ⟨0, t, rfl⟩, fun recorded => absurd traces recorded, fun u member => ?_⟩
    rcases member with recorded | pending
    · rw [traces] at recorded
      cases recorded
    · cases List.mem_singleton.mp pending
      rw [selfType]
      nofun
  | @calledInside call calls traces stack =>
    refine ⟨kept.recorded, .inr ?_, fun recorded => absurd traces recorded, fun u member => ?_⟩
    · rcases kept.pending with empty | ⟨inner, t, shape⟩
      · rw [stack] at empty
        cases empty
      · rw [stack] at shape
        exact ⟨inner + 1, t, by rw [shape, List.replicate_succ, List.cons_append]⟩
    · refine kept.selfTypes u (member.imp_right fun pending => ?_)
      rw [stack]
      simpa using pending
  | returnedInside _ stack => exact (kept.pop stack).1
  | @returned call calls returnType traces stack _ =>
    obtain ⟨popped, bottom⟩ := kept.pop stack
    have empty : calls = [] := bottom nofun
    refine ⟨Nat.le_refl 1, .inl empty, fun _ => empty, fun u member => ?_⟩
    rcases member with recorded | pending
    · cases List.mem_singleton.mp recorded
      exact kept.selfTypes call (.inr (stack ▸ List.mem_cons_self))
    · rw [empty] at pending
      cases pending

end

section
variable {κ : Type} [DecidableEq κ] [Fintype κ] (h : Hierarchy κ)

/-- An event of the tracer. A block call or return may reach every trace the tracer or
its queue has, whether a tracepoint still follows its block or not. -/
inductive Step : Tracer κ → Tracer κ → Prop
  | event {s t} (event : Announced.Event κ) : Announced.Step h s event t → Step s t
  | blockCall {s t} (fuel addr : Nat) (e : BlockCallEvent κ) :
      processBlockTracepoint addr (processBlockCallEvent h fuel s.maxGenericDepth e) s = some t → Step s t
  | blockReturn {s t} (fuel addr : Nat) (e : ReturnEvent κ) :
      processBlockTracepoint addr (processBlockReturnEvent h fuel s.maxGenericDepth e) s = some t → Step s t

/-- Every block, at any depth, on the stacks and in the queue. -/
structure Invariant (s : Tracer κ) : Prop where
  named : Named h s.globals.constants
  kept : ∀ n ∈ nodes s, ∀ b ∈ n.blockParam, Kept b

variable {h} {s t : Tracer κ}

omit [DecidableEq κ] [Fintype κ] in
theorem Invariant.inherited {made : Option ReturnTrace} (inv : Invariant h s)
    (new : ∀ n ∈ made, Made s.globals t.globals n) {n : ReturnTrace} (inherits : Inherits (nodes s) made n) :
    ∀ b ∈ n.blockParam, Kept b := by
  rcases inherits with ⟨m, before, _, same⟩ | inMade
  · rw [← same]
    exact inv.kept m before
  · exact fun b member => .of_fresh ((new n inMade).fresh b member)

omit [Fintype κ] in
theorem Invariant.block {addr : Nat}
    {handler : BlockParameter ReturnTrace → StateT (Globals κ) Option (BlockParameter ReturnTrace)}
    (inv : Invariant h s) (handles : ∀ block, Stateful.Ensures (Globals.Grows h) s.globals (handler block)
      fun block' g => BlockStep h s.globals g block block')
    (run : processBlockTracepoint addr handler s = some t) : Invariant h t := by
  obtain ⟨rfl, _⟩ | ⟨block, block', g, made, _, step, grows, written⟩ := written_of_run handles run
  · exact inv
  · obtain ⟨trace, there, _, atBlock⟩ := written.found
    refine ⟨grows.named inv.named, fun n member b atN => ?_⟩
    rcases written.all n member with below | ⟨m, before, rfl⟩
    · exact inv.inherited written.new (written.inherits below) b atN
    · rw [ReturnTrace.setBlock_eq] at atN
      simp only at atN
      split_ifs at atN
      · cases Option.mem_def.mp atN
        exact (inv.kept trace there block atBlock).step step
      · obtain ⟨old, atM, rfl⟩ := Option.mem_map.mp atN
        exact (inv.kept m before old atM).setBlock addr block'

theorem Invariant.step (inv : Invariant h s) (step : Step h s t) : Invariant h t := by
  have outside (event : Announced.Event κ) (outer : Outside event) (ran : Announced.Step h s event t) :
      Invariant h t := by
    obtain ⟨made, follows⟩ := outside_follows outer inv.named ran
    exact ⟨follows.named, fun n member => inv.inherited follows.new (follows.inherits n member)⟩
  have called (fuel : Nat) (e : BlockCallEvent κ) (block : BlockParameter ReturnTrace) :=
    processBlockCallEvent_ensures fuel s.maxGenericDepth e block inv.named
  have returned (fuel : Nat) (e : ReturnEvent κ) (block : BlockParameter ReturnTrace) :=
    processBlockReturnEvent_ensures fuel s.maxGenericDepth e block inv.named
  cases step with
  | blockCall fuel addr e run => exact inv.block (called fuel e) run
  | blockReturn fuel addr e run => exact inv.block (returned fuel e) run
  | event event ran =>
    cases event with
    | blockCall addr e =>
      obtain ⟨fuel, delivered⟩ := ran
      simp only [Announced.deliver] at delivered
      split at delivered
      · exact inv.block (called fuel e) delivered
      · cases delivered
    | blockReturn addr e =>
      obtain ⟨fuel, delivered⟩ := ran
      simp only [Announced.deliver] at delivered
      split at delivered
      · exact inv.block (returned fuel e) delivered
      · cases delivered
    | call fiber e => exact outside (.call fiber e) trivial ran
    | ret fiber methodId e => exact outside (.ret fiber methodId e) trivial ran
    | rescue fiber methodId => exact outside (.rescue fiber methodId) trivial ran
    | start maxGenericDepth connects => exact outside (.start maxGenericDepth connects) trivial ran
    | stop => exact outside .stop trivial ran

theorem Invariant.of_run (run : Run (Step h) {} s) : Invariant h s :=
  run.invariant (fun _ _ inv step => inv.step step) ⟨by simp [Named], by simp [nodes, Tracer.owned]⟩

end

end Racer.Bookkeeping
