import Racer.Tracer.Bookkeeping
import Racer.Tracer.Handlers
import Racer.Tracer.Tracepoints

namespace Racer.Pipeline
open Announced

/-! What the whole pipeline relies on in the tracer. -/

section
variable {κ : Type} [DecidableEq κ]

/-- An event of the running program. -/
def Program : Event κ → Prop
  | .start _ _ | .stop => False
  | .call _ _ | .ret _ _ _ | .rescue _ _ | .blockCall _ _ | .blockReturn _ _ => True

/-- The tracer keeps all its invariants together, and names every trace that it queues. -/
structure Traced (h : Hierarchy κ) (s : Tracer κ) : Prop where
  links : Tracepoints.Invariant s
  blocks : Bookkeeping.Invariant h s
  handlers : Handlers.Invariant h s
  announced : Anchored h → Announced.Invariant h s
  methods : ∀ t ∈ s.queue, t.methodName ≠ none

/-- What an event of the program does to the queue. -/
inductive Queues (s s' : Tracer κ) : Prop
  | nothing (queue : s'.queue = s.queue)
  | trace (t : ReturnTrace) (enabled : s.tpCall = some true) (queue : s'.queue = s.queue ++ [t])
      (method : t.methodName ≠ none)

variable {h : Hierarchy κ} {s s' : Tracer κ}

theorem Traced.init : Traced h ({} : Tracer κ) :=
  ⟨.init, ⟨by simp [Named], by simp [Blocks.nodes, Tracer.owned]⟩, ⟨by simp [Named], by simp [openFrames]⟩,
    fun _ => .init, by simp⟩

/-- The last part of a flush. -/
theorem Traced.clear (traced : Traced h s) : Traced h { s with tpCall := none } := by
  refine ⟨traced.links, ⟨traced.blocks.named, traced.blocks.kept⟩,
    ⟨traced.handlers.named, traced.handlers.methods⟩, fun anchored => ?_, traced.methods⟩
  have inv := traced.announced anchored
  exact ⟨inv.named, inv.pushed, inv.once, inv.delivered, inv.records, inv.frames, inv.ordered⟩

variable [Fintype κ]

/-- An event that may be delivered to a block never reaches the queue. -/
theorem Traced.sparesQueue (traced : Traced h s) {event : Event κ} (step : Announced.Step h s event s') :
    SparesQueue s event := by
  obtain ⟨fuel, delivered⟩ := step
  cases event with
  | blockCall addr e | blockReturn addr e =>
    simp only [deliver] at delivered
    split at delivered
    next enabled =>
      obtain ⟨tp, member, rfl⟩ := enabled
      exact (traced.links.owned member).2
    next => cases delivered
  | call fiber e | ret fiber methodId e | rescue fiber methodId | start maxGenericDepth connects | stop => trivial

omit [Fintype κ] in
theorem Traced.block_queue (traced : Traced h s) {addr : Nat}
    {handler : BlockParameter ReturnTrace → StateT (Globals κ) Option (BlockParameter ReturnTrace)}
    (enabled : ∃ tp ∈ s.globals.tracepoints, tp.data = addr)
    (run : processBlockTracepoint addr handler s = some s') : s'.queue = s.queue ∧ s'.tpCall = s.tpCall := by
  obtain ⟨trace, -, ⟨-, rfl⟩ | ⟨block, block', g, -, -, rfl⟩⟩ := processBlockTracepoint_spec run
  · exact ⟨rfl, rfl⟩
  · obtain ⟨tp, member, rfl⟩ := enabled
    refine ⟨(List.map_congr_left fun t queued => ?_).trans (List.map_id _), rfl⟩
    refine ReturnTrace.setBlock_absent block' fun n below => ?_
    exact (traced.links.owned member).2 n (List.mem_flatMap.mpr ⟨t, queued, below⟩)

/-- An event of the program queues one trace at most, and only while the tracer is on. -/
theorem Traced.queues (traced : Traced h s) {event : Event κ} (program : Program event)
    (step : Announced.Step h s event s') : Queues s s' ∧ s'.tpCall = s.tpCall := by
  obtain ⟨fuel, delivered⟩ := step
  cases event with
  | call fiber e =>
    simp only [deliver] at delivered
    split at delivered
    · obtain ⟨g, -, ⟨-, rfl⟩ | ⟨-, t, -, -, rfl⟩⟩ := processCallEvent_spec traced.handlers.named delivered <;>
        exact ⟨.nothing rfl, rfl⟩
    · cases delivered
  | ret fiber methodId e =>
    simp only [deliver] at delivered
    split at delivered
    next enabled =>
      obtain ⟨rfl, -⟩ | ⟨t, stack, returnType, g, -, method, -, -, -, rfl⟩ :=
        processReturnEvent_spec traced.handlers.named delivered
      · exact ⟨.nothing rfl, rfl⟩
      · refine ⟨.trace _ enabled rfl ?_, rfl⟩
        rw [method]
        exact Option.some_ne_none methodId
    next => cases delivered
  | rescue fiber methodId =>
    simp only [deliver] at delivered
    split at delivered <;> cases delivered
    cases ran : processRescuedEvent fiber methodId s with
    | error error => exact ⟨.nothing rfl, rfl⟩
    | ok t =>
      rcases processRescuedEvent_spec ran with rfl | ⟨_, _, _, _, _, rfl⟩ <;> exact ⟨.nothing rfl, rfl⟩
  | blockCall addr e | blockReturn addr e =>
    simp only [deliver] at delivered
    split at delivered
    next enabled =>
      obtain ⟨queue, tpCall⟩ := traced.block_queue enabled delivered
      exact ⟨.nothing queue, tpCall⟩
    next => cases delivered
  | start maxGenericDepth connects | stop => exact program.elim

theorem Traced.frames (traced : Traced h s) {event : Event κ} (step : Announced.Step h s event s') :
    Handlers.Invariant h s' := by
  have inv := traced.handlers
  obtain ⟨fuel, delivered⟩ := step
  cases event with
  | call fiber e =>
    simp only [deliver] at delivered
    split at delivered
    · exact inv.call delivered
    · cases delivered
  | ret fiber methodId e =>
    simp only [deliver] at delivered
    split at delivered
    · exact inv.ret delivered
    · cases delivered
  | rescue fiber methodId =>
    simp only [deliver] at delivered
    split at delivered <;> cases delivered
    cases ran : processRescuedEvent fiber methodId s with
    | error error => exact inv
    | ok t => exact inv.rescue ran
  | blockCall addr e =>
    simp only [deliver] at delivered
    split at delivered
    · exact inv.block (fun block => processBlockCallEvent_ensures _ _ e block inv.named) delivered
    · cases delivered
  | blockReturn addr e =>
    simp only [deliver] at delivered
    split at delivered
    · exact inv.block (fun block => processBlockReturnEvent_ensures _ _ e block inv.named) delivered
    · cases delivered
  | start maxGenericDepth connects =>
    cases delivered
    unfold Tracer.start
    simp only
    split <;> exact ⟨inv.named, inv.methods⟩
  | stop =>
    cases delivered
    exact ⟨inv.named, by simp [openFrames, Tracer.stop]⟩

omit [DecidableEq κ] [Fintype κ] in
theorem start_queue (s : Tracer κ) (maxGenericDepth : Int) (connects : Bool) :
    (s.start maxGenericDepth connects).queue = s.queue := by
  unfold Tracer.start
  simp only
  split <;> rfl

/-- Whatever happens to the tracer keeps its invariants, as long as no trace is given
away with a followed block below it. -/
theorem Traced.step (traced : Traced h s) {event : Event κ} (admits : Tracepoints.Admits s event)
    (step : Announced.Step h s event s') : Traced h s' := by
  refine ⟨traced.links.step admits step, traced.blocks.step (.event event step), traced.frames step,
    fun anchored => (traced.announced anchored).step anchored (traced.sparesQueue step) step, fun t queued => ?_⟩
  have program (program : Program event) : t.methodName ≠ none := by
    obtain ⟨⟨queue⟩ | ⟨last, -, queue, method⟩, -⟩ := traced.queues program step
    · exact traced.methods t (queue ▸ queued)
    · rw [queue] at queued
      rcases List.mem_append.mp queued with old | new
      · exact traced.methods t old
      · rw [List.mem_singleton.mp new]
        exact method
  cases event with
  | start maxGenericDepth connects =>
    obtain ⟨fuel, delivered⟩ := step
    cases delivered
    exact traced.methods t (start_queue s maxGenericDepth connects ▸ queued)
  | stop =>
    obtain ⟨fuel, delivered⟩ := step
    cases delivered
    exact traced.methods t queued
  | call fiber e | ret fiber methodId e | rescue fiber methodId | blockCall addr e | blockReturn addr e =>
    exact program trivial

end

end Racer.Pipeline
