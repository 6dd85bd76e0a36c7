import Racer.Agent.RoundTrip
import Racer.Collectors.BlockCoverage
import Racer.Tracer.Bookkeeping

namespace Racer
open Bookkeeping Transition

/-! What the writer and the collectors rely on in the traces of a process. -/

/-- A trace as the agent decodes it from the message of a queued trace, of any process. -/
def Received (x : Trace) : Prop :=
  ∃ (κ : Type) (_ : DecidableEq κ) (_ : Fintype κ) (h : Hierarchy κ) (s : Tracer κ) (t : ReturnTrace)
    (data rest : List Json), Run (Bookkeeping.Step h) {} s ∧ t ∈ s.queue ∧ writeTrace t = some data ∧
      decodeMessage data = some (x, rest)

/-- Every recorded call below a kept trace has its self type. -/
theorem blockParamHasSelf_of_kept {t : ReturnTrace} (kept : ∀ n ∈ t.nodes, ∀ b ∈ n.blockParam, Kept b) :
    blockParamHasSelf t.blockParam := by
  induction t using ReturnTrace.block_induction with
  | step t ih =>
    have own := kept t (ReturnTrace.mem_nodes.mpr (.inl rfl))
    cases atBlock : t.blockParam with
    | none => trivial
    | some b =>
      refine (blockTracesHaveSelf_iff b.blockTraces).mpr fun r recorded => r.hasSelf_iff.mpr ⟨?_, ?_⟩
      · exact Option.isSome_iff_ne_none.mpr ((own b atBlock).selfTypes r (.inl recorded))
      · refine (ih b atBlock).1 r recorded fun n below => kept n ?_
        exact ReturnTrace.mem_nodes.mpr (.inr (mem_blockNodes.mpr ⟨b, atBlock, .inl ⟨r, recorded, below⟩⟩))

theorem writeParams_of_kept {t : ReturnTrace} (kept : ∀ n ∈ t.nodes, ∀ b ∈ n.blockParam, Kept b) :
    (writeParams t).isSome := by
  obtain ⟨written, run, _⟩ := paramsRead t (blockParamHasSelf_of_kept kept)
  rw [run]
  rfl

/-- The message of a trace is decoded to a trace with the same block. -/
theorem blockParam_of_decoded {t : ReturnTrace} {x : Trace} {data rest : List Json}
    (self : blockParamHasSelf t.blockParam) (written : writeTrace t = some data)
    (decoded : decodeMessage data = some (x, rest)) : x.blockParam = blockParamOf t.blockParam := by
  obtain ⟨methodName, named, _⟩ := Option.bind_eq_some_iff.mp written
  obtain ⟨data', written', read⟩ := reads_shiftTrace ⟨t, methodName, named, self⟩
  rw [written] at written'
  cases written'
  have whole : decodeMessage data = some (MethodTrace.toTrace ⟨t, methodName, named, self⟩, []) := read.complete
  rw [decoded] at whole
  cases whole
  rfl

theorem Received.single {x : Trace} (received : Received x) : ∀ b ∈ x.blockParam, b.traces.length ≤ 1 := by
  obtain ⟨κ, _, _, h, s, t, data, rest, run, queued, written, decoded⟩ := received
  have kept : ∀ n ∈ t.nodes, ∀ b ∈ n.blockParam, Kept b := fun n below =>
    (Invariant.of_run run).kept n (Blocks.mem_nodes_of_queue queued below)
  intro b atBlock
  rw [blockParam_of_decoded (blockParamHasSelf_of_kept kept) written decoded] at atBlock
  cases atT : t.blockParam with
  | none =>
    rw [atT] at atBlock
    cases atBlock
  | some block =>
    rw [atT] at atBlock
    cases Option.mem_def.mp atBlock
    simp only [blockTracesOf_eq, List.length_map]
    exact (kept t (ReturnTrace.mem_nodes.mpr (.inl rfl)) block atT).recorded

/-- Block traces of one overload have parameter sets of one size. -/
theorem sameSizes_of_single {traces group : List Trace} (single : ∀ x ∈ traces, ∀ b ∈ x.blockParam, b.traces.length ≤ 1)
    {key : List Trace.Param × Option (List (Option String × ParamType))}
    (member : (key, group) ∈ (OrderedHash.groupBy Trace.overloadKey traces).entries) :
    ∀ x ∈ blockTraces group, ∀ y ∈ blockTraces group, x.params.length = y.params.length := by
  obtain ⟨rfl, _⟩ := OrderedHash.mem_groupBy.mp member
  intro x inX y inY
  have shapes := blockTraces_shapes (fun t inT u inU => ?_) (fun t inT => single t (List.mem_of_mem_filter inT)) inX inY
  · simpa using congrArg List.length shapes
  · have one := (List.mem_filter.mp inT).2
    have other := (List.mem_filter.mp inU).2
    simp only [decide_eq_true_eq] at one other
    rw [one, other]

/-- In every state every block keeps its bookkeeping, and the writer finds the self type of
every block trace. The sets that `to_block` hands to `method_parameters` for one
overload have the same size. -/
theorem block_bookkeeping {κ : Type} [DecidableEq κ] [Fintype κ] {h : Hierarchy κ} {s : Tracer κ}
    (run : Run (Bookkeeping.Step h) {} s) :
    (∀ n ∈ Blocks.nodes s, ∀ block ∈ n.blockParam, Kept block) ∧
      (∀ n ∈ Blocks.nodes s, (writeParams n).isSome) ∧
      ∀ traces : List Trace, (∀ x ∈ traces, Received x) →
        ∀ entry ∈ (OrderedHash.groupBy Trace.overloadKey traces).entries,
          ∀ x ∈ blockTraces entry.2, ∀ y ∈ blockTraces entry.2, x.params.length = y.params.length := by
  have inv := Invariant.of_run run
  refine ⟨inv.kept, fun n member => writeParams_of_kept fun m below => inv.kept m ?_,
    fun traces received entry member =>
      sameSizes_of_single (fun x inside => (received x inside).single) member⟩
  rcases Blocks.mem_nodes_cases member with ⟨f, frame, under⟩ | ⟨t, queued, under⟩
  · exact Blocks.mem_nodes_of_frame frame (ReturnTrace.nodes_trans under below)
  · exact Blocks.mem_nodes_of_queue queued (ReturnTrace.nodes_trans under below)

/-- The module function of the small program is called with a block, which is called with
a block of its own. -/
theorem block_bookkeeping_nested : ∃ s : Tracer (Sample × Bool),
    (∀ n ∈ Blocks.nodes s, ∀ block ∈ n.blockParam, Kept block) ∧
      (∀ n ∈ Blocks.nodes s, (writeParams n).isSome) ∧
      ∃ x, Received x ∧ blockTraces [x, x] ≠ [] ∧
        ∀ entry ∈ (OrderedHash.groupBy Trace.overloadKey [x, x]).entries,
          ∀ y ∈ blockTraces entry.2, ∀ z ∈ blockTraces entry.2, y.params.length = z.params.length := by
  have recorded : (Announced.nestedBlocks.foldlM (Announced.deliver Announced.flatSample 2) {}).map
      (fun s => s.queue.map fun t => (t.methodName, t.blockParam.map (·.blockTraces.isEmpty))) =
      some [(some "run", some false)] := by decide +kernel
  obtain ⟨s, delivered, last⟩ := Option.map_eq_some_iff.mp recorded
  have run : Run (Bookkeeping.Step Announced.flatSample) {} s :=
    Relation.ReflTransGen.mono (fun a b ⟨event, ran⟩ => .event event ⟨2, ran⟩) _ _ (Run.of_foldlM delivered)
  obtain ⟨kept, writes, sizes⟩ := block_bookkeeping run
  obtain ⟨t, rest, queue, top, _⟩ := List.map_eq_cons_iff.mp last
  obtain ⟨name, blocks⟩ := Prod.mk.inj top
  obtain ⟨b, atBlock, filled⟩ := Option.map_eq_some_iff.mp blocks
  have queued : t ∈ s.queue := queue ▸ List.mem_cons_self
  have self : blockParamHasSelf t.blockParam :=
    blockParamHasSelf_of_kept fun n below => kept n (Blocks.mem_nodes_of_queue queued below)
  obtain ⟨data, written, read⟩ := reads_shiftTrace ⟨t, "run", name, self⟩
  have received : Received (MethodTrace.toTrace ⟨t, "run", name, self⟩) :=
    ⟨_, _, _, Announced.flatSample, s, t, data, [], run, queued, written, read.complete⟩
  refine ⟨s, kept, writes, _, received, ?_, sizes _ (by simpa using received)⟩
  cases traces : b.blockTraces with
  | nil => simp [traces] at filled
  | cons r later => simp [blockTraces, MethodTrace.toTrace, atBlock, blockParamOf, blockTracesOf_eq, traces]

end Racer
