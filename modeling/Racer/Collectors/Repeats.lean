import Racer.Collectors.Accepted
import Racer.Collectors.Closed

namespace Racer
open Outcome

/-! Which traces change nothing any more. -/

/-- All constants that the trace announces have been announced, and a call of its method
with the same parameters, result and block has been traced. -/
structure Trace.Repeats (traces : List Trace) (t : Trace) : Prop where
  constants : ∀ c ∈ t.constantUpdates, c ∈ announced traces
  called : validMethodName t.methodName = true →
    ∃ u ∈ traces, u.isOf t.owner.name t.methodKind t.methodName = true ∧ u.signature = t.signature

section
variable {env : Environment} {traces : List Trace} {s : RBSCollector} {t : Trace}

/-- The first announcement of a constant has filled its entry. -/
theorem Collected.push_announced {constants : List Constant} (collected : Collected env constants traces s)
    {constant valid : Constant} (member : constant ∈ constants) (ensured : ensureValidNames env constant = .ok valid) :
    pushConstantToResults env s valid = s := by
  refine pushConstantToResults_known ?_
  rw [collected.isSome]
  exact announcement_isSome_iff.mpr ⟨constant, member, valid, ensured, rfl⟩

theorem Collected.file_repeated {constants : List Constant} (collected : Collected env constants traces s)
    (called : validMethodName t.methodName = true →
      ∃ u ∈ traces, u.isOf t.owner.name t.methodKind t.methodName = true ∧ u.signature = t.signature) :
    s.file t = .ok s := by
  unfold RBSCollector.file
  split_ifs with valid
  · obtain ⟨u, earlier, own, same⟩ := called valid
    obtain ⟨v, first, signature⟩ := exists_firstOfEach (List.mem_filter.mpr ⟨earlier, own⟩)
    rw [← collected.filed] at first
    cases found : s.results.get? t.owner.name with
    | none =>
      rw [RBSCollector.traces, found] at first
      cases first
    | some owner =>
      rw [RBSCollector.traces, found, Option.bind_some] at first
      have again : (((owner.methods t.methodKind).get? t.methodName).getD []).any (·.signature = t.signature) = true :=
        List.any_eq_true.mpr ⟨v, first, decide_eq_true (signature.trans same)⟩
      simp only [again, if_true]
      rfl
  · rfl

theorem Trace.Repeats.collect (repeats : t.Repeats traces) (run : collectAll env traces = .ok s) :
    s.collect env t = .ok s := by
  have collected := collectAll_collected run
  have pushed (updates : List Constant) (known : ∀ c ∈ updates, c ∈ announced traces) :
      updates.foldlM (fun s constant => do
        let constant ← ensureValidNames env constant
        pure (pushConstantToResults env s constant)) s = Except.ok s := by
    induction updates with
    | nil => rfl
    | cons c updates ih =>
      obtain ⟨first, rest⟩ := List.forall_mem_cons.mp known
      obtain ⟨valid, ensured⟩ := collectAll_ensured run c first
      rw [List.foldlM_cons]
      have same : Except.ok (pushConstantToResults env s valid) = (Except.ok s : Except RubyError RBSCollector) :=
        congrArg _ (collected.push_announced first ensured)
      exact bind_eq_ok.mpr ⟨s, bind_eq_ok.mpr ⟨valid, ensured, same⟩, ih rest⟩
  rw [RBSCollector.collect]
  exact bind_eq_ok.mpr ⟨s, pushed t.constantUpdates repeats.constants, collected.file_repeated repeats.called⟩

end

/-- Repeated calls leave the collector as it is, wherever they come in. -/
theorem repeated_traces_ignored {env : Environment} {traces again later : List Trace}
    (repeats : ∀ t ∈ again, t.Repeats traces) :
    collectAll env (traces ++ again ++ later) = collectAll env (traces ++ later) := by
  have ignored {s : RBSCollector} (run : collectAll env traces = .ok s) :
      again.foldlM (RBSCollector.collect env) s = .ok s := by
    induction again with
    | nil => rfl
    | cons t again ih =>
      obtain ⟨first, rest⟩ := List.forall_mem_cons.mp repeats
      rw [List.foldlM_cons]
      exact bind_eq_ok.mpr ⟨s, first.collect run, ih rest⟩
  rw [collectAll, collectAll, List.append_assoc, List.foldlM_append, List.foldlM_append, ← collectAll]
  cases run : collectAll env traces with
  | error e => rfl
  | ok s =>
    have whole : (again ++ later).foldlM (RBSCollector.collect env) s = later.foldlM (RBSCollector.collect env) s := by
      rw [List.foldlM_append, ignored run]
      rfl
    exact whole

/-- Two more calls of `read`, the second of which announces everything again. -/
theorem repeated_traces_ignored_read :
    collectAll (.ofDecls fun _ => none)
        (["IO"].map callOfRead ++ [{ callOfRead "IO" with constantUpdates := [] }, callOfRead "IO"] ++
          [callOfRead "NilClass"]) =
      collectAll (.ofDecls fun _ => none) (["IO"].map callOfRead ++ [callOfRead "NilClass"]) := by
  refine repeated_traces_ignored fun t member => ?_
  have called : validMethodName (callOfRead "IO").methodName = true →
      ∃ u ∈ ["IO"].map callOfRead, u.isOf (callOfRead "IO").owner.name .INSTANCE "read" = true ∧
        u.signature = (callOfRead "IO").signature :=
    fun _ => ⟨callOfRead "IO", List.mem_singleton_self _, by decide +kernel, rfl⟩
  rcases List.mem_pair.mp member with rfl | rfl
  · exact ⟨List.forall_mem_nil _, called⟩
  · exact ⟨fun c update => List.mem_flatMap.mpr ⟨_, List.mem_singleton_self _, update⟩, called⟩

end Racer
