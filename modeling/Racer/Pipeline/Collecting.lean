import Racer.Collectors.Collected
import Racer.Pipeline.Delivered

namespace Racer.Pipeline
open Announced Announcements Transition

/-! What the collectors are given, where the threads of a process push in turn. -/

section
variable {κ : Type}

/-- The traces arrive session by session. -/
structure Turns (s : System κ) : Prop where
  received : ∃ n, (∀ j, n ≤ j → (s.readers j).pushed = []) ∧
    s.received = (List.range n).flatMap fun j => (s.readers j).pushed
  earlier : ∀ i j, i < j → (s.readers j).pushed ≠ [] → (s.readers i).thread.status = .returned

theorem flatMap_range_of_le {α : Type} {f : Nat → List α} {m n : Nat} (le : m ≤ n) (empty : ∀ k, m ≤ k → f k = []) :
    (List.range n).flatMap f = (List.range m).flatMap f := by
  obtain ⟨k, rfl⟩ := Nat.exists_eq_add_of_le le
  have rest : (List.range' m k).flatMap f = [] :=
    List.flatMap_eq_nil_iff.mpr fun j member => empty j (List.mem_range'_1.mp member).1
  rw [List.range_add, List.flatMap_append, ← List.range'_eq_map_range, rest, List.append_nil]

/-- Two bounds behind all pushes give the same traces. -/
theorem flatMap_range_eq {α : Type} {f : Nat → List α} {m n : Nat} (empty : ∀ k, m ≤ k → f k = [])
    (empty' : ∀ k, n ≤ k → f k = []) : (List.range n).flatMap f = (List.range m).flatMap f := by
  rcases Nat.le_total m n with le | le
  · exact flatMap_range_of_le le empty
  · exact (flatMap_range_of_le le empty').symm

theorem Turns.init : Turns ({} : System κ) :=
  ⟨⟨0, fun _ _ => rfl, rfl⟩, fun _ _ _ pushed => (pushed rfl).elim⟩

theorem Turns.congr {s s' : System κ} (turns : Turns s) (readers : s'.readers = s.readers)
    (received : s'.received = s.received) : Turns s' := by
  obtain ⟨same, earlier⟩ := turns
  rw [← readers] at same earlier
  exact ⟨received ▸ same, earlier⟩

/-- A read of a running thread. -/
theorem Turns.read {s : System κ} (turns : Turns s) {parse : Bytes → Option (List Json)} {j : Nat} {chunk : Bytes}
    (running : (s.readers j).thread.status = .running) (inTurn : InTurn s (s.read parse j chunk)) :
    Turns (s.read parse j chunk) := by
  obtain ⟨⟨n, empty, received⟩, earlier⟩ := turns
  let traces := ((s.readers j).thread.read (decodeData parse) chunk).2
  have own : ((s.read parse j chunk).readers j).pushed = (s.readers j).pushed ++ traces := by
    simp [System.read, traces]
  have others {i : Nat} (other : i ≠ j) : (s.read parse j chunk).readers i = s.readers i := by
    simp [System.read, other]
  have arrived : (s.read parse j chunk).received = s.received ++ traces := s.read_received parse j chunk
  -- a running thread keeps the later ones from pushing
  have later (k : Nat) (after : j < k) : (s.readers k).pushed = [] := by
    by_contra pushed
    rw [earlier j k after pushed] at running
    cases running
  by_cases nothing : traces = []
  · have same (i : Nat) : ((s.read parse j chunk).readers i).pushed = (s.readers i).pushed := by
      by_cases here : i = j
      · rw [here, own, nothing, List.append_nil]
      · rw [others here]
    refine ⟨⟨n, fun i le => (same i).trans (empty i le), ?_⟩, fun i k before pushed => ?_⟩
    · simp only [arrived, nothing, List.append_nil, received, same]
    · rw [same] at pushed
      have status := earlier i k before pushed
      have other : i ≠ j := by
        rintro rfl
        rw [status] at running
        cases running
      rw [others other]
      exact status
  · have turn := inTurn j (by rw [own]; simpa using nothing)
    refine ⟨⟨j + 1, fun k le => ?_, ?_⟩, fun i k before pushed => ?_⟩
    · rw [others (Nat.ne_of_gt le)]
      exact later k le
    · have before : (List.range j).flatMap (fun i => ((s.read parse j chunk).readers i).pushed) =
          (List.range j).flatMap fun i => (s.readers i).pushed :=
        List.flatMap_congr fun i member => by rw [others (Nat.ne_of_lt (List.mem_range.mp member))]
      rw [arrived, received, flatMap_range_eq (fun k le => later k le) empty, List.range_succ, List.flatMap_append,
        List.flatMap_append, before, List.flatMap_singleton, List.flatMap_singleton, own, List.append_assoc]
    · by_cases here : k = j
      · rw [others (here ▸ Nat.ne_of_lt before)]
        exact turn i (here ▸ before)
      · rw [others here] at pushed
        have status := earlier i k before pushed
        have other : i ≠ j := by
          rintro rfl
          rw [status] at running
          cases running
        rw [others other]
        exact status

section
variable [DecidableEq κ] [Fintype κ] {h : Hierarchy κ} {write : List Json → Bytes}
  {parse : Bytes → Option (List Json)} {s s' : System κ}

theorem Turns.step (turns : Turns s) (step : Guarded (Admitted h write parse) InTurn s s') : Turns s' := by
  obtain ⟨⟨event, -, step⟩, inTurn⟩ := step
  cases step with
  | read j chunk atJ running nonempty next => exact turns.read running inTurn
  | _ => exact turns.congr rfl rfl

end

/-- The pushes of the threads are a first part of all traces, where each thread has a first
part of its own and the earlier ones have all of theirs. -/
theorem flatMap_prefix {α : Type} {pushed parts : Nat → List α} (each : ∀ j, pushed j <+: parts j)
    (earlier : ∀ i j, i < j → pushed j ≠ [] → pushed i = parts i) (n : Nat) :
    (List.range n).flatMap pushed <+: (List.range n).flatMap parts := by
  induction n with
  | zero => exact List.prefix_rfl
  | succ n ih =>
    simp only [List.range_succ, List.flatMap_append, List.flatMap_singleton]
    by_cases nothing : pushed n = []
    · rw [nothing, List.append_nil]
      exact ih.trans (List.prefix_append _ _)
    · have same : (List.range n).flatMap pushed = (List.range n).flatMap parts :=
        List.flatMap_congr fun i member => earlier i n (List.mem_range.mp member) nothing
      rw [same]
      exact (List.prefix_append_right_inj _).mpr (each n)

end

section
variable {κ : Type} [DecidableEq κ] [Fintype κ] {h : Hierarchy κ} {write : List Json → Bytes}
  {parse : Bytes → Option (List Json)} {s : System κ}

/-- What the collectors look up has been announced where the tracer has announced its names. -/
theorem ordered_decoded {traces : List MethodTrace}
    (ordered : Ordered ReturnTrace.announces ReturnTrace.mentions (traces.map (·.trace))) :
    Ordered Trace.announces Trace.uses (traces.map (·.toTrace)) := by
  refine Ordered.map (ordered.of_map.mono fun m _ n used => ?_)
  have owner : n = m.toTrace.owner.name := List.mem_singleton.mp used
  simp only [Function.comp_apply, ReturnTrace.mentions, List.mem_append, List.mem_flatMap, Option.mem_toList]
  rw [owner, Trace.owner]
  cases callee : m.trace.methodCallee with
  | none =>
    simp only [MethodTrace.toTrace, callee, Option.getD_none]
    exact .inl (.inl (.inl (.inl (.inl (ConstantInstance.mem_names.mpr (.inl rfl))))))
  | some i =>
    simp only [MethodTrace.toTrace, callee, Option.getD_some]
    exact .inl (.inl (.inl (.inl (.inr ⟨i, rfl, ConstantInstance.mem_names.mpr (.inl rfl)⟩))))

/-- What has arrived are the first of the traces that the tracer has queued, and all of them
when the threads have returned. -/
structure Arrived (s : System κ) (traces : List MethodTrace) : Prop where
  queue : traces.map (·.trace) = s.tracer.queue
  first : s.received <+: traces.map (·.toTrace)
  whole : (∀ j < s.session.channels.length, (s.readers j).thread.status = .returned) →
    s.received = traces.map (·.toTrace)

theorem exists_arrived (run : Run (Guarded (Admitted h write parse) InTurn) {} s) (prints : PrintsQueue write parse s) :
    Traced h s.tracer ∧ ∃ traces, Arrived s traces := by
  have delivered : Run (Admitted h write parse) {} s := Relation.ReflTransGen.mono (fun _ _ step => step.1) _ _ run
  obtain ⟨sessions, inv⟩ := exists_invariant delivered prints
  obtain ⟨named, same⟩ := inv.methodTraces
  have length := inv.length_eq same
  let parts (j : Nat) : List Trace := (named[j]?.getD []).map (·.toTrace)
  -- the thread of a socket that is not there has read nothing
  have unread (j : Nat) (absent : named.length ≤ j) : s.readers j = { thread := { connection := j } } :=
    inv.unread j (List.getElem?_eq_none (length ▸ absent))
  have delivers (j : Nat) (inside : j < named.length) : ∃ ch, Delivers (s.readers j) ch (parts j) := by
    have here : j < s.session.channels.length := length ▸ inside
    have atNamed := List.getElem?_eq_getElem inside
    refine ⟨s.session.channels[j], ?_⟩
    simp only [parts, atNamed, Option.getD_some]
    exact inv.delivers prints same atNamed (List.getElem?_eq_getElem here)
  have each (j : Nat) : (s.readers j).pushed <+: parts j := by
    rcases Nat.lt_or_ge j named.length with inside | absent
    · obtain ⟨ch, delivers⟩ := delivers j inside
      exact delivers.pushed
    · rw [unread j absent]
      exact List.nil_prefix
  have whole (j : Nat) (returned : (s.readers j).thread.status = .returned) : (s.readers j).pushed = parts j := by
    rcases Nat.lt_or_ge j named.length with inside | absent
    · obtain ⟨ch, delivers⟩ := delivers j inside
      exact delivers.returned returned
    · rw [unread j absent] at returned
      cases returned
  have turns : Turns s := run.invariant (fun _ _ turns step => turns.step step) .init
  obtain ⟨n, empty, received⟩ := turns.received
  have arrived : s.received = (List.range named.length).flatMap fun j => (s.readers j).pushed := by
    rw [received]
    exact flatMap_range_eq (fun j absent => by rw [unread j absent]) empty
  have all : (List.range named.length).flatMap parts = named.flatten.map (·.toTrace) := by
    have entries : (List.range named.length).map parts = named.map (List.map (·.toTrace)) := by
      refine List.ext_getElem (by simp) fun j inside _ => ?_
      have here : j < named.length := by simpa using inside
      simp [parts, List.getElem?_eq_getElem here]
    rw [List.flatMap_def, entries, List.map_flatten]
  refine ⟨inv.traced, named.flatten, ?_, ?_, fun returned => ?_⟩
  · rw [List.map_flatten, same, inv.queue]
  · rw [arrived, ← all]
    exact flatMap_prefix each (fun i j before pushed => whole i (turns.earlier i j before pushed)) named.length
  · rw [arrived, ← all]
    exact List.flatMap_congr fun j inside => whole j (returned j (length ▸ List.mem_range.mp inside))

/-- As long as the threads of a process push in turn, what they have pushed are the first of
the traces that the tracer has queued, and all of them when the threads have returned.
Collecting them raises nothing, and every one of them is filed under its owner,
or another one with its signature. -/
theorem recorded_traces_collected (anchored : Anchored h) {env : Environment}
    (run : Run (Guarded (Admitted h write parse) InTurn) {} s) (prints : PrintsQueue write parse s)
    (valid : ∀ x ∈ s.received, NamesValid env x) :
    ∃ traces : List MethodTrace, traces.map (·.trace) = s.tracer.queue ∧
      s.received <+: traces.map (·.toTrace) ∧
        ((∀ j < s.session.channels.length, (s.readers j).thread.status = .returned) →
          s.received = traces.map (·.toTrace)) ∧
          ∃ collector, collectAll env s.received = .ok collector ∧
            ∀ x ∈ s.received, validMethodName x.methodName = true →
              ∃ u ∈ collector.traces x.owner.name x.methodKind x.methodName, u.signature = x.signature := by
  obtain ⟨traced, traces, queue, first, whole⟩ := exists_arrived run prints
  have ordered : Ordered Trace.announces Trace.uses s.received := by
    have announced := (traced.announced anchored).ordered
    rw [← queue] at announced
    obtain ⟨rest, split⟩ := first
    have decoded := ordered_decoded announced
    rw [← split] at decoded
    exact decoded.prefix
  obtain ⟨collector, collected⟩ := collectAll_total valid ordered
  refine ⟨traces, queue, first, whole, collector, collected, fun x member method => ?_⟩
  have own : x ∈ s.received.filter (Trace.isOf x.owner.name x.methodKind x.methodName) :=
    List.mem_filter.mpr ⟨member, Trace.isOf_iff.mpr ⟨method, rfl, rfl, rfl⟩⟩
  obtain ⟨u, kept, signature⟩ := exists_firstOfEach own
  exact ⟨u, (collectAll_collected collected).filed _ _ _ ▸ kept, signature⟩

end

/-- The module function of the flat program is called once, and its trace is collected. -/
theorem recorded_traces_collected_module_call : ∃ s : System (Sample × Bool), s.received = [moduleTrace] ∧
    ∃ traces : List MethodTrace, traces.map (·.trace) = s.tracer.queue ∧
      s.received <+: traces.map (·.toTrace) ∧
        ((∀ j < s.session.channels.length, (s.readers j).thread.status = .returned) →
          s.received = traces.map (·.toTrace)) ∧
          ∃ collector, collectAll (.ofDecls fun _ => none) s.received = .ok collector ∧
            ∀ x ∈ s.received, validMethodName x.methodName = true →
              ∃ u ∈ collector.traces x.owner.name x.methodKind x.methodName, u.signature = x.signature := by
  obtain ⟨s, run, prints, -, -, -, received⟩ := exists_moduleCall_session
  refine ⟨s, received, recorded_traces_collected flatSample_anchored run prints fun x member => ?_⟩
  rw [received, List.mem_singleton] at member
  subst member
  have ensured : ∀ c ∈ moduleTrace.constantUpdates,
      (ensureValidNames (.ofDecls fun _ => none) c).toOption.isSome = true := by decide +kernel
  refine ⟨fun c update => ?_, by decide +kernel⟩
  have some := ensured c update
  cases valid : ensureValidNames (.ofDecls fun _ => none) c with
  | ok v => exact ⟨v, rfl⟩
  | error e =>
    rw [valid] at some
    cases some

end Racer.Pipeline
