import Racer.Collectors.Admitted
import Racer.Pipeline.Collecting

namespace Racer

/-- Neither a constant that is called like `bool`, nor a class object of a class of which
`to_rbs_type` takes the values apart. -/
structure ConstantInstance.Ordinary (c : ConstantInstance) : Prop where
  notBool : c.name ≠ "bool"
  object : c.singleton = true → c.literal = false ∧ c.name ≠ "Array" ∧ c.name ≠ "Hash"

section
variable {κ : Type} {h : Hierarchy κ} {env : Environment}

theorem ConstantInstance.Regular.inner {c d : ConstantInstance} {u : List ConstantInstance} (regular : c.Regular h)
    (generic : u ∈ c.genericArguments) : u ≠ [] ∧ (d ∈ u → d.Regular h) := by
  cases regular with
  | plain => cases generic
  | array full types =>
    cases List.mem_singleton.mp generic
    exact ⟨full, types d⟩
  | hash fullKeys fullValues keys values =>
    rcases List.mem_pair.mp generic with rfl | rfl
    · exact ⟨fullKeys, keys d⟩
    · exact ⟨fullValues, values d⟩

/-- Every union in a regular type has members, which mention what the type mentions. -/
theorem ConstantInstance.Regular.nested {c : ConstantInstance} (regular : c.Regular h) {union : List ConstantInstance}
    (within : UnionIn [c] union) : union ≠ [] ∧ ∀ d ∈ union, d.Regular h ∧ ∀ n ∈ d.names, n ∈ c.names := by
  induction within with
  | self =>
    refine ⟨List.cons_ne_nil _ _, fun d member => ?_⟩
    rw [List.mem_singleton.mp member]
    exact ⟨regular, fun _ => id⟩
  | @nested union e u _ member generic ih =>
    obtain ⟨inside, names⟩ := ih.2 e member
    refine ⟨(inside.inner (d := e) generic).1, fun d there => ⟨(inside.inner generic).2 there, fun n mentioned => ?_⟩⟩
    exact names n (ConstantInstance.mem_names.mpr (.inr ⟨u, generic, d, there, mentioned⟩))

/-- What the tracer records is taken for what it is. -/
theorem ConstantInstance.Regular.unmistaken (array : finalName h h.cArray = "Array")
    (hash : finalName h h.cHash = "Hash") {c : ConstantInstance} (regular : c.Regular h)
    (ordinary : ∀ union, UnionIn [c] union → ∀ d ∈ union, d.Ordinary)
    (names : ∀ n ∈ c.names, ∃ v, validName env n = .ok v) : c.Unmistaken env := by
  intro union within d member
  obtain ⟨own, mentions⟩ := (regular.nested within).2 d member
  obtain ⟨notBool, object⟩ := ordinary union within d member
  refine ⟨?_, fun u generic => (own.inner (d := d) generic).1,
    fun _ => names d.name (mentions d.name (ConstantInstance.mem_names.mpr (.inl rfl))), notBool, object⟩
  cases own with
  | plain => exact .inr (.inr rfl)
  | array _ _ => exact .inl ⟨array, rfl⟩
  | hash _ _ _ _ => exact .inr (.inl ⟨hash, rfl⟩)

theorem SingleParameters.slots {params : List Parameter} (single : SingleParameters params) :
    FunctionParameters.SingleSlots (params.map Parameter.toParam) :=
  List.pairwise_map.mpr single

theorem regular_of_params {params : List Parameter} (regular : ∀ p ∈ params, p.typeName.Regular h)
    {c : ConstantInstance} (member : c ∈ (params.map Parameter.toParam).flatMap fun p =>
      p.typeName :: p.typeName.genericArguments.flatten) :
    c.Regular h ∧ ∀ n ∈ c.names, n ∈ params.flatMap (·.typeName.names) := by
  rw [List.flatMap_map] at member
  obtain ⟨p, inside, here⟩ := List.mem_flatMap.mp member
  have own := regular p inside
  rcases List.mem_cons.mp here with rfl | generic
  · exact ⟨own, fun n mentioned => List.mem_flatMap.mpr ⟨p, inside, mentioned⟩⟩
  · obtain ⟨u, union, there⟩ := List.mem_flatten.mp generic
    refine ⟨(own.inner union).2 there, fun n mentioned => List.mem_flatMap.mpr ⟨p, inside, ?_⟩⟩
    exact ConstantInstance.mem_names.mpr (.inr ⟨u, union, c, there, mentioned⟩)

theorem mem_blockTracesMentions {traces : List ReturnTrace} {r : ReturnTrace} {n : String} (member : r ∈ traces)
    (mentioned : n ∈ r.blockTraceMentions) : n ∈ blockTracesMentions traces := by
  induction traces with
  | nil => cases member
  | cons t traces ih =>
    rw [blockTracesMentions]
    rcases List.mem_cons.mp member with rfl | later
    · exact List.mem_append_left _ mentioned
    · exact List.mem_append_right _ (ih later)

/-- The calls of the block of a decoded trace are those that the tracer has recorded. -/
theorem MethodTrace.calls {m : MethodTrace} {b : Trace.BlockParam Trace.BlockTrace} (block : b ∈ m.toTrace.blockParam) :
    ∃ recorded, m.trace.blockParam = some recorded ∧ b.traces = recorded.blockTraces.map ReturnTrace.toBlockTrace ∧
      ∀ r ∈ recorded.blockTraces, r ∈ m.trace.nodes ∧ ∀ n ∈ r.blockTraceMentions, n ∈ m.trace.mentions := by
  have decoded : blockParamOf m.trace.blockParam = some b := block
  cases atBlock : m.trace.blockParam with
  | none =>
    rw [atBlock] at decoded
    cases decoded
  | some recorded =>
    obtain ⟨name, tracepointId, traces, stack⟩ := recorded
    rw [atBlock] at decoded
    cases decoded
    refine ⟨_, rfl, blockTracesOf_eq traces, fun r member => ⟨?_, fun n mentioned => ?_⟩⟩
    · rw [ReturnTrace.mem_nodes, mem_blockNodes]
      exact .inr ⟨_, atBlock, .inl ⟨r, member, ReturnTrace.mem_nodes.mpr (.inl rfl)⟩⟩
    · rw [ReturnTrace.mentions, atBlock]
      exact List.mem_append_left _ (List.mem_append_right _ (mem_blockTracesMentions member mentioned))

/-- The constants of a decoded trace are regular, and the tracer has announced what they mention. -/
theorem MethodTrace.regular {m : MethodTrace} (shaped : ∀ n ∈ m.trace.nodes, Shapes.Shaped h True n) :
    ∀ c ∈ m.toTrace.instances, c.Regular h ∧ ∀ n ∈ c.names, n ∈ m.trace.mentions := by
  have typed {t : ReturnTrace} (own : Shapes.Shaped h True t) : (∀ p ∈ t.params, p.typeName.Regular h) ∧
      t.returnType.Regular h ∧ ∀ i ∈ t.blockSelfType, i.Regular h := by
    have all := own.regular
    simp only [ReturnTrace.recordedTypes, ReturnTrace.types, List.forall_mem_append, List.forall_mem_cons,
      List.forall_mem_map, Option.mem_toList] at all
    exact ⟨all.1.2, all.2.1, all.2.2⟩
  obtain ⟨params, returnType, _⟩ := typed (shaped m.trace (ReturnTrace.mem_nodes.mpr (.inl rfl)))
  have mentions {n : String} (mentioned : n ∈ m.trace.returnType.names ∨
      n ∈ m.trace.params.flatMap (·.typeName.names)) : n ∈ m.trace.mentions := by
    simp only [ReturnTrace.mentions, List.mem_append]
    tauto
  intro c member
  simp only [Trace.instances, List.mem_append, List.mem_cons, List.mem_flatMap (l := List.flatMap _ _)] at member
  rcases member with param | rfl | ⟨x, call, here⟩
  · obtain ⟨regular, names⟩ := regular_of_params params param
    exact ⟨regular, fun n mentioned => mentions (.inr (names n mentioned))⟩
  · exact ⟨returnType, fun n mentioned => mentions (.inl mentioned)⟩
  · obtain ⟨b, block, call⟩ := List.mem_flatMap.mp call
    obtain ⟨recorded, _, traces, below⟩ := MethodTrace.calls (Option.mem_toList.mp block)
    rw [traces] at call
    obtain ⟨r, there, rfl⟩ := List.mem_map.mp call
    obtain ⟨node, mentioned⟩ := below r there
    obtain ⟨params, returnType, selfType⟩ := typed (shaped r node)
    rw [toBlockTrace_eq] at here
    simp only [Trace.BlockTrace.instances, List.mem_append, List.mem_cons, Option.mem_toList] at here
    have own : r.blockTraceMentions = r.params.flatMap (·.typeName.names) ++ r.returnType.names ++
        r.blockSelfType.toList.flatMap (·.names) ++ blockMentions r.blockParam := by
      cases r
      rfl
    simp only [own, List.mem_append] at mentioned
    rcases here with param | rfl | self
    · obtain ⟨regular, names⟩ := regular_of_params params param
      exact ⟨regular, fun n inside => mentioned n (.inl (.inl (.inl (names n inside))))⟩
    · exact ⟨returnType, fun n inside => mentioned n (.inl (.inl (.inr inside)))⟩
    · refine ⟨selfType c self, fun n inside => mentioned n (.inl (.inr ?_))⟩
      exact List.mem_flatMap.mpr ⟨c, Option.mem_toList.mpr self, inside⟩

end

end Racer

namespace Racer.Pipeline
open Announced Announcements Outcome Transition

/-! Whether the generated signatures allow the calls of the traced program. -/

section
variable {κ : Type} [DecidableEq κ] [Fintype κ] {h : Hierarchy κ} {write : List Json → Bytes}
  {parse : Bytes → Option (List Json)} {s : System κ}

theorem shapes_of_run (run : Run (Reported h write parse) {} s) : Shapes.Invariant h True s.tracer := by
  refine run.invariant (I := fun s => Shapes.Invariant h True s.tracer) (fun _ _ inv ⟨event, admits, step⟩ => ?_) .init
  cases step with
  | start _ _ _ | stop _ | flushStop _ => exact inv.step (fun _ => (admits _ rfl).2) ⟨0, rfl⟩
  | event _ _ step => exact inv.step (fun _ => (admits _ rfl).2) step
  | flushClear _ => exact ⟨inv.named, inv.shaped⟩
  | session _ _ | read _ _ _ _ _ _ => exact inv

omit [Fintype κ] in
/-- What a queued trace mentions has been announced, and its announcement validated. -/
theorem validName_mentioned (anchored : Anchored h) (traced : Traced h s.tracer) {traces : List MethodTrace}
    (queue : traces.map (·.trace) = s.tracer.queue) {env : Environment} {collector : RBSCollector}
    (collected : collectAll env (traces.map (·.toTrace)) = .ok collector) {m : MethodTrace} (member : m ∈ traces)
    {n : String} (mentioned : n ∈ m.trace.mentions) : ∃ v, validName env n = .ok v := by
  have ordered := (traced.announced anchored).ordered
  rw [← queue] at ordered
  have announces := ordered.announced (List.mem_flatMap.mpr ⟨m.trace, List.mem_map_of_mem member, mentioned⟩)
  refine validName_announced collected ?_
  rw [announced, List.flatMap_map, List.map_flatMap]
  rwa [List.flatMap_map] at announces

omit [Fintype κ] in
/-- The traces of the tracer are what the signatures are sound for. -/
theorem observable_of_shapes (array : finalName h h.cArray = "Array") (hash : finalName h h.cHash = "Hash")
    {env : Environment} (traced : Traced h s.tracer) (shapes : Shapes.Invariant h True s.tracer)
    {traces : List MethodTrace}
    (queued : ∀ m ∈ traces, m.trace ∈ s.tracer.queue)
    (names : ∀ m ∈ traces, ∀ n ∈ m.trace.mentions, ∃ v, validName env n = .ok v)
    (ordinary : ∀ m ∈ traces, ∀ c ∈ m.toTrace.instances, ∀ union, UnionIn [c] union → ∀ d ∈ union, d.Ordinary) :
    Observable env (traces.map (·.toTrace)) := by
  have shaped {m : MethodTrace} (member : m ∈ traces) : ∀ n ∈ m.trace.nodes, Shapes.Shaped h True n :=
    fun n below => shapes.shaped n (Blocks.mem_nodes_of_queue (queued m member) below)
  have own (m : MethodTrace) : m.trace ∈ m.trace.nodes := ReturnTrace.mem_nodes.mpr (.inl rfl)
  refine ⟨List.forall_mem_map.mpr fun m member c inside => ?_, List.forall_mem_map.mpr fun m member => ?_,
    List.forall_mem_map.mpr fun m member b block => ?_⟩
  · obtain ⟨regular, mentions⟩ := MethodTrace.regular (shaped member) c inside
    exact regular.unmistaken array hash (ordinary m member c inside) fun n named => names m member n (mentions n named)
  · exact ((shaped member m.trace (own m)).single trivial).slots
  · obtain ⟨recorded, atBlock, calls, below⟩ := MethodTrace.calls block
    have kept := traced.blocks.kept m.trace (Blocks.mem_nodes_of_queue (queued m member) (own m)) recorded atBlock
    refine ⟨by simpa [calls] using kept.recorded, fun x call => ?_⟩
    rw [calls] at call
    obtain ⟨r, there, rfl⟩ := List.mem_map.mp call
    rw [toBlockTrace_eq]
    exact ((shaped member r (below r there).1).single trivial).slots

end

/-- The message of the call with an array and a hash. -/
def listArray : List Json :=
  [.string "run", .int 1, .int 0, .string "Object", .boolean false, .int 0, .string "C", .boolean false, .int 0, .null,
    .int 5, .string "C", .boolean false, .int 0, .null, .int 0, .int 0, .int 0, .string "Object", .boolean false,
    .int 1, .null, .int 0, .int 0, .int 0, .string "A", .boolean false, .int 0, .null, .int 1, .string "C", .int 0,
    .int 0, .string "Array", .boolean false, .int 1, .null, .int 0, .int 0, .int 0, .string "Hash", .boolean false,
    .int 1, .null, .int 0, .int 0, .int 0, .int 2, .string "list", .int 0, .string "Array", .boolean false, .int 1,
    .int 2, .string "Object", .boolean false, .int 0, .string "A", .boolean true, .int 0, .string "of", .int 3,
    .string "Hash", .boolean false, .int 2, .int 1, .string "Object", .boolean false, .int 0, .int 1, .string "Array",
    .boolean false, .int 1, .int 2, .string "Object", .boolean false, .int 0, .string "A", .boolean true, .int 0,
    .boolean false]

def listTrace : Trace where
  methodOwner := { name := "C" }
  methodCallee := none
  methodName := "run"
  methodKind := .SINGLETON
  methodVisibility := .PUBLIC
  returnType := { name := "Object" }
  params :=
    [{ name := some "list", typeName := Shapes.listType, type := .REQUIRED },
      { name := some "of", typeName := Shapes.listHashType, type := .KEYWORD_REQUIRED }]
  blockParam := none
  constantUpdates :=
    [{ name := "C" }, { name := "Object", type := .CLASS }, { name := "A", includedModules := ["C"] },
      { name := "Array", type := .CLASS }, { name := "Hash", type := .CLASS }]

instance (c : ConstantInstance) : Decidable c.Ordinary :=
  decidable_of_iff (c.name ≠ "bool" ∧ (c.singleton = true → c.literal = false ∧ c.name ≠ "Array" ∧ c.name ≠ "Hash"))
    ⟨fun ⟨notBool, object⟩ => ⟨notBool, object⟩, fun ⟨notBool, object⟩ => ⟨notBool, object⟩⟩

/-- All unions in the types of this trace. -/
def listUnions : List (List ConstantInstance) :=
  listTrace.instances.map ([·]) ++ Shapes.listType.genericArguments ++ Shapes.listHashType.genericArguments

theorem listTrace_ordinary : ∀ c ∈ listTrace.instances, ∀ union, UnionIn [c] union → ∀ d ∈ union, d.Ordinary := by
  intro c member union within
  have closed : ∀ u ∈ listUnions, ∀ c ∈ u, ∀ v ∈ c.genericArguments, v ∈ listUnions := by decide +kernel
  have ordinary : ∀ u ∈ listUnions, ∀ d ∈ u, d.Ordinary := by decide +kernel
  refine ordinary union (within.mem ?_ closed)
  exact List.mem_append_left _ (List.mem_append_left _ (List.mem_map_of_mem member))

end Racer.Pipeline
