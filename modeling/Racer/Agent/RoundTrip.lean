import Racer.Agent.Shift

namespace Racer
open PrefixReader

/-! The fields of the C record, one by one, as the Ruby object is to hold them. -/

def Parameter.toParam (p : Parameter) : Trace.Param :=
  { name := p.name, typeName := p.typeName, type := p.paramType }

mutual

def blockParamOf : Option (BlockParameter ReturnTrace) →
    Option (Trace.BlockParam Trace.BlockTrace)
  | none => none
  | some { name, blockTraces, .. } => some { name, traces := blockTracesOf blockTraces }

def blockTracesOf : List ReturnTrace → List Trace.BlockTrace
  | [] => []
  | t :: traces => t.toBlockTrace :: blockTracesOf traces

def ReturnTrace.toBlockTrace (t : ReturnTrace) : Trace.BlockTrace :=
  match t with
  | { blockSelfType, returnType, params, blockParam, .. } =>
    { selfType := blockSelfType, returnType, params := params.map Parameter.toParam,
      blockParam := blockParamOf blockParam }

end

theorem blockTracesOf_eq (traces : List ReturnTrace) :
    blockTracesOf traces = traces.map ReturnTrace.toBlockTrace := by
  induction traces with
  | nil => rfl
  | cons t traces ih => rw [List.map_cons, ← ih, blockTracesOf]

theorem toBlockTrace_eq (t : ReturnTrace) :
    t.toBlockTrace = ⟨t.blockSelfType, t.returnType, t.params.map Parameter.toParam,
      blockParamOf t.blockParam⟩ := by
  cases t
  rfl

mutual

/-- Every block trace, at any depth, has its block self type. -/
def blockParamHasSelf : Option (BlockParameter ReturnTrace) → Prop
  | none => True
  | some { blockTraces, name := _, .. } => blockTracesHaveSelf blockTraces

def blockTracesHaveSelf : List ReturnTrace → Prop
  | [] => True
  | t :: traces => t.HasSelf ∧ blockTracesHaveSelf traces

def ReturnTrace.HasSelf (t : ReturnTrace) : Prop :=
  match t with
  | { blockSelfType, blockParam, .. } => blockSelfType.isSome ∧ blockParamHasSelf blockParam

end

/-- A trace as the worker pops it: named, with a self type on every block
trace. Nothing else can stop the writer. -/
structure MethodTrace where
  trace : ReturnTrace
  methodName : String
  named : trace.methodName = some methodName
  blocksHaveSelf : blockParamHasSelf trace.blockParam

def MethodTrace.toTrace (m : MethodTrace) : Trace :=
  { methodOwner := m.trace.methodOwner
    methodCallee := m.trace.methodCallee
    methodName := m.methodName
    methodKind := m.trace.methodKind
    methodVisibility := m.trace.methodVisibility
    returnType := m.trace.returnType
    params := m.trace.params.map Parameter.toParam
    blockParam := blockParamOf m.trace.blockParam
    constantUpdates := m.trace.constantUpdates }

theorem blockTracesHaveSelf_iff (traces : List ReturnTrace) :
    blockTracesHaveSelf traces ↔ ∀ t ∈ traces, t.HasSelf := by
  induction traces with
  | nil => simp [blockTracesHaveSelf]
  | cons t traces ih => rw [List.forall_mem_cons, ← ih, blockTracesHaveSelf]

theorem ReturnTrace.hasSelf_iff (t : ReturnTrace) :
    t.HasSelf ↔ t.blockSelfType.isSome ∧ blockParamHasSelf t.blockParam := by
  cases t
  rfl

/-! Single slots. -/

theorem reads_shiftString (s : String) : Reads shiftString [.string s] s := fun _ => rfl

theorem reads_shiftBoolean (b : Bool) : Reads shiftBoolean [.boolean b] b := fun _ => rfl

theorem reads_shiftInt (n : Int) : Reads shiftInt [.int n] n := fun _ => rfl

theorem reads_shiftOptionalString (name : Option String) :
    Reads shiftOptionalString [optionalString name] name := by
  intro rest
  cases name <;> rfl

theorem reads_shiftEnum {α : Type} {table : List α} {index : Nat} {entry : α}
    (atIndex : table[index]? = some entry) : Reads (shiftEnum table) [.int index] entry := by
  have found : fetch table index = some entry := by
    simpa only [fetch, Int.natCast_nonneg, if_true, Int.toNat_natCast] using atIndex
  exact Reads.bind (reads_shiftInt index) (Reads.give (by rw [found]; rfl))

theorem reads_kind (k : MethodKind) : Reads (shiftEnum Trace.KINDS) [.int k.index] k :=
  reads_shiftEnum (by cases k <;> rfl)

theorem reads_visibility (v : MethodVisibility) :
    Reads (shiftEnum Trace.VISIBILITIES) [.int v.index] v :=
  reads_shiftEnum (by cases v <;> rfl)

theorem reads_paramType (p : ParamType) : Reads (shiftEnum Trace.Param.TYPES) [.int p.index] p :=
  reads_shiftEnum (by cases p <;> rfl)

/-- A count followed by that many elements, the shape of every list in the
message. -/
theorem reads_shiftCounted {α γ : Type} {read : Reader Json α} {write : γ → List Json} {value : γ → α}
    (parts : List γ) (each : ∀ part ∈ parts, Reads read (write part) (value part)) :
    Reads (shiftCounted read) (.int parts.length :: parts.flatMap write) (parts.map value) :=
  Reads.bind (reads_shiftInt parts.length) (Reads.times parts each)

theorem reads_names (names : List String) :
    Reads (shiftCounted shiftString) (.int names.length :: names.map .string) names := by
  have read := reads_shiftCounted names (fun name _ => reads_shiftString name)
  rw [List.map_id', ← List.map_eq_flatMap] at read
  exact read

theorem reads_shiftConstant (c : Constant) : Reads shiftConstant (writeConstant c) c := by
  have type : fetch Trace.Constant.TYPES c.type.index = some c.type := by cases c.type <;> rfl
  have shape : writeConstant c = [.string c.name] ++ ([.boolean c.anonymous] ++ ([.int c.type.index] ++
      ([optionalString c.superclass] ++
      ((.int c.includedModules.length :: c.includedModules.map .string) ++
      ((.int c.prependedModules.length :: c.prependedModules.map .string) ++
      ((.int c.extendedModules.length :: c.extendedModules.map .string) ++ [])))))) := by
    simp [writeConstant]
  rw [shape]
  exact Reads.bind (reads_shiftString c.name) <| Reads.bind (reads_shiftBoolean c.anonymous) <|
    Reads.bind (reads_shiftInt c.type.index) <| Reads.bind (reads_shiftOptionalString c.superclass) <|
    Reads.bind (reads_names c.includedModules) <| Reads.bind (reads_names c.prependedModules) <|
    Reads.bind (reads_names c.extendedModules) <| Reads.bind (Reads.give type) (Reads.pure c)

theorem reads_shiftConstantUpdates (updates : List Constant) :
    Reads shiftConstantUpdates (.int updates.length :: updates.flatMap writeConstant) updates := by
  have read := reads_shiftCounted updates (fun c _ => reads_shiftConstant c)
  rw [List.map_id'] at read
  exact read

theorem length_le_flatMap {α β : Type} {f : α → List β} {xs : List α} {x : α} (member : x ∈ xs) :
    (f x).length ≤ (xs.flatMap f).length := by
  obtain ⟨before, after, rfl⟩ := List.append_of_mem member
  simp only [List.flatMap_append, List.flatMap_cons, List.length_append]
  omega

theorem three_le_length (a : ConstantInstance) : 3 ≤ (writeConstantInstance a).length := by
  rw [writeConstantInstance_eq, List.length_append]
  exact Nat.le_add_right 3 _

/-- The exact-prefix induction. Any fuel that bounds the number of elements
written bounds the depth as well. -/
theorem reads_shiftConstantInstance (a : ConstantInstance) :
    ∀ fuel, (writeConstantInstance a).length ≤ fuel →
      Reads (shiftConstantInstance fuel) (writeConstantInstance a) a := by
  induction a using ConstantInstance.union_induction with
  | step a ih =>
    obtain ⟨name, singleton, unions⟩ := a
    intro fuel bound
    have shape : writeConstantInstance ⟨name, singleton, unions⟩ = [.string name] ++ ([.boolean singleton] ++
        ((.int unions.length :: unions.flatMap
          (fun union => .int union.length :: union.flatMap writeConstantInstance)) ++ [])) := by
      simp [writeConstantInstance_eq]
    rw [shape] at bound ⊢
    cases fuel with
    | zero => simp at bound
    | succ fuel =>
      have each : ∀ union ∈ unions, Reads (shiftCounted (shiftConstantInstance fuel))
          (.int union.length :: union.flatMap writeConstantInstance) union := by
        intro union inUnions
        have members := reads_shiftCounted union fun i inUnion => ih union inUnions i inUnion fuel <| by
          have inner := length_le_flatMap (f := writeConstantInstance) inUnion
          have outer := length_le_flatMap
            (f := fun union => Json.int union.length :: union.flatMap writeConstantInstance) inUnions
          simp only [List.length_append, List.length_cons] at bound outer
          omega
        rwa [List.map_id'] at members
      have all := reads_shiftCounted unions each
      rw [List.map_id'] at all
      exact Reads.bind (reads_shiftString _) <| Reads.bind (reads_shiftBoolean _) <|
        Reads.bind all (Reads.pure _)

theorem reads_shiftParam (p : Parameter) {fuel : Nat} (bound : (writeParam p).length ≤ fuel) :
    Reads (shiftParam fuel) (writeParam p) p.toParam := by
  have shape : writeParam p = [optionalString p.name] ++ ([.int p.paramType.index] ++
      (writeConstantInstance p.typeName ++ [])) := by
    simp [writeParam]
  rw [shape] at bound ⊢
  simp only [List.length_append] at bound
  exact Reads.bind (reads_shiftOptionalString _) <| Reads.bind (reads_paramType _) <|
    Reads.bind (reads_shiftConstantInstance _ fuel (by omega)) (Reads.pure _)

/-- Block traces with their self types are written one behind the other. -/
theorem writeBlockTraces_flatMap {traces : List ReturnTrace} {write : ReturnTrace → List Json}
    (each : ∀ t ∈ traces, writeBlockTrace t = some (write t)) :
    writeBlockTraces traces = some (traces.flatMap write) := by
  induction traces with
  | nil => rfl
  | cons t traces ih =>
    have head := each t (by simp)
    have tail := ih (fun other member => each other (by simp [member]))
    obtain ⟨selfType, atSelf, head⟩ := Option.bind_eq_some_iff.mp head
    obtain ⟨params, atParams, head⟩ := Option.bind_eq_some_iff.mp head
    simp only [writeBlockTraces, atSelf, atParams, tail, List.flatMap_cons]
    exact congrArg (fun l => some (l ++ traces.flatMap write)) (Option.some.inj head)

/-- What the decoder owes to a written trace: the parameters and the block. -/
def ParamsRead (t : ReturnTrace) : Prop :=
  blockParamHasSelf t.blockParam → ∃ written, writeParams t = some written ∧
    ∀ fuel, written.length ≤ fuel →
      Reads (shiftParams fuel) written (t.params.map Parameter.toParam, blockParamOf t.blockParam)

theorem reads_shiftBlockTrace {t : ReturnTrace} (params : ParamsRead t) (self : t.HasSelf) :
    ∃ written, writeBlockTrace t = some written ∧ ∀ fuel, written.length ≤ fuel →
      Reads (shiftBlockTrace fuel) written t.toBlockTrace := by
  rw [ReturnTrace.hasSelf_iff] at self
  obtain ⟨selfType, atSelf⟩ := Option.isSome_iff_exists.mp self.1
  obtain ⟨written, atParams, read⟩ := params self.2
  refine ⟨writeConstantInstance selfType ++ (writeConstantInstance t.returnType ++ (written ++ [])), ?_, ?_⟩
  · simp [writeBlockTrace, atSelf, atParams]
  · intro fuel bound
    rw [toBlockTrace_eq, atSelf]
    have selfLength := three_le_length selfType
    have returnLength := three_le_length t.returnType
    simp only [List.length_append] at bound
    cases fuel with
    | zero => omega
    | succ fuel =>
      exact Reads.bind (reads_shiftConstantInstance _ fuel (by omega)) <|
        Reads.bind (reads_shiftConstantInstance _ fuel (by omega)) <|
        Reads.bind (read fuel (by omega)) (Reads.pure _)

theorem paramsRead (t : ReturnTrace) : ParamsRead t := by
  induction t using ReturnTrace.block_induction with
  | step t ih =>
    intro self
    have params (fuel : Nat) (bound : (t.params.flatMap writeParam).length ≤ fuel) :=
      reads_shiftCounted t.params fun p inParams =>
        reads_shiftParam p (Nat.le_trans (length_le_flatMap inParams) bound)
    rw [writeParams_eq]
    cases atBlock : t.blockParam with
    | none =>
      refine ⟨_, rfl, fun fuel bound => ?_⟩
      cases fuel with
      | zero => simp at bound
      | succ fuel =>
        simp only [List.length_append, List.length_cons] at bound ⊢
        exact Reads.bind (params fuel (by omega)) (Reads.bind (reads_shiftBoolean false) (Reads.pure _))
    | some b =>
      obtain ⟨name, tracepointId, traces, stack⟩ := b
      rw [atBlock] at self
      have selves := (blockTracesHaveSelf_iff traces).mp self
      have exists_written : ∀ c ∈ traces, ∃ written, writeBlockTrace c = some written ∧
          ∀ fuel, written.length ≤ fuel → Reads (shiftBlockTrace fuel) written c.toBlockTrace :=
        fun c member => reads_shiftBlockTrace ((ih _ atBlock).1 c member) (selves c member)
      let write (c : ReturnTrace) : List Json := (writeBlockTrace c).getD []
      have written : ∀ c ∈ traces, writeBlockTrace c = some (write c) := by
        intro c member
        obtain ⟨data, atData, _⟩ := exists_written c member
        simp only [write, atData, Option.getD_some]
      have block : writeBlockParam (some ⟨name, tracepointId, traces, stack⟩) =
          some ([.boolean true] ++ ([optionalString name] ++
            ((.int traces.length :: traces.flatMap write) ++ []))) := by
        simp [writeBlockParam, writeBlockTraces_flatMap written]
      rw [block]
      refine ⟨_, rfl, fun fuel bound => ?_⟩
      cases fuel with
      | zero => simp at bound
      | succ fuel =>
        simp only [List.length_append, List.length_cons] at bound ⊢
        have each : ∀ c ∈ traces, Reads (shiftBlockTrace fuel) (write c) c.toBlockTrace := by
          intro c member
          obtain ⟨data, atData, readData⟩ := exists_written c member
          have same := Option.some.inj ((written c member).symm.trans atData)
          have inner := length_le_flatMap (f := write) member
          subst same
          exact readData fuel (by omega)
        have read := reads_shiftCounted traces each
        rw [← blockTracesOf_eq] at read
        exact Reads.bind (params fuel (by omega)) <| Reads.bind (reads_shiftBoolean true) <|
          Reads.bind (reads_shiftOptionalString name) <| Reads.bind read (Reads.pure _)

theorem reads_shiftCallee (callee : Option ConstantInstance) {fuel : Nat}
    (bound : (writeCallee callee).length ≤ fuel) : Reads (shiftCallee fuel) (writeCallee callee) callee := by
  cases callee with
  | none => exact fun _ => rfl
  | some callee =>
    intro rest
    have read := reads_shiftConstantInstance callee fuel bound rest
    simp only [writeCallee, writeConstantInstance_eq, List.cons_append] at read ⊢
    simp only [shiftCallee, read]
    rfl

/-- The agent's shifts rebuild a trace from the array the worker writes for it. -/
theorem reads_shiftTrace (m : MethodTrace) :
    ∃ data, writeTrace m.trace = some data ∧ Reads (shiftTrace data.length) data m.toTrace := by
  obtain ⟨t, methodName, named, self⟩ := m
  obtain ⟨params, atParams, readParams⟩ := paramsRead t self
  obtain ⟨data, shape⟩ : ∃ data, data = [.string methodName] ++ ([.int t.methodKind.index] ++
    ([.int t.methodVisibility.index] ++ (writeConstantInstance t.returnType ++
    (writeConstantInstance t.methodOwner ++ (writeCallee t.methodCallee ++
    ((.int t.constantUpdates.length :: t.constantUpdates.flatMap writeConstant) ++ (params ++ []))))))) :=
    ⟨_, rfl⟩
  have written : writeTrace t = some data := by
    simp [writeTrace, named, atParams, shape]
  have length := congrArg List.length shape
  simp only [List.length_append] at length
  refine ⟨data, written, ?_⟩
  nth_rewrite 2 [shape]
  exact Reads.bind (reads_shiftString _) <| Reads.bind (reads_kind _) <|
    Reads.bind (reads_visibility _) <|
    Reads.bind (reads_shiftConstantInstance _ _ (by omega)) <|
    Reads.bind (reads_shiftConstantInstance _ _ (by omega)) <|
    Reads.bind (reads_shiftCallee _ (by omega)) <|
    Reads.bind (reads_shiftConstantUpdates _) <|
    Reads.bind (readParams _ (by omega)) (Reads.pure _)

/-- Decoding a message undoes encoding it: from the array the worker writes
for a popped trace, the agent's shifts rebuild that trace, and nothing is left. -/
theorem decodeMessage_writeTrace (m : MethodTrace) :
    ∃ data, writeTrace m.trace = some data ∧ decodeMessage data = some (m.toTrace, []) := by
  obtain ⟨data, written, read⟩ := reads_shiftTrace m
  exact ⟨data, written, read.complete⟩

end Racer
