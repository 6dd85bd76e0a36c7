import Racer.Worker

namespace Racer

/-! The sizes with which `init_worker` allocates the message array. -/

/-- `size_of_constant`. -/
def sizeOfConstant (constant : Constant) : Nat :=
  7 + constant.includedModules.length + constant.prependedModules.length + constant.extendedModules.length

def sizeOfConstantUpdates (constantUpdates : List Constant) : Nat :=
  constantUpdates.foldl (fun size constant => size + sizeOfConstant constant) 1

mutual

def sizeOfConstantInstance : ConstantInstance → Nat
  | ⟨_, _, genericArguments⟩ => 3 + genericArguments.length + sizeOfGenericArguments genericArguments

/-- The outer loop of `size_of_constant_instance`. -/
def sizeOfGenericArguments : List (List ConstantInstance) → Nat
  | [] => 0
  | union :: unions => sizeOfUnion union + sizeOfGenericArguments unions

/-- The inner loop of `size_of_constant_instance`. -/
def sizeOfUnion : List ConstantInstance → Nat
  | [] => 0
  | genericInstance :: union => sizeOfConstantInstance genericInstance + sizeOfUnion union

end

mutual

def sizeOfParams (trace : ReturnTrace) : Nat :=
  match trace with
  | { params, blockParam, .. } => 2 + params.length * 3 + sizeOfBlockParam blockParam

/-- The part of `size_of_params` behind the parameters. -/
def sizeOfBlockParam : Option (BlockParameter ReturnTrace) → Nat
  | none => 0
  | some { blockTraces, .. } => 2 + sizeOfBlockTraces blockTraces

/-- The loop over the block traces, with `size_of_block_trace` in its body. -/
def sizeOfBlockTraces : List ReturnTrace → Nat
  | [] => 0
  | trace :: traces => 2 + sizeOfParams trace + sizeOfBlockTraces traces

end

def sizeOfBlockTrace (trace : ReturnTrace) : Nat :=
  2 + sizeOfParams trace

/-- The callee's share of `array_size`. -/
def sizeOfCallee : Option ConstantInstance → Nat
  | some callee => sizeOfConstantInstance callee
  | none => 1

/-- `array_size` of `init_worker`. -/
def arraySize (trace : ReturnTrace) : Nat :=
  2 + sizeOfConstantInstance trace.returnType + sizeOfConstantInstance trace.methodOwner + sizeOfParams trace +
    sizeOfConstantUpdates trace.constantUpdates + sizeOfCallee trace.methodCallee

theorem length_writeConstant (c : Constant) : (writeConstant c).length = sizeOfConstant c := by
  simp only [writeConstant, sizeOfConstant, List.length_append, List.length_cons, List.length_nil, List.length_map]
  omega

theorem length_writeConstantUpdates (updates : List Constant) :
    (.int updates.length :: updates.flatMap writeConstant).length = sizeOfConstantUpdates updates := by
  have total (size : Nat) (updates : List Constant) : size + (updates.flatMap writeConstant).length =
      updates.foldl (fun size constant => size + sizeOfConstant constant) size := by
    induction updates generalizing size with
    | nil => rfl
    | cons c updates ih =>
      rw [List.flatMap_cons, List.length_append, length_writeConstant, List.foldl_cons, ← ih, Nat.add_assoc]
  rw [List.length_cons, Nat.add_comm, total]
  rfl

/-- The size of an instance is that of what is written for it. -/
theorem length_writeConstantInstance (a : ConstantInstance) :
    (writeConstantInstance a).length = sizeOfConstantInstance a := by
  induction a using ConstantInstance.union_induction with
  | step a ih =>
    obtain ⟨name, singleton, unions⟩ := a
    have union {u : List ConstantInstance}
        (each : ∀ i ∈ u, (writeConstantInstance i).length = sizeOfConstantInstance i) :
        (writeUnion u).length = sizeOfUnion u := by
      induction u with
      | nil => rfl
      | cons i u rest =>
        obtain ⟨first, later⟩ := List.forall_mem_cons.mp each
        rw [writeUnion, List.length_append, first, rest later, sizeOfUnion]
    have all : (writeGenericArguments unions).length = unions.length + sizeOfGenericArguments unions := by
      replace ih : ∀ u ∈ unions, ∀ i ∈ u, (writeConstantInstance i).length = sizeOfConstantInstance i := ih
      induction unions with
      | nil => rfl
      | cons u unions rest =>
        obtain ⟨first, later⟩ := List.forall_mem_cons.mp ih
        rw [writeGenericArguments, List.length_cons, List.length_append, union first, rest later, List.length_cons,
          sizeOfGenericArguments]
        omega
    rw [writeConstantInstance, List.length_append, all, sizeOfConstantInstance]
    simp only [List.length_cons, List.length_nil]
    omega

theorem length_writeCallee (callee : Option ConstantInstance) : (writeCallee callee).length = sizeOfCallee callee := by
  cases callee with
  | none => rfl
  | some callee => exact length_writeConstantInstance callee

theorem three_le_sizeOfConstantInstance (a : ConstantInstance) : 3 ≤ sizeOfConstantInstance a := by
  obtain ⟨name, singleton, unions⟩ := a
  rw [sizeOfConstantInstance]
  omega

theorem sizeOfParams_eq (t : ReturnTrace) :
    sizeOfParams t = 2 + t.params.length * 3 + sizeOfBlockParam t.blockParam := by
  cases t
  rfl

theorem sizeOfBlockTraces_cons (trace : ReturnTrace) (traces : List ReturnTrace) :
    sizeOfBlockTraces (trace :: traces) = sizeOfBlockTrace trace + sizeOfBlockTraces traces := by
  rw [sizeOfBlockTraces, sizeOfBlockTrace]

/-- The calls that are recorded of the block of a trace. -/
def ReturnTrace.recordedCalls (trace : ReturnTrace) : List ReturnTrace :=
  (trace.blockParam.map (·.blockTraces)).getD []

/-- A parameter counts as three elements, and is written with five or more. -/
theorem length_writeParams_params (params : List Parameter) :
    params.length * 5 ≤ (params.flatMap writeParam).length := by
  induction params with
  | nil => exact Nat.le_refl 0
  | cons param params ih =>
    have instance_ := three_le_sizeOfConstantInstance param.typeName
    rw [List.flatMap_cons, List.length_append, writeParam, List.length_append, length_writeConstantInstance]
    simp only [List.length_cons, List.length_nil]
    omega

/-- A block trace counts as two elements and its parameters, and is written with six or
more in front of these. -/
theorem length_writeBlockTraces {traces : List ReturnTrace} {written : List Json}
    (each : ∀ t ∈ traces, ∀ w, writeParams t = some w → sizeOfParams t ≤ w.length)
    (run : writeBlockTraces traces = some written) :
    sizeOfBlockTraces traces + traces.length * 4 ≤ written.length := by
  induction traces generalizing written with
  | nil =>
    cases run
    exact Nat.le_refl 0
  | cons t traces ih =>
    obtain ⟨first, later⟩ := List.forall_mem_cons.mp each
    obtain ⟨selfType, _, run⟩ := Option.bind_eq_some_iff.mp run
    obtain ⟨params, atParams, run⟩ := Option.bind_eq_some_iff.mp run
    obtain ⟨rest, atRest, same⟩ := Option.bind_eq_some_iff.mp run
    cases same
    have own := first params atParams
    have others := ih later atRest
    have self := three_le_sizeOfConstantInstance selfType
    have returned := three_le_sizeOfConstantInstance t.returnType
    simp only [List.length_append, length_writeConstantInstance, List.length_cons, sizeOfBlockTraces_cons,
      sizeOfBlockTrace]
    omega

/-- The size of the parameters falls short of what is written by at least two for each
parameter and four for each recorded call. -/
theorem sizeOfParams_le (t : ReturnTrace) {written : List Json} (run : writeParams t = some written) :
    sizeOfParams t + t.params.length * 2 + t.recordedCalls.length * 4 ≤ written.length := by
  induction t using ReturnTrace.block_induction generalizing written with
  | step t ih =>
    rw [writeParams_eq] at run
    obtain ⟨block, atBlock, rfl⟩ := Option.map_eq_some_iff.mp run
    have params := length_writeParams_params t.params
    rw [sizeOfParams_eq, ReturnTrace.recordedCalls]
    simp only [List.cons_append, List.length_cons, List.length_append]
    cases blockParam : t.blockParam with
    | none =>
      rw [blockParam] at atBlock
      cases atBlock
      simp only [sizeOfBlockParam, Option.map_none, Option.getD_none, List.length_nil, List.length_cons]
      omega
    | some b =>
      rw [blockParam] at atBlock
      obtain ⟨traces, atTraces, same⟩ := Option.bind_eq_some_iff.mp atBlock
      cases same
      have below := length_writeBlockTraces (fun r recorded w atR => by
        have least := (ih b blockParam).1 r recorded atR
        omega) atTraces
      simp only [sizeOfBlockParam, Option.map_some, Option.getD_some, List.length_append, List.length_cons,
        List.length_nil]
      omega

/-- It is exact only where there is nothing that it counts too low. -/
theorem sizeOfParams_eq_iff {t : ReturnTrace} {written : List Json} (run : writeParams t = some written) :
    sizeOfParams t = written.length ↔ t.params = [] ∧ t.recordedCalls = [] := by
  constructor
  · intro exact
    have less := sizeOfParams_le t run
    exact ⟨List.eq_nil_of_length_eq_zero (by omega), List.eq_nil_of_length_eq_zero (by omega)⟩
  · rintro ⟨params, calls⟩
    rw [writeParams_eq] at run
    obtain ⟨block, atBlock, rfl⟩ := Option.map_eq_some_iff.mp run
    rw [sizeOfParams_eq, params]
    cases blockParam : t.blockParam with
    | none =>
      rw [blockParam] at atBlock
      cases atBlock
      rfl
    | some b =>
      have none : b.blockTraces = [] := by simpa [ReturnTrace.recordedCalls, blockParam] using calls
      rw [blockParam, writeBlockParam, none] at atBlock
      cases atBlock
      simp [sizeOfBlockParam, none, sizeOfBlockTraces]

/-- The array is allocated too small for every trace. -/
theorem arraySize_lt {t : ReturnTrace} {elements : List Json} (run : writeTrace t = some elements) :
    arraySize t < elements.length := by
  obtain ⟨methodName, _, run⟩ := Option.bind_eq_some_iff.mp run
  obtain ⟨params, atParams, same⟩ := Option.bind_eq_some_iff.mp run
  cases same
  have below := sizeOfParams_le t atParams
  have updates := length_writeConstantUpdates t.constantUpdates
  have callee := length_writeCallee t.methodCallee
  rw [arraySize]
  simp only [List.length_append, length_writeConstantInstance, List.length_cons, List.length_nil] at updates callee ⊢
  omega

/-- `array_size` is the number of elements that the writers add. -/
def SizeMatches (t : ReturnTrace) : Prop :=
  ∃ elements, writeTrace t = some elements ∧ arraySize t = elements.length

theorem array_size_never_matches (t : ReturnTrace) : ¬ SizeMatches t := by
  rintro ⟨elements, run, same⟩
  exact absurd same (Nat.ne_of_lt (arraySize_lt run))

/-- A method without parameters is one element short, and one parameter costs two more. -/
theorem array_size_too_small :
    let plain : ReturnTrace :=
      { addr := 1, methodOwner := { name := "A" }, methodName := some "run", returnType := { name := "NilClass" } }
    let withParameter : ReturnTrace :=
      { plain with params := [{ name := some "x", typeName := { name := "A" }, paramType := .REQUIRED }] }
    (arraySize plain = 12 ∧ (writeTrace plain).map List.length = some 13) ∧
      arraySize withParameter = 15 ∧ (writeTrace withParameter).map List.length = some 18 := by
  decide

end Racer
