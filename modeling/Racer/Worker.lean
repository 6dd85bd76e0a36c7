import Racer.Traces

namespace Racer

/-- The values json-c writes into the flat message array. -/
inductive Json
  | string (s : String)
  | boolean (b : Bool)
  | int (n : Int)
  | null
  deriving DecidableEq, Repr

/-- The number behind a C enumerator. -/
def ParamType.index : ParamType → Nat
  | .REQUIRED => 0
  | .OPTIONAL => 1
  | .REST => 2
  | .KEYWORD_REQUIRED => 3
  | .KEYWORD_OPTIONAL => 4
  | .KEYWORD_REST => 5

def ClassType.index : ClassType → Nat
  | .MODULE => 0
  | .CLASS => 1

def MethodKind.index : MethodKind → Nat
  | .INSTANCE => 0
  | .SINGLETON => 1

def MethodVisibility.index : MethodVisibility → Nat
  | .PUBLIC => 0
  | .PRIVATE => 1
  | .PROTECTED => 2

/-- A C string pointer as an array element: the string, or null. -/
def optionalString : Option String → Json
  | some s => .string s
  | none => .null

def writeConstant (constant : Constant) : List Json :=
  [.string constant.name, .boolean constant.anonymous, .int constant.type.index,
    optionalString constant.superclass] ++
  (.int constant.includedModules.length :: constant.includedModules.map .string) ++
  (.int constant.prependedModules.length :: constant.prependedModules.map .string) ++
  (.int constant.extendedModules.length :: constant.extendedModules.map .string)

mutual

def writeConstantInstance : ConstantInstance → List Json
  | ⟨name, singleton, genericArguments⟩ =>
    [.string name, .boolean singleton, .int genericArguments.length] ++
      writeGenericArguments genericArguments

/-- The outer loop of `write_constant_instance`: each union with its size. -/
def writeGenericArguments : List (List ConstantInstance) → List Json
  | [] => []
  | union :: unions => .int union.length :: (writeUnion union ++ writeGenericArguments unions)

/-- The inner loop of `write_constant_instance`. -/
def writeUnion : List ConstantInstance → List Json
  | [] => []
  | genericInstance :: union => writeConstantInstance genericInstance ++ writeUnion union

end

theorem writeUnion_eq (union : List ConstantInstance) :
    writeUnion union = union.flatMap writeConstantInstance := by
  induction union with
  | nil => rfl
  | cons genericInstance union ih => simp only [writeUnion, List.flatMap_cons, ih]

theorem writeGenericArguments_eq (unions : List (List ConstantInstance)) :
    writeGenericArguments unions =
      unions.flatMap (fun union => .int union.length :: union.flatMap writeConstantInstance) := by
  induction unions with
  | nil => rfl
  | cons union unions ih =>
    simp only [writeGenericArguments, writeUnion_eq, ih, List.flatMap_cons, List.cons_append]

theorem writeConstantInstance_eq (a : ConstantInstance) :
    writeConstantInstance a =
      [.string a.name, .boolean a.singleton, .int a.genericArguments.length] ++
        a.genericArguments.flatMap
          (fun union => .int union.length :: union.flatMap writeConstantInstance) := by
  rw [← writeGenericArguments_eq]
  cases a
  rfl

/-- The loop body of `write_params` for one parameter. -/
def writeParam (param : Parameter) : List Json :=
  [optionalString param.name, .int param.paramType.index] ++ writeConstantInstance param.typeName

mutual

/-- `none` is the exception of `std::optional::value` for a block trace that
has no block self type. -/
def writeParams (trace : ReturnTrace) : Option (List Json) :=
  match trace with
  | { params, blockParam, .. } => do
    let block ← writeBlockParam blockParam
    return .int params.length :: (params.flatMap writeParam ++ block)

/-- The part of `write_params` behind the parameters. -/
def writeBlockParam : Option (BlockParameter ReturnTrace) → Option (List Json)
  | none => some [.boolean false]
  | some { name, blockTraces, .. } => do
    let traces ← writeBlockTraces blockTraces
    return [.boolean true, optionalString name, .int blockTraces.length] ++ traces

def writeBlockTraces : List ReturnTrace → Option (List Json)
  | [] => some []
  | trace :: traces => do
    let selfType ← trace.blockSelfType
    let params ← writeParams trace
    let rest ← writeBlockTraces traces
    return writeConstantInstance selfType ++ writeConstantInstance trace.returnType ++ params ++ rest

end

theorem writeParams_eq (t : ReturnTrace) :
    writeParams t = (writeBlockParam t.blockParam).map
      ((.int t.params.length :: t.params.flatMap writeParam) ++ ·) := by
  cases t
  simp only [writeParams]
  cases writeBlockParam _ <;> rfl

def writeBlockTrace (trace : ReturnTrace) : Option (List Json) := do
  let selfType ← trace.blockSelfType
  let params ← writeParams trace
  return writeConstantInstance selfType ++ writeConstantInstance trace.returnType ++ params

def writeCallee : Option ConstantInstance → List Json
  | some callee => writeConstantInstance callee
  | none => [.null]

/-- The array `init_worker` builds for one popped trace. A null method name
would crash `json_object_new_string`. -/
def writeTrace (trace : ReturnTrace) : Option (List Json) := do
  let methodName ← trace.methodName
  let params ← writeParams trace
  return [.string methodName, .int trace.methodKind.index, .int trace.methodVisibility.index] ++
    writeConstantInstance trace.returnType ++
    writeConstantInstance trace.methodOwner ++
    writeCallee trace.methodCallee ++
    (.int trace.constantUpdates.length :: trace.constantUpdates.flatMap writeConstant) ++
    params

end Racer
