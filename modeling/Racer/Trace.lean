import Racer.Traces

namespace Racer

/-- `Racer::Trace::Param`; the name is a symbol, kept as its text. -/
structure Trace.Param where
  name : Option String
  typeName : ConstantInstance
  type : ParamType
  deriving DecidableEq, Repr

/-- `Racer::Trace::BlockParam` over block traces of type `τ`. -/
structure Trace.BlockParam (τ : Type) where
  name : Option String
  traces : List τ
  deriving DecidableEq, Repr

/-- `Racer::Trace::BlockTrace`. -/
structure Trace.BlockTrace where
  selfType : Option ConstantInstance
  returnType : ConstantInstance
  params : List Trace.Param
  blockParam : Option (Trace.BlockParam Trace.BlockTrace)

mutual

def Trace.BlockTrace.decideEq : (a b : Trace.BlockTrace) → Decidable (a = b)
  | ⟨selfType, returnType, params, block⟩, ⟨selfType', returnType', params', block'⟩ =>
    have : Decidable (block = block') := Trace.BlockTrace.decideBlock block block'
    decidable_of_iff (selfType = selfType' ∧ returnType = returnType' ∧ params = params' ∧ block = block') (by simp)

def Trace.BlockTrace.decideBlock : (a b : Option (Trace.BlockParam Trace.BlockTrace)) → Decidable (a = b)
  | none, none => .isTrue rfl
  | none, some _ => .isFalse (by simp)
  | some _, none => .isFalse (by simp)
  | some ⟨name, traces⟩, some ⟨name', traces'⟩ =>
    have : Decidable (traces = traces') := Trace.BlockTrace.decideTraces traces traces'
    decidable_of_iff (name = name' ∧ traces = traces') (by simp)

def Trace.BlockTrace.decideTraces : (a b : List Trace.BlockTrace) → Decidable (a = b)
  | [], [] => .isTrue rfl
  | [], _ :: _ => .isFalse (by simp)
  | _ :: _, [] => .isFalse (by simp)
  | t :: traces, t' :: traces' =>
    have : Decidable (t = t') := Trace.BlockTrace.decideEq t t'
    have : Decidable (traces = traces') := Trace.BlockTrace.decideTraces traces traces'
    decidable_of_iff (t = t' ∧ traces = traces') (by simp)

end

instance : DecidableEq Trace.BlockTrace := Trace.BlockTrace.decideEq

/-- `Racer::Trace`, the object the agent queues for its collectors. -/
structure Trace where
  methodOwner : ConstantInstance
  methodCallee : Option ConstantInstance
  methodName : String
  methodKind : MethodKind
  methodVisibility : MethodVisibility
  returnType : ConstantInstance
  params : List Trace.Param
  blockParam : Option (Trace.BlockParam Trace.BlockTrace)
  constantUpdates : List Constant

/-- The constant a collector files the trace under. -/
def Trace.owner (t : Trace) : ConstantInstance :=
  t.methodCallee.getD t.methodOwner

/-- `Racer::Trace::KINDS`. -/
def Trace.KINDS : List MethodKind := [.INSTANCE, .SINGLETON]

/-- `Racer::Trace::VISIBILITIES`. -/
def Trace.VISIBILITIES : List MethodVisibility := [.PUBLIC, .PRIVATE, .PROTECTED]

/-- `Racer::Trace::Constant::TYPES`. -/
def Trace.Constant.TYPES : List ClassType := [.MODULE, .CLASS]

/-- `Racer::Trace::Param::TYPES`. -/
def Trace.Param.TYPES : List ParamType :=
  [.REQUIRED, .OPTIONAL, .REST, .KEYWORD_REQUIRED, .KEYWORD_OPTIONAL, .KEYWORD_REST]

/-- Ruby's `Array#fetch` without a default: a negative index counts from the
end and an index outside the array raises. -/
def fetch {α : Type} (xs : List α) (index : Int) : Option α :=
  if 0 ≤ index then xs[index.toNat]?
  else if 0 ≤ xs.length + index then xs[(xs.length + index).toNat]?
  else none

end Racer
