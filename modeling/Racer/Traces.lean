import Mathlib.Data.List.Basic

namespace Racer

inductive ParamType
  | REQUIRED | OPTIONAL | REST | KEYWORD_REQUIRED | KEYWORD_OPTIONAL | KEYWORD_REST
  deriving DecidableEq, Repr

inductive ClassType
  | MODULE | CLASS
  deriving DecidableEq, Repr

inductive MethodKind
  | INSTANCE | SINGLETON
  deriving DecidableEq, Repr

inductive MethodVisibility
  | PUBLIC | PRIVATE | PROTECTED
  deriving DecidableEq, Repr

/-- The exceptions the modelled code runs into. -/
inductive RubyError
  | TypeError | NoMethodError | NameError | SystemStackError
  deriving DecidableEq, Repr

/-- A class or module as it is announced. The same record exists on both
sides of the socket: a C struct in the extension, a Ruby object in the agent. -/
structure Constant where
  name : String
  anonymous : Bool := false
  type : ClassType := .MODULE
  superclass : Option String := none
  includedModules : List String := []
  prependedModules : List String := []
  extendedModules : List String := []
  deriving DecidableEq, Repr

/-- The names a record mentions besides its own. -/
def Constant.mentions (c : Constant) : List String :=
  c.superclass.toList ++ c.includedModules ++ c.prependedModules ++ c.extendedModules

/-- An observed type. `generic_argument_count` and the array behind
`generic_arguments` are one list of unions here; the constructor that builds
them always sets both together. An empty name stands for the null pointer of a
default-initialised instance. -/
structure ConstantInstance where
  name : String := ""
  singleton : Bool := false
  genericArguments : List (List ConstantInstance) := []
  deriving Repr

instance : Inhabited ConstantInstance := ⟨{}⟩

mutual

def ConstantInstance.decideEq : (a b : ConstantInstance) → Decidable (a = b)
  | ⟨n, s, g⟩, ⟨n', s', g'⟩ =>
    match decEq n n', decEq s s', ConstantInstance.decideUnions g g' with
    | .isTrue hn, .isTrue hs, .isTrue hg => .isTrue (by rw [hn, hs, hg])
    | .isFalse hn, _, _ => .isFalse (fun h => hn (congrArg ConstantInstance.name h))
    | _, .isFalse hs, _ => .isFalse (fun h => hs (congrArg ConstantInstance.singleton h))
    | _, _, .isFalse hg => .isFalse (fun h => hg (congrArg ConstantInstance.genericArguments h))

def ConstantInstance.decideUnions : (a b : List (List ConstantInstance)) → Decidable (a = b)
  | [], [] => .isTrue rfl
  | [], _ :: _ => .isFalse (by simp)
  | _ :: _, [] => .isFalse (by simp)
  | u :: us, v :: vs =>
    match ConstantInstance.decideUnion u v, ConstantInstance.decideUnions us vs with
    | .isTrue hu, .isTrue hs => .isTrue (by rw [hu, hs])
    | .isFalse hu, _ => .isFalse (fun h => hu (List.cons.inj h).1)
    | _, .isFalse hs => .isFalse (fun h => hs (List.cons.inj h).2)

def ConstantInstance.decideUnion : (a b : List ConstantInstance) → Decidable (a = b)
  | [], [] => .isTrue rfl
  | [], _ :: _ => .isFalse (by simp)
  | _ :: _, [] => .isFalse (by simp)
  | i :: is, j :: js =>
    match ConstantInstance.decideEq i j, ConstantInstance.decideUnion is js with
    | .isTrue hi, .isTrue hs => .isTrue (by rw [hi, hs])
    | .isFalse hi, _ => .isFalse (fun h => hi (List.cons.inj h).1)
    | _, .isFalse hs => .isFalse (fun h => hs (List.cons.inj h).2)

end

instance : DecidableEq ConstantInstance := ConstantInstance.decideEq

/-- Induction over an instance with the hypothesis for every member of every
generic union, which is the only way the writers and readers recurse. -/
theorem ConstantInstance.union_induction {P : ConstantInstance → Prop}
    (step : ∀ a : ConstantInstance, (∀ u ∈ a.genericArguments, ∀ i ∈ u, P i) → P a)
    (a : ConstantInstance) : P a :=
  @ConstantInstance.rec P (fun us => ∀ u ∈ us, ∀ i ∈ u, P i) (fun u => ∀ i ∈ u, P i)
    (fun n s g ih => step ⟨n, s, g⟩ ih) (by simp)
    (fun _ _ head tail => List.forall_mem_cons.mpr ⟨head, tail⟩) (by simp)
    (fun _ _ head tail => List.forall_mem_cons.mpr ⟨head, tail⟩) a

structure Parameter where
  name : Option String
  typeName : ConstantInstance
  paramType : ParamType
  deriving DecidableEq, Repr

/-- The block parameter of a trace of type `τ`. A `none` on the call stack is
the null pointer pushed for a call of an inner block. A `tracepointId` of 0
means that no tracepoint follows the block. -/
structure BlockParameter (τ : Type) where
  name : Option String := none
  tracepointId : Nat := 0
  blockTraces : List τ := []
  currentBlockCallStack : List (Option τ) := []

/-- A heap-allocated trace record. `addr` is its address, the pointer that a
block tracepoint receives as its data. Method traces have a method name, block
traces have a block self type instead. -/
structure ReturnTrace where
  addr : Nat
  methodOwner : ConstantInstance := {}
  methodCallee : Option ConstantInstance := none
  methodName : Option String := none
  methodKind : MethodKind := .INSTANCE
  methodVisibility : MethodVisibility := .PUBLIC
  returnType : ConstantInstance := {}
  params : List Parameter := []
  rescued : Bool := false
  constantUpdates : List Constant := []
  blockParam : Option (BlockParameter ReturnTrace) := none
  blockSelfType : Option ConstantInstance := none

/-- Induction over a trace with the hypothesis for the recorded and the unfinished
calls of its block. -/
theorem ReturnTrace.block_induction {P : ReturnTrace → Prop}
    (step : ∀ t : ReturnTrace, (∀ b ∈ t.blockParam,
      (∀ r ∈ b.blockTraces, P r) ∧ ∀ c, some c ∈ b.currentBlockCallStack → P c) → P t) (t : ReturnTrace) : P t :=
  @ReturnTrace.rec P
    (fun block => ∀ b ∈ block, (∀ r ∈ b.blockTraces, P r) ∧ ∀ c, some c ∈ b.currentBlockCallStack → P c)
    (fun b => (∀ r ∈ b.blockTraces, P r) ∧ ∀ c, some c ∈ b.currentBlockCallStack → P c)
    (fun traces => ∀ r ∈ traces, P r) (fun calls => ∀ c, some c ∈ calls → P c) (fun call => ∀ c ∈ call, P c)
    (fun _ _ _ _ _ _ _ _ _ _ _ _ ih => step _ ih) (by simp) (fun _ ih => by simpa using ih)
    (fun _ _ _ _ traces calls => ⟨traces, calls⟩) (by simp)
    (fun _ _ head tail => List.forall_mem_cons.mpr ⟨head, tail⟩) (by simp)
    (fun head calls first rest c member => (List.mem_cons.mp member).elim (fun same => first c same.symm) (rest c))
    (by simp) (fun _ ih => by simpa using ih) t

end Racer
