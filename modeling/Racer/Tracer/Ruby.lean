import Mathlib.Data.Fintype.Card
import Mathlib.Data.Fintype.Prod
import Racer.Traces

namespace Racer

/-! The answers of the Ruby VM that the extension asks for. -/

inductive RubyType
  | T_CLASS | T_MODULE
  deriving DecidableEq, Repr

/-- The classes and modules of the process, as `κ`, and what the C API says about
them. `superclasses` is `rb_class_superclass` repeated up to nil, `constGetAt` is
none where `rb_const_get_at` raises a NameError, and `address` is the VALUE itself. -/
structure Hierarchy (κ : Type) where
  type : κ → RubyType
  address : κ → Nat
  modName : κ → Option String
  classPathCached : κ → Option String
  superclasses : κ → List κ
  constGetAt : κ → String → Option κ
  modAncestors : κ → List κ
  singletonClass : κ → κ
  objClass : κ → κ
  cObject : κ
  cModule : κ
  cClass : κ
  cArray : κ
  cHash : κ
  mKernel : κ

/-- A VALUE: a class or module, or any other object. -/
inductive Value (κ : Type)
  | constant (k : κ)
  | object (id : Nat)
  deriving DecidableEq, Repr

/-- The objects of the process when an event is delivered. -/
structure Objects (κ : Type) where
  objClass : Nat → κ
  array : Nat → List (Value κ)
  hash : Nat → List (Value κ × Value κ)

variable {κ : Type}

/-- `rb_obj_class`. -/
def Value.objClass (h : Hierarchy κ) (o : Objects κ) : Value κ → κ
  | .constant k => h.objClass k
  | .object id => o.objClass id

def Value.array (o : Objects κ) : Value κ → List (Value κ)
  | .constant _ => []
  | .object id => o.array id

def Value.hash (o : Objects κ) : Value κ → List (Value κ × Value κ)
  | .constant _ => []
  | .object id => o.hash id

/-- The kind symbol of an entry of `rb_tracearg_parameters`. -/
inductive ParameterKind
  | req | opt | rest | keyreq | key | keyrest | nokey | block
  | other (name : String)
  deriving DecidableEq, Repr

/-- A local variable that holds the block: nil, or whether a tracepoint can
target it. -/
inductive LocalBlock
  | nil
  | proc (targetable : Bool)
  deriving DecidableEq, Repr

/-- `rb_tracearg_parameters` and `rb_tracearg_binding` of an event. -/
structure Arguments (κ : Type) where
  parameters : List (ParameterKind × Option String)
  localVariable : String → Value κ
  localBlock : String → LocalBlock
  blockGiven : Bool

/-- A CALL event. `attachedObject` is given when the defined class is a singleton
class; the method tables answer `method_defined?` and its relatives for the
event's method id, without inherited methods. -/
structure CallEvent (κ : Type) where
  methodId : String
  definedClass : κ
  attachedObject : Option (Value κ)
  self : Value κ
  methodDefined : κ → Bool
  publicMethodDefined : κ → Bool
  privateMethodDefined : κ → Bool
  arguments : Arguments κ
  objects : Objects κ

/-- A RETURN event of a method, or a B_RETURN event of a block. -/
structure ReturnEvent (κ : Type) where
  returnValue : Value κ
  objects : Objects κ

/-- A B_CALL event. -/
structure BlockCallEvent (κ : Type) where
  self : Value κ
  arguments : Arguments κ
  objects : Objects κ

/-- The constants of a small program, in which a module `A::B::C` is included into
`A` and outlives the constant `B` of `A`. -/
inductive Sample
  | Object | Kernel | Module | Class | Array | Hash | A | C
  deriving DecidableEq, Repr

instance : Fintype Sample where
  elems := {.Object, .Kernel, .Module, .Class, .Array, .Hash, .A, .C}
  complete k := by cases k <;> decide

/-- The hierarchy of the small program; `true` marks the singleton classes. -/
def sample : Hierarchy (Sample × Bool) where
  type
    | (.Kernel, false) | (.A, false) | (.C, false) => .T_MODULE
    | _ => .T_CLASS
  address
    | (.C, false) => 8
    | _ => 16
  modName
    | (.Object, false) => some "Object"
    | (.Kernel, false) => some "Kernel"
    | (.Module, false) => some "Module"
    | (.Class, false) => some "Class"
    | (.Array, false) => some "Array"
    | (.Hash, false) => some "Hash"
    | (.A, false) => some "A"
    | (.C, false) => some "A::B::C"
    | (_, true) => none
  classPathCached
    | (.Class, false) => some "Class"
    | (.Module, false) => some "Module"
    | _ => none
  superclasses
    | (.A, true) | (.C, true) | (.Kernel, true) | (.Class, false) => [(.Module, false), (.Object, false)]
    | (.Object, true) => [(.Class, false), (.Module, false), (.Object, false)]
    | (.Object, false) | (.Kernel, false) | (.A, false) | (.C, false) => []
    | (_, false) => [(.Object, false)]
    | (_, true) => [(.Object, true), (.Class, false), (.Module, false), (.Object, false)]
  constGetAt
    | (.Object, false), "A" => some (.A, false)
    | _, _ => none
  modAncestors
    | (.Object, false) => [(.Object, false), (.Kernel, false)]
    | (.Class, false) => [(.Class, false), (.Module, false), (.Object, false), (.Kernel, false)]
    | (.A, false) => [(.A, false), (.C, false)]
    | (.Kernel, false) => [(.Kernel, false)]
    | (.C, false) => [(.C, false)]
    | (k, false) => [(k, false), (.Object, false), (.Kernel, false)]
    | (.A, true) => [(.A, true), (.Module, false), (.Object, false), (.Kernel, false)]
    | (.C, true) => [(.C, true), (.Module, false), (.Object, false), (.Kernel, false)]
    | (.Kernel, true) => [(.Kernel, true), (.Module, false), (.Object, false), (.Kernel, false)]
    | (.Object, true) => [(.Object, true), (.Class, false), (.Module, false), (.Object, false), (.Kernel, false)]
    | (k, true) =>
      [(k, true), (.Object, true), (.Class, false), (.Module, false), (.Object, false), (.Kernel, false)]
  singletonClass k := (k.1, true)
  objClass
    | (.Kernel, false) | (.A, false) | (.C, false) => (.Module, false)
    | _ => (.Class, false)
  cObject := (.Object, false)
  cModule := (.Module, false)
  cClass := (.Class, false)
  cArray := (.Array, false)
  cHash := (.Hash, false)
  mKernel := (.Kernel, false)

end Racer
